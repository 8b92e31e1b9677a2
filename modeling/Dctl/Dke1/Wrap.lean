import Dctl.Dke1.Serialize
import Dctl.Kdf.Derive

/-! Wrapping the root key into a slot (`envelope/wrap.rs`).  A key that is not the one a slot was
wrapped under fails the commitment, before the cipher is asked. -/

namespace Dctl.Dke1

open ProofKit Crypto Kdf

@[simp, reducible] def slotTypePassword : UInt8 := 1
@[simp, reducible] def slotTypeMnemonic : UInt8 := 2
@[simp, reducible] def kdfIdArgon2id : UInt8 := 1

def slotCommitInfo : Bytes := ascii "dctl-slot-commit-v1"
def slotAadPrefix : Bytes := ascii "dctl-slot-v1::"

variable (P : Primitives) (hkdf : (ikm info : Bytes) → Key)

def slotAad (vaultId : VaultId) (slotType flags kdfId wrapAlgo : UInt8) (salt aux : Bytes) :
    Except CryptoError Bytes := do
  reject (2 ^ 8 ≤ salt.length) (.format "salt too long")
  reject (2 ^ 16 ≤ aux.length) (.format "aux too long")
  pure (slotAadPrefix ++ vaultId.bytes ++ [slotType, flags, kdfId, wrapAlgo] ++
    le 1 salt.length ++ salt ++ le 2 aux.length ++ aux)

def commitment (kek : Key) : Block commitLen := hkdf kek.bytes slotCommitInfo

def wrapSlot (nonce : Nonce) (kek rootKey : Key) (vaultId : VaultId) (slotType kdfId : UInt8)
    (cost : Cost) (salt aux : Bytes) : Except CryptoError Slot := do
  let flags := 0
  let wrapAlgo := wrapAlgoXchacha20Poly1305
  let aad ← slotAad vaultId slotType flags kdfId wrapAlgo salt aux
  let wrappedRoot ← Aead.encrypt P kek nonce rootKey.bytes aad
  pure { slotType, flags, kdfId, wrapAlgo, mCost := cost.mCost, tCost := cost.tCost,
         pLanes := cost.pLanes, commit := commitment hkdf kek, salt, aux, wrappedRoot }

def unwrapSlot (slot : Slot) (kek : Key) (vaultId : VaultId) : Except CryptoError Key := do
  reject (commitment hkdf kek ≠ slot.commit) .aead
  let aad ← slotAad vaultId slot.slotType slot.flags slot.kdfId slot.wrapAlgo slot.salt slot.aux
  let pt ← Aead.decrypt P kek slot.wrappedRoot aad
  okOr (.format "unwrapped root wrong length") (Block.of? keyLen pt)

variable {P hkdf}

variable {aux salt : Bytes} {cost : Cost} {kek rootKey : Key} {nonce : Nonce} {slot : Slot}
  {kdfId slotType : UInt8} {vaultId : VaultId}

theorem wrapSlot_eq_ok :
    wrapSlot P hkdf nonce kek rootKey vaultId slotType kdfId cost salt aux = .ok slot ↔
      ∃ aad wrappedRoot,
        slotAad vaultId slotType 0 kdfId wrapAlgoXchacha20Poly1305 salt aux = .ok aad ∧
        Aead.encrypt P kek nonce rootKey.bytes aad = .ok wrappedRoot ∧
        slot = { slotType, flags := 0, kdfId, wrapAlgo := wrapAlgoXchacha20Poly1305,
                 mCost := cost.mCost, tCost := cost.tCost, pLanes := cost.pLanes,
                 commit := commitment hkdf kek, salt, aux, wrappedRoot } := by
  simp only [wrapSlot, bind_eq_ok, pure_eq_ok]
  constructor
  · rintro ⟨aad, haad, wrappedRoot, hwrapped, rfl⟩
    exact ⟨aad, wrappedRoot, haad, hwrapped, rfl⟩
  · rintro ⟨aad, wrappedRoot, haad, hwrapped, rfl⟩
    exact ⟨aad, haad, wrappedRoot, hwrapped, rfl⟩

theorem unwrapSlot_wrapSlot (hP : P.Lawful)
    (h : wrapSlot P hkdf nonce kek rootKey vaultId slotType kdfId cost salt aux = .ok slot) :
    unwrapSlot P hkdf slot kek vaultId = .ok rootKey := by
  obtain ⟨aad, wrappedRoot, haad, hwrapped, rfl⟩ := wrapSlot_eq_ok.mp h
  simp only [unwrapSlot, bind_eq_ok, reject_eq_ok, okOr_eq_ok, ne_eq, not_not]
  exact ⟨(), trivial, aad, haad, _, Aead.decrypt_encrypt hP hwrapped, by simp⟩

theorem commit_of_unwrapSlot (h : unwrapSlot P hkdf slot kek vaultId = .ok rootKey) :
    commitment hkdf kek = slot.commit := by
  simp only [unwrapSlot, bind_eq_ok, reject_eq_ok, ne_eq, not_not] at h
  obtain ⟨_, hcommit, -⟩ := h
  exact hcommit

theorem wellFormed_of_wrapSlot (hP : P.Lawful)
    (h : wrapSlot P hkdf nonce kek rootKey vaultId slotType kdfId cost salt aux = .ok slot) :
    slot.WellFormed := by
  obtain ⟨aad, wrappedRoot, haad, hwrapped, rfl⟩ := wrapSlot_eq_ok.mp h
  simp only [slotAad, bind_eq_ok, reject_eq_ok, not_le] at haad
  obtain ⟨_, hsalt, _, haux, -⟩ := haad
  have hlen := Aead.encrypt_length hP hwrapped
  rw [rootKey.length] at hlen
  exact ⟨hsalt, haux, by simp only [hlen]; decide, fun _ => hlen⟩

end Dctl.Dke1
