import Dctl.Dke1.Wrap
import Dctl.Core.Store

/-! Turning one offered secret back into the root key (`vault/unlock.rs`).  A slot that the secret
cannot open is skipped, whatever is wrong with it, and the first slot that unwraps wins. -/

namespace Dctl.Core

open ProofKit Crypto Kdf Dke1

@[simp, reducible] def envelopeObjectKey : String := "system/envelope.bin"

inductive UnlockKey where
  | password (password : String)
  | recoveryPhrase (phrase : String)
  deriving DecidableEq, Repr

variable (L : Libraries) (A : KdfPrimitives)

namespace UnlockKey

def slotType : UnlockKey → UInt8
  | .password _ => slotTypePassword
  | .recoveryPhrase _ => slotTypeMnemonic

def kek (key : UnlockKey) (salt : Bytes) (cost : Cost) : Except CryptoError Key :=
  match key with
  | .password passphrase => deriveKek A L.toPrimitives L.toUnicode passphrase none salt cost
  | .recoveryPhrase phrase => deriveKekFromMnemonic A phrase salt cost

def slotCost (slot : Slot) : Cost :=
  { mCost := slot.mCost, tCost := slot.tCost, pLanes := slot.pLanes }

def deriveKek (key : UnlockKey) (slot : Slot) : StateM (List Slot) (Option Key) :=
  if slot.slotType ≠ key.slotType then pure none
  else do
    modify (· ++ [slot])
    pure (key.kek L A slot.salt (slotCost slot)).toOption

end UnlockKey

def unsupported (slot : Slot) : Bool :=
  slot.flags ≠ 0 || slot.wrapAlgo ≠ wrapAlgoXchacha20Poly1305 || slot.kdfId ≠ kdfIdArgon2id

def recoverRoot (key : UnlockKey) (vaultId : VaultId) : List Slot → StateM (List Slot) (Option Key)
  | [] => pure none
  | slot :: rest =>
    if unsupported slot then recoverRoot key vaultId rest
    else do
      match ← key.deriveKek L A slot with
      | none => recoverRoot key vaultId rest
      | some kek =>
        match unwrapSlot L.toPrimitives L.hkdf slot kek vaultId with
        | .ok root => pure (some root)
        | .error _ => recoverRoot key vaultId rest

def unlockRoot (key : UnlockKey) (env : Envelope) : Option Key :=
  (recoverRoot L A key env.vaultId env.slots []).1

def triedSlots (key : UnlockKey) (env : Envelope) : List Slot :=
  (recoverRoot L A key env.vaultId env.slots []).2

def noEnvelope : StoreError → CoreError
  | .notFound _ => .noVault envelopeObjectKey
  | e => .store e

/-- Unlock a vault with a secret.  `opening` is what follows on the root key: assembling the vault
around it and loading the imported identities. -/
def unlock (opening : Key → VaultId → VaultM Vault) (key : UnlockKey) : VaultM Vault := do
  let stored ← tryFetch envelopeObjectKey
  let bytes ← Prog.ofExcept (stored.mapError noEnvelope)
  let env ← Prog.ofExcept ((Dke1.parse bytes).mapError fun _ => .unlock)
  let root ← Prog.ofExcept (okOr .unlock (unlockRoot L A key env))
  opening root env.vaultId

variable {L A}

def slotRoot (L : Libraries) (A : KdfPrimitives) (key : UnlockKey) (vaultId : VaultId)
    (slot : Slot) : Option Key :=
  if unsupported slot ∨ slot.slotType ≠ key.slotType then none
  else do
    let kek ← (key.kek L A slot.salt (UnlockKey.slotCost slot)).toOption
    (unwrapSlot L.toPrimitives L.hkdf slot kek vaultId).toOption

/-- A slot was made by `wrap_slot` from a secret and a root key. -/
def UnlockKey.Wraps (L : Libraries) (A : KdfPrimitives) (key : UnlockKey) (vaultId : VaultId)
    (root : Key) (slot : Slot) : Prop :=
  ∃ nonce kek cost salt aux, key.kek L A salt cost = .ok kek ∧
    wrapSlot L.toPrimitives L.hkdf nonce kek root vaultId key.slotType kdfIdArgon2id cost salt aux =
      .ok slot

theorem recoverRoot_cons (key : UnlockKey) (vaultId : VaultId) (slot : Slot)
    (rest tried : List Slot) :
    recoverRoot L A key vaultId (slot :: rest) tried =
      if unsupported slot ∨ slot.slotType ≠ key.slotType then
        recoverRoot L A key vaultId rest tried
      else
        match slotRoot L A key vaultId slot with
        | some root => (some root, tried ++ [slot])
        | none => recoverRoot L A key vaultId rest (tried ++ [slot]) := by
  rw [recoverRoot]
  by_cases hskip : unsupported slot = true
  · rw [if_pos hskip, if_pos (Or.inl hskip)]
  · rw [if_neg hskip]
    by_cases htype : slot.slotType = key.slotType
    · have hboth : ¬(unsupported slot = true ∨ slot.slotType ≠ key.slotType) := by
        rintro (h | h)
        · exact hskip h
        · exact h htype
      rw [if_neg hboth]
      have htry : key.deriveKek L A slot tried =
          ((key.kek L A slot.salt (UnlockKey.slotCost slot)).toOption, tried ++ [slot]) := by
        unfold UnlockKey.deriveKek
        rw [if_neg (not_not.mpr htype)]
        rfl
      have hstep {f : Option Key → StateM (List Slot) (Option Key)} :
          (key.deriveKek L A slot >>= f) tried =
            f (key.kek L A slot.salt (UnlockKey.slotCost slot)).toOption (tried ++ [slot]) := by
        show (let (a, t) := key.deriveKek L A slot tried; f a t) = _
        rw [htry]
      rw [hstep, slotRoot, if_neg hboth]
      cases key.kek L A slot.salt (UnlockKey.slotCost slot) with
      | error e => rfl
      | ok kek =>
        simp only [Except.toOption, Option.bind_eq_bind, Option.bind_some]
        cases unwrapSlot L.toPrimitives L.hkdf slot kek vaultId <;> rfl
    · rw [if_pos (Or.inr htype)]
      have htry : key.deriveKek L A slot = pure none := by
        unfold UnlockKey.deriveKek
        rw [if_pos htype]
      rw [htry, pure_bind]

theorem recoverRoot_fst (key : UnlockKey) (vaultId : VaultId) (slots tried : List Slot) :
    (recoverRoot L A key vaultId slots tried).1 = slots.findSome? (slotRoot L A key vaultId) := by
  induction slots generalizing tried with
  | nil => rfl
  | cons slot slots ih =>
    rw [recoverRoot_cons, List.findSome?_cons]
    by_cases hskip : unsupported slot = true ∨ slot.slotType ≠ key.slotType
    · have hnone : slotRoot L A key vaultId slot = none := by
        unfold slotRoot
        rw [if_pos hskip]
      rw [if_pos hskip, ih, hnone]
    · rw [if_neg hskip]
      cases slotRoot L A key vaultId slot with
      | none => exact ih _
      | some root => rfl

theorem slotType_of_mem_tried {key : UnlockKey} {vaultId : VaultId} {slots tried : List Slot}
    (htried : ∀ slot ∈ tried, slot.slotType = key.slotType) :
    ∀ slot ∈ (recoverRoot L A key vaultId slots tried).2, slot.slotType = key.slotType := by
  induction slots generalizing tried with
  | nil => exact htried
  | cons first slots ih =>
    rw [recoverRoot_cons]
    by_cases hskip : unsupported first = true ∨ first.slotType ≠ key.slotType
    · rw [if_pos hskip]
      exact ih htried
    · rw [if_neg hskip]
      have hnext : ∀ slot ∈ tried ++ [first], slot.slotType = key.slotType := by
        intro slot hslot
        rcases List.mem_append.mp hslot with h | h
        · exact htried slot h
        · rw [List.mem_singleton.mp h]
          exact not_not.mp fun hne => hskip (Or.inr hne)
      cases slotRoot L A key vaultId first with
      | none => exact ih hnext
      | some root => exact hnext

section Slots

variable {key : UnlockKey} {vaultId : VaultId} {root : Key} {slot : Slot}

theorem slotRoot_of_wraps (hP : L.toPrimitives.Lawful) (h : key.Wraps L A vaultId root slot) :
    slotRoot L A key vaultId slot = some root := by
  obtain ⟨nonce, kek, cost, salt, aux, hkek, hwrap⟩ := h
  have hunwrap := unwrapSlot_wrapSlot hP hwrap
  obtain ⟨aad, wrappedRoot, -, -, hslot⟩ := wrapSlot_eq_ok.mp hwrap
  have hsupported : ¬(unsupported slot = true ∨ slot.slotType ≠ key.slotType) := by
    rintro (h | h)
    · rw [hslot] at h
      cases h
    · rw [hslot] at h
      exact h rfl
  have hkek' : key.kek L A slot.salt (UnlockKey.slotCost slot) = .ok kek := by
    rw [hslot]
    exact hkek
  unfold slotRoot
  rw [if_neg hsupported, hkek']
  simp only [hunwrap, Except.toOption, Option.bind_eq_bind, Option.bind_some]

theorem wraps_of_slotRoot (hA : L.toPrimitives.Authentic)
    (h : slotRoot L A key vaultId slot = some root) : key.Wraps L A vaultId root slot := by
  unfold slotRoot at h
  by_cases hskip : unsupported slot = true ∨ slot.slotType ≠ key.slotType
  · rw [if_pos hskip] at h
    cases h
  · rw [if_neg hskip] at h
    simp only [Option.bind_eq_bind, Option.bind_eq_some_iff] at h
    obtain ⟨kek, hkek, h⟩ := h
    have hunwrap := toOption_eq_some.mp h
    simp only [not_or, unsupported, Bool.or_eq_true, decide_eq_true_eq, not_not] at hskip
    obtain ⟨⟨⟨hflags, halgo⟩, hkdf⟩, htype⟩ := hskip
    simp only [unwrapSlot, bind_eq_ok, reject_eq_ok, okOr_eq_ok, ne_eq, not_not,
      Block.of?_eq_some] at hunwrap
    obtain ⟨_, hcommit, aad, haad, _, hdecrypt, rfl⟩ := hunwrap
    have hencrypt := Aead.encrypt_of_decrypt hA hdecrypt (by rw [root.length]; decide)
    rw [hflags, halgo, hkdf, htype] at haad
    refine ⟨Block.slice nonceLen slot.wrappedRoot 0, kek, UnlockKey.slotCost slot, slot.salt,
      slot.aux, toOption_eq_some.mp hkek,
      wrapSlot_eq_ok.mpr ⟨aad, slot.wrappedRoot, haad, hencrypt, ?_⟩⟩
    rw [hcommit, ← htype, ← hflags, ← halgo, ← hkdf]
    rfl

theorem unlockRoot_eq {env : Envelope}
    (hsome : ∃ slot ∈ env.slots, slotRoot L A key env.vaultId slot = some root)
    (honly : ∀ slot ∈ env.slots, ∀ other, slotRoot L A key env.vaultId slot = some other →
      other = root) : unlockRoot L A key env = some root := by
  unfold unlockRoot
  rw [recoverRoot_fst]
  cases hfind : env.slots.findSome? (slotRoot L A key env.vaultId) with
  | none =>
    obtain ⟨slot, hslot, hroot⟩ := hsome
    rw [List.findSome?_eq_none_iff.mp hfind slot hslot] at hroot
    cases hroot
  | some other =>
    obtain ⟨slot, hslot, hother⟩ := List.exists_of_findSome?_eq_some hfind
    rw [honly slot hslot other hother]

end Slots

theorem run_unlock {opening : Key → VaultId → VaultM Vault} {key : UnlockKey} {s s' : Stores}
    {bytes : Bytes} {env : Envelope} {root : Key} {x : Except CoreError Vault}
    (hget : s.objects[envelopeObjectKey]? = some bytes) (hparse : Dke1.parse bytes = .ok env)
    (hroot : unlockRoot L A key env = some root) :
    Prog.Run honest (unlock L A opening key).run s x s' ↔
      Prog.Run honest (opening root env.vaultId).run s x s' := by
  have hfetch : s.objects.get envelopeObjectKey = .ok bytes := by
    simp [Backend.get, hget, okOr]
  simp only [unlock, tryFetch, Prog.run_query_bind, honest, Stores.Honest, hfetch]
  constructor
  · rintro ⟨_, _, ⟨rfl, rfl⟩, h⟩
    simpa only [Except.mapError, hparse, hroot, okOr, Prog.run_ofExcept_ok_bind] using h
  · intro h
    refine ⟨_, _, ⟨rfl, rfl⟩, ?_⟩
    simpa only [Except.mapError, hparse, hroot, okOr, Prog.run_ofExcept_ok_bind] using h

/-- If a slot was wrapped from the secret and the vault's root key, and no slot was wrapped from
that secret and another key, unlocking returns that root key, whatever else the slots contain.  The
secret is tried only against slots of its own type. -/
theorem unlock_returns_root (L : Libraries) (A : KdfPrimitives) (hP : L.toPrimitives.Lawful)
    (hA : L.toPrimitives.Authentic) (opening : Key → VaultId → VaultM Vault) (key : UnlockKey) :
    (∀ (s : Stores) (bytes : Bytes) (env : Envelope) (root : Key),
      s.objects[envelopeObjectKey]? = some bytes → Dke1.parse bytes = .ok env →
      (∃ slot ∈ env.slots, key.Wraps L A env.vaultId root slot) →
      (∀ slot ∈ env.slots, ∀ other, key.Wraps L A env.vaultId other slot → other = root) →
      ∀ x s', Prog.Run honest (unlock L A opening key).run s x s' ↔
        Prog.Run honest (opening root env.vaultId).run s x s') ∧
    ∀ env, ∀ slot ∈ triedSlots L A key env, slot.slotType = key.slotType := by
  constructor
  · intro s bytes env root hget hparse hsome honly x s'
    apply run_unlock hget hparse
    apply unlockRoot_eq
    · obtain ⟨slot, hslot, hwraps⟩ := hsome
      exact ⟨slot, hslot, slotRoot_of_wraps hP hwraps⟩
    · intro slot hslot other hother
      exact honly slot hslot other (wraps_of_slotRoot hA hother)
  · intro env
    apply slotType_of_mem_tried
    intro slot hslot
    cases hslot

def clearKdf : KdfPrimitives where
  hashPassword _ secret salt := .ok (Block.slice 32 (secret ++ salt) 0)
  seed phrase := .ok (utf8 phrase)

def sampleKek : Key := Block.slice 32 (utf8 "p") 0

def sampleSlot (root : Key) : Slot where
  slotType := 1
  flags := 0
  kdfId := 1
  wrapAlgo := 1
  mCost := 8
  tCost := 1
  pLanes := 1
  commit := sampleKek
  salt := []
  aux := []
  wrappedRoot := List.replicate 24 0 ++ (root.bytes ++ List.replicate 16 0)

def sampleOpening (root : Key) (vaultId : VaultId) : VaultM Vault :=
  pure { rootKey := root, nameKeys := ⟨default, default⟩, vaultId, chunkSize := 2,
         identity := ⟨default, default⟩, imported := [] }

theorem sampleSlot_wraps (vaultId : VaultId) (root : Key) :
    (UnlockKey.password "p").Wraps clearLibraries clearKdf vaultId root (sampleSlot root) := by
  have hkek : (UnlockKey.password "p").kek clearLibraries clearKdf [] Cost.test =
      .ok sampleKek := by
    decide
  refine ⟨default, sampleKek, Cost.test, [], [], hkek, wrapSlot_eq_ok.mpr ?_⟩
  have hshort : root.bytes.length ≤ maxMessageLen := by
    rw [root.length]
    decide
  refine ⟨_, _, rfl, Aead.encrypt_eq_ok.mpr ⟨_, if_pos hshort, rfl⟩, ?_⟩
  have hcommit : commitment clearLibraries.hkdf sampleKek = sampleKek := by decide
  rw [hcommit]
  rfl

theorem sampleSlot_wellFormed (root : Key) : (sampleSlot root).WellFormed := by
  obtain ⟨_, _, _, _, _, -, hwrap⟩ := sampleSlot_wraps default root
  exact wellFormed_of_wrapSlot clearPrimitives_lawful hwrap

def envelopeStores (env : Envelope) : Stores :=
  { objects := (∅ : Backend).insert envelopeObjectKey env.bytes, rows := ∅ }

theorem envelopeStores_get (env : Envelope) :
    (envelopeStores env).objects[envelopeObjectKey]? = some env.bytes :=
  Std.ExtTreeMap.getElem?_insert_self

def rootA : Key := Block.replicate 32 1
def rootB : Key := Block.replicate 32 2

def hostileEnvelope : Envelope where
  vaultId := default
  slots := [{ sampleSlot rootA with flags := 1 }, { sampleSlot rootA with mCost := 4294967295 },
    { sampleSlot rootA with slotType := 2 },
    { sampleSlot rootA with wrappedRoot := List.replicate 72 7 }, sampleSlot rootB]

def twoRoots : Envelope where
  vaultId := default
  slots := [sampleSlot rootA, sampleSlot rootB]

theorem hostileEnvelope_wellFormed : hostileEnvelope.WellFormed where
  nonempty := by simp [hostileEnvelope]
  length := by decide
  slots := by
    intro slot hslot
    have hsample := sampleSlot_wellFormed
    simp only [hostileEnvelope, List.mem_cons, List.not_mem_nil, or_false] at hslot
    rcases hslot with rfl | rfl | rfl | rfl | rfl
    · exact ⟨(hsample rootA).salt, (hsample rootA).aux, (hsample rootA).wrappedRoot,
        (hsample rootA).wrapAlgo⟩
    · exact ⟨(hsample rootA).salt, (hsample rootA).aux, (hsample rootA).wrappedRoot,
        (hsample rootA).wrapAlgo⟩
    · exact ⟨(hsample rootA).salt, (hsample rootA).aux, (hsample rootA).wrappedRoot,
        (hsample rootA).wrapAlgo⟩
    · exact ⟨by decide, by decide, by decide, fun _ => by decide⟩
    · exact hsample rootB

theorem twoRoots_wellFormed : twoRoots.WellFormed where
  nonempty := by simp [twoRoots]
  length := by decide
  slots := by
    intro slot hslot
    simp only [twoRoots, List.mem_cons, List.not_mem_nil, or_false] at hslot
    rcases hslot with rfl | rfl
    · exact sampleSlot_wellFormed rootA
    · exact sampleSlot_wellFormed rootB

theorem unlock_returns_root_hostile :
    ∃ v, Prog.Run honest (unlock clearLibraries clearKdf sampleOpening (.password "p")).run
      (envelopeStores hostileEnvelope) (.ok v) (envelopeStores hostileEnvelope) ∧
      v.rootKey = rootB := by
  refine ⟨_, ((unlock_returns_root clearLibraries clearKdf clearPrimitives_lawful
    clearPrimitives_authentic sampleOpening (.password "p")).1 _ _ hostileEnvelope rootB
    (envelopeStores_get _) hostileEnvelope_wellFormed.parse ?_ ?_ _ _).mpr
      (Prog.run_pure.mpr ⟨rfl, rfl⟩), rfl⟩
  · exact ⟨sampleSlot rootB, by simp [hostileEnvelope], sampleSlot_wraps _ _⟩
  · intro slot hslot other hother
    have hroot := @slotRoot_of_wraps clearLibraries _ _ _ _ _ clearPrimitives_lawful hother
    have hall : ∀ slot ∈ hostileEnvelope.slots,
        slotRoot clearLibraries clearKdf (.password "p") default slot = none ∨
          slotRoot clearLibraries clearKdf (.password "p") default slot = some rootB := by
      decide
    rcases hall slot hslot with hnone | hsome
    · exact absurd (hroot.symm.trans hnone) (by simp)
    · exact Option.some.inj (hroot.symm.trans hsome)

/-- Of two root keys that one password wraps in two slots, unlocking returns the first. -/
theorem unlock_prefers_first_slot :
    clearLibraries.toPrimitives.Lawful ∧ clearLibraries.toPrimitives.Authentic ∧
      Dke1.parse twoRoots.bytes = .ok twoRoots ∧
      (∃ slot ∈ twoRoots.slots,
        (UnlockKey.password "p").Wraps clearLibraries clearKdf twoRoots.vaultId rootB slot) ∧
      ∃ v, Prog.Run honest (unlock clearLibraries clearKdf sampleOpening (.password "p")).run
        (envelopeStores twoRoots) (.ok v) (envelopeStores twoRoots) ∧ v.rootKey ≠ rootB := by
  have hroot : unlockRoot clearLibraries clearKdf (.password "p") twoRoots = some rootA := by
    decide
  refine ⟨clearPrimitives_lawful, clearPrimitives_authentic, twoRoots_wellFormed.parse,
    ⟨sampleSlot rootB, by simp [twoRoots], sampleSlot_wraps _ _⟩, _,
    (run_unlock (envelopeStores_get _) twoRoots_wellFormed.parse hroot).mpr
      (Prog.run_pure.mpr ⟨rfl, rfl⟩), ?_⟩
  show rootA ≠ rootB
  decide

end Dctl.Core
