import Dctl.Crypto.Names
import Dctl.ProofKit.Access
import Mathlib.Algebra.Order.BigOperators.Group.List

/-! The `DKE1` envelope (`envelope/model.rs`, `envelope/serialize.rs`): a vault id and a list of key
slots, each of which wraps the same root key.  The parser accepts exactly the byte strings that the
serializer writes. -/

namespace Dctl.Dke1

open ProofKit ProofKit.Access Crypto List

@[simp, reducible] def vaultIdLen : Nat := 16
@[simp, reducible] def maxSlotCount : Nat := 64
@[simp, reducible] def slotFixedPrefixLen : Nat := 57
@[simp, reducible] def commitLen : Nat := 32
@[simp, reducible] def envHeaderLen : Nat := 23
@[simp, reducible] def wrappedRootLen : Nat := nonceLen + keyLen + tagLen
@[simp, reducible] def envelopeVersion : UInt8 := 1
@[simp, reducible] def wrapAlgoXchacha20Poly1305 : UInt8 := 1

/-- `*b"DKE1"`. -/
def envelopeMagic : Bytes := [0x44, 0x4b, 0x45, 0x31]

structure Slot where
  slotType : UInt8
  flags : UInt8
  kdfId : UInt8
  wrapAlgo : UInt8
  mCost : UInt32
  tCost : UInt32
  pLanes : UInt32
  commit : Block commitLen
  salt : Bytes
  aux : Bytes
  wrappedRoot : Bytes
  deriving DecidableEq

structure Envelope where
  vaultId : VaultId
  slots : List Slot
  deriving DecidableEq

def checkedAdd (a b : Nat) : Option Nat := checkedU64 (a + b)

def slotLength (saltLen auxLen wrapLen : Nat) : Option Nat := do
  let v ← checkedAdd slotFixedPrefixLen saltLen
  let v ← checkedAdd v auxLen
  checkedAdd v wrapLen

def slotBytes (slotLen : Nat) (slot : Slot) : Bytes :=
  le 4 slotLen ++ [slot.slotType, slot.flags, slot.kdfId, slot.wrapAlgo] ++
    le 4 slot.mCost.toNat ++ le 4 slot.tCost.toNat ++ le 4 slot.pLanes.toNat ++
    slot.commit.bytes ++ le 1 slot.salt.length ++ slot.salt ++ le 2 slot.aux.length ++ slot.aux ++
    le 2 slot.wrappedRoot.length ++ slot.wrappedRoot

def serializeSlot (slot : Slot) : Except CryptoError Bytes := do
  reject (2 ^ 8 ≤ slot.salt.length) (.format "slot salt too long")
  reject (2 ^ 16 ≤ slot.aux.length) (.format "slot aux too long")
  reject (2 ^ 16 ≤ slot.wrappedRoot.length) (.format "slot wrapped_root too long")
  let slotLen ← okOr (.format "slot_len overflow")
    (slotLength slot.salt.length slot.aux.length slot.wrappedRoot.length)
  reject (2 ^ 32 ≤ slotLen) (.format "slot_len overflow")
  pure (slotBytes slotLen slot)

def serialize (env : Envelope) : Except CryptoError Bytes := do
  reject (env.slots.isEmpty ∨ maxSlotCount < env.slots.length)
    (.format "slot_count out of range (1..=64)")
  let slots ← env.slots.mapM serializeSlot
  pure (envelopeMagic ++ [envelopeVersion] ++ env.vaultId.bytes ++ le 2 env.slots.length ++
    slots.flatten)

structure SlotPrefix where
  slotLen : Nat
  slotType : UInt8
  flags : UInt8
  kdfId : UInt8
  wrapAlgo : UInt8
  mCost : UInt32
  tCost : UInt32
  pLanes : UInt32
  commit : Block commitLen
  saltLen : Nat

def parsePrefix (bytes : Bytes) (off : Nat) : Except (Halt CryptoError) SlotPrefix := do
  let needPrefix ← okOr (.error (.format "slot offset overflow"))
    (checkedAdd off slotFixedPrefixLen)
  check (bytes.length < needPrefix) (.format "slot truncated (prefix)")
  let slotLen ← number bytes off 4
  let slotType ← index bytes (off + 4)
  let flags ← index bytes (off + 5)
  let kdfId ← index bytes (off + 6)
  let wrapAlgo ← index bytes (off + 7)
  let mCost ← number bytes (off + 8) 4
  let tCost ← number bytes (off + 12) 4
  let pLanes ← number bytes (off + 16) 4
  let commit ← block commitLen bytes (off + 20)
  let saltLen ← number bytes (off + 52) 1
  pure { slotLen, slotType, flags, kdfId, wrapAlgo, mCost := UInt32.ofNat mCost,
         tCost := UInt32.ofNat tCost, pLanes := UInt32.ofNat pLanes, commit, saltLen }

/-- The slot at `off`, and the offset behind it.  The offsets that are added without a check stay
within a few bytes of the length of the envelope. -/
def parseSlot (bytes : Bytes) (off : Nat) : Except (Halt CryptoError) (Slot × Nat) := do
  let p ← parsePrefix bytes off
  let auxLenPos ← okOr (.error (.format "slot salt overruns"))
    ((checkedAdd off 53).bind fun v => checkedAdd v p.saltLen)
  check (bytes.length < auxLenPos + 2) (.format "slot truncated (aux_len)")
  let auxLen ← number bytes auxLenPos 2
  let wrapLenPos ← okOr (.error (.format "slot aux overruns"))
    ((checkedAdd auxLenPos 2).bind fun v => checkedAdd v auxLen)
  check (bytes.length < wrapLenPos + 2) (.format "slot truncated (wrap_len)")
  let wrapLen ← number bytes wrapLenPos 2
  let expected ← okOr (.error (.format "slot length overflow"))
    (slotLength p.saltLen auxLen wrapLen)
  check (p.slotLen ≠ expected) (.format "slot_len != 57 + salt_len + aux_len + wrap_len")
  let slotEnd ← okOr (.error (.format "slot end overflow")) (checkedAdd off p.slotLen)
  check (bytes.length < slotEnd) (.format "slot overruns envelope")
  check (p.wrapAlgo = wrapAlgoXchacha20Poly1305 ∧ wrapLen ≠ wrappedRootLen)
    (.format "wrap_len != 72 for XChaCha20-Poly1305 slot")
  let salt ← slice bytes (off + 53) p.saltLen
  let aux ← slice bytes (auxLenPos + 2) auxLen
  let wrappedRoot ← slice bytes (wrapLenPos + 2) wrapLen
  pure ({ slotType := p.slotType, flags := p.flags, kdfId := p.kdfId, wrapAlgo := p.wrapAlgo,
          mCost := p.mCost, tCost := p.tCost, pLanes := p.pLanes, commit := p.commit, salt, aux,
          wrappedRoot }, slotEnd)

def parseSlots (bytes : Bytes) : Nat → Nat → Except (Halt CryptoError) (List Slot × Nat)
  | 0, off => pure ([], off)
  | count + 1, off => do
    let (slot, next) ← parseSlot bytes off
    let (slots, off) ← parseSlots bytes count next
    pure (slot :: slots, off)

def parse (bytes : Bytes) : Except (Halt CryptoError) Envelope := do
  check (bytes.length < envHeaderLen) (.format "envelope too short")
  let magic ← slice bytes 0 4
  check (magic ≠ envelopeMagic) (.format "bad envelope magic")
  let version ← index bytes 4
  check (version ≠ envelopeVersion) (.format "unsupported envelope version")
  let vaultId ← block vaultIdLen bytes 5
  let slotCount ← number bytes 21 2
  check (slotCount = 0 ∨ maxSlotCount < slotCount) (.format "slot_count out of range (1..=64)")
  let (slots, off) ← parseSlots bytes slotCount envHeaderLen
  check (off ≠ bytes.length) (.format "trailing bytes after slots")
  pure { vaultId, slots }

/-- A slot whose fields fit their length fields and whose wrapped root has the length that its
algorithm gives it. -/
structure Slot.WellFormed (slot : Slot) : Prop where
  salt : slot.salt.length < 2 ^ 8
  aux : slot.aux.length < 2 ^ 16
  wrappedRoot : slot.wrappedRoot.length < 2 ^ 16
  wrapAlgo : slot.wrapAlgo = wrapAlgoXchacha20Poly1305 → slot.wrappedRoot.length = wrappedRootLen

/-- An envelope with some slots, within the limit, each well formed. -/
structure Envelope.WellFormed (env : Envelope) : Prop where
  nonempty : env.slots ≠ []
  length : env.slots.length ≤ maxSlotCount
  slots : ∀ slot ∈ env.slots, slot.WellFormed

def Slot.size (slot : Slot) : Nat :=
  slotFixedPrefixLen + slot.salt.length + slot.aux.length + slot.wrappedRoot.length

def Slot.bytes (slot : Slot) : Bytes := slotBytes slot.size slot

def Envelope.bytes (env : Envelope) : Bytes :=
  envelopeMagic ++ [envelopeVersion] ++ env.vaultId.bytes ++ le 2 env.slots.length ++
    (env.slots.map Slot.bytes).flatten

@[simp] theorem Slot.length_bytes (slot : Slot) : slot.bytes.length = slot.size := by
  simp [Slot.bytes, slotBytes, Slot.size]
  omega

variable {slot : Slot}

theorem Slot.WellFormed.size_lt (h : slot.WellFormed) : slot.size < 2 ^ 18 := by
  have hsalt := h.salt
  have haux := h.aux
  have hroot := h.wrappedRoot
  simp only [Slot.size, slotFixedPrefixLen]
  omega

theorem checkedAdd_eq_some {a b c : Nat} :
    checkedAdd a b = some c ↔ a + b < 2 ^ 64 ∧ a + b = c := by
  unfold checkedAdd checkedU64
  by_cases h : a + b < 2 ^ 64
  · rw [if_pos h, Option.some.injEq]
    exact (and_iff_right h).symm
  · rw [if_neg h]
    exact ⟨nofun, fun hc => absurd hc.1 h⟩

theorem slotLength_eq_some {saltLen auxLen wrapLen n : Nat} :
    slotLength saltLen auxLen wrapLen = some n ↔
      slotFixedPrefixLen + saltLen + auxLen + wrapLen < 2 ^ 64 ∧
        slotFixedPrefixLen + saltLen + auxLen + wrapLen = n := by
  simp only [slotLength, Option.bind_eq_bind, Option.bind_eq_some_iff, checkedAdd_eq_some]
  constructor
  · rintro ⟨v, ⟨-, rfl⟩, w, ⟨-, rfl⟩, h⟩
    exact h
  · intro h
    exact ⟨_, ⟨by omega, rfl⟩, _, ⟨by omega, rfl⟩, h⟩

variable {bytes : Bytes}

theorem serializeSlot_eq_ok :
    serializeSlot slot = .ok bytes ↔ slot.salt.length < 2 ^ 8 ∧ slot.aux.length < 2 ^ 16 ∧
      slot.wrappedRoot.length < 2 ^ 16 ∧ slot.bytes = bytes := by
  simp only [serializeSlot, bind_eq_ok, reject_eq_ok, okOr_eq_ok, pure_eq_ok, not_le,
    slotLength_eq_some]
  constructor
  · rintro ⟨_, hsalt, _, haux, _, hroot, _, ⟨-, rfl⟩, _, -, h⟩
    exact ⟨hsalt, haux, hroot, h⟩
  · rintro ⟨hsalt, haux, hroot, h⟩
    have hlen : slot.size < 2 ^ 32 := by
      simp only [Slot.size, slotFixedPrefixLen]
      omega
    exact ⟨(), hsalt, (), haux, (), hroot, slot.size,
      ⟨by simp only [Slot.size] at hlen; omega, rfl⟩, (), hlen, h⟩

theorem Slot.WellFormed.serializeSlot (h : slot.WellFormed) : serializeSlot slot = .ok slot.bytes :=
  serializeSlot_eq_ok.mpr ⟨h.salt, h.aux, h.wrappedRoot, rfl⟩

variable {env : Envelope}

theorem Envelope.WellFormed.serialize (h : env.WellFormed) : serialize env = .ok env.bytes := by
  have hslots : env.slots.mapM serializeSlot = .ok (env.slots.map Slot.bytes) := by
    have hall := h.slots
    generalize env.slots = slots at hall
    induction slots with
    | nil => rfl
    | cons slot slots ih =>
      have hslot := hall slot (mem_cons_self ..)
      rw [mapM_cons, hslot.serializeSlot, ok_bind,
        ih fun s hs => hall s (mem_cons_of_mem _ hs)]
      rfl
  have hcount : ¬(env.slots.isEmpty ∨ maxSlotCount < env.slots.length) := by
    rintro (hempty | hmany)
    · exact h.nonempty (isEmpty_iff.mp hempty)
    · have := h.length
      omega
  simp only [Dke1.serialize, bind_eq_ok, reject_eq_ok, pure_eq_ok]
  exact ⟨(), hcount, _, hslots, rfl⟩

theorem length_le_of_serialize (h : Dke1.serialize env = .ok bytes) :
    env.slots.length ≤ maxSlotCount := by
  simp only [Dke1.serialize, bind_eq_ok, reject_eq_ok, not_or, not_lt] at h
  obtain ⟨_, ⟨-, hlen⟩, -⟩ := h
  exact hlen

structure Slot.ReadAt (slot : Slot) (bytes : Bytes) (off : Nat) : Prop where
  slotLen : leAt bytes off 4 = slot.size
  slotType : byteAt bytes (off + 4) = slot.slotType
  flags : byteAt bytes (off + 5) = slot.flags
  kdfId : byteAt bytes (off + 6) = slot.kdfId
  wrapAlgo : byteAt bytes (off + 7) = slot.wrapAlgo
  mCost : leAt bytes (off + 8) 4 = slot.mCost.toNat
  tCost : leAt bytes (off + 12) 4 = slot.tCost.toNat
  pLanes : leAt bytes (off + 16) 4 = slot.pLanes.toNat
  commit : Block.slice commitLen bytes (off + 20) = slot.commit
  saltLen : leAt bytes (off + 52) 1 = slot.salt.length
  salt : (bytes.drop (off + 53)).take slot.salt.length = slot.salt
  auxLen : leAt bytes (off + 53 + slot.salt.length) 2 = slot.aux.length
  aux : (bytes.drop (off + 53 + slot.salt.length + 2)).take slot.aux.length = slot.aux
  wrapLen : leAt bytes (off + 53 + slot.salt.length + 2 + slot.aux.length) 2 =
    slot.wrappedRoot.length
  wrappedRoot : (bytes.drop (off + 53 + slot.salt.length + 2 + slot.aux.length + 2)).take
    slot.wrappedRoot.length = slot.wrappedRoot

variable {off : Nat}

theorem Slot.ReadAt.drop_eq (h : slot.ReadAt bytes off) (hlen : off + slot.size ≤ bytes.length) :
    bytes.drop off = slot.bytes ++ bytes.drop (off + slot.size) := by
  simp only [Slot.size, slotFixedPrefixLen] at hlen
  have hend : off + 53 + slot.salt.length + 2 + slot.aux.length + 2 + slot.wrappedRoot.length =
      off + slot.size := by
    simp only [Slot.size, slotFixedPrefixLen]
    omega
  conv_lhs =>
    rw [drop_eq_le_append (i := off) 4 (by omega), h.slotLen, drop_eq_byteAt_cons (i := off + 4)
      (by omega), h.slotType, drop_eq_byteAt_cons (i := off + 5) (by omega), h.flags,
      drop_eq_byteAt_cons (i := off + 6) (by omega), h.kdfId, drop_eq_byteAt_cons (i := off + 7)
        (by omega), h.wrapAlgo, drop_eq_le_append (i := off + 8) 4 (by omega), h.mCost,
        drop_eq_le_append (i := off + 12) 4 (by omega), h.tCost, drop_eq_le_append (i := off + 16) 4
          (by omega), h.pLanes, Block.drop_eq_slice_append (i := off + 20) commitLen
            (by simp; omega), h.commit, show off + 20 + commitLen = off + 52 from rfl,
            drop_eq_le_append (i := off + 52) 1 (by omega), h.saltLen, drop_eq_take_append h.salt,
            drop_eq_le_append (i := off + 53 + slot.salt.length) 2 (by omega), h.auxLen,
            drop_eq_take_append h.aux, drop_eq_le_append (i := off + 53 + slot.salt.length + 2 +
              slot.aux.length) 2 (by omega), h.wrapLen, drop_eq_take_append h.wrappedRoot, hend]
  simp [Slot.bytes, slotBytes]

variable {rest : Bytes}

theorem Slot.readAt (hslot : slot.WellFormed) (hdrop : bytes.drop off = slot.bytes ++ rest) :
    slot.ReadAt bytes off := by
  have hsize := hslot.size_lt
  have hat (k : Nat) : bytes.drop (off + k) = (slot.bytes ++ rest).drop k := by
    rw [← hdrop, drop_drop]
  have hsalt : bytes.drop (off + 53) =
      slot.salt ++ (le 2 slot.aux.length ++ slot.aux ++ le 2 slot.wrappedRoot.length ++
        slot.wrappedRoot ++ rest) := by
    rw [hat]
    simp [Slot.bytes, slotBytes, drop_append]
  have haux : bytes.drop (off + 53 + slot.salt.length) =
      le 2 slot.aux.length ++ (slot.aux ++ (le 2 slot.wrappedRoot.length ++ (slot.wrappedRoot ++
        rest))) := by
    rw [← drop_drop, hsalt, drop_left]
    simp
  have haux' : bytes.drop (off + 53 + slot.salt.length + 2) =
      slot.aux ++ (le 2 slot.wrappedRoot.length ++ (slot.wrappedRoot ++ rest)) := by
    rw [← drop_drop, haux, drop_left' (length_le ..)]
  have hroot : bytes.drop (off + 53 + slot.salt.length + 2 + slot.aux.length) =
      le 2 slot.wrappedRoot.length ++ (slot.wrappedRoot ++ rest) := by
    rw [← drop_drop, haux', drop_left]
  have hroot' : bytes.drop (off + 53 + slot.salt.length + 2 + slot.aux.length + 2) =
      slot.wrappedRoot ++ rest := by
    rw [← drop_drop, hroot, drop_left' (length_le ..)]
  exact {
    slotLen := leAt_eq (by rw [hdrop]; simp [Slot.bytes, slotBytes]; rfl) (by omega)
    slotType := byteAt_eq (by rw [hat]; simp [Slot.bytes, slotBytes]; rfl)
    flags := byteAt_eq (by rw [hat]; simp [Slot.bytes, slotBytes, drop_append]; rfl)
    kdfId := byteAt_eq (by rw [hat]; simp [Slot.bytes, slotBytes, drop_append]; rfl)
    wrapAlgo := byteAt_eq (by rw [hat]; simp [Slot.bytes, slotBytes, drop_append]; rfl)
    mCost := leAt_eq (by rw [hat]; simp [Slot.bytes, slotBytes]; rfl) slot.mCost.toNat_lt
    tCost := leAt_eq (by rw [hat]; simp [Slot.bytes, slotBytes]; rfl) slot.tCost.toNat_lt
    pLanes := leAt_eq (by rw [hat]; simp [Slot.bytes, slotBytes]; rfl) slot.pLanes.toNat_lt
    commit := Block.slice_eq (by rw [hat]; simp [Slot.bytes, slotBytes]; rfl)
    saltLen := leAt_eq (by rw [hat]; simp [Slot.bytes, slotBytes, drop_append]; rfl)
      (by have := hslot.salt; omega)
    salt := by rw [hsalt, take_left]
    auxLen := leAt_eq haux (by have := hslot.aux; omega)
    aux := by rw [haux', take_left]
    wrapLen := leAt_eq hroot (by have := hslot.wrappedRoot; omega)
    wrappedRoot := by rw [hroot', take_left] }

structure SlotPrefix.ReadAt (p : SlotPrefix) (bytes : Bytes) (off : Nat) : Prop where
  slotLen : leAt bytes off 4 = p.slotLen
  slotType : byteAt bytes (off + 4) = p.slotType
  flags : byteAt bytes (off + 5) = p.flags
  kdfId : byteAt bytes (off + 6) = p.kdfId
  wrapAlgo : byteAt bytes (off + 7) = p.wrapAlgo
  mCost : leAt bytes (off + 8) 4 = p.mCost.toNat
  tCost : leAt bytes (off + 12) 4 = p.tCost.toNat
  pLanes : leAt bytes (off + 16) 4 = p.pLanes.toNat
  commit : Block.slice commitLen bytes (off + 20) = p.commit
  saltLen : leAt bytes (off + 52) 1 = p.saltLen

theorem parsePrefix_eq_ok {p : SlotPrefix} :
    parsePrefix bytes off = .ok p ↔
      off + 57 < 2 ^ 64 ∧ off + 57 ≤ bytes.length ∧ p.ReadAt bytes off := by
  simp only [parsePrefix, bind_eq_ok, okOr_eq_ok, check_eq_ok, number_eq_ok, index_eq_ok,
    block_eq_ok, pure_eq_ok, checkedAdd_eq_some, not_lt, slotFixedPrefixLen]
  constructor
  · rintro ⟨_, ⟨hmax, rfl⟩, _, hlen, _, ⟨-, rfl⟩, _, ⟨-, rfl⟩, _, ⟨-, rfl⟩, _, ⟨-, rfl⟩, _,
      ⟨-, rfl⟩, _, ⟨-, rfl⟩, _, ⟨-, rfl⟩, _, ⟨-, rfl⟩, _, ⟨-, rfl⟩, _, ⟨-, rfl⟩, rfl⟩
    exact ⟨hmax, hlen, rfl, rfl, rfl, rfl, rfl, (toNat_ofNat_leAt4 ..).symm,
      (toNat_ofNat_leAt4 ..).symm, (toNat_ofNat_leAt4 ..).symm, rfl, rfl⟩
  · rintro ⟨hmax, hlen, h⟩
    refine ⟨_, ⟨hmax, rfl⟩, (), hlen, _, ⟨by omega, h.slotLen⟩, _, ⟨by omega, h.slotType⟩, _,
      ⟨by omega, h.flags⟩, _, ⟨by omega, h.kdfId⟩, _, ⟨by omega, h.wrapAlgo⟩, _,
      ⟨by omega, h.mCost⟩, _, ⟨by omega, h.tCost⟩, _, ⟨by omega, h.pLanes⟩, _,
      ⟨by simp only [commitLen]; omega, h.commit⟩, _, ⟨by omega, h.saltLen⟩, ?_⟩
    simp

theorem parseSlot_imp {next : Nat} (h : parseSlot bytes off = .ok (slot, next)) :
    slot.WellFormed ∧ next = off + slot.size ∧ next ≤ bytes.length ∧
      bytes.drop off = slot.bytes ++ bytes.drop next := by
  simp only [parseSlot, bind_eq_ok, okOr_eq_ok, check_eq_ok, number_eq_ok, slice_eq_ok, pure_eq_ok,
    Option.bind_eq_some_iff, checkedAdd_eq_some, slotLength_eq_some, not_lt, ne_eq, not_not,
    not_and, Prod.mk.injEq] at h
  obtain ⟨p, hp, auxLenPos, ⟨_, ⟨-, rfl⟩, -, rfl⟩, _, haux, auxLen, ⟨-, hauxLen⟩, wrapLenPos,
    ⟨_, ⟨-, rfl⟩, -, rfl⟩, _, hwrap, wrapLen, ⟨-, hwrapLen⟩, expected, ⟨-, rfl⟩, _, hlen, slotEnd,
    ⟨-, rfl⟩, _, hend, _, hroot, salt, ⟨hsaltEnd, hsalt⟩, aux, ⟨hauxEnd, hauxBytes⟩, wrappedRoot,
    ⟨hrootEnd, hrootBytes⟩, rfl, rfl⟩ := h
  obtain ⟨-, -, hread⟩ := parsePrefix_eq_ok.mp hp
  have hsaltL : salt.length = p.saltLen := by
    rw [← hsalt]
    simp
    omega
  have hauxL : aux.length = auxLen := by
    rw [← hauxBytes]
    simp
    omega
  have hwrapL : wrappedRoot.length = wrapLen := by
    rw [← hrootBytes]
    simp
    omega
  rw [← hsaltL] at hsalt hauxLen hauxBytes hwrapLen hrootBytes
  rw [← hauxL] at hauxLen hauxBytes hwrapLen hrootBytes
  rw [← hwrapL] at hwrapLen hrootBytes
  have hsize : p.slotLen = slotFixedPrefixLen + salt.length + aux.length + wrappedRoot.length := by
    rw [hlen, hsaltL, hauxL, hwrapL]
  have hslot : Slot.ReadAt { slotType := p.slotType, flags := p.flags, kdfId := p.kdfId,
                             wrapAlgo := p.wrapAlgo, mCost := p.mCost, tCost := p.tCost,
                             pLanes := p.pLanes, commit := p.commit, salt, aux, wrappedRoot }
      bytes off :=
    ⟨hread.slotLen.trans hsize, hread.slotType, hread.flags, hread.kdfId, hread.wrapAlgo,
      hread.mCost, hread.tCost, hread.pLanes, hread.commit, hread.saltLen.trans hsaltL.symm, hsalt,
      hauxLen, hauxBytes, hwrapLen, hrootBytes⟩
  refine ⟨⟨?_, ?_, ?_, fun ha => hwrapL.trans (hroot ha)⟩, by rw [hsize]; rfl, hend, ?_⟩
  · rw [hsaltL, ← hread.saltLen]
    exact leAt_lt bytes _ 1
  · rw [← hauxLen]
    exact leAt_lt bytes _ 2
  · rw [← hwrapLen]
    exact leAt_lt bytes _ 2
  · have hdrop := hslot.drop_eq (by rw [hsize] at hend; exact hend)
    rw [hsize]
    exact hdrop

theorem parseSlot_of_drop (hlen : bytes.length < 2 ^ 64) (hslot : slot.WellFormed)
    (hdrop : bytes.drop off = slot.bytes ++ rest) :
    parseSlot bytes off = .ok (slot, off + slot.size) := by
  have hread := Slot.readAt hslot hdrop
  have hsize : slot.size = 57 + slot.salt.length + slot.aux.length + slot.wrappedRoot.length := rfl
  have hend : off + slot.size ≤ bytes.length := by
    have h := congrArg List.length hdrop
    simp only [length_drop, length_append, Slot.length_bytes] at h
    omega
  have hpre : parsePrefix bytes off = .ok
      { slotLen := slot.size, slotType := slot.slotType, flags := slot.flags, kdfId := slot.kdfId,
        wrapAlgo := slot.wrapAlgo, mCost := slot.mCost, tCost := slot.tCost, pLanes := slot.pLanes,
        commit := slot.commit, saltLen := slot.salt.length } :=
    parsePrefix_eq_ok.mpr ⟨by omega, by omega, hread.slotLen, hread.slotType, hread.flags,
      hread.kdfId, hread.wrapAlgo, hread.mCost, hread.tCost, hread.pLanes, hread.commit,
      hread.saltLen⟩
  simp only [parseSlot, hpre, ok_bind, bind_eq_ok, okOr_eq_ok, check_eq_ok, number_eq_ok,
    slice_eq_ok, pure_eq_ok, Option.bind_eq_some_iff, checkedAdd_eq_some, slotLength_eq_some,
    not_lt, ne_eq, not_not, not_and, Prod.mk.injEq, slotFixedPrefixLen]
  exact ⟨_, ⟨_, ⟨by omega, rfl⟩, by omega, rfl⟩, (), by omega, _, ⟨by omega, hread.auxLen⟩, _,
    ⟨_, ⟨by omega, rfl⟩, by omega, rfl⟩, (), by omega, _, ⟨by omega, hread.wrapLen⟩, _,
    ⟨by omega, rfl⟩, (), hsize, _, ⟨by omega, rfl⟩, (), by omega, (), hslot.wrapAlgo, _,
    ⟨by omega, hread.salt⟩, _, ⟨by omega, hread.aux⟩, _, ⟨by omega, hread.wrappedRoot⟩, rfl, rfl⟩

theorem parseSlots_imp {count next : Nat} {slots : List Slot}
    (h : parseSlots bytes count off = .ok (slots, next)) :
    slots.length = count ∧ (∀ slot ∈ slots, slot.WellFormed) ∧
      bytes.drop off = (slots.map Slot.bytes).flatten ++ bytes.drop next := by
  induction count generalizing off slots with
  | zero =>
    simp only [parseSlots, pure_eq_ok, Prod.mk.injEq] at h
    obtain ⟨rfl, rfl⟩ := h
    exact ⟨rfl, by simp, rfl⟩
  | succ count ih =>
    simp only [parseSlots, bind_eq_ok, pure_eq_ok, Prod.mk.injEq, Prod.exists] at h
    obtain ⟨slot, mid, hslot, rest, last, hrest, rfl, rfl⟩ := h
    obtain ⟨hwell, -, -, hfirst⟩ := parseSlot_imp hslot
    obtain ⟨hlen, hall, hdrop⟩ := ih hrest
    refine ⟨by rw [length_cons, hlen], ?_, ?_⟩
    · intro s hs
      rcases mem_cons.mp hs with rfl | hs
      · exact hwell
      · exact hall s hs
    · rw [hfirst, hdrop]
      simp

theorem parseSlots_of_drop {slots : List Slot} (hlen : bytes.length < 2 ^ 64)
    (hslots : ∀ slot ∈ slots, slot.WellFormed)
    (hdrop : bytes.drop off = (slots.map Slot.bytes).flatten ++ rest) :
    parseSlots bytes slots.length off =
      .ok (slots, off + ((slots.map Slot.bytes).flatten).length) := by
  induction slots generalizing off with
  | nil => rfl
  | cons slot slots ih =>
    have hfirst : bytes.drop off = slot.bytes ++ ((slots.map Slot.bytes).flatten ++ rest) := by
      rw [hdrop]
      simp
    have hslot := parseSlot_of_drop hlen (hslots slot (mem_cons_self ..)) hfirst
    have hnext : bytes.drop (off + slot.size) = (slots.map Slot.bytes).flatten ++ rest := by
      rw [← drop_drop, hfirst, drop_left' slot.length_bytes]
    have hrest := ih (fun s hs => hslots s (mem_cons_of_mem _ hs)) hnext
    rw [length_cons, parseSlots, hslot, ok_bind]
    dsimp only
    rw [hrest, ok_bind]
    simp only [map_cons, flatten_cons, length_append, Slot.length_bytes,
      Nat.add_assoc]
    rfl

theorem parse_imp (h : parse bytes = .ok env) : env.WellFormed ∧ bytes = env.bytes := by
  simp only [parse, bind_eq_ok, check_eq_ok, slice_eq_ok, index_eq_ok, block_eq_ok, number_eq_ok,
    pure_eq_ok, not_lt, ne_eq, not_not, not_or, Prod.exists] at h
  obtain ⟨_, hlen, _, ⟨-, rfl⟩, _, hmagic, _, ⟨-, rfl⟩, _, hversion, vaultId, ⟨-, hvault⟩, count,
    ⟨-, hcount⟩, _, ⟨hzero, hmax⟩, slots, off, hslots, _, rfl, rfl⟩ := h
  obtain ⟨hnum, hwell, hdrop⟩ := parseSlots_imp hslots
  refine ⟨⟨?_, by rw [hnum]; exact hmax, hwell⟩, ?_⟩
  · rintro rfl
    exact hzero hnum.symm
  · simp only [envHeaderLen] at hlen hdrop
    conv_lhs =>
      rw [← take_append_drop 4 bytes, ← drop_zero (l := bytes), hmagic, drop_zero,
        drop_eq_byteAt_cons (i := 4) (by omega), hversion,
        Block.drop_eq_slice_append (i := 5) vaultIdLen (by simp; omega), hvault,
        show 5 + vaultIdLen = 21 from rfl, drop_eq_le_append (i := 21) 2 (by omega), hcount,
        ← hnum, hdrop, drop_length, append_nil]
    simp [Envelope.bytes]

theorem Envelope.WellFormed.parse (h : env.WellFormed) : parse env.bytes = .ok env := by
  have hmax : env.slots.length ≤ 64 := h.length
  have hcount : env.slots.length < 2 ^ 16 := by omega
  have hpos : 0 < env.slots.length := length_pos_iff.mpr h.nonempty
  have hflat : ((env.slots.map Slot.bytes).flatten).length ≤ 64 * 2 ^ 18 := by
    have hall : ∀ n ∈ (env.slots.map Slot.bytes).map List.length, n ≤ 2 ^ 18 := by
      intro n hn
      simp only [map_map, mem_map, Function.comp_apply, Slot.length_bytes] at hn
      obtain ⟨slot, hslot, rfl⟩ := hn
      exact le_of_lt (h.slots slot hslot).size_lt
    rw [length_flatten]
    calc ((env.slots.map Slot.bytes).map List.length).sum
        ≤ ((env.slots.map Slot.bytes).map List.length).length • 2 ^ 18 :=
          sum_le_card_nsmul _ _ hall
      _ = env.slots.length * 2 ^ 18 := by simp
      _ ≤ 64 * 2 ^ 18 := Nat.mul_le_mul_right _ hmax
  have hbytes : env.bytes = envelopeMagic ++ (envelopeVersion :: (env.vaultId.bytes ++
      (le 2 env.slots.length ++ (env.slots.map Slot.bytes).flatten))) := by
    simp [Envelope.bytes]
  have hlen : env.bytes.length = envHeaderLen + ((env.slots.map Slot.bytes).flatten).length := by
    rw [hbytes]
    simp [envelopeMagic]
    omega
  have hdrop : env.bytes.drop envHeaderLen = (env.slots.map Slot.bytes).flatten ++ [] := by
    rw [hbytes]
    simp [envelopeMagic, drop_append]
  have hslots := parseSlots_of_drop (by simp only [envHeaderLen] at hlen; omega) h.slots hdrop
  simp only [Dke1.parse, bind_eq_ok, check_eq_ok, slice_eq_ok, index_eq_ok, block_eq_ok,
    number_eq_ok, pure_eq_ok, not_lt, ne_eq, not_not, not_or, Prod.exists]
  simp only [envHeaderLen] at hlen
  refine ⟨(), by simp; omega, _, ⟨by omega, rfl⟩, (), ?_, _, ⟨by omega, rfl⟩, (), ?_, env.vaultId,
    ⟨by simp; omega, ?_⟩, env.slots.length, ⟨by omega, ?_⟩, (), ⟨by omega, h.length⟩, _, _, hslots,
    (), ?_, rfl⟩
  · rw [hbytes]
    simp [envelopeMagic]
  · exact byteAt_eq (by rw [hbytes]; simp [envelopeMagic]; rfl)
  · exact Block.slice_eq (by rw [hbytes]; simp [envelopeMagic]; rfl)
  · exact leAt_eq (by rw [hbytes]; simp [envelopeMagic]; rfl) (by omega)
  · simp only [envHeaderLen]
    omega

theorem safe_parsePrefix (bytes : Bytes) (off : Nat) : Safe (parsePrefix bytes off) := by
  unfold parsePrefix
  refine safe_bind (safe_okOr _ _) fun needPrefix hneed => ?_
  refine safe_bind (safe_check _ _) fun _ hpre => ?_
  simp only [okOr_eq_ok, checkedAdd_eq_some, check_eq_ok, not_lt, slotFixedPrefixLen] at hneed hpre
  obtain ⟨-, rfl⟩ := hneed
  refine safe_bind (safe_number (by omega)) fun slotLen _ => ?_
  refine safe_bind (safe_index (by omega)) fun slotType _ => ?_
  refine safe_bind (safe_index (by omega)) fun flags _ => ?_
  refine safe_bind (safe_index (by omega)) fun kdfId _ => ?_
  refine safe_bind (safe_index (by omega)) fun wrapAlgo _ => ?_
  refine safe_bind (safe_number (by omega)) fun mCost _ => ?_
  refine safe_bind (safe_number (by omega)) fun tCost _ => ?_
  refine safe_bind (safe_number (by omega)) fun pLanes _ => ?_
  refine safe_bind (safe_block (by simp only [commitLen]; omega)) fun commit _ => ?_
  exact safe_bind (safe_number (by omega)) fun saltLen _ => safe_pure _

theorem safe_parseSlot (bytes : Bytes) (off : Nat) : Safe (parseSlot bytes off) := by
  unfold parseSlot
  refine safe_bind (safe_parsePrefix bytes off) fun p _ => ?_
  refine safe_bind (safe_okOr _ _) fun auxLenPos hauxPos => ?_
  refine safe_bind (safe_check _ _) fun _ haux => ?_
  rw [check_eq_ok, not_lt] at haux
  refine safe_bind (safe_number haux) fun auxLen _ => ?_
  refine safe_bind (safe_okOr _ _) fun wrapLenPos hwrapPos => ?_
  refine safe_bind (safe_check _ _) fun _ hwrap => ?_
  rw [check_eq_ok, not_lt] at hwrap
  refine safe_bind (safe_number hwrap) fun wrapLen _ => ?_
  refine safe_bind (safe_okOr _ _) fun expected hexpected => ?_
  refine safe_bind (safe_check _ _) fun _ hlen => ?_
  refine safe_bind (safe_okOr _ _) fun slotEnd hslotEnd => ?_
  refine safe_bind (safe_check _ _) fun _ hend => ?_
  -- the three variable fields end where the checked slot ends
  simp only [okOr_eq_ok, Option.bind_eq_some_iff, checkedAdd_eq_some, slotLength_eq_some,
    check_eq_ok, not_lt, ne_eq, not_not] at hauxPos hwrapPos hexpected hlen hslotEnd hend
  obtain ⟨_, ⟨-, rfl⟩, -, rfl⟩ := hauxPos
  obtain ⟨_, ⟨-, rfl⟩, -, rfl⟩ := hwrapPos
  obtain ⟨-, rfl⟩ := hexpected
  obtain ⟨-, rfl⟩ := hslotEnd
  simp only [slotFixedPrefixLen] at hlen
  refine safe_bind (safe_check _ _) fun _ _ => ?_
  refine safe_bind (safe_slice (by omega)) fun salt _ => ?_
  refine safe_bind (safe_slice (by omega)) fun aux _ => ?_
  exact safe_bind (safe_slice (by omega)) fun wrappedRoot _ => safe_pure _

theorem safe_parseSlots (bytes : Bytes) (count off : Nat) : Safe (parseSlots bytes count off) := by
  induction count generalizing off with
  | zero => exact safe_pure _
  | succ count ih =>
    unfold parseSlots
    refine safe_bind (safe_parseSlot bytes off) fun first _ => ?_
    exact safe_bind (ih first.2) fun rest _ => safe_pure _

theorem safe_parse (bytes : Bytes) : Safe (parse bytes) := by
  unfold parse
  refine safe_bind (safe_check _ _) fun _ hlen => ?_
  rw [check_eq_ok, not_lt] at hlen
  simp only [envHeaderLen] at hlen
  refine safe_bind (safe_slice (by omega)) fun magic _ => ?_
  refine safe_bind (safe_check _ _) fun _ _ => ?_
  refine safe_bind (safe_index (by omega)) fun version _ => ?_
  refine safe_bind (safe_check _ _) fun _ _ => ?_
  refine safe_bind (safe_block (by simp; omega)) fun vaultId _ => ?_
  refine safe_bind (safe_number (by omega)) fun slotCount _ => ?_
  refine safe_bind (safe_check _ _) fun _ _ => ?_
  refine safe_bind (safe_parseSlots bytes slotCount envHeaderLen) fun read _ => ?_
  exact safe_bind (safe_check _ _) fun _ _ => safe_pure _

/-- Accepted bytes are written again exactly as they were; a well-formed envelope is written and
read back; and no byte string makes the parser read outside it. -/
theorem envelope_codec :
    (∀ bytes env, parse bytes = .ok env → serialize env = .ok bytes) ∧
      (∀ env : Envelope, env.WellFormed →
        ∃ bytes, serialize env = .ok bytes ∧ parse bytes = .ok env) ∧
      ∀ bytes, (∃ env, parse bytes = .ok env) ∨ ∃ e, parse bytes = .error (.error e) := by
  refine ⟨?_, ?_, ?_⟩
  · intro bytes env h
    obtain ⟨hwell, rfl⟩ := parse_imp h
    exact hwell.serialize
  · intro env hwell
    exact ⟨env.bytes, hwell.serialize, hwell.parse⟩
  · intro bytes
    rcases hparse : parse bytes with e | env
    · cases e with
      | error e => exact Or.inr ⟨e, rfl⟩
      | outOfBounds => exact absurd hparse (safe_parse bytes)
    · exact Or.inl ⟨env, rfl⟩

end Dctl.Dke1
