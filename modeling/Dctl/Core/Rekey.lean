import Dctl.Core.Unlock

/-! Replacing the password of a vault (`vault/rekey.rs`): one slot of the envelope is rewritten and
every other slot is carried through. -/

namespace Dctl.Core

open ProofKit Crypto Kdf Dke1 List Prog

def nonPassword (slot : Slot) : Bool := slot.slotType ≠ slotTypePassword

def replaceSlots (replacement : Slot) : (replaced : Bool) → List Slot → List Slot
  | replaced, [] => if replaced then [] else [replacement]
  | replaced, slot :: rest =>
    if nonPassword slot then slot :: replaceSlots replacement replaced rest
    else if replaced then replaceSlots replacement replaced rest
    else replacement :: replaceSlots replacement true rest

variable (L : Libraries) (A : KdfPrimitives)

namespace Vault

variable (v : Vault)

def passwordSlot (cost : Cost) (salt : Block defaultSaltLen) (nonce : Nonce)
    (newPassword : String) : Except CryptoError Slot := do
  let kek ← deriveKek A L.toPrimitives L.toUnicode newPassword none salt.bytes cost
  wrapSlot L.toPrimitives L.hkdf nonce kek v.rootKey v.vaultId slotTypePassword kdfIdArgon2id cost
    salt.bytes []

def changePassword (writesProductionCost : Bool) (salt : Block defaultSaltLen) (nonce : Nonce)
    (newPassword : String) : VaultM Unit := do
  let answer ← tryFetch envelopeObjectKey
  let bytes ← Prog.ofExcept (answer.mapError fun _ => .unlock)
  let stored ← Prog.ofExcept ((Dke1.parse bytes).mapError fun _ => .unlock)
  Prog.ofExcept (reject (stored.vaultId ≠ v.vaultId) .unlock)
  let replacement ← liftCrypto
    (v.passwordSlot L A (Cost.shipped writesProductionCost) salt nonce newPassword)
  let bytes ← liftCrypto (serialize
    { vaultId := v.vaultId, slots := replaceSlots replacement false stored.slots })
  putObject envelopeObjectKey bytes

end Vault

theorem replaceSlots_true (replacement : Slot) (slots : List Slot) :
    replaceSlots replacement true slots = slots.filter nonPassword := by
  induction slots with
  | nil => rfl
  | cons slot slots ih =>
    unfold replaceSlots
    by_cases h : nonPassword slot = true
    · rw [if_pos h, filter_cons_of_pos h, ih]
    · rw [if_neg h, if_pos rfl, filter_cons_of_neg h, ih]

theorem replaceSlots_false (replacement : Slot) (slots : List Slot) :
    replaceSlots replacement false slots =
      slots.takeWhile nonPassword ++
        replacement :: (slots.dropWhile nonPassword).filter nonPassword := by
  induction slots with
  | nil => rfl
  | cons slot slots ih =>
    unfold replaceSlots
    by_cases h : nonPassword slot = true
    · rw [if_pos h, takeWhile_cons_of_pos h, dropWhile_cons_of_pos h, ih, cons_append]
    · rw [if_neg h, if_neg Bool.false_ne_true, takeWhile_cons_of_neg h,
        dropWhile_cons_of_neg h, filter_cons_of_neg h, replaceSlots_true, nil_append]

section

variable {replacement : Slot} (hreplacement : nonPassword replacement = false) (slots : List Slot)
include hreplacement

theorem filter_replaceSlots :
    (replaceSlots replacement false slots).filter nonPassword = slots.filter nonPassword := by
  conv_rhs => rw [← takeWhile_append_dropWhile (p := nonPassword) (l := slots)]
  rw [replaceSlots_false, filter_append, filter_append,
    filter_cons_of_neg (by simp [hreplacement]), filter_filter]
  simp only [Bool.and_self]

theorem filter_not_replaceSlots :
    (replaceSlots replacement false slots).filter (fun slot => !nonPassword slot) =
      [replacement] := by
  have hbefore : (slots.takeWhile nonPassword).filter (fun slot => !nonPassword slot) = [] := by
    apply filter_eq_nil_iff.mpr
    intro slot hslot
    simp [all_eq_true.mp all_takeWhile slot hslot]
  have hafter : ((slots.dropWhile nonPassword).filter nonPassword).filter
      (fun slot => !nonPassword slot) = [] := by
    apply filter_eq_nil_iff.mpr
    intro slot hslot
    simp [(mem_filter.mp hslot).2]
  rw [replaceSlots_false, filter_append, hbefore, filter_cons_of_pos (by simp [hreplacement]),
    hafter, nil_append]

end

theorem findSome?_filter {α β : Type} {f : α → Option β} {p : α → Bool}
    (h : ∀ a, p a = false → f a = none) (l : List α) :
    (l.filter p).findSome? f = l.findSome? f := by
  induction l with
  | nil => rfl
  | cons a l ih =>
    by_cases hp : p a = true
    · rw [filter_cons_of_pos hp, List.findSome?_cons, List.findSome?_cons, ih]
    · rw [filter_cons_of_neg hp, List.findSome?_cons, h a (by simpa using hp), ih]

section Secrets

variable {L A} {vaultId : VaultId} {slot replacement : Slot}

theorem slotRoot_phrase (phrase : String) (h : nonPassword slot = false) :
    slotRoot L A (.recoveryPhrase phrase) vaultId slot = none := by
  have htype : slot.slotType = slotTypePassword := by simpa [nonPassword] using h
  unfold slotRoot
  rw [if_pos]
  right
  rw [htype]
  simp [UnlockKey.slotType]

theorem slotRoot_password (password : String) (h : nonPassword slot = true) :
    slotRoot L A (.password password) vaultId slot = none := by
  unfold slotRoot
  rw [if_pos]
  right
  simpa [nonPassword, UnlockKey.slotType] using h

theorem unlockRoot_phrase_replaceSlots (phrase : String) (slots : List Slot)
    (hreplacement : nonPassword replacement = false) :
    unlockRoot L A (.recoveryPhrase phrase)
        { vaultId, slots := replaceSlots replacement false slots } =
      unlockRoot L A (.recoveryPhrase phrase) { vaultId, slots } := by
  have hskip := fun slot => @slotRoot_phrase L A vaultId slot phrase
  unfold unlockRoot
  rw [recoverRoot_fst, recoverRoot_fst]
  dsimp only
  rw [← findSome?_filter hskip, filter_replaceSlots hreplacement, findSome?_filter hskip]

theorem unlockRoot_password_replaceSlots (password : String) (slots : List Slot)
    (hreplacement : nonPassword replacement = false) :
    unlockRoot L A (.password password)
        { vaultId, slots := replaceSlots replacement false slots } =
      slotRoot L A (.password password) vaultId replacement := by
  have hskip : ∀ slot, (!nonPassword slot) = false →
      slotRoot L A (.password password) vaultId slot = none := by
    intro slot hslot
    exact slotRoot_password password (by simpa using hslot)
  unfold unlockRoot
  rw [recoverRoot_fst]
  dsimp only
  rw [← findSome?_filter hskip, filter_not_replaceSlots hreplacement]
  cases hroot : slotRoot L A (.password password) vaultId replacement <;> simp [hroot]

end Secrets

section Change

variable {L A} {v : Vault} {writesProductionCost : Bool} {salt : Block defaultSaltLen}
  {nonce : Nonce} {newPassword : String} {s s' : Stores} {e : CoreError}

theorem passwordSlot_wraps {cost : Cost} {replacement : Slot}
    (h : v.passwordSlot L A cost salt nonce newPassword = .ok replacement) :
    (UnlockKey.password newPassword).Wraps L A v.vaultId v.rootKey replacement := by
  simp only [Vault.passwordSlot, bind_eq_ok] at h
  obtain ⟨kek, hkek, hwrap⟩ := h
  exact ⟨nonce, kek, cost, salt.bytes, [], hkek, hwrap⟩

theorem nonPassword_of_wraps {password : String} {root : Key} {vaultId : VaultId}
    {replacement : Slot}
    (h : (UnlockKey.password password).Wraps L A vaultId root replacement) :
    nonPassword replacement = false := by
  obtain ⟨nonce, kek, cost, salt, aux, -, hwrap⟩ := h
  obtain ⟨aad, wrappedRoot, -, -, rfl⟩ := wrapSlot_eq_ok.mp hwrap
  rfl

theorem lossy_get {key : String} {x : Except StoreError Bytes} {s1 : Stores}
    (h : mayLoseAnswer s (.get key) x s1) :
    s1 = s ∧ ∀ bytes, x = .ok bytes → s.objects[key]? = some bytes := by
  obtain ⟨rfl, ⟨rfl, -⟩ | ⟨e, rfl, -⟩⟩ := lossy_read (.get key) trivial h
  · refine ⟨rfl, fun bytes h => ?_⟩
    simpa [Backend.get] using h
  · exact ⟨rfl, fun bytes h => by cases h⟩

theorem lossy_put {key : String} {data : Bytes} {x : Except StoreError Unit} {s1 : Stores}
    (h : mayLoseAnswer s (.put key data) x s1) :
    ((∃ e, x = .error e) ∧ s1 = s) ∨ s1 = { s with objects := s.objects.insert key data } := by
  rcases h with ⟨-, rfl⟩ | ⟨⟨e, rfl, -⟩, rfl | ⟨_, -, rfl⟩⟩
  · exact Or.inr rfl
  · exact Or.inl ⟨⟨e, rfl⟩, rfl⟩
  · exact Or.inr rfl

/-- The rewritten envelope of the call stands in the store. -/
structure Changed (L : Libraries) (A : KdfPrimitives) (v : Vault) (writesProductionCost : Bool)
    (salt : Block defaultSaltLen) (nonce : Nonce) (newPassword : String) (s s' : Stores)
    (env : Envelope) (replacement : Slot) (bytes : Bytes) : Prop where
  stored : ∃ old, s.objects[envelopeObjectKey]? = some old ∧ Dke1.parse old = .ok env
  vaultId : env.vaultId = v.vaultId
  slot : v.passwordSlot L A (Cost.shipped writesProductionCost) salt nonce newPassword =
    .ok replacement
  written : serialize
    { vaultId := v.vaultId, slots := replaceSlots replacement false env.slots } = .ok bytes
  state : s' = { s with objects := s.objects.insert envelopeObjectKey bytes }

theorem run_changePassword {x : Except CoreError Unit}
    (h : Prog.Run mayLoseAnswer
      (v.changePassword L A writesProductionCost salt nonce newPassword).run s x s') :
    ((∃ e, x = .error e) ∧ s' = s) ∨ ∃ env replacement bytes,
      Changed L A v writesProductionCost salt nonce newPassword s s' env replacement bytes := by
  simp only [Vault.changePassword, tryFetch, putObject, liftCrypto, liftStore,
    run_query_bind] at h
  obtain ⟨answer, s1, hget, h⟩ := h
  obtain ⟨rfl, hbytes⟩ := lossy_get hget
  rcases run_ofExcept_bind.mp h with ⟨e, -, rfl, rfl⟩ | ⟨old, hold, h⟩
  · exact Or.inl ⟨⟨e, rfl⟩, rfl⟩
  rcases run_ofExcept_bind.mp h with ⟨e, -, rfl, rfl⟩ | ⟨env, henv, h⟩
  · exact Or.inl ⟨⟨e, rfl⟩, rfl⟩
  rcases run_ofExcept_bind.mp h with ⟨e, -, rfl, rfl⟩ | ⟨_, hid, h⟩
  · exact Or.inl ⟨⟨e, rfl⟩, rfl⟩
  rcases run_ofExcept_bind.mp h with ⟨e, -, rfl, rfl⟩ | ⟨replacement, hslot, h⟩
  · exact Or.inl ⟨⟨e, rfl⟩, rfl⟩
  rcases run_ofExcept_bind.mp h with ⟨e, -, rfl, rfl⟩ | ⟨bytes, hserialize, h⟩
  · exact Or.inl ⟨⟨e, rfl⟩, rfl⟩
  obtain ⟨answer, s2, hput, h⟩ := run_query_bind.mp h
  obtain ⟨rfl, rfl⟩ := run_ofExcept.mp h
  rw [mapError_eq_ok] at hold henv
  rw [reject_eq_ok, not_not] at hid
  rw [ofCrypto_eq_ok] at hslot hserialize
  rcases lossy_put hput with ⟨⟨e, rfl⟩, rfl⟩ | rfl
  · exact Or.inl ⟨⟨_, rfl⟩, rfl⟩
  · exact Or.inr ⟨env, replacement, bytes,
      ⟨⟨old, hbytes old hold, henv⟩, hid, hslot, hserialize, rfl⟩⟩

/-- The call ends as its put does, which may report a failure once the envelope is stored. -/
theorem Changed.run {env : Envelope} {replacement : Slot} {bytes : Bytes}
    (h : Changed L A v writesProductionCost salt nonce newPassword s s' env replacement bytes)
    {x : Except StoreError Unit} (hput : mayLoseAnswer s (.put envelopeObjectKey bytes) x s') :
    Prog.Run mayLoseAnswer
      (v.changePassword L A writesProductionCost salt nonce newPassword).run s (ofStore x) s' := by
  obtain ⟨⟨old, hget, hparse⟩, hid, hslot, hserialize, -⟩ := h
  have hfetch : s.objects.get envelopeObjectKey = .ok old := by
    simp [Backend.get, hget, okOr]
  simp only [Vault.changePassword, tryFetch, putObject, liftCrypto, liftStore, run_query_bind]
  refine ⟨.ok old, s, Or.inl ⟨hfetch.symm, rfl⟩, ?_⟩
  simp only [Except.mapError, hparse, run_ofExcept_ok_bind, reject, hid, ne_eq,
    not_true_eq_false, if_false, hslot, ofCrypto, hserialize, run_query_bind]
  exact ⟨x, s', hput, run_ofExcept.mpr ⟨rfl, rfl⟩⟩

theorem mem_replaceSlots {replacement slot : Slot} {slots : List Slot}
    (h : slot ∈ replaceSlots replacement false slots) : slot = replacement ∨ slot ∈ slots := by
  rw [replaceSlots_false] at h
  rcases mem_append.mp h with h | h
  · exact Or.inr ((takeWhile_sublist _).subset h)
  · rcases mem_cons.mp h with h | h
    · exact Or.inl h
    · exact Or.inr ((dropWhile_sublist _).subset (mem_filter.mp h).1)

theorem replaceSlots_wellFormed (hP : L.toPrimitives.Lawful) {cost : Cost} {env : Envelope}
    {replacement : Slot} (henv : env.WellFormed)
    (hslot : v.passwordSlot L A cost salt nonce newPassword = .ok replacement)
    (hlen : (replaceSlots replacement false env.slots).length ≤ maxSlotCount) :
    Envelope.WellFormed
      { vaultId := v.vaultId, slots := replaceSlots replacement false env.slots } where
  nonempty := by
    rw [replaceSlots_false]
    simp
  length := hlen
  slots := by
    intro slot hmem
    rcases mem_replaceSlots hmem with rfl | hmem
    · obtain ⟨_, _, _, _, _, -, hwrap⟩ := passwordSlot_wraps hslot
      exact wellFormed_of_wrapSlot hP hwrap
    · exact henv.slots slot hmem

theorem Changed.env_eq {env env' : Envelope} {replacement : Slot} {bytes old : Bytes}
    (h : Changed L A v writesProductionCost salt nonce newPassword s s' env' replacement bytes)
    (hget : s.objects[envelopeObjectKey]? = some old) (hparse : Dke1.parse old = .ok env) :
    env = env' := by
  obtain ⟨old', hget', hparse'⟩ := h.stored
  rw [hget, Option.some.injEq] at hget'
  rwa [← hget', hparse, Except.ok.injEq] at hparse'

theorem Changed.wellFormed (hP : L.toPrimitives.Lawful) {env : Envelope} {replacement : Slot}
    {bytes : Bytes}
    (h : Changed L A v writesProductionCost salt nonce newPassword s s' env replacement bytes) :
    Envelope.WellFormed
      { vaultId := v.vaultId, slots := replaceSlots replacement false env.slots } := by
  obtain ⟨old, -, hparse⟩ := h.stored
  exact replaceSlots_wellFormed hP (parse_imp hparse).1 h.slot (length_le_of_serialize h.written)

/-- Passwords that the key derivation keeps apart: two of them whose keys have one commitment are
one password in its normal form. -/
def Apart (L : Libraries) (A : KdfPrimitives) (passwords : Set String) : Prop :=
  ∀ p ∈ passwords, ∀ q ∈ passwords, ∀ salt cost kek kek',
    (UnlockKey.password p).kek L A salt cost = .ok kek →
    (UnlockKey.password q).kek L A salt cost = .ok kek' →
    commitment L.hkdf kek = commitment L.hkdf kek' → L.nfc p = L.nfc q

theorem slotRoot_other_password {passwords : Set String} (hpasswords : Apart L A passwords)
    {password other : String} (hp : password ∈ passwords) (hq : other ∈ passwords)
    (hne : L.nfc other ≠ L.nfc password) {vaultId : VaultId} {root : Key} {slot : Slot}
    (h : (UnlockKey.password password).Wraps L A vaultId root slot) :
    slotRoot L A (.password other) vaultId slot = none := by
  obtain ⟨nonce, kek, cost, salt, aux, hkek, hwrap⟩ := h
  obtain ⟨aad, wrappedRoot, -, -, hslot⟩ := wrapSlot_eq_ok.mp hwrap
  cases hroot : slotRoot L A (.password other) vaultId slot with
  | none => rfl
  | some found =>
    unfold slotRoot at hroot
    split at hroot
    · cases hroot
    · simp only [Option.bind_eq_bind, Option.bind_eq_some_iff] at hroot
      obtain ⟨kek', hkek', hunwrap⟩ := hroot
      have hcommit := commit_of_unwrapSlot (toOption_eq_some.mp hunwrap)
      have hcost : UnlockKey.slotCost slot = cost := by rw [hslot]; rfl
      have hsalt : slot.salt = salt := by rw [hslot]
      rw [hcost, hsalt] at hkek'
      rw [show slot.commit = commitment L.hkdf kek by rw [hslot]] at hcommit
      exact absurd (hpasswords _ hq _ hp salt cost _ _ (toOption_eq_some.mp hkek') hkek hcommit)
        hne

/-- A password change took the one envelope to the other.  Every slot that is no password slot is
kept, in its order, and one password slot stands where the first one stood.  The new password
recovers the vault's root key, a recovery phrase what it recovered before, and another password
nothing. -/
structure Rekeyed (L : Libraries) (A : KdfPrimitives) (v : Vault) (passwords : Set String)
    (newPassword : String) (env env' : Envelope) : Prop where
  parse : Dke1.parse env'.bytes = .ok env'
  vaultId : env'.vaultId = env.vaultId
  slots : ∃ replacement,
    env'.slots = env.slots.takeWhile nonPassword ++
      replacement :: (env.slots.dropWhile nonPassword).filter nonPassword ∧
    env'.slots.filter nonPassword = env.slots.filter nonPassword ∧
    env'.slots.filter (fun slot => !nonPassword slot) = [replacement]
  new : unlockRoot L A (.password newPassword) env' = some v.rootKey
  phrases : ∀ phrase, unlockRoot L A (.recoveryPhrase phrase) env' =
    unlockRoot L A (.recoveryPhrase phrase) env
  others : ∀ old ∈ passwords, L.nfc old ≠ L.nfc newPassword →
    unlockRoot L A (.password old) env' = none

theorem Changed.rekeyed {passwords : Set String} (hP : L.toPrimitives.Lawful)
    (hpasswords : Apart L A passwords) (hnew : newPassword ∈ passwords) {env : Envelope}
    {replacement : Slot} {bytes : Bytes}
    (h : Changed L A v writesProductionCost salt nonce newPassword s s' env replacement bytes) :
    ∃ env', Rekeyed L A v passwords newPassword env env' ∧
      s' = { s with objects := s.objects.insert envelopeObjectKey env'.bytes } := by
  have hwell := h.wellFormed hP
  have hwritten := hwell.serialize.symm.trans h.written
  rw [Except.ok.injEq] at hwritten
  have hwraps := passwordSlot_wraps h.slot
  have hreplacement := nonPassword_of_wraps hwraps
  refine ⟨{ vaultId := v.vaultId, slots := replaceSlots replacement false env.slots },
    ⟨hwell.parse, h.vaultId.symm, ⟨replacement, replaceSlots_false ..,
      filter_replaceSlots hreplacement _, filter_not_replaceSlots hreplacement _⟩, ?_, ?_, ?_⟩, ?_⟩
  · rw [unlockRoot_password_replaceSlots _ _ hreplacement]
    exact slotRoot_of_wraps hP hwraps
  · intro phrase
    rw [unlockRoot_phrase_replaceSlots _ _ hreplacement, ← h.vaultId]
  · intro other hother hne
    rw [unlockRoot_password_replaceSlots _ _ hreplacement]
    exact slotRoot_other_password hpasswords hnew hother hne hwraps
  · rw [hwritten]
    exact h.state

end Change

/-- A password change that succeeds has rekeyed the stored envelope.  One that fails has changed
nothing, unless the failure is its put's and the whole rekeyed envelope was stored before.  On a
full envelope without a password slot it fails, and changes nothing. -/
theorem changePassword_replaces (L : Libraries) (A : KdfPrimitives) (hP : L.toPrimitives.Lawful)
    (passwords : Set String) (hpasswords : Apart L A passwords) (v : Vault)
    (writesProductionCost : Bool) (salt : Block defaultSaltLen) (nonce : Nonce)
    (newPassword : String) (hnew : newPassword ∈ passwords) :
    (∀ (s s' : Stores) (bytes : Bytes) (env : Envelope),
      s.objects[envelopeObjectKey]? = some bytes → Dke1.parse bytes = .ok env →
      Prog.Run mayLoseAnswer
        (v.changePassword L A writesProductionCost salt nonce newPassword).run s (.ok ()) s' →
      ∃ env', Rekeyed L A v passwords newPassword env env' ∧
        s' = { s with objects := s.objects.insert envelopeObjectKey env'.bytes }) ∧
    (∀ (s s' : Stores) (e : CoreError),
      Prog.Run mayLoseAnswer
        (v.changePassword L A writesProductionCost salt nonce newPassword).run s (.error e) s' →
      s' = s ∨ ∃ bytes env env', s.objects[envelopeObjectKey]? = some bytes ∧
        Dke1.parse bytes = .ok env ∧ Rekeyed L A v passwords newPassword env env' ∧
        s' = { s with objects := s.objects.insert envelopeObjectKey env'.bytes }) ∧
    ∀ (s s' : Stores) (bytes : Bytes) (env : Envelope) (x : Except CoreError Unit),
      s.objects[envelopeObjectKey]? = some bytes → Dke1.parse bytes = .ok env →
      maxSlotCount ≤ env.slots.length → (∀ slot ∈ env.slots, nonPassword slot = true) →
      Prog.Run mayLoseAnswer
        (v.changePassword L A writesProductionCost salt nonce newPassword).run s x s' →
      (∃ e, x = .error e) ∧ s' = s := by
  refine ⟨fun s s' bytes env hget hparse hrun => ?_, fun s s' e hrun => ?_,
    fun s s' bytes env x hget hparse hfull hall hrun => ?_⟩
  · rcases run_changePassword hrun with ⟨⟨e, he⟩, -⟩ | ⟨env0, replacement, written, hchanged⟩
    · cases he
    · obtain rfl := hchanged.env_eq hget hparse
      exact hchanged.rekeyed hP hpasswords hnew
  · rcases run_changePassword hrun with ⟨-, hstate⟩ | ⟨env, replacement, written, hchanged⟩
    · exact Or.inl hstate
    · obtain ⟨old, hget, hparse⟩ := hchanged.stored
      obtain ⟨env', hrekeyed, hstate⟩ := hchanged.rekeyed hP hpasswords hnew
      exact Or.inr ⟨old, env, env', hget, hparse, hrekeyed, hstate⟩
  · rcases run_changePassword hrun with hfailed | ⟨env0, replacement, written, hchanged⟩
    · exact hfailed
    · obtain rfl := hchanged.env_eq hget hparse
      have hlen := (hchanged.wellFormed hP).length
      rw [replaceSlots_false, takeWhile_eq_self_iff.mpr hall, length_append,
        length_cons] at hlen
      omega

def composingLibraries : Libraries :=
  { clearLibraries with
    nfc := fun s => if s = "e\u0301" then "\u00e9" else s
    nfc_nfc := by
      intro s
      split
      · decide
      · rfl }

def rekeyVault : Vault where
  rootKey := rootB
  nameKeys := ⟨default, default⟩
  vaultId := default
  chunkSize := 2
  identity := ⟨default, default⟩
  imported := []

def rekeySlot (L : Libraries) (password : String) : Slot where
  slotType := 1
  flags := 0
  kdfId := 1
  wrapAlgo := 1
  mCost := 131072
  tCost := 3
  pLanes := 4
  commit := Block.slice 32 (utf8 (L.nfc password) ++ List.replicate 16 0) 0
  salt := List.replicate 16 0
  aux := []
  wrappedRoot := List.replicate 24 0 ++ (rootB.bytes ++ List.replicate 16 0)

def rekeyedStores (L : Libraries) (env : Envelope) (password : String) : Stores :=
  let slots := replaceSlots (rekeySlot L password) false env.slots
  { envelopeStores env with
    objects := (envelopeStores env).objects.insert envelopeObjectKey
      (Envelope.bytes { vaultId := default, slots }) }

theorem rekeyed {L : Libraries} (hP : L.toPrimitives.Lawful) {env : Envelope} {password : String}
    (henv : env.WellFormed) (hid : env.vaultId = default)
    (hlen : (replaceSlots (rekeySlot L password) false env.slots).length ≤ maxSlotCount)
    (hslot : rekeyVault.passwordSlot L clearKdf (Cost.shipped true) default default password =
      .ok (rekeySlot L password)) {x : Except StoreError Unit}
    (hx : x = .ok () ∨ x = .error (.io "")) :
    Prog.Run mayLoseAnswer
      (rekeyVault.changePassword L clearKdf true default default password).run
      (envelopeStores env) (ofStore x) (rekeyedStores L env password) := by
  apply Changed.run
  · exact { stored := ⟨_, envelopeStores_get env, henv.parse⟩
            vaultId := hid
            slot := hslot
            written := (replaceSlots_wellFormed hP henv hslot hlen).serialize
            state := rfl }
  · rcases hx with rfl | rfl
    · exact Or.inl ⟨rfl, rfl⟩
    · exact Or.inr ⟨⟨_, rfl, rfl⟩, Or.inr ⟨_, rfl, rfl⟩⟩

theorem head?_slice {n : Nat} {bytes : Bytes} {b : UInt8} (h : bytes.head? = some b) :
    (Block.slice (n + 1) bytes 0).bytes.head? = some b := by
  cases bytes with
  | nil => cases h
  | cons first rest =>
    cases h
    rfl

theorem clearKdf_kek_head {password : String} {b : UInt8} (hb : utf8 password = [b]) {salt : Bytes}
    {cost : Cost} {kek : Key}
    (h : (UnlockKey.password password).kek clearLibraries clearKdf salt cost = .ok kek) :
    (commitment clearLibraries.hkdf kek).bytes.head? = some b := by
  obtain ⟨-, hhash⟩ := argon2id_eq_ok.mp h
  have hinput : passphraseInput clearLibraries.toPrimitives clearLibraries.toUnicode password none =
      [b] := by
    rw [← hb]
    exact append_nil _
  rw [hinput] at hhash
  cases hhash
  apply head?_slice
  apply head?_slice
  rfl

theorem apart_p_q : Apart clearLibraries clearKdf {"p", "q"} := by
  intro p hp q hq salt cost kek kek' hkek hkek' hcommit
  have hbyte : ∀ r ∈ ({"p", "q"} : Set String), ∃ b, utf8 r = [b] ∧
      ∀ t ∈ ({"p", "q"} : Set String), utf8 t = [b] → t = r := by
    intro r hr
    rcases hr with rfl | rfl
    · exact ⟨112, by decide, by rintro t (rfl | rfl) h <;> revert h <;> decide⟩
    · exact ⟨113, by decide, by rintro t (rfl | rfl) h <;> revert h <;> decide⟩
  obtain ⟨b, hb, hall⟩ := hbyte p hp
  obtain ⟨c, hc, -⟩ := hbyte q hq
  have hhead := clearKdf_kek_head hb hkek
  rw [hcommit, clearKdf_kek_head hc hkek', Option.some.injEq] at hhead
  rw [hall q hq (hhead ▸ hc)]

theorem changePassword_replaces_p_by_q :
    ∃ env', parse env'.bytes = .ok env' ∧
      Prog.Run mayLoseAnswer
        (rekeyVault.changePassword clearLibraries clearKdf true default default "q").run
        (envelopeStores hostileEnvelope) (.ok ())
        (rekeyedStores clearLibraries hostileEnvelope "q") ∧
      (rekeyedStores clearLibraries hostileEnvelope "q").objects[envelopeObjectKey]? =
        some env'.bytes ∧
      unlockRoot clearLibraries clearKdf (.password "q") env' = some rootB ∧
      unlockRoot clearLibraries clearKdf (.password "p") env' = none := by
  have hrun := @rekeyed clearLibraries clearPrimitives_lawful hostileEnvelope "q"
    hostileEnvelope_wellFormed rfl (by decide) (by decide) _ (.inl rfl)
  obtain ⟨env', hrekeyed, hstate⟩ :=
    (changePassword_replaces clearLibraries clearKdf clearPrimitives_lawful {"p", "q"} apart_p_q
      rekeyVault true default default "q" (by simp)).1 _ _ _ _ (envelopeStores_get _)
      hostileEnvelope_wellFormed.parse hrun
  refine ⟨env', hrekeyed.parse, hrun, ?_, hrekeyed.new, hrekeyed.others "p" (by simp) (by decide)⟩
  rw [hstate]
  exact Std.ExtTreeMap.getElem?_insert_self

/-- A password in another spelling of the same normal form still unlocks after it was changed, and a
change whose put reports a failure may have replaced the envelope. -/
theorem changePassword_keeps_other_spelling :
    "e\u0301" ≠ "\u00e9" ∧ ∃ env env' : Envelope,
      parse env.bytes = .ok env ∧ env.vaultId = rekeyVault.vaultId ∧
      unlockRoot composingLibraries clearKdf (.password "e\u0301") env = some rootB ∧
      Prog.Run mayLoseAnswer
        (rekeyVault.changePassword composingLibraries clearKdf true default default "\u00e9").run
        (envelopeStores env) (.ok ()) (rekeyedStores composingLibraries env "\u00e9") ∧
      (rekeyedStores composingLibraries env "\u00e9").objects[envelopeObjectKey]? =
        some env'.bytes ∧
      parse env'.bytes = .ok env' ∧
      unlockRoot composingLibraries clearKdf (.password "e\u0301") env' = some rootB ∧
      Prog.Run mayLoseAnswer
        (rekeyVault.changePassword composingLibraries clearKdf true default default "q").run
        (envelopeStores env) (.error (.store (.io ""))) (rekeyedStores composingLibraries env "q") ∧
      (rekeyedStores composingLibraries env "q").objects[envelopeObjectKey]? ≠
        (envelopeStores env).objects[envelopeObjectKey]? := by
  have hwell : ∀ password, Envelope.WellFormed
      { vaultId := default, slots := [rekeySlot composingLibraries password] } := by
    intro password
    refine ⟨by simp, by simp, ?_⟩
    intro slot hslot
    rw [mem_singleton.mp hslot]
    exact ⟨by simp [rekeySlot], by simp [rekeySlot], by simp [rekeySlot],
      fun _ => by simp [rekeySlot]⟩
  refine ⟨by decide, _, { vaultId := default, slots := [rekeySlot composingLibraries "\u00e9"] },
    (hwell "e\u0301").parse, rfl, by decide,
    rekeyed clearPrimitives_lawful (hwell _) rfl (by decide) (by decide) (.inl rfl),
    Std.ExtTreeMap.getElem?_insert_self, (hwell _).parse, by decide,
    rekeyed clearPrimitives_lawful (hwell _) rfl (by decide) (by decide) (.inr rfl), ?_⟩
  rw [envelopeStores_get, rekeyedStores, Std.ExtTreeMap.getElem?_insert_self, ne_eq,
    Option.some.injEq]
  intro hsame
  have hparse := (congrArg parse hsame).symm.trans (hwell "q").parse
  rw [(hwell _).parse, Except.ok.injEq] at hparse
  exact absurd hparse (by decide)

end Dctl.Core
