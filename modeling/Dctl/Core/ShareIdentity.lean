import Dctl.Core.Grants
import Dctl.Core.History

/-! Which object `share_add_recipients` shares (`vault/share.rs`), where the backend is not trusted.
-/

namespace Dctl.Core

open ProofKit Crypto Kem Index Object List Prog

/-- A server that answers every read from the view, and every other request in any way.  No
operation below makes the same read of the backend twice. -/
def serving (view : View) : Prog.Server Unit Request Request.Answer := fun _ r x _ =>
  match r with
  | .get key => x = view.get key
  | .getRange key offset length => x = view.getRange key offset length
  | .indexGet path => x = view.indexGet path
  | .put .. | .delete _ | .listPage .. | .indexPut _ | .indexDelete _ => True

section Serving

variable {L : Libraries} {v : Vault} {view : View} {s s' : Unit} {key path nfcPath : String}

theorem serving_tryFetch {x : Except CoreError (Except StoreError Bytes)} :
    Prog.Run (serving view) (tryFetch key).run s x s' ↔ x = .ok (view.get key) := by
  unfold tryFetch
  rw [← bind_pure (ask (.get key)), run_query_bind]
  constructor
  · intro h
    obtain ⟨_, _, rfl, h⟩ := h
    exact (run_pure.mp h).1
  · intro h
    exact ⟨_, s, rfl, run_pure.mpr ⟨h, rfl⟩⟩

theorem serving_fetchRange {offset length : Nat} {x : Except CoreError Bytes} :
    Prog.Run (serving view) (fetchRange key offset length).run s x s' ↔
      x = ofStore (view.getRange key offset length) := by
  unfold fetchRange liftStore
  rw [run_query_bind]
  constructor
  · intro h
    obtain ⟨_, _, rfl, h⟩ := h
    exact (run_ofExcept.mp h).1.symm
  · intro h
    exact ⟨_, s, rfl, run_ofExcept.mpr ⟨h.symm, rfl⟩⟩

theorem serving_indexGet {x : Except CoreError (Option Record)} :
    Prog.Run (serving view) (indexGet path).run s x s' ↔
      x = (view.indexGet path).mapError CoreError.index := by
  unfold indexGet liftIndex
  rw [run_query_bind]
  constructor
  · intro h
    obtain ⟨_, _, rfl, h⟩ := h
    exact (run_ofExcept.mp h).1.symm
  · intro h
    exact ⟨_, s, rfl, run_ofExcept.mpr ⟨h.symm, rfl⟩⟩

theorem Vault.serving_fetchHeadAndBlock {front : ObjectFront}
    (h : Prog.Run (serving view) (fetchHeadAndBlock key).run s (.ok front) s') :
    view.front key = .ok front := by
  unfold fetchHeadAndBlock at h
  simp only [run_bind_ok, serving_fetchRange, run_ofExcept, run_pure] at h
  obtain ⟨bytes, _, hbytes, n, _, ⟨hn, -⟩, block, _, hblock, _, _, ⟨hlen, -⟩, hfront, -⟩ := h
  unfold View.front
  rw [← hbytes, ok_bind, hn, ok_bind, ← hblock, ok_bind, hlen, ok_bind]
  exact hfront.symm

theorem Vault.serving_lookupKey {found : Option String}
    (h : Prog.Run (serving view) (v.lookupKey L nfcPath).run s (.ok found) s') :
    v.lookupObjectKey L view nfcPath = .ok found := by
  unfold lookupKey at h
  rw [run_bind_ok] at h
  obtain ⟨row, s1, hrow, hrest⟩ := h
  rw [lookupObjectKey_eq (mapError_eq_ok.mp (serving_indexGet.mp hrow).symm)]
  cases row with
  | some record =>
    obtain ⟨hfound, -⟩ := run_pure.mp hrest
    exact hfound.symm
  | none =>
    obtain ⟨answer, s2, hanswer, hnamed⟩ := run_bind_ok.mp hrest
    cases serving_tryFetch.mp hanswer
    obtain ⟨hfound, -⟩ := run_pure.mp hnamed
    exact hfound.symm

theorem Vault.serving_resolveForShare {objectKey : String}
    (h : Prog.Run (serving view) (v.resolveForShare L nfcPath).run s (.ok objectKey) s') :
    v.lookupObjectKey L view nfcPath = .ok (some objectKey) := by
  unfold resolveForShare at h
  rw [run_bind_ok] at h
  obtain ⟨found, s1, hfound, hsome⟩ := h
  obtain ⟨hsome, -⟩ := run_ofExcept.mp hsome
  rw [serving_lookupKey hfound, okOr_eq_ok.mp hsome]

end Serving

section Recovered

variable {L : Libraries} {v : Vault} {headBytes block : Bytes} {kw : Key}

theorem recoverInline_eq_some {ids : List RecipientKeypair}
    (h : recoverInline L headBytes block ids = .ok (some kw)) :
    ∃ id ∈ ids, ∃ w sub, KemWrap.parse block = .ok w ∧
      w.find (id.keyId L.toPrimitives L.toKemPrimitives) = some sub ∧
      decapsulateKw L.toPrimitives L.toKemPrimitives sub id headBytes = .ok kw := by
  induction ids with
  | nil => cases h
  | cons id rest ih =>
    unfold recoverInline at h
    rw [bind_eq_ok] at h
    obtain ⟨found, hfound, hrest⟩ := h
    cases found with
    | none =>
      obtain ⟨other, hother, hwrap⟩ := ih hrest
      exact ⟨other, mem_cons_of_mem _ hother, hwrap⟩
    | some key =>
      cases hrest
      unfold recoverKwFromBlock at hfound
      rw [bind_eq_ok] at hfound
      obtain ⟨w, hparse, hfind⟩ := hfound
      cases hsub : w.find (id.keyId L.toPrimitives L.toKemPrimitives) with
      | none =>
        rw [hsub] at hfind
        cases hfind
      | some sub =>
        rw [hsub] at hfind
        obtain ⟨kw', hdecaps, hkw⟩ := bind_eq_ok.mp hfind
        cases hkw
        exact ⟨id, mem_cons_self .., w, sub, hparse, hsub, hdecaps⟩

theorem Vault.recoverKwForShare_eq_ok {grants : List GrantRecord}
    (h : v.recoverKwForShare L headBytes block grants = .ok kw) :
    ∃ id ∈ v.allIdentities, ∃ sub,
      ((∃ w, KemWrap.parse block = .ok w ∧
          w.find (id.keyId L.toPrimitives L.toKemPrimitives) = some sub) ∨
        ∃ grant ∈ grants, grantKeyId grant = id.keyId L.toPrimitives L.toKemPrimitives ∧
          sub = sliceSubrecord grant.bytes) ∧
      decapsulateKw L.toPrimitives L.toKemPrimitives sub id headBytes = .ok kw := by
  unfold recoverKwForShare at h
  rw [bind_eq_ok] at h
  obtain ⟨inline, hinline, h⟩ := h
  rw [ofCrypto_eq_ok] at hinline
  cases inline with
  | some key =>
    cases h
    obtain ⟨id, hid, w, sub, hparse, hfind, hdecaps⟩ := recoverInline_eq_some hinline
    exact ⟨id, hid, sub, Or.inl ⟨w, hparse, hfind⟩, hdecaps⟩
  | none =>
    dsimp only at h
    split at h
    · rename_i grant id hgranted
      obtain ⟨id', hid, hfind⟩ := exists_of_findSome?_eq_some hgranted
      obtain ⟨grant', hgrant, hpair⟩ := Option.map_eq_some_iff.mp hfind
      cases hpair
      have hmem := mem_of_find?_eq_some hgrant
      have hkeyId : grantKeyId grant = id.keyId L.toPrimitives L.toKemPrimitives := by
        simpa using List.find?_some hgrant
      simp only [ofCrypto_eq_ok, Sidecar.recoverKwAsRecipient, parseSubrecord, bind_eq_ok,
        reject_eq_ok, pure_eq_ok] at h
      obtain ⟨_, ⟨_, -, _, -, rfl⟩, _, -, hdecaps⟩ := h
      exact ⟨id, hid, _, Or.inr ⟨grant, hmem, hkeyId, rfl⟩, hdecaps⟩
    · cases h

end Recovered

variable (L : Libraries) (v : Vault)

/-- A wrap for this key id in the served block or in the served sidecar. -/
def View.ServesWrap (view : View) (front : ObjectFront) (keyId : KeyId) (sub : SubRecord) : Prop :=
  (∃ w, KemWrap.parse front.block = .ok w ∧ w.find keyId = some sub) ∨
    ∃ bytes parsed grant, view.get (grantKeyOf front.fileId) = .ok bytes ∧
      Sidecar.parse L.toPrimitives bytes front.fileId front.headBytes = .ok parsed ∧
      grant ∈ parsed.grants ∧ grantKeyId grant = keyId ∧ sub = sliceSubrecord grant.bytes

/-- Every wrap that opens for an identity holds the key of the object that the head names. -/
def Vault.Unforged (view : View) (keyOf : FileId → Option Key) (objectKey : String) : Prop :=
  ∀ front, view.front objectKey = .ok front → ∀ id ∈ v.allIdentities, ∀ sub,
    view.ServesWrap L front (id.keyId L.toPrimitives L.toKemPrimitives) sub → ∀ kw,
      decapsulateKw L.toPrimitives L.toKemPrimitives sub id front.headBytes = .ok kw →
        keyOf front.fileId = some kw

/-- The head that is served under the object key is of the file that the key names. -/
def View.ServesNamed (view : View) (objectKey : String) : Prop :=
  ∃ front, view.front objectKey = .ok front ∧ namedFileId objectKey = some front.fileId

variable {L v} {view : View} {s s' : Unit} {kw : Key}

theorem Vault.wrapped_of_addToObject {draws : ShareDraws} {nfcPath objectKey : String}
    {recipients : List Drk1Public}
    (h : Prog.Run (serving view) (v.addToObject L draws nfcPath objectKey recipients).run s
      (.ok (some kw)) s') :
    ∃ front, view.front objectKey = .ok front ∧ ∃ id ∈ v.allIdentities, ∃ sub,
      view.ServesWrap L front (id.keyId L.toPrimitives L.toKemPrimitives) sub ∧
      decapsulateKw L.toPrimitives L.toKemPrimitives sub id front.headBytes = .ok kw := by
  unfold addToObject at h
  obtain ⟨front, _, hfront, h⟩ := run_bind_ok.mp h
  obtain ⟨answer, _, hanswer, h⟩ := run_bind_ok.mp h
  cases serving_tryFetch.mp hanswer
  obtain ⟨plan, _, hplan, h⟩ := run_bind_ok.mp h
  obtain ⟨hplan, -⟩ := run_ofExcept.mp hplan
  obtain ⟨key, sidecar⟩ := plan
  -- The writes that follow have no say in the key.
  have hkw : key = kw := by
    obtain ⟨_, _, -, h⟩ := run_bind_ok.mp h
    obtain ⟨_, _, -, h⟩ := run_bind_ok.mp h
    obtain ⟨_, _, -, h⟩ := run_bind_ok.mp h
    obtain ⟨hresult, -⟩ := run_pure.mp h
    cases sidecar with
    | none => cases hresult
    | some bytes =>
      cases hresult
      rfl
  subst hkw
  unfold planAdd at hplan
  obtain ⟨⟨grants, gen⟩, hgrants, hplan⟩ := bind_eq_ok.mp hplan
  obtain ⟨kw, hkw, hplan⟩ := bind_eq_ok.mp hplan
  have hsame : kw = key := by
    simp only [bind_eq_ok] at hplan
    obtain ⟨_, -, _, -, _, -, hplan⟩ := hplan
    split at hplan
    · cases hplan
      rfl
    · simp only [bind_eq_ok] at hplan
      obtain ⟨_, -, _, -, hplan⟩ := hplan
      cases hplan
      rfl
  subst hsame
  obtain ⟨id, hid, sub, hsub, hdecaps⟩ := recoverKwForShare_eq_ok hkw
  refine ⟨front, serving_fetchHeadAndBlock hfront, id, hid, sub, ?_, hdecaps⟩
  rcases hsub with hinline | ⟨grant, hgrant, hkeyId, hsub⟩
  · exact Or.inl hinline
  · unfold grantsOf at hgrants
    split at hgrants
    · rename_i bytes hget
      simp only [bind_eq_ok, ofCrypto_eq_ok, pure_eq_ok] at hgrants
      obtain ⟨parsed, hparse, heq⟩ := hgrants
      cases heq
      exact Or.inr ⟨bytes, parsed, grant, hget, hparse, hgrant, hkeyId, hsub⟩
    · cases hgrants
      cases hgrant
    · cases hgrants

/-- Where no wrap is forged, a call that succeeds has wrapped the key of the object that the path's
object key names, and of no other, exactly if the head that was served carries the id that the key
names.  The call itself does not compare them, as every read does. -/
theorem Vault.share_wraps_named_key_iff (L : Libraries) (v : Vault) (view : View)
    (keyOf : FileId → Option Key) (hkeys : ∀ a b kw, keyOf a = some kw → keyOf b = some kw → a = b)
    {path nfcPath objectKey : String} (hpath : Path.normalize L.toUnicode path = .ok nfcPath)
    (hlookup : v.lookupObjectKey L view nfcPath = .ok (some objectKey))
    (hunforged : v.Unforged L view keyOf objectKey) (draws : ShareDraws)
    (recipients : List Drk1Public) {s s' : Unit} {kw : Key}
    (hrun :
      Prog.Run (serving view) (v.shareAddWith L draws path recipients).run s (.ok (some kw)) s') :
    (∀ fileId, keyOf fileId = some kw ↔ namedFileId objectKey = some fileId) ↔
      view.ServesNamed objectKey := by
  unfold shareAddWith liftCrypto at hrun
  rw [hpath, ofCrypto, Except.mapError, run_ofExcept_ok_bind, run_bind_ok] at hrun
  obtain ⟨key, _, hkey, hadd⟩ := hrun
  have hfound := (serving_resolveForShare hkey).symm.trans hlookup
  cases hfound
  obtain ⟨front, hfront, id, hid, sub, hserves, hdecaps⟩ := wrapped_of_addToObject hadd
  have hown := hunforged front hfront id hid sub hserves kw hdecaps
  constructor
  · intro hall
    exact ⟨front, hfront, (hall front.fileId).mp hown⟩
  · intro hserved
    obtain ⟨front', hfront', hnamed⟩ := hserved
    rw [hfront] at hfront'
    cases hfront'
    intro fileId
    rw [hnamed, Option.some.injEq]
    constructor
    · intro hother
      exact hkeys front.fileId fileId kw hown hother
    · intro heq
      rw [← heq]
      exact hown

/-- The answers of `serving`, where every write succeeds. -/
def View.answer (view : View) : Unit → (r : Request) → r.Answer × Unit
  | _, .get key => (view.get key, ())
  | _, .getRange key offset length => (view.getRange key offset length, ())
  | _, .indexGet path => (view.indexGet path, ())
  | _, .put .. | _, .delete _ | _, .indexPut _ | _, .indexDelete _ => (.ok (), ())
  | _, .listPage .. => (.ok { items := [], nextCursor := none }, ())

theorem run_serving_of_eval {α : Type} {view : View} {p : VaultM α} {a : α}
    (h : (p.run.eval view.answer ()).1.toOption = some a) :
    Prog.Run (serving view) p.run () (.ok a) () := by
  have hrun : Prog.Run (Prog.Server.ofFun view.answer) p.run () (.ok a) () := by
    rw [run_ofFun]
    exact Prod.ext (toOption_eq_some.mp h) rfl
  refine hrun.mono ?_
  intro _ r x _ hserve
  cases r with
  | get key | getRange key offset length | indexGet path => exact (congrArg Prod.fst hserve).symm
  | put key data | delete key | listPage start cursor | indexPut record | indexDelete path =>
    trivial

def otherDraws : RecipientDraws :=
  { sampleSharedDraws.object with fileId := Block.replicate 16 1, kw := Block.replicate 32 1 }

def servingObject (object : Bytes) : View where
  get key := .error (.notFound key)
  getRange _ offset length := .ok ((object.drop offset).take length)
  head _ := .ok object.length
  indexGet path := .ok (some (Vault.bufferedRow sharingLibraries path default [] none))

def sampleKeys (fileId : FileId) : Option Key :=
  if fileId = sampleSharedDraws.object.fileId then some sampleSharedDraws.object.kw
  else if fileId = otherDraws.fileId then some otherDraws.kw
  else none

theorem sampleKeys_inj (a b : FileId) (kw : Key) (ha : sampleKeys a = some kw)
    (hb : sampleKeys b = some kw) : a = b := by
  have hne : sampleSharedDraws.object.kw ≠ otherDraws.kw := by decide
  unfold sampleKeys at ha hb
  split at ha
  · split at hb
    · rename_i h h'
      rw [h, h']
    · split at hb
      · rw [← hb, Option.some.injEq] at ha
        exact absurd ha hne
      · cases hb
  · split at ha
    · split at hb
      · rw [← hb, Option.some.injEq] at ha
        exact absurd ha.symm hne
      · split at hb
        · rename_i h _ h'
          rw [h, h']
        · cases hb
    · cases ha

def wrapsOwn (object : Bytes) : Option Bool :=
  ((servingObject object).front (objectKeyOf default)).toOption.map fun front =>
    (recoverKwFromBlock sharingLibraries.toPrimitives sharingLibraries.toKemPrimitives
      sampleVault.identity front.headBytes front.block).toOption = some (sampleKeys front.fileId)

theorem servingObject_unforged {object : Bytes} (h : wrapsOwn object = some true) :
    sampleVault.Unforged sharingLibraries (servingObject object) sampleKeys
      (objectKeyOf default) := by
  intro front hfront id hid sub hserves kw hdecaps
  unfold wrapsOwn at h
  rw [hfront, Except.toOption, Option.map_some] at h
  have hid : id = sampleVault.identity := mem_singleton.mp hid
  subst hid
  rcases hserves with ⟨w, hparse, hfind⟩ | ⟨bytes, _, _, hget, -⟩
  · have hrecover :
        recoverKwFromBlock sharingLibraries.toPrimitives sharingLibraries.toKemPrimitives
        sampleVault.identity front.headBytes front.block = .ok (some kw) := by
      unfold recoverKwFromBlock
      rw [hparse, ok_bind, hfind]
      dsimp only
      rw [hdecaps, ok_bind]
      rfl
    have hchecked := of_decide_eq_true (Option.some.inj h)
    rw [hrecover] at hchecked
    exact (Option.some.inj hchecked).symm
  · cases hget

/-- Where the object itself is served, its key is the one that is wrapped. -/
theorem Vault.share_wraps_named_key_of_served :
    Prog.Run (serving (servingObject (sharedObject sampleSharedDraws.object [])))
        (sampleVault.shareAddWith sharingLibraries sampleShareDraws "a" [sampleFriend]).run ()
        (.ok (some sampleSharedDraws.object.kw)) () ∧
      ((∀ fileId, sampleKeys fileId = some sampleSharedDraws.object.kw ↔
          namedFileId (objectKeyOf default) = some fileId) ↔
        (servingObject (sharedObject sampleSharedDraws.object [])).ServesNamed
          (objectKeyOf default)) := by
  have hrun : Prog.Run (serving (servingObject (sharedObject sampleSharedDraws.object [])))
      (sampleVault.shareAddWith sharingLibraries sampleShareDraws "a" [sampleFriend]).run ()
      (.ok (some sampleSharedDraws.object.kw)) () := run_serving_of_eval (by decide +kernel)
  exact ⟨hrun, Vault.share_wraps_named_key_iff sharingLibraries sampleVault _ sampleKeys
    sampleKeys_inj
    normalize_a rfl (servingObject_unforged (by decide +kernel)) sampleShareDraws
      [sampleFriend] hrun⟩

/-- The backend serves another object of the vault for the one that the path names, and the
recipient is given the key of that other object. -/
theorem Vault.share_wraps_other_key :
    sampleVault.sealShared sharingLibraries otherDraws "a" [] [] =
      .ok (sharedObject otherDraws []) ∧
      sampleVault.lookupObjectKey sharingLibraries
        (servingObject (sharedObject otherDraws [])) "a" =
        .ok (some (objectKeyOf sampleSharedDraws.object.fileId)) ∧
      sampleVault.Unforged sharingLibraries (servingObject (sharedObject otherDraws [])) sampleKeys
        (objectKeyOf sampleSharedDraws.object.fileId) ∧
      Prog.Run (serving (servingObject (sharedObject otherDraws [])))
        (sampleVault.shareAddWith sharingLibraries sampleShareDraws "a" [sampleFriend]).run ()
        (.ok (some otherDraws.kw)) () ∧
      sampleKeys sampleSharedDraws.object.fileId ≠ some otherDraws.kw := by
  refine ⟨sealShared_sharedObject (by decide +kernel), rfl,
    servingObject_unforged (by decide +kernel), run_serving_of_eval (by decide +kernel), by decide⟩

section Readers

variable (L : Libraries) (v : Vault)

/-- Each grant wraps `kw` for one of the recipients. -/
def GrantsWrap (front : ObjectFront) (kw : Key) (known : List Drk1Public)
    (answer : Except StoreError Bytes) : Prop :=
  ∀ grants gen, Vault.grantsOf L front answer = .ok (grants, gen) → ∀ grant ∈ grants, ∃ r ∈ known,
    Wraps L.toPrimitives L.toKemPrimitives front.headBytes kw r grant.bytes

/-- No recipient but itself has the key id of one of the identities. -/
def TellsApart (ids : List RecipientKeypair) (known : List Drk1Public) : Prop :=
  ∀ id ∈ ids, ∀ r ∈ known,
    r.keyId L.toPrimitives = id.keyId L.toPrimitives L.toKemPrimitives →
      r = id.public L.toKemPrimitives

def ShareCall.recipients : ShareCall → List Drk1Public
  | .add _ _ recipients => recipients
  | .remove .. => []

/-- The stores that calls about one object lead to, with whether each call succeeded. -/
inductive Vault.ShareCalls (objectKey : String) (s : Stores) :
    List (ShareCall × Bool) → Stores → Prop
  | start : ShareCalls objectKey s [] s
  | call {calls : List (ShareCall × Bool)} {s1 s2 : Stores} {c : ShareCall}
    {x : Except CoreError Unit}
      (h : ShareCalls objectKey s calls s1) (hpath : v.Resolves L s1 c.path objectKey)
      (hrun : Prog.Run mayLoseAnswer (c.run L v).run s1 x s2) :
      ShareCalls objectKey s (calls ++ [(c, x.isOk)]) s2

/-- One of the vault's identities is a recipient of the object, or was granted it last. -/
def Vault.MayRead (recipients : List Drk1Public) (effective : List (RosterEdit KeyId × Bool)) :
    Prop :=
  ∃ id ∈ v.allIdentities, id.public L.toKemPrimitives ∈ recipients ∨
    AddedLast (RosterEdit.Adds (id.keyId L.toPrimitives L.toKemPrimitives))
      (RosterEdit.Removes (id.keyId L.toPrimitives L.toKemPrimitives)) (effective.map Prod.fst)

end Readers

section Read

variable {L : Libraries} {front : ObjectFront} {kw : Key}
  {recipients known : List Drk1Public} {ids : List RecipientKeypair}
  (hP : L.toPrimitives.Lawful) (hK : L.toKemPrimitives.Lawful)
include hP hK

theorem recoverInline_of_wraps (hwraps : front.WrapsFor L kw recipients)
    (hids : TellsApart L ids recipients) :
    recoverInline L front.headBytes front.block ids =
      .ok (if ∃ id ∈ ids, id.public L.toKemPrimitives ∈ recipients then some kw else none) := by
  induction ids with
  | nil => simp [recoverInline]
  | cons id rest ih =>
    obtain ⟨subs, hall, hblock⟩ := hwraps
    unfold recoverInline
    rw [recoverKwFromBlock_of_wraps hP hK hall (hids id (mem_cons_self ..)) hblock, ok_bind]
    by_cases hid : id.public L.toKemPrimitives ∈ recipients
    · rw [if_pos hid, if_pos ⟨id, mem_cons_self .., hid⟩]
      rfl
    · rw [if_neg hid]
      dsimp only
      rw [ih fun id hid => hids id (mem_cons_of_mem _ hid)]
      simp only [exists_mem_cons_iff, hid, false_or]

theorem recoverGranted_of_wraps {grants : List GrantRecord}
    (hwraps : ∀ grant ∈ grants, ∃ r ∈ known,
      Wraps L.toPrimitives L.toKemPrimitives front.headBytes kw r grant.bytes)
    (hids : TellsApart L ids known) :
    recoverGranted L front.headBytes grants ids =
      if ∃ id ∈ ids, id.keyId L.toPrimitives L.toKemPrimitives ∈ grants.map grantKeyId then .ok kw
      else .error notARecipient := by
  induction ids with
  | nil => simp [recoverGranted, throw, throwThe, MonadExceptOf.throw]
  | cons id rest ih =>
    unfold recoverGranted
    cases hfind :
      grants.find? fun g => grantKeyId g = id.keyId L.toPrimitives L.toKemPrimitives with
    | some grant =>
      have hmem := mem_of_find?_eq_some hfind
      have hkeyId : grantKeyId grant = id.keyId L.toPrimitives L.toKemPrimitives := by
        simpa using List.find?_some hfind
      obtain ⟨r, hr, hwrap⟩ := hwraps grant hmem
      have hpublic := hids id (mem_cons_self ..) r hr (hwrap.subrecordKeyId_eq.symm.trans hkeyId)
      subst hpublic
      rw [if_pos ⟨id, mem_cons_self .., mem_map.mpr ⟨grant, hmem, hkeyId⟩⟩]
      dsimp only
      rw [Sidecar.recoverKwAsRecipient_of_wraps hP hK hwrap]
      rfl
    | none =>
      have hnone : id.keyId L.toPrimitives L.toKemPrimitives ∉ grants.map grantKeyId := by
        intro hmem
        obtain ⟨grant, hgrant, hkeyId⟩ := mem_map.mp hmem
        exact List.find?_eq_none.mp hfind grant hgrant (decide_eq_true hkeyId)
      dsimp only
      rw [ih fun id hid => hids id (mem_cons_of_mem _ hid)]
      simp only [exists_mem_cons_iff, hnone, false_or]

end Read

section Grants

variable {L : Libraries} {v w : Vault} {front : ObjectFront} {kw kw' : Key} {s s' : Stores}
  {recipients named known : List Drk1Public} {answer : Except StoreError Bytes}
    {nfcPath key : String}

theorem Vault.wraps_of_addGrants {headBytes : Bytes} {encaps : Nat → EncapsDraws} {index : Nat}
    {present : List KeyId} {added : List GrantRecord}
    (h : addGrants L kw headBytes encaps index present named = .ok added) :
    ∀ grant ∈ added, ∃ r ∈ named,
      Wraps L.toPrimitives L.toKemPrimitives headBytes kw r grant.bytes := by
  induction named generalizing index present added with
  | nil =>
    cases h
    intro grant hgrant
    cases hgrant
  | cons r rest ih =>
    have hrest : ∀ {grants : List GrantRecord} {present : List KeyId},
        addGrants L kw headBytes encaps (index + 1) present rest = .ok grants →
        ∀ grant ∈ grants, ∃ r' ∈ r :: rest,
          Wraps L.toPrimitives L.toKemPrimitives headBytes kw r' grant.bytes := by
      intro grants present hgrants grant hgrant
      obtain ⟨r', hr', hwrap⟩ := ih hgrants grant hgrant
      exact ⟨r', mem_cons_of_mem _ hr', hwrap⟩
    unfold addGrants at h
    split at h
    · exact hrest h
    · simp only [bind_eq_ok, pure_eq_ok] at h
      obtain ⟨grant, hgrant, grants, hgrants, rfl⟩ := h
      intro other hother
      rcases mem_cons.mp hother with rfl | hother
      · exact ⟨r, mem_cons_self .., Sidecar.wraps_of_sealKwToRecipient hgrant⟩
      · exact hrest hgrants other hother

theorem GrantsWrap.of_transient {e : StoreError} (h : e.transient) :
    GrantsWrap L front kw known (.error e) :=
  fun _ _ hgrants => absurd hgrants (Vault.grantsOf_transient h)

theorem Vault.grantsOf_serialize {grants : List GrantRecord} {gen : UInt64} {bytes : Bytes}
    (hreadable : ∀ grant ∈ grants, Sidecar.Readable grant)
    (h : Sidecar.serialize L.toPrimitives front.fileId front.headBytes gen grants = .ok bytes) :
    grantsOf L front (.ok bytes) = .ok (grants, gen) := by
  simp only [grantsOf, Sidecar.parse_serialize hreadable h]
  rfl

theorem GrantsWrap.planRemove (hold : GrantsWrap L front kw known answer) {keyId : KeyId}
    {bytes : Bytes} (h : Vault.planRemove L nfcPath front keyId answer = .ok bytes) :
    GrantsWrap L front kw known (.ok bytes) := by
  unfold Vault.planRemove at h
  split at h
  · rename_i stored
    simp only [bind_eq_ok, ofCrypto_eq_ok] at h
    obtain ⟨parsed, hparse, _, -, gen, -, hbytes⟩ := h
    have hgrants : Vault.grantsOf L front (.ok stored) = .ok (parsed.grants, parsed.grantGen) := by
      simp only [Vault.grantsOf, hparse]
      rfl
    intro grants' gen' hgrants' grant hgrant
    rw [Vault.grantsOf_serialize (fun g hg =>
      Sidecar.readable_of_parse hparse g (mem_of_mem_filter hg))
      hbytes] at hgrants'
    cases hgrants'
    exact hold _ _ hgrants grant (mem_of_mem_filter hgrant)
  · cases h
  · cases h

section Lawful

variable (hP : L.toPrimitives.Lawful) (hK : L.toKemPrimitives.Lawful)
include hP hK

/-- The key that a share recovers is the one that all of the object's wraps carry. -/
theorem Vault.recoverKwForShare_of_wraps (hwraps : front.WrapsFor L kw recipients)
    (hrecipients : ∀ r ∈ recipients, r ∈ known) (happart : TellsApart L v.allIdentities known)
    {grants : List GrantRecord} (hgrants : ∀ grant ∈ grants, ∃ r ∈ known,
      Wraps L.toPrimitives L.toKemPrimitives front.headBytes kw r grant.bytes)
    (h : v.recoverKwForShare L front.headBytes front.block grants = .ok kw') : kw' = kw := by
  obtain ⟨id, hid, sub, hsub, hdecaps⟩ := recoverKwForShare_eq_ok h
  rcases hsub with ⟨wrap, hparse, hfind⟩ | ⟨grant, hgrant, hkeyId, rfl⟩
  · obtain ⟨subs, hall, hblock⟩ := hwraps
    have hinline := recoverKwFromBlock_of_wraps hP hK hall
      (fun r hr => happart id hid r (hrecipients r hr)) hblock
    unfold recoverKwFromBlock at hinline
    rw [hparse, ok_bind, hfind] at hinline
    dsimp only at hinline
    rw [hdecaps, ok_bind, pure_eq_ok] at hinline
    split at hinline
    · exact Option.some.inj hinline
    · cases hinline
  · obtain ⟨r, hr, hwrap⟩ := hgrants grant hgrant
    have hpublic := happart id hid r hr (hwrap.subrecordKeyId_eq.symm.trans hkeyId)
    subst hpublic
    rw [hwrap.decapsulateKw_eq hP hK, Except.ok.injEq] at hdecaps
    exact hdecaps.symm

variable (hwraps : front.WrapsFor L kw recipients) (hrecipients : ∀ r ∈ recipients, r ∈ known)
  (happart : TellsApart L v.allIdentities known)
include hwraps hrecipients happart

theorem GrantsWrap.planAdd (hold : GrantsWrap L front kw known answer)
    (hnamed : ∀ r ∈ named, r ∈ known) {encaps : Nat → EncapsDraws} {bytes : Bytes}
    (h : v.planAdd L front named encaps answer = .ok (kw', some bytes)) :
    GrantsWrap L front kw known (.ok bytes) := by
  unfold Vault.planAdd at h
  obtain ⟨⟨grants, gen⟩, hgrants, h⟩ := bind_eq_ok.mp h
  obtain ⟨found, hfound, h⟩ := bind_eq_ok.mp h
  obtain ⟨_, -, h⟩ := bind_eq_ok.mp h
  obtain ⟨added, hadded, h⟩ := bind_eq_ok.mp h
  obtain ⟨_, -, h⟩ := bind_eq_ok.mp h
  rw [ofCrypto_eq_ok] at hadded
  have hkw :=
    Vault.recoverKwForShare_of_wraps hP hK hwraps hrecipients happart (hold _ _ hgrants) hfound
  subst hkw
  split at h
  · cases h
  · simp only [bind_eq_ok, ofCrypto_eq_ok, pure_eq_ok, Prod.mk.injEq, Option.some.injEq] at h
    obtain ⟨_, -, _, hbytes, -, rfl⟩ := h
    have hreadable : ∀ grant ∈ grants ++ added, Sidecar.Readable grant := by
      intro grant hgrant
      rcases mem_append.mp hgrant with hgrant | hgrant
      · exact Vault.readable_of_grantsOf hgrants grant hgrant
      · exact (Vault.addGrants_eq_ok hadded).2 grant hgrant
    intro grants' gen' hgrants' grant hgrant
    rw [Vault.grantsOf_serialize hreadable hbytes] at hgrants'
    cases hgrants'
    rcases mem_append.mp hgrant with hgrant | hgrant
    · exact hold _ _ hgrants grant hgrant
    · obtain ⟨r, hr, hwrap⟩ := Vault.wraps_of_addGrants hadded grant hgrant
      exact ⟨r, hnamed r hr, hwrap⟩

theorem ShareCall.grantsWrap {c : ShareCall} (hnamed : ∀ r ∈ c.recipients, r ∈ known)
    {objectKey : String} (hpath : v.Resolves L s c.path objectKey)
    (hfront : s.view.front objectKey = .ok front)
    (hold : GrantsWrap L front kw known (s.objects.get (grantKeyOf front.fileId)))
    {x : Except CoreError Unit} (h : Prog.Run mayLoseAnswer (c.run L v).run s x s') :
    GrantsWrap L front kw known (s'.objects.get (grantKeyOf front.fileId)) := by
  have hanswered : ∀ {answer : Except StoreError Bytes},
      (answer = s.objects.get (grantKeyOf front.fileId) ∨ ∃ e, answer = .error e ∧ e.transient) →
      GrantsWrap L front kw known answer := by
    intro answer hanswer
    rcases hanswer with rfl | ⟨e, rfl, he⟩
    · exact hold
    · exact .of_transient he
  have hput : ∀ {bytes : Bytes} {y : Except CoreError Unit} {s1 : Stores},
      GrantsWrap L front kw known (.ok bytes) →
      Prog.Run mayLoseAnswer (putObject (grantKeyOf front.fileId) bytes).run s y s1 →
      GrantsWrap L front kw known (s1.objects.get (grantKeyOf front.fileId)) := by
    intro bytes y s1 hbytes hwrite
    have hinsert : Backend.get (s.objects.insert (grantKeyOf front.fileId) bytes)
        (grantKeyOf front.fileId) = .ok bytes :=
          Backend.get_eq_ok.mpr Std.ExtTreeMap.getElem?_insert_self
    rcases lossy_putObject hwrite with ⟨-, rfl⟩ | ⟨-, rfl | rfl⟩
    · rwa [hinsert]
    · exact hold
    · rwa [hinsert]
  cases c with
  | add draws path named =>
    unfold run Vault.shareAddRecipients Vault.shareAddWith at h
    obtain ⟨_, hadd, -⟩ := run_map h
    rcases Vault.lossy_resolve_bind hpath hadd with ⟨-, rfl⟩ | ⟨nfcPath, hrun⟩
    · exact hold
    rcases Vault.lossy_front_bind hfront hrun with ⟨rfl, -⟩ |
      ⟨answer, ⟨key, sidecar⟩, hanswer, hplan, hwrites⟩
    · exact hold
    have hside :
        ∀ {s1 : Stores}, GrantsWrap L front kw known (s1.objects.get (grantKeyOf front.fileId)) →
        ∀ {y : Except CoreError (Option Key)}, Prog.Run mayLoseAnswer (do
          let disc ← Vault.discoveryInfoForShare L nfcPath front objectKey key
          v.writeDiscoveryRecords L front.headBytes disc draws.discovery 0 named
          pure (sidecar.map fun _ => key) : VaultM (Option Key)).run s1 y s' →
        GrantsWrap L front kw known (s'.objects.get (grantKeyOf front.fileId)) := by
      intro s1 hs1 y hannounce
      rwa [Backend.get, (Vault.lossy_announce hannounce).1.grantKeyOf_eq]
    rcases run_fallible_bind.mp hwrites with ⟨e, hwrite, -⟩ | ⟨_, s1, hwrite, hannounce⟩
    · cases sidecar with
      | none => cases (run_pure.mp hwrite).1
      | some bytes =>
        exact hput ((hanswered hanswer).planAdd hP hK hwraps hrecipients happart hnamed hplan)
          hwrite
    · cases sidecar with
      | none =>
        obtain ⟨-, rfl⟩ := run_pure.mp hwrite
        exact hside hold hannounce
      | some bytes =>
        exact hside
          (hput ((hanswered hanswer).planAdd hP hK hwraps hrecipients happart hnamed hplan)
          hwrite) hannounce
  | remove path keyId =>
    rcases Vault.lossy_resolve_bind hpath h with ⟨-, rfl⟩ | ⟨nfcPath, hrun⟩
    · exact hold
    rcases Vault.lossy_front_bind hfront hrun with
      ⟨rfl, -⟩ | ⟨answer, bytes, hanswer, hplan, hwrites⟩
    · exact hold
    have hbytes := (hanswered hanswer).planRemove hplan
    rcases run_fallible_bind.mp hwrites with ⟨e, hwrite, -⟩ | ⟨_, s1, hwrite, hdelete⟩
    · exact hput hbytes hwrite
    · rcases lossy_deleteObject hdelete with rfl | ⟨-, rfl⟩
      · rw [Backend.get, Backend.getElem?_erase_of_ne
          (grantKeyOf_ne_discoveryKeyOf front.fileId keyId front.fileId).symm]
        exact hput hbytes hwrite
      · exact hput hbytes hwrite

end Lawful

theorem inlineKeyIds_of_wraps (hwraps : front.WrapsFor L kw recipients) :
    Sidecar.inlineKeyIds front.block = .ok (recipients.map (·.keyId L.toPrimitives)) := by
  obtain ⟨subs, hall, hblock⟩ := hwraps
  have hids : subs.map subrecordKeyId = recipients.map (·.keyId L.toPrimitives) := by
    clear hblock
    induction hall with
    | nil => rfl
    | cons hwrap _ ih => rw [map_cons, map_cons, ih, hwrap.subrecordKeyId_eq]
  unfold Sidecar.inlineKeyIds
  rw [KemWrap.parse_of_serialize hblock (validateSubrecordFields_of_wraps hall), ok_bind,
    pure_eq_ok, KemWrap.keyIds, ← hids]
  conv_rhs => rw [← records_of_serializeBlock hblock, map_map]
  rfl

theorem Vault.ShareCalls.shares {calls : List (ShareCall × Bool)}
    (h : v.ShareCalls L key s calls s') :
    v.Shares L key s (calls.map fun c => (c.1.edit L, c.2)) s' := by
  induction h with
  | start => exact .start
  | call h hpath hrun ih =>
    rw [map_append]
    exact .call ih hpath hrun

section Lawful

variable (hP : L.toPrimitives.Lawful) (hK : L.toKemPrimitives.Lawful)
  (hwraps : front.WrapsFor L kw recipients) (hrecipients : ∀ r ∈ recipients, r ∈ known)
include hP hK hwraps hrecipients

theorem Vault.ShareCalls.grantsWrap (happart : TellsApart L v.allIdentities known) {fileId : FileId}
    {calls : List (ShareCall × Bool)} (h : v.ShareCalls L (objectKeyOf fileId) s calls s')
    (hfront : s.view.front (objectKeyOf fileId) = .ok front)
    (hnone : s.objects[grantKeyOf front.fileId]? = none)
    (hnamed : ∀ c ∈ calls, ∀ r ∈ c.1.recipients, r ∈ known) :
    GrantsWrap L front kw known (s'.objects.get (grantKeyOf front.fileId)) := by
  induction h with
  | start =>
    intro grants gen hgrants grant hgrant
    simp only [Backend.get, hnone, okOr, Vault.grantsOf] at hgrants
    cases hgrants
    cases hgrant
  | call h hpath hrun ih =>
    exact ShareCall.grantsWrap hP hK hwraps hrecipients happart
      (hnamed _ (mem_append_right _ (mem_singleton_self _))) hpath
      ((h.shares.kept hfront hnone).1.front_eq.trans hfront)
      (ih fun c hc => hnamed c (mem_append_left _ hc)) hrun

theorem Vault.recoverObjectKwParts_of_wraps (happart : TellsApart L w.allIdentities known)
    {r : Roster KeyId} (hr : s.Grants L front r)
    (hgrants : GrantsWrap L front kw known (s.objects.get (grantKeyOf front.fileId))) :
    w.recoverObjectKwParts L s.view front.headBytes front.block front.fileId =
      if ∃ id ∈ w.allIdentities, id.public L.toKemPrimitives ∈ recipients ∨
        id.keyId L.toPrimitives L.toKemPrimitives ∈ r.members then .ok kw
          else .error notARecipient := by
  have hinline := recoverInline_of_wraps hP hK hwraps
    (fun id hid r hr => happart id hid r (hrecipients r hr))
  have hview : s.view.get (grantKeyOf front.fileId) = s.objects.get (grantKeyOf front.fileId) := rfl
  unfold recoverObjectKwParts
  rw [hinline]
  by_cases hfound : ∃ id ∈ w.allIdentities, id.public L.toKemPrimitives ∈ recipients
  · obtain ⟨id, hid, hmem⟩ := id hfound
    rw [if_pos hfound, if_pos ⟨id, hid, Or.inl hmem⟩]
    rfl
  · rw [if_neg hfound]
    have hpart : (∃ id ∈ w.allIdentities, id.public L.toKemPrimitives ∈ recipients ∨
        id.keyId L.toPrimitives L.toKemPrimitives ∈ r.members) ↔
        ∃ id ∈ w.allIdentities, id.keyId L.toPrimitives L.toKemPrimitives ∈ r.members :=
      ⟨fun ⟨id, hid, h⟩ => ⟨id, hid, h.resolve_left fun hmem => hfound ⟨id, hid, hmem⟩⟩,
        fun ⟨id, hid, h⟩ => ⟨id, hid, Or.inr h⟩⟩
    simp only [ofCrypto, Except.mapError, ok_bind, hview, hpart]
    rcases hr with ⟨hnone, rfl⟩ | ⟨bytes, parsed, hsome, hparse, rfl⟩
    · simp [Backend.get, hnone, okOr, Roster.empty, throw, throwThe, MonadExceptOf.throw]
    · have hgrantsOf : Vault.grantsOf L front (s.objects.get (grantKeyOf front.fileId)) =
          .ok (parsed.grants, parsed.grantGen) := by
        simp only [Backend.get, hsome, okOr, Vault.grantsOf, hparse]
        rfl
      simp only [Backend.get, hsome, okOr, hparse, ok_bind]
      exact recoverGranted_of_wraps hP hK (hgrants _ _ hgrantsOf) happart

end Lawful

theorem Vault.GrantsKept.mayRead_iff {calls effective : List (RosterEdit KeyId × Bool)}
    (h : v.GrantsKept L front calls s effective)
    (hwraps : front.WrapsFor L kw (v.recipientSet L recipients))
    (happart : TellsApart L w.allIdentities known)
    (hrecipients : ∀ r ∈ v.recipientSet L recipients, r ∈ known) :
    (∃ id ∈ w.allIdentities, id.public L.toKemPrimitives ∈ v.recipientSet L recipients ∨
      id.keyId L.toPrimitives L.toKemPrimitives ∈ (v.rosterAfter L front effective).members) ↔
      w.MayRead L (v.recipientSet L recipients) effective := by
  have hbarred : v.barred L front = (v.recipientSet L recipients).map (·.keyId L.toPrimitives) ++
      [v.identityKeyId L] := by
    rw [barred, inlineKeyIds_of_wraps hwraps]
    rfl
  refine exists_congr fun id => and_congr_right fun hid => ?_
  rw [h.granted]
  constructor
  · intro hread
    exact hread.imp_right And.right
  · intro hread
    by_cases hmem : id.public L.toKemPrimitives ∈ v.recipientSet L recipients
    · exact Or.inl hmem
    refine Or.inr ⟨fun hbar => hmem ?_, hread.resolve_left hmem⟩
    -- A key id that is barred is one of the object's own recipients.
    have hown : ∀ r ∈ v.recipientSet L recipients,
        r.keyId L.toPrimitives = id.keyId L.toPrimitives L.toKemPrimitives →
        id.public L.toKemPrimitives ∈ v.recipientSet L recipients := by
      intro r hr heq
      rwa [← happart id hid r (hrecipients r hr) heq]
    rw [hbarred] at hbar
    rcases mem_append.mp hbar with hinline | howner
    · obtain ⟨r, hr, heq⟩ := mem_map.mp hinline
      exact hown r hr heq
    · exact hown _ (mem_cons_self ..) (mem_singleton.mp howner).symm

end Grants

/-- After every sequence of calls that add recipients to an object or remove them, over stores that
may fail before or after each request took effect: one choice of the calls that took effect tells
for every vault whether it reads the file.  It does if one of its identities is a recipient that the
object was sealed for, or those calls have added it and not removed it since, and else it is
refused. -/
theorem Vault.shared_read_iff (L : Libraries) (v : Vault) (hP : L.toPrimitives.Lawful)
    (hK : L.toKemPrimitives.Lawful) {draws : RecipientDraws} {nfcPath : String}
    {data object : Bytes} {recipients : List Drk1Public} {s s' : Stores}
    {calls : List (ShareCall × Bool)} (hlen : data.length < 2 ^ 64)
    (hsealed : v.sealShared L draws nfcPath data recipients = .ok object)
    (hstored : s.objects[objectKeyOf draws.fileId]? = some object)
    (hnone : s.objects[grantKeyOf draws.fileId]? = none)
    (hcalls : v.ShareCalls L (objectKeyOf draws.fileId) s calls s')
    (happart : TellsApart L v.allIdentities
      (v.recipientSet L recipients ++ calls.flatMap (·.1.recipients))) :
    ∃ effective, effective.Sublist (calls.map fun c => (c.1.edit L, c.2)) ∧
      ((calls.map fun c => (c.1.edit L, c.2)).filter Prod.snd).Sublist effective ∧ ∀ w : Vault,
        TellsApart L w.allIdentities
          (v.recipientSet L recipients ++ calls.flatMap (·.1.recipients)) → ∀ path,
        (w.MayRead L (v.recipientSet L recipients) effective →
          w.readObject L s'.view (objectKeyOf draws.fileId) path = .ok data) ∧
        (¬w.MayRead L (v.recipientSet L recipients) effective →
          w.readObject L s'.view (objectKeyOf draws.fileId) path = .error notARecipient) := by
  obtain ⟨front, hid, hwraps, hstands, hreads⟩ := sealShared_reads hP hlen hsealed
  have hfront := hstands s hstored
  rw [← hid] at hnone
  have hrecipients : ∀ r ∈ v.recipientSet L recipients,
      r ∈ v.recipientSet L recipients ++ calls.flatMap (·.1.recipients) :=
    fun r hr => mem_append_left _ hr
  obtain ⟨hside, effective, hkept⟩ := hcalls.shares.kept hfront hnone
  have hobject : s'.view.get (objectKeyOf draws.fileId) = .ok object :=
    Backend.get_eq_ok.mpr ((hside.objects _ (not_sideKey_objectKeyOf _ _)).trans hstored)
  refine ⟨effective, hkept.sublist, hkept.succeeded, fun w hw path => ?_⟩
  have hparts := recoverObjectKwParts_of_wraps hP hK hwraps hrecipients hw hkept.stored
    (hcalls.grantsWrap hP hK hwraps hrecipients happart hfront hnone fun c hc r hr =>
      mem_append_right _ (mem_flatMap.mpr ⟨c, hc, hr⟩))
  refine ⟨fun hmay => ?_, fun hnot => ?_⟩
  · rw [if_pos ((hkept.mayRead_iff hwraps hw hrecipients).mpr hmay)] at hparts
    exact (hreads w s'.view path hobject).1 hparts
  · rw [if_neg (mt (hkept.mayRead_iff hwraps hw hrecipients).mp hnot)] at hparts
    exact (hreads w s'.view path hobject).2 _ hparts

def friendVault : Vault := { sampleVault with identity := ⟨Block.replicate 32 1, default⟩ }

/-- The owner shares the object, and the friend reads it. -/
theorem Vault.friend_reads_shared :
    sampleVault.ShareCalls sharingLibraries (objectKeyOf default) ownStores [(shareOwn, true)]
        (sharedOwn fun _ => false).2 ∧
      friendVault.readObject sharingLibraries (sharedOwn fun _ => false).2.view
        (objectKeyOf default) "a" =
        .ok [] := by
  have hok : (sharedOwn fun _ => false).1.isOk = true := by decide +kernel
  have hrun : Prog.Run mayLoseAnswer (shareOwn.run sharingLibraries sampleVault).run ownStores
      (sharedOwn fun _ => false).1 (sharedOwn fun _ => false).2 :=
    (run_mayFail_of_eval ownStores).mono mayFail_le_mayLoseAnswer
  have hcalls : sampleVault.ShareCalls sharingLibraries (objectKeyOf default) ownStores
      ([] ++ [(shareOwn, (sharedOwn fun _ => false).1.isOk)]) (sharedOwn fun _ => false).2 :=
    .call .start ownStores_resolves hrun
  rw [hok] at hcalls
  have hnone : ownStores.objects[grantKeyOf default]? = none := by
    rw [ownStores, Backend.getElem?_insert_of_ne (objectKeyOf_ne_grantKeyOf default default)]
    rfl
  have hsealed : sampleVault.sealShared sharingLibraries sampleSharedDraws.object "a" [] [] =
      .ok (sharedObject sampleSharedDraws.object []) := sealShared_sharedObject (by decide +kernel)
  have hstored : ownStores.objects[objectKeyOf default]? =
      some (sharedObject sampleSharedDraws.object []) := Std.ExtTreeMap.getElem?_insert_self
  have happart : ∀ w ∈ [sampleVault, friendVault], ∀ id ∈ w.allIdentities,
      ∀ r ∈ sampleVault.recipientSet sharingLibraries [] ++ [sampleFriend],
        r.keyId sharingLibraries.toPrimitives =
            id.keyId sharingLibraries.toPrimitives sharingLibraries.toKemPrimitives →
          r = id.public sharingLibraries.toKemPrimitives := by
    decide +kernel
  obtain ⟨effective, hsub, hsucceeded, hread⟩ := Vault.shared_read_iff sharingLibraries sampleVault
    clearPrimitives_lawful sharingLibraries_lawful (by decide) hsealed hstored hnone hcalls
    (happart _ (mem_cons_self ..))
  refine ⟨hcalls, (hread friendVault (happart _ (by simp)) "a").1 ⟨friendVault.identity,
    mem_cons_self .., Or.inr ?_⟩⟩
  rw [hsub.antisymm hsucceeded]
  exact ⟨[], _, [], rfl, mem_singleton_self _, fun _ h => absurd h not_mem_nil⟩

end Dctl.Core
