import Dctl.Core.ShareKeys

/-! The calls of one client, and what each of them does to stores that work. -/

namespace Dctl.Core

open ProofKit Crypto Kem Index Object List

variable {L : Libraries} {v : Vault} {s s' s1 : Stores} {nfcPath : String}

section Beside

theorem Vault.run_front_bind {α : Type} {objectKey : String} {rest : ObjectFront → VaultM α}
    {x : Except CoreError α} (hrest : ∀ front, (rest front).run.Asks
      (Request.WritesOnly (SideKey front.fileId)))
    (h : Prog.Run honest (fetchHeadAndBlock objectKey >>= rest).run s x s') :
    ∃ fileId, s.SameOff (SideKey fileId) s' := by
  rcases Prog.run_fallible_bind.mp h with ⟨e, hfront, -⟩ | ⟨front, s1, hfront, h⟩
  · exact ⟨default, Stores.SameOff.run asks_fetchHeadAndBlock hfront⟩
  have hs : s.SameOff (SideKey front.fileId) s1 := Stores.SameOff.run asks_fetchHeadAndBlock hfront
  exact ⟨front.fileId, hs.trans (Stores.SameOff.run (hrest front) h)⟩

theorem Vault.run_addToObject {draws : ShareDraws} {objectKey : String}
    {recipients : List Drk1Public} {x : Except CoreError (Option Key)}
    (h : Prog.Run honest (v.addToObject L draws nfcPath objectKey recipients).run s x s') :
    ∃ fileId, s.SameOff (SideKey fileId) s' := by
  refine run_front_bind (fun front => ?_) h
  apply Prog.asks_bind asks_tryFetch
  intro answer
  apply Prog.asks_bind (Prog.asks_ofExcept _)
  intro plan
  obtain ⟨kw, sidecar⟩ := plan
  refine Prog.asks_bind ?_ fun _ => ?_
  · cases sidecar with
    | none => trivial
    | some bytes => exact asks_putObject (Or.inl rfl)
  · unfold discoveryInfoForShare
    simp only [bind_assoc, pure_bind]
    apply Prog.asks_bind (Prog.asks_ofExcept _)
    intro head
    apply Prog.asks_bind asks_shareContentHash
    intro contentHash
    refine Prog.asks_bind ?_ fun _ => trivial
    apply asks_writeDiscoveryRecords
    · rfl
    · intro keyId
      exact Or.inr ⟨keyId, rfl⟩

theorem Vault.run_removeFromObject {objectKey : String} {keyId : KeyId} {x : Except CoreError Unit}
    (h : Prog.Run honest (removeFromObject L nfcPath objectKey keyId).run s x s') :
    ∃ fileId, s.SameOff (SideKey fileId) s' := by
  refine run_front_bind (fun front => ?_) h
  apply Prog.asks_bind asks_tryFetch
  intro answer
  apply Prog.asks_bind (Prog.asks_ofExcept _)
  intro sidecar
  apply Prog.asks_bind (asks_putObject (Or.inl rfl))
  intro _
  exact asks_deleteObject (Or.inr ⟨keyId, rfl⟩)

end Beside

section Shared

variable {draws : RecipientDraws} {data object : Bytes} {recipients : List Drk1Public}

section

variable (hP : L.toPrimitives.Lawful) (hlen : data.length < 2 ^ 64)
  (h : v.sealShared L draws nfcPath data recipients = .ok object)
include hP hlen h

theorem Vault.sealShared_eq_frame :
    ∃ (f : Frame) (subs : List Bytes), object = f.bytes ∧
      encapsulateAll L.toPrimitives L.toKemPrimitives f.headBytes draws.kw draws.encaps 0
        (v.recipientSet L recipients) = .ok subs ∧
      serializeBlock subs = .ok f.kemWrap ∧
      f.head = sealHead kemIdHybrid draws.toDraws (UInt64.ofNat data.length) v.chunkSize ∧
      f.Opens L.toPrimitives draws.kw draws.dek (some (sealedMetadata L nfcPath data none))
        (chunks v.chunkSize.toNat data) := by
  simp only [sealShared, sealToRecipients, bind_eq_ok, ofCrypto_eq_ok, reject_eq_ok,
    pure_eq_ok] at h
  obtain ⟨_, ⟨_, -, hseal⟩, _, -, rfl⟩ := h
  obtain ⟨f, kemWrap, hbytes, hwrap, rfl, hhead, -, hopens⟩ :=
    sealCore_eq_frame hP (Or.inr rfl) hlen hseal
  simp only [bind_eq_ok] at hwrap
  obtain ⟨subs, hsubs, hblock⟩ := hwrap
  exact ⟨f, subs, hbytes, hsubs, hblock, hhead, hopens⟩

theorem Vault.fileId_of_sealShared : Block.slice fileIdLen object 52 = draws.fileId := by
  obtain ⟨f, _, rfl, -, -, hhead, -⟩ := sealShared_eq_frame hP hlen h
  rw [f.bytes_eq, Header.bytes_append, (readAt_buildHead f.head _).fileId, hhead]
  rfl

end

/-- The block of the object wraps `kw` for each of the recipients. -/
def ObjectFront.WrapsFor (L : Libraries) (front : ObjectFront) (kw : Key)
    (recipients : List Drk1Public) : Prop :=
  ∃ subs, List.Forall₂ (Wraps L.toPrimitives L.toKemPrimitives front.headBytes kw) recipients subs ∧
    serializeBlock subs = .ok front.block

theorem View.front_of_frame {f : Frame} {objectKey : String} (hkem : f.head.kemId = kemIdHybrid)
    (hobject : s.objects[objectKey]? = some f.bytes) :
    s.view.front objectKey =
      .ok { headBytes := f.headBytes, fileId := f.head.fileId, block := f.kemWrap } := by
  obtain ⟨tail, hbytes⟩ : ∃ tail, f.bytes = buildHead f.head ++ (le 2 f.kemWrap.length ++
      (f.kemWrap ++ tail)) := ⟨_, by rw [f.bytes_eq, Header.bytes_append]⟩
  have hwrap := f.kemWrap_le
  have hlen : f.bytes.length = 70 + f.kemWrap.length + tail.length := by
    rw [hbytes]
    simp only [length_append, length_buildHead, length_le, objectHeadLen]
    omega
  have hread : f.bytes.take 70 = buildHead f.head ++ le 2 f.kemWrap.length := by
    rw [hbytes, ← append_assoc]
    exact take_left' (by simp)
  have hblock : (f.bytes.drop 70).take f.kemWrap.length = f.kemWrap := by
    rw [hbytes, ← append_assoc, drop_left' (by simp), take_left]
  have hcount : leAt (buildHead f.head ++ le 2 f.kemWrap.length) objectHeadLen 2 =
      f.kemWrap.length :=
    leAt_eq (t := []) (by rw [drop_left' (length_buildHead _), append_nil]) (by omega)
  have hid := (readAt_buildHead f.head []).fileId
  rw [append_nil] at hid
  unfold View.front Vault.checkFront
  simp only [Stores.view, Backend.view, bind_eq_ok, ofStore_eq_ok, Backend.getRange_eq_ok hobject,
    reject_eq_ok, ofCrypto_eq_ok, pure_eq_ok, ne_eq, not_not, not_lt]
  refine ⟨buildHead f.head ++ le 2 f.kemWrap.length, ⟨Nat.zero_le _, hread.symm⟩, f.kemWrap.length,
    ⟨(), by simp, f.head, f.head_valid.parseHead _, (), hkem, hcount⟩, f.kemWrap,
    ⟨by simp only [objectHeadLen]; omega, hblock.symm⟩, (), rfl, ?_⟩
  rw [take_left' (length_buildHead _), hid]
  rfl

/-- An object for recipients wraps its key for each of them, and who recovers the key reads it. -/
theorem Vault.sealShared_reads (hP : L.toPrimitives.Lawful) (hlen : data.length < 2 ^ 64)
    (h : v.sealShared L draws nfcPath data recipients = .ok object) :
    ∃ front : ObjectFront, front.fileId = draws.fileId ∧
      front.WrapsFor L draws.kw (v.recipientSet L recipients) ∧
      (∀ s : Stores, s.objects[objectKeyOf draws.fileId]? = some object →
        s.view.front (objectKeyOf draws.fileId) = .ok front) ∧
      ∀ (w : Vault) (view : View) (path : String),
        view.get (objectKeyOf draws.fileId) = .ok object →
        (w.recoverObjectKwParts L view front.headBytes front.block front.fileId = .ok draws.kw →
          w.readObject L view (objectKeyOf draws.fileId) path = .ok data) ∧
        ∀ e, w.recoverObjectKwParts L view front.headBytes front.block front.fileId = .error e →
          w.readObject L view (objectKeyOf draws.fileId) path = .error e := by
  obtain ⟨f, subs, rfl, hsubs, hblock, hhead, hopens⟩ := sealShared_eq_frame hP hlen h
  have hid : f.head.fileId = draws.fileId := by rw [hhead]; rfl
  have hkem : f.head.kemId = kemIdHybrid := by rw [hhead]; rfl
  have hpos : 0 < v.chunkSize.toNat := by
    have hsize : f.head.chunkSize = v.chunkSize := by rw [hhead]; rfl
    rw [← hsize]
    exact Nat.pos_of_ne_zero fun hzero => f.head_valid.chunkSize_pos (UInt32.toNat_inj.mp hzero)
  have hnamed : namedFileId (objectKeyOf draws.fileId) = some f.head.fileId := by
    rw [namedFileId_objectKeyOf, hid]
  refine ⟨⟨f.headBytes, f.head.fileId, f.kemWrap⟩, hid, ⟨subs, wraps_of_encapsulateAll hsubs,
    hblock⟩, fun s hstored => View.front_of_frame hkem hstored,
      fun w view path hget => ⟨fun hkw => ?_, fun e he => ?_⟩⟩
  · refine (readObject_eq_ok hget).mpr ⟨f, draws.dek, _, _,
      ⟨hnamed, ⟨draws.kw, .recipient hkem hkw, hopens⟩, ?_⟩, rfl, (flatten_chunks hpos _).symm⟩
    intro m hm
    cases hm
    rw [flatten_chunks hpos]
    rfl
  · have hparse : parseHead f.bytes = .ok f.head := by
      rw [f.bytes_eq, Header.bytes_append]
      exact f.head_valid.parseHead _
    have hkw : w.recoverObjectKw L view f.bytes = .error e := by
      rw [f.bytes_eq, w.recoverObjectKw_append]
      exact he
    unfold readObject openStored
    simp only [hget, hparse, requireObjectIdentity_eq_ok.mpr hnamed, hkem, hkw, ofStore, ofCrypto,
      Except.mapError, ok_bind, error_bind, kemIdHybrid, kemIdNone, if_true]
    rfl

end Shared

inductive Call where
  | put (draws : PutDraws) (clock : Option Int64) (path : String) (data : Bytes)
    (modified : Modified)
  | putSource (draws : PutDraws) (clock : Option Int64) (path : String) (data : Bytes)
      (grants : List Nat) (plaintextLen : UInt64) (modified : Modified)
  | putShared (draws : SharedDraws) (clock : Option Int64) (path : String) (data : Bytes)
      (recipients : List Drk1Public) (modified : Modified)
  | shareAdd (draws : ShareDraws) (path : String) (recipients : List Drk1Public)
  | shareRemove (path : String) (keyId : KeyId)
  | delete (path : String)

namespace Call

def path : Call → String
  | put _ _ path _ _ | putSource _ _ path _ _ _ _ | putShared _ _ path _ _ _
  | shareAdd _ path _ | shareRemove path _ | delete path => path

def fileId? : Call → Option FileId
  | put draws _ _ _ _ | putSource draws _ _ _ _ _ _ => some draws.object.fileId
  | putShared draws _ _ _ _ _ => some draws.object.fileId
  | shareAdd .. | shareRemove .. | delete _ => none

def data : Call → Bytes
  | put _ _ _ data _ | putSource _ _ _ data _ _ _ | putShared _ _ _ data _ _ => data
  | shareAdd .. | shareRemove .. | delete _ => []

variable (L : Libraries) (v : Vault)

/-- The call as a program.  Ends with whether it did its work: deleting an absent file does none. -/
def run : Call → VaultM Bool
  | put draws clock path data modified => do
    v.putFile L draws clock path data modified
    pure true
  | putSource draws clock path data grants plaintextLen modified => do
    let _ ← v.putFileFromSource L draws clock path (Source.of data grants) plaintextLen modified
    pure true
  | putShared draws clock path data recipients modified => do
    v.putFileShared L draws clock path data recipients modified
    pure true
  | shareAdd draws path recipients => do
    v.shareAddRecipients L draws path recipients
    pure true
  | shareRemove path keyId => do
    v.shareRemoveRecipient L path keyId
    pure true
  | delete path => v.deleteFile L path

/-- What the put seals, and the row that it commits. -/
def Seals (c : Call) (nfcPath : String) (object : Bytes) (row : Record) : Prop :=
  match c with
  | put draws clock _ data modified =>
    v.sealFile L draws.object nfcPath data (modified.resolve clock) = .ok object ∧
      row = Vault.bufferedRow L nfcPath draws.object.fileId data (modified.resolve clock)
  | putSource draws clock _ data _ _ modified =>
    v.sealFile L draws.object nfcPath data (modified.resolve clock) = .ok object ∧
      row = Vault.bufferedRow L nfcPath draws.object.fileId data (modified.resolve clock)
  | putShared draws clock _ data recipients modified =>
    v.sealShared L draws.object nfcPath data recipients = .ok object ∧
      row = Vault.bufferedRow L nfcPath draws.object.fileId data (modified.resolve clock)
  | shareAdd .. | shareRemove .. | delete _ => False

end Call

/-- The put has stored the object, its name record and its row, and otherwise side records of the
file id at most. -/
def Vault.PutLeaves (L : Libraries) (v : Vault) (s : Stores) (fileId : FileId) (object : Bytes)
    (row : Record) (s1 : Stores) : Prop :=
  ∃ nonce value, v.nameKeys.sealRecord L.toPrimitives L.keyedHash v.vaultId nonce
    row.path fileId 0 =
      .ok (v.nameKey L row.path, value) ∧
    (s.withRow fileId object (v.nameKey L row.path) value row).SameOff (SideKey fileId) s1

/-- What a call can do to stores that work. -/
inductive Vault.Effect (L : Libraries) (v : Vault) (s : Stores) (c : Call) :
    Except CoreError Bool → Stores → Prop
  /-- It writes no file: it fails, or it only shares. -/
  | beside {x : Except CoreError Bool} {fileId : FileId} {s' : Stores}
      (hfile : x = .ok true → c.fileId? = none ∧ ∀ path, c ≠ .delete path)
      (hside : s.SameOff (SideKey fileId) s') : Effect L v s c x s'
  /-- It stores the file and fails in the discovery records. -/
  | stored {e : CoreError} {nfcPath : String} {fileId : FileId} {object : Bytes} {row : Record}
      {s' : Stores} (hpath : Path.normalize L.toUnicode c.path = .ok nfcPath)
      (hid : c.fileId? = some fileId) (hseals : c.Seals L v nfcPath object row)
      (hleaves : v.PutLeaves L s fileId object row s') : Effect L v s c (.error e) s'
  /-- It stores the file in the place of the one that its lookup found. -/
  | replaced {nfcPath : String} {previous : Option String} {fileId : FileId} {object : Bytes}
      {row : Record} {s1 : Stores} (hpath : Path.normalize L.toUnicode c.path = .ok nfcPath)
      (hlookup : v.lookupObjectKey L s.view nfcPath = .ok previous)
      (hid : c.fileId? = some fileId) (hseals : c.Seals L v nfcPath object row)
      (hleaves : v.PutLeaves L s fileId object row s1) :
      Effect L v s c (.ok true) (s1.collect previous (objectKeyOf fileId))
  /-- It deletes the file that its lookup found. -/
  | removed {nfcPath objectKey : String} (hdelete : c = .delete c.path)
      (hpath : Path.normalize L.toUnicode c.path = .ok nfcPath)
      (hlookup : v.lookupObjectKey L s.view nfcPath = .ok (some objectKey)) :
      Effect L v s c (.ok true) (s.without objectKey (v.nameKey L nfcPath) nfcPath)

section Effects

theorem length_le_of_normalize {path : String} (h : Path.normalize L.toUnicode path = .ok nfcPath) :
    (utf8 nfcPath).length ≤ 65535 := by
  have hle := Path.validate_length (Path.normalize_eq_ok.mp h).2
  simp only [Path.maxPathBytes] at hle
  omega

theorem Vault.run_lookup_bind {α : Type} {path : String} {rest : String → Option String → VaultM α}
    {x : Except CoreError α} (h : Prog.Run honest (do
      let nfcPath ← liftCrypto (Path.normalize L.toUnicode path)
      let found ← v.lookupKey L nfcPath
      rest nfcPath found).run s x s') :
    ((∃ e, x = .error e) ∧ s' = s) ∨
      ∃ nfcPath found, Path.normalize L.toUnicode path = .ok nfcPath ∧
      v.lookupObjectKey L s.view nfcPath = .ok found ∧
      Prog.Run honest (rest nfcPath found).run s x s' := by
  unfold liftCrypto at h
  rcases Prog.run_ofExcept_bind.mp h with ⟨e, -, he, hs⟩ | ⟨nfcPath, hpath, hlookup⟩
  · exact Or.inl ⟨⟨e, he⟩, hs.symm⟩
  rcases Prog.run_fallible_bind.mp hlookup with ⟨e, hfound, he⟩ | ⟨found, s1, hfound, hrest⟩
  · exact Or.inl ⟨⟨e, he⟩, (run_lookupKey.mp hfound).2⟩
  · obtain ⟨hfound, rfl⟩ := run_lookupKey.mp hfound
    exact Or.inr ⟨nfcPath, found, ofCrypto_eq_ok.mp hpath, hfound, hrest⟩

variable {fileId : FileId} {object : Bytes} {row : Record} {nonce : Nonce}
  {x : Except CoreError Unit}

theorem Vault.putLeaves_of_run (hP : L.toPrimitives.Lawful)
    (hkey : row.objectKey = objectKeyOf fileId) (hpath : (utf8 row.path).length ≤ 65535)
    (h : Prog.Run honest (v.storeSealed L nonce fileId object row).run s x s') :
    x = .ok () ∧ v.PutLeaves L s fileId object row s' := by
  obtain ⟨hx, value, hsealed, rfl⟩ := (run_storeSealed hP hkey hpath).mp h
  exact ⟨hx, nonce, value, hsealed, Stores.SameOff.refl _⟩

section

variable (hP : L.toPrimitives.Lawful) {data : Bytes} (hlen : data.length < 2 ^ 64)
  (hpath : (utf8 nfcPath).length ≤ 65535)
include hP hlen hpath

variable {modifiedUnix : Option Int64} {previous : Option String}

theorem Vault.run_storeFile {draws : PutDraws}
    (h : Prog.Run honest (v.storeFile L draws nfcPath data modifiedUnix previous).run s x s') :
    ((∃ e, x = .error e) ∧ s' = s) ∨ ∃ object s1,
      v.sealFile L draws.object nfcPath data modifiedUnix = .ok object ∧ x = .ok () ∧
      v.PutLeaves L s draws.object.fileId object
        (bufferedRow L nfcPath draws.object.fileId data modifiedUnix) s1 ∧
      s' = s1.collect previous (objectKeyOf draws.object.fileId) := by
  unfold storeFile at h
  rcases Prog.run_ofExcept_bind.mp h with ⟨e, -, hx, hs⟩ | ⟨object, hsealed, hstore⟩
  · exact Or.inl ⟨⟨e, hx⟩, hs.symm⟩
  dsimp only at hstore
  rw [fileId_of_sealFile hP hlen hsealed] at hstore
  rcases Prog.run_fallible_bind.mp hstore with ⟨e, hwrites, -⟩ | ⟨_, s1, hwrites, hgc⟩
  · cases (putLeaves_of_run hP rfl hpath hwrites).1
  · obtain ⟨hx, hs⟩ := run_gc.mp hgc
    exact Or.inr ⟨object, s1, hsealed, hx, (putLeaves_of_run hP rfl hpath hwrites).2, hs.symm⟩

theorem Vault.run_storeSource {draws : PutDraws} {grants : List Nat} {plaintextLen : UInt64}
    {x : Except CoreError Streamed}
    (h : Prog.Run honest (v.storeSource L draws nfcPath (Source.of data grants) plaintextLen
      modifiedUnix previous).run s x s') :
    ((∃ e, x = .error e) ∧ s' = s) ∨ ∃ object s1,
      v.sealFile L draws.object nfcPath data modifiedUnix = .ok object ∧ (∃ r, x = .ok r) ∧
      v.PutLeaves L s draws.object.fileId object
        (bufferedRow L nfcPath draws.object.fileId data modifiedUnix) s1 ∧
      s' = s1.collect previous (objectKeyOf draws.object.fileId) := by
  unfold storeSource at h
  rcases Prog.run_ofExcept_bind.mp h with ⟨e, -, hx, hs⟩ | ⟨⟨plan, object⟩, hsealed, hstore⟩
  · exact Or.inl ⟨⟨e, hx⟩, hs.symm⟩
  obtain ⟨hfile, hid, hrow⟩ := sealSource_eq_ok hP hlen hsealed
  dsimp only at hstore
  rw [hid, hrow] at hstore
  rcases Prog.run_fallible_bind.mp hstore with ⟨e, hwrites, -⟩ | ⟨_, s1, hwrites, htail⟩
  · cases (putLeaves_of_run hP rfl hpath hwrites).1
  rcases Prog.run_fallible_bind.mp htail with ⟨e, hgc, -⟩ | ⟨_, s2, hgc, hpure⟩
  · cases (run_gc.mp hgc).1
  · obtain ⟨-, hs⟩ := run_gc.mp hgc
    obtain ⟨hx, rfl⟩ := Prog.run_pure.mp hpure
    exact Or.inr ⟨object, s1, hfile, ⟨_, hx⟩, (putLeaves_of_run hP rfl hpath hwrites).2, hs.symm⟩

theorem Vault.run_storeShared {draws : SharedDraws} {recipients : List Drk1Public}
    (h : Prog.Run honest (v.storeShared L draws nfcPath data recipients modifiedUnix previous).run s
      x s') :
    ((∃ e, x = .error e) ∧ s' = s) ∨ ∃ object s1,
      v.sealShared L draws.object nfcPath data recipients = .ok object ∧
      v.PutLeaves L s draws.object.fileId object
        (bufferedRow L nfcPath draws.object.fileId data modifiedUnix) s1 ∧
      (((∃ e, x = .error e) ∧ s' = s1) ∨
        x = .ok () ∧ s' = s1.collect previous (objectKeyOf draws.object.fileId)) := by
  unfold storeShared at h
  rcases Prog.run_ofExcept_bind.mp h with ⟨e, -, hx, hs⟩ | ⟨object, hsealed, hstore⟩
  · exact Or.inl ⟨⟨e, hx⟩, hs.symm⟩
  dsimp only at hstore
  rw [fileId_of_sealShared hP hlen hsealed] at hstore
  refine Or.inr ?_
  rcases Prog.run_fallible_bind.mp hstore with ⟨e, hwrites, -⟩ | ⟨_, s1, hwrites, hrest⟩
  · cases (putLeaves_of_run hP rfl hpath hwrites).1
  obtain ⟨-, hleaves⟩ := putLeaves_of_run hP rfl hpath hwrites
  have hside : ∀ {y : Except CoreError Unit} {s2 : Stores},
      Prog.Run honest (v.writeDiscoveryRecords L
      (object.take objectHeadLen) (sharedInfo L nfcPath draws.object.fileId data) draws.discovery 0
      (v.recipientSet L recipients)).run s1 y s2 → s1.SameOff (SideKey draws.object.fileId) s2 := by
    intro y s2 hrecords
    refine Stores.SameOff.run ?_ hrecords
    apply asks_writeDiscoveryRecords
    · rfl
    · intro keyId
      exact Or.inr ⟨keyId, rfl⟩
  obtain ⟨nonce, value, hname, hsame⟩ := hleaves
  rcases Prog.run_fallible_bind.mp hrest with ⟨e, hrecords, hx⟩ | ⟨_, s2, hrecords, hgc⟩
  · exact ⟨object, s', hsealed, ⟨nonce, value, hname, hsame.trans (hside hrecords)⟩,
      Or.inl ⟨⟨e, hx⟩, rfl⟩⟩
  · obtain ⟨hx, hs⟩ := run_gc.mp hgc
    exact ⟨object, s2, hsealed, ⟨nonce, value, hname, hsame.trans (hside hrecords)⟩,
      Or.inr ⟨hx, hs.symm⟩⟩

end

theorem Vault.run_removeFile {objectKey : String} {x : Except CoreError Bool} :
    Prog.Run honest (v.removeFile L nfcPath (some objectKey)).run s x s' ↔
      x = .ok true ∧ s.without objectKey (v.nameKey L nfcPath) nfcPath = s' := by
  unfold removeFile
  dsimp only
  rw [honest_deleteObject_bind, honest_deleteObject_bind, honest_indexDelete_bind, Prog.run_pure]
  exact Iff.rfl

theorem Vault.run_resolve_bind {α : Type} {path : String} {rest : String → String → VaultM α}
    {x : Except CoreError α} (h : Prog.Run honest (do
      let nfcPath ← liftCrypto (Path.normalize L.toUnicode path)
      let objectKey ← v.resolveForShare L nfcPath
      rest nfcPath objectKey).run s x s') :
    s' = s ∨ ∃ nfcPath objectKey, Prog.Run honest (rest nfcPath objectKey).run s x s' := by
  unfold liftCrypto at h
  rcases Prog.run_ofExcept_bind.mp h with ⟨_, -, -, hs⟩ | ⟨nfcPath, -, hresolve⟩
  · exact Or.inl hs.symm
  rcases Prog.run_fallible_bind.mp hresolve with ⟨_, hfound, -⟩ | ⟨objectKey, s1, hfound, hrest⟩
  · exact Or.inl (Stores.SameOff.run asks_resolveForShare hfound).eq
  · have hs := (@Stores.SameOff.run (fun _ => False) _ _ _ _ _ asks_resolveForShare hfound).eq
    rw [hs] at hrest
    exact Or.inr ⟨nfcPath, objectKey, hrest⟩

/-- A call does to stores that work what `Effect` says. -/
theorem Call.effect (hP : L.toPrimitives.Lawful) {c : Call} (hlen : c.data.length < 2 ^ 64)
    {x : Except CoreError Bool} (h : Prog.Run honest (c.run L v).run s x s') :
    v.Effect L s c x s' := by
  have hfail : ∀ {y : Except CoreError Bool}, (∃ e, y = .error e) → s' = s →
      v.Effect L s c y s' := by
    intro y hy hs
    obtain ⟨e, rfl⟩ := hy
    rw [hs]
    exact .beside (fun h => by cases h) (@Stores.SameOff.refl (SideKey default) s)
  have hshare : ∀ {y : Except CoreError Bool}, (∃ fileId, s.SameOff (SideKey fileId) s') →
      c.fileId? = none → (∀ path, c ≠ .delete path) → v.Effect L s c y s' := by
    intro y hside hid hdelete
    obtain ⟨fileId, hside⟩ := hside
    exact .beside (fun _ => ⟨hid, hdelete⟩) hside
  cases c with
  | put draws clock path data modified =>
    unfold run Vault.putFile at h
    obtain ⟨y, hput, rfl⟩ := Prog.run_map h
    rcases Vault.run_lookup_bind hput with ⟨⟨e, rfl⟩, hs⟩ |
      ⟨nfcPath, previous, hpath, hlookup, hstore⟩
    · exact hfail ⟨e, rfl⟩ hs
    rcases Vault.run_storeFile hP hlen (length_le_of_normalize hpath) hstore with
      ⟨⟨e, rfl⟩, hs⟩ | ⟨object, s1, hsealed, rfl, hleaves, rfl⟩
    · exact hfail ⟨e, rfl⟩ hs
    · exact .replaced hpath hlookup rfl ⟨hsealed, rfl⟩ hleaves
  | putSource draws clock path data grants plaintextLen modified =>
    unfold run Vault.putFileFromSource at h
    obtain ⟨y, hput, rfl⟩ := Prog.run_map h
    rcases Vault.run_lookup_bind hput with ⟨⟨e, rfl⟩, hs⟩ |
      ⟨nfcPath, previous, hpath, hlookup, hstore⟩
    · exact hfail ⟨e, rfl⟩ hs
    rcases Vault.run_storeSource hP hlen (length_le_of_normalize hpath) hstore with
      ⟨⟨e, rfl⟩, hs⟩ | ⟨object, s1, hsealed, ⟨r, rfl⟩, hleaves, rfl⟩
    · exact hfail ⟨e, rfl⟩ hs
    · exact .replaced hpath hlookup rfl ⟨hsealed, rfl⟩ hleaves
  | putShared draws clock path data recipients modified =>
    unfold run Vault.putFileShared at h
    obtain ⟨y, hput, rfl⟩ := Prog.run_map h
    rcases Vault.run_lookup_bind hput with ⟨⟨e, rfl⟩, hs⟩ |
      ⟨nfcPath, previous, hpath, hlookup, hstore⟩
    · exact hfail ⟨e, rfl⟩ hs
    rcases Vault.run_storeShared hP hlen (length_le_of_normalize hpath) hstore with
      ⟨⟨e, rfl⟩, hs⟩ | ⟨object, s1, hsealed, hleaves, ⟨⟨e, rfl⟩, rfl⟩ | ⟨rfl, rfl⟩⟩
    · exact hfail ⟨e, rfl⟩ hs
    · exact .stored hpath rfl ⟨hsealed, rfl⟩ hleaves
    · exact .replaced hpath hlookup rfl ⟨hsealed, rfl⟩ hleaves
  | shareAdd draws path recipients =>
    unfold run Vault.shareAddRecipients at h
    obtain ⟨y, hshared, -⟩ := Prog.run_map h
    obtain ⟨z, hadd, -⟩ := Prog.run_map hshared
    refine hshare ?_ rfl (fun path h => by cases h)
    unfold Vault.shareAddWith at hadd
    rcases Vault.run_resolve_bind hadd with hs | ⟨nfcPath, objectKey, hrest⟩
    · rw [hs]
      exact ⟨default, Stores.SameOff.refl s⟩
    · exact Vault.run_addToObject hrest
  | shareRemove path keyId =>
    unfold run Vault.shareRemoveRecipient at h
    obtain ⟨y, hremove, -⟩ := Prog.run_map h
    refine hshare ?_ rfl (fun path h => by cases h)
    rcases Vault.run_resolve_bind hremove with hs | ⟨nfcPath, objectKey, hrest⟩
    · rw [hs]
      exact ⟨default, Stores.SameOff.refl s⟩
    · exact Vault.run_removeFromObject hrest
  | delete path =>
    unfold run Vault.deleteFile at h
    rcases Vault.run_lookup_bind h with ⟨hx, hs⟩ | ⟨nfcPath, found, hpath, hlookup, hremove⟩
    · exact hfail hx hs
    cases found with
    | none =>
      obtain ⟨rfl, rfl⟩ := Prog.run_pure.mp hremove
      exact .beside (fun h => by cases h) (@Stores.SameOff.refl (SideKey default) s)
    | some objectKey =>
      obtain ⟨rfl, rfl⟩ := Vault.run_removeFile.mp hremove
      exact .removed rfl hpath hlookup

end Effects

section Succeed

theorem Vault.lookupObjectKey_isOk (L : Libraries) (v : Vault) (s : Stores) (nfcPath : String) :
    ∃ found, v.lookupObjectKey L s.view nfcPath = .ok found :=
  ⟨_, lookupObjectKey_eq rfl⟩

theorem Vault.exists_run_putFileShared (hP : L.toPrimitives.Lawful) {draws : SharedDraws}
    {clock : Option Int64} {path : String} {data object : Bytes} {recipients : List Drk1Public}
    {modified : Modified} (hlen : data.length < 2 ^ 64)
    (hpath : Path.normalize L.toUnicode path = .ok nfcPath)
    (hsealed : v.sealShared L draws.object nfcPath data recipients = .ok object)
    (hrecords : ∀ i, ∀ r ∈ v.recipientSet L recipients, ∃ record,
      sealDgd1 L.toPrimitives L.toKemPrimitives L.toUnicode r (object.take objectHeadLen)
        (sharedInfo L nfcPath draws.object.fileId data) (draws.discovery i) = .ok record)
    (s : Stores) : ∃ s1 previous value,
      Prog.Run honest (v.putFileShared L draws clock path data recipients modified).run s (.ok ())
          (s1.collect previous (objectKeyOf draws.object.fileId)) ∧
        v.lookupObjectKey L s.view nfcPath = .ok previous ∧
        Prog.Run honest (v.writeDiscoveryRecords L (object.take objectHeadLen)
          (sharedInfo L nfcPath draws.object.fileId data) draws.discovery 0
          (v.recipientSet L recipients)).run
            (s.withRow draws.object.fileId object (v.nameKey L nfcPath) value
              (bufferedRow L nfcPath draws.object.fileId data (modified.resolve clock)))
                (.ok ()) s1 := by
  obtain ⟨previous, hlookup⟩ := lookupObjectKey_isOk L v s nfcPath
  obtain ⟨value, hname⟩ := @NameKeys.sealRecord_isOk L.toPrimitives L.keyedHash hP v.nameKeys
    v.vaultId draws.name nfcPath (length_le_of_normalize hpath) draws.object.fileId 0
  obtain ⟨s1, hdiscovery⟩ := @run_writeDiscoveryRecords_ok L v (object.take objectHeadLen)
    (sharedInfo L nfcPath draws.object.fileId data) draws.discovery 0 (v.recipientSet L recipients)
    hrecords (s.withRow draws.object.fileId object (v.nameKey L nfcPath) value
      (bufferedRow L nfcPath draws.object.fileId data (modified.resolve clock)))
  refine ⟨s1, previous, value, ?_, hlookup, hdiscovery⟩
  unfold putFileShared liftCrypto
  rw [hpath, ofCrypto, Except.mapError, Prog.run_ofExcept_ok_bind, Prog.run_fallible_bind]
  refine Or.inr ⟨previous, s, run_lookupKey.mpr ⟨hlookup, rfl⟩, ?_⟩
  unfold storeShared
  rw [hsealed, Prog.run_ofExcept_ok_bind]
  dsimp only
  rw [fileId_of_sealShared hP hlen hsealed]
  refine Prog.run_fallible_bind.mpr (Or.inr ⟨(), s.withRow draws.object.fileId object
    (v.nameKey L nfcPath) value (bufferedRow L nfcPath draws.object.fileId data
      (modified.resolve clock)), ?_, ?_⟩)
  · exact (run_storeSealed hP rfl (length_le_of_normalize hpath)).mpr ⟨rfl, value, hname, rfl⟩
  · exact Prog.run_fallible_bind.mpr (Or.inr ⟨(), s1, hdiscovery, run_gc.mpr ⟨rfl, rfl⟩⟩)

end Succeed

end Dctl.Core
