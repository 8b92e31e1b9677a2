import Mathlib.Algebra.Order.BigOperators.Group.Finset
import Dctl.ProofKit.Prog
import Dctl.Store.Error

/-! Deleting a name on B2 (`b2/listing.rs`).  B2 keeps every version of a name and lists them in
pages, newest first within the name; the loop deletes each page before it asks for the next, from
where the page before left off. -/

namespace Dctl.Store.B2

open ProofKit List

structure FileVersion (Id : Type) where
  fileName : String
  fileId : Id
  deriving DecidableEq

structure ListFileVersions (Id : Type) where
  files : List (FileVersion Id)
  nextFileName : Option String
  nextFileId : Option Id

inductive VersionPages (Id : Type) where
  | page (startName : Option String) (startId : Option Id)
  | remove (fileName : String) (fileId : Id)

abbrev VersionPages.Answer {Id : Type} : VersionPages Id → Type
  | .page _ _ => Except StoreError (ListFileVersions Id)
  | .remove _ _ => Except StoreError Unit

variable {Id : Type}

abbrev VersionsM (Id : Type) := Prog.Fallible (VersionPages Id) VersionPages.Answer StoreError

def removeAll : List (FileVersion Id) → VersionsM Id Unit
  | [] => pure ()
  | version :: rest => do
    let answer ← Prog.query (.remove version.fileName version.fileId)
    Prog.ofExcept answer
    removeAll rest

/-- The loop, for at most `fuel` pages; it ends with nothing when there are more. -/
def deletePages (name : String) :
    (fuel : Nat) → Option String → Option Id → VersionsM Id (Option Unit)
  | 0, _, _ => pure none
  | fuel + 1, startName, startId => do
    let answer ← Prog.query (.page startName startId)
    let resp ← Prog.ofExcept answer
    -- The listing is by prefix, so longer names come back in the same page.
    removeAll (resp.files.filter fun version => version.fileName = name)
    match resp.nextFileName with
    | some next => deletePages name fuel (some next) resp.nextFileId
    | none => pure (some ())

def deleteEveryVersion (name : String) (fuel : Nat) : VersionsM Id (Option Unit) :=
  deletePages name fuel (some name) none

variable [LinearOrder Id]

/-- The order of versions: by name, and by id. -/
def FileVersion.Before (v w : FileVersion Id) : Prop :=
  v.fileName < w.fileName ∨ v.fileName = w.fileName ∧ v.fileId < w.fileId

instance (v w : FileVersion Id) : Decidable (v.Before w) := inferInstanceAs (Decidable (_ ∨ _))

def FileVersion.reached (startName : Option String) (startId : Option Id) (v : FileVersion Id) :
    Bool :=
  startName.all fun name =>
    name < v.fileName || (name = v.fileName && startId.all (· ≤ v.fileId))

/-- A bucket that lists its versions in order, and how many pages it has served. -/
structure Bucket (Id : Type) where
  versions : List (FileVersion Id)
  served : Nat

namespace Bucket

def listed (b : Bucket Id) (pref : String) (startName : Option String) (startId : Option Id) :
    List (FileVersion Id) :=
  b.versions.filter fun v =>
    pref.toList.isPrefixOf v.fileName.toList && v.reached startName startId

def answer (pref : String) (sizes : Nat → Nat) (b : Bucket Id) :
    (r : VersionPages Id) → r.Answer × Bucket Id
  | .page startName startId =>
    let found := b.listed pref startName startId
    let next := (found.drop (sizes b.served)).head?
    (.ok { files := found.take (sizes b.served)
           nextFileName := next.map FileVersion.fileName
           nextFileId := next.map FileVersion.fileId },
     { b with served := b.served + 1 })
  | .remove fileName fileId =>
    if ⟨fileName, fileId⟩ ∈ b.versions then
      (.ok (), { b with versions := b.versions.filter (· ≠ ⟨fileName, fileId⟩) })
    else (.error (.notFound fileName), b)

end Bucket

variable {name pref : String} {sizes : Nat → Nat} {v w : FileVersion Id}

theorem FileVersion.reached_next : v.reached (some w.fileName) (some w.fileId) = true ↔
    v = w ∨ w.Before v := by
  obtain ⟨vn, vi⟩ := v
  obtain ⟨wn, wi⟩ := w
  simp only [reached, Option.all_some, Bool.or_eq_true, decide_eq_true_eq, Bool.and_eq_true,
    FileVersion.mk.injEq, Before, le_iff_lt_or_eq]
  constructor
  · rintro (h | ⟨rfl, h | rfl⟩)
    · exact .inr (.inl h)
    · exact .inr (.inr ⟨rfl, h⟩)
    · exact .inl ⟨rfl, rfl⟩
  · rintro (⟨rfl, rfl⟩ | h | ⟨rfl, h⟩)
    · exact .inr ⟨rfl, .inr rfl⟩
    · exact .inl h
    · exact .inr ⟨rfl, .inl h⟩

theorem FileVersion.Before.trans {u : FileVersion Id} (huv : u.Before v) (hvw : v.Before w) :
    u.Before w := by
  rcases huv with huv | ⟨hn, hi⟩
  · rcases hvw with hvw | ⟨hn', -⟩
    · exact .inl (String.lt_trans huv hvw)
    · exact .inl (hn' ▸ huv)
  · rcases hvw with hvw | ⟨hn', hi'⟩
    · exact .inl (hn ▸ hvw)
    · exact .inr ⟨hn.trans hn', hi.trans hi'⟩

theorem FileVersion.Before.irrefl : ¬v.Before v := by
  rintro (h | ⟨-, h⟩)
  · exact String.lt_irrefl _ h
  · exact lt_irrefl _ h

theorem FileVersion.Before.ne (h : v.Before w) : v ≠ w := by
  rintro rfl
  exact h.irrefl

theorem FileVersion.reached_of_before {startName : Option String} {startId : Option Id}
    (hv : v.reached startName startId = true) (hvw : v.Before w) :
    w.reached startName startId = true := by
  cases startName with
  | none => rfl
  | some n =>
    simp only [reached, Option.all_some, Bool.or_eq_true, decide_eq_true_eq,
      Bool.and_eq_true] at hv ⊢
    rcases hv with hv | ⟨rfl, hid⟩
    · rcases hvw with hvw | ⟨hn, -⟩
      · exact .inl (String.lt_trans hv hvw)
      · exact .inl (hn ▸ hv)
    · rcases hvw with hvw | ⟨hn, hi⟩
      · exact .inl hvw
      · refine .inr ⟨hn, ?_⟩
        cases startId with
        | none => rfl
        | some i => exact decide_eq_true ((of_decide_eq_true hid).trans hi.le)

theorem eval_removeAll {vs : List (FileVersion Id)} {b : Bucket Id} (hvs : vs.Nodup)
    (hsub : vs ⊆ b.versions) : (removeAll vs).run.eval (Bucket.answer pref sizes) b =
      (.ok (), { b with versions := b.versions.filter (· ∉ vs) }) := by
  induction vs generalizing b with
  | nil =>
    have hall : b.versions.filter (· ∉ ([] : List (FileVersion Id))) = b.versions :=
      filter_eq_self.mpr fun _ _ => decide_eq_true not_mem_nil
    rw [hall]
    rfl
  | cons v vs ih =>
    obtain ⟨hv, hvs⟩ := nodup_cons.mp hvs
    obtain ⟨hmem, hsub⟩ := cons_subset.mp hsub
    have hrest : vs ⊆ b.versions.filter (· ≠ v) := fun w hw =>
      mem_filter.mpr ⟨hsub hw, decide_eq_true fun h => hv (h ▸ hw)⟩
    rw [removeAll, Prog.eval_query_bind, Bucket.answer, if_pos hmem]
    simp only
    have hboth : (fun w : FileVersion Id => decide (w ∉ vs) && decide (w ≠ v)) =
        fun w => decide (w ∉ v :: vs) := by
      funext w
      simp [Bool.and_comm]
    rw [Prog.eval_ofExcept_ok_bind, ih hvs hrest, filter_filter, hboth]

def leftAt (versions : List (FileVersion Id)) (name : String) (startName : Option String)
    (startId : Option Id) : List (FileVersion Id) :=
  versions.filter fun v => v.fileName ≠ name || v.reached startName startId

variable {versions : List (FileVersion Id)} {startName : Option String} {startId : Option Id}
  {found : List (FileVersion Id)}

theorem before_next (hfound : found.Pairwise FileVersion.Before) {k : Nat} {next : FileVersion Id}
    (hnext : (found.drop k).head? = some next) (hv : v ∈ found) :
    v ∉ found.take k ↔ v.reached (some next.fileName) (some next.fileId) := by
  rw [FileVersion.reached_next]
  obtain ⟨rest, hrest⟩ := List.head?_eq_some_iff.mp hnext
  rw [← take_append_drop k found, hrest] at hv hfound
  obtain ⟨-, hbehind, hacross⟩ := pairwise_append.mp hfound
  rcases mem_append.mp hv with hpage | hlater
  · have hbefore := hacross v hpage next mem_cons_self
    refine iff_of_false (not_not.mpr hpage) ?_
    rintro (rfl | hafter)
    · exact hbefore.irrefl
    · exact (hbefore.trans hafter).irrefl
  · refine iff_of_true (fun hpage => (hacross v hpage v hlater).irrefl) ?_
    rcases mem_cons.mp hlater with rfl | hrest
    · exact .inl rfl
    · exact .inr ((pairwise_cons.mp hbehind).1 v hrest)

theorem Bucket.mem_listed {b : Bucket Id} : v ∈ b.listed pref startName startId ↔
    v ∈ b.versions ∧ pref.toList.isPrefixOf v.fileName.toList = true ∧
      v.reached startName startId = true := by
  rw [listed, mem_filter, Bool.and_eq_true]

theorem Bucket.sorted_listed {b : Bucket Id} (hb : b.versions.Pairwise FileVersion.Before) :
    (b.listed pref startName startId).Pairwise FileVersion.Before :=
  hb.filter _

theorem listed_leftAt (n m : Nat) :
    Bucket.listed ⟨leftAt versions name startName startId, n⟩ pref startName startId =
      Bucket.listed ⟨versions, m⟩ pref startName startId := by
  rw [Bucket.listed, Bucket.listed, leftAt, filter_filter]
  refine filter_congr fun v _ => ?_
  cases v.reached startName startId
  · rw [Bool.and_false, Bool.false_and]
  · rw [Bool.or_true, Bool.and_true, Bool.and_true]

section

variable (hversions : versions.Pairwise FileVersion.Before)
include hversions

theorem left_after_page {k n : Nat}
    (hfound : Bucket.listed ⟨versions, n⟩ name startName startId = found) :
    (leftAt versions name startName startId).filter
        (· ∉ (found.take k).filter fun v => v.fileName = name) =
      match (found.drop k).head? with
      | some next => leftAt versions name (some next.fileName) (some next.fileId)
      | none => versions.filter fun v => v.fileName ≠ name := by
  have hsorted : found.Pairwise FileVersion.Before := hfound ▸ Bucket.sorted_listed hversions
  have hmem : ∀ v ∈ versions, v.fileName = name →
      (v ∈ found ↔ v.reached startName startId = true) := by
    intro v hv hname
    rw [← hfound, Bucket.mem_listed, hname]
    simp [hv]
  rw [leftAt, filter_filter]
  cases hhead : (found.drop k).head? with
  | none =>
    have hall : found.take k = found := take_of_length_le (by simpa using hhead)
    refine filter_congr fun v hv => ?_
    by_cases hname : v.fileName = name
    · simp [hname, hall, hmem v hv hname]
    · simp [hname]
  | some next =>
    have hnext : next ∈ found := mem_of_mem_drop (mem_of_mem_head? hhead)
    have hreached := (Bucket.mem_listed.mp (hfound ▸ hnext)).2.2
    refine filter_congr fun v hv => ?_
    by_cases hname : v.fileName = name
    · by_cases hr : v.reached startName startId = true
      · have hpage := before_next hsorted hhead ((hmem v hv hname).mpr hr)
        rw [Bool.eq_iff_iff]
        simpa [hname, hr] using hpage
      · -- What the page did not reach, the next one does not reach either.
        have hrest : v.reached (some next.fileName) (some next.fileId) = false := by
          rw [← Bool.not_eq_true, FileVersion.reached_next]
          rintro (rfl | hbefore)
          · exact hr hreached
          · exact hr (FileVersion.reached_of_before hreached hbefore)
        simp [hname, hr, hrest]
    · simp [hname]

theorem length_listed_next {k n : Nat} {next : FileVersion Id}
    (hfound : Bucket.listed ⟨versions, n⟩ pref startName startId = found)
    (hhead : (found.drop k).head? = some next) :
    (Bucket.listed ⟨versions, n⟩ pref (some next.fileName) (some next.fileId)).length ≤
      found.length - k := by
  have hsorted : found.Pairwise FileVersion.Before := hfound ▸ Bucket.sorted_listed hversions
  have hnext : next ∈ found := mem_of_mem_drop (mem_of_mem_head? hhead)
  have hreached := (Bucket.mem_listed.mp (hfound ▸ hnext)).2.2
  have hsub : Bucket.listed ⟨versions, n⟩ pref (some next.fileName) (some next.fileId) =
      found.filter fun v => v.reached (some next.fileName) (some next.fileId) := by
    rw [← hfound, Bucket.listed, Bucket.listed, filter_filter]
    refine filter_congr fun v _ => ?_
    cases hr : v.reached (some next.fileName) (some next.fileId) with
    | false => simp
    | true =>
      have hv : v.reached startName startId = true := by
        rcases FileVersion.reached_next.mp hr with rfl | hbefore
        · exact hreached
        · exact FileVersion.reached_of_before hreached hbefore
      simp [hv]
  rw [hsub, ← length_drop]
  conv_lhs => rw [← take_append_drop k found, filter_append]
  have hpage : (found.take k).filter
      (fun v => v.reached (some next.fileName) (some next.fileId)) = [] := by
    rw [filter_eq_nil_iff]
    exact fun v hv hr => (before_next hsorted hhead (mem_of_mem_take hv)).mpr hr hv
  rw [hpage, nil_append]
  exact length_filter_le _ _

theorem eval_deletePages_succ {fuel n : Nat}
    (hfound : Bucket.listed ⟨versions, n⟩ name startName startId = found) :
    (deletePages name (fuel + 1) startName startId).run.eval (Bucket.answer name sizes)
        ⟨leftAt versions name startName startId, n⟩ =
      match (found.drop (sizes n)).head? with
      | some next =>
        (deletePages name fuel (some next.fileName) (some next.fileId)).run.eval
          (Bucket.answer name sizes)
          ⟨leftAt versions name (some next.fileName) (some next.fileId), n + 1⟩
      | none => (.ok (some ()), ⟨versions.filter fun v => v.fileName ≠ name, n + 1⟩) := by
  have hleft := left_after_page hversions (k := sizes n) hfound
  have hsorted : found.Pairwise FileVersion.Before := hfound ▸ Bucket.sorted_listed hversions
  have hnodup : ((found.take (sizes n)).filter fun v => v.fileName = name).Nodup :=
    ((hsorted.sublist (take_sublist _ _)).filter _).imp FileVersion.Before.ne
  have hsub : ((found.take (sizes n)).filter fun v => v.fileName = name) ⊆
      leftAt versions name startName startId := by
    intro v hv
    have hmem : v ∈ found := mem_of_mem_take (mem_filter.mp hv).1
    rw [← hfound, Bucket.mem_listed] at hmem
    rw [leftAt, mem_filter, hmem.2.2, Bool.or_true]
    exact ⟨hmem.1, rfl⟩
  rw [deletePages, Prog.eval_query_bind, Bucket.answer, listed_leftAt n n, hfound]
  simp only
  rw [Prog.eval_ofExcept_ok_bind, Prog.eval_fallible_bind (eval_removeAll hnodup hsub), hleft]
  cases (found.drop (sizes n)).head? with
  | none => rfl
  | some next => rfl

theorem eval_deletePages (startName : Option String) (startId : Option Id) (fuel n : Nat) :
    ∃ b, ((deletePages name fuel startName startId).run.eval (Bucket.answer name sizes)
          ⟨leftAt versions name startName startId, n⟩ = (.ok none, b) ∧
        ∃ startName' startId', b.versions = leftAt versions name startName' startId') ∨
      (deletePages name fuel startName startId).run.eval (Bucket.answer name sizes)
          ⟨leftAt versions name startName startId, n⟩ = (.ok (some ()), b) ∧
        b.versions = versions.filter fun v => v.fileName ≠ name := by
  induction fuel generalizing startName startId n with
  | zero => exact ⟨_, .inl ⟨rfl, startName, startId, rfl⟩⟩
  | succ fuel ih =>
    rw [eval_deletePages_succ hversions rfl]
    split
    · exact ih _ _ (n + 1)
    · exact ⟨_, .inr ⟨rfl, rfl⟩⟩

theorem eval_deletePages_ends {fuel n m : Nat}
    (hroom : (Bucket.listed ⟨versions, n⟩ name startName startId).length ≤ ∑ j ∈ Finset.range m,
      sizes (n + j))
    (hfuel : m < fuel) :
    ((deletePages name fuel startName startId).run.eval (Bucket.answer name sizes)
      ⟨leftAt versions name startName startId, n⟩).1 = .ok (some ()) := by
  induction m generalizing startName startId fuel n with
  | zero =>
    obtain ⟨fuel, rfl⟩ : ∃ k, fuel = k + 1 := ⟨fuel - 1, by omega⟩
    have hnil : Bucket.listed ⟨versions, n⟩ name startName startId = [] := by
      simpa using hroom
    rw [eval_deletePages_succ hversions hnil, drop_nil]
    rfl
  | succ m ih =>
    obtain ⟨fuel, rfl⟩ : ∃ k, fuel = k + 1 := ⟨fuel - 1, by omega⟩
    rw [eval_deletePages_succ hversions rfl]
    split
    next next hhead =>
      have hnext := length_listed_next hversions rfl hhead
      rw [Finset.sum_range_succ'] at hroom
      refine ih (le_trans hnext ?_) (by omega)
      simp only [Nat.add_assoc n 1, Nat.add_comm 1]
      exact Nat.sub_le_of_le_add hroom
    next => rfl

end

theorem exists_room (hserved : ∀ k, ∃ j, k ≤ j ∧ sizes j ≠ 0) (l : Nat) :
    ∃ m, l ≤ ∑ j ∈ Finset.range m, sizes j := by
  induction l with
  | zero => exact ⟨0, Nat.zero_le _⟩
  | succ l ih =>
    obtain ⟨m, hm⟩ := ih
    obtain ⟨j, hj, hsize⟩ := hserved m
    have hle : ∑ i ∈ Finset.range m, sizes i ≤ ∑ i ∈ Finset.range j, sizes i :=
      Finset.sum_le_sum_of_subset (Finset.range_subset_range.mpr hj)
    refine ⟨j + 1, ?_⟩
    rw [Finset.sum_range_succ]
    omega

theorem leftAt_start : leftAt versions name (some name) none = versions := by
  refine filter_eq_self.mpr fun v _ => ?_
  by_cases hname : v.fileName = name
  · simp [hname, FileVersion.reached]
  · simp [hname]

/-- The loop deletes the versions of the name, all of them, and nothing else, whatever the pages
that the listing comes in; and it ends, as long as the pages do not stay empty for ever. -/
theorem deleteEveryVersion_exact (name : String) (hversions : versions.Pairwise FileVersion.Before)
    (sizes : Nat → Nat) :
    (∀ fuel, ∃ b, (deleteEveryVersion name fuel).run.eval (Bucket.answer name sizes) ⟨versions, 0⟩ =
        (.ok none, b) ∧ b.versions.Sublist versions ∧
          (b.versions.filter fun v => v.fileName ≠ name) =
            versions.filter (fun v => v.fileName ≠ name) ∨
      (deleteEveryVersion name fuel).run.eval (Bucket.answer name sizes) ⟨versions, 0⟩ =
        (.ok (some ()), b) ∧ b.versions = versions.filter fun v => v.fileName ≠ name) ∧
    ((∀ k, ∃ j, k ≤ j ∧ sizes j ≠ 0) → ∃ pages, ∀ fuel, pages < fuel →
      ((deleteEveryVersion name fuel).run.eval (Bucket.answer name sizes) ⟨versions, 0⟩).1 =
        .ok (some ())) := by
  have hstart : (⟨versions, 0⟩ : Bucket Id) = ⟨leftAt versions name (some name) none, 0⟩ := by
    rw [leftAt_start]
  rw [hstart]
  refine ⟨fun fuel => ?_, fun hserved => ?_⟩
  · obtain ⟨b, ⟨hrun, startName, startId, hb⟩ | hrun⟩ :=
      eval_deletePages hversions (some name) none fuel 0
    · refine ⟨b, .inl ⟨hrun, hb ▸ filter_sublist, ?_⟩⟩
      rw [hb, leftAt, filter_filter]
      refine filter_congr fun v _ => ?_
      cases hname : decide (v.fileName ≠ name)
      · rw [Bool.false_and]
      · rw [Bool.true_and, Bool.true_or]
    · exact ⟨b, .inr hrun⟩
  · obtain ⟨m, hm⟩ := exists_room hserved
      (Bucket.listed ⟨versions, 0⟩ name (some name) none).length
    refine ⟨m, fun fuel hfuel => eval_deletePages_ends hversions ?_ hfuel⟩
    simpa only [Nat.zero_add] using hm

theorem deleteEveryVersion_exact_split : ∃ pages, ∀ fuel, pages < fuel →
    ((deleteEveryVersion "a" fuel).run.eval (Bucket.answer "a" fun n => n % 2)
      ⟨[⟨"a", 0⟩, ⟨"a", 1⟩, ⟨"ab", 0⟩], 0⟩).1 = .ok (some ()) :=
  (deleteEveryVersion_exact "a" (by decide) _).2
    fun k => ⟨2 * k + 1, by omega, by omega⟩

end Dctl.Store.B2
