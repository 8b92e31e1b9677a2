import Dctl.Check.Walk

/-! What `check` reports of two trees: every path of either, once and with the verdict of its
halves, where the keys of both ascend. -/

namespace Dctl.Check

open Cli Cli.Paths Index ProofKit List

variable {comparison : Comparison} {oneWay : Bool} {previous : Option Path} {key k : Path}
  {half : Option Found} {founds rest source dest source' dest' : List Found} {pair : Pair}
  {records : List Record}

/-- One half of a pair with key `k`: the head of a side, or nothing where the side is past `k`. -/
def Takes (k : Path) (half : Option Found) (founds rest : List Found) : Prop :=
  match half with
  | some f => founds = f :: rest ∧ f.key = k
  | none => rest = founds ∧ ∀ f ∈ founds.head?, k < f.key

/-- The keys of a side go up, from beyond `previous` on. -/
structure Ascending (previous : Option Path) (founds : List Found) : Prop where
  behind : ∀ p ∈ previous, ∀ f ∈ founds, p < f.key
  apart : founds.Pairwise fun a b => a.key < b.key

def held (founds : List Found) (key : Path) : Option Stored :=
  (founds.find? fun f => f.key = key).map Found.stored

theorem eq_nil_of_next (h : next source dest = none) : source = [] ∧ dest = [] := by
  match source, dest with
  | [], [] => exact ⟨rfl, rfl⟩
  | _ :: _, [] | [], _ :: _ => cases h
  | _ :: _, _ :: _ =>
    simp only [next] at h
    split at h
    · cases h
    · split at h <;> cases h

@[simp] theorem Pair.key_source (left : Found) (half : Option Found) :
    Pair.key ⟨some left, half⟩ = left.key := rfl

@[simp] theorem Pair.key_dest (right : Found) : Pair.key ⟨none, some right⟩ = right.key := rfl

theorem takes_first (f : Found) (rest : List Found) :
    Takes f.key (some f) (f :: rest) rest := ⟨rfl, rfl⟩

theorem takes_end (k : Path) : Takes k none [] [] :=
  ⟨rfl, fun f hf => absurd hf (Option.not_mem_none f)⟩

theorem takes_nothing (h : ∀ f ∈ founds.head?, k < f.key) : Takes k none founds founds := ⟨rfl, h⟩

theorem next_takes (h : next source dest = some (pair, source', dest')) :
    Takes pair.key pair.source source source' ∧ Takes pair.key pair.dest dest dest' ∧
      (pair.source.isSome ∨ pair.dest.isSome) := by
  match source, dest with
  | [], [] => cases h
  | left :: source, [] =>
    cases h
    rw [Pair.key_source]
    exact ⟨takes_first left _, takes_end _, .inl rfl⟩
  | [], right :: dest =>
    cases h
    rw [Pair.key_dest]
    exact ⟨takes_end _, takes_first right _, .inr rfl⟩
  | left :: source, right :: dest =>
    simp only [next] at h
    split at h
    next hlt =>
      cases h
      rw [Pair.key_source]
      refine ⟨takes_first left _, takes_nothing ?_, .inl rfl⟩
      rintro f ⟨⟩
      exact hlt
    next hnot =>
      split at h
      next hgt =>
        cases h
        rw [Pair.key_dest]
        refine ⟨takes_nothing ?_, takes_first right _, .inr rfl⟩
        rintro f ⟨⟩
        exact hgt
      next hnot' =>
        cases h
        have heq : right.key = left.key := le_antisymm (not_lt.mp hnot) (not_lt.mp hnot')
        have htakes := takes_first right dest'
        rw [heq] at htakes
        rw [Pair.key_source]
        exact ⟨takes_first left _, htakes, .inl rfl⟩

theorem ascending_nil (previous : Option Path) : Ascending previous [] :=
  ⟨fun _ _ _ hf => absurd hf not_mem_nil, .nil⟩

theorem Ascending.of_takes (h : Takes k half founds rest) (hlt : ∀ p ∈ previous, p < k)
    (hrest : Ascending (some k) rest) : Ascending previous founds := by
  have hbehind : ∀ f ∈ rest, k < f.key := hrest.behind k rfl
  cases half with
  | some f =>
    obtain ⟨rfl, rfl⟩ := h
    refine ⟨?_, pairwise_cons.mpr ⟨hbehind, hrest.apart⟩⟩
    intro p hp g hg
    rcases mem_cons.mp hg with rfl | hg
    · exact hlt p hp
    · exact (hlt p hp).trans (hbehind g hg)
  | none =>
    obtain ⟨rfl, -⟩ := h
    exact ⟨fun p hp f hf => (hlt p hp).trans (hbehind f hf), hrest.apart⟩

theorem Ascending.left_over (h : Ascending previous founds) (htakes : Takes k half founds rest) :
    Ascending (some k) rest := by
  cases half with
  | some f =>
    obtain ⟨rfl, rfl⟩ := htakes
    obtain ⟨hbehind, hapart⟩ := pairwise_cons.mp h.apart
    refine ⟨?_, hapart⟩
    rintro _ ⟨⟩
    exact hbehind
  | none =>
    obtain ⟨rfl, hhead⟩ := htakes
    refine ⟨?_, h.apart⟩
    rintro _ ⟨⟩ f hf
    cases rest with
    | nil => cases hf
    | cons g more =>
      have hg : k < g.key := hhead g rfl
      rcases mem_cons.mp hf with rfl | hf
      · exact hg
      · exact hg.trans ((pairwise_cons.mp h.apart).1 f hf)

theorem held_eq_none (h : ∀ f ∈ founds, f.key ≠ key) : held founds key = none := by
  rw [held, List.find?_eq_none.mpr, Option.map_none]
  intro f hf
  simpa using h f hf

section

variable (h : Takes k half founds rest)
include h

theorem Takes.held (hascending : Ascending previous founds) :
    held founds k = half.map Found.stored := by
  cases half with
  | some f =>
    obtain ⟨rfl, rfl⟩ := h
    rw [Check.held, List.find?_cons_of_pos (by simp)]
  | none =>
    have hrest := hascending.left_over h
    obtain ⟨rfl, -⟩ := h
    exact held_eq_none fun f hf => (hrest.behind k rfl f hf).ne'

theorem Takes.held_of_lt (hlt : k < key) : Check.held founds key = Check.held rest key := by
  cases half with
  | some f =>
    obtain ⟨rfl, rfl⟩ := h
    rw [Check.held, Check.held, List.find?_cons_of_neg (by simpa using hlt.ne)]
  | none =>
    obtain ⟨rfl, -⟩ := h
    rfl

theorem Takes.exists_key :
    (∃ f ∈ founds, f.key = key) ↔ (half.isSome ∧ key = k) ∨ ∃ f ∈ rest, f.key = key := by
  cases half with
  | some f =>
    obtain ⟨rfl, rfl⟩ := h
    simp only [mem_cons, exists_eq_or_imp, Option.isSome_some, true_and]
    exact or_congr_left eq_comm
  | none =>
    obtain ⟨rfl, -⟩ := h
    simp

end

/-- The record is of a key that is on some side, carries the verdict of `compare` on the two halves,
and is one that the flags count. -/
structure Reported (comparison : Comparison) (oneWay : Bool) (source dest : List Found)
    (record : Record) :
    Prop where
  listed : (∃ f ∈ source, f.key = record.key) ∨ ∃ f ∈ dest, f.key = record.key
  verdict : record.verdict =
    compare (String.ofList record.key) (held source record.key) (held dest record.key) comparison
  counts : (oneWay && record.verdict.suppressedByOneWay) = false

theorem ordered_eq_ok : ordered previous key = .ok () ↔ ∀ p ∈ previous, p < key := by
  cases previous with
  | none => exact ⟨fun _ => nofun, fun _ => rfl⟩
  | some p =>
    unfold ordered
    simp only [Option.mem_some_iff, forall_eq']
    split
    next hlt => exact ⟨fun _ => hlt, fun _ => rfl⟩
    next hnot => exact ⟨nofun, fun hlt => absurd hlt hnot⟩

theorem compareFrom_none (h : next source dest = none) :
    compareFrom comparison oneWay previous source dest = .ok [] := by
  rw [compareFrom]
  split
  · rfl
  · next heq =>
    rw [h] at heq
    cases heq

/-- A step that ends well: the key advances, and the rest ends well. -/
theorem compareFrom_some (h : next source dest = some (pair, source', dest')) :
    compareFrom comparison oneWay previous source dest = .ok records ↔
      (∀ p ∈ previous, p < pair.key) ∧
        ∃ more, compareFrom comparison oneWay (some pair.key) source' dest' = .ok more ∧
          records = if oneWay && (pair.verdict comparison).suppressedByOneWay then more
            else ⟨pair.key, pair.verdict comparison⟩ :: more := by
  rw [compareFrom]
  split
  · next heq =>
    rw [h] at heq
    cases heq
  · next heq =>
    rw [h] at heq
    cases heq
    simp only [bind_eq_ok]
    constructor
    · rintro ⟨_, hordered, more, hmore, hrecords⟩
      refine ⟨ordered_eq_ok.mp hordered, more, hmore, ?_⟩
      split at hrecords
      next hsuppressed => exact (pure_eq_ok.mp hrecords).symm.trans (if_pos hsuppressed).symm
      next hcounts => exact (pure_eq_ok.mp hrecords).symm.trans (if_neg hcounts).symm
    · rintro ⟨hlt, more, hmore, rfl⟩
      refine ⟨(), ordered_eq_ok.mpr hlt, more, hmore, ?_⟩
      split <;> rfl

theorem ascending_of_compareFrom
    (h : compareFrom comparison oneWay previous source dest = .ok records) :
    Ascending previous source ∧ Ascending previous dest := by
  induction previous, source, dest using compareFrom.induct generalizing records with
  | case1 previous source dest hnext =>
    obtain ⟨rfl, rfl⟩ := eq_nil_of_next hnext
    exact ⟨ascending_nil previous, ascending_nil previous⟩
  | case2 previous source dest pair source' dest' hnext ih =>
    obtain ⟨hlt, more, hmore, -⟩ := (compareFrom_some hnext).mp h
    obtain ⟨hsource, hdest⟩ := ih hmore
    obtain ⟨htakes, htakes', -⟩ := next_takes hnext
    exact ⟨.of_takes htakes hlt hsource, .of_takes htakes' hlt hdest⟩

theorem reported_step (htakes : Takes pair.key pair.source source source')
    (htakes' : Takes pair.key pair.dest dest dest') (hsome : pair.source.isSome ∨ pair.dest.isSome)
    (hsource : Ascending previous source) (hdest : Ascending previous dest) {record : Record} :
    Reported comparison oneWay source dest record ↔
      (record = ⟨pair.key, pair.verdict comparison⟩ ∧
          (oneWay && (pair.verdict comparison).suppressedByOneWay) = false) ∨
        Reported comparison oneWay source' dest' record := by
  have hverdict :
      compare (String.ofList pair.key) (held source pair.key) (held dest pair.key) comparison =
      pair.verdict comparison := by
    rw [htakes.held hsource, htakes'.held hdest]
    rfl
  have hlater : (∃ f ∈ source', f.key = record.key) ∨ (∃ f ∈ dest', f.key = record.key) →
      pair.key < record.key := by
    rintro (⟨f, hf, hkey⟩ | ⟨f, hf, hkey⟩)
    · exact hkey ▸ (hsource.left_over htakes).behind _ rfl f hf
    · exact hkey ▸ (hdest.left_over htakes').behind _ rfl f hf
  constructor
  · intro h
    by_cases hkey : record.key = pair.key
    · have hrecord : record.verdict = pair.verdict comparison := by
        rw [h.verdict, hkey, hverdict]
      refine .inl ⟨?_, hrecord ▸ h.counts⟩
      rw [← hkey, ← hrecord]
    · have hlisted : (∃ f ∈ source', f.key = record.key) ∨ ∃ f ∈ dest', f.key = record.key := by
        rcases h.listed with hkeys | hkeys
        · exact .inl ((htakes.exists_key.mp hkeys).resolve_left fun heq => hkey heq.2)
        · exact .inr ((htakes'.exists_key.mp hkeys).resolve_left fun heq => hkey heq.2)
      refine .inr ⟨hlisted, ?_, h.counts⟩
      have hlt := hlater hlisted
      rw [← htakes.held_of_lt hlt, ← htakes'.held_of_lt hlt]
      exact h.verdict
  · rintro (⟨rfl, hcounts⟩ | h)
    · refine ⟨?_, hverdict.symm, hcounts⟩
      rcases hsome with hhalf | hhalf
      · exact .inl (htakes.exists_key.mpr (.inl ⟨hhalf, rfl⟩))
      · exact .inr (htakes'.exists_key.mpr (.inl ⟨hhalf, rfl⟩))
    · have hlt := hlater h.listed
      refine ⟨?_, ?_, h.counts⟩
      · exact h.listed.imp (fun hkeys => htakes.exists_key.mpr (.inr hkeys))
          fun hkeys => htakes'.exists_key.mpr (.inr hkeys)
      · rw [htakes.held_of_lt hlt, htakes'.held_of_lt hlt]
        exact h.verdict

/-- The records are those of all the keys, each once and in order. -/
structure Lists (comparison : Comparison) (oneWay : Bool) (previous : Option Path)
    (source dest : List Found)
    (records : List Record) : Prop where
  behind : ∀ p ∈ previous, ∀ record ∈ records, p < record.key
  apart : records.Pairwise fun a b => a.key < b.key
  all : ∀ record, record ∈ records ↔ Reported comparison oneWay source dest record

theorem Takes.lt_key (htakes : Takes k half founds rest) (hsome : half.isSome)
    (h : Ascending previous founds) : ∀ p ∈ previous, p < k := by
  obtain ⟨f, rfl⟩ := Option.isSome_iff_exists.mp hsome
  obtain ⟨rfl, rfl⟩ := htakes
  exact fun p hp => h.behind p hp f mem_cons_self

theorem compareFrom_ascending (hsource : Ascending previous source)
    (hdest : Ascending previous dest) :
    ∃ records, compareFrom comparison oneWay previous source dest = .ok records ∧
      Lists comparison oneWay previous source dest records := by
  induction previous, source, dest using compareFrom.induct with
  | case1 previous source dest hnext =>
    obtain ⟨rfl, rfl⟩ := eq_nil_of_next hnext
    refine ⟨[], compareFrom_none hnext, fun _ _ _ h => absurd h not_mem_nil, .nil,
      fun record => ⟨nofun, fun h => ?_⟩⟩
    rcases h.listed with ⟨f, hf, -⟩ | ⟨f, hf, -⟩ <;> cases hf
  | case2 previous source dest pair source' dest' hnext ih =>
    obtain ⟨htakes, htakes', hsome⟩ := next_takes hnext
    have hlt : ∀ p ∈ previous, p < pair.key :=
      hsome.elim (htakes.lt_key · hsource) (htakes'.lt_key · hdest)
    obtain ⟨more, hmore, hbehind, hapart, hall⟩ :=
      ih (hsource.left_over htakes) (hdest.left_over htakes')
    have hlater : ∀ record ∈ more, pair.key < record.key := hbehind _ rfl
    refine ⟨_, (compareFrom_some hnext).mpr ⟨hlt, more, hmore, rfl⟩, ?_⟩
    split
    next hsuppressed =>
      refine ⟨fun p hp record hmem => (hlt p hp).trans (hlater record hmem), hapart,
        fun record => ?_⟩
      rw [reported_step htakes htakes' hsome hsource hdest, hsuppressed, hall]
      simp
    next hcounts =>
      refine ⟨?_, pairwise_cons.mpr ⟨hlater, hapart⟩, fun record => ?_⟩
      · intro p hp record hmem
        rcases mem_cons.mp hmem with rfl | hmem
        · exact hlt p hp
        · exact (hlt p hp).trans (hlater record hmem)
      · rw [reported_step htakes htakes' hsome hsource hdest, mem_cons, hall,
          and_iff_left (Bool.eq_false_iff.mpr hcounts)]

theorem lists_of_run {source dest : Side} (h : run comparison oneWay source dest = .ok records) :
    (Ascending none source.founds ∧ Ascending none dest.founds) ∧
      Lists comparison oneWay none source.founds dest.founds records := by
  obtain ⟨hsource, hdest⟩ := ascending_of_compareFrom h
  obtain ⟨records', hrecords', hlists⟩ := compareFrom_ascending hsource hdest
  cases h.symm.trans hrecords'
  exact ⟨⟨hsource, hdest⟩, hlists⟩

end Dctl.Check
