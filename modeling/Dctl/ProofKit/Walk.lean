import Dctl.ProofKit.Pairing
import Dctl.ProofKit.Prog
import Mathlib.Algebra.Order.BigOperators.Group.List
import Mathlib.Algebra.Order.Ring.Nat

/-! A walk with an explicit stack: what is on top is visited, gives findings, and pushes what is
still to be visited.  What a whole walk does is what its visits do. -/

namespace Dctl.ProofKit

open List

section Gather

variable {R : Type} {A : R → Type} {S ε α F P : Type}

/-- Go over a list, append what each element gives, and put what each pushes on top of what the
earlier ones pushed. -/
def gather (f : α → Prog.Fallible R A ε (List F × List P)) :
    List α → Prog.Fallible R A ε (List F × List P)
  | [] => return ([], [])
  | a :: as => do
    let here ← f a
    let rest ← gather f as
    return (here.1 ++ rest.1, rest.2 ++ here.2)

theorem run_gather {serve : Prog.Server S R A} {le : S → S → Prop} (hrefl : ∀ s, le s s)
    (htrans : ∀ {a b c}, le a b → le b c → le a c) (hle : ∀ s r x s', serve s r x s' → le s s')
    {f : α → Prog.Fallible R A ε (List F × List P)} {as : List α} {s s' : S}
    {found : List F} {pushed : List P}
    (h : Prog.Run serve (gather f as).run s (.ok (found, pushed)) s') :
    le s s' ∧ ∃ xs : List (List F × List P),
      List.Forall₂ (fun a x => ∃ s₁ s₂, le s s₁ ∧ le s₂ s' ∧ Prog.Run serve (f a).run s₁ (.ok x) s₂)
        as xs ∧ found = xs.flatMap (·.1) ∧ pushed = xs.reverse.flatMap (·.2) := by
  have hrun : ∀ {β : Type} {p : Prog R A β} {s s' : S} {b : β},
      Prog.Run serve p s b s' → le s s' := by
    intro β p s s' b h
    exact h.invariant (I := le s) (fun a r x b ha hserve =>
      htrans ha (hle a r x b hserve)) (hrefl s)
  induction as generalizing s found pushed with
  | nil =>
    obtain ⟨hx, rfl⟩ := Prog.run_pure.mp h
    cases hx
    exact ⟨hrefl s, [], .nil, rfl, rfl⟩
  | cons a as ih =>
    obtain ⟨x, s₁, hfirst, hrest⟩ := Prog.run_bind_ok.mp h
    obtain ⟨y, s₂, hgather, hend⟩ := Prog.run_bind_ok.mp hrest
    obtain ⟨hpair, rfl⟩ := Prog.run_pure.mp hend
    obtain ⟨hle', xs, hxs, hfound, hpushed⟩ := ih hgather
    cases hpair
    have hhere := hrun hfirst
    refine ⟨htrans hhere hle', x :: xs, .cons ⟨s, s₁, hrefl s, hle', hfirst⟩ ?_, ?_, ?_⟩
    · exact hxs.imp fun b z ⟨a', b', ha, hb, hr⟩ => ⟨a', b', htrans hhere ha, hb, hr⟩
    · rw [flatMap_cons, ← hfound]
    · rw [reverse_cons, flatMap_append, ← hpushed]
      simp

theorem flatMap_of_names {N β : Type} (name : α → N) (out : β → List F) (make : N → F)
    (good : N → Prop) {as : List α} {xs : List β}
    (h : List.Forall₂ (fun a x => out x = [] ∨ out x = [make (name a)] ∧ good (name a)) as xs) :
    ∃ names : List N, names.Sublist (as.map name) ∧ xs.flatMap out = names.map make ∧
      ∀ n ∈ names, good n := by
  induction h with
  | nil => exact ⟨[], List.Sublist.refl _, rfl, nofun⟩
  | @cons a x as xs hx _ ih =>
    obtain ⟨names, hsub, hout, hgood⟩ := ih
    rw [flatMap_cons, map_cons]
    rcases hx with hnone | ⟨hone, ha⟩
    · exact ⟨names, hsub.cons _, by rw [hnone, hout, nil_append], hgood⟩
    · refine ⟨name a :: names, hsub.cons_cons _, by rw [hone, hout]; rfl, ?_⟩
      exact forall_mem_cons.mpr ⟨ha, hgood⟩

end Gather

namespace Walk

variable {S P F ε : Type}

structure Visit (P F : Type) where
  «at» : P
  found : List F
  pushed : List P
  deriving DecidableEq

abbrev Visits (S P F ε : Type) := S → P → Except ε (List F × List P) → S → Prop

variable (visits : Visits S P F ε)

/-- A directory is read, and what it pushes comes before what waits. -/
inductive Step : S × List P → S × List P → Prop
  | visit {s s' : S} {p : P} {stack new : List P} {found : List F} :
      visits s p (.ok (found, new)) s' → Step (s, p :: stack) (s', new ++ stack)

/-- A walk with the places that it visited, to its end or its first error. -/
inductive Walks : S → List P → List (Visit P F) → Except ε Unit → S → Prop
  | done {s : S} : Walks s [] [] (.ok ()) s
  | failed {s s' : S} {p : P} {stack : List P} {e : ε} :
      visits s p (.error e) s' → Walks s (p :: stack) [] (.error e) s'
  | visit {s s' s'' : S} {p : P} {stack new : List P} {found : List F} {trace : List (Visit P F)}
      {end' : Except ε Unit} :
      visits s p (.ok (found, new)) s' → Walks s' (new ++ stack) trace end' s'' →
      Walks s (p :: stack) (⟨p, found, new⟩ :: trace) end' s''

def findings (trace : List (Visit P F)) : List F := trace.flatMap (·.found)

variable {visits} {s s' : S} {stack : List P} {trace : List (Visit P F)} {end' : Except ε Unit}
  {p : P} {v : Visit P F}

theorem mem_findings {x : F} : x ∈ findings trace ↔ ∃ v ∈ trace, x ∈ v.found := mem_flatMap

section

variable (h : Walks visits s stack trace (.ok ()) s')
include h

theorem Walks.visited (hp : p ∈ stack) : ∃ v ∈ trace, v.at = p := by
  generalize hend : Except.ok () = end' at h
  induction h with
  | done => cases hp
  | failed => cases hend
  | visit _ _ ih =>
    rcases mem_cons.mp hp with rfl | hp
    · exact ⟨_, mem_cons_self, rfl⟩
    · obtain ⟨v, hv, hat⟩ := ih (mem_append_right _ hp) hend
      exact ⟨v, mem_cons_of_mem _ hv, hat⟩

theorem Walks.visited_pushed (hv : v ∈ trace) (hp : p ∈ v.pushed) : ∃ v' ∈ trace, v'.at = p := by
  generalize hend : Except.ok () = end' at h
  induction h with
  | done => cases hv
  | failed => cases hend
  | visit _ hwalks ih =>
    subst hend
    rcases mem_cons.mp hv with rfl | hv
    · obtain ⟨v, hv, hat⟩ := hwalks.visited (mem_append_left _ hp)
      exact ⟨v, mem_cons_of_mem _ hv, hat⟩
    · obtain ⟨v, hv, hat⟩ := ih hv rfl
      exact ⟨v, mem_cons_of_mem _ hv, hat⟩

theorem Walks.perm : (trace.map (·.at)).Perm (stack ++ trace.flatMap (·.pushed)) := by
  generalize hend : Except.ok () = end' at h
  induction h with
  | done => exact .nil
  | failed => cases hend
  | visit _ _ ih =>
    refine List.Perm.cons _ ((ih hend).trans ?_)
    rw [flatMap_cons, append_assoc]
    exact perm_append_comm_assoc ..

end

theorem Walks.all {le : S → S → Prop} {I : S → P → Prop} (hrefl : ∀ s, le s s)
    (htrans : ∀ {a b c}, le a b → le b c → le a c)
    (hle : ∀ s p x s', visits s p x s' → le s s') (hkeep : ∀ s s' p, le s s' → I s p → I s' p)
    (hpush : ∀ s p found new s', visits s p (.ok (found, new)) s' → I s p → ∀ q ∈ new, I s' q)
    (h : Walks visits s stack trace end' s') (hstack : ∀ p ∈ stack, I s p) :
    le s s' ∧ ∀ v ∈ trace, ∃ s₁ s₂, le s s₁ ∧ le s₂ s' ∧ I s₁ v.at ∧
      visits s₁ v.at (.ok (v.found, v.pushed)) s₂ := by
  induction h with
  | done => exact ⟨hrefl _, nofun⟩
  | failed hvisit => exact ⟨hle _ _ _ _ hvisit, nofun⟩
  | @visit s s₁ s₂ p stack new found trace end' hvisit hwalks ih =>
    have hfirst := hle _ _ _ _ hvisit
    obtain ⟨hrest, htrace⟩ := ih <| by
      intro q hq
      rcases mem_append.mp hq with hq | hq
      · exact hpush _ _ _ _ _ hvisit (hstack p mem_cons_self) q hq
      · exact hkeep _ _ _ hfirst (hstack q (mem_cons_of_mem _ hq))
    refine ⟨htrans hfirst hrest, ?_⟩
    intro v hv
    rcases mem_cons.mp hv with rfl | hv
    · exact ⟨s, s₁, hrefl s, hrest, hstack p mem_cons_self, hvisit⟩
    · obtain ⟨a, b, ha, hb, hinv, hv⟩ := htrace v hv
      exact ⟨a, b, htrans hfirst ha, hb, hinv, hv⟩

section Paths

variable {N : Type} (path : P → List N)

/-- No path of the list leads on from another. -/
abbrev Apart (l : List (List N)) : Prop := l.Pairwise fun a b => ¬a <+: b ∧ ¬b <+: a

theorem apart_children {path : List N} {names : List N} (h : names.Nodup) :
    Apart (names.map (path ++ [·])) := by
  rw [Apart, pairwise_map]
  refine h.imp ?_
  have hsame : ∀ {a b : N}, path ++ [a] <+: path ++ [b] → a = b := by
    intro a b hle
    have heq := hle.eq_of_length (by simp)
    simpa using heq
  exact fun _ _ hne => ⟨fun hle => hne (hsame hle), fun hle => hne (hsame hle).symm⟩

theorem Walks.nodup (hpush : ∀ s p found new s', visits s p (.ok (found, new)) s' →
      (∀ q ∈ new, path p <+: path q ∧ path q ≠ path p) ∧ Apart (new.map path))
    (h : Walks visits s stack trace end' s') (hstack : Apart (stack.map path)) :
    (∀ v ∈ trace, ∃ p ∈ stack, path p <+: path v.at) ∧ (trace.map fun v => path v.at).Nodup := by
  induction h with
  | done => exact ⟨nofun, nodup_nil⟩
  | failed => exact ⟨nofun, nodup_nil⟩
  | @visit s s₁ s₂ p stack new found trace end' hvisit _ ih =>
    obtain ⟨hon, hnew⟩ := hpush _ _ _ _ _ hvisit
    obtain ⟨hfirst, hrest⟩ := pairwise_cons.mp hstack
    have hnext : Apart ((new ++ stack).map path) := by
      rw [map_append, Apart, pairwise_append]
      refine ⟨hnew, hrest, ?_⟩
      intro a ha b hb
      obtain ⟨q, hq, rfl⟩ := mem_map.mp ha
      obtain ⟨hpq, hqb⟩ := hfirst b hb
      refine ⟨fun hab => hpq ((hon q hq).1.trans hab), fun hba => ?_⟩
      rcases prefix_or_prefix_of_prefix hba (hon q hq).1 with hle | hle
      · exact hqb hle
      · exact hpq hle
    obtain ⟨hbelow, hnodup⟩ := ih hnext
    refine ⟨?_, ?_⟩
    · intro v hv
      rcases mem_cons.mp hv with rfl | hv
      · exact ⟨p, mem_cons_self, prefix_refl _⟩
      · obtain ⟨q, hq, hle⟩ := hbelow v hv
        rcases mem_append.mp hq with hq | hq
        · exact ⟨p, mem_cons_self, (hon q hq).1.trans hle⟩
        · exact ⟨q, mem_cons_of_mem _ hq, hle⟩
    · rw [map_cons, nodup_cons]
      refine ⟨?_, hnodup⟩
      intro hmem
      obtain ⟨v, hv, hat⟩ := mem_map.mp hmem
      obtain ⟨q, hq, hle⟩ := hbelow v hv
      rw [hat] at hle
      rcases mem_append.mp hq with hq | hq
      · exact (hon q hq).2 (hle.eq_of_length_le (hon q hq).1.length_le)
      · exact (hfirst (path q) (mem_map_of_mem hq)).2 hle

end Paths

section Ranks

variable {Ranked : S → P → Nat → Prop} {width : Nat}

def cost (width : Nat) (ranks : List Nat) : Nat := (ranks.map ((width + 1) ^ ·)).sum

theorem cost_lt {rank : Nat} {ranks : List Nat} (hwidth : ranks.length ≤ width)
    (hless : ∀ r ∈ ranks, r < rank) : cost width ranks < (width + 1) ^ rank := by
  cases rank with
  | zero =>
    cases ranks with
    | nil => simp [cost]
    | cons r ranks => exact absurd (hless r mem_cons_self) (by omega)
  | succ rank =>
    have heach : ∀ c ∈ ranks.map ((width + 1) ^ ·), c ≤ (width + 1) ^ rank := by
      intro c hc
      obtain ⟨r, hr, rfl⟩ := mem_map.mp hc
      exact Nat.pow_le_pow_right (by omega) (Nat.lt_succ_iff.mp (hless r hr))
    have hsum := sum_le_card_nsmul _ _ heach
    rw [length_map, nsmul_eq_mul, Nat.cast_id] at hsum
    calc cost width ranks ≤ ranks.length * (width + 1) ^ rank := hsum
      _ ≤ width * (width + 1) ^ rank := Nat.mul_le_mul_right _ hwidth
      _ < (width + 1) ^ (rank + 1) := by
        rw [Nat.pow_succ, Nat.mul_comm _ (width + 1), Nat.add_mul]
        have := Nat.pow_pos (a := width + 1) (n := rank) (by omega)
        omega

theorem Step.acc {le : S → S → Prop} (hle : ∀ s p x s', visits s p x s' → le s s')
    (hkeep : ∀ s s' p r, le s s' → Ranked s p r → Ranked s' p r)
    (hpush : ∀ s p found new s' rank, visits s p (.ok (found, new)) s' → Ranked s p rank →
      new.length ≤ width ∧ ∀ q ∈ new, ∃ r < rank, Ranked s' q r)
    (hstack : ∀ p ∈ stack, ∃ r, Ranked s p r) :
    Acc (fun a b => Step visits b a) (s, stack) := by
  have hranks : ∀ (s : S) (stack : List P), (∀ p ∈ stack, ∃ r, Ranked s p r) →
      ∃ ranks, List.Forall₂ (Ranked s) stack ranks := by
    intro s stack hstack
    induction stack with
    | nil => exact ⟨[], .nil⟩
    | cons p stack ih =>
      obtain ⟨r, hr⟩ := hstack p mem_cons_self
      obtain ⟨ranks, hranks⟩ := ih fun q hq => hstack q (mem_cons_of_mem p hq)
      exact ⟨r :: ranks, .cons hr hranks⟩
  obtain ⟨ranks, hranks⟩ := hranks s stack hstack
  induction hcost : cost width ranks using Nat.strongRecOn generalizing s stack ranks with
  | ind c ih =>
    refine ⟨_, ?_⟩
    rintro _ ⟨hvisit⟩
    rename_i s' p stack new found
    cases hranks with
    | @cons _ rank _ ranks hrank hranks =>
      obtain ⟨hlen, hnew⟩ := hpush _ _ _ _ _ _ hvisit hrank
      have hnewRanks : ∃ news, List.Forall₂ (Ranked s') new news ∧ ∀ r ∈ news, r < rank := by
        clear hvisit hlen
        induction new with
        | nil => exact ⟨[], .nil, fun _ hr => absurd hr not_mem_nil⟩
        | cons q new ihnew =>
          obtain ⟨r, hless, hr⟩ := hnew q mem_cons_self
          obtain ⟨news, hnews, hall⟩ := ihnew fun x hx => hnew x (mem_cons_of_mem q hx)
          exact ⟨r :: news, .cons hr hnews, forall_mem_cons.mpr ⟨hless, hall⟩⟩
      obtain ⟨news, hnews, hall⟩ := hnewRanks
      have hrest : List.Forall₂ (Ranked s') stack ranks :=
        hranks.imp fun q r => hkeep _ _ _ _ (hle _ _ _ _ hvisit)
      have hless : cost width (news ++ ranks) < c := by
        have hsmall := @cost_lt width _ news (by rw [← hnews.length_eq]; exact hlen) hall
        rw [← hcost]
        simp only [cost, map_append, sum_append, map_cons, sum_cons] at hsmall ⊢
        omega
      refine ih _ hless ?_ _ (rel_append hnews hrest) rfl
      intro q hq
      rcases mem_append.mp hq with hq | hq
      · obtain ⟨r, -, hr⟩ := hnew q hq
        exact ⟨r, hr⟩
      · obtain ⟨r, hr⟩ := hstack q (mem_cons_of_mem p hq)
        exact ⟨r, hkeep _ _ _ _ (hle _ _ _ _ hvisit) hr⟩

end Ranks

end Walk

end Dctl.ProofKit
