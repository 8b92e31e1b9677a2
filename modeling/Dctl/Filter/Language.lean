import Dctl.Filter.Glob
import Dctl.ProofKit.Checks

/-! The language a parsed pattern denotes, and that the compiled program accepts exactly its
words. -/

namespace Dctl.Filter

open ProofKit Cli List

mutual

def Node.lang : Node → Language Char
  | .literal c => ({[c]} : Set (List Char))
  | .anyChar => ({w | ∃ c, w = [c] ∧ c ≠ '/'} : Set (List Char))
  | .star => ({w | '/' ∉ w} : Set (List Char))
  | .globstar => (Set.univ : Set (List Char))
  | .charClass negated items => ({w | ∃ c, w = [c] ∧ c ≠ '/' ∧
      ((∃ item ∈ items, item.contains c = true) ↔ negated = false)} : Set (List Char))
  | .alternation branches => altLang branches

def seqLang : List Node → Language Char
  | [] => 1
  | node :: nodes => node.lang * seqLang nodes

def altLang : List (List Node) → Language Char
  | [] => 0
  | branch :: branches => seqLang branch + altLang branches

end

mutual

def Node.Branched : Node → Prop
  | .alternation branches => branches ≠ [] ∧ altBranched branches
  | .literal _ => True
  | .anyChar => True
  | .star => True
  | .globstar => True
  | .charClass _ _ => True

def seqBranched : List Node → Prop
  | [] => True
  | node :: nodes => node.Branched ∧ seqBranched nodes

def altBranched : List (List Node) → Prop
  | [] => True
  | branch :: branches => seqBranched branch ∧ altBranched branches

end

theorem admits_withinComponent {c : Char} :
    CharTest.withinComponent.admits c = true ↔ c ≠ '/' := by
  show decide (c ≠ pathSeparator) = true ↔ c ≠ '/'
  exact decide_eq_true_iff

theorem admits_charClass {negated : Bool} {items : List ClassItem} {c : Char} :
    (CharTest.charClass negated items).admits c = true ↔
      c ≠ '/' ∧ ((∃ item ∈ items, item.contains c = true) ↔ negated = false) := by
  show (decide (c ≠ pathSeparator) && (items.any fun item => item.contains c) != negated) = true ↔ _
  rw [Bool.and_eq_true, decide_eq_true_iff, ← any_eq_true]
  cases negated <;> simp [pathSeparator]

/-- A program agrees with another one on a range of instructions. -/
def Agrees (p q : Program) (lo hi : Nat) : Prop := ∀ i, lo ≤ i → i < hi → p[i]? = q[i]?

theorem Agrees.mono {p q : Program} {lo hi lo' hi' : Nat} (h : Agrees p q lo hi) (hlo : lo ≤ lo')
    (hhi : hi' ≤ hi) : Agrees p q lo' hi' :=
  fun i h1 h2 => h i (Nat.le_trans hlo h1) (Nat.lt_of_lt_of_le h2 hhi)

/-- `program` is emitted as `q`, and a program that agrees with `q` on the new part reads there the
words of `l`. -/
structure Emits (program q : Program) (l : Language Char) : Prop where
  kept : program <+: q
  reads : ∀ p, Agrees p q program.length q.length →
    Reads CharTest.admits p program.length q.length l

theorem Emits.getElem? {program q : Program} {l : Language Char} (h : Emits program q l) {i : Nat}
    (hi : i < program.length) : q[i]? = program[i]? := by
  rw [prefix_iff_getElem?.mp h.kept i hi, List.getElem?_eq_getElem hi]

theorem Emits.trans {program q r : Program} {l m : Language Char} (h1 : Emits program q l)
    (h2 : Emits q r m) : Emits program r (l * m) := by
  refine ⟨h1.kept.trans h2.kept, ?_⟩
  intro p hp
  have hle := h1.kept.length_le
  have hle' := h2.kept.length_le
  have hfirst : Agrees p q program.length q.length := by
    intro i hlo hhi
    rw [hp i hlo (by omega), h2.getElem? hhi]
  exact (h1.reads p hfirst).trans (h2.reads p (hp.mono hle (Nat.le_refl _)))

theorem Emits.one {program : Program} {t : CharTest} {l : Language Char}
    (hl : l = ({w | ∃ c, w = [c] ∧ t.admits c = true} : Set (List Char))) :
    Emits program (program ++ [.consume t]) l := by
  rw [hl]
  refine ⟨prefix_append _ _, ?_⟩
  intro p hp
  have hpc := hp program.length (Nat.le_refl _) (by simp)
  rw [List.getElem?_append_right (Nat.le_refl _), Nat.sub_self] at hpc
  rw [length_append]
  exact Reads.one hpc

theorem emitRepeat_eq (test : CharTest) (program : Program) : emitRepeat test program =
    program ++ [.split (program.length + 1) (program.length + 3), .consume test,
      .jump program.length] := by
  simp [emitRepeat]

theorem Emits.star {program : Program} {t : CharTest} {l : Language Char}
    (hl : l = ({w | ∀ c ∈ w, t.admits c = true} : Set (List Char))) :
    Emits program (emitRepeat t program) l := by
  rw [hl, emitRepeat_eq]
  refine ⟨prefix_append _ _, ?_⟩
  intro p hp
  have hat : ∀ k, k < 3 → p[program.length + k]? =
      [.split (program.length + 1) (program.length + 3), .consume t, .jump program.length][k]? := by
    intro k hk
    rw [hp _ (by omega) (by simp; omega), List.getElem?_append_right (by omega)]
    congr 1
    omega
  rw [length_append]
  exact Reads.star (hat 0 (by omega)) (hat 1 (by omega)) (hat 2 (by omega))

/-- The alternatives from a branch on, given the placeholders of those before: the placeholders
jump to the end, the rest of the program is kept, and a program that agrees on the new part reads
there the words of any branch. -/
structure EmitsAlternation (program q : Program) (escapes : List Nat) (l : Language Char) :
    Prop where
  length : program.length ≤ q.length
  kept : ∀ i, i < program.length → i ∉ escapes → q[i]? = program[i]?
  escaped : ∀ e ∈ escapes, q[e]? = some (.jump q.length)
  reads : ∀ p, Agrees p q program.length q.length →
    Reads CharTest.admits p program.length q.length l

theorem length_foldl_set (escapes : List Nat) (q : Program) (inst : Inst CharTest) :
    (escapes.foldl (fun p e => p.set e inst) q).length = q.length := by
  induction escapes generalizing q with
  | nil => rfl
  | cons e rest ih => rw [foldl_cons, ih, length_set]

theorem getElem?_foldl_set {escapes : List Nat} {q : Program} {inst : Inst CharTest} {i : Nat} :
    (escapes.foldl (fun p e => p.set e inst) q)[i]? =
      if i ∈ escapes ∧ i < q.length then some inst else q[i]? := by
  induction escapes generalizing q with
  | nil => simp
  | cons e rest ih =>
    rw [foldl_cons, ih, length_set, List.getElem?_set]
    by_cases hi : e = i
    · subst hi
      by_cases hlt : e < q.length
      · simp [hlt]
      · simp [hlt]
    · simp [hi, Ne.symm hi]

theorem Emits.last {program q : Program} {escapes : List Nat} {l : Language Char}
    (h : Emits program q l) (hlt : ∀ e ∈ escapes, e < program.length) :
    EmitsAlternation program (escapes.foldl (fun p e => p.set e (.jump q.length)) q) escapes l := by
  have hle := h.kept.length_le
  have hnew : ∀ i, program.length ≤ i → i ∉ escapes := fun i hi he => by
    have := hlt i he
    omega
  refine ⟨by rw [length_foldl_set]; exact hle, ?_, ?_, ?_⟩
  · intro i hi he
    rw [getElem?_foldl_set, if_neg (by simp [he]), h.getElem? hi]
  · intro e he
    rw [getElem?_foldl_set, length_foldl_set, if_pos ⟨he, by have := hlt e he; omega⟩]
  · intro p hp
    rw [length_foldl_set] at hp ⊢
    apply h.reads
    intro i hlo hhi
    rw [hp i hlo hhi, getElem?_foldl_set, if_neg (by simp [hnew i hlo])]

theorem EmitsAlternation.cons {program mid q : Program} {escapes : List Nat}
    {l m : Language Char} (h1 : Emits (program ++ [.jump 0]) mid l)
    (h2 : EmitsAlternation ((mid ++ [Inst.jump 0]).set program.length
      (.split (program.length + 1) (mid.length + 1))) q (escapes ++ [mid.length]) m)
    (hlt : ∀ e ∈ escapes, e < program.length) : EmitsAlternation program q escapes (l + m) := by
  have hmid := h1.kept.length_le
  have hq := h2.length
  rw [length_append, length_singleton] at hmid
  rw [length_set, length_append, length_singleton] at hq
  have hkept : ∀ i, i < mid.length → i ∉ escapes → i ≠ program.length → q[i]? = mid[i]? := by
    intro i hi he hne
    rw [h2.kept i (by rw [length_set, length_append]; omega)
      (by simp [he]; omega), List.getElem?_set_ne (Ne.symm hne), List.getElem?_append_left hi]
  refine ⟨by omega, ?_, ?_, ?_⟩
  · intro i hi he
    rw [hkept i (by omega) he (by omega), h1.getElem? (by simp; omega),
      List.getElem?_append_left hi]
  · intro e he
    exact h2.escaped e (by simp [he])
  · intro p hp
    have hsplit : p[program.length]? = some (.split (program.length + 1) (mid.length + 1)) := by
      have hnot : program.length ∉ escapes ++ [mid.length] := by
        intro hmem
        rcases mem_append.mp hmem with h | h
        · exact absurd (hlt _ h) (Nat.lt_irrefl _)
        · rw [mem_singleton] at h
          omega
      rw [hp _ (Nat.le_refl _) (by omega), h2.kept _ (by simp; omega) hnot,
        List.getElem?_set_self (by simp; omega)]
    have hjump : p[mid.length]? = some (.jump q.length) := by
      rw [hp _ (by omega) (by omega)]
      exact h2.escaped _ (by simp)
    have hfirst := h1.reads p (by
      intro i hlo hhi
      rw [length_append, length_singleton] at hlo
      have hne : i ∉ escapes := fun he => by
        have := hlt i he
        omega
      rw [hp i (by omega) (by omega), hkept i hhi hne (by omega)])
    have hrest := h2.reads p (by
      rw [length_set, length_append, length_singleton]
      exact hp.mono (by omega) (Nat.le_refl _))
    rw [length_append, length_singleton] at hfirst
    rw [length_set, length_append, length_singleton] at hrest
    exact Reads.fork hsplit hfirst hjump hrest

mutual

theorem emit_spec : ∀ (nodes : List Node) (program : Program), seqBranched nodes →
    Emits program (emit nodes program) (seqLang nodes)
  | [], _, _ => ⟨prefix_rfl, fun _ _ => Reads.refl⟩
  | node :: nodes, program, h =>
    (emitNode_spec node program h.1).trans (emit_spec nodes (emitNode node program) h.2)

theorem emitNode_spec : ∀ (node : Node) (program : Program), node.Branched →
    Emits program (emitNode node program) node.lang
  | .literal c, program, _ => Emits.one (t := .exact c) <| by
    rw [Node.lang]
    ext w
    simp [CharTest.admits, eq_comm]
  | .anyChar, program, _ => Emits.one (t := .withinComponent) <| by
    simp only [Node.lang, admits_withinComponent]
    rfl
  | .charClass negated items, program, _ => Emits.one (t := .charClass negated items) <| by
    simp only [Node.lang, admits_charClass]
    rfl
  | .star, program, _ => Emits.star (t := .withinComponent) <| by
    simp only [Node.lang, admits_withinComponent]
    congr 1
    ext w
    exact ⟨fun h c hc hne => h (hne ▸ hc), fun h hmem => h _ hmem rfl⟩
  | .globstar, program, _ => Emits.star (t := .acrossComponents) <| by
    simp only [Node.lang, CharTest.admits, implies_true]
    rfl
  | .alternation branches, program, h => by
    have ha := emitAlternation_spec branches [] program h.1 h.2 nofun
    refine ⟨?_, ha.reads⟩
    rw [prefix_iff_getElem?]
    intro i hi
    rw [← List.getElem?_eq_getElem hi]
    exact ha.kept i hi nofun

theorem emitAlternation_spec : ∀ (branches : List (List Node)) (escapes : List Nat)
    (program : Program), branches ≠ [] → altBranched branches →
    (∀ e ∈ escapes, e < program.length) →
    EmitsAlternation program (emitAlternation branches escapes program) escapes (altLang branches)
  | [], _, _, hne, _, _ => absurd rfl hne
  | [last], escapes, program, _, hb, hlt => by
    have h := (emit_spec last program hb.1).last hlt
    rw [altLang, altLang, add_zero]
    exact h
  | branch :: next :: leading, escapes, program, _, hb, hlt => by
    have h1 := emit_spec branch (program ++ [.jump 0]) hb.1
    refine EmitsAlternation.cons h1 ?_ hlt
    have hle := h1.kept.length_le
    rw [length_append, length_singleton] at hle
    have h2 := emitAlternation_spec (next :: leading)
      (escapes ++ [(emit branch (program ++ [Inst.jump 0])).length])
      ((emit branch (program ++ [Inst.jump 0]) ++ [Inst.jump 0]).set program.length
        (.split (program.length + 1) ((emit branch (program ++ [Inst.jump 0])).length + 1)))
      (cons_ne_nil _ _) hb.2 (by
        intro e he
        rw [length_set, length_append, length_singleton]
        rcases mem_append.mp he with he | he
        · have := hlt e he
          omega
        · rw [mem_singleton.mp he]
          omega)
    rw [emitAlternation]
    simp only [length_append, length_singleton]
    exact h2

end

mutual

def Node.cost : Node → Nat
  | .literal _ => 1
  | .anyChar => 1
  | .charClass _ _ => 1
  | .star => 3
  | .globstar => 3
  | .alternation branches => altCost branches

def seqCost : List Node → Nat
  | [] => 0
  | node :: nodes => node.cost + seqCost nodes

def altCost : List (List Node) → Nat
  | [] => 0
  | [last] => seqCost last
  | branch :: next :: leading => seqCost branch + 2 + altCost (next :: leading)

end

mutual

theorem length_emit : ∀ (nodes : List Node) (program : Program),
    (emit nodes program).length = program.length + seqCost nodes
  | [], program => rfl
  | node :: nodes, program => by
    rw [emit, length_emit nodes, length_emitNode node, seqCost]
    omega

theorem length_emitNode : ∀ (node : Node) (program : Program),
    (emitNode node program).length = program.length + node.cost
  | .literal _, program => by simp [emitNode, Node.cost]
  | .anyChar, program => by simp [emitNode, Node.cost]
  | .charClass _ _, program => by simp [emitNode, Node.cost]
  | .star, program => by simp [emitNode, emitRepeat_eq, Node.cost]
  | .globstar, program => by simp [emitNode, emitRepeat_eq, Node.cost]
  | .alternation branches, program => length_emitAlternation branches [] program

theorem length_emitAlternation : ∀ (branches : List (List Node)) (escapes : List Nat)
    (program : Program),
    (emitAlternation branches escapes program).length = program.length + altCost branches
  | [], _, program => rfl
  | [last], escapes, program => by
    rw [emitAlternation, length_foldl_set, length_emit last, altCost]
  | branch :: next :: leading, escapes, program => by
    rw [emitAlternation, length_emitAlternation (next :: leading), altCost]
    simp only [length_set, length_append, length_singleton, length_emit branch]
    omega

end

section Parser

variable {pattern : String}

theorem classNode_spec {tail : List Char} {r : Node × From tail}
    (h : classNode pattern tail = .ok r) :
    r.1.Branched ∧ r.1.cost + 3 * r.2.1.length ≤ 3 * tail.length + 3 := by
  have hle := r.2.2
  obtain ⟨negated, items, hr⟩ : ∃ negated items, r.1 = .charClass negated items := by
    obtain ⟨⟨items, rest⟩, -, h⟩ := bind_eq_ok.mp h
    cases h
    exact ⟨_, items, rfl⟩
  rw [hr]
  refine ⟨trivial, ?_⟩
  simp only [Node.cost]
  omega

/-- Every alternation the parser builds has a branch, and no character costs more than three
instructions. -/
theorem branched (n : Nat) :
    (∀ inside depth rest r, 3 * rest.length + 2 < n →
      sequence pattern inside depth rest = .ok r →
        seqBranched r.1 ∧ seqCost r.1 + 3 * r.2.1.length ≤ 3 * rest.length) ∧
    (∀ depth current tail r, 3 * tail.length + 4 < n →
      element pattern depth current tail = .ok r →
        r.1.Branched ∧ r.1.cost + 3 * r.2.1.length ≤ 3 * tail.length + 3) ∧
    (∀ openAt depth rest r, 3 * rest.length + 3 < n →
      alternation pattern openAt depth rest = .ok r →
        (r.1 ≠ [] ∧ altBranched r.1) ∧ altCost r.1 + 3 * r.2.1.length ≤ 3 * rest.length) := by
  induction n with
  | zero => exact ⟨by omega, by omega, by omega⟩
  | succ n ih =>
    obtain ⟨ih1, ih2, ih3⟩ := ih
    refine ⟨?_, ?_, ?_⟩
    · intro inside depth rest r hn h
      cases rest with
      | nil =>
        rw [sequence] at h
        cases h
        exact ⟨trivial, by simp [seqCost]⟩
      | cons current tail =>
        rw [sequence] at h
        split at h
        · cases h
          exact ⟨trivial, by simp [seqCost]⟩
        · obtain ⟨⟨node, rest₁⟩, h1, h⟩ := bind_eq_ok.mp h
          obtain ⟨⟨nodes, rest₂⟩, h2, h⟩ := bind_eq_ok.mp h
          cases h
          have hlt := rest₁.2
          rw [length_cons] at hn
          obtain ⟨hb1, hc1⟩ := ih2 depth current tail _ (by omega) h1
          obtain ⟨hb2, hc2⟩ := ih1 inside depth rest₁.1 _ (by omega) h2
          refine ⟨⟨hb1, hb2⟩, ?_⟩
          simp only [seqCost, length_cons] at hc1 hc2 ⊢
          omega
    · intro depth current tail r hn h
      rw [element.eq_def] at h
      split at h
      · cases tail with
        | nil => cases h
        | cons escaped rest =>
          cases h
          exact ⟨trivial, by simp [Node.cost]; omega⟩
      split at h
      · cases tail with
        | nil =>
          cases h
          exact ⟨trivial, by simp [Node.cost]⟩
        | cons next rest =>
          simp only at h
          split at h
          · cases h
            exact ⟨trivial, by simp [Node.cost]; omega⟩
          · cases h
            exact ⟨trivial, by simp [Node.cost]; omega⟩
      split at h
      · cases h
        exact ⟨trivial, by simp [Node.cost]; omega⟩
      split at h
      · exact classNode_spec h
      split at h
      · split at h
        · cases h
        · obtain ⟨⟨branches, rest⟩, h1, h⟩ := bind_eq_ok.mp h
          cases h
          obtain ⟨hb, hc⟩ := ih3 (current :: tail) (depth + 1) tail _ (by omega) h1
          refine ⟨hb, ?_⟩
          simp only [Node.cost] at hc ⊢
          omega
      · cases h
        exact ⟨trivial, by simp [Node.cost]; omega⟩
    · intro openAt depth rest r hn h
      rw [alternation] at h
      obtain ⟨⟨branch, rest₁⟩, h1, h⟩ := bind_eq_ok.mp h
      obtain ⟨hbranch, hcost⟩ := ih1 true depth rest _ (by omega) h1
      simp only at h
      split at h
      · cases h
      · rename_i current tail hrest
        have hlt := rest₁.2
        simp only [hrest, length_cons] at hlt hcost
        split at h
        · obtain ⟨⟨branches, rest₂⟩, h2, h⟩ := bind_eq_ok.mp h
          cases h
          obtain ⟨⟨hne, hb⟩, hc⟩ := ih3 openAt depth tail _ (by omega) h2
          refine ⟨⟨cons_ne_nil _ _, hbranch, hb⟩, ?_⟩
          obtain ⟨next, leading, rfl⟩ := exists_cons_of_ne_nil hne
          simp only [altCost] at hc ⊢
          omega
        · split at h
          · cases h
            refine ⟨⟨cons_ne_nil _ _, hbranch, trivial⟩, ?_⟩
            simp only [altCost]
            omega
          · cases h

section

variable {nodes : List Node} (h : parse pattern = .ok nodes)
include h

theorem parse_spec :
    seqBranched nodes ∧ pattern.toList.length ≤ globMaxPatternChars ∧
      seqCost nodes ≤ 3 * pattern.toList.length := by
  rw [parse] at h
  split at h
  · cases h
  split at h
  · cases h
  rename_i hlen
  obtain ⟨⟨nodes', rest⟩, h1, h⟩ := bind_eq_ok.mp h
  simp only at h
  split at h
  · cases h
  · cases h
    obtain ⟨hb, hc⟩ := (@branched pattern _).1 _ _ _ _ (Nat.lt_succ_self _) h1
    simp only at hb hc
    exact ⟨hb, by omega, by omega⟩

theorem length_program_of_parse :
    (emit nodes [] ++ [Inst.accept]).length ≤ 3 * pattern.toList.length + 1 ∧
      3 * pattern.toList.length + 1 ≤ globMaxInstructions := by
  obtain ⟨-, hlen, hc⟩ := parse_spec h
  rw [length_append, length_emit, length_nil, length_singleton]
  simp only [globMaxInstructions, globMaxPatternChars] at hlen ⊢
  omega

theorem compile_eq_of_parse : Glob.compile pattern = .ok ⟨emit nodes [] ++ [.accept]⟩ := by
  obtain ⟨hle, hmax⟩ := length_program_of_parse h
  rw [Glob.compile, h]
  simp only [ok_bind]
  rw [if_neg (by omega)]

theorem matches_iff_of_parse (text : String) :
    (Glob.mk (emit nodes [] ++ [.accept])).matches text = true ↔ text.toList ∈ seqLang nodes := by
  obtain ⟨hb, -, -⟩ := parse_spec h
  have hreads := (emit_spec nodes [] hb).reads (emit nodes [] ++ [.accept]) (by
    intro i _ hi
    exact List.getElem?_append_left hi)
  rw [Glob.matches, accepts_iff]
  exact hreads.accept (by simp)

theorem compile_of_parse :
    ∃ glob, Glob.compile pattern = .ok glob ∧
      ∀ text : String, glob.matches text = true ↔ text.toList ∈ seqLang nodes :=
  ⟨_, compile_eq_of_parse h, matches_iff_of_parse h⟩

end

/-- A pattern that parses is never refused for its size: it compiles to a program below the ceiling,
of at most three instructions for a character, that accepts exactly its words. -/
theorem compile_below_ceiling {nodes : List Node} (h : parse pattern = .ok nodes) :
    ∃ glob, Glob.compile pattern = .ok glob ∧
      glob.program.length ≤ 3 * pattern.toList.length + 1 ∧
      glob.program.length ≤ globMaxInstructions ∧
      ∀ text : String, glob.matches text = true ↔ text.toList ∈ seqLang nodes := by
  obtain ⟨hle, hmax⟩ := length_program_of_parse h
  exact ⟨_, compile_eq_of_parse h, hle, hle.trans hmax, matches_iff_of_parse h⟩

theorem compile_below_ceiling_sample : ∃ glob, Glob.compile "{a*,[!b]}" = .ok glob ∧
    glob.program.length ≤ 3 * "{a*,[!b]}".toList.length + 1 ∧
    glob.program.length ≤ globMaxInstructions ∧ ∀ text : String, glob.matches text = true ↔
      text.toList ∈ seqLang [.alternation [[.literal 'a', .star], [.charClass true [.char 'b']]]] :=
  compile_below_ceiling (by with_unfolding_all rfl)

end Parser

end Dctl.Filter
