import Dctl.Filter.Language

/-! One include or exclude rule: what it matches, and where it may match (`rule.rs`), and the
candidates it is offered. -/

namespace Dctl.Filter

open ProofKit Cli

def depthOf (path : String) : Nat :=
  ((path.toList.splitOn pathSeparator).filter (· ≠ [])).length

structure Candidate where
  path : String
  size : Option Nat
  modified : Option Int
  isDir : Bool
  deriving DecidableEq, Repr

namespace Candidate

def ofFile (path : String) (size : Nat) : Candidate := ⟨path, some size, none, false⟩

def withTime (c : Candidate) (modified : Option Int) : Candidate := { c with modified := modified }

def unmeasuredFile (path : String) : Candidate := ⟨path, none, none, false⟩

def directory (path : String) : Candidate := ⟨path, none, none, true⟩

def depth (c : Candidate) : Nat := depthOf c.path

end Candidate

inductive Action where
  | include
  | exclude
  deriving DecidableEq, Repr

def Action.admits : Action → Bool
  | .include => true
  | .exclude => false

/-- Which string a pattern is offered. -/
inductive Anchor where
  | root
  | name
  | suffix
  deriving DecidableEq, Repr

structure Rule where
  action : Action
  glob : Glob
  anchor : Anchor
  directoriesOnly : Bool
  source : String
  deriving DecidableEq, Repr

def componentSuffixes (path : String) : List String := path :: LogicalPath.suffixes path

def Anchor.offered (anchor : Anchor) (path : String) : List String :=
  match anchor with
  | root => [path]
  | name => [LogicalPath.fileName path]
  | suffix => componentSuffixes path

namespace Rule

def stripDirectory (pattern : List Char) : List Char × Bool :=
  if pattern.getLast? = some pathSeparator then (pattern.dropLast, true) else (pattern, false)

def stripAnchor (body : List Char) : Anchor × List Char :=
  if body.head? = some pathSeparator then (.root, body.tail)
  else if pathSeparator ∈ body then (.suffix, body)
  else (.name, body)

def compile (nfc : String → String) (action : Action) (pattern : String) :
    Except PatternError Rule := do
  let (body, directoriesOnly) := stripDirectory (nfc pattern).toList
  let (anchor, body) := stripAnchor body
  let glob ← Glob.compile (String.ofList body)
  .ok ⟨action, glob, anchor, directoriesOnly, pattern⟩

def «matches» (rule : Rule) (candidate : Candidate) : Bool :=
  if rule.directoriesOnly && !candidate.isDir then false
  else match rule.anchor with
    | .root => rule.glob.matches candidate.path
    | .name => rule.glob.matches (LogicalPath.fileName candidate.path)
    | .suffix => (componentSuffixes candidate.path).any rule.glob.matches

variable {rule : Rule} {candidate : Candidate}

theorem matches_iff : rule.matches candidate = true ↔
    (rule.directoriesOnly = true → candidate.isDir = true) ∧
      ∃ text ∈ rule.anchor.offered candidate.path, rule.glob.matches text = true := by
  rw [Rule.matches]
  cases hd : rule.directoriesOnly <;> cases hc : candidate.isDir <;> cases ha : rule.anchor <;>
    simp [Anchor.offered]

def body (pattern : String) : String :=
  String.ofList (stripAnchor (stripDirectory pattern.toList).1).2

end Rule

/-- Every pattern that parses compiles to a program that accepts exactly its words, and a compiled
rule matches exactly the candidates it may match that offer such a word under its anchor. -/
theorem compiled_words (nfc : String → String) :
    (∀ pattern nodes, parse pattern = .ok nodes → ∃ glob, Glob.compile pattern = .ok glob ∧
      ∀ text : String, glob.matches text = true ↔ text.toList ∈ seqLang nodes) ∧
    ∀ action pattern rule, Rule.compile nfc action pattern = .ok rule →
      ∃ nodes, parse (Rule.body (nfc pattern)) = .ok nodes ∧
        ∀ candidate, rule.matches candidate = true ↔
          (rule.directoriesOnly = true → candidate.isDir = true) ∧
            ∃ text ∈ rule.anchor.offered candidate.path, text.toList ∈ seqLang nodes := by
  refine ⟨fun pattern nodes h => compile_of_parse h, ?_⟩
  intro action pattern rule h
  obtain ⟨glob, hglob, h⟩ := bind_eq_ok.mp h
  cases h
  have hparse := hglob
  rw [Glob.compile] at hparse
  obtain ⟨nodes, hnodes, -⟩ := bind_eq_ok.mp hparse
  refine ⟨nodes, hnodes, ?_⟩
  obtain ⟨glob', hglob', hwords⟩ := compile_of_parse hnodes
  obtain rfl : glob = glob' := Except.ok.inj (hglob.symm.trans hglob')
  intro candidate
  simp only [Rule.matches_iff, hwords]

def sampleRule : Rule :=
  ⟨.exclude, ⟨[.consume (.exact 'b'), .split 2 4, .consume .withinComponent, .jump 1, .accept]⟩,
    .root, true, "/b*/"⟩

/-- An alternation followed by a class, and an anchored directory pattern. -/
theorem compiled_words_sample : (∃ glob, Glob.compile "{a,b*}[!c]" = .ok glob ∧
    ∀ text : String, glob.matches text = true ↔ text.toList ∈ seqLang
      [.alternation [[.literal 'a'], [.literal 'b', .star]], .charClass true [.char 'c']]) ∧
    ∃ nodes, parse (Rule.body "/b*/") = .ok nodes ∧
      ∀ candidate, sampleRule.matches candidate = true ↔ (true = true → candidate.isDir = true) ∧
        ∃ text ∈ Anchor.root.offered candidate.path, text.toList ∈ seqLang nodes :=
  ⟨(compiled_words id).1 _ _ (by with_unfolding_all rfl),
    (compiled_words id).2 .exclude "/b*/" sampleRule (by decide +kernel)⟩

end Dctl.Filter
