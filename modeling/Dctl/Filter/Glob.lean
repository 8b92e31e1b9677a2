import Dctl.Cli.RemoteSpec
import Dctl.ProofKit.Vm

/-! The glob dialect of the filters: the parser, the compiler to a matching program and the matcher
(`glob.rs`). -/

namespace Dctl.Filter

open ProofKit Cli List

def globAnySequence : Char := '*'
def globAnyChar : Char := '?'
def globClassOpen : Char := '['
def globClassClose : Char := ']'
def globClassNegate : List Char := ['!', '^']
def globClassRange : Char := '-'
def globEscape : Char := '\\'
def globAlternationOpen : Char := '{'
def globAlternationClose : Char := '}'
def globAlternationSeparator : Char := ','
def globMaxPatternChars : Nat := 1024
def globMaxNestingDepth : Nat := 16
def globMaxInstructions : Nat := 4 * globMaxPatternChars

inductive PatternProblem where
  | empty
  | unclosedClass
  | unclosedAlternation
  | trailingEscape
  | reversedRange (low high : Char)
  | tooLong (limit : Nat)
  | tooDeep (limit : Nat)
  | tooComplex (limit : Nat)
  | unsupportedClass (name : String)
  deriving DecidableEq, Repr

structure PatternError where
  pattern : String
  position : Nat
  problem : PatternProblem
  deriving DecidableEq, Repr

inductive ClassItem where
  | char (c : Char)
  | range (low high : Char)
  deriving DecidableEq, Repr

def ClassItem.contains : ClassItem → Char → Bool
  | char c, candidate => c = candidate
  | range low high, candidate => low ≤ candidate && candidate ≤ high

inductive Node where
  | literal (c : Char)
  | anyChar
  | star
  | globstar
  | charClass (negated : Bool) (items : List ClassItem)
  | alternation (branches : List (List Node))
  deriving Repr

/-! ### Parser

The parser works on the characters that are left; the position of an error is how many came
before them. -/

abbrev Behind (rest : List Char) := {r : List Char // r.length < rest.length}

abbrev From (rest : List Char) := {r : List Char // r.length ≤ rest.length}

section Parser

variable (pattern : String)

def fail {β : Type} (rest : List Char) (problem : PatternProblem) : Except PatternError β :=
  .error ⟨pattern, pattern.toList.length - rest.length, problem⟩

def namedClassAt (c : Char) (after : Option Char) : Option String :=
  if c = globClassOpen then if after = some ':' then some "[:...:]" else none
  else if c = globEscape then match after with
    | some 'd' => some "\\d"
    | some 'D' => some "\\D"
    | some 's' => some "\\s"
    | some 'S' => some "\\S"
    | some 'w' => some "\\w"
    | some 'W' => some "\\W"
    | _ => none
  else none

def memberLow (c : Char) (tail : List Char) : Except PatternError (Char × From tail) :=
  if c = globEscape then
    match tail with
    | [] => fail pattern [c] .trailingEscape
    | escaped :: rest => .ok (escaped, ⟨rest, Nat.le_succ _⟩)
  else .ok (c, ⟨tail, Nat.le_refl _⟩)

/-- The member that starts with `low`: a range when a `-` and something other than the closing
bracket follow. -/
def classMember (low : Char) (rest : List Char) : Except PatternError (ClassItem × From rest) :=
  match rest with
  | dash :: high :: rest =>
    if dash = globClassRange ∧ high ≠ globClassClose then
      if high < low then fail pattern (low :: dash :: high :: rest) (.reversedRange low high)
      else .ok (.range low high, ⟨rest, by simp only [length_cons]; omega⟩)
    else .ok (.char low, ⟨dash :: high :: rest, Nat.le_refl _⟩)
  | rest => .ok (.char low, ⟨rest, Nat.le_refl _⟩)

def classItems (openAt : List Char) (first : Bool) (rest : List Char) :
    Except PatternError (List ClassItem × Behind rest) :=
  match rest with
  | [] => fail pattern openAt .unclosedClass
  | current :: tail =>
    if current = globClassClose ∧ first = false then .ok ([], ⟨tail, Nat.lt_succ_self _⟩)
    else match namedClassAt current tail.head? with
      | some name => fail pattern (current :: tail) (.unsupportedClass name)
      | none => do
        let (low, rest₁) ← memberLow pattern current tail
        let (item, rest₂) ← classMember pattern low rest₁.1
        let (items, rest₃) ← classItems openAt false rest₂.1
        .ok (item :: items, ⟨rest₃.1, by
          have := rest₁.2
          have := rest₂.2
          have := rest₃.2
          simp only [length_cons]
          omega⟩)
termination_by rest.length
decreasing_by
  have := rest₁.2
  have := rest₂.2
  simp only [length_cons]
  omega

/-- Parse `[abc]`, from behind the opening bracket. -/
def classNode (tail : List Char) : Except PatternError (Node × From tail) := do
  let negated := tail.head?.any (· ∈ globClassNegate)
  let body : From tail :=
    if negated then ⟨tail.drop 1, by simp⟩ else ⟨tail, Nat.le_refl _⟩
  let (items, rest) ← classItems pattern (globClassOpen :: tail) true body.1
  .ok (.charClass negated items, ⟨rest.1, by
    have := rest.2
    have := body.2
    omega⟩)

mutual

/-- Parse until the end of the pattern, or, inside an alternation, until the `,` or `}` that ends
this branch. -/
def sequence (inside : Bool) (depth : Nat) (rest : List Char) :
    Except PatternError (List Node × From rest) :=
  match rest with
  | [] => .ok ([], ⟨[], Nat.le_refl _⟩)
  | current :: tail =>
    if inside ∧ (current = globAlternationSeparator ∨ current = globAlternationClose) then
      .ok ([], ⟨current :: tail, Nat.le_refl _⟩)
    else do
      let (node, rest₁) ← element depth current tail
      let (nodes, rest₂) ← sequence inside depth rest₁.1
      .ok (node :: nodes, ⟨rest₂.1, by
        have := rest₁.2
        have := rest₂.2
        simp only [length_cons]
        omega⟩)
termination_by 3 * rest.length + 2
decreasing_by
  · simp only [length_cons]
    omega
  · have := rest₁.2
    simp only [length_cons]
    omega

def element (depth : Nat) (current : Char) (tail : List Char) :
    Except PatternError (Node × From tail) :=
  if current = globEscape then
    match tail with
    | [] => fail pattern [current] .trailingEscape
    | escaped :: rest => .ok (.literal escaped, ⟨rest, Nat.le_succ _⟩)
  else if current = globAnySequence then
    match tail with
    | next :: rest =>
      if next = globAnySequence then .ok (.globstar, ⟨rest, Nat.le_succ _⟩)
      else .ok (.star, ⟨next :: rest, Nat.le_refl _⟩)
    | [] => .ok (.star, ⟨[], Nat.le_refl _⟩)
  else if current = globAnyChar then .ok (.anyChar, ⟨tail, Nat.le_refl _⟩)
  else if current = globClassOpen then classNode pattern tail
  else if current = globAlternationOpen then
    if depth + 1 > globMaxNestingDepth then
      fail pattern (current :: tail) (.tooDeep globMaxNestingDepth)
    else do
      let (branches, rest) ← alternation (current :: tail) (depth + 1) tail
      .ok (.alternation branches, rest)
  else .ok (.literal current, ⟨tail, Nat.le_refl _⟩)
termination_by 3 * tail.length + 4
decreasing_by omega

/-- Parse the branches of `{a,b,c}`, from behind the opening brace or a separator. -/
def alternation (openAt : List Char) (depth : Nat) (rest : List Char) :
    Except PatternError (List (List Node) × From rest) := do
  let (branch, rest₁) ← sequence true depth rest
  match h : rest₁.1 with
  | [] => fail pattern openAt .unclosedAlternation
  | current :: tail =>
    if current = globAlternationSeparator then
      let (branches, rest₂) ← alternation openAt depth tail
      .ok (branch :: branches, ⟨rest₂.1, by
        have := rest₁.2
        have := rest₂.2
        rw [h, length_cons] at *
        omega⟩)
    else if current = globAlternationClose then
      .ok ([branch], ⟨tail, by
        have := rest₁.2
        rw [h, length_cons] at this
        omega⟩)
    else fail pattern openAt .unclosedAlternation
termination_by 3 * rest.length + 3
decreasing_by
  · omega
  · have := rest₁.2
    rw [h, length_cons] at this
    omega

end

def parse : Except PatternError (List Node) :=
  let chars := pattern.toList
  if chars = [] then .error ⟨pattern, 0, .empty⟩
  else if chars.length > globMaxPatternChars then
    .error ⟨pattern, globMaxPatternChars, .tooLong globMaxPatternChars⟩
  else do
    let (nodes, rest) ← sequence pattern false 0 chars
    if rest.1 ≠ [] then fail pattern rest.1 .unclosedAlternation
    else .ok nodes

end Parser

inductive CharTest where
  | exact (c : Char)
  | withinComponent
  | acrossComponents
  | charClass (negated : Bool) (items : List ClassItem)
  deriving DecidableEq, Repr

def CharTest.admits : CharTest → Char → Bool
  | exact expected, candidate => expected = candidate
  | withinComponent, candidate => candidate ≠ pathSeparator
  | acrossComponents, _ => true
  -- A class never matches a separator, negated or not.
  | charClass negated items, candidate =>
    candidate ≠ pathSeparator && (items.any fun item => item.contains candidate) != negated

abbrev Program := List (Inst CharTest)

def emitRepeat (test : CharTest) (program : Program) : Program :=
  let split := program.length
  let program := program ++ [.jump 0]
  let body := program.length
  let program := program ++ [.consume test]
  let program := program ++ [.jump split]
  let after := program.length
  program.set split (.split body after)

mutual

def emit : List Node → Program → Program
  | [], program => program
  | node :: nodes, program => emit nodes (emitNode node program)

def emitNode : Node → Program → Program
  | .literal c, program => program ++ [.consume (.exact c)]
  | .anyChar, program => program ++ [.consume .withinComponent]
  | .charClass negated items, program => program ++ [.consume (.charClass negated items)]
  | .star, program => emitRepeat .withinComponent program
  | .globstar, program => emitRepeat .acrossComponents program
  | .alternation branches, program => emitAlternation branches [] program

/-- Emit a chain of two-way splits, one per alternative.  `escapes` holds the placeholders that
jump to the end. -/
def emitAlternation : List (List Node) → List Nat → Program → Program
  | [], _, program => program
  | [last], escapes, program =>
    let program := emit last program
    escapes.foldl (fun p escape => p.set escape (.jump program.length)) program
  | branch :: next :: leading, escapes, program =>
    let split := program.length
    let program := program ++ [.jump 0]
    let start := program.length
    let program := emit branch program
    let escape := program.length
    let program := program ++ [.jump 0]
    let behind := program.length
    let program := program.set split (.split start behind)
    emitAlternation (next :: leading) (escapes ++ [escape]) program

end

structure Glob where
  program : Program
  deriving DecidableEq, Repr

namespace Glob

def compile (pattern : String) : Except PatternError Glob := do
  let nodes ← parse pattern
  let program := emit nodes [] ++ [.accept]
  if program.length > globMaxInstructions then
    .error ⟨pattern, 0, .tooComplex globMaxInstructions⟩
  else .ok ⟨program⟩

def «matches» (glob : Glob) (text : String) : Bool :=
  accepts CharTest.admits glob.program text.toList

end Glob

end Dctl.Filter
