import Mathlib.Data.List.DropRight

/-! XML documents as trees, and the events in which a tokenizer reports them.  The characters of a
text are kept as they are written, since a reader may trim the white space that is written as such,
and need not know every reference. -/

namespace Dctl.ProofKit.Xml

open List

/-- A character as a text writes it: itself, a reference to a character or to one of the five
predefined entities, or a reference to an entity that the document declares. -/
inductive Symbol where
  | lit (c : Char)
  | ref (c : Char)
  | entity (value : String)
  deriving DecidableEq

namespace Symbol

def value : Symbol → List Char
  | lit c => [c]
  | ref c => [c]
  | entity value => value.toList

/-- White space that is written as such. -/
def isBlank : Symbol → Bool
  | lit c => c = ' ' || c = '\t' || c = '\r' || c = '\n'
  | _ => false

def isEntity : Symbol → Bool
  | entity _ => true
  | _ => false

end Symbol

def value (run : List Symbol) : List Char := run.flatMap Symbol.value

/-- Replace the references, if all of them are known without the declarations of the document. -/
def unescape (run : List Symbol) : Option (List Char) :=
  if run.any Symbol.isEntity then none else some (value run)

/-- Without the white space at both ends. -/
def trim (run : List Symbol) : List Symbol :=
  (run.dropWhile Symbol.isBlank).rdropWhile Symbol.isBlank

/-- A part of a document.  Comments, processing instructions and declarations are `misc`. -/
inductive Node where
  | element (name : String) (children : List Node)
  | empty (name : String)
  | text (run : List Symbol)
  | cdata (content : String)
  | misc

inductive Event where
  | start (name : String)
  | stop (name : String)
  | empty (name : String)
  | text (run : List Symbol)
  | cdata (content : String)
  | misc
  | error (message : String)

mutual

def Node.events : Node → List Event
  | .element name children => .start name :: (nodeEvents children ++ [.stop name])
  | .empty name => [.empty name]
  | .text run => if trim run = [] then [] else [.text (trim run)]
  | .cdata content => [.cdata content]
  | .misc => [.misc]

def nodeEvents : List Node → List Event
  | [] => []
  | n :: ns => n.events ++ nodeEvents ns

end

@[simp] theorem nodeEvents_nil : nodeEvents [] = [] := by rw [nodeEvents]

@[simp] theorem nodeEvents_cons (n : Node) (ns : List Node) :
    nodeEvents (n :: ns) = n.events ++ nodeEvents ns := by rw [nodeEvents]

theorem nodeEvents_append (a b : List Node) :
    nodeEvents (a ++ b) = nodeEvents a ++ nodeEvents b := by
  induction a with
  | nil => rfl
  | cons n ns ih => rw [cons_append, nodeEvents_cons, nodeEvents_cons, ih, append_assoc]

mutual

theorem error_not_mem_events (message : String) : (n : Node) → .error message ∉ n.events
  | .element name children => by
    rw [Node.events]
    simpa using error_not_mem_nodeEvents message children
  | .text run => by
    rw [Node.events]
    split <;> simp
  | .empty _ => by simp [Node.events]
  | .cdata _ => by simp [Node.events]
  | .misc => by simp [Node.events]

theorem error_not_mem_nodeEvents (message : String) : (ns : List Node) →
    .error message ∉ nodeEvents ns
  | [] => by simp
  | n :: ns => by
    rw [nodeEvents_cons, mem_append, not_or]
    exact ⟨error_not_mem_events message n, error_not_mem_nodeEvents message ns⟩

end

def Node.chars : Node → List Char
  | .text run => value run
  | .cdata content => content.toList
  | _ => []

def content (nodes : List Node) : List Char := nodes.flatMap Node.chars

def runs (nodes : List Node) : List (List Symbol) :=
  nodes.filterMap fun n =>
    match n with
    | .text run => if trim run = [] then none else some (trim run)
    | _ => none

def spelled (run : List Symbol) : List Char := (unescape run).getD []

/-- Neither end is white space. -/
def Trimmed (run : List Symbol) : Prop :=
  (∀ s, run.head? = some s → s.isBlank = false) ∧ ∀ s, run.getLast? = some s → s.isBlank = false

/-- All the characters stand in one run of text, which has no white space at its ends and no
reference to a declared entity, and no text comes after it. -/
def OneRun (nodes : List Node) : Prop :=
  ∃ before run after, nodes = before ++ .text run :: after ∧ run ≠ [] ∧ Trimmed run ∧
    run.any Symbol.isEntity = false ∧ content before = [] ∧ content after = [] ∧ runs after = []

theorem content_append (a b : List Node) : content (a ++ b) = content a ++ content b := by
  simp [content]

theorem runs_append (a b : List Node) : runs (a ++ b) = runs a ++ runs b := by
  simp [runs]

theorem value_append (a b : List Symbol) : value (a ++ b) = value a ++ value b := by
  simp [value]

theorem eq_append_trim (run : List Symbol) :
    ∃ a b, run = a ++ trim run ++ b ∧ (∀ s ∈ a, s.isBlank = true) ∧ ∀ s ∈ b, s.isBlank = true := by
  refine ⟨run.takeWhile Symbol.isBlank, (run.dropWhile Symbol.isBlank).rtakeWhile Symbol.isBlank,
    ?_, fun s => mem_takeWhile_imp, fun s => mem_rtakeWhile_imp⟩
  rw [trim, append_assoc, rdropWhile_append_rtakeWhile, takeWhile_append_dropWhile]

theorem trim_eq_self {run : List Symbol} (h : Trimmed run) : trim run = run := by
  have hfront : run.dropWhile Symbol.isBlank = run := by
    cases run with
    | nil => rfl
    | cons s rest => rw [dropWhile_cons_of_neg (by simp [h.1 s rfl])]
  rw [trim, hfront, rdropWhile_eq_self_iff]
  intro hne
  simp [h.2 _ (List.getLast?_eq_getLast_of_ne_nil hne)]

theorem trimmed_trim (run : List Symbol) : Trimmed (trim run) := by
  constructor
  · intro s hs
    obtain ⟨tail, htail⟩ := rdropWhile_prefix Symbol.isBlank (run.dropWhile Symbol.isBlank)
    have hhead : (run.dropWhile Symbol.isBlank).head? = some s := by
      rw [← htail, List.head?_append]
      change (trim run).head?.or _ = some s
      rw [hs, Option.some_or]
    have hnot := List.head?_dropWhile_not Symbol.isBlank run
    rw [hhead] at hnot
    exact hnot
  · intro s hs
    have hne : trim run ≠ [] := by
      rintro hnil
      rw [hnil] at hs
      cases hs
    rw [List.getLast?_eq_getLast_of_ne_nil hne, Option.some.injEq] at hs
    rw [← hs]
    exact Bool.eq_false_iff.mpr (rdropWhile_last_not Symbol.isBlank _ hne)

theorem eq_nil_of_value {run : List Symbol} (hblank : ∀ s ∈ run, s.isBlank = true)
    (h : value run = []) : run = [] := by
  cases run with
  | nil => rfl
  | cons s rest =>
    have hs := hblank s (mem_cons_self ..)
    cases s with
    | lit c => simp [value, Symbol.value] at h
    | ref c => cases hs
    | entity v => cases hs

theorem getLast?_runs {nodes : List Node} {last : List Symbol}
    (h : (runs nodes).getLast? = some last) :
    ∃ before run after, nodes = before ++ .text run :: after ∧ last = trim run ∧ last ≠ [] ∧
      runs after = [] := by
  induction nodes with
  | nil => cases h
  | cons n ns ih =>
    have hcons : runs (n :: ns) = runs [n] ++ runs ns := runs_append [n] ns
    by_cases hrest : runs ns = []
    · rw [hcons, hrest, append_nil] at h
      cases n with
      | text run =>
        by_cases hblank : trim run = []
        · simp [runs, hblank] at h
        · simp only [runs, filterMap_cons, hblank, if_false, filterMap_nil,
            List.getLast?_singleton, Option.some.injEq] at h
          exact ⟨[], run, ns, rfl, h.symm, h ▸ hblank, hrest⟩
      | _ => simp [runs] at h
    · rw [hcons, List.getLast?_append_of_ne_nil _ hrest] at h
      obtain ⟨before, run, after, rfl, hlast, hne, hafter⟩ := ih h
      exact ⟨n :: before, run, after, rfl, hlast, hne, hafter⟩

/-- A reader that keeps the last run of text has all the characters exactly if they stand in one run
that it does not trim and can read, or if there are none but there is a run. -/
theorem spelled_last_iff {nodes : List Node} :
    (runs nodes).getLast?.map spelled = some (content nodes) ↔
      OneRun nodes ∨ content nodes = [] ∧ runs nodes ≠ [] := by
  constructor
  · intro h
    obtain ⟨last, hlast, hspelled⟩ := Option.map_eq_some_iff.mp h
    have hruns : runs nodes ≠ [] := by
      rintro hnil
      rw [hnil] at hlast
      cases hlast
    obtain ⟨before, run, after, rfl, rfl, hne, hafter⟩ := getLast?_runs hlast
    by_cases hentity : (trim run).any Symbol.isEntity = true
    · refine .inr ⟨?_, hruns⟩
      rw [← hspelled, spelled, unescape, if_pos hentity]
      rfl
    · left
      obtain ⟨a, b, hrun, ha, hb⟩ := eq_append_trim run
      rw [spelled, unescape, if_neg hentity, Option.getD_some] at hspelled
      have hall : content (before ++ .text run :: after) =
          content before ++ (value a ++ value (trim run) ++ value b) ++ content after := by
        rw [content_append, ← value_append, ← value_append, ← hrun]
        simp [content, Node.chars]
      have hlen := congrArg List.length (hspelled.trans hall)
      simp only [length_append] at hlen
      have hbefore : content before = [] := length_eq_zero_iff.mp (by omega)
      have hcontent : content after = [] := length_eq_zero_iff.mp (by omega)
      have hfront := eq_nil_of_value ha (length_eq_zero_iff.mp (by omega))
      have hback := eq_nil_of_value hb (length_eq_zero_iff.mp (by omega))
      rw [hfront, hback, nil_append, append_nil] at hrun
      have htrimmed := trimmed_trim run
      rw [← hrun] at hne htrimmed hentity
      exact ⟨before, run, after, rfl, hne, htrimmed, by simpa using hentity, hbefore, hcontent,
        hafter⟩
  · rintro (⟨before, run, after, rfl, hne, htrimmed, hentity, hbefore, hcontent, hafter⟩ |
      ⟨hnone, hruns⟩)
    · have htrim := trim_eq_self htrimmed
      have hlast : runs (before ++ .text run :: after) = runs before ++ [run] := by
        have hone : runs (.text run :: after) = [run] ++ runs after := by
          simp [runs, htrim, hne]
        rw [runs_append, hone, hafter, append_nil]
      have hall : content (before ++ .text run :: after) = value run := by
        have hone : content (.text run :: after) = value run ++ content after := by
          simp [content, Node.chars]
        rw [content_append, hone, hbefore, hcontent, nil_append, append_nil]
      rw [hlast, List.getLast?_append_of_ne_nil _ (cons_ne_nil _ _), List.getLast?_singleton,
        Option.map_some, hall, spelled, unescape, if_neg (by simp [hentity])]
      rfl
    · obtain ⟨last, hlast⟩ : ∃ last, (runs nodes).getLast? = some last :=
        ⟨_, List.getLast?_eq_getLast_of_ne_nil hruns⟩
      obtain ⟨before, run, after, rfl, rfl, -, -⟩ := getLast?_runs hlast
      obtain ⟨a, b, hrun, -, -⟩ := eq_append_trim run
      have hvalue : value run = [] := by
        rw [content_append] at hnone
        exact (append_eq_nil_iff.mp (append_eq_nil_iff.mp hnone).2).1
      rw [hrun, value_append, value_append] at hvalue
      have htrim := (append_eq_nil_iff.mp (append_eq_nil_iff.mp hvalue).1).2
      rw [hlast, Option.map_some, hnone, spelled, unescape, htrim]
      split <;> rfl

theorem oneRun_singleton {run : List Symbol} :
    OneRun [.text run] ↔ run ≠ [] ∧ Trimmed run ∧ run.any Symbol.isEntity = false := by
  constructor
  · rintro ⟨before, run', after, heq, hne, htrimmed, hentity, -⟩
    cases before with
    | nil =>
      cases heq
      exact ⟨hne, htrimmed, hentity⟩
    | cons n before => simp at heq
  · rintro ⟨hne, htrimmed, hentity⟩
    exact ⟨[], run, [], rfl, hne, htrimmed, hentity, rfl, rfl, rfl⟩

/-- What a loop over events does with its variables, besides remembering the element that it is in.
-/
structure Handlers (τ : Type) where
  name : String → String
  onStart : String → τ → τ
  onText : String → List Symbol → τ → τ
  onStop : String → τ → τ

section Loops

variable {τ α : Type} (m : Handlers τ) (reserved : List String) {s : Option String × τ} {t : τ}
  {nodes : List Node}

def Handlers.event (s : Option String × τ) : Event → Option String × τ
  | .start name => (some (m.name name), m.onStart (m.name name) s.2)
  | .text run =>
    match s.1 with
    | none => s
    | some name => (s.1, m.onText name run s.2)
  | .stop name => (none, m.onStop (m.name name) s.2)
  | _ => s

def Handlers.run (s : Option String × τ) : List Event → Except String (Option String × τ)
  | [] => .ok s
  | .error message :: _ => .error message
  | e :: events => Handlers.run (m.event s e) events

def Handlers.after (s : Option String × τ) (nodes : List Node) : Option String × τ :=
  (nodeEvents nodes).foldl m.event s

def Handlers.Knows : Prop := ∀ name ∉ reserved, ∀ t,
  m.onStart name t = t ∧ (∀ run, m.onText name run t = t) ∧ m.onStop name t = t

/-- Text in the current element leaves the state alone. -/
def Handlers.Quiet (current : Option String) : Prop :=
  ∀ name, current = some name → ∀ run t, m.onText name run t = t

mutual

/-- No element below has a reserved name. -/
def Handlers.Avoids : Node → Prop
  | .element name children => m.name name ∉ reserved ∧ Handlers.AllAvoid children
  | _ => True

/-- None of the nodes has a reserved name in it. -/
def Handlers.AllAvoid : List Node → Prop
  | [] => True
  | n :: ns => Handlers.Avoids n ∧ Handlers.AllAvoid ns

end

/-- Nodes that show these things in their order, among others that the loop passes by. -/
inductive Handlers.Shown (shows : α → Node → Prop) : List α → List Node → Prop
  | nil : Handlers.Shown shows [] []
  | skip {n as ns} : m.Avoids reserved n → Handlers.Shown shows as ns →
    Handlers.Shown shows as (n :: ns)
  | cons {a n as ns} : shows a n → Handlers.Shown shows as ns →
    Handlers.Shown shows (a :: as) (n :: ns)

variable {m reserved}

theorem Handlers.quiet_none : m.Quiet none := fun _ h => by cases h

theorem Handlers.run_of_no_error {events : List Event} (h : ∀ message, .error message ∉ events)
    (s : Option String × τ) : m.run s events = .ok (events.foldl m.event s) := by
  induction events generalizing s with
  | nil => rfl
  | cons e events ih =>
    have hrest : ∀ message, .error message ∉ events :=
      fun message hmem => h message (mem_cons_of_mem _ hmem)
    rw [foldl_cons, ← ih hrest]
    cases e with
    | error message => exact absurd mem_cons_self (h message)
    | _ => rfl

theorem Handlers.run_nodeEvents (s : Option String × τ) (nodes : List Node) :
    m.run s (nodeEvents nodes) = .ok (m.after s nodes) :=
  run_of_no_error (fun message => error_not_mem_nodeEvents message nodes) s

theorem Handlers.after_append (a b : List Node) : m.after s (a ++ b) = m.after (m.after s a) b := by
  rw [after, nodeEvents_append, foldl_append]
  rfl

theorem Handlers.after_cons (n : Node) (ns : List Node) :
    m.after s (n :: ns) = m.after (m.after s [n]) ns :=
  after_append [n] ns

theorem Handlers.after_element (name : String) (children : List Node) :
    m.after s [.element name children] =
      (none, m.onStop (m.name name)
        (m.after (some (m.name name), m.onStart (m.name name) s.2) children).2) := by
  simp [after, Node.events, event]

theorem Handlers.after_text (name : String) (run : List Symbol) :
    m.after s [.element name [.text run]] = (none, m.onStop (m.name name)
      (if trim run = [] then m.onStart (m.name name) s.2
        else m.onText (m.name name) (trim run) (m.onStart (m.name name) s.2))) := by
  rw [after_element]
  by_cases hblank : trim run = []
  · simp [after, Node.events, hblank]
  · simp [after, Node.events, hblank, event]

mutual

theorem Handlers.after_avoids (hknows : m.Knows reserved) : (n : Node) → (s : Option String × τ) →
    m.Avoids reserved n → m.Quiet s.1 → ∃ current, m.Quiet current ∧ m.after s [n] = (current, s.2)
  | .element name children, s, havoids, _ => by
    rw [Handlers.Avoids] at havoids
    obtain ⟨hname, hchildren⟩ := havoids
    have hquiet : m.Quiet (some (m.name name)) := by
      rintro _ ⟨⟩ run t
      exact (hknows _ hname t).2.1 run
    obtain ⟨current, -, hafter⟩ :=
      after_allAvoid hknows children (some (m.name name), s.2) hchildren hquiet
    refine ⟨none, quiet_none, ?_⟩
    rw [after_element, (hknows _ hname _).1, hafter, (hknows _ hname _).2.2]
  | .text run, s, _, hquiet => by
    refine ⟨s.1, hquiet, ?_⟩
    by_cases hblank : trim run = []
    · simp [after, Node.events, hblank]
    · cases hcurrent : s.1 with
      | none => simp [after, Node.events, hblank, event, hcurrent, Prod.ext_iff]
      | some name =>
        simp [after, Node.events, hblank, event, hcurrent, hquiet name hcurrent]
  | .empty _, s, _, hquiet => ⟨s.1, hquiet, by simp [after, Node.events, event]⟩
  | .cdata _, s, _, hquiet => ⟨s.1, hquiet, by simp [after, Node.events, event]⟩
  | .misc, s, _, hquiet => ⟨s.1, hquiet, by simp [after, Node.events, event]⟩

theorem Handlers.after_allAvoid (hknows : m.Knows reserved) :
    (ns : List Node) → (s : Option String × τ) →
    m.AllAvoid reserved ns → m.Quiet s.1 → ∃ current, m.Quiet current ∧
      m.after s ns = (current, s.2)
  | [], s, _, hquiet => ⟨s.1, hquiet, by simp [after]⟩
  | n :: ns, s, havoids, hquiet => by
    rw [Handlers.AllAvoid] at havoids
    obtain ⟨current, hcurrent, hafter⟩ := after_avoids hknows n s havoids.1 hquiet
    obtain ⟨current', hcurrent', hafter'⟩ :=
      after_allAvoid hknows ns (current, s.2) havoids.2 hcurrent
    refine ⟨current', hcurrent', ?_⟩
    rw [after_cons, hafter, hafter']

end

theorem Handlers.after_shown {shows : α → Node → Prop} {f : τ → α → τ} (hknows : m.Knows reserved)
    (hshows : ∀ a n s, shows a n → m.after s [n] = (none, f s.2 a)) {as : List α}
    (h : m.Shown reserved shows as nodes) (hquiet : m.Quiet s.1) :
    ∃ current, m.Quiet current ∧ m.after s nodes = (current, as.foldl f s.2) := by
  induction h generalizing s with
  | nil => exact ⟨s.1, hquiet, by simp [after]⟩
  | skip havoids _ ih =>
    obtain ⟨current, hcurrent, hafter⟩ := after_avoids hknows _ s havoids hquiet
    obtain ⟨current', hcurrent', hafter'⟩ := @ih (current, s.2) hcurrent
    exact ⟨current', hcurrent', by rw [after_cons, hafter, hafter']⟩
  | @cons a n as ns hshow _ ih =>
    obtain ⟨current, hcurrent, hafter⟩ := @ih (none, f s.2 a) quiet_none
    exact ⟨current, hcurrent, by rw [after_cons, hshows a n s hshow, hafter, foldl_cons]⟩

end Loops

end Dctl.ProofKit.Xml
