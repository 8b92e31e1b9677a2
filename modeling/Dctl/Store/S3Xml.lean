import Dctl.ProofKit.Checks
import Dctl.ProofKit.Xml
import Dctl.Store.Error

/-! Reading one page of a bucket listing (`parse_list` of `s3/xml.rs`): the event loop, and what it
makes of a document. -/

namespace Dctl.Store.S3

open ProofKit Xml List

def localName (name : String) : String :=
  String.ofList (name.toList.reverse.takeWhile fun c => c ≠ ':').reverse

structure Listing where
  items : List (String × UInt64)
  nextToken : Option String
  deriving DecidableEq

def listRoot : String := "ListBucketResult"

def withoutPlus : List Char → List Char
  | '+' :: rest => rest
  | text => text

def parseU64 (text : List Char) : Option UInt64 :=
  let digits := withoutPlus text
  if digits = [] ∨ digits.any (fun c => !c.isDigit) then none
  else
    let n := Nat.ofDigitChars 10 digits 0
    if n < 2 ^ 64 then some (UInt64.ofNat n) else none

structure ListLoop where
  items : List (String × UInt64)
  nextToken : Option String
  current : Option String
  inContents : Bool
  key : Option String
  size : Option UInt64
  rootOpened : Bool
  rootClosed : Bool
  deriving DecidableEq

namespace ListLoop

def new : ListLoop where
  items := []
  nextToken := none
  current := none
  inContents := false
  key := none
  size := none
  rootOpened := false
  rootClosed := false

def event (s : ListLoop) : Event → ListLoop
  | .start name =>
    let name := localName name
    let s := if name = listRoot then { s with rootOpened := true } else s
    let s :=
      if name = "Contents" then { s with inContents := true, key := none, size := none } else s
    { s with current := some name }
  | .text run =>
    match s.current with
    | none => s
    | some name =>
      let text := spelled run
      if name = "Key" ∧ s.inContents then { s with key := some (String.ofList text) }
      else if name = "Size" ∧ s.inContents then { s with size := parseU64 text }
      else if name = "NextContinuationToken" then
        { s with nextToken := some (String.ofList text) }
      else s
  | .stop name =>
    let name := localName name
    let s := if name = listRoot then { s with rootClosed := true } else s
    let s :=
      if name = "Contents" then
        let items := match s.key, s.size with
          | some k, some n => s.items ++ [(k, n)]
          | _, _ => s.items
        { s with inContents := false, key := none, size := none, items }
      else s
    { s with current := none }
  | _ => s

def run (s : ListLoop) : List Event → Except StoreError ListLoop
  | [] => .ok s
  | .error message :: _ => .error (.backend ("s3 xml parse: " ++ message))
  | e :: events => (s.event e).run events

end ListLoop

/-- Parse a page of `len` bytes from the events of a tokenizer that trims texts. -/
def parseList (len : Nat) (events : List Event) : Except StoreError Listing := do
  let s ← ListLoop.new.run events
  reject (s.rootOpened = false ∨ s.rootClosed = false)
    (.backend ("s3 listing response is not a complete <" ++ listRoot ++ "> document (" ++
      len.repr ++ " bytes read); it was truncated, or the endpoint answered with something else"))
  pure { items := s.items, nextToken := s.nextToken }

def reserved : List String := [listRoot, "Contents", "Key", "Size", "NextContinuationToken"]

mutual

def Foreign : Node → Prop
  | .element name children => localName name ∉ reserved ∧ AllForeign children
  | .empty name => localName name ∉ reserved
  | _ => True

def AllForeign : List Node → Prop
  | [] => True
  | n :: ns => Foreign n ∧ AllForeign ns

end

def IsCharData : Node → Prop
  | .element _ _ => False
  | .empty _ => False
  | _ => True

def IsField (field : String) : Node → Prop
  | .element name children => localName name = field ∧ ∀ n ∈ children, IsCharData n
  | .empty name => localName name = field
  | _ => False

def InContents (n : Node) : Prop := Foreign n ∨ IsField "Key" n ∨ IsField "Size" n

def IsContents : Node → Prop
  | .element name children => localName name = "Contents" ∧ ∀ n ∈ children, InContents n
  | .empty name => localName name = "Contents"
  | _ => False

/-- What may stand beside the root: comments, declarations and white space. -/
def IsMisc : Node → Prop
  | .misc => True
  | .text run => ∀ s ∈ run, s.isBlank = true
  | _ => False

structure ListDocument where
  prolog : List Node
  name : String
  children : List Node
  epilog : List Node
  prolog_misc : ∀ n ∈ prolog, IsMisc n
  root : localName name = listRoot
  child : ∀ n ∈ children, Foreign n ∨ IsContents n ∨ IsField "NextContinuationToken" n
  epilog_misc : ∀ n ∈ epilog, IsMisc n

def fieldNodes (field : String) (nodes : List Node) : List Node :=
  nodes.flatMap fun n =>
    match n with
    | .element name children => if localName name = field then children else []
    | _ => []

def contentsOf (nodes : List Node) : List (List Node) :=
  nodes.filterMap fun n =>
    match n with
    | .element name children => if localName name = "Contents" then some children else none
    | .empty name => if localName name = "Contents" then some [] else none
    | _ => none

namespace ListDocument

def events (doc : ListDocument) : List Event :=
  nodeEvents (doc.prolog ++ .element doc.name doc.children :: doc.epilog)

def contents (doc : ListDocument) : List (List Node) := contentsOf doc.children

end ListDocument

def keyOf (entry : List Node) : String := String.ofList (content (fieldNodes "Key" entry))

def lastOr {α : Type} (f : List Symbol → α) (nodes : List Node) (old : α) : α :=
  ((runs nodes).getLast?.map f).getD old

theorem lastOr_append {α : Type} (f : List Symbol → α) (a b : List Node) (old : α) :
    lastOr f (a ++ b) old = lastOr f b (lastOr f a old) := by
  unfold lastOr
  rw [runs_append, List.getLast?_append]
  cases (runs b).getLast? <;> rfl

@[simp] theorem lastOr_nil {α : Type} (f : List Symbol → α) (old : α) : lastOr f [] old = old := rfl

def keyText (run : List Symbol) : Option String := some (String.ofList (spelled run))

def sizeText (run : List Symbol) : Option UInt64 := parseU64 (spelled run)

def itemOf (entry : List Node) : Option (String × UInt64) := do
  let key ← lastOr keyText (fieldNodes "Key" entry) none
  let size ← lastOr sizeText (fieldNodes "Size" entry) none
  pure (key, size)

theorem fieldNodes_cons (field : String) (n : Node) (ns : List Node) :
    fieldNodes field (n :: ns) = fieldNodes field [n] ++ fieldNodes field ns := by
  simp [fieldNodes]

variable {children : List Node}

theorem fieldNodes_element {field name : String} :
    fieldNodes field [.element name children] =
      if localName name = field then children else [] := by
  simp [fieldNodes]

theorem fieldNodes_foreign {field : String} {n : Node} (h : Foreign n) (hfield : field ∈ reserved) :
    fieldNodes field [n] = [] := by
  cases n with
  | element name children =>
    rw [Foreign] at h
    have hne : localName name ≠ field := by
      rintro rfl
      exact h.1 hfield
    simp [fieldNodes, hne]
  | _ => rfl

theorem lastOr_fieldNodes_cons {α : Type} (f : List Symbol → α) (field : String) (n : Node)
    (ns : List Node) (old : α) : lastOr f (fieldNodes field (n :: ns)) old =
      lastOr f (fieldNodes field ns) (lastOr f (fieldNodes field [n]) old) := by
  rw [fieldNodes_cons, lastOr_append]

theorem contentsOf_foreign {n : Node} (h : Foreign n) : contentsOf [n] = [] := by
  cases n with
  | element name children =>
    rw [Foreign] at h
    have hne : localName name ≠ "Contents" := by
      intro heq
      rw [heq] at h
      exact absurd h.1 (by decide)
    simp [contentsOf, hne]
  | empty name =>
    rw [Foreign] at h
    have hne : localName name ≠ "Contents" := by
      intro heq
      rw [heq] at h
      exact absurd h (by decide)
    simp [contentsOf, hne]
  | _ => rfl

theorem contentsOf_cons (n : Node) (ns : List Node) :
    contentsOf (n :: ns) = contentsOf [n] ++ contentsOf ns := by
  rw [contentsOf, ← singleton_append, filterMap_append]
  rfl

namespace ListLoop

variable {s : ListLoop}

def after (s : ListLoop) (nodes : List Node) : ListLoop := (nodeEvents nodes).foldl event s

/-- A text after the start or the end of an element that the loop does not know. -/
def Quiet (current : Option String) : Prop := ∀ name, current = some name → name ∉ reserved.drop 2

theorem after_append (a b : List Node) : s.after (a ++ b) = (s.after a).after b := by
  rw [after, nodeEvents_append, foldl_append]
  rfl

theorem after_cons (n : Node) (ns : List Node) : s.after (n :: ns) = (s.after [n]).after ns :=
  after_append [n] ns

theorem after_element (name : String) (children : List Node) :
    s.after [.element name children] =
      ((s.event (.start name)).after children).event (.stop name) := by
  simp [after, Node.events]

theorem event_text_quiet (hquiet : Quiet s.current) (run : List Symbol) :
    s.event (.text run) = s := by
  unfold event
  cases hcurrent : s.current with
  | none => rfl
  | some name =>
    have hname := hquiet name hcurrent
    simp only [reserved, drop_succ_cons, drop_zero, mem_cons, not_mem_nil,
      or_false, not_or] at hname
    simp [hname]

variable {name : String}

theorem event_start_foreign (h : localName name ∉ reserved) :
    s.event (.start name) = { s with current := some (localName name) } := by
  simp only [reserved, mem_cons, not_mem_nil, or_false, not_or] at h
  simp [event, h]

theorem event_stop_foreign (h : localName name ∉ reserved) :
    s.event (.stop name) = { s with current := none } := by
  simp only [reserved, mem_cons, not_mem_nil, or_false, not_or] at h
  simp [event, h]

theorem quiet_none : Quiet none := fun _ h => by cases h

theorem quiet_of_foreign (h : localName name ∉ reserved) : Quiet (some (localName name)) := by
  intro name' hname
  cases hname
  exact fun hmem => h (mem_of_mem_drop hmem)

mutual

theorem after_foreign : (n : Node) → (s : ListLoop) → Foreign n → Quiet s.current →
    ∃ current, Quiet current ∧ s.after [n] = { s with current }
  | .element name children, s, hforeign, hquiet => by
    rw [Foreign] at hforeign
    obtain ⟨hname, hchildren⟩ := hforeign
    rw [after_element, event_start_foreign hname]
    obtain ⟨current, -, hafter⟩ := after_allForeign children
      { s with current := some (localName name) } hchildren (quiet_of_foreign hname)
    rw [hafter, event_stop_foreign hname]
    exact ⟨none, quiet_none, rfl⟩
  | .text run, s, _, hquiet => by
    refine ⟨s.current, hquiet, ?_⟩
    simp only [after, nodeEvents_cons, nodeEvents_nil, append_nil, Node.events]
    split
    · rfl
    · exact event_text_quiet hquiet _
  | .empty _, s, _, hquiet => ⟨s.current, hquiet, by simp [after, Node.events, event]⟩
  | .cdata _, s, _, hquiet => ⟨s.current, hquiet, by simp [after, Node.events, event]⟩
  | .misc, s, _, hquiet => ⟨s.current, hquiet, by simp [after, Node.events, event]⟩

theorem after_allForeign : (ns : List Node) → (s : ListLoop) → AllForeign ns → Quiet s.current →
    ∃ current, Quiet current ∧ s.after ns = { s with current }
  | [], s, _, hquiet => ⟨s.current, hquiet, by simp [after]⟩
  | n :: ns, s, hforeign, hquiet => by
    rw [AllForeign] at hforeign
    obtain ⟨current, hcurrent, hafter⟩ := after_foreign n s hforeign.1 hquiet
    obtain ⟨current', hcurrent', hafter'⟩ :=
      after_allForeign ns { s with current } hforeign.2 hcurrent
    refine ⟨current', hcurrent', ?_⟩
    rw [after_cons, hafter, hafter']

end

variable {nodes : List Node}

theorem after_charData (h : ∀ n ∈ nodes, IsCharData n) :
    s.after nodes = (runs nodes).foldl (fun s run => s.event (.text run)) s := by
  induction nodes generalizing s with
  | nil => rfl
  | cons n ns ih =>
    have hn := h n (mem_cons_self ..)
    have hns := fun m hm => h m (mem_cons_of_mem _ hm)
    rw [after_cons, ih hns]
    cases n with
    | element name children => exact hn.elim
    | empty name => exact hn.elim
    | text run =>
      by_cases hblank : trim run = []
      · simp [after, Node.events, runs, hblank]
      · simp [after, Node.events, runs, hblank]
    | cdata content => simp [after, Node.events, runs, event]
    | misc => simp [after, Node.events, runs, event]

theorem foldl_last {α : Type} (f : List Symbol → α) (set : α → ListLoop)
    (hset : ∀ old run, (set old).event (.text run) = set (f run)) (rs : List (List Symbol))
    (old : α) : rs.foldl (fun s run => s.event (.text run)) (set old) =
      set ((rs.getLast?.map f).getD old) := by
  induction rs generalizing old with
  | nil => rfl
  | cons r rs ih =>
    rw [foldl_cons, hset, ih]
    cases rs with
    | nil => rfl
    | cons r' rs => rw [List.getLast?_cons_cons, List.getLast?_cons]; rfl

theorem after_field {α : Type} (f : List Symbol → α) (set : α → ListLoop) (old : α)
    (hchildren : ∀ n ∈ children, IsCharData n) (hstart : s.event (.start name) = set old)
    (hset : ∀ old run, (set old).event (.text run) = set (f run)) :
    s.after [.element name children] = (set (lastOr f children old)).event (.stop name) := by
  rw [after_element, hstart, after_charData hchildren, foldl_last f set hset]
  rfl

theorem after_inContents {n : Node} (hn : InContents n) (hin : s.inContents = true)
    (hquiet : Quiet s.current) : ∃ current, Quiet current ∧ s.after [n] =
      { s with
        current
        key := lastOr keyText (fieldNodes "Key" [n]) s.key
        size := lastOr sizeText (fieldNodes "Size" [n]) s.size } := by
  rcases hn with hforeign | hkey | hsize
  · obtain ⟨current, hcurrent, hafter⟩ := after_foreign n s hforeign hquiet
    refine ⟨current, hcurrent, ?_⟩
    rw [hafter, fieldNodes_foreign hforeign (by decide), fieldNodes_foreign hforeign (by decide)]
    rfl
  · cases n with
    | element name children =>
      obtain ⟨hname, hchildren⟩ := hkey
      refine ⟨none, quiet_none, ?_⟩
      rw [after_field keyText (fun key => { s with current := some "Key", key }) s.key hchildren
        (by simp [event, hname, listRoot]) (by intro old run; simp [event, hin, keyText])]
      simp [event, hname, listRoot, fieldNodes_element]
    | empty name =>
      exact ⟨s.current, hquiet, by simp [after, Node.events, event, fieldNodes]⟩
    | _ => exact hkey.elim
  · cases n with
    | element name children =>
      obtain ⟨hname, hchildren⟩ := hsize
      refine ⟨none, quiet_none, ?_⟩
      rw [after_field sizeText (fun size => { s with current := some "Size", size }) s.size
        hchildren (by simp [event, hname, listRoot])
        (by intro old run; simp [event, hin, sizeText])]
      simp [event, hname, listRoot, fieldNodes_element]
    | empty name =>
      exact ⟨s.current, hquiet, by simp [after, Node.events, event, fieldNodes]⟩
    | _ => exact hsize.elim

theorem after_allInContents (hnodes : ∀ n ∈ nodes, InContents n) (hin : s.inContents = true)
    (hquiet : Quiet s.current) :
    ∃ current, s.after nodes =
      { s with
        current
        key := lastOr keyText (fieldNodes "Key" nodes) s.key
        size := lastOr sizeText (fieldNodes "Size" nodes) s.size } := by
  induction nodes generalizing s with
  | nil => exact ⟨s.current, rfl⟩
  | cons n ns ih =>
    obtain ⟨current, hcurrent, hafter⟩ :=
      after_inContents (hnodes n (mem_cons_self ..)) hin hquiet
    rw [after_cons, hafter]
    obtain ⟨current', hafter'⟩ := ih
      (s := { s with
        current
        key := lastOr keyText (fieldNodes "Key" [n]) s.key
        size := lastOr sizeText (fieldNodes "Size" [n]) s.size })
      (fun m hm => hnodes m (mem_cons_of_mem _ hm)) hin hcurrent
    refine ⟨current', ?_⟩
    rw [hafter', lastOr_fieldNodes_cons keyText "Key" n ns,
      lastOr_fieldNodes_cons sizeText "Size" n ns]

/-- What the loop knows between the children of the root. -/
structure AtRoot (s : ListLoop) : Prop where
  current : Quiet s.current
  inContents : s.inContents = false
  key : s.key = none
  size : s.size = none

theorem after_contents (hname : localName name = "Contents")
    (hchildren : ∀ n ∈ children, InContents n) (hroot : s.AtRoot) :
    s.after [.element name children] =
      { s with current := none, items := s.items ++ (itemOf children).toList } := by
  obtain ⟨items, nextToken, current, inContents, key, size, rootOpened, rootClosed⟩ := s
  obtain ⟨-, hin, hkey, hsize⟩ := hroot
  cases hin
  cases hkey
  cases hsize
  let opened : ListLoop :=
    ⟨items, nextToken, some "Contents", true, none, none, rootOpened, rootClosed⟩
  have hstart : event ⟨items, nextToken, current, false, none, none, rootOpened, rootClosed⟩
      (.start name) = opened := by
    simp [event, hname, listRoot, opened]
  have hquiet : Quiet opened.current := by
    intro name' hname'
    cases hname'
    decide
  obtain ⟨current, hafter⟩ := after_allInContents hchildren (s := opened) rfl hquiet
  rw [after_element, hstart, hafter]
  -- The entry counts when both of its fields were read.
  cases hk : lastOr keyText (fieldNodes "Key" children) none with
  | none => simp [event, hname, listRoot, itemOf, opened, hk]
  | some key =>
    cases hn : lastOr sizeText (fieldNodes "Size" children) none with
    | none => simp [event, hname, listRoot, itemOf, opened, hk, hn]
    | some size => simp [event, hname, listRoot, itemOf, opened, hk, hn]

theorem after_rootChild {n : Node}
    (hn : Foreign n ∨ IsContents n ∨ IsField "NextContinuationToken" n) (hroot : s.AtRoot) :
    ∃ current, Quiet current ∧ s.after [n] =
      { s with
        current
        items := s.items ++ (contentsOf [n]).filterMap itemOf
        nextToken := lastOr keyText (fieldNodes "NextContinuationToken" [n]) s.nextToken } := by
  rcases hn with hforeign | hcontents | htoken
  · obtain ⟨current, hcurrent, hafter⟩ := after_foreign n s hforeign hroot.current
    refine ⟨current, hcurrent, ?_⟩
    rw [hafter, fieldNodes_foreign hforeign (by decide), contentsOf_foreign hforeign]
    simp
  · cases n with
    | element name children =>
      obtain ⟨hname, hchildren⟩ := hcontents
      refine ⟨none, quiet_none, ?_⟩
      rw [after_contents hname hchildren hroot]
      cases hitem : itemOf children <;>
        simp [contentsOf, fieldNodes_element, hname, hitem]
    | empty name =>
      refine ⟨s.current, hroot.current, ?_⟩
      have hitem : itemOf [] = none := rfl
      have hname : localName name = "Contents" := hcontents
      simp [after, Node.events, event, fieldNodes, contentsOf, hname, hitem]
    | _ => exact hcontents.elim
  · cases n with
    | element name children =>
      obtain ⟨hname, hchildren⟩ := htoken
      refine ⟨none, quiet_none, ?_⟩
      rw [after_field keyText (fun nextToken =>
          { s with current := some "NextContinuationToken", nextToken }) s.nextToken hchildren
        (by simp [event, hname, listRoot]) (by intro old run; simp [event, keyText])]
      simp [event, hname, listRoot, contentsOf, fieldNodes_element]
    | empty name =>
      have hne : localName name ≠ "Contents" := by
        rw [show localName name = "NextContinuationToken" from htoken]
        decide
      exact ⟨s.current, hroot.current,
        by simp [after, Node.events, event, fieldNodes, contentsOf, hne]⟩
    | _ => exact htoken.elim

theorem after_rootChildren
    (hnodes : ∀ n ∈ nodes, Foreign n ∨ IsContents n ∨ IsField "NextContinuationToken" n)
    (hroot : s.AtRoot) : ∃ current, s.after nodes =
      { s with
        current
        items := s.items ++ (contentsOf nodes).filterMap itemOf
        nextToken := lastOr keyText (fieldNodes "NextContinuationToken" nodes) s.nextToken } := by
  induction nodes generalizing s with
  | nil => exact ⟨s.current, by simp [after, contentsOf, fieldNodes]⟩
  | cons n ns ih =>
    obtain ⟨current, hcurrent, hafter⟩ := after_rootChild (hnodes n (mem_cons_self ..)) hroot
    rw [after_cons, hafter]
    obtain ⟨current', hafter'⟩ := ih
      (s := { s with
        current
        items := s.items ++ (contentsOf [n]).filterMap itemOf
        nextToken := lastOr keyText (fieldNodes "NextContinuationToken" [n]) s.nextToken })
      (fun m hm => hnodes m (mem_cons_of_mem _ hm))
      ⟨hcurrent, hroot.inContents, hroot.key, hroot.size⟩
    refine ⟨current', ?_⟩
    rw [hafter', lastOr_fieldNodes_cons keyText "NextContinuationToken" n ns, contentsOf_cons n ns,
      filterMap_append, append_assoc]

theorem after_misc (h : ∀ n ∈ nodes, IsMisc n) : s.after nodes = s := by
  induction nodes with
  | nil => rfl
  | cons n ns ih =>
    have hn := h n (mem_cons_self ..)
    have hone : s.after [n] = s := by
      cases n with
      | text run =>
        have hblank : run.dropWhile Symbol.isBlank = [] := dropWhile_eq_nil_iff.mpr hn
        simp [after, Node.events, trim, hblank]
      | misc => simp [after, Node.events, event]
      | element name children => exact hn.elim
      | empty name => exact hn.elim
      | cdata content => exact hn.elim
    rw [after_cons, hone]
    exact ih fun m hm => h m (mem_cons_of_mem _ hm)

theorem run_cons {e : Event} (he : ∀ message, e ≠ .error message) (events : List Event) :
    s.run (e :: events) = (s.event e).run events := by
  rw [run]
  exact he

theorem run_eq_foldl {events : List Event} (h : ∀ message, .error message ∉ events) :
    s.run events = .ok (events.foldl event s) := by
  induction events generalizing s with
  | nil => rfl
  | cons e events ih =>
    have he : ∀ message, e ≠ .error message := by
      rintro message rfl
      exact h message (mem_cons_self ..)
    rw [run_cons he, ih fun message hmem => h message (mem_cons_of_mem _ hmem)]
    rfl

end ListLoop

theorem parseList_events (len : Nat) (doc : ListDocument) :
    parseList len doc.events = .ok
      { items := doc.contents.filterMap itemOf
        nextToken := lastOr keyText (fieldNodes "NextContinuationToken" doc.children) none } := by
  let opened : ListLoop := { ListLoop.new with current := some listRoot, rootOpened := true }
  have hstart : ListLoop.new.event (.start doc.name) = opened := by
    simp [ListLoop.event, doc.root, listRoot, opened]
  have hopened : opened.AtRoot := by
    refine ⟨?_, rfl, rfl, rfl⟩
    intro name hname
    cases hname
    decide
  obtain ⟨current, hchildren⟩ := ListLoop.after_rootChildren doc.child hopened
  have hall : ListLoop.new.after (doc.prolog ++ .element doc.name doc.children :: doc.epilog) =
      { opened with
        current := none
        rootClosed := true
        items := doc.contents.filterMap itemOf
        nextToken := lastOr keyText (fieldNodes "NextContinuationToken" doc.children) none } := by
    rw [ListLoop.after_append, ListLoop.after_misc doc.prolog_misc, ListLoop.after_cons,
      ListLoop.after_misc doc.epilog_misc, ListLoop.after_element, hstart, hchildren]
    simp [ListLoop.event, doc.root, listRoot, opened, ListLoop.new, ListDocument.contents]
  have hrun := ListLoop.run_eq_foldl (s := ListLoop.new)
    fun message => error_not_mem_nodeEvents message
      (doc.prolog ++ .element doc.name doc.children :: doc.epilog)
  simp only [parseList, bind_eq_ok, reject_eq_ok, pure_eq_ok]
  refine ⟨_, hrun.trans (congrArg Except.ok hall), (), by simp, rfl⟩

end Dctl.Store.S3
