import Dctl.Store.S3Xml

/-! Which documents `parse_list` reads as they are meant, and how a listing has to be rendered to be
read back. -/

namespace Dctl.Store.S3

open ProofKit Xml List

theorem map_filterMap_eq_iff {α β γ : Type} {f : α → Option β} {g : β → γ} {h : α → γ}
    {l : List α} : (l.filterMap f).map g = l.map h ↔ ∀ a ∈ l, (f a).map g = some (h a) := by
  constructor
  · intro heq
    have hlen := congrArg List.length heq
    rw [length_map, length_map] at hlen
    induction l with
    | nil => simp
    | cons a l ih =>
      have hle := length_filterMap_le f l
      cases hfa : f a with
      | none =>
        rw [filterMap_cons_none hfa, length_cons] at hlen
        omega
      | some b =>
        rw [filterMap_cons_some hfa] at heq hlen
        obtain ⟨hb, hrest⟩ := List.cons.inj heq
        rw [forall_mem_cons, hfa, Option.map_some, hb]
        exact ⟨rfl, ih hrest (by simpa using hlen)⟩
  · intro hall
    induction l with
    | nil => rfl
    | cons a l ih =>
      rw [forall_mem_cons] at hall
      obtain ⟨b, hfa, hb⟩ := Option.map_eq_some_iff.mp hall.1
      rw [filterMap_cons_some hfa, map_cons, map_cons, hb, ih hall.2]

/-- The entry's key is in one run or empty, and its last size is a number. -/
def Readable (entry : List Node) : Prop :=
  (OneRun (fieldNodes "Key" entry) ∨
      content (fieldNodes "Key" entry) = [] ∧ runs (fieldNodes "Key" entry) ≠ []) ∧
    ∃ run, (runs (fieldNodes "Size" entry)).getLast? = some run ∧ (parseU64 (spelled run)).isSome

theorem lastOr_keyText {nodes : List Node} {text : List Char} :
    lastOr keyText nodes none = some (String.ofList text) ↔
      (runs nodes).getLast?.map spelled = some text := by
  unfold lastOr keyText
  cases (runs nodes).getLast? <;> simp [String.ofList_inj]

theorem isSome_lastOr_sizeText {nodes : List Node} : (lastOr sizeText nodes none).isSome ↔
    ∃ run, (runs nodes).getLast? = some run ∧ (parseU64 (spelled run)).isSome := by
  unfold lastOr sizeText
  cases (runs nodes).getLast? <;> simp

theorem itemOf_key_iff {entry : List Node} :
    (itemOf entry).map Prod.fst = some (keyOf entry) ↔ Readable entry := by
  rw [Readable, ← spelled_last_iff, ← lastOr_keyText, ← isSome_lastOr_sizeText, itemOf, keyOf]
  cases lastOr keyText (fieldNodes "Key" entry) none with
  | none => simp
  | some key => cases lastOr sizeText (fieldNodes "Size" entry) none <;> simp

def escape (c : Char) : Symbol :=
  if c ∈ ['&', '<', '>', '"', '\'', '\r'] then .ref c else .lit c

def textNode (text : List Char) : Node := .text (text.map escape)

def entry (item : String × UInt64) : List Node :=
  [.element "Key" [textNode item.1.toList], .element "Size" [textNode item.2.toNat.repr.toList]]

def tokenNodes : Option String → List Node
  | none => []
  | some token => [.element "NextContinuationToken" [textNode token.toList]]

def render (listing : Listing) : ListDocument where
  prolog := [.misc]
  name := listRoot
  children := tokenNodes listing.nextToken ++
    listing.items.map fun item => .element "Contents" (entry item)
  epilog := []
  prolog_misc := by simp [IsMisc]
  root := by decide
  child := by
    intro n hn
    rcases List.mem_append.mp hn with htoken | hitem
    · cases hnext : listing.nextToken with
      | none => simp [hnext, tokenNodes] at htoken
      | some token =>
        simp only [hnext, tokenNodes, List.mem_singleton] at htoken
        subst htoken
        exact .inr (.inr ⟨by decide, by simp [textNode, IsCharData]⟩)
    · obtain ⟨item, -, rfl⟩ := List.mem_map.mp hitem
      refine .inr (.inl ⟨by decide, ?_⟩)
      simp only [entry, List.mem_cons, List.not_mem_nil, or_false]
      rintro field (rfl | rfl)
      · exact .inr (.inl ⟨by decide, by simp [textNode, IsCharData]⟩)
      · exact .inr (.inr ⟨by decide, by simp [textNode, IsCharData]⟩)
  epilog_misc := by simp

/-- Text that is not empty and neither begins nor ends with white space other than a carriage
return. -/
def Exact (text : List Char) : Prop :=
  text ≠ [] ∧ (∀ c, text.head? = some c → c ∉ [' ', '\t', '\n']) ∧
    ∀ c, text.getLast? = some c → c ∉ [' ', '\t', '\n']

theorem isBlank_escape {c : Char} : (escape c).isBlank = true ↔ c ∈ [' ', '\t', '\n'] := by
  unfold escape
  split
  next h =>
    simp only [List.mem_cons, List.not_mem_nil, or_false] at h
    rcases h with rfl | rfl | rfl | rfl | rfl | rfl <;> decide
  next h =>
    simp only [List.mem_cons, List.not_mem_nil, or_false, not_or] at h
    simp [Symbol.isBlank, h, or_assoc]

theorem value_escape (text : List Char) : value (text.map escape) = text := by
  induction text with
  | nil => rfl
  | cons c text ih =>
    have hc : (escape c).value = [c] := by
      unfold escape
      split <;> rfl
    rw [List.map_cons, value, List.flatMap_cons, hc]
    exact congrArg (c :: ·) ih

theorem isEntity_escape (text : List Char) : (text.map escape).any Symbol.isEntity = false := by
  rw [List.any_map, List.any_eq_false]
  intro c _
  simp only [Function.comp, escape]
  split <;> exact Bool.false_ne_true

theorem trimmed_escape {text : List Char} : Trimmed (text.map escape) ↔
    (∀ c, text.head? = some c → c ∉ [' ', '\t', '\n']) ∧
      ∀ c, text.getLast? = some c → c ∉ [' ', '\t', '\n'] := by
  have hnot : ∀ c, (escape c).isBlank = false ↔ c ∉ [' ', '\t', '\n'] := by
    intro c
    rw [← isBlank_escape, Bool.not_eq_true]
  simp only [Trimmed, List.head?_map, List.getLast?_map, Option.map_eq_some_iff, ← hnot]
  constructor
  · rintro ⟨hhead, hlast⟩
    exact ⟨fun c hc => hhead _ ⟨c, hc, rfl⟩, fun c hc => hlast _ ⟨c, hc, rfl⟩⟩
  · rintro ⟨hhead, hlast⟩
    constructor
    · rintro _ ⟨c, hc, rfl⟩
      exact hhead c hc
    · rintro _ ⟨c, hc, rfl⟩
      exact hlast c hc

theorem spelled_textNode {text : List Char} :
    (runs [textNode text]).getLast?.map spelled = some text ↔ Exact text := by
  have hcontent : content [textNode text] = text := by
    simp [content, textNode, Node.chars, value_escape]
  have hread : (runs [textNode text]).getLast?.map spelled = some (content [textNode text]) ↔ _ :=
    spelled_last_iff
  have hnil : ¬(text = [] ∧ runs [textNode text] ≠ []) := by
    rintro ⟨rfl, hruns⟩
    exact hruns rfl
  rw [hcontent, or_iff_left hnil] at hread
  rw [hread, textNode, oneRun_singleton, trimmed_escape, isEntity_escape, Exact, ne_eq,
    List.map_eq_nil_iff]
  simp only [and_true]

theorem lastOr_textNode {text : String} :
    lastOr keyText [textNode text.toList] none = some text ↔ Exact text.toList := by
  rw [← spelled_textNode, ← lastOr_keyText, String.ofList_toList]

theorem parseU64_digits {digits : List Char} (hne : digits ≠ [])
    (hall : ∀ c ∈ digits, c.isDigit = true) (hlt : Nat.ofDigitChars 10 digits 0 < 2 ^ 64) :
    parseU64 digits = some (UInt64.ofNat (Nat.ofDigitChars 10 digits 0)) := by
  have hplus : withoutPlus digits = digits := by
    unfold withoutPlus
    split
    · exact absurd (hall '+' (List.mem_cons_self ..)) (by decide)
    · rfl
  have hdigits : ¬(digits = [] ∨ (digits.any fun c => !c.isDigit) = true) := by
    rw [not_or, List.any_eq_true]
    refine ⟨hne, ?_⟩
    rintro ⟨c, hc, hnot⟩
    simp [hall c hc] at hnot
  unfold parseU64
  simp only [hplus, if_neg hdigits, if_pos hlt]

theorem lastOr_sizeNode (size : UInt64) :
    lastOr sizeText [textNode size.toNat.repr.toList] none = some size := by
  have hdigits : ∀ c ∈ Nat.toDigits 10 size.toNat, c.isDigit = true :=
    fun c hc => Nat.isDigit_of_mem_toDigits (by decide) (by decide) hc
  have hnot : ∀ c ∈ Nat.toDigits 10 size.toNat, c ∉ [' ', '\t', '\n'] := by
    intro c hc hmem
    have hdigit := hdigits c hc
    simp only [List.mem_cons, List.not_mem_nil, or_false] at hmem
    rcases hmem with rfl | rfl | rfl <;> exact absurd hdigit (by decide)
  have hexact : Exact (Nat.toDigits 10 size.toNat) :=
    ⟨Nat.toDigits_ne_nil, fun c hc => hnot c (List.mem_of_head? hc),
      fun c hc => hnot c (List.mem_of_getLast? hc)⟩
  obtain ⟨run, hrun, hspelled⟩ := Option.map_eq_some_iff.mp (spelled_textNode.mpr hexact)
  have hvalue : Nat.ofDigitChars 10 (Nat.toDigits 10 size.toNat) 0 = size.toNat :=
    Nat.ofDigitChars_ten_toDigits
  have hparse := parseU64_digits Nat.toDigits_ne_nil hdigits (by rw [hvalue]; exact size.toNat_lt)
  rw [hvalue, UInt64.ofNat_toNat] at hparse
  rw [Nat.toList_repr, lastOr, hrun, Option.map_some, sizeText, hspelled, hparse, Option.getD_some]

theorem localName_reserved : ∀ name ∈ reserved, localName name = name := by decide

theorem itemOf_entry {item : String × UInt64} :
    itemOf (entry item) = some item ↔ Exact item.1.toList := by
  have hkey : fieldNodes "Key" (entry item) = [textNode item.1.toList] := by
    simp (disch := decide) [entry, fieldNodes, localName_reserved]
  have hsize : fieldNodes "Size" (entry item) = [textNode item.2.toNat.repr.toList] := by
    simp (disch := decide) [entry, fieldNodes, localName_reserved]
  rw [itemOf, hkey, hsize, lastOr_sizeNode, ← lastOr_textNode]
  obtain ⟨key, size⟩ := item
  cases lastOr keyText [textNode key.toList] none <;> simp

theorem contents_render (listing : Listing) :
    (render listing).contents = listing.items.map entry := by
  have hitems : contentsOf (listing.items.map fun item => .element "Contents" (entry item)) =
      listing.items.map entry := by
    rw [contentsOf, List.filterMap_map, ← List.filterMap_eq_map]
    refine List.filterMap_congr fun item _ => ?_
    simp (disch := decide) [localName_reserved]
  change contentsOf (tokenNodes listing.nextToken ++
    listing.items.map fun item => .element "Contents" (entry item)) = _
  cases listing.nextToken with
  | none => exact hitems
  | some token =>
    rw [tokenNodes, List.singleton_append, contentsOf_cons, hitems]
    simp (disch := decide) [contentsOf, localName_reserved]

theorem token_render (listing : Listing) :
    fieldNodes "NextContinuationToken" (render listing).children =
      match listing.nextToken with
      | none => []
      | some token => [textNode token.toList] := by
  have hitems : fieldNodes "NextContinuationToken"
      (listing.items.map fun item => .element "Contents" (entry item)) = [] := by
    induction listing.items with
    | nil => rfl
    | cons item items ih =>
      rw [List.map_cons, fieldNodes_cons, ih]
      simp (disch := decide) [fieldNodes, localName_reserved]
  change fieldNodes "NextContinuationToken" (tokenNodes listing.nextToken ++
    listing.items.map fun item => .element "Contents" (entry item)) = _
  cases listing.nextToken with
  | none => exact hitems
  | some token =>
    rw [tokenNodes, List.singleton_append, fieldNodes_cons, hitems]
    simp (disch := decide) [fieldNodes, localName_reserved]

theorem parseList_render {len : Nat} {listing : Listing} :
    parseList len (render listing).events = .ok listing ↔
      (∀ item ∈ listing.items, Exact item.1.toList) ∧
        ∀ token, listing.nextToken = some token → Exact token.toList := by
  obtain ⟨items, nextToken⟩ := listing
  have hitems : (items.map entry).filterMap itemOf = items ↔
      ∀ item ∈ items, Exact item.1.toList := by
    have h := map_filterMap_eq_iff (f := itemOf ∘ entry) (g := id) (h := id) (l := items)
    simp only [List.map_id, Option.map_id_fun, id_eq, Function.comp, itemOf_entry] at h
    rw [List.filterMap_map]
    exact h
  rw [parseList_events, contents_render, token_render, Except.ok.injEq, Listing.mk.injEq, hitems]
  refine and_congr_right fun _ => ?_
  cases nextToken with
  | none => simp
  | some token => simp [lastOr_textNode]

/-- Listings: a rendered one is read back exactly if no white space is lost from it, and of any
document the keys of all entries are reported exactly if every entry is readable. -/
theorem parse_list_exact (len : Nat) :
    (∀ listing, parseList len (render listing).events = .ok listing ↔
      (∀ item ∈ listing.items, Exact item.1.toList) ∧
        ∀ token, listing.nextToken = some token → Exact token.toList) ∧
    ∀ doc : ListDocument, ∃ listing, parseList len doc.events = .ok listing ∧
      (listing.items.map Prod.fst = doc.contents.map keyOf ↔
        ∀ entry ∈ doc.contents, Readable entry) := by
  refine ⟨fun listing => parseList_render, fun doc => ⟨_, parseList_events len doc, ?_⟩⟩
  rw [map_filterMap_eq_iff]
  simp only [itemOf_key_iff]

def cdataKey : ListDocument where
  prolog := []
  name := listRoot
  children := [.element "Contents" [.element "Key" [.cdata "a"],
    .element "Size" [.text [.lit '1']]]]
  epilog := []
  prolog_misc := by simp
  root := by decide
  child := by
    simp only [List.mem_singleton]
    rintro _ rfl
    refine .inr (.inl ⟨by decide, ?_⟩)
    simp only [List.mem_cons, List.not_mem_nil, or_false]
    rintro field (rfl | rfl)
    · exact .inr (.inl ⟨by decide, by simp [IsCharData]⟩)
    · exact .inr (.inr ⟨by decide, by simp [IsCharData]⟩)
  epilog_misc := by simp

/-- The space of a key `" a"` is lost, and an object whose key is a CDATA section not reported. -/
theorem space_and_cdata_lost :
    parseList 0 (render { items := [(" a", 1)], nextToken := none }).events =
        .ok { items := [("a", 1)], nextToken := none } ∧
      cdataKey.contents.map keyOf = ["a"] ∧
      parseList 0 cdataKey.events = .ok { items := [], nextToken := none } := by
  refine ⟨?_, by decide, ?_⟩
  · rw [parseList_events]
    decide
  · rw [parseList_events]
    decide

end Dctl.Store.S3
