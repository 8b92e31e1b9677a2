import Dctl.ProofKit.Checks
import Dctl.Recovery.Names

/-! Logical paths from what a person types, from native paths, and back (`platform/path.rs`).  The
normalization form comes from another library. -/

namespace Dctl.Recovery.Logical

open ProofKit Index Cli.Paths List

def isLogicalSeparator (c : Char) : Bool := c ∈ ['/', '\\']

def normalizeUnicode (nfc : Path → Path) (path : Path) : Path :=
  if path.all fun c => c.toNat < 128 then path else nfc path

/-- The parts that count, unless one of them climbs. -/
def cleanParts : List Path → Option (List Path)
  | [] => some []
  | part :: rest =>
    if part = [] ∨ part = ['.'] then cleanParts rest
    else if part = ['.', '.'] then none
    else (cleanParts rest).map (part :: ·)

def cleanLogical (nfc : Path → Path) (input : Path) : Option Path :=
  (cleanParts (input.splitOnP isLogicalSeparator)).map fun parts =>
    normalizeUnicode nfc (spell parts)

example : cleanLogical id "./a//b\\./c/".toList = some "a/b/c".toList := by decide
example : cleanLogical id "a/../../b".toList = none := by decide

/-- A text of the operating system: characters, and units that are part of none. -/
abbrev OsStr := List (Char ⊕ Nat)

inductive Unrepresentable where
  | notUtf8
  | separator (c : Char)
  | parentDir
  deriving DecidableEq, Repr

inductive Component where
  | disk
  | rootDir
  | curDir
  | parentDir
  | normal (name : OsStr)
  deriving DecidableEq

def isSeparator (os : Os) : Char ⊕ Nat → Bool
  | .inl c => os.isSeparator c
  | .inr _ => false

def takeDisk (os : Os) : OsStr → List Component × OsStr
  | .inl letter :: .inl ':' :: rest =>
    if os = .windows ∧ letter.isAlpha then ([.disk], rest)
    else ([], .inl letter :: .inl ':' :: rest)
  | path => ([], path)

/-- A part between separators; a leading `.` of a path without a root is a component, and any other
one is none. -/
def componentOf (first : Bool) (part : OsStr) : Option Component :=
  if part = [] then none
  else if part = [.inl '.'] then if first then some .curDir else none
  else if part = [.inl '.', .inl '.'] then some .parentDir
  else some (.normal part)

def components (os : Os) (path : OsStr) : List Component :=
  let (disk, rest) := takeDisk os path
  let root := if rest.head?.any (isSeparator os) then [.rootDir] else []
  let parts := rest.splitOnP (isSeparator os)
  disk ++ (root ++ ((parts.take 1).filterMap (componentOf true) ++
    (parts.drop 1).filterMap (componentOf false)))

def toStr (name : OsStr) : Option Path := name.mapM Sum.getLeft?

def toLogicalComponent (nfc : Path → Path) (name : OsStr) : Except Unrepresentable Path :=
  match toStr name with
  | none => .error .notUtf8
  | some name =>
    match name.find? isLogicalSeparator with
    | some found => .error (.separator found)
    | none => .ok (normalizeUnicode nfc name)

def logicalParts (nfc : Path → Path) : List Component → Except Unrepresentable (List Path)
  | [] => .ok []
  | .rootDir :: rest | .disk :: rest | .curDir :: rest => logicalParts nfc rest
  | .parentDir :: _ => .error .parentDir
  | .normal part :: rest => do
    let name ← toLogicalComponent nfc part
    let names ← logicalParts nfc rest
    return name :: names

def toLogical (nfc : Path → Path) (os : Os) (path : OsStr) : Except Unrepresentable Path := do
  let parts ← logicalParts nfc (components os path)
  return spell parts

def osStr (text : String) : OsStr := text.toList.map .inl

example : toLogical id .linux (osStr "./photos//2024/a.jpg") = .ok "photos/2024/a.jpg".toList := by
  decide
example : toLogical id .linux (osStr "a\\b.txt") = .error (.separator '\\') := by decide

/-- Characters that combine with no other one, in any order, and that no other one is normalized to.
-/
def inert : List Char := ['/', '\\', '.']

/-- What the cleaning needs of NFC: idempotent, the identity on ASCII, and blind to inert
characters. -/
structure Canonical (nfc : Path → Path) : Prop where
  idempotent : ∀ path, nfc (nfc path) = nfc path
  ascii : ∀ path : Path, (∀ c ∈ path, c.toNat < 128) → nfc path = path
  nonempty : ∀ path, nfc path = [] → path = []
  around : ∀ a b, ∀ c ∈ inert, nfc (a ++ c :: b) = nfc a ++ c :: nfc b
  no_more : ∀ path, ∀ c ∈ inert, c ∈ nfc path → c ∈ path

variable {nfc : Path → Path} {path input q name : Path} {names : List Path} {os : Os}

theorem Canonical.normalizeUnicode_eq (h : Canonical nfc) (path : Path) :
    normalizeUnicode nfc path = nfc path := by
  unfold normalizeUnicode
  split
  next hascii =>
    rw [all_eq_true] at hascii
    exact (h.ascii path fun c hc => of_decide_eq_true (hascii c hc)).symm
  · rfl

theorem spell_cons {more : List Path} (hmore : more ≠ []) :
    spell (name :: more) = name ++ separator :: spell more := by
  have happend := spell_append (cons_ne_nil name []) hmore
  rwa [singleton_append, show spell [name] = name from intercalate_singleton] at happend

theorem Canonical.nfc_spell (h : Canonical nfc) (names : List Path) :
    nfc (spell names) = spell (names.map nfc) := by
  induction names with
  | nil => exact h.ascii [] (forall_mem_nil _)
  | cons name names ih =>
    cases names with
    | nil => rw [map_singleton, spell, spell, intercalate_singleton, intercalate_singleton]
    | cons second rest =>
      rw [map_cons, spell_cons (cons_ne_nil second rest), h.around _ _ separator (by decide), ih,
        spell_cons (by rw [map_cons]; exact cons_ne_nil _ _)]

/-- A name of a cleaned path. -/
structure Plain (name : Path) : Prop where
  nonempty : name ≠ []
  ne_dot : name ≠ ['.']
  ne_dots : name ≠ ['.', '.']
  clean : ∀ c ∈ name, isLogicalSeparator c = false

theorem not_logicalSeparator_iff {c : Char} :
    isLogicalSeparator c = false ↔ c ≠ '/' ∧ c ≠ '\\' := by
  unfold isLogicalSeparator
  simp

theorem Plain.not_mem (h : Plain name) : separator ∉ name := fun hmem =>
  (not_logicalSeparator_iff.mp (h.clean separator hmem)).1 rfl

theorem pieces_of_plain (h : ∀ name ∈ names, Plain name) : Pieces separator names :=
  fun name hname => ⟨(h name hname).nonempty, (h name hname).not_mem⟩

theorem Canonical.dots (h : Canonical nfc) (hname : ∀ c ∈ nfc name, c = '.') : nfc name = name := by
  obtain ⟨n, hn⟩ : ∃ n, (nfc name).length = n := ⟨_, rfl⟩
  induction n using Nat.strong_induction_on generalizing name with
  | _ n ih =>
    cases hnfc : nfc name with
    | nil => exact (h.nonempty name hnfc).symm
    | cons c rest =>
      have hc : c = '.' := hname c (by rw [hnfc]; exact mem_cons_self)
      have hmem := h.no_more name '.' (by decide) (by rw [hnfc, hc]; exact mem_cons_self)
      obtain ⟨a, b, rfl⟩ := append_of_mem hmem
      have hsplit := h.around a b '.' (by decide)
      have hlen := congrArg List.length hsplit
      rw [length_append, length_cons] at hlen
      have ha := ih (nfc a).length (by omega) (fun x hx => hname x (by rw [hsplit]; simp [hx])) rfl
      have hb := ih (nfc b).length (by omega) (fun x hx => hname x (by rw [hsplit]; simp [hx])) rfl
      rw [← hnfc, hsplit, ha, hb]

theorem Plain.normalized (h : Canonical nfc) (hname : Plain name) : Plain (nfc name) := by
  have hdots : ∀ n, nfc name = List.replicate n '.' → name = List.replicate n '.' := by
    intro n heq
    rw [← heq]
    exact (h.dots fun c hc => eq_of_mem_replicate (heq ▸ hc)).symm
  refine ⟨fun hnil => hname.nonempty (h.nonempty name hnil), fun heq => hname.ne_dot (hdots 1 heq),
    fun heq => hname.ne_dots (hdots 2 heq), fun c hc => ?_⟩
  rw [not_logicalSeparator_iff]
  constructor
  · rintro rfl
    exact absurd (hname.clean _ (h.no_more name _ (by decide) hc)) (by decide)
  · rintro rfl
    exact absurd (hname.clean _ (h.no_more name _ (by decide) hc)) (by decide)

theorem clean_of_mem_splitOnP {p : Char → Bool} (hname : name ∈ path.splitOnP p) {c : Char}
    (hc : c ∈ name) : p c = false := by
  induction path generalizing name with
  | nil =>
    rw [splitOnP_nil, mem_singleton] at hname
    rw [hname] at hc
    cases hc
  | cons a path ih =>
    rw [splitOnP_cons_eq_if_modifyHead] at hname
    cases ha : p a with
    | true =>
      rw [ha, if_pos rfl] at hname
      rcases mem_cons.mp hname with rfl | hname
      · cases hc
      · exact ih hname hc
    | false =>
      rw [ha, if_neg Bool.false_ne_true] at hname
      obtain ⟨first, rest, hsplit⟩ := exists_cons_of_ne_nil (splitOnP_ne_nil p path)
      rw [hsplit, modifyHead_cons] at hname
      rcases mem_cons.mp hname with rfl | hname
      · rcases mem_cons.mp hc with rfl | hc
        · exact ha
        · exact ih (by rw [hsplit]; exact mem_cons_self) hc
      · exact ih (by rw [hsplit]; exact mem_cons_of_mem _ hname) hc

theorem cleanParts_eq_some {parts : List Path} : cleanParts parts = some names ↔
    ['.', '.'] ∉ parts ∧ names = parts.filter fun part => part ≠ [] ∧ part ≠ ['.'] := by
  induction parts generalizing names with
  | nil =>
    rw [cleanParts, Option.some.injEq]
    simp [eq_comm]
  | cons part rest ih =>
    rw [cleanParts]
    by_cases hskip : part = [] ∨ part = ['.']
    · rw [if_pos hskip, ih, filter_cons, if_neg (by rcases hskip with rfl | rfl <;> simp)]
      rcases hskip with rfl | rfl <;> simp
    · rw [if_neg hskip]
      by_cases hclimb : part = ['.', '.']
      · rw [if_pos hclimb]
        simp [hclimb]
      · rw [if_neg hclimb, Option.map_eq_some_iff, filter_cons, if_pos (by simpa using hskip),
          mem_cons, not_or]
        constructor
        · rintro ⟨more, hmore, rfl⟩
          obtain ⟨hnot, rfl⟩ := ih.mp hmore
          exact ⟨⟨Ne.symm hclimb, hnot⟩, rfl⟩
        · rintro ⟨⟨-, hnot⟩, rfl⟩
          exact ⟨_, ih.mpr ⟨hnot, rfl⟩, rfl⟩

theorem plain_of_cleanParts (h : cleanParts (input.splitOnP isLogicalSeparator) = some names) :
    ∀ name ∈ names, Plain name := by
  obtain ⟨hnot, rfl⟩ := cleanParts_eq_some.mp h
  intro name hname
  obtain ⟨hpart, hkeep⟩ := mem_filter.mp hname
  simp only [ne_eq, decide_eq_true_eq] at hkeep
  exact ⟨hkeep.1, hkeep.2, fun heq => hnot (heq ▸ hpart),
    fun c hc => clean_of_mem_splitOnP hpart hc⟩

theorem splitOnP_spell (h : ∀ name ∈ names, Plain name) (hne : names ≠ []) :
    (spell names).splitOnP isLogicalSeparator = names := by
  induction names with
  | nil => exact absurd rfl hne
  | cons name rest ih =>
    obtain ⟨hname, hrest⟩ := forall_mem_cons.mp h
    by_cases hnil : rest = []
    · rw [hnil, spell, intercalate_singleton, splitOnP_eq_singleton hname.clean]
    · rw [spell_cons hnil, splitOnP_append_cons_of_forall_mem hname.clean separator (by decide),
        ih hrest hnil]

theorem cleanParts_spell (h : ∀ name ∈ names, Plain name) :
    cleanParts ((spell names).splitOnP isLogicalSeparator) = some names := by
  by_cases hnil : names = []
  · rw [hnil]
    decide
  · rw [splitOnP_spell h hnil, cleanParts_eq_some]
    refine ⟨fun hmem => (h _ hmem).ne_dots rfl, (filter_eq_self.mpr fun name hname => ?_).symm⟩
    exact decide_eq_true ⟨(h name hname).nonempty, (h name hname).ne_dot⟩

def Cleaned (nfc : Path → Path) (path : Path) : Prop :=
  ∃ names, (∀ name ∈ names, Plain name ∧ nfc name = name) ∧ path = spell names

theorem Cleaned.of_plain (h : Canonical nfc) (hnames : ∀ name ∈ names, Plain name) :
    Cleaned nfc (normalizeUnicode nfc (spell names)) := by
  refine ⟨names.map nfc, fun name hname => ?_, by rw [h.normalizeUnicode_eq, h.nfc_spell]⟩
  obtain ⟨part, hpart, rfl⟩ := mem_map.mp hname
  exact ⟨(hnames part hpart).normalized h, h.idempotent part⟩

theorem cleaned_of_cleanLogical (h : Canonical nfc) (hclean : cleanLogical nfc input = some q) :
    Cleaned nfc q := by
  obtain ⟨names, hparts, rfl⟩ := Option.map_eq_some_iff.mp hclean
  exact .of_plain h (plain_of_cleanParts hparts)

theorem Cleaned.cleanLogical (h : Canonical nfc) (hq : Cleaned nfc q) :
    cleanLogical nfc q = some q := by
  obtain ⟨names, hnames, rfl⟩ := hq
  rw [Logical.cleanLogical, cleanParts_spell fun name hname => (hnames name hname).1,
    Option.map_some, h.normalizeUnicode_eq, h.nfc_spell,
    map_congr_left fun name hname => (hnames name hname).2, map_id']

theorem mem_of_toStr {part : OsStr} (h : toStr part = some name) : part = name.map .inl := by
  induction part generalizing name with
  | nil =>
    obtain rfl : [] = name := Option.some.inj h
    rfl
  | cons unit part ih =>
    rw [toStr, mapM_cons] at h
    obtain ⟨c, hc, h⟩ := Option.bind_eq_some_iff.mp h
    obtain ⟨rest, hrest, h⟩ := Option.bind_eq_some_iff.mp h
    obtain rfl := Option.some.inj h
    rw [ih hrest, map_cons, Sum.getLeft?_eq_some_iff.mp hc]

theorem takeDisk_cases (os : Os) (path : OsStr) :
    (takeDisk os path).1 = [] ∨ (takeDisk os path).1 = [.disk] := by
  unfold takeDisk
  split
  · split
    · exact .inr rfl
    · exact .inl rfl
  · exact .inl rfl

theorem normal_of_componentOf {first : Bool} {part p : OsStr}
    (h : componentOf first p = some (.normal part)) :
    part ≠ [] ∧ part ≠ [.inl '.'] ∧ part ≠ [.inl '.', .inl '.'] := by
  unfold componentOf at h
  split at h
  · cases h
  next hnil =>
    split at h
    · split at h <;> cases h
    next hdot =>
      split at h
      · cases h
      next hdots =>
        obtain rfl := Component.normal.inj (Option.some.inj h)
        exact ⟨hnil, hdot, hdots⟩

theorem normal_of_mem_components {path part : OsStr} (h : .normal part ∈ components os path) :
    part ≠ [] ∧ part ≠ [.inl '.'] ∧ part ≠ [.inl '.', .inl '.'] := by
  unfold components at h
  dsimp only at h
  rcases mem_append.mp h with hdisk | h
  · rcases takeDisk_cases os path with hnone | hsome
    · rw [hnone] at hdisk
      cases hdisk
    · rw [hsome] at hdisk
      cases mem_singleton.mp hdisk
  · rcases mem_append.mp h with hroot | h
    · split at hroot
      · cases mem_singleton.mp hroot
      · cases hroot
    · rcases mem_append.mp h with hpart | hpart
      · obtain ⟨p, -, hp⟩ := mem_filterMap.mp hpart
        exact normal_of_componentOf hp
      · obtain ⟨p, -, hp⟩ := mem_filterMap.mp hpart
        exact normal_of_componentOf hp

theorem plain_of_toLogicalComponent {part : OsStr} (h : Canonical nfc)
    (hpart : part ≠ [] ∧ part ≠ [.inl '.'] ∧ part ≠ [.inl '.', .inl '.'])
    (hok : toLogicalComponent nfc part = .ok name) : Plain name ∧ nfc name = name := by
  unfold toLogicalComponent at hok
  split at hok
  · cases hok
  next text htext =>
    obtain rfl := mem_of_toStr htext
    split at hok
    · cases hok
    next hnone =>
      have hplain : Plain text := by
        refine ⟨?_, ?_, ?_, fun c hc => ?_⟩
        · rintro rfl
          exact hpart.1 rfl
        · rintro rfl
          exact hpart.2.1 rfl
        · rintro rfl
          exact hpart.2.2 rfl
        · exact Bool.eq_false_iff.mpr (List.find?_eq_none.mp hnone c hc)
      rw [h.normalizeUnicode_eq] at hok
      obtain rfl := Except.ok.inj hok
      exact ⟨hplain.normalized h, h.idempotent text⟩

theorem plain_of_logicalParts {parts : List Component} (h : Canonical nfc)
    (hparts : ∀ part, .normal part ∈ parts → part ≠ [] ∧ part ≠ [.inl '.'] ∧
      part ≠ [.inl '.', .inl '.'])
    (hok : logicalParts nfc parts = .ok names) : ∀ name ∈ names, Plain name ∧ nfc name = name := by
  induction parts generalizing names with
  | nil =>
    obtain rfl : [] = names := Except.ok.inj hok
    exact forall_mem_nil _
  | cons part rest ih =>
    have hrest := fun p hp => hparts p (mem_cons_of_mem _ hp)
    cases part with
    | disk => exact ih hrest hok
    | rootDir => exact ih hrest hok
    | curDir => exact ih hrest hok
    | parentDir => cases hok
    | normal part =>
      rw [logicalParts, bind_eq_ok] at hok
      obtain ⟨name, hname, hok⟩ := hok
      rw [bind_eq_ok] at hok
      obtain ⟨more, hmore, hok⟩ := hok
      obtain rfl := Except.ok.inj hok
      exact forall_mem_cons.mpr ⟨plain_of_toLogicalComponent h (hparts part mem_cons_self) hname,
        ih hrest hmore⟩

theorem cleaned_of_toLogical {path : OsStr} (h : Canonical nfc)
    (hok : toLogical nfc os path = .ok q) : Cleaned nfc q := by
  rw [toLogical, bind_eq_ok] at hok
  obtain ⟨parts, hparts, hok⟩ := hok
  obtain rfl := Except.ok.inj hok
  exact ⟨parts, plain_of_logicalParts h (fun part hpart =>
    normal_of_mem_components hpart) hparts, rfl⟩

/-- The native path lies below the root, in names that stay names on the platform. -/
def Below (os : Os) (root : Path) (native : Native) : Prop :=
  native.base = root ∧ ∀ name ∈ native.names, name ≠ [] ∧ name ≠ ['.'] ∧ name ≠ ['.', '.'] ∧
    ∀ c ∈ name, os.isSeparator c = false

theorem Cleaned.segments (h : Cleaned nfc q) : ∀ name ∈ segments separator q, Plain name := by
  obtain ⟨names, hnames, rfl⟩ := h
  rw [segments_spell (pieces_of_plain fun name hname => (hnames name hname).1)]
  exact fun name hname => (hnames name hname).1

theorem Cleaned.below {root : Path} (h : Cleaned nfc q)
    (hdrive : os = .windows → ∀ name ∈ ProofKit.segments separator q, hasDrive name = false) :
    Below os root (fromLogical os root q) := by
  rw [fromLogical_eq fun name hname hos => hdrive hos name hname]
  refine ⟨rfl, fun name hname => ?_⟩
  have hplain := h.segments name hname
  refine ⟨hplain.nonempty, hplain.ne_dot, hplain.ne_dots, fun c hc => ?_⟩
  obtain ⟨hslash, hback⟩ := not_logicalSeparator_iff.mp (hplain.clean c hc)
  unfold Os.isSeparator
  simp [hslash, hback]

theorem Cleaned.isUnder_iff {a b : Path} (ha : Cleaned nfc a) (hb : Cleaned nfc b) :
    isUnder a b = true ↔ ProofKit.segments separator a <+: ProofKit.segments separator b := by
  obtain ⟨names, hnames, rfl⟩ := ha
  obtain ⟨more, hmore, rfl⟩ := hb
  have hpieces : Pieces separator names := pieces_of_plain fun name hname => (hnames name hname).1
  have hpieces' : Pieces separator more := pieces_of_plain fun name hname => (hmore name hname).1
  rw [segments_spell hpieces, segments_spell hpieces']
  by_cases hnil : names = []
  · rw [hnil]
    exact iff_of_true (isUnder_nil _) nil_prefix
  · rw [isUnder_spell hpieces hnil]
    constructor
    · rintro (heq | ⟨rest, heq⟩)
      · rw [spell_injective hpieces' hpieces heq]
      · have hsegments := congrArg (ProofKit.segments separator) heq
        rw [segments_append, segments_spell hpieces, segments_spell hpieces'] at hsegments
        exact ⟨_, hsegments.symm⟩
    · rintro ⟨rest, rfl⟩
      by_cases hrest : rest = []
      · rw [hrest, append_nil]
        exact .inl rfl
      · exact .inr ⟨spell rest, spell_append hnil hrest⟩

theorem Cleaned.splitOn (h : Cleaned nfc q) : q = [] ∨ ∀ name ∈ q.splitOn separator,
    name ≠ [] ∧ name ≠ ['.'] ∧ name ≠ ['.', '.'] ∧ '\\' ∉ name := by
  obtain ⟨names, hnames, rfl⟩ := h
  by_cases hnil : names = []
  · rw [hnil]
    exact .inl rfl
  · right
    rw [spell, splitOn_intercalate separator (fun name hname => (hnames name hname).1.not_mem) hnil]
    intro name hname
    obtain ⟨hplain, -⟩ := hnames name hname
    exact ⟨hplain.nonempty, hplain.ne_dot, hplain.ne_dots,
      fun hmem => absurd (hplain.clean _ hmem) (by decide)⟩

/-- Cleaning is idempotent and leaves plain components; what a walk gives is cleaned; a cleaned path
stays below the root that it is put under, on Windows where none of its names has a drive; and one
cleaned path is under another exactly when the other's names are the first of its own. -/
theorem cleaned_paths (h : Canonical nfc) :
    (∀ input q, cleanLogical nfc input = some q → cleanLogical nfc q = some q ∧
      (q = [] ∨ ∀ name ∈ q.splitOn separator, name ≠ [] ∧ name ≠ ['.'] ∧ name ≠ ['.', '.'] ∧
        '\\' ∉ name)) ∧
    (∀ os path q, toLogical nfc os path = .ok q → cleanLogical nfc q = some q) ∧
    (∀ os root input q, cleanLogical nfc input = some q →
      (os = .windows → ∀ name ∈ ProofKit.segments separator q, hasDrive name = false) →
        Below os root (fromLogical os root q)) ∧
    ∀ input input' dir child, cleanLogical nfc input = some dir →
      cleanLogical nfc input' = some child →
      (isUnder dir child = true ↔
        ProofKit.segments separator dir <+: ProofKit.segments separator child) := by
  refine ⟨fun input q hq => ?_, fun os path q hq => (cleaned_of_toLogical h hq).cleanLogical h,
    fun os root input q hq hdrive => (cleaned_of_cleanLogical h hq).below hdrive,
    fun input input' dir child hdir hchild =>
      (cleaned_of_cleanLogical h hdir).isUnder_iff (cleaned_of_cleanLogical h hchild)⟩
  have hcleaned := cleaned_of_cleanLogical h hq
  exact ⟨hcleaned.cleanLogical h, hcleaned.splitOn⟩

theorem canonical_id : Canonical id :=
  ⟨fun _ => rfl, fun _ _ => rfl, fun _ h => h, fun _ _ _ _ => rfl, fun _ _ _ h => h⟩

theorem cleaned_paths_photos : cleanLogical id "photos/a.jpg".toList = some "photos/a.jpg".toList ∧
    Below .linux "root".toList (fromLogical .linux "root".toList "photos/a.jpg".toList) ∧
    isUnder "photos".toList "photos/a.jpg".toList = true := by
  obtain ⟨hclean, hwalk, hbelow, hunder⟩ := cleaned_paths canonical_id
  exact ⟨(hclean "./photos\\a.jpg".toList _ (by decide)).1, hbelow .linux _ "photos/a.jpg".toList _
    (by decide) (fun hos => by cases hos),
    (hunder "photos".toList "photos/a.jpg".toList _ _ (by decide) (by decide)).mpr (by decide)⟩

/-- An object in a directory is under it though its names are not the first of the directory's; and
on Windows a name with a drive takes the place of the root. -/
theorem under_and_drive : isUnder "photos".toList "photos/a.jpg".toList = true ∧
    ¬ProofKit.segments separator "photos/a.jpg".toList <+:
      ProofKit.segments separator "photos".toList ∧
    cleanLogical id "C:/x".toList = some "C:/x".toList ∧
    ¬Below .windows "D:\\restore".toList
      (fromLogical .windows "D:\\restore".toList "C:/x".toList) := by
  refine ⟨by decide, by decide, by decide, fun hbelow => ?_⟩
  have hbase : "C:".toList = "D:\\restore".toList := hbelow.1
  exact absurd hbase (by decide)

end Dctl.Recovery.Logical
