import Dctl.Cli.RemoteSpec
import Dctl.Recovery.Logical

/-! How a command-line argument is classified (`remote/spec.rs`): a path of this machine, or a
remote and a logical path inside it.  What a spec is displayed as is read back as the same spec, but
for two kinds of argument: a path behind the prefix `local:` that would be read as something else
without it, and a remote whose name is normalized to a drive letter. -/

namespace Dctl.Cli.Classify

open ProofKit Paths Recovery.Logical List

def looksLikeWindowsDrive : Path → Bool
  | letter :: ':' :: _ => letter.isAlpha
  | _ => false

def looksLikeUnc (spec : Path) : Bool := ['\\', '\\'].isPrefixOf spec

def isDriveLetter : Path → Bool
  | [letter] => letter.isAlpha
  | _ => false

def looksLocalOn (spec : Path) (driveLetters : Bool) : Bool :=
  looksLikeUnc spec || (driveLetters && looksLikeWindowsDrive spec)

def namesARemote (candidate : Path) : Bool :=
  candidate ≠ [] && candidate.head? ≠ some '.' && !candidate.any isLogicalSeparator

def splitOnce (text : Path) : Option (Path × Path) :=
  match text.dropWhile (· ≠ ':') with
  | [] => none
  | _ :: rest => some (text.takeWhile (· ≠ ':'), rest)

inductive ParentDirUse where
  | inside (resolved : Path)
  | escapes
  deriving DecidableEq

/-- The loop over the parts, with those that are left and whether there was a `..`. -/
def parentDirUse (nfc : Path → Path) : List Path → List Path → Bool → Option ParentDirUse
  | [], resolved, saw => if saw then some (.inside (normalizeUnicode nfc (spell resolved)))
    else none
  | part :: rest, resolved, saw =>
    if part = [] ∨ part = ['.'] then parentDirUse nfc rest resolved saw
    else if part = ['.', '.'] then
      if resolved = [] then some .escapes else parentDirUse nfc rest resolved.dropLast true
    else parentDirUse nfc rest (resolved ++ [part]) saw

def classifyParentDir (nfc : Path → Path) (input : Path) : Option ParentDirUse :=
  parentDirUse nfc (input.splitOnP isLogicalSeparator) [] false

def parentDirRefusal (nfc : Path → Path) (spec : String) (remote path : Path) : String × String :=
  match classifyParentDir nfc path with
  | some (.inside resolved) =>
    ("'" ++ spec ++ "' contains '..', which a logical path does not resolve",
      "'..' is refused wherever it appears, including where it cancels out: a logical path is a " ++
        "key rather than a filesystem path, and rewriting the one you typed into a different " ++
        "one is how data reaches the wrong place. Name it directly as '" ++ String.ofList remote ++
          remoteSeparator ++ String.ofList resolved ++ "'.")
  | _ =>
    ("'" ++ spec ++ "' climbs above the root of '" ++ String.ofList remote ++ "'",
      "A logical path is always relative to the remote's root, so a '..' that reaches past it " ++
        "has nothing to name. Address the directory directly.")

def isAbsolute : Path → Bool
  | first :: second :: _ => isLogicalSeparator first && isLogicalSeparator second
  | _ => false

def sftpPath (nfc : Path → Path) (rest : Path) : Option Path :=
  let host := rest.takeWhile fun c => !isLogicalSeparator c
  let dir := rest.dropWhile fun c => !isLogicalSeparator c
  (cleanLogical nfc dir).map fun cleaned =>
    if cleaned = [] then normalizeUnicode nfc host
    else if isAbsolute dir then normalizeUnicode nfc host ++ '/' :: '/' :: cleaned
    else normalizeUnicode nfc host ++ '/' :: cleaned

def remotePath (nfc : Path → Path) (candidate rest : Path) : Option Path :=
  if candidate = "sftp".toList then sftpPath nfc rest else cleanLogical nfc rest

def classify (nfc : Path → Path) (input : String) (driveLetters : Bool) :
    Except CliError RemoteSpec :=
  if input = "" then
    .error ((CliError.ofUsage "empty remote spec").withHint
      "Give a path, or a configured remote as 'name:path'.")
  else if looksLocalOn input.toList driveLetters then .ok (.local input)
  else match splitOnce input.toList with
    | none => .ok (.local input)
    | some (candidate, rest) =>
      if namesARemote candidate = false then .ok (.local input)
      else if candidate = "local".toList then .ok (.local (String.ofList rest))
      else match remotePath nfc candidate rest with
        | none =>
          let refusal := parentDirRefusal nfc input candidate rest
          .error ((CliError.ofUsage refusal.1).withHint refusal.2)
        | some path =>
          .ok (.named (String.ofList (normalizeUnicode nfc candidate)) (String.ofList path))

example : classify id "sftp:host//srv/./data" false = .ok (.named "sftp" "host//srv/data") := by
  decide
example : classify id "C:relative" true = .ok (.local "C:relative") := by decide
example : classify id "r:photos\\2024" false = .ok (.named "r" "photos/2024") := by decide

variable {nfc : Path → Path} {text name candidate rest dir path q : Path} {d : Bool}
  {spec : RemoteSpec}

theorem splitOnce_append (h : ':' ∉ name) :
    splitOnce (name ++ ':' :: rest) = some (name, rest) := by
  have hbefore : ∀ c ∈ name, decide (c ≠ ':') = true :=
    fun c hc => decide_eq_true fun heq => h (heq ▸ hc)
  unfold splitOnce
  rw [dropWhile_append_of_pos hbefore, takeWhile_append_of_pos hbefore,
    dropWhile_cons_of_neg (by decide), takeWhile_cons_of_neg (by decide), append_nil]

theorem splitOnce_of_not_mem (h : ':' ∉ text) : splitOnce text = none := by
  have hall : ∀ c ∈ text, decide (c ≠ ':') = true :=
    fun c hc => decide_eq_true fun heq => h (heq ▸ hc)
  unfold splitOnce
  rw [dropWhile_eq_nil_iff.mpr hall]

theorem splitOnce_eq_some (h : splitOnce text = some (name, rest)) :
    text = name ++ ':' :: rest ∧ ':' ∉ name := by
  by_cases hmem : ':' ∈ text
  · obtain ⟨a, b, rfl, ha⟩ := eq_append_cons_of_mem hmem
    rw [splitOnce_append ha] at h
    obtain ⟨rfl, rfl⟩ := Prod.mk.inj (Option.some.inj h)
    exact ⟨rfl, ha⟩
  · rw [splitOnce_of_not_mem hmem] at h
    cases h

/-- What is known of the normalization form: it makes no colon, and of the texts that are normalized
to ASCII only those with a `K`, a `;` or a backtick were another text before (the Kelvin sign, the
Greek question mark and the varia). -/
structure CanonicalNames (nfc : Path → Path) : Prop extends Canonical nfc where
  colon : ∀ text, ':' ∈ nfc text → ':' ∈ text
  ascii_of : ∀ text, (∀ c ∈ nfc text, c.toNat < 128 ∧ c ≠ 'K' ∧ c ≠ ';' ∧ c.toNat ≠ 96) →
    nfc text = text

theorem namesARemote_iff : namesARemote name = true ↔
    name ≠ [] ∧ name.head? ≠ some '.' ∧ ∀ c ∈ name, isLogicalSeparator c = false := by
  unfold namesARemote
  simp [and_assoc]

theorem clean_nfc (h : Canonical nfc) (hclean : ∀ c ∈ name, isLogicalSeparator c = false) :
    ∀ c ∈ nfc name, isLogicalSeparator c = false := by
  intro c hc
  rw [not_logicalSeparator_iff]
  constructor
  · rintro rfl
    exact absurd (hclean _ (h.no_more name _ (by decide) hc)) (by decide)
  · rintro rfl
    exact absurd (hclean _ (h.no_more name _ (by decide) hc)) (by decide)

theorem namesARemote_nfc (h : Canonical nfc) (hname : namesARemote name = true) :
    namesARemote (nfc name) = true := by
  obtain ⟨hne, hdot, hclean⟩ := namesARemote_iff.mp hname
  refine namesARemote_iff.mpr ⟨fun hnil => hne (h.nonempty name hnil), fun hhead => ?_,
    fun c hc => ?_⟩
  · have hmem : '.' ∈ nfc name := mem_of_head? hhead
    obtain ⟨a, b, rfl, ha⟩ := eq_append_cons_of_mem (h.no_more name '.' (by decide) hmem)
    rw [h.around a b '.' (by decide)] at hhead
    cases hnfc : nfc a with
    | nil =>
      obtain rfl := h.nonempty a hnfc
      exact hdot rfl
    | cons c more =>
      rw [hnfc, cons_append, List.head?_cons, Option.some.injEq] at hhead
      exact ha (h.no_more a '.' (by decide) (by rw [hnfc, hhead]; exact mem_cons_self))
  · exact clean_nfc h hclean c hc

theorem looksLocalOn_named (hname : namesARemote name = true) (hcolon : ':' ∉ name) :
    looksLocalOn (name ++ ':' :: rest) d = (d && isDriveLetter name) := by
  obtain ⟨hne, -, hclean⟩ := namesARemote_iff.mp hname
  cases name with
  | nil => exact absurd rfl hne
  | cons first more =>
    have hfirst : first ≠ '\\' := (not_logicalSeparator_iff.mp (hclean first mem_cons_self)).2
    have hunc : looksLikeUnc (first :: more ++ ':' :: rest) = false := by
      change ('\\' == first && _) = false
      rw [beq_false_of_ne hfirst.symm, Bool.false_and]
    unfold looksLocalOn
    rw [hunc, Bool.false_or]
    cases more with
    | nil => rfl
    | cons second more =>
      have hsecond : second ≠ ':' := fun heq => hcolon (heq ▸ mem_cons_of_mem _ mem_cons_self)
      have hdrive : looksLikeWindowsDrive (first :: second :: more ++ ':' :: rest) = false := by
        simp only [cons_append]
        unfold looksLikeWindowsDrive
        split
        next heq => exact absurd (List.cons.inj (List.cons.inj heq).2).1 hsecond
        next => rfl
      rw [hdrive]
      rfl

theorem cleanLogical_cons {c : Char} (hc : isLogicalSeparator c = true) :
    cleanLogical nfc (c :: text) = cleanLogical nfc text := by
  unfold cleanLogical
  rw [splitOnP_cons_eq_if_modifyHead, if_pos hc, cleanParts, if_pos (.inl rfl)]

theorem head_of_cleaned (h : Cleaned nfc q) : ∀ c ∈ q.head?, isLogicalSeparator c = false := by
  obtain ⟨names, hnames, rfl⟩ := h
  intro c hc
  cases names with
  | nil => cases hc
  | cons first more =>
    obtain ⟨hplain, -⟩ := hnames first mem_cons_self
    obtain ⟨x, tail, rfl⟩ := exists_cons_of_ne_nil hplain.nonempty
    obtain rfl : x = c := by
      by_cases hmore : more = []
      · rw [hmore, spell, intercalate_singleton] at hc
        exact Option.some.inj hc
      · rw [spell_cons hmore] at hc
        exact Option.some.inj hc
    exact hplain.clean x mem_cons_self

theorem sftpPath_append (hhost : ∀ c ∈ name, isLogicalSeparator c = false)
    (hdir : ∀ c ∈ dir.head?, isLogicalSeparator c = true) : sftpPath nfc (name ++ dir) =
      (cleanLogical nfc dir).map fun cleaned =>
        if cleaned = [] then normalizeUnicode nfc name
        else if isAbsolute dir then normalizeUnicode nfc name ++ '/' :: '/' :: cleaned
        else normalizeUnicode nfc name ++ '/' :: cleaned := by
  have hbefore : ∀ c ∈ name, (!isLogicalSeparator c) = true := fun c hc => by rw [hhost c hc]; rfl
  have hafter : dir.takeWhile (fun c => !isLogicalSeparator c) = [] ∧
      dir.dropWhile (fun c => !isLogicalSeparator c) = dir := by
    cases dir with
    | nil => exact ⟨rfl, rfl⟩
    | cons c more =>
      have hc : ¬(!isLogicalSeparator c) = true := by
        rw [hdir c rfl]
        exact Bool.false_ne_true
      exact ⟨takeWhile_cons_of_neg hc, dropWhile_cons_of_neg hc⟩
  unfold sftpPath
  rw [takeWhile_append_of_pos hbefore, dropWhile_append_of_pos hbefore, hafter.1,
    hafter.2, append_nil]

/-- The path of the shorthand is read back. -/
theorem sftpPath_idem (h : Canonical nfc) (hpath : sftpPath nfc rest = some q) :
    sftpPath nfc q = some q := by
  obtain ⟨cleaned, hclean, rfl⟩ := Option.map_eq_some_iff.mp hpath
  have hcleaned := cleaned_of_cleanLogical h hclean
  have hagain := hcleaned.cleanLogical h
  have hbefore : ∀ c ∈ rest.takeWhile fun c => !isLogicalSeparator c,
      isLogicalSeparator c = false := by
    intro c hc
    simpa using mem_takeWhile_imp hc
  generalize hhost : normalizeUnicode nfc (rest.takeWhile fun c => !isLogicalSeparator c) = host
  have hnormal : normalizeUnicode nfc host = host := by
    rw [← hhost, h.normalizeUnicode_eq, h.normalizeUnicode_eq, h.idempotent]
  have hplain : ∀ c ∈ host, isLogicalSeparator c = false := by
    rw [← hhost, h.normalizeUnicode_eq]
    exact clean_nfc h hbefore
  by_cases hnil : cleaned = []
  · have hnone : cleanLogical nfc [] = some [] := by
      rw [hnil] at hagain
      exact hagain
    have hempty : sftpPath nfc (host ++ []) = _ := sftpPath_append hplain fun _ hc => by cases hc
    rw [append_nil, hnone, Option.map_some, if_pos rfl, hnormal] at hempty
    rw [if_pos hnil]
    exact hempty
  · rw [if_neg hnil]
    split
    next =>
      have habsolute : isAbsolute ('/' :: '/' :: cleaned) = true := rfl
      rw [sftpPath_append hplain (by rintro c ⟨⟩; rfl), cleanLogical_cons rfl,
        cleanLogical_cons rfl, hagain, Option.map_some, if_neg hnil, if_pos habsolute, hnormal]
    next =>
      have hrelative : isAbsolute ('/' :: cleaned) = false := by
        obtain ⟨c, more, rfl⟩ := exists_cons_of_ne_nil hnil
        change (isLogicalSeparator '/' && isLogicalSeparator c) = false
        rw [head_of_cleaned hcleaned c rfl, Bool.and_false]
      rw [sftpPath_append hplain (by rintro c ⟨⟩; rfl), cleanLogical_cons rfl, hagain,
        Option.map_some, if_neg hnil, if_neg (by rw [hrelative]; exact Bool.false_ne_true), hnormal]

theorem forall_mem_of_all {p : Char → Prop} [DecidablePred p]
    (h : text.all (fun c => decide (p c)) = true) :
    ∀ c ∈ text, p c := fun c hc => of_decide_eq_true (all_eq_true.mp h c hc)

theorem CanonicalNames.eq_of_nfc (h : CanonicalNames nfc) {word : Path}
    (hword : ∀ c ∈ word, c.toNat < 128 ∧ c ≠ 'K' ∧ c ≠ ';' ∧ c.toNat ≠ 96)
      (hnfc : nfc name = word) :
    name = word := by
  rw [← hnfc]
  exact (h.ascii_of name fun c hc => hword c (hnfc ▸ hc)).symm

theorem remotePath_idem (h : CanonicalNames nfc) (hpath : remotePath nfc name rest = some q) :
    remotePath nfc (nfc name) q = some q := by
  unfold remotePath at hpath ⊢
  split at hpath
  next hsftp =>
    have hname : nfc name = "sftp".toList := by
      rw [hsftp]
      exact h.ascii _ (forall_mem_of_all (by decide))
    rw [if_pos hname]
    exact sftpPath_idem h.toCanonical hpath
  next hsftp =>
    rw [if_neg fun heq => hsftp (h.eq_of_nfc (forall_mem_of_all (by decide)) heq)]
    exact (cleaned_of_cleanLogical h.toCanonical hpath).cleanLogical h.toCanonical

def counted (parts : List Path) : List String :=
  (parts.map String.ofList).filter fun part => part ≠ "" && part ≠ "."

theorem ofList_eq_iff {w : String} : String.ofList text = w ↔ text = w.toList := by
  rw [← String.toList_inj, String.toList_ofList]

theorem counted_cons (part : Path) (more : List Path) :
    counted (part :: more) = if part = [] ∨ part = ['.'] then counted more
      else String.ofList part :: counted more := by
  have hnil : String.ofList part = "" ↔ part = [] := ofList_eq_iff
  have hdot : String.ofList part = "." ↔ part = ['.'] := ofList_eq_iff
  rw [counted, map_cons, filter_cons, counted]
  by_cases hskip : part = [] ∨ part = ['.']
  · rw [if_pos hskip, if_neg (by simpa [hnil, hdot, or_iff_not_imp_left] using hskip)]
  · rw [if_neg hskip, if_pos (by simpa [hnil, hdot] using hskip)]

theorem components_ofList (p : Path) : OsPath.components (String.ofList p) =
    if p.head? = some '/' then OsPath.rootDir :: counted (p.splitOn '/')
    else if (p.splitOn '/').head? = some ['.'] then "." :: counted (p.splitOn '/')
    else counted (p.splitOn '/') := by
  have hdot : ((p.splitOn '/').map String.ofList).head? = some "." ↔
      (p.splitOn '/').head? = some ['.'] := by
    rw [List.head?_map, Option.map_eq_some_iff]
    simp only [ofList_eq_iff]
    exact ⟨fun ⟨a, ha, heq⟩ => ha.trans (congrArg some heq), fun h => ⟨_, h, rfl⟩⟩
  unfold OsPath.components
  rw [String.toList_ofList]
  exact ite_congr rfl (fun _ => rfl) fun _ => ite_congr (propext hdot) (fun _ => rfl) fun _ => rfl

theorem components_local_ne (p : Path) :
    OsPath.components (String.ofList ("local:".toList ++ p)) ≠
      OsPath.components (String.ofList p) := by
  obtain ⟨first, more, hsplit⟩ := exists_cons_of_ne_nil (splitOn_ne_nil '/' p)
  have hlocal : ("local:".toList ++ p).splitOn '/' = ("local:".toList ++ first) :: more := by
    simp [splitOn_cons_eq_if_modifyHead, hsplit]
  have hcounted : counted (("local:".toList ++ first) :: more) =
      String.ofList ("local:".toList ++ first) :: counted more := by
    rw [counted_cons, if_neg (by simp)]
  rw [components_ofList, components_ofList, hlocal, hsplit, if_neg (by simp),
    if_neg (by simp), hcounted]
  intro heq
  split at heq
  · have hroot := ofList_eq_iff.mp (List.cons.inj heq).1
    cases hroot
  · split at heq
    · have hdot := ofList_eq_iff.mp (List.cons.inj heq).1
      cases hdot
    · rw [counted_cons] at heq
      split at heq
      · exact cons_ne_self _ _ heq
      · have hfirst := congrArg List.length (String.ofList_injective (List.cons.inj heq).1)
        simp at hfirst
        omega

def isPlainPath (driveLetters : Bool) (text : Path) : Bool :=
  text ≠ [] && (looksLocalOn text driveLetters || match splitOnce text with
    | none => true
    | some (candidate, _) => !namesARemote candidate)

/-- What is behind the prefix `local:` needs no prefix, and the name of a remote is not normalized
to a drive letter. -/
structure ReadsBack (nfc : Path → Path) (driveLetters : Bool) (input : String) : Prop where
  plain : ∀ rest, input.toList = "local:".toList ++ rest → isPlainPath driveLetters rest = true
  name : ∀ candidate rest, splitOnce input.toList = some (candidate, rest) →
    looksLocalOn input.toList driveLetters = false →
    namesARemote candidate = true → driveLetters = true →
      isDriveLetter (normalizeUnicode nfc candidate) = false

/-- What is shown of the spec is read back as the same spec. -/
def RoundTrips (nfc : Path → Path) (driveLetters : Bool) (spec : RemoteSpec) : Prop :=
  ∃ again, classify nfc spec.display driveLetters = .ok again ∧ again.same spec = true

theorem same_self (spec : RemoteSpec) : spec.same spec = true := by
  cases spec with
  | «local» path => exact decide_eq_true rfl
  | named remote path => simp [RemoteSpec.same]

theorem classify_of_isPlainPath (h : isPlainPath d text = true) :
    classify nfc (String.ofList text) d = .ok (.local (String.ofList text)) := by
  unfold isPlainPath at h
  rw [Bool.and_eq_true, Bool.or_eq_true] at h
  obtain ⟨hne, h⟩ := h
  have hnonempty : String.ofList text ≠ "" :=
    fun heq => of_decide_eq_true hne (ofList_eq_iff.mp heq)
  unfold classify
  rw [if_neg hnonempty, String.toList_ofList]
  split
  · rfl
  next hlocal =>
    rcases h with h | h
    · exact absurd h hlocal
    · split at h
      next => rfl
      next => exact if_pos (by simpa using h)

theorem not_isPlainPath (hlocal : looksLocalOn text d = false)
    (hsplit : splitOnce text = some (name, rest)) (hname : namesARemote name = true) :
    isPlainPath d text ≠ true := by
  unfold isPlainPath
  rw [hlocal, hsplit]
  simp [hname]

theorem classify_cases {input : String} (hok : classify nfc input d = .ok spec) :
    (spec = .local input ∧ isPlainPath d input.toList = true) ∨
      (∃ rest, input.toList = "local:".toList ++ rest ∧ spec = .local (String.ofList rest)) ∨
      ∃ candidate rest path, looksLocalOn input.toList d = false ∧
        input.toList = candidate ++ ':' :: rest ∧
        ':' ∉ candidate ∧ namesARemote candidate = true ∧ candidate ≠ "local".toList ∧
        remotePath nfc candidate rest = some path ∧
        spec = .named (String.ofList (normalizeUnicode nfc candidate)) (String.ofList path) := by
  unfold classify at hok
  split at hok
  · cases hok
  next hne =>
    have hnonempty : input.toList ≠ [] := fun hnil => hne (String.toList_eq_nil_iff.mp hnil)
    split at hok
    next hlocal =>
      refine .inl ⟨(Except.ok.inj hok).symm, ?_⟩
      unfold isPlainPath
      simp [hnonempty, hlocal]
    next hlocal =>
      rw [Bool.not_eq_true] at hlocal
      split at hok
      next hsplit =>
        refine .inl ⟨(Except.ok.inj hok).symm, ?_⟩
        unfold isPlainPath
        simp [hnonempty, hsplit]
      next candidate rest hsplit =>
        obtain ⟨htext, hcolon⟩ := splitOnce_eq_some hsplit
        split at hok
        next hname =>
          refine .inl ⟨(Except.ok.inj hok).symm, ?_⟩
          unfold isPlainPath
          simp [hnonempty, hsplit, hname]
        next hname =>
          rw [Bool.not_eq_false] at hname
          split at hok
          next hescape =>
            refine .inr (.inl ⟨rest, ?_, (Except.ok.inj hok).symm⟩)
            rw [htext, hescape]
            rfl
          next hescape =>
            split at hok
            · cases hok
            next path hpath =>
              exact .inr (.inr ⟨candidate, rest, path, hlocal, htext, hcolon, hname, hescape, hpath,
                (Except.ok.inj hok).symm⟩)

theorem namesARemote_local : namesARemote "local".toList = true := rfl

theorem looksLocalOn_local : looksLocalOn ("local:".toList ++ rest) d = false :=
  (looksLocalOn_named namesARemote_local (by decide)).trans (Bool.and_false d)

theorem splitOnce_local : splitOnce ("local:".toList ++ rest) = some ("local".toList, rest) := by
  have hcolon : ':' ∉ "local".toList := by decide
  exact splitOnce_append hcolon

theorem roundTrips_local_iff :
    RoundTrips nfc d (.local (String.ofList text)) ↔ isPlainPath d text = true := by
  constructor
  · rintro ⟨again, hok, hsame⟩
    rcases classify_cases hok with ⟨-, hplain⟩ | ⟨rest, hrest, rfl⟩ |
      ⟨candidate, rest, path, -, -, -, -, -, -, rfl⟩
    · rwa [RemoteSpec.display, String.toList_ofList] at hplain
    · rw [RemoteSpec.display, String.toList_ofList] at hrest
      rw [hrest] at hsame
      exact absurd (of_decide_eq_true hsame).symm (components_local_ne rest)
    · cases hsame
  · intro hplain
    exact ⟨_, classify_of_isPlainPath hplain, same_self _⟩

theorem roundTrips_named_iff (h : CanonicalNames nfc) (hname : namesARemote candidate = true)
    (hcolon : ':' ∉ candidate) (hescape : candidate ≠ "local".toList)
    (hpath : remotePath nfc candidate rest = some path) :
    RoundTrips nfc d (.named (String.ofList (normalizeUnicode nfc candidate))
      (String.ofList path)) ↔
      (d && isDriveLetter (normalizeUnicode nfc candidate)) = false := by
  rw [h.normalizeUnicode_eq]
  have hname' := namesARemote_nfc h.toCanonical hname
  have hcolon' : ':' ∉ nfc candidate := fun hmem => hcolon (h.colon candidate hmem)
  have hescape' : nfc candidate ≠ "local".toList :=
    fun heq => hescape (h.eq_of_nfc (forall_mem_of_all (by decide)) heq)
  have hdisplay :
      (RemoteSpec.named (String.ofList (nfc candidate)) (String.ofList path)).display.toList =
      nfc candidate ++ ':' :: path := by
    simp [RemoteSpec.display, remoteSeparator]
  have hne :
      (RemoteSpec.named (String.ofList (nfc candidate)) (String.ofList path)).display ≠ "" := by
    intro heq
    rw [heq] at hdisplay
    exact append_ne_nil_of_right_ne_nil _ (cons_ne_nil _ _) hdisplay.symm
  unfold RoundTrips classify
  rw [if_neg hne, hdisplay, looksLocalOn_named hname' hcolon', splitOnce_append hcolon']
  cases hdrive : d && isDriveLetter (nfc candidate) with
  | true =>
    refine iff_of_false ?_ Bool.noConfusion
    rintro ⟨again, hok, hsame⟩
    obtain rfl := Except.ok.inj hok
    cases hsame
  | false =>
    refine iff_of_true ⟨_, ?_, same_self _⟩ rfl
    rw [if_neg Bool.false_ne_true]
    dsimp only
    rw [hname', if_neg Bool.noConfusion, if_neg hescape', remotePath_idem h hpath,
      h.normalizeUnicode_eq, h.idempotent]

/-- What a spec is displayed as is classified as the same spec exactly if the argument did not need
the prefix `local:`, and its name was not normalized to a drive letter. -/
theorem roundTrips_iff (h : CanonicalNames nfc) {input : String}
    (hok : classify nfc input d = .ok spec) : RoundTrips nfc d spec ↔ ReadsBack nfc d input := by
  rcases classify_cases hok with ⟨rfl, hplain⟩ | ⟨rest, hrest, rfl⟩ |
    ⟨candidate, rest, path, hlocal, htext, hcolon, hname, hescape, hpath, rfl⟩
  · refine iff_of_true ⟨_, hok, same_self _⟩ ⟨fun rest hrest => ?_,
      fun candidate rest hsplit hlocal hname => ?_⟩
    · rw [hrest] at hplain
      exact absurd hplain (not_isPlainPath looksLocalOn_local splitOnce_local namesARemote_local)
    · exact absurd hplain (not_isPlainPath hlocal hsplit hname)
  · rw [roundTrips_local_iff]
    have hsplit : splitOnce input.toList = some ("local".toList, rest) := by
      rw [hrest, splitOnce_local]
    constructor
    · intro hplain
      refine ⟨fun rest' hrest' => ?_, fun candidate rest' hsplit' _ _ _ => ?_⟩
      · rw [hrest, append_cancel_left_eq] at hrest'
        rwa [← hrest']
      · rw [hsplit] at hsplit'
        obtain ⟨rfl, -⟩ := Prod.mk.inj (Option.some.inj hsplit')
        rfl
    · exact fun hreads => hreads.plain rest hrest
  · rw [roundTrips_named_iff h hname hcolon hescape hpath]
    have hsplit : splitOnce input.toList = some (candidate, rest) := by
      rw [htext, splitOnce_append hcolon]
    constructor
    · intro hdrive
      refine ⟨fun rest' hrest' => ?_, fun candidate' rest' hsplit' _ _ hd => ?_⟩
      · rw [hrest', splitOnce_local] at hsplit
        exact absurd (Prod.mk.inj (Option.some.inj hsplit)).1.symm hescape
      · rw [hsplit] at hsplit'
        obtain ⟨rfl, -⟩ := Prod.mk.inj (Option.some.inj hsplit')
        rwa [hd, Bool.true_and] at hdrive
    · intro hreads
      cases d with
      | false => rfl
      | true => exact hreads.name candidate rest hsplit hlocal hname rfl

theorem canonicalNames_id : CanonicalNames id := ⟨canonical_id, fun _ h => h, fun _ _ => rfl⟩

theorem roundTrips_iff_photos :
    classify id "vault:./photos\\2024" false = .ok (.named "vault" "photos/2024") ∧
    (RoundTrips id false (.named "vault" "photos/2024") ↔
      ReadsBack id false "vault:./photos\\2024") :=
  ⟨by decide, roundTrips_iff canonicalNames_id (by decide)⟩

/-- The part of a normalization form that makes a `K` of the Kelvin sign. -/
def unkelvin (text : Path) : Path := text.map fun c => if c = '\u212a' then 'K' else c

/-- A path behind `local:` that is a spec of a remote without it, the empty path, and a remote whose
name is normalized to a drive letter. -/
theorem displays_not_read_back :
    (classify id "local:archive:2024" false = .ok (.local "archive:2024") ∧
      ¬RoundTrips id false (.local "archive:2024")) ∧
      (classify id "local:" false = .ok (.local "") ∧ ¬RoundTrips id false (.local "")) ∧
      classify unkelvin "\u212a:photos" true = .ok (.named "K" "photos") ∧
      ¬RoundTrips unkelvin true (.named "K" "photos") := by
  have harchive : classify id "archive:2024" false = .ok (.named "archive" "2024") := by decide
  have hdrive : classify unkelvin "K:photos" true = .ok (.local "K:photos") := by decide
  refine ⟨⟨by decide, ?_⟩, ⟨by decide, ?_⟩, by decide, ?_⟩
  · rintro ⟨again, hok, hsame⟩
    obtain rfl := Except.ok.inj (harchive.symm.trans hok)
    cases hsame
  · rintro ⟨again, hok, -⟩
    cases hok
  · rintro ⟨again, hok, hsame⟩
    obtain rfl := Except.ok.inj (hdrive.symm.trans hok)
    cases hsame

end Dctl.Cli.Classify
