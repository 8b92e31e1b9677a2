import Dctl.ProofKit.Components
import Dctl.Store.Error
import Mathlib.Data.List.Chain

/-! Remote paths of the SFTP backend (`sftp/path.rs`): how a configured base is normalized, how a
key becomes a path under it, which directories a `mkdir -p` asks for, and what the paths name.
Texts are sequences of characters. -/

namespace Dctl.Store.Sftp

open ProofKit List

abbrev Text := List Char

def isWhitespace (c : Char) : Bool :=
  c ∈ ['\t', '\n', '\x0b', '\x0c', '\r', ' ', '\u0085', '\u00a0', '\u1680', '\u2028',
    '\u2029', '\u202f',
    '\u205f', '\u3000'] || ('\u2000' ≤ c && c ≤ '\u200a')

def trim (text : Text) : Text :=
  ((text.dropWhile isWhitespace).reverse.dropWhile isWhitespace).reverse

def isAbsolute (path : Text) : Bool := path.head? = some '/'

def joined (segs : List Text) : Text := ['/'].intercalate segs

def spelled (absolute : Bool) (segs : List Text) : Text :=
  if absolute then '/' :: joined segs else joined segs

/-- Normalize a configured `base` into a remote path with no trailing slash. -/
def normalizeBase (base : Text) : Text :=
  let b := match trim base with
    | '~' :: rest => rest.dropWhile (· = '/')
    | '.' :: '/' :: rest => rest
    | b => b
  spelled (isAbsolute b) (segments '/' b)

/-- A component of a relative path, as the standard library reads it. -/
inductive Component where
  | curDir
  | parentDir
  | normal (name : Text)
  deriving DecidableEq

def components (path : Text) : List Component :=
  (if (path.splitOn '/').head? = some ['.'] then [.curDir] else []) ++
    ((segments '/' path).filter (· ≠ ['.'])).map fun seg =>
      if seg = ['.', '.'] then .parentDir else .normal seg

def Component.isNormal : Component → Bool
  | .normal _ => true
  | _ => false

def validateKey (raw : Text) : Except StoreError Text :=
  if raw = [] then .error (.invalidKey "empty key")
  else if '\x00' ∈ raw then .error (.invalidKey "key contains NUL byte")
  else if isAbsolute raw
    then .error (.invalidKey ("absolute key not allowed: " ++ String.ofList raw))
  else if (components raw).any (!·.isNormal) then
    .error (.invalidKey ("disallowed path component in key: " ++ String.ofList raw))
  else .ok (joined (segments '/' raw))

def join (base rel : Text) : Text :=
  if base = [] then rel else if rel = [] then base else base ++ '/' :: rel

def remotePath (base key : Text) : Except StoreError Text := do
  let key ← validateKey key
  return join base key

/-- Each directory in turn, behind what was collected. -/
def collect (absolute : Bool) (acc : Text) : List Text → List Text
  | [] => []
  | seg :: rest =>
    let acc := if acc = [] then (if absolute then '/' :: seg else seg) else acc ++ '/' :: seg
    acc :: collect absolute acc rest

def ancestorDirs (path : Text) : List Text :=
  let segs := segments '/' path
  if segs.length ≤ 1 then [] else collect (isAbsolute path) [] segs.dropLast

def ancestorsUnder (base path : Text) (includeBase : Bool) : List Text :=
  let all := ancestorDirs path
  if base = [] then all
  else
    let baseDepth := (segments '/' base).length
    let least := if includeBase then baseDepth else baseDepth + 1
    all.filter fun dir => least ≤ (segments '/' dir).length

def ancestorDirsBelow (base path : Text) : List Text := ancestorsUnder base path false

def ancestorDirsAtOrBelow (base path : Text) : List Text := ancestorsUnder base path true

variable {absolute : Bool} {segs : List Text} {base key path seg : Text}

/-- Names that a spelled path is found to have again. -/
def Clean (segs : List Text) : Prop := ∀ seg ∈ segs, seg ≠ [] ∧ '/' ∉ seg

theorem clean_segments (path : Text) : Clean (segments '/' path) := fun _ h => of_mem_segments h

theorem Clean.take (h : Clean segs) (n : Nat) : Clean (segs.take n) :=
  fun seg hseg => h seg (mem_of_mem_take hseg)

theorem segments_spelled (h : Clean segs) : segments '/' (spelled absolute segs) = segs := by
  unfold spelled
  split
  · rw [segments_cons]
    exact segments_intercalate h
  · exact segments_intercalate h

theorem spelled_nil_or (absolute : Bool) (segs : List Text) :
    spelled absolute segs = (if absolute then ['/'] else []) ++ joined segs := by
  unfold spelled
  split <;> rfl

theorem spelled_concat (hsegs : segs ≠ []) : spelled absolute (segs ++ [seg]) =
    spelled absolute segs ++ '/' :: seg := by
  rw [spelled_nil_or, spelled_nil_or, joined, intercalate_concat hsegs, append_assoc]
  rfl

theorem spelled_singleton : spelled absolute [seg] = if absolute then '/' :: seg else seg := by
  unfold spelled joined
  rw [intercalate_singleton]

theorem head?_joined (h : Clean segs) : (joined segs).head? ≠ some '/' := by
  cases segs with
  | nil => exact nofun
  | cons seg rest =>
    obtain ⟨hne, hsep⟩ := h seg mem_cons_self
    obtain ⟨c, cs, rfl⟩ := exists_cons_of_ne_nil hne
    cases rest with
    | nil =>
      rw [joined, intercalate_singleton]
      exact fun hc => hsep (Option.some.inj hc ▸ mem_cons_self)
    | cons next rest =>
      rw [joined, intercalate_cons_cons]
      exact fun hc => hsep (Option.some.inj hc ▸ mem_cons_self)

theorem isAbsolute_spelled (h : Clean segs) : isAbsolute (spelled absolute segs) = absolute := by
  unfold spelled isAbsolute
  cases absolute with
  | false => exact decide_eq_false (head?_joined h)
  | true => rfl

theorem spelled_eq_nil (h : Clean segs) :
    spelled absolute segs = [] ↔ absolute = false ∧ segs = [] := by
  constructor
  · intro hnil
    have habs := @isAbsolute_spelled absolute segs h
    have hsegs := @segments_spelled absolute segs h
    rw [hnil] at habs hsegs
    exact ⟨habs.symm, hsegs.symm⟩
  · rintro ⟨rfl, rfl⟩
    rfl

/-- The base is spelled with single separators. -/
def Normalized (base : Text) : Prop := spelled (isAbsolute base) (segments '/' base) = base

theorem normalized_normalizeBase (raw : Text) : Normalized (normalizeBase raw) := by
  unfold Normalized normalizeBase
  dsimp only
  rw [isAbsolute_spelled (clean_segments _), segments_spelled (clean_segments _)]

/-- What validation leaves of a key: names, the first of them neither a dot nor two, and no way up.
-/
structure Key (key : Text) : Prop where
  spelled : spelled false (segments '/' key) = key
  first : ∃ name rest, segments '/' key = name :: rest ∧ name ≠ ['.']
  down : ['.', '.'] ∉ segments '/' key

theorem validateKey_ok {raw : Text} (h : validateKey raw = .ok key) : Key key := by
  unfold validateKey at h
  split at h
  · cases h
  rename_i hempty
  split at h
  · cases h
  split at h
  · cases h
  rename_i habs
  split at h
  · cases h
  rename_i hcomponents
  obtain rfl := Except.ok.inj h
  have hsegs : segments '/' (joined (segments '/' raw)) = segments '/' raw :=
    segments_intercalate (clean_segments raw)
  have hnormal : ∀ component ∈ components raw, component.isNormal := by
    simpa only [Bool.not_eq_true, any_eq_false, Bool.not_eq_false'] using hcomponents
  refine ⟨by rw [hsegs]; rfl, ?_, ?_⟩
  · rw [hsegs]
    obtain ⟨first, rest, hsplit, hfirst⟩ :=
      exists_splitOn hempty fun hhead => habs (decide_eq_true hhead)
    refine ⟨first, rest.filter (· ≠ []), ?_, ?_⟩
    · rw [segments, hsplit, filter_cons_of_pos]
      exact decide_eq_true hfirst
    · rintro rfl
      have hdot : Component.curDir ∈ components raw := by
        rw [components, hsplit, List.head?_cons, if_pos rfl]
        exact mem_append_left _ mem_cons_self
      exact Bool.noConfusion (hnormal _ hdot)
  · rw [hsegs]
    intro hup
    have hparent : Component.parentDir ∈ components raw := by
      refine mem_append_right _ (mem_map.mpr ⟨['.', '.'], ?_, if_pos rfl⟩)
      exact mem_filter.mpr ⟨hup, by decide⟩
    exact Bool.noConfusion (hnormal _ hparent)

theorem segments_join (hkey : Key key) :
    segments '/' (join base key) = segments '/' base ++ segments '/' key := by
  unfold join
  by_cases hbase : base = []
  · rw [if_pos hbase, hbase, segments_nil, nil_append]
  · have hne : key ≠ [] := by
      rintro rfl
      obtain ⟨name, rest, hnil, -⟩ := hkey.first
      rw [segments_nil] at hnil
      cases hnil
    rw [if_neg hbase, if_neg hne, segments_append]

theorem isAbsolute_join (hkey : Key key) : isAbsolute (join base key) = isAbsolute base := by
  unfold join
  by_cases hbase : base = []
  · rw [if_pos hbase, hbase, ← hkey.spelled]
    exact isAbsolute_spelled (clean_segments _)
  · obtain ⟨c, cs, rfl⟩ := exists_cons_of_ne_nil hbase
    rw [if_neg hbase]
    split <;> rfl

theorem collect_eq {before : List Text} (hbefore : Clean before) (hsegs : Clean segs) :
    collect absolute (if before = [] then [] else spelled absolute before) segs =
      (List.range segs.length).map fun n => spelled absolute (before ++ segs.take (n + 1)) := by
  induction segs generalizing before with
  | nil => rfl
  | cons seg rest ih =>
    obtain ⟨hseg, hrest⟩ := forall_mem_cons.mp hsegs
    have hnext : Clean (before ++ [seg]) := forall_mem_append.mpr ⟨hbefore, by simpa using hseg⟩
    have hacc : (if (if before = [] then [] else spelled absolute before) = [] then
        (if absolute then '/' :: seg else seg)
        else (if before = [] then [] else spelled absolute before) ++ '/' :: seg) =
          spelled absolute (before ++ [seg]) := by
      by_cases hempty : before = []
      · rw [if_pos hempty, if_pos rfl, hempty, nil_append, spelled_singleton]
      · have hne : spelled absolute before ≠ [] :=
          fun hnil => hempty ((spelled_eq_nil hbefore).mp hnil).2
        rw [if_neg hempty, if_neg hne, spelled_concat hempty]
    have hih := ih hnext hrest
    rw [if_neg (by simp)] at hih
    rw [collect, hacc, hih, length_cons, range_succ_eq_map, map_cons, map_map]
    refine congrArg _ (map_congr_left fun n _ => ?_)
    simp only [Function.comp_apply, append_assoc, singleton_append, take_succ_cons]

theorem ancestorDirs_eq (path : Text) : ancestorDirs path =
    (List.range' 1 ((segments '/' path).length - 1)).map fun n =>
      spelled (isAbsolute path) ((segments '/' path).take n) := by
  unfold ancestorDirs
  dsimp only
  split
  · rename_i hshort
    rw [Nat.sub_eq_zero_of_le hshort]
    rfl
  · have hclean : Clean (segments '/' path).dropLast :=
      fun seg hseg => clean_segments path seg (dropLast_subset _ hseg)
    have hcollect := @collect_eq (isAbsolute path) _ [] nofun hclean
    rw [if_pos rfl] at hcollect
    rw [hcollect, length_dropLast, List.range'_eq_map_range, map_map]
    refine map_congr_left fun n hn => ?_
    rw [mem_range] at hn
    rw [nil_append, Function.comp_apply, Nat.add_comm, dropLast_eq_take, take_take,
      Nat.min_eq_left (by omega)]

theorem filter_range' (least n : Nat) : (List.range' 1 n).filter (least ≤ ·) =
    List.range' (max 1 least) (n + 1 - max 1 least) := by
  induction n with
  | zero =>
    rw [show 0 + 1 - max 1 least = 0 by omega]
    rfl
  | succ n ih =>
    rw [List.range'_1_concat, filter_append, ih]
    by_cases hle : least ≤ 1 + n
    · have hlast : max 1 least + (n + 1 - max 1 least) = 1 + n := by omega
      rw [show n + 1 + 1 - max 1 least = n + 1 - max 1 least + 1 by omega, List.range'_1_concat,
        hlast, filter_cons_of_pos (by simpa using hle), filter_nil]
    · rw [show n + 1 + 1 - max 1 least = n + 1 - max 1 least by omega,
        filter_cons_of_neg (by simpa using hle), filter_nil, append_nil]

/-- How many names the first directory that is asked for has. -/
def shallowest (base : Text) (includeBase : Bool) : Nat :=
  max 1 ((segments '/' base).length + if includeBase then 0 else 1)

theorem ancestorsUnder_eq (hkey : Key key) (includeBase : Bool) :
    ancestorsUnder base (join base key) includeBase =
      (List.range' (shallowest base includeBase)
          ((segments '/' base).length + (segments '/' key).length - shallowest base
            includeBase)).map
        fun n => spelled (isAbsolute base) ((segments '/' base ++ segments '/' key).take n) := by
  have hclean : Clean (segments '/' base ++ segments '/' key) :=
    forall_mem_append.mpr ⟨clean_segments base, clean_segments key⟩
  unfold ancestorsUnder
  dsimp only
  rw [ancestorDirs_eq, segments_join hkey, isAbsolute_join hkey, length_append]
  by_cases hempty : base = []
  · have hfirst : shallowest base includeBase = 1 := by
      rw [shallowest, hempty, segments_nil]
      split <;> rfl
    rw [if_pos hempty, hfirst]
  · rw [if_neg hempty, filter_map]
    congr 1
    have hdepth :
        (if includeBase then (segments '/' base).length else (segments '/' base).length + 1) =
        (segments '/' base).length + if includeBase then 0 else 1 := by split <;> rfl
    rw [hdepth]
    have hlong : ∀ n ∈ List.range' 1 ((segments '/' base).length + (segments '/' key).length - 1),
        (segments '/' (spelled (isAbsolute base)
          ((segments '/' base ++ segments '/' key).take n))).length = n := by
      intro n hn
      rw [mem_range'_1] at hn
      rw [segments_spelled (hclean.take n), length_take, length_append]
      omega
    rw [filter_congr fun n hn => by rw [Function.comp_apply, hlong n hn], filter_range', shallowest]
    congr 1
    omega

/-- The names that a server follows: a repeated slash and a dot lead nowhere. -/
def names (path : Text) : List Text := (segments '/' path).filter (· ≠ ['.'])

/-- Two paths lead to one file, whatever its directories hold. -/
def SameFile (path path' : Text) : Prop :=
  isAbsolute path = isAbsolute path' ∧ names path = names path'

/-- The path is below the base, and names something there. -/
def StrictlyBelow (base path : Text) : Prop :=
  isAbsolute path = isAbsolute base ∧ ∃ under, segments '/' path = segments '/' base ++ under ∧
    ['.', '.'] ∉ under ∧ ∃ name ∈ under, name ≠ ['.']

/-- `dir` is above the path. -/
def ProperAncestor (dir path : Text) : Prop :=
  isAbsolute dir = isAbsolute path ∧ ∃ name rest, segments '/' path =
    segments '/' dir ++ name :: rest

/-- `next` is `dir` with one name more. -/
def Parent (dir next : Text) : Prop := ∃ name, name ≠ [] ∧ '/' ∉ name ∧ next = dir ++ '/' :: name

/-- The directories between the base and the path, from above. -/
structure ChainBelow (base path : Text) (dirs : List Text) : Prop where
  mem : ∀ dir, dir ∈ dirs ↔ Normalized dir ∧ ProperAncestor base dir ∧ ProperAncestor dir path
  chain : dirs.IsChain Parent

variable {raw base key path dir : Text} {absolute : Bool} {segs : List Text}

theorem normalizeBase_of_normalized (h : Normalized base) (htrim : trim base = base)
    (htilde : base.head? ≠ some '~') (hdot : ¬['.', '/'] <+: base) : normalizeBase base = base := by
  unfold normalizeBase
  rw [htrim]
  dsimp only
  split
  · exact absurd rfl htilde
  · rename_i rest
    exact absurd ⟨rest, rfl⟩ hdot
  · exact h

theorem isAbsolute_dropWhile (text : Text) : isAbsolute (text.dropWhile (· = '/')) = false := by
  have hhead := List.head?_dropWhile_not (· = '/') text
  refine decide_eq_false fun hslash => ?_
  rw [hslash] at hhead
  exact absurd hhead (by decide)

theorem isAbsolute_normalizeBase (hrel : isAbsolute (trim raw) = false)
    (hdoubled : ¬['.', '/', '/'] <+: trim raw) : isAbsolute (normalizeBase raw) = false := by
  unfold normalizeBase
  dsimp only
  rw [isAbsolute_spelled (clean_segments _)]
  split
  · exact isAbsolute_dropWhile _
  · rename_i rest hraw
    refine decide_eq_false fun hhead => hdoubled ?_
    obtain ⟨tail, rfl⟩ := List.head?_eq_some_iff.mp hhead
    rw [hraw]
    exact ⟨tail, rfl⟩
  · exact hrel

theorem validateKey_eq (h : validateKey raw = .ok key) : key = joined (segments '/' raw) := by
  unfold validateKey at h
  split at h
  · cases h
  split at h
  · cases h
  split at h
  · cases h
  split at h
  · cases h
  exact (Except.ok.inj h).symm

section

variable (h : remotePath base raw = .ok path)
include h

theorem remotePath_ok : ∃ key, Key key ∧
    segments '/' key = segments '/' raw ∧ path = join base key := by
  unfold remotePath at h
  cases hkey : validateKey raw with
  | error e =>
    rw [hkey] at h
    cases h
  | ok key =>
    rw [hkey] at h
    refine ⟨key, validateKey_ok hkey, ?_, (Except.ok.inj h).symm⟩
    rw [validateKey_eq hkey]
    exact segments_intercalate (clean_segments raw)

theorem strictlyBelow_remotePath : StrictlyBelow base path := by
  obtain ⟨key, hkey, -, rfl⟩ := remotePath_ok h
  obtain ⟨name, rest, hfirst, hname⟩ := hkey.first
  exact ⟨isAbsolute_join hkey, segments '/' key, segments_join hkey, hkey.down,
    name, hfirst ▸ mem_cons_self, hname⟩

theorem remotePath_congr {raw' path' : Text} (h' : remotePath base raw' = .ok path')
    (hcut : segments '/' raw = segments '/' raw') : path = path' := by
  obtain ⟨key, hkey, hsegs, rfl⟩ := remotePath_ok h
  obtain ⟨key', hkey', hsegs', rfl⟩ := remotePath_ok h'
  rw [← hkey.spelled, ← hkey'.spelled, hsegs, hsegs', hcut]

theorem names_of_sameFile {raw' path' : Text} (h' : remotePath base raw' = .ok path')
    (hsame : SameFile path path') : names raw = names raw' := by
  obtain ⟨key, hkey, hsegs, rfl⟩ := remotePath_ok h
  obtain ⟨key', hkey', hsegs', rfl⟩ := remotePath_ok h'
  have hnames := hsame.2
  unfold names at hnames ⊢
  rw [segments_join hkey, segments_join hkey', filter_append, filter_append, hsegs, hsegs']
    at hnames
  exact append_cancel_left hnames

end

theorem ancestorDirsBelow_congr {base' : Text} (h : segments '/' base = segments '/' base')
    (path : Text) : ancestorDirsBelow base path = ancestorDirsBelow base' path := by
  have hdeep : ∀ base : Text, ancestorDirsBelow base path =
      (ancestorDirs path).filter fun dir => (segments '/' base).length + 1 ≤
        (segments '/' dir).length := by
    intro base
    unfold ancestorDirsBelow ancestorsUnder
    dsimp only
    split
    · rename_i hempty
      rw [hempty, segments_nil, filter_eq_self.mpr]
      intro dir hdir
      rw [ancestorDirs_eq, mem_map] at hdir
      obtain ⟨n, hn, rfl⟩ := hdir
      rw [mem_range'_1] at hn
      rw [segments_spelled ((clean_segments path).take n), length_take, length_nil]
      exact decide_eq_true (by omega)
    · rfl
  rw [hdeep, hdeep, h]

theorem parent_take (hclean : Clean segs) {n : Nat} (hn : 0 < n) (hlt : n < segs.length) :
    Parent (spelled absolute (segs.take n)) (spelled absolute (segs.take (n + 1))) := by
  obtain ⟨hne, hsep⟩ := hclean segs[n] (getElem_mem hlt)
  refine ⟨segs[n], hne, hsep, ?_⟩
  rw [take_add_one, List.getElem?_eq_getElem hlt, Option.toList_some, spelled_concat]
  intro hnil
  have hlength := congrArg List.length hnil
  rw [length_take, length_nil] at hlength
  omega

theorem between_iff {under : List Text} (habs : isAbsolute path = isAbsolute base)
    (hpath : segments '/' path = segments '/' base ++ under) :
    Normalized dir ∧ ProperAncestor base dir ∧ ProperAncestor dir path ↔
      ∃ n, (segments '/' base).length < n ∧ n < (segments '/' path).length ∧
        dir = spelled (isAbsolute base) ((segments '/' path).take n) := by
  constructor
  · rintro ⟨hdir, ⟨hbase, name, rest, hsegs⟩, -, name', rest', hsegs'⟩
    refine ⟨(segments '/' dir).length, ?_, ?_, ?_⟩
    · rw [hsegs, length_append, length_cons]
      omega
    · rw [hsegs', length_append, length_cons]
      omega
    · rw [hsegs', take_left, hbase]
      exact hdir.symm
  · rintro ⟨n, hdeep, hshort, rfl⟩
    have hclean := (clean_segments path).take n
    have hsegs := @segments_spelled (isAbsolute base) _ hclean
    have hslash := @isAbsolute_spelled (isAbsolute base) _ hclean
    refine ⟨?_, ⟨hslash.symm, ?_⟩, hslash.trans habs.symm, ?_⟩
    · rw [Normalized, hslash, hsegs]
    · have hlonger : 0 < under.length := by
        rw [hpath, length_append] at hshort
        omega
      obtain ⟨name, rest, hcons⟩ := exists_cons_of_length_pos hlonger
      obtain ⟨m, hm⟩ := Nat.exists_eq_add_of_lt hdeep
      refine ⟨name, rest.take m, ?_⟩
      rw [hsegs, hpath, take_append, take_of_length_le (Nat.le_of_lt hdeep), hcons,
        show n - (segments '/' base).length = m + 1 by omega, take_succ_cons]
    · refine ⟨(segments '/' path)[n], (segments '/' path).drop (n + 1), ?_⟩
      rw [hsegs, ← drop_eq_getElem_cons hshort, take_append_drop]

theorem chainBelow_ancestorDirsBelow (h : remotePath base raw = .ok path) :
    ChainBelow base path (ancestorDirsBelow base path) := by
  obtain ⟨key, hkey, -, rfl⟩ := remotePath_ok h
  have hsegs := @segments_join base key hkey
  have hdirs := @ancestorsUnder_eq base key hkey false
  have hfirst : shallowest base false = (segments '/' base).length + 1 := by
    unfold shallowest
    simp
  rw [hfirst, ← hsegs] at hdirs
  have hlength : (segments '/' (join base key)).length =
      (segments '/' base).length + (segments '/' key).length := by
    rw [hsegs, length_append]
  constructor
  · intro dir
    rw [between_iff (isAbsolute_join hkey) hsegs, ancestorDirsBelow, hdirs, mem_map]
    constructor
    · rintro ⟨n, hn, rfl⟩
      rw [mem_range'_1] at hn
      exact ⟨n, by omega, by omega, rfl⟩
    · rintro ⟨n, hdeep, hshort, rfl⟩
      exact ⟨n, mem_range'_1.mpr (by omega), rfl⟩
  · rw [ancestorDirsBelow, hdirs, isChain_map]
    refine (isChain_range' _ _ 1).imp_of_mem_imp fun n next hn hnext hstep => ?_
    rw [mem_range'_1] at hn hnext
    rw [hstep]
    exact parent_take (clean_segments _) (by omega) (by omega)

/-- What a base and two keys come to. -/
theorem names_apart (raw key key' path path' : Text)
    (hpath : remotePath (normalizeBase raw) key = .ok path)
    (hpath' : remotePath (normalizeBase raw) key' = .ok path') :
    StrictlyBelow (normalizeBase raw) path ∧
    (segments '/' key = segments '/' key' → path = path') ∧
    (names key ≠ names key' → ¬SameFile path path') ∧
    ((normalizeBase raw).head? ≠ some '~' → ¬['.', '/'] <+: normalizeBase raw →
      trim (normalizeBase raw) = normalizeBase raw →
      normalizeBase (normalizeBase raw) = normalizeBase raw) ∧
    (isAbsolute (trim raw) = false → ¬['.', '/', '/'] <+: trim raw →
      isAbsolute (normalizeBase raw) = false) ∧
    ∀ base, segments '/' base = segments '/' (normalizeBase raw) →
      ChainBelow (normalizeBase raw) path (ancestorDirsBelow base path) := by
  refine ⟨strictlyBelow_remotePath hpath, remotePath_congr hpath hpath', ?_, ?_,
    isAbsolute_normalizeBase, ?_⟩
  · intro hne hsame
    exact hne (names_of_sameFile hpath hpath' hsame)
  · intro htilde hdot htrim
    exact normalizeBase_of_normalized (normalized_normalizeBase raw) htrim htilde hdot
  · intro base hbase
    rw [ancestorDirsBelow_congr hbase]
    exact chainBelow_ancestorDirsBelow hpath

theorem names_apart_photos :
    StrictlyBelow (normalizeBase " ~/srv//photos/".toList) "srv/photos/a/b".toList ∧
    ¬SameFile "srv/photos/a/b".toList "srv/photos/c".toList ∧
    ChainBelow (normalizeBase " ~/srv//photos/".toList) "srv/photos/a/b".toList
      ["srv/photos/a".toList] := by
  have happart :=
    names_apart " ~/srv//photos/".toList "a//b".toList "c".toList "srv/photos/a/b".toList
    "srv/photos/c".toList (by decide) (by decide)
  refine ⟨happart.1, happart.2.2.1 (by decide), ?_⟩
  have hchain := happart.2.2.2.2.2 "/srv/photos/".toList (by decide)
  rwa [show ancestorDirsBelow "/srv/photos/".toList "srv/photos/a/b".toList =
    ["srv/photos/a".toList] by decide]
    at hchain

/-- Keys that differ name one file, a home-relative base becomes absolute, and a base is changed
twice. -/
theorem keys_aliased : "a//b".toList ≠ "a/b".toList ∧
    remotePath (normalizeBase "/srv".toList) "a//b".toList = .ok "/srv/a/b".toList ∧
    remotePath (normalizeBase "/srv".toList) "a/b".toList = .ok "/srv/a/b".toList ∧
    normalizeBase ".//srv".toList = "/srv".toList ∧
    normalizeBase "~~".toList = "~".toList ∧ normalizeBase "~".toList = [] := by
  decide

end Dctl.Store.Sftp
