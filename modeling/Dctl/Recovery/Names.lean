import Dctl.Cli.Paths
import Dctl.ProofKit.Text

/-! Which names a platform cannot hold (`platform/names.rs`), and the native path of a logical one
(`platform/path.rs`). -/

namespace Dctl.Recovery

open ProofKit Index Cli.Paths List

inductive Os where
  | windows
  | macos
  | linux
  | freebsd
  | unknown
  deriving DecidableEq, Repr

namespace Os

def name : Os → String
  | windows => "windows"
  | macos => "macos"
  | linux => "linux"
  | freebsd => "freebsd"
  | unknown => "unknown"

def caseInsensitive : Os → Bool
  | windows | macos => true
  | linux | freebsd | unknown => false

end Os

def windowsIllegalChars : List Char := ['<', '>', ':', '"', '|', '?', '*']

def windowsReservedStems : List String :=
  ["CON", "PRN", "AUX", "NUL",
    "COM1", "COM2", "COM3", "COM4", "COM5", "COM6", "COM7", "COM8", "COM9",
    "LPT1", "LPT2", "LPT3", "LPT4", "LPT5", "LPT6", "LPT7", "LPT8", "LPT9"]

inductive NameIssue where
  | windowsIllegalChar (c : Char)
  | windowsReservedName (stem : String)
  | windowsTrailingDotOrSpace
  | controlCharacter (code : Nat)
  deriving DecidableEq

def hex4 (code : Nat) : String :=
  let digits := (Nat.toDigits 16 code).map Char.toUpper
  String.ofList (List.replicate (4 - digits.length) '0' ++ digits)

def NameIssue.display : NameIssue → String
  | windowsIllegalChar c => "contains '" ++ String.ofList [c] ++
    "', which Windows does not allow in a filename"
  | windowsReservedName stem => "'" ++ stem ++ "' is a reserved Windows device name"
  | windowsTrailingDotOrSpace => "ends with a dot or space, which Windows silently strips"
  | controlCharacter code => "contains control character U+" ++ hex4 code

def checkChar (c : Char) : Option NameIssue :=
  if c.toNat < 0x20 then some (.controlCharacter c.toNat)
  else if c ∈ windowsIllegalChars then some (.windowsIllegalChar c)
  else none

def trailing (c : Char) : Bool := c = '.' || c = ' '

def checkComponent (component : Path) : List NameIssue :=
  -- Reserved names are matched on what stands before the first dot.
  let stem := component.takeWhile (· ≠ '.')
  component.filterMap checkChar ++
    (if component.getLast?.any trailing then [.windowsTrailingDotOrSpace] else []) ++
    (if windowsReservedStems.any fun reserved =>
      reserved.toList.map Char.toLower = stem.map Char.toLower then
      [.windowsReservedName (String.ofList (stem.map Char.toUpper))] else [])

def checkLogicalPath (logical : Path) : List (Path × NameIssue) :=
  (segments separator logical).flatMap fun component =>
    (checkComponent component).map (component, ·)

def issueBlocksHere (os : Os) (issue : NameIssue) : Bool :=
  match os, issue with
  | .windows, _ | _, .controlCharacter _ => true
  | _, _ => false

structure Native where
  base : Path
  names : List Path
  deriving DecidableEq

def hasDrive : Path → Bool
  | letter :: ':' :: _ => letter.isAlpha
  | _ => false

def push (os : Os) (out : Native) (part : Path) : Native :=
  if os = .windows ∧ hasDrive part then ⟨part, []⟩ else ⟨out.base, out.names ++ [part]⟩

def fromLogical (os : Os) (root logical : Path) : Native :=
  (segments separator logical).foldl (push os) ⟨root, []⟩

def Os.isSeparator (os : Os) (c : Char) : Bool := c = '/' || (os = .windows && c = '\\')

def Os.mainSeparator : Os → Char
  | windows => '\\'
  | macos | linux | freebsd | unknown => '/'

def appendName (os : Os) (text part : Path) : Path :=
  if text = [] ∨ text.getLast?.any os.isSeparator ∨
    (os = .windows ∧ text.length = 2 ∧ hasDrive text) then
    text ++ part
  else text ++ os.mainSeparator :: part

def Native.length (os : Os) (n : Native) : Nat :=
  (utf8 (String.ofList (n.names.foldl (appendName os) n.base))).length

variable {os : Os} {root logical : Path} {names : List Path} {out : Native}

theorem push_names (h : ∀ name ∈ names, os = .windows → hasDrive name = false) :
    names.foldl (push os) out = ⟨out.base, out.names ++ names⟩ := by
  induction names generalizing out with
  | nil => rw [foldl_nil, append_nil]
  | cons name names ih =>
    have hname : ¬(os = .windows ∧ hasDrive name = true) := by
      rintro ⟨hos, hdrive⟩
      rw [h name mem_cons_self hos] at hdrive
      cases hdrive
    rw [foldl_cons, push, if_neg hname, ih fun n hn => h n (mem_cons_of_mem _ hn), append_assoc,
      singleton_append]

theorem fromLogical_eq
    (h : ∀ name ∈ segments separator logical, os = .windows → hasDrive name = false) :
    fromLogical os root logical = ⟨root, segments separator logical⟩ := by
  rw [fromLogical, push_names h, nil_append]

theorem hasDrive_eq_false {name : Path} (h : ':' ∉ name) : hasDrive name = false := by
  match name with
  | [] | [_] => rfl
  | letter :: c :: rest =>
    unfold hasDrive
    split
    · next heq =>
      cases heq
      exact absurd (by simp) h
    · rfl

theorem of_checkComponent {component : Path} (h : checkComponent component = []) :
    (∀ c ∈ component, 0x20 ≤ c.toNat ∧ c ∉ windowsIllegalChars) ∧
      ∀ c ∈ component.getLast?, trailing c = false := by
  unfold checkComponent at h
  simp only [append_eq_nil_iff, filterMap_eq_nil_iff] at h
  obtain ⟨⟨hchars, htrailing⟩, -⟩ := h
  constructor
  · intro c hc
    have hcheck := hchars c hc
    unfold checkChar at hcheck
    split at hcheck
    · cases hcheck
    · next hcontrol =>
      split at hcheck
      · cases hcheck
      · next hillegal => exact ⟨not_lt.mp hcontrol, hillegal⟩
  · intro c hc
    split at htrailing
    · cases htrailing
    · next hlast =>
      rw [Option.mem_def.mp hc] at hlast
      simpa using hlast

end Dctl.Recovery
