import Dctl.Cli.Error

/-! What one side of a transfer knows of a file, and whether the file needs to move (`entry.rs`,
`compare.rs`). -/

namespace Dctl.Transfer

open Cli

abbrev SystemTime := Int

abbrev Duration := Nat

def Duration.fromSecs (s : Nat) : Duration := s * 1000000000

def durationSince (later earlier : SystemTime) : Option Duration :=
  if earlier ≤ later then some (later - earlier).toNat else none

inductive Kind where
  | file
  | emptyDir
  deriving DecidableEq, Repr

structure Entry where
  path : String
  size : Option Nat
  modified : Option SystemTime
  hash : Option String
  kind : Kind
  objectMissing : Bool
  deriving DecidableEq, Repr

namespace Entry

def ofFile (path : String) (size : Nat) : Entry := ⟨path, some size, none, none, .file, false⟩

def unmeasuredFile (path : String) : Entry := ⟨path, none, none, none, .file, false⟩

def ofEmptyDir (path : String) : Entry := ⟨path, some 0, none, none, .emptyDir, false⟩

def withModified (e : Entry) (modified : SystemTime) : Entry := { e with modified := some modified }

def isFile (e : Entry) : Bool := e.kind = .file

def isNewerThan (e other : Entry) (window : Duration) : Bool :=
  match e.modified, other.modified with
  | some mine, some theirs => (durationSince mine theirs).any fun delta => window < delta
  | _, _ => false

def modifiedMatches (e other : Entry) (window : Duration) : Bool :=
  match e.modified, other.modified with
  | some mine, some theirs =>
    ((durationSince mine theirs).or (durationSince theirs mine)).any fun delta => delta ≤ window
  | _, _ => false

@[simp] theorem isFile_ofFile (path : String) (size : Nat) : (ofFile path size).isFile = true := rfl

end Entry

/-- What to do with one source file, with the reason as a stable slug. -/
inductive Action where
  | copy (reason : String)
  | update (reason : String)
  | skip (reason : String)
  deriving DecidableEq, Repr

def Action.reason : Action → String
  | .copy r => r
  | .update r => r
  | .skip r => r

structure ComparePolicy where
  checksum : Bool := false
  sizeOnly : Bool := false
  ignoreExisting : Bool := false
  update : Bool := false
  modifyWindow : Duration := Duration.fromSecs 1
  deriving DecidableEq, Repr

def planReasonMissing : String := "missing-at-destination"
def planReasonSize : String := "size-differs"
def planReasonModified : String := "modified"
def planReasonChecksum : String := "checksum-differs"
def planReasonIdentical : String := "identical"
def planReasonExists : String := "exists"
def planReasonDestinationNewer : String := "destination-newer"
def planReasonExtra : String := "not-at-source"
def planReasonDestinationLost : String := "destination-object-missing"
def planReasonEmptySourceDir : String := "empty-source-dir"
def planReasonUntraversed : String := "destination-not-listed"
def planReasonSizeUnrecorded : String := "size-not-recorded"

def checksumUnavailableHint : String :=
  "One side has no recorded content hash for this object, which is what a vault " ++
  "index row looks like before anything has read the file — `dctl index " ++
  "rebuild` lists objects without hashing them. Read the object once (`dctl " ++
  "verify`, or any transfer out of the vault) to fill the row in, or compare " ++
  "by size and modification time instead (drop --checksum, or add --size-only)."

def checksumUnavailable (path : String) : CliError :=
  (⟨.fatalError, "--checksum: no content hash for '" ++ path ++ "'", none⟩ : CliError).withHint
    checksumUnavailableHint

def decideChecksum (source dest : Entry) : Except CliError Action :=
  match source.hash, dest.hash with
  | some ours, some theirs =>
    .ok (if ours = theirs then .skip planReasonIdentical else .update planReasonChecksum)
  | _, _ => .error (checksumUnavailable source.path)

def decideMetadata (source dest : Entry) (policy : ComparePolicy) : Action :=
  match source.size, dest.size with
  | some ours, some theirs =>
    if ours ≠ theirs then .update planReasonSize
    else if policy.sizeOnly then .skip planReasonIdentical
    else if source.modifiedMatches dest policy.modifyWindow then .skip planReasonIdentical
    else .update planReasonModified
  | _, _ => .update planReasonSizeUnrecorded

def decide (source : Entry) (dest : Option Entry) (policy : ComparePolicy) :
    Except CliError Action :=
  match dest with
  | none => .ok (.copy planReasonMissing)
  | some dest =>
    -- Bytes that are gone cannot be restored, so no flag may skip them.
    if dest.objectMissing then .ok (.copy planReasonDestinationLost)
    else if policy.ignoreExisting then .ok (.skip planReasonExists)
    else if policy.update && dest.isNewerThan source policy.modifyWindow then
      .ok (.skip planReasonDestinationNewer)
    else if policy.checksum then decideChecksum source dest
    else .ok (decideMetadata source dest policy)

theorem decide_none (source : Entry) (policy : ComparePolicy) :
    decide source none policy = .ok (.copy planReasonMissing) := rfl

theorem decide_emptyDir {source : Entry} {path : String} {policy : ComparePolicy} {action : Action}
    (h : decide source (some (.ofEmptyDir path)) policy = .ok action) :
    (∃ r, action = .skip r) ↔
      policy.ignoreExisting = true ∨ (policy.sizeOnly = true ∧ source.size = some 0) := by
  have hnewer : (Entry.ofEmptyDir path).isNewerThan source policy.modifyWindow = false := rfl
  have hmatches : source.modifiedMatches (.ofEmptyDir path) policy.modifyWindow = false := by
    cases hm : source.modified <;> simp [Entry.modifiedMatches, hm, Entry.ofEmptyDir]
  have hmissing : (Entry.ofEmptyDir path).objectMissing = false := rfl
  simp only [decide, hmissing, hnewer, Bool.and_false, Bool.false_eq_true, if_false] at h
  by_cases hig : policy.ignoreExisting = true
  · rw [if_pos hig] at h
    cases h
    simp [hig]
  rw [if_neg hig] at h
  by_cases hck : policy.checksum = true
  · rw [if_pos hck] at h
    cases hs : source.hash <;> simp [decideChecksum, hs, Entry.ofEmptyDir] at h
  rw [if_neg hck] at h
  cases h
  cases hs : source.size with
  | none => simp [decideMetadata, hs, hig]
  | some n =>
    by_cases hn : n = 0
    · subst hn
      by_cases hsize : policy.sizeOnly = true
      · simp [decideMetadata, hs, Entry.ofEmptyDir, hsize]
      · have hm' := hmatches
        rw [Entry.ofEmptyDir] at hm'
        simp [decideMetadata, hs, Entry.ofEmptyDir, hsize, hig, hm']
    · simp [decideMetadata, hs, Entry.ofEmptyDir, hn, hig]

end Dctl.Transfer
