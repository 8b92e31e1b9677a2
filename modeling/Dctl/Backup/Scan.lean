import Dctl.ProofKit.Pager
import Dctl.Store.Trees
import Dctl.Transfer.Collision

/-! The walk of a local tree into the files that a backup would store (`commands/backup/scan.rs`).
Paths are kept relative to the root of the walk. -/

namespace Dctl.Backup

open ProofKit Cli Transfer List
open Store (Name Leaf SpecialKind Tree)

inductive FileType where
  | dir
  | symlink
  | file (len : Nat) (modified : Option SystemTime)
  | special (kind : SpecialKind)
  deriving DecidableEq, Repr

structure Metadata where
  id : Nat
  type : FileType
  deriving DecidableEq, Repr

/-- How each call of the walk ends.  No path is asked about twice with one call, but for the root,
which has an answer for each time.  A listing may fail, and so may each of its entries. -/
structure Io where
  rootMetadata : Except String Metadata
  rootAgain : Except String Metadata
  readDir : List Name → Except String (List (Except String Name))
  symlinkMetadata : List Name → Except String Metadata
  metadata : List Name → Except String Metadata
  canonicalize : List Name → Except String (List Name)

structure ScannedFile where
  logical : String
  native : NativePath
  size : Nat
  modifiedUnix : Option Int
  deriving DecidableEq, Repr

structure Problem where
  path : String
  detail : String
  deriving DecidableEq, Repr

inductive Finding where
  | file (file : ScannedFile)
  | filtered
  | link (path : String) (verdict : LinkVerdict)
  | special (path : String) (kind : SpecialKind)
  | problem (problem : Problem)
  deriving DecidableEq

/-- The names that a report keeps: the first ones, and how many came after them. -/
structure Sample (α : Type) where
  notes : List α := []
  unnamed : Nat := 0
  deriving DecidableEq

def Sample.push {α : Type} (limit : Nat) (sample : Sample α) (note : α) : Sample α :=
  if sample.notes.length < limit then { sample with notes := sample.notes ++ [note] }
  else { sample with unnamed := sample.unnamed + 1 }

def linkNoteSample : Nat := 64
def specialNoteSample : Nat := 16

/-- What one walk did about the symbolic links that it met: exact counts, and the first names. -/
structure LinkReport extends Sample (String × LinkVerdict) where
  followed : Nat := 0
  skipped : Nat := 0
  broken : Nat := 0
  deriving DecidableEq

def LinkReport.observe (r : LinkReport) (path : String) (verdict : LinkVerdict) : LinkReport :=
  let sample := r.toSample.push linkNoteSample (path, verdict)
  match verdict with
  | .followed => { r with toSample := sample, followed := r.followed + 1 }
  | .broken => { r with toSample := sample, broken := r.broken + 1 }
  | .notFollowed | .outOfTree | .cycle | .notStorable =>
    { r with toSample := sample, skipped := r.skipped + 1 }

/-- The special files that one walk passed over: their exact number, and the first names. -/
structure SpecialReport extends Sample (String × SpecialKind) where
  skipped : Nat := 0
  deriving DecidableEq

def SpecialReport.observe (r : SpecialReport) (path : String) (kind : SpecialKind) :
    SpecialReport :=
  { r with toSample := r.toSample.push specialNoteSample (path, kind), skipped := r.skipped + 1 }

/-- The result of one walk. -/
structure Scan where
  files : List ScannedFile := []
  links : LinkReport := {}
  specials : SpecialReport := {}
  filtered : Nat := 0
  problems : List Problem := []
  collisions : List Collision := []
  deriving DecidableEq

namespace Finding

def file? : Finding → Option ScannedFile
  | .file f => some f
  | _ => none

def link? : Finding → Option (String × LinkVerdict)
  | .link path verdict => some (path, verdict)
  | _ => none

def special? : Finding → Option (String × SpecialKind)
  | .special path kind => some (path, kind)
  | _ => none

def problem? : Finding → Option Problem
  | .problem p => some p
  | _ => none

end Finding

/-- The first `limit` of them by name, and the number of the others. -/
structure Sample.Of {α : Type} (limit : Nat) (all : List α) (sample : Sample α) : Prop where
  notes : sample.notes = all.take limit
  unnamed : sample.unnamed = all.length - limit

theorem Sample.Of.push {α : Type} {limit : Nat} {all : List α} {sample : Sample α}
    (h : sample.Of limit all) (note : α) : (sample.push limit note).Of limit (all ++ [note]) := by
  rw [Sample.push, h.notes, length_take]
  by_cases hroom : all.length < limit
  · rw [if_pos (by omega), take_of_length_le (Nat.le_of_lt hroom)]
    refine ⟨(take_of_length_le ?_).symm, ?_⟩
    · rw [length_append]
      exact hroom
    · rw [h.unnamed, length_append, length_singleton]
      omega
  · have hfull := Nat.le_of_not_lt hroom
    rw [if_neg (by omega)]
    refine ⟨?_, ?_⟩
    · rw [take_append_of_le_length hfull, ← h.notes]
    · rw [length_append, length_singleton, Nat.succ_sub hfull, ← h.unnamed]

/-- The report counts each of these links once, by what was done about it, and names the first. -/
structure LinkReport.Of (links : List (String × LinkVerdict)) (r : LinkReport) : Prop where
  followed : r.followed = links.countP (·.2 = .followed)
  broken : r.broken = links.countP (·.2 = .broken)
  total : r.followed + r.skipped + r.broken = links.length
  sample : r.toSample.Of linkNoteSample links

theorem LinkReport.Of.observe {links : List (String × LinkVerdict)} {r : LinkReport}
    (h : r.Of links) (link : String × LinkVerdict) :
    (r.observe link.1 link.2).Of (links ++ [link]) := by
  obtain ⟨path, verdict⟩ := link
  have htotal := h.total
  cases verdict
  all_goals
    refine ⟨?_, ?_, ?_, h.sample.push _⟩
    · simp [LinkReport.observe, countP_append, h.followed]
    · simp [LinkReport.observe, countP_append, h.broken]
    · simp only [LinkReport.observe, length_append, length_singleton]
      omega

theorem LinkReport.of_foldl (links : List (String × LinkVerdict)) :
    LinkReport.Of links (links.foldl (fun r link => r.observe link.1 link.2) {}) := by
  induction links using List.reverseRecOn with
  | nil => exact ⟨rfl, rfl, rfl, rfl, rfl⟩
  | append_singleton links link ih =>
    rw [foldl_append]
    exact ih.observe link

/-- The report counts each of these files, and names the first. -/
structure SpecialReport.Of (specials : List (String × SpecialKind)) (r : SpecialReport) : Prop where
  skipped : r.skipped = specials.length
  sample : r.toSample.Of specialNoteSample specials

theorem SpecialReport.Of.observe {specials : List (String × SpecialKind)} {r : SpecialReport}
    (h : r.Of specials) (special : String × SpecialKind) :
    (r.observe special.1 special.2).Of (specials ++ [special]) := by
  refine ⟨?_, h.sample.push special⟩
  rw [length_append, ← h.skipped]
  rfl

theorem SpecialReport.of_foldl (specials : List (String × SpecialKind)) :
    SpecialReport.Of specials
      (specials.foldl (fun r special => r.observe special.1 special.2) {}) := by
  induction specials using List.reverseRecOn with
  | nil => exact ⟨rfl, rfl, rfl⟩
  | append_singleton specials special ih =>
    rw [foldl_append]
    exact ih.observe special

namespace Scan

def record (scan : Scan) : Finding → Scan
  | .file file => { scan with files := scan.files ++ [file] }
  | .filtered => { scan with filtered := scan.filtered + 1 }
  | .link path verdict => { scan with links := scan.links.observe path verdict }
  | .special path kind => { scan with specials := scan.specials.observe path kind }
  | .problem problem => { scan with problems := scan.problems ++ [problem] }

def recordAll (scan : Scan) (findings : List Finding) : Scan := findings.foldl record scan

theorem recordAll_append (scan : Scan) (findings more : List Finding) :
    scan.recordAll (findings ++ more) = (scan.recordAll findings).recordAll more := foldl_append

theorem recordAll_eq (scan : Scan) (findings : List Finding) : scan.recordAll findings =
    { scan with
      files := scan.files ++ findings.filterMap Finding.file?
      links :=
        (findings.filterMap Finding.link?).foldl (fun r link => r.observe link.1 link.2) scan.links
      specials :=
        (findings.filterMap Finding.special?).foldl (fun r special => r.observe special.1 special.2)
        scan.specials
      filtered := scan.filtered + findings.countP (· = .filtered)
      problems := scan.problems ++ findings.filterMap Finding.problem? } := by
  induction findings generalizing scan with
  | nil => simp [recordAll]
  | cons finding findings ih =>
    rw [recordAll, foldl_cons, ← recordAll, ih]
    cases finding with
    | filtered =>
      simp [record, filterMap_cons, Finding.file?, Finding.link?, Finding.special?,
        Finding.problem?]
      exact Nat.add_right_comm ..
    | file | link | special | problem =>
      simp [record, filterMap_cons, Finding.file?, Finding.link?, Finding.special?,
        Finding.problem?]

def colliding (collisions : List Collision) : List String := collisions.map Collision.logical

/-- Sort what was found, and take the files out that would become one object. -/
def finish (scan : Scan) : Scan :=
  let files := scan.files.mergeSort fun a b => a.logical ≤ b.logical
  let collisions := (Detector.detect (files.map fun file => (file.logical, file.native))).finish
  { scan with
    files := files.filter fun file => file.logical ∉ colliding collisions
    problems := scan.problems.mergeSort fun a b => a.path ≤ b.path
    collisions := collisions }

/-- The scan keeps these files, but for those that it reports as colliding, each under one path. -/
structure Keeps (scan : Scan) (files sharers : List ScannedFile) : Prop where
  perm : files.Perm (scan.files ++ sharers)
  kept : ∀ f ∈ scan.files, ∀ c ∈ scan.collisions, c.logical ≠ f.logical
  collided : ∀ f ∈ sharers, ∃ c ∈ scan.collisions, c.logical = f.logical ∧ f.native ∈ c.natives
  only : ∀ c ∈ scan.collisions, ∀ native ∈ c.natives, ∃ f ∈ sharers, f.logical = c.logical ∧
    f.native = native
  once : scan.collisions.Pairwise fun a b => a.logical < b.logical

theorem keeps_finish (scan : Scan) : ∃ sharers, scan.finish.Keeps scan.files sharers := by
  obtain ⟨files, hfiles⟩ : ∃ files, files = scan.files.mergeSort fun a b => a.logical ≤ b.logical :=
    ⟨_, rfl⟩
  obtain ⟨found, hfound⟩ :
    ∃ found, found = (Detector.detect (files.map fun f => (f.logical, f.native))).finish :=
    ⟨_, rfl⟩
  have hkept : scan.finish.files = files.filter fun f => f.logical ∉ colliding found := by
    rw [hfound, hfiles]
    rfl
  have hcollisions : scan.finish.collisions = found := by
    rw [hfound, hfiles]
    rfl
  have hsharing :
      ∀ native logical, native ∈ sharing (files.map fun f => (f.logical, f.native)) logical ↔
      ∃ f ∈ files, f.logical = logical ∧ f.native = native := by
    intro native logical
    simp [sharing]
  have hnatives : ∀ c ∈ found, ∀ native, native ∈ c.natives ↔
      ∃ f ∈ files, f.logical = c.logical ∧ f.native = native := by
    intro c hc native
    rw [hfound, Detector.mem_finish] at hc
    rw [hc.2.2, sorted, mem_mergeSort, hsharing]
  refine ⟨files.filter fun f => !decide (f.logical ∉ colliding found), ?_, ?_, ?_, ?_, ?_⟩
  · rw [hkept]
    refine List.Perm.trans ?_ (filter_append_perm _ files).symm
    rw [hfiles]
    exact (mergeSort_perm ..).symm
  · intro f hf c hc heq
    rw [hkept, mem_filter, decide_eq_true_eq] at hf
    rw [hcollisions] at hc
    exact hf.2 (mem_map.mpr ⟨c, hc, heq⟩)
  · intro f hf
    simp only [mem_filter, Bool.not_eq_true', decide_eq_false_iff_not, not_not] at hf
    obtain ⟨c, hc, heq⟩ := mem_map.mp hf.2
    rw [hcollisions]
    exact ⟨c, hc, heq, (hnatives c hc f.native).mpr ⟨f, hf.1, heq.symm, rfl⟩⟩
  · intro c hc native hnative
    rw [hcollisions] at hc
    obtain ⟨f, hf, hlogical, hnative⟩ := (hnatives c hc native).mp hnative
    refine ⟨f, ?_, hlogical, hnative⟩
    simp only [mem_filter, Bool.not_eq_true', decide_eq_false_iff_not, not_not]
    exact ⟨hf, mem_map.mpr ⟨c, hc, hlogical.symm⟩⟩
  · rw [hcollisions, hfound]
    exact Detector.ascends_finish _

end Scan

def osName (name : Name) : OsName :=
  if h : fromUtf8 name = some "" then ⟨none, nofun⟩ else ⟨fromUtf8 name, h⟩

def parentDirText : String := "the name is '..', which addresses a directory rather than naming one"

def issueText : Unrepresentable → String
  | .notUtf8 => "the name is not valid UTF-8, so it has no logical vault path"
  | .separator c => "the name contains '" ++ c.toString ++
    "', which separates path components on " ++
    "other platforms, so it has no single logical vault path"

structure Root where
  text : Bytes
  fileName : Option Name

def Root.shown (root : Root) (path : List Name) : String :=
  Store.toStringLossy <|
    if path = [] then root.text
    else if root.text = [] ∨ root.text.getLast? = some Store.separator
      then root.text ++ Store.joinNames path
    else root.text ++ Store.separator :: Store.joinNames path

structure Job where
  nfc : String → String
  root : Root
  filter : Filter.FilterSet
  policy : LinkPolicy

structure Pending where
  path : List Name
  ancestors : Option (List Nat)
  deriving DecidableEq

namespace Job

variable (job : Job) (io : Io)

def consider (file : ScannedFile) : Finding :=
  if job.filter.admits ((Filter.Candidate.ofFile file.logical file.size).withTime file.modifiedUnix)
    then .file file
  else .filtered

def readSorted (path : List Name) : Except String (List Name) :=
  (io.readDir path).map fun results => (results.filterMap Except.toOption).mergeSort fun a b =>
    a ≤ b

def confine : Option (List Name) :=
  if job.policy.confined then (io.canonicalize []).toOption else none

def land (path : List Name) : LinkTarget :=
  match job.confine io with
  | none => .inside
  | some base =>
    match io.canonicalize path with
    | .ok resolved => if base.isPrefixOf resolved then .inside else .outside
    | .error _ => .missing

def resolveLink (ancestors : Option (List Nat)) (path : List Name) :
    LinkVerdict × Option Metadata :=
  if !job.policy.follows then (job.policy.decide .unread, none)
  else match io.metadata path with
    | .error _ => (job.policy.decide .missing, none)
    | .ok target =>
      let verdict := job.policy.decide (job.land io path)
      if verdict ≠ .followed then (verdict, none)
      else match target.type with
        | .dir => if ancestors.any (target.id ∈ ·) then (.cycle, none) else (.followed, some target)
        | .file .. => (.followed, some target)
        | _ => (.notStorable, none)

abbrev Given := List Finding × List Pending

def settle (p : Pending) (path : List Name) (logical : String) (resolved : Metadata) : Given :=
  match resolved.type with
  | .dir =>
    if job.filter.mayDescend logical then ([], [⟨path, p.ancestors.map (resolved.id :: ·)⟩])
    else ([.filtered], [])
  | .file len modified =>
    ([job.consider ⟨logical, path.map fun name => (osName name).text.getD "", len,
      localModified modified⟩], [])
  | .special kind => ([.special logical kind], [])
  | .symlink => ([.special logical .unknown], [])

def visitEntry (p : Pending) (name : Name) : Given :=
  let path := p.path ++ [name]
  match toLogical job.nfc (path.map osName) with
  | .error issue => ([.problem ⟨job.root.shown path, issueText issue⟩], [])
  | .ok logical =>
    match io.symlinkMetadata path with
    | .error text => ([.problem ⟨job.root.shown path, text⟩], [])
    | .ok metadata =>
      if metadata.type = .symlink then
        match job.resolveLink io p.ancestors path with
        | (verdict, none) => ([.link logical verdict], [])
        | (verdict, some target) =>
          let given := job.settle p path logical target
          (.link logical verdict :: given.1, given.2)
      else job.settle p path logical metadata

/-- Read one directory.  What is pushed last is on top. -/
def visit (p : Pending) : Given :=
  match readSorted io p.path with
  | .error text => ([.problem ⟨job.root.shown p.path, text⟩], [])
  | .ok names =>
    let given := names.map (job.visitEntry io p)
    (given.flatMap (·.1), given.reverse.flatMap (·.2))

def turn : Scan × List Pending → Scan ⊕ Scan × List Pending
  | (scan, []) => .inl scan
  | (scan, p :: stack) =>
    let given := job.visit io p
    .inr (scan.recordAll given.1, given.2 ++ stack)

def first : Pending :=
  ⟨[], if job.policy.follows then io.rootAgain.toOption.map fun found => [found.id] else none⟩

def single (len : Nat) (modified : Option SystemTime) : Finding :=
  match job.root.fileName with
  | none => .problem ⟨job.root.shown [], parentDirText⟩
  | some name =>
    match toLogicalComponent job.nfc (osName name) with
    | .ok logical => job.consider ⟨logical, [], len, localModified modified⟩
    | .error issue => .problem ⟨job.root.shown [], issueText issue⟩

def walk (fuel : Nat) : Option Scan :=
  match io.rootMetadata with
  | .error text => some (({} : Scan).record (.problem ⟨job.root.shown [], text⟩))
  | .ok found =>
    match found.type with
    | .file len modified => some (({} : Scan).record (job.single len modified))
    | _ => (passes (job.turn io) fuel ({}, [job.first io])).map Scan.finish

end Job

end Dctl.Backup
