import Dctl.Backup.Scan

/-! What a backup's scan says of the entries that it met: that it comes to an end, and that every
entry of the listings it read is in one of its lists. -/

namespace Dctl.Backup

open ProofKit Cli Transfer List
open Store (Name Leaf SpecialKind Tree)

/-! ### The entries and their records -/

inductive Fate where
  /-- A directory that the walk enters. -/
  | entered
  | file (file : ScannedFile)
  | filtered
  | special (path : String) (kind : SpecialKind)
  | problem (problem : Problem)
  deriving DecidableEq

/-- An entry that the walk met: what is recorded of it as a link, and what else became of it or of
what is behind it. -/
structure Met where
  path : List Name
  link : Option (String × LinkVerdict)
  fate : Option Fate

namespace Met

def file? (e : Met) : Option ScannedFile :=
  match e.fate with
  | some (.file f) => some f
  | _ => none

def special? (e : Met) : Option (String × SpecialKind) :=
  match e.fate with
  | some (.special path kind) => some (path, kind)
  | _ => none

def problem? (e : Met) : Option Problem :=
  match e.fate with
  | some (.problem p) => some p
  | _ => none

def entered? (e : Met) : Option (List Name) :=
  match e.fate with
  | some .entered => some e.path
  | _ => none

end Met

/-- What is recorded names the entry at the path, and is what the call answered about it. -/
def Fate.Records (job : Job) (path : List Name) (answer : Except String Metadata) : Fate → Prop
  | .entered => ∃ id, answer = .ok ⟨id, .dir⟩
  | .filtered => ∃ found, answer = .ok found ∧
      (found.type = .dir ∨ ∃ len modified, found.type = .file len modified)
  | .file f => toLogical job.nfc (path.map osName) = .ok f.logical ∧
      f.native = path.map (fun name => (osName name).text.getD "") ∧
      ∃ id modified, answer = .ok ⟨id, .file f.size modified⟩ ∧
        f.modifiedUnix = localModified modified
  | .special logical kind => toLogical job.nfc (path.map osName) = .ok logical ∧
      ∃ id, answer = .ok ⟨id, .special kind⟩
  | .problem p => p.path = job.root.shown path ∧ (answer = .error p.detail ∨
      ∃ issue, toLogical job.nfc (path.map osName) = .error issue ∧ p.detail = issueText issue)

/-- `symlink_metadata` calls the entry a link, and its path has a logical form. -/
def Job.SeesLink (job : Job) (io : Io) (path : List Name) : Prop :=
  (∃ logical, toLogical job.nfc (path.map osName) = .ok logical) ∧
    ∃ id, io.symlinkMetadata path = .ok ⟨id, .symlink⟩

/-- An entry is recorded as a link if that is what it is, under its logical path.  What is no link,
and what is behind a link that was followed, has one fate, and a link that was not followed has
none. -/
structure Met.Sound (job : Job) (io : Io) (e : Met) : Prop where
  one : match e.link with
    | none => e.fate ≠ none
    | some (_, .followed) => e.fate = some .entered ∨ e.fate = some .filtered ∨
      ∃ f, e.fate = some (.file f)
    | some _ => e.fate = none
  isLink : e.link ≠ none ↔ job.SeesLink io e.path
  link : ∀ l, e.link = some l → toLogical job.nfc (e.path.map osName) = .ok l.1
  fate : ∀ fate, e.fate = some fate → fate.Records job e.path
    (if e.link = none then io.symlinkMetadata e.path else io.metadata e.path)

/-- The findings and the directories to be read next that are those of these entries, and of
directories that could not be read. -/
structure Tells (given : Job.Given) (met : List Met) (unread : List Problem) : Prop where
  links : given.1.filterMap Finding.link? = met.filterMap Met.link
  specials : given.1.filterMap Finding.special? = met.filterMap Met.special?
  files : given.1.filterMap Finding.file? = met.filterMap Met.file?
  filtered : given.1.countP (· = .filtered) = met.countP fun e => e.fate = some .filtered
  problems : (given.1.filterMap Finding.problem?).Perm (met.filterMap Met.problem? ++ unread)
  entered : (given.2.map Pending.path).Perm (met.filterMap Met.entered?)

variable {job : Job} {io : Io} {given given' : Job.Given} {met met' : List Met}
  {lost lost' : List Problem}
  {p : Pending} {path : List Name} {logical : String} {resolved : Metadata}

theorem tells_nil : Tells ([], []) [] [] := ⟨rfl, rfl, rfl, rfl, .nil, .nil⟩

theorem Tells.append (h : Tells given met lost) (h' : Tells given' met' lost') :
    Tells (given.1 ++ given'.1, given'.2 ++ given.2) (met ++ met') (lost ++ lost') where
  links := by simp [h.links, h'.links]
  specials := by simp [h.specials, h'.specials]
  files := by simp [h.files, h'.files]
  filtered := by simp [h.filtered, h'.filtered]
  problems := by
    rw [filterMap_append, filterMap_append]
    refine (h.problems.append h'.problems).trans ?_
    simp only [append_assoc]
    exact (perm_append_comm_assoc ..).append_left _
  entered := by
    rw [map_append, filterMap_append]
    exact perm_append_comm.trans (h.entered.append h'.entered)

/-! ### One entry -/

theorem settle_tells (hlogical : toLogical job.nfc (path.map osName) = .ok logical) (p : Pending)
    {resolved : Metadata} (hno : resolved.type ≠ .symlink) : ∃ fate : Fate,
      Tells (job.settle p path logical resolved) [⟨path, none, some fate⟩] [] ∧
      fate.Records job path (.ok resolved) ∧
      (resolved.type = .dir ∨ (∃ len modified, resolved.type = .file len modified) →
        fate = .entered ∨ fate = .filtered ∨ ∃ f, fate = .file f) := by
  obtain ⟨id, type⟩ := resolved
  rw [Job.settle]
  cases type with
  | dir =>
    dsimp only
    split
    · exact ⟨.entered, ⟨rfl, rfl, rfl, rfl, .nil, .refl _⟩, ⟨id, rfl⟩, fun _ => .inl rfl⟩
    · exact ⟨.filtered, ⟨rfl, rfl, rfl, rfl, .nil, .nil⟩, ⟨_, rfl, .inl rfl⟩,
        fun _ => .inr (.inl rfl)⟩
  | file len modified =>
    dsimp only
    rw [Job.consider]
    split
    · exact ⟨.file _, ⟨rfl, rfl, rfl, rfl, .nil, .nil⟩, ⟨hlogical, rfl, id, modified, rfl, rfl⟩,
        fun _ => .inr (.inr ⟨_, rfl⟩)⟩
    · exact ⟨.filtered, ⟨rfl, rfl, rfl, rfl, .nil, .nil⟩, ⟨_, rfl, .inr ⟨len, modified, rfl⟩⟩,
        fun _ => .inr (.inl rfl)⟩
  | special kind =>
    exact ⟨.special logical kind, ⟨rfl, rfl, rfl, rfl, .nil, .nil⟩, ⟨hlogical, id, rfl⟩, by simp⟩
  | symlink => exact absurd rfl hno

theorem resolveLink_eq (job : Job) (io : Io) (ancestors : Option (List Nat)) (path : List Name) :
    ((job.resolveLink io ancestors path).2 = none ∧
      (job.resolveLink io ancestors path).1 ≠ .followed) ∨
      ∃ target, job.resolveLink io ancestors path = (.followed, some target) ∧
        io.metadata path = .ok target ∧
        job.policy.follows = true ∧
          (target.type = .dir ∧ (∀ chain, ancestors = some chain → target.id ∉ chain) ∨
          ∃ len modified, target.type = .file len modified) := by
  rw [Job.resolveLink]
  split
  · refine .inl ⟨rfl, ?_⟩
    cases hpolicy : job.policy with
    | skip => decide
    | follow | inTree => simp_all [LinkPolicy.follows]
  · rename_i hfollows
    split
    · refine .inl ⟨rfl, ?_⟩
      cases job.policy <;> decide
    · rename_i target htarget
      dsimp only
      split
      · rename_i hverdict
        exact .inl ⟨rfl, hverdict⟩
      · rename_i hverdict
        rw [not_not] at hverdict
        split
        · rename_i htype
          split
          · exact .inl ⟨rfl, by decide⟩
          · rename_i hcycle
            refine .inr ⟨target, rfl, htarget, by simpa using hfollows, .inl ⟨htype, ?_⟩⟩
            rintro chain rfl hmem
            exact hcycle (by simpa using hmem)
        · rename_i len modified htype
          exact .inr ⟨target, rfl, htarget, by simpa using hfollows, .inr ⟨len, modified, htype⟩⟩
        · exact .inl ⟨rfl, by decide⟩

theorem visitEntry_tells (job : Job) (io : Io) (p : Pending) (name : Name) :
    ∃ e : Met, e.path = p.path ++ [name] ∧ e.Sound job io ∧
      Tells (job.visitEntry io p name) [e] [] := by
  obtain ⟨path, hpath⟩ : ∃ path, path = p.path ++ [name] := ⟨_, rfl⟩
  have hproblem : ∀ problem : Problem,
      Fate.Records job path (io.symlinkMetadata path) (.problem problem) →
      ¬job.SeesLink io path →
      ∃ e : Met, e.path = path ∧ e.Sound job io ∧ Tells ([.problem problem], []) [e] [] := by
    intro problem hrecords hno
    refine ⟨⟨path, none, some (.problem problem)⟩, rfl, ⟨Option.some_ne_none _, ?_, nofun, ?_⟩,
      rfl, rfl, rfl, rfl, .refl _, .nil⟩
    · exact iff_of_false (not_not_intro rfl) hno
    · rintro fate ⟨⟩
      exact hrecords
  rw [Job.visitEntry, ← hpath]
  dsimp only
  split
  · rename_i issue hissue
    refine hproblem _ ⟨rfl, .inr ⟨issue, hissue, rfl⟩⟩ ?_
    rintro ⟨⟨logical, hlogical⟩, -⟩
    cases hissue.symm.trans hlogical
  · rename_i logical hlogical
    split
    · rename_i text htext
      refine hproblem _ ⟨rfl, .inl htext⟩ ?_
      rintro ⟨-, id, hid⟩
      cases htext.symm.trans hid
    · rename_i found hfound
      split
      · rename_i hlink
        have hsees : job.SeesLink io path := by
          refine ⟨⟨logical, hlogical⟩, found.id, ?_⟩
          rw [hfound, ← hlink]
        have hisLink : ∀ verdict : LinkVerdict, some (logical, verdict) ≠ none ↔
            job.SeesLink io path :=
          fun _ => iff_of_true (Option.some_ne_none _) hsees
        rcases resolveLink_eq job io p.ancestors path with ⟨hnone, hverdict⟩ |
          ⟨target, heq, hmeta, -, htype⟩
        · obtain ⟨verdict, hlink⟩ : ∃ verdict, job.resolveLink io p.ancestors path =
            (verdict, none) :=
            ⟨_, Prod.ext rfl hnone⟩
          rw [hlink] at hverdict ⊢
          refine ⟨⟨path, some (logical, verdict), none⟩, rfl, ⟨?_, hisLink verdict, ?_, nofun⟩,
            rfl, rfl, rfl, rfl, .nil, .nil⟩
          · cases verdict with
            | followed => exact absurd rfl hverdict
            | notFollowed | broken | outOfTree | cycle | notStorable => rfl
          · rintro l ⟨⟩
            exact hlogical
        · rw [heq]
          dsimp only
          have hno : target.type ≠ .symlink := by
            rcases htype with ⟨hdir, -⟩ | ⟨len, modified, hfile⟩ <;> simp [*]
          obtain ⟨fate, hfate, hrecords, hkind⟩ := settle_tells hlogical p hno
          refine ⟨⟨path, some (logical, .followed), some fate⟩, rfl, ⟨?_, hisLink _, ?_, ?_⟩, ?_⟩
          · rcases hkind (htype.imp_left And.left) with rfl | rfl | ⟨f, rfl⟩
            · exact .inl rfl
            · exact .inr (.inl rfl)
            · exact .inr (.inr ⟨f, rfl⟩)
          · rintro l ⟨⟩
            exact hlogical
          · rintro _ ⟨⟩
            rw [if_neg (Option.some_ne_none _), hmeta]
            exact hrecords
          · refine ⟨?_, hfate.specials, hfate.files, ?_, hfate.problems, hfate.entered⟩
            · exact congrArg (List.cons (logical, LinkVerdict.followed)) hfate.links
            · rw [countP_cons_of_neg (by simp)]
              exact hfate.filtered
      · rename_i hno
        obtain ⟨fate, hfate, hrecords, -⟩ := settle_tells hlogical p hno
        refine ⟨⟨path, none, some fate⟩, rfl, ⟨Option.some_ne_none fate, ?_, nofun, ?_⟩, hfate⟩
        · refine iff_of_false (not_not_intro rfl) ?_
          rintro ⟨-, id, hid⟩
          obtain rfl := Except.ok.inj (hfound.symm.trans hid)
          exact hno rfl
        · rintro _ ⟨⟩
          rw [if_pos rfl, hfound]
          exact hrecords

/-! ### Whole walks -/

def listed (io : Io) (path : List Name) : List Name :=
  match Job.readSorted io path with
  | .ok names => names
  | .error _ => []

def Job.unread (job : Job) (io : Io) (path : List Name) : Option Problem :=
  match Job.readSorted io path with
  | .ok _ => none
  | .error text => some ⟨job.root.shown path, text⟩

theorem entries_tell (job : Job) (io : Io) (p : Pending) (names : List Name) :
    ∃ met : List Met, met.map Met.path = names.map (fun name => p.path ++ [name]) ∧
      (∀ e ∈ met, e.Sound job io) ∧
      Tells ((names.map (job.visitEntry io p)).flatMap (·.1),
        (names.map (job.visitEntry io p)).reverse.flatMap (·.2))
        met [] := by
  induction names with
  | nil => exact ⟨[], rfl, nofun, tells_nil⟩
  | cons name names ih =>
    obtain ⟨e, hpath, hsound, htells⟩ := visitEntry_tells job io p name
    obtain ⟨met, hpaths, hall, hrest⟩ := ih
    refine ⟨e :: met, ?_, forall_mem_cons.mpr ⟨hsound, hall⟩, ?_⟩
    · rw [map_cons, map_cons, hpath, hpaths]
    · have happend := htells.append hrest
      rw [map_cons, flatMap_cons, reverse_cons, flatMap_append, flatMap_singleton]
      exact happend

theorem visit_tells (job : Job) (io : Io) (p : Pending) :
    ∃ met : List Met, met.map Met.path = (listed io p.path).map (fun name => p.path ++ [name]) ∧
      (∀ e ∈ met, e.Sound job io) ∧ Tells (job.visit io p) met (job.unread io p.path).toList := by
  rw [Job.visit, listed, Job.unread]
  cases Job.readSorted io p.path with
  | error text => exact ⟨[], rfl, nofun, rfl, rfl, rfl, rfl, .refl _, .nil⟩
  | ok names => exact entries_tell job io p names

abbrev Job.visits (job : Job) (io : Io) : Walk.Visits Unit Pending Finding Empty :=
  fun _ p x _ => x = .ok (job.visit io p)

variable {stack : List Pending}

theorem visit_of_walks {trace : List (Walk.Visit Pending Finding)} {end' : Except Empty Unit}
    {s s' : Unit} (h : Walk.Walks (job.visits io) s stack trace end' s') :
    ∀ v ∈ trace, job.visit io v.at = (v.found, v.pushed) := by
  induction h with
  | done => exact nofun
  | failed => exact nofun
  | visit hvisit _ ih =>
    intro v hv
    rcases mem_cons.mp hv with rfl | hv
    · exact (Except.ok.inj hvisit).symm
    · exact ih v hv

theorem trace_tells {trace : List (Walk.Visit Pending Finding)}
    (h : ∀ v ∈ trace, job.visit io v.at = (v.found, v.pushed)) :
    ∃ met : List Met, met.map Met.path =
        (trace.map (·.at.path)).flatMap (fun dir => (listed io dir).map fun name => dir ++ [name]) ∧
      (∀ e ∈ met, e.Sound job io) ∧
        Tells (Walk.findings trace, trace.reverse.flatMap (·.pushed)) met
        ((trace.map (·.at.path)).filterMap (job.unread io)) := by
  induction trace with
  | nil => exact ⟨[], rfl, nofun, tells_nil⟩
  | cons v trace ih =>
    obtain ⟨hfirst, hrest⟩ := forall_mem_cons.mp h
    obtain ⟨met, hpaths, hsound, htells⟩ := visit_tells job io v.at
    obtain ⟨met', hpaths', hsound', htells'⟩ := ih hrest
    refine ⟨met ++ met', ?_, forall_mem_append.mpr ⟨hsound, hsound'⟩, ?_⟩
    · rw [map_append, map_cons, flatMap_cons, hpaths, hpaths']
    · rw [hfirst] at htells
      have happend := htells.append htells'
      have hunread : ((v :: trace).map (·.at.path)).filterMap (job.unread io) =
          (job.unread io v.at.path).toList ++ (trace.map (·.at.path)).filterMap
            (job.unread io) := by
        rw [map_cons, filterMap_cons]
        cases job.unread io v.at.path <;> rfl
      rw [hunread, Walk.findings, flatMap_cons, reverse_cons, flatMap_append, flatMap_singleton]
      exact happend

theorem turn_nil (scan : Scan) : job.turn io (scan, []) = .inl scan := rfl

theorem turn_cons (scan : Scan) (p : Pending) (stack : List Pending) :
    job.turn io (scan, p :: stack) =
    .inr (scan.recordAll (job.visit io p).1, (job.visit io p).2 ++ stack) := rfl

theorem walks_of_passes {fuel : Nat} {scan scan' : Scan}
    (h : passes (job.turn io) fuel (scan, stack) = some scan') :
    ∃ trace, Walk.Walks (job.visits io) () stack trace (.ok ()) () ∧
      scan' = scan.recordAll (Walk.findings trace) := by
  induction fuel generalizing scan stack with
  | zero => cases h
  | succ fuel ih =>
    cases stack with
    | nil =>
      rw [passes_inl (turn_nil scan)] at h
      cases h
      exact ⟨[], .done, rfl⟩
    | cons p stack =>
      rw [passes_inr (turn_cons scan p stack)] at h
      obtain ⟨trace, hwalks, rfl⟩ := ih h
      refine ⟨⟨p, (job.visit io p).1, (job.visit io p).2⟩ :: trace, .visit rfl hwalks, ?_⟩
      exact (Scan.recordAll_append ..).symm

theorem passes_of_acc (h : Acc (fun a b => Walk.Step (job.visits io) b a) ((), stack))
    (scan : Scan) :
    ∃ fuel scan', passes (job.turn io) fuel (scan, stack) = some scan' := by
  generalize hstate : ((), stack) = state at h
  induction h generalizing stack scan with
  | intro state _ ih =>
    subst hstate
    cases stack with
    | nil => exact ⟨1, scan, passes_inl (turn_nil scan)⟩
    | cons p stack =>
      have hstep : Walk.Step (job.visits io) ((), p :: stack) ((), (job.visit io p).2 ++ stack) :=
        .visit rfl
      obtain ⟨fuel, scan', hpasses⟩ := ih _ hstep (scan.recordAll (job.visit io p).1) rfl
      exact ⟨fuel + 1, scan', (passes_inr (turn_cons scan p stack)).trans hpasses⟩

/-! ### The system -/

def typeOf : DiskNode Name Leaf → FileType
  | .dir => .dir
  | .link _ => .symlink
  | .file (.regular size modified) => .file size modified
  | .file (.special kind) => .special kind

/-- A machine: its tree, where the root of the walk leads, what tells directories apart, and how
many links the system takes over one path. -/
structure Machine where
  tree : Tree
  root : List Name
  ident : List Name → Nat
  links : Nat

namespace Machine

variable (m : Machine)

/-- The system resolves the path to this node. -/
def At (path place : List Name) (node : DiskNode Name Leaf) : Prop :=
  ∃ via, Disk.Leads m.tree.disk m.root (path.map .name) via place ∧ via.length ≤ m.links ∧
    m.tree.disk place = some node

def describe (place : List Name) (node : DiskNode Name Leaf) : Metadata :=
  ⟨m.ident place, typeOf node⟩

/-- What a listing delivers is there, once; a listing without an error delivers everything. -/
structure Lists (place : List Name) (results : List (Except String Name)) : Prop where
  nodup : (results.filterMap Except.toOption).Nodup
  truthful : ∀ n, .ok n ∈ results → m.tree.disk (place ++ [n]) ≠ none
  whole : (∀ text, .error text ∉ results) → ∀ n, m.tree.disk (place ++ [n]) ≠ none → .ok n ∈ results

/-- Every call fails, or says what is so. -/
structure Answers (io : Io) : Prop where
  root : ∀ found, io.rootMetadata = .ok found ∨ io.rootAgain = .ok found →
    ∃ node, m.tree.disk m.root = some node ∧ found = m.describe m.root node
  readDir : ∀ path results, io.readDir path = .ok results →
    ∃ place, m.At path place .dir ∧ m.Lists place results
  symlinkMetadata : ∀ path n found, io.symlinkMetadata (path ++ [n]) = .ok found →
    ∃ place node, m.At path place .dir ∧ m.tree.disk (place ++ [n]) = some node ∧
      found = m.describe (place ++ [n]) node
  metadata : ∀ path found, io.metadata path = .ok found → ∃ place node, m.At path place node ∧
    found = m.describe place node
  canonicalize : ∀ path place, io.canonicalize path = .ok place → ∃ node, m.At path place node

end Machine

/-! ### The walk ends -/

theorem settle_pushed {q : Pending} (h : q ∈ (job.settle p path logical resolved).2) :
    resolved.type = .dir ∧ q = ⟨path, p.ancestors.map (resolved.id :: ·)⟩ := by
  rw [Job.settle] at h
  split at h
  · rename_i htype
    split at h
    · exact ⟨htype, mem_singleton.mp h⟩
    · cases h
  · cases h
  · cases h
  · cases h

theorem visitEntry_pushed {q : Pending} {name : Name} (h : q ∈ (job.visitEntry io p name).2) :
    ∃ found, io.symlinkMetadata (p.path ++ [name]) = .ok found ∧
      ((found.type = .dir ∧ q = ⟨p.path ++ [name], p.ancestors.map (found.id :: ·)⟩) ∨
        ∃ target, found.type = .symlink ∧ io.metadata (p.path ++ [name]) = .ok target ∧
          target.type = .dir ∧
          (∀ chain, p.ancestors = some chain → target.id ∉ chain) ∧
          q = ⟨p.path ++ [name], p.ancestors.map (target.id :: ·)⟩) := by
  rw [Job.visitEntry] at h
  dsimp only at h
  split at h
  · cases h
  · split at h
    · cases h
    · rename_i found hfound
      refine ⟨found, hfound, ?_⟩
      split at h
      · rename_i hlink
        rcases resolveLink_eq job io p.ancestors (p.path ++ [name]) with ⟨hnone, -⟩ |
          ⟨target, heq, hmeta, -, htype⟩
        · split at h
          · cases h
          · rename_i heq
            rw [heq] at hnone
            cases hnone
        · rw [heq] at h
          obtain ⟨hdir, hq⟩ := settle_pushed h
          refine .inr ⟨target, hlink, hmeta, hdir, ?_, hq⟩
          rcases htype with ⟨-, hcycle⟩ | ⟨len, modified, hfile⟩
          · exact hcycle
          · rw [hdir] at hfile
            cases hfile
      · exact .inl (settle_pushed h)

theorem visit_pushed {q : Pending} (h : q ∈ (job.visit io p).2) :
    ∃ name ∈ listed io p.path, q ∈ (job.visitEntry io p name).2 := by
  rw [Job.visit] at h
  rw [listed]
  split at h
  · cases h
  · rename_i names hnames
    obtain ⟨given, hgiven, hq⟩ := mem_flatMap.mp h
    obtain ⟨name, hname, rfl⟩ := mem_map.mp (mem_reverse.mp hgiven)
    rw [hnames]
    exact ⟨name, hname, hq⟩

theorem readSorted_eq_ok {names : List Name} : Job.readSorted io path = .ok names ↔
    ∃ results, io.readDir path = .ok results ∧
      names = (results.filterMap Except.toOption).mergeSort fun a b => a ≤ b := by
  rw [Job.readSorted]
  cases io.readDir path with
  | error text => simp [Except.map]
  | ok results => simp [Except.map, eq_comm]

theorem mem_listed {n : Name} :
    n ∈ listed io path ↔ ∃ results, io.readDir path = .ok results ∧ .ok n ∈ results := by
  have hmem : ∀ results : List (Except String Name),
      n ∈ (results.filterMap Except.toOption).mergeSort (fun a b => a ≤ b) ↔ .ok n ∈ results := by
    intro results
    rw [mem_mergeSort, mem_filterMap]
    constructor
    · rintro ⟨x, hx, heq⟩
      cases x with
      | error text => cases heq
      | ok name =>
        cases heq
        exact hx
    · exact fun h => ⟨_, h, rfl⟩
  rw [listed, Job.readSorted]
  cases io.readDir path with
  | error text => simp [Except.map]
  | ok results => simpa [Except.map] using hmem results

variable {m : Machine}

theorem nodup_listed (hio : m.Answers io) (path : List Name) : (listed io path).Nodup := by
  rw [listed]
  split
  · rename_i names hnames
    obtain ⟨results, hread, rfl⟩ := readSorted_eq_ok.mp hnames
    obtain ⟨place, -, hlists⟩ := hio.readDir path results hread
    exact (mergeSort_perm ..).nodup_iff.mpr hlists.nodup
  · exact nodup_nil

theorem Machine.exists_bounds (m : Machine) : ∃ depth width idents : Nat,
    (∀ place, m.tree.disk place ≠ none → place.length ≤ depth) ∧
    (∀ place (names : List Name), names.Nodup → (∀ n ∈ names, m.tree.disk (place ++ [n]) ≠ none) →
      names.length ≤ width) ∧
    ∀ chain : List Nat, (∀ id ∈ chain, ∃ q, m.tree.disk q ≠ none ∧ m.ident q = id) →
      chain.toFinset.card ≤ idents := by
  classical
  obtain ⟨places, hplaces⟩ : ∃ places, places = m.tree.finite.toFinset := ⟨_, rfl⟩
  have hmem : ∀ q, q ∈ places ↔ m.tree.disk q ≠ none := by
    intro q
    rw [hplaces, Set.Finite.mem_toFinset]
    rfl
  refine ⟨places.sup List.length, places.card, (places.image m.ident).card, ?_, ?_, ?_⟩
  · intro place hplace
    exact Finset.le_sup (f := List.length) ((hmem place).mpr hplace)
  · intro place names hnodup hnames
    have hmap : (names.map (place ++ [·])).Nodup := hnodup.map fun a b h => by simpa using h
    rw [← length_map (place ++ [·]), ← toFinset_card_of_nodup hmap]
    refine Finset.card_le_card fun q hq => ?_
    obtain ⟨n, hn, rfl⟩ := mem_map.mp (mem_toFinset.mp hq)
    exact (hmem _).mpr (hnames n hn)
  · intro chain hchain
    refine Finset.card_le_card fun id hid => ?_
    obtain ⟨q, hq, rfl⟩ := hchain id (mem_toFinset.mp hid)
    exact Finset.mem_image_of_mem _ ((hmem q).mpr hq)

/-- What a waiting directory can still cost: it lies at a place of the tree, behind so many links
that were followed, each of which led to another directory if the ancestors are kept. -/
def Ranked (m : Machine) (depth bound : Nat) (p : Pending) (rank : Nat) : Prop :=
  ∃ place via hops, Disk.Leads m.tree.disk m.root (p.path.map .name) via place ∧
    m.tree.disk place ≠ none ∧
    hops ≤ via.length ∧ hops ≤ bound ∧
    (∀ chain, p.ancestors = some chain → hops + 1 ≤ chain.toFinset.card ∧
      ∀ id ∈ chain, ∃ q, m.tree.disk q ≠ none ∧ m.ident q = id) ∧
    rank = (bound - hops) * (depth + 1) + (depth - place.length)

section Ranks

variable {depth bound idents rank : Nat} {q : Pending} {name : Name} {found target : Metadata}

theorem Ranked.child (h : Ranked m depth bound p rank) (hio : m.Answers io)
    (hdepth : ∀ place, m.tree.disk place ≠ none → place.length ≤ depth)
    (hfound : io.symlinkMetadata (p.path ++ [name]) = .ok found) (hdir : found.type = .dir) :
    ∃ r < rank, Ranked m depth bound ⟨p.path ++ [name], p.ancestors.map (found.id :: ·)⟩ r := by
  obtain ⟨place, via, hops, hleads, -, hvia, hbound, hchain, rfl⟩ := h
  obtain ⟨place', node, ⟨via', hleads', -, -⟩, hnode, rfl⟩ := hio.symlinkMetadata _ _ _ hfound
  obtain ⟨-, rfl⟩ := hleads.unique hleads'
  obtain rfl : node = .dir := by
    cases node with
    | dir => rfl
    | link target => cases hdir
    | file leaf => cases leaf <;> cases hdir
  have hthere : m.tree.disk (place ++ [name]) ≠ none := by
    rw [hnode]
    exact Option.some_ne_none _
  have hdeep := hdepth _ hthere
  rw [length_append, length_singleton] at hdeep
  refine ⟨_, ?_, place ++ [name], via ++ [], hops, ?_, hthere, by simpa using hvia, hbound, ?_, rfl⟩
  · rw [length_append, length_singleton]
    omega
  · rw [map_append]
    refine hleads.append (.name (fun t ht => ?_) (.done _))
    rw [hnode] at ht
    cases ht
  · intro chain hsome
    obtain ⟨above, habove, rfl⟩ := Option.map_eq_some_iff.mp hsome
    obtain ⟨hcard, hids⟩ := hchain above habove
    refine ⟨?_, ?_⟩
    · rw [toFinset_cons]
      exact hcard.trans (Finset.card_le_card (Finset.subset_insert _ _))
    · intro id hid
      rcases mem_cons.mp hid with rfl | hid
      · exact ⟨_, hthere, rfl⟩
      · exact hids id hid

/-- A link that is followed to a directory is one more on the way.  Where the ancestors are kept it
led to a directory that is none of them, and otherwise the system takes over so many links and no
more. -/
theorem Ranked.link (h : Ranked m depth bound p rank) (hio : m.Answers io)
    (hidents : ∀ chain : List Nat, (∀ id ∈ chain, ∃ q, m.tree.disk q ≠ none ∧ m.ident q = id) →
      chain.toFinset.card ≤ idents) (hlimit : m.links + idents ≤ bound)
    (hfound : io.symlinkMetadata (p.path ++ [name]) = .ok found) (hlink : found.type = .symlink)
    (htarget : io.metadata (p.path ++ [name]) = .ok target)
    (hcycle : ∀ chain, p.ancestors = some chain → target.id ∉ chain) :
    ∃ r < rank, Ranked m depth bound ⟨p.path ++ [name], p.ancestors.map (target.id :: ·)⟩ r := by
  obtain ⟨place, via, hops, hleads, -, hvia, -, hchain, rfl⟩ := h
  obtain ⟨place', node, ⟨via', hleads', -, -⟩, hnode, rfl⟩ := hio.symlinkMetadata _ _ _ hfound
  obtain ⟨-, rfl⟩ := hleads.unique hleads'
  obtain ⟨place'', node'', ⟨via'', hleads'', hlinks, hnode''⟩, rfl⟩ := hio.metadata _ _ htarget
  obtain ⟨t, rfl⟩ : ∃ t, node = .link t := by
    cases node with
    | dir => cases hlink
    | link t => exact ⟨t, rfl⟩
    | file leaf => cases leaf <;> cases hlink
  have hmore : hops + 1 ≤ via''.length := by
    rw [map_append] at hleads''
    obtain ⟨front, mid, last, hfront, hlast, rfl⟩ := hleads''.split
    obtain ⟨rfl, rfl⟩ := hleads.unique hfront
    cases hlast with
    | name hno _ => exact absurd hnode (hno t)
    | link _ _ =>
      rw [length_append, length_cons]
      omega
  have hthere : m.tree.disk place'' ≠ none := by
    rw [hnode'']
    exact Option.some_ne_none _
  have hbound : hops + 1 ≤ bound := by
    cases hancestors : p.ancestors with
    | none => omega
    | some chain =>
      obtain ⟨hcard, hids⟩ := hchain chain hancestors
      have := hidents chain hids
      omega
  refine ⟨_, ?_, place'', via'', hops + 1, hleads'', hthere, hmore, hbound, ?_, rfl⟩
  · obtain ⟨rest, hrest⟩ := Nat.exists_eq_add_of_le hbound
    rw [show bound - (hops + 1) = rest by omega, show bound - hops = rest + 1 by omega,
      Nat.add_mul, Nat.one_mul]
    omega
  · intro chain hsome
    obtain ⟨above, habove, rfl⟩ := Option.map_eq_some_iff.mp hsome
    obtain ⟨hcard, hids⟩ := hchain above habove
    refine ⟨?_, ?_⟩
    · rw [toFinset_cons, Finset.card_insert_of_notMem]
      · omega
      · rw [mem_toFinset]
        exact hcycle above habove
    · intro id hid
      rcases mem_cons.mp hid with rfl | hid
      · exact ⟨place'', hthere, rfl⟩
      · exact hids id hid

end Ranks

theorem length_pushed (job : Job) (io : Io) (p : Pending) :
    (job.visit io p).2.length ≤ (listed io p.path).length := by
  obtain ⟨met, hpaths, -, htells⟩ := visit_tells job io p
  calc (job.visit io p).2.length = (met.filterMap Met.entered?).length := by
        rw [← htells.entered.length_eq, length_map]
    _ ≤ met.length := length_filterMap_le ..
    _ = (listed io p.path).length := by rw [← length_map Met.path, hpaths, length_map]

theorem ranked_first (hroot : m.tree.disk m.root ≠ none) (hio : m.Answers io) (depth bound : Nat) :
    ∃ rank, Ranked m depth bound (job.first io) rank := by
  refine ⟨_, m.root, [], 0, .done _, hroot, Nat.le_refl 0, Nat.zero_le bound, ?_, rfl⟩
  intro chain hchain
  rw [Job.first] at hchain
  dsimp only at hchain
  split at hchain
  · cases hagain : io.rootAgain with
    | error text =>
      rw [hagain] at hchain
      cases hchain
    | ok found =>
      rw [hagain] at hchain
      cases hchain
      obtain ⟨node, -, rfl⟩ := hio.root found (.inr hagain)
      refine ⟨by simp, ?_⟩
      rintro id hid
      exact ⟨m.root, hroot, (mem_singleton.mp hid).symm⟩
  · cases hchain

theorem Machine.Answers.acc (hio : m.Answers io) (job : Job) (hroot : m.tree.disk m.root ≠ none) :
    Acc (fun a b => Walk.Step (job.visits io) b a) ((), [job.first io]) := by
  obtain ⟨depth, width, idents, hdepth, hwidth, hidents⟩ := m.exists_bounds
  refine @Walk.Step.acc Unit Pending Finding Empty _ _ _
    (fun _ => Ranked m depth (m.links + idents)) width
    (fun _ _ => True) (fun _ _ _ _ _ => trivial) (fun _ _ _ _ _ h => h) ?_ ?_
  · intro _ p found new _ rank hvisit hrank
    obtain rfl : new = (job.visit io p).2 := congrArg Prod.snd (Except.ok.inj hvisit)
    refine ⟨(length_pushed job io p).trans ?_, ?_⟩
    · rw [listed]
      split
      · rename_i names hnames
        obtain ⟨results, hread, rfl⟩ := readSorted_eq_ok.mp hnames
        obtain ⟨place, -, hlists⟩ := hio.readDir p.path results hread
        rw [length_mergeSort]
        refine hwidth place _ hlists.nodup ?_
        intro n hn
        obtain ⟨x, hx, heq⟩ := mem_filterMap.mp hn
        cases x with
        | error text => cases heq
        | ok name =>
          cases heq
          exact hlists.truthful n hx
      · exact Nat.zero_le width
    · intro q hq
      obtain ⟨name, -, hq⟩ := visit_pushed hq
      obtain ⟨found, hfound, ⟨hdir, rfl⟩ | ⟨target, hlink, htarget, -, hcycle, rfl⟩⟩ :=
        visitEntry_pushed hq
      · exact hrank.child hio hdepth hfound hdir
      · exact hrank.link hio hidents (Nat.le_refl _) hfound hlink htarget hcycle
  · intro p hp
    rw [mem_singleton.mp hp]
    exact ranked_first hroot hio depth _

/-! ### No entry twice -/

theorem entered_sublist (met : List Met) :
    (met.filterMap Met.entered?).Sublist (met.map Met.path) := by
  induction met with
  | nil => exact .slnil
  | cons e met ih =>
    rw [filterMap_cons, map_cons]
    split
    · exact ih.cons _
    · rename_i path hpath
      obtain rfl : path = e.path := by
        rw [Met.entered?] at hpath
        split at hpath
        · exact (Option.some.inj hpath).symm
        · cases hpath
      exact ih.cons_cons _

theorem pushed_apart (hio : m.Answers io) (job : Job) (p : Pending) :
    (∀ q ∈ (job.visit io p).2, p.path <+: q.path ∧ q.path ≠ p.path) ∧
      Walk.Apart ((job.visit io p).2.map Pending.path) := by
  obtain ⟨met, hpaths, -, htells⟩ := visit_tells job io p
  have hsub := entered_sublist met
  rw [hpaths] at hsub
  refine ⟨?_, ?_⟩
  · intro q hq
    have hmem := hsub.subset (htells.entered.mem_iff.mp (mem_map_of_mem hq))
    obtain ⟨name, -, hpath⟩ := mem_map.mp hmem
    rw [← hpath]
    exact ⟨prefix_append .., by simp⟩
  · refine (htells.entered.pairwise_iff fun h => h.symm).mpr ?_
    exact (Walk.apart_children (nodup_listed hio p.path)).sublist hsub

theorem nodup_met (hio : m.Answers io) {dirs : List (List Name)} (hdirs : dirs.Nodup) :
    (dirs.flatMap fun dir => (listed io dir).map fun name => dir ++ [name]).Nodup := by
  refine nodup_flatMap.mpr ⟨?_, ?_⟩
  · intro dir _
    exact (nodup_listed hio dir).map fun a b h => by simpa using h
  · refine hdirs.imp ?_
    intro dir dir' hne path hpath hpath'
    obtain ⟨name, -, rfl⟩ := mem_map.mp hpath
    obtain ⟨name', -, heq⟩ := mem_map.mp hpath'
    exact hne (append_inj' heq rfl).1.symm

/-! ### The account -/

/-- Every entry that the listings of `dirs` delivered was met once, and the lists of the scan are
what became of the entries met, with the directories that could not be read among the problems. -/
structure Accounts (job : Job) (io : Io) (dirs : List (List Name)) (met : List Met) (scan : Scan) :
    Prop where
  paths : met.map Met.path = dirs.flatMap fun dir => (listed io dir).map fun name => dir ++ [name]
  once : (met.map Met.path).Nodup
  sound : ∀ e ∈ met, e.Sound job io
  entered : dirs.Perm ([] :: met.filterMap Met.entered?)
  links : scan.links.Of (met.filterMap Met.link)
  specials : scan.specials.Of (met.filterMap Met.special?)
  filtered : scan.filtered = met.countP fun e => e.fate = some .filtered
  problems : scan.problems.Perm (met.filterMap Met.problem? ++ dirs.filterMap (job.unread io))
  files : ∃ sharers, scan.Keeps (met.filterMap Met.file?) sharers

theorem accounts_of_passes (hio : m.Answers io) {fuel : Nat} {scan : Scan}
    (h : passes (job.turn io) fuel ({}, [job.first io]) = some scan) :
    ∃ dirs met, Accounts job io dirs met scan.finish := by
  obtain ⟨trace, hwalks, rfl⟩ := walks_of_passes h
  obtain ⟨met, hpaths, hsound, htells⟩ := trace_tells (visit_of_walks hwalks)
  have hapart : ∀ s p found new s', job.visits io s p (.ok (found, new)) s' →
      (∀ q ∈ new, p.path <+: q.path ∧ q.path ≠ p.path) ∧ Walk.Apart (new.map Pending.path) := by
    intro _ p found new _ hvisit
    obtain rfl : new = (job.visit io p).2 := congrArg Prod.snd (Except.ok.inj hvisit)
    exact pushed_apart hio job p
  obtain ⟨-, hdirs⟩ := hwalks.nodup Pending.path hapart (pairwise_singleton ..)
  have hall : (trace.map (·.at.path)).Perm ([] :: met.filterMap Met.entered?) := by
    have hvisited := hwalks.perm.map Pending.path
    rw [map_map, singleton_append, map_cons] at hvisited
    refine hvisited.trans (List.Perm.cons _ (List.Perm.trans ?_ htells.entered))
    exact ((reverse_perm trace).symm.flatMap_right _).map _
  rw [Scan.recordAll_eq]
  refine ⟨_, met, hpaths, ?_, hsound, hall, htells.links ▸ LinkReport.of_foldl _,
    htells.specials ▸ SpecialReport.of_foldl _, ?_, ?_, ?_⟩
  · rw [hpaths]
    exact nodup_met hio hdirs
  · exact (Nat.zero_add _).trans htells.filtered
  · exact (mergeSort_perm ..).trans htells.problems
  · obtain ⟨sharers, hkeeps⟩ := Scan.keeps_finish (({} : Scan).recordAll (Walk.findings trace))
    rw [Scan.recordAll_eq] at hkeeps
    refine ⟨sharers, ?_⟩
    rw [← htells.files]
    exact hkeeps

theorem Accounts.whole {dirs : List (List Name)} {scan : Scan} (h : Accounts job io dirs met scan)
    (hio : m.Answers io) (hnone : scan.problems = []) {dir : List Name} (hdir : dir ∈ dirs) :
    ∃ results, io.readDir dir = .ok results ∧ ((∀ text, .error text ∉ results) →
      ∃ place, m.At dir place .dir ∧ ∀ n, m.tree.disk (place ++ [n]) ≠ none →
        dir ++ [n] ∈ met.map Met.path) := by
  have hread : job.unread io dir = none := by
    have hproblems := h.problems
    rw [hnone] at hproblems
    exact filterMap_eq_nil_iff.mp (append_eq_nil_iff.mp hproblems.nil_eq.symm).2 dir hdir
  rw [Job.unread] at hread
  split at hread
  · rename_i names hnames
    obtain ⟨results, hresults, -⟩ := readSorted_eq_ok.mp hnames
    refine ⟨results, hresults, fun hdelivered => ?_⟩
    obtain ⟨place, hat, hlists⟩ := hio.readDir dir results hresults
    refine ⟨place, hat, fun n hn => ?_⟩
    rw [h.paths]
    refine mem_flatMap.mpr ⟨dir, hdir, mem_map_of_mem (mem_listed.mpr ?_)⟩
    exact ⟨results, hresults, hlists.whole hdelivered n hn⟩
  · cases hread

theorem walk_eq {found : Metadata} (hroot : io.rootMetadata = .ok found)
    (htype : ∀ len modified, found.type ≠ .file len modified) (fuel : Nat) :
    job.walk io fuel = (passes (job.turn io) fuel ({}, [job.first io])).map Scan.finish := by
  rw [Job.walk, hroot]
  dsimp only
  split
  · rename_i len modified hfile
    exact absurd hfile (htype len modified)
  · rfl

theorem exists_walk (hio : m.Answers io) (job : Job) :
    ∃ fuel scan, job.walk io fuel = some scan := by
  cases hroot : io.rootMetadata with
  | error text => exact ⟨0, _, by rw [Job.walk, hroot]⟩
  | ok found =>
    by_cases hfile : ∃ len modified, found.type = .file len modified
    · obtain ⟨len, modified, hfile⟩ := hfile
      refine ⟨0, ({} : Scan).record (job.single len modified), ?_⟩
      rw [Job.walk, hroot]
      dsimp only
      rw [hfile]
    · have hthere : m.tree.disk m.root ≠ none := by
        obtain ⟨node, hnode, -⟩ := hio.root found (.inl hroot)
        rw [hnode]
        exact Option.some_ne_none node
      obtain ⟨fuel, scan, hpasses⟩ := passes_of_acc (hio.acc job hthere) {}
      refine ⟨fuel, scan.finish, ?_⟩
      rw [walk_eq hroot (fun len modified h => hfile ⟨len, modified, h⟩), hpasses]
      rfl

theorem single_cases (job : Job) (len : Nat) (modified : Option SystemTime) :
    job.single len modified = .filtered ∨ (∃ f, job.single len modified = .file f) ∨
      ∃ detail, job.single len modified = .problem ⟨job.root.shown [], detail⟩ := by
  rw [Job.single]
  split
  · exact .inr (.inr ⟨_, rfl⟩)
  · split
    · rw [Job.consider]
      split
      · exact .inr (.inl ⟨_, rfl⟩)
      · exact .inl rfl
    · exact .inr (.inr ⟨_, rfl⟩)

/-- The walk of a machine ends, and what it gives accounts for every entry that it met. -/
theorem walk_accounts {m : Machine} {io : Io} (hio : m.Answers io) (job : Job) :
    (∃ fuel scan, job.walk io fuel = some scan) ∧ ∀ fuel scan, job.walk io fuel = some scan →
      (∃ text, io.rootMetadata = .error text ∧ scan = { problems := [⟨job.root.shown [], text⟩] }) ∨
      (∃ found len modified, io.rootMetadata = .ok found ∧ found.type = .file len modified ∧
        (scan = { filtered := 1 } ∨ (∃ f, scan = { files := [f] }) ∨
          ∃ detail, scan = { problems := [⟨job.root.shown [], detail⟩] })) ∨
      ∃ dirs met, Accounts job io dirs met scan ∧ (scan.problems = [] → ∀ dir ∈ dirs,
        ∃ results, io.readDir dir = .ok results ∧
          ((∀ text, .error text ∉ results) → ∃ place, m.At dir place .dir ∧
          ∀ n, m.tree.disk (place ++ [n]) ≠ none → dir ++ [n] ∈ met.map Met.path)) := by
  refine ⟨exists_walk hio job, fun fuel scan hwalk => ?_⟩
  cases hroot : io.rootMetadata with
  | error text =>
    rw [Job.walk, hroot] at hwalk
    exact .inl ⟨text, rfl, (Option.some.inj hwalk).symm⟩
  | ok found =>
    right
    by_cases hfile : ∃ len modified, found.type = .file len modified
    · obtain ⟨len, modified, hfile⟩ := hfile
      refine .inl ⟨found, len, modified, rfl, hfile, ?_⟩
      rw [Job.walk, hroot] at hwalk
      dsimp only at hwalk
      rw [hfile] at hwalk
      obtain rfl := Option.some.inj hwalk
      rcases single_cases job len modified with hone | ⟨f, hone⟩ | ⟨detail, hone⟩
      · exact .inl (by rw [hone]; rfl)
      · exact .inr (.inl ⟨f, by rw [hone]; rfl⟩)
      · exact .inr (.inr ⟨detail, by rw [hone]; rfl⟩)
    · right
      rw [walk_eq hroot (fun len modified h => hfile ⟨len, modified, h⟩)] at hwalk
      obtain ⟨before, hpasses, rfl⟩ := Option.map_eq_some_iff.mp hwalk
      obtain ⟨dirs, met, hacc⟩ := accounts_of_passes hio hpasses
      exact ⟨dirs, met, hacc, fun hnone dir hdir => hacc.whole hio hnone hdir⟩

def nestedNodes : List (List Name × DiskNode Name Leaf) :=
  [([], .dir), ([utf8 "a"], .file (.regular 0 none)), ([utf8 "d"], .dir),
    ([utf8 "d", utf8 "e"], .dir),
    ([utf8 "d", utf8 "e", utf8 "l"], .link [.root, .name (utf8 "a")])]

def nestedTree : Tree := .ofNodes nestedNodes rfl (by decide) (by decide)

/-- The walk begins at `/d`. -/
def nestedMachine : Machine :=
  ⟨nestedTree, [utf8 "d"], fun place => nestedNodes.findIdx fun x => x.1 = place, 40⟩

def nestedIo : Io where
  rootMetadata := .ok ⟨2, .dir⟩
  rootAgain := .ok ⟨2, .dir⟩
  readDir path :=
    if path = [] then .ok [.ok (utf8 "e")]
    else if path = [utf8 "e"] then .ok [.ok (utf8 "l")]
    else .error "no such directory"
  symlinkMetadata path :=
    if path = [utf8 "e"] then .ok ⟨3, .dir⟩
    else if path = [utf8 "e", utf8 "l"] then .ok ⟨4, .symlink⟩
    else .error "no such file"
  metadata path :=
    if path = [utf8 "e", utf8 "l"] then .ok ⟨1, .file 0 none⟩ else .error "no such file"
  canonicalize _ := .error "not supported"

def followingJob : Job := ⟨id, ⟨utf8 "/d", some (utf8 "d")⟩, Filter.FilterSet.everything, .follow⟩

theorem answers_nested : nestedMachine.Answers nestedIo where
  root found h := by
    refine ⟨.dir, rfl, ?_⟩
    rcases h with h | h <;> exact (Except.ok.inj h).symm
  readDir path results h := by
    rw [nestedIo] at h
    dsimp only at h
    split at h
    · rename_i hpath
      subst hpath
      cases h
      refine ⟨[utf8 "d"], ⟨[], .done _, by decide, rfl⟩, nodup_singleton _, ?_, ?_⟩
      · intro n hn
        cases mem_singleton.mp hn
        decide
      · intro _ n hn
        have hmem : [utf8 "d", n] ∈ nestedNodes.map Prod.fst := Tree.mem_of_lookup hn
        simpa [nestedNodes] using hmem
    · split at h
      · rename_i hpath
        subst hpath
        cases h
        refine ⟨[utf8 "d", utf8 "e"],
          ⟨[], .name nofun (.done _), by decide, rfl⟩, nodup_singleton _, ?_, ?_⟩
        · intro n hn
          cases mem_singleton.mp hn
          decide
        · intro _ n hn
          have hmem : [utf8 "d", utf8 "e", n] ∈ nestedNodes.map Prod.fst := Tree.mem_of_lookup hn
          simpa [nestedNodes] using hmem
      · cases h
  symlinkMetadata path n found h := by
    rw [nestedIo] at h
    dsimp only at h
    split at h
    · rename_i hpath
      obtain ⟨rfl, hn⟩ := append_inj' (hpath.trans (nil_append _).symm) rfl
      cases hn
      cases h
      exact ⟨[utf8 "d"], .dir, ⟨[], .done _, by decide, rfl⟩, rfl, rfl⟩
    · split at h
      · rename_i hpath
        obtain ⟨rfl, hn⟩ :=
          append_inj' (hpath.trans rfl : path ++ [n] = [utf8 "e"] ++ [utf8 "l"]) rfl
        cases hn
        cases h
        refine ⟨[utf8 "d", utf8 "e"], .link [.root, .name (utf8 "a")],
          ⟨[], ?_, by decide, rfl⟩, rfl, rfl⟩
        exact .name nofun (.done _)
      · cases h
  metadata path found h := by
    rw [nestedIo] at h
    dsimp only at h
    split at h
    · rename_i hpath
      subst hpath
      cases h
      refine ⟨[utf8 "a"], .file (.regular 0 none),
        ⟨[[utf8 "d", utf8 "e", utf8 "l"]], ?_, by decide, rfl⟩, rfl⟩
      exact .name nofun (.link rfl (.root (.name nofun (.done _))))
    · cases h
  canonicalize path place h := by cases h

/-- The walk of `/d` with links followed. -/
theorem walk_accounts_nested : ∃ fuel scan dirs met, followingJob.walk nestedIo fuel = some scan ∧
    Accounts followingJob nestedIo dirs met scan := by
  obtain ⟨⟨fuel, scan, hwalk⟩, hall⟩ := walk_accounts answers_nested followingJob
  rcases hall fuel scan hwalk with ⟨text, hroot, -⟩ | ⟨found, len, modified, hroot, htype, -⟩ |
    ⟨dirs, met, hacc, -⟩
  · cases hroot
  · cases hroot
    cases htype
  · exact ⟨fuel, scan, dirs, met, hwalk, hacc⟩

def brokenIo : Io := { nestedIo with
  readDir path :=
    if path = [] then .ok [.error "input/output error"] else .error "no such directory" }

theorem answers_broken : nestedMachine.Answers brokenIo where
  root := answers_nested.root
  readDir path results h := by
    rw [brokenIo] at h
    dsimp only at h
    split at h
    · rename_i hpath
      subst hpath
      cases h
      refine ⟨[utf8 "d"], ⟨[], .done _, by decide, rfl⟩, nodup_nil, ?_, ?_⟩
      · intro n hn
        cases mem_singleton.mp hn
      · intro hdelivered
        exact absurd (mem_singleton_self _) (hdelivered _)
    · cases h
  symlinkMetadata := answers_nested.symlinkMetadata
  metadata := answers_nested.metadata
  canonicalize := answers_nested.canonicalize

theorem readSorted_singleton {n : Name} (h : io.readDir path = .ok [.ok n]) :
    Job.readSorted io path = .ok [n] :=
  readSorted_eq_ok.mpr ⟨_, h, (mergeSort_singleton n).symm⟩

theorem finish_of_short {files : List ScannedFile} {links : LinkReport}
    (h : files.length ≤ 1) :
    Scan.finish { files := files, links := links } = { files := files, links := links } := by
  have hnone :
      (Detector.detect (files.map fun file => (file.logical, file.native))).finish = [] := by
    refine eq_nil_iff_forall_not_mem.mpr fun c hc => ?_
    have hshared := (Detector.mem_finish.mp hc).2.1
    rw [length_sharing] at hshared
    have hfew := length_filter_le (fun x : String × NativePath => x.1 = c.logical)
      (files.map fun file => (file.logical, file.native))
    rw [length_map] at hfew
    omega
  have hsorted : files.mergeSort (fun a b => a.logical ≤ b.logical) = files := by
    match files, h with
    | [], _ => exact mergeSort_nil
    | [file], _ => exact mergeSort_singleton file
  rw [Scan.finish]
  simp only [hsorted, hnone, Scan.colliding]
  simp

def linkFollowed : LinkReport := { notes := [("e/l", .followed)], followed := 1 }

/-- A link that was followed is in two lists, the directory it is in is in none, and an entry that
the listing did not deliver is missed without a problem. -/
theorem walk_nested : nestedMachine.Answers nestedIo ∧
    followingJob.walk nestedIo 3 =
      some { files := [⟨"e/l", ["e", "l"], 0, none⟩], links := linkFollowed } ∧
    nestedMachine.Answers brokenIo ∧ nestedMachine.tree.disk [utf8 "d", utf8 "e"] = some .dir ∧
    followingJob.walk brokenIo 2 = some {} := by
  have hdir : ∀ len modified, FileType.dir ≠ .file len modified := by
    rintro len modified ⟨⟩
  refine ⟨answers_nested, ?_, answers_broken, rfl, ?_⟩
  · have hfirst : followingJob.visit nestedIo (followingJob.first nestedIo) =
        ([], [⟨[utf8 "e"], some [3, 2]⟩]) := by
      rw [Job.visit, Job.first, readSorted_singleton rfl]
      rfl
    have hsecond : followingJob.visit nestedIo ⟨[utf8 "e"], some [3, 2]⟩ =
        ([.link "e/l" .followed, .file ⟨"e/l", ["e", "l"], 0, none⟩], []) := by
      rw [Job.visit, readSorted_singleton rfl]
      rfl
    have hpasses : passes (followingJob.turn nestedIo) 3 ({}, [followingJob.first nestedIo]) =
        some { files := [⟨"e/l", ["e", "l"], 0, none⟩], links := linkFollowed } := by
      rw [passes_inr (turn_cons ..), hfirst, append_nil, passes_inr (turn_cons ..), hsecond]
      exact passes_inl rfl
    rw [walk_eq rfl hdir, hpasses]
    exact congrArg some (finish_of_short (Nat.le_refl 1))
  · have hfirst : followingJob.visit brokenIo (followingJob.first brokenIo) = ([], []) := by
      have hread : Job.readSorted brokenIo [] = .ok [] :=
        readSorted_eq_ok.mpr ⟨_, rfl, mergeSort_nil.symm⟩
      rw [Job.visit, Job.first, hread]
      rfl
    have hpasses :
        passes (followingJob.turn brokenIo) 2 ({}, [followingJob.first brokenIo]) = some {} := by
      rw [passes_inr (turn_cons ..), hfirst]
      exact passes_inl rfl
    rw [walk_eq rfl hdir, hpasses]
    exact congrArg some (finish_of_short (Nat.zero_le 1))

end Dctl.Backup
