import Mathlib.Data.List.Basic
import Mathlib.Data.List.Induction

/-! A disk of files, directories and symbolic links: where a path leads on it, and how that changes
when directories are made, files are written and entries are unlinked. -/

namespace Dctl.ProofKit

open List

/-- A part of a path: to the root, to the parent, or to an entry of the directory. -/
inductive Hop (N : Type) where
  | root
  | up
  | name (n : N)
  deriving DecidableEq, Repr

/-- What a place of a disk holds.  A link holds the path it stands for. -/
inductive DiskNode (N C : Type) where
  | file (content : C)
  | dir
  | link (target : List (Hop N))
  deriving DecidableEq, Repr

/-- What is at each place.  A place is a list of names from the root. -/
abbrev Disk (N C : Type) := List N → Option (DiskNode N C)

namespace Disk

variable {N C : Type} {d d' : Disk N C} {here here' place place' : List N} {path : List (Hop N)}
  {via via' : List (List N)}

/-- From the directory `here` a path leads to `place` over the links `via`.  An entry that is
missing is taken for a directory that is yet to be made. -/
inductive Leads (d : Disk N C) : List N → List (Hop N) → List (List N) → List N → Prop
  | done (here : List N) : Leads d here [] [] here
  | root {here place : List N} {rest : List (Hop N)} {via : List (List N)} :
      Leads d [] rest via place → Leads d here (.root :: rest) via place
  | up {here place : List N} {rest : List (Hop N)} {via : List (List N)} :
      Leads d here.dropLast rest via place → Leads d here (.up :: rest) via place
  | name {here place : List N} {n : N} {rest : List (Hop N)} {via : List (List N)} :
      (∀ t, d (here ++ [n]) ≠ some (.link t)) → Leads d (here ++ [n]) rest via place →
      Leads d here (.name n :: rest) via place
  | link {here place : List N} {n : N} {rest t : List (Hop N)} {via : List (List N)} :
      d (here ++ [n]) = some (.link t) → Leads d here (t ++ rest) via place →
      Leads d here (.name n :: rest) ((here ++ [n]) :: via) place

theorem Leads.unique (h : Leads d here path via place) (h' : Leads d here path via' place') :
    via = via' ∧ place = place' := by
  induction h generalizing via' place' with
  | done here =>
    cases h'
    exact ⟨rfl, rfl⟩
  | root _ ih =>
    cases h' with
    | root h' => exact ih h'
  | up _ ih =>
    cases h' with
    | up h' => exact ih h'
  | name hno _ ih =>
    cases h' with
    | name _ h' => exact ih h'
    | link hlink _ => exact absurd hlink (hno _)
  | link hlink _ ih =>
    cases h' with
    | name hno _ => exact absurd hlink (hno _)
    | link hlink' h' =>
      rw [hlink] at hlink'
      cases hlink'
      obtain ⟨rfl, rfl⟩ := ih h'
      exact ⟨rfl, rfl⟩

variable {q : List N}

theorem Leads.link_of_mem (h : Leads d here path via place) (hq : q ∈ via) :
    ∃ t, d q = some (.link t) := by
  induction h with
  | done => cases hq
  | root _ ih => exact ih hq
  | up _ ih => exact ih hq
  | name _ _ ih => exact ih hq
  | link hlink _ ih =>
    rcases mem_cons.mp hq with rfl | hq
    · exact ⟨_, hlink⟩
    · exact ih hq

def NoNewLinks (d d' : Disk N C) : Prop := ∀ q t, d' q = some (.link t) → d q = some (.link t)

theorem Leads.keep (h : Leads d here path via place) (hlinks : NoNewLinks d d')
    (hvia : ∀ q ∈ via, d' q = d q) : Leads d' here path via place := by
  induction h with
  | done here => exact Leads.done here
  | root _ ih => exact Leads.root (ih hvia)
  | up _ ih => exact Leads.up (ih hvia)
  | name hno _ ih => exact Leads.name (fun t ht => hno t (hlinks _ t ht)) (ih hvia)
  | link hlink _ ih =>
    refine Leads.link ?_ (ih fun q hq => hvia q (mem_cons_of_mem _ hq))
    rw [hvia _ mem_cons_self, hlink]

theorem Leads.append {rest : List (Hop N)} {mid : List N} (h : Leads d here path via mid)
    (h' : Leads d mid rest via' place) : Leads d here (path ++ rest) (via ++ via') place := by
  induction h with
  | done _ => exact h'
  | root _ ih => exact Leads.root (ih h')
  | up _ ih => exact Leads.up (ih h')
  | name hno _ ih => exact Leads.name hno (ih h')
  | link hlink _ ih =>
    have hrest := ih h'
    rw [append_assoc] at hrest
    exact Leads.link hlink hrest

theorem Leads.split {rest : List (Hop N)} (h : Leads d here (path ++ rest) via place) :
    ∃ first mid last, Leads d here path first mid ∧ Leads d mid rest last place ∧
      via = first ++ last := by
  obtain ⟨all, hall⟩ : ∃ all, all = path ++ rest := ⟨_, rfl⟩
  rw [← hall] at h
  induction h generalizing path with
  | done here =>
    obtain ⟨rfl, rfl⟩ := append_eq_nil_iff.mp hall.symm
    exact ⟨[], here, [], .done _, .done _, rfl⟩
  | @root here place tail via h ih =>
    cases path with
    | nil =>
      cases hall
      exact ⟨[], here, _, .done _, Leads.root h, rfl⟩
    | cons hop path =>
      cases hall
      obtain ⟨first, mid, last, hfirst, hlast, hvia⟩ := ih rfl
      exact ⟨first, mid, last, .root hfirst, hlast, hvia⟩
  | @up here place tail via h ih =>
    cases path with
    | nil =>
      cases hall
      exact ⟨[], here, _, .done _, Leads.up h, rfl⟩
    | cons hop path =>
      cases hall
      obtain ⟨first, mid, last, hfirst, hlast, hvia⟩ := ih rfl
      exact ⟨first, mid, last, .up hfirst, hlast, hvia⟩
  | @name here place n tail via hno h ih =>
    cases path with
    | nil =>
      cases hall
      exact ⟨[], here, _, .done _, Leads.name hno h, rfl⟩
    | cons hop path =>
      cases hall
      obtain ⟨first, mid, last, hfirst, hlast, hvia⟩ := ih rfl
      exact ⟨first, mid, last, .name hno hfirst, hlast, hvia⟩
  | @link here place n tail t via hlink h ih =>
    cases path with
    | nil =>
      cases hall
      exact ⟨[], here, _, .done _, Leads.link hlink h, rfl⟩
    | cons hop path =>
      cases hall
      obtain ⟨first, mid, last, hfirst, hlast, hvia⟩ := ih (append_assoc t path rest).symm
      exact ⟨_, mid, last, .link hlink hfirst, hlast, by rw [hvia, cons_append]⟩

/-- Neither the place nor a directory above it is a link. -/
def Canonical (d : Disk N C) (place : List N) : Prop :=
  ∀ q, q ≠ [] → q <+: place → ∀ t, d q ≠ some (.link t)

theorem canonical_nil : d.Canonical [] := by
  intro q hq hpre
  exact absurd (prefix_nil.mp hpre) hq

theorem Canonical.dropLast (h : d.Canonical place) : d.Canonical place.dropLast :=
  fun q hq hpre => h q hq (hpre.trans (List.dropLast_prefix place))

theorem Canonical.snoc {n : N} (h : d.Canonical here)
    (hno : ∀ t, d (here ++ [n]) ≠ some (.link t)) :
    d.Canonical (here ++ [n]) := by
  intro q hq hpre
  rcases prefix_concat_iff.mp hpre with rfl | hpre
  · exact hno
  · exact h q hq hpre

theorem Leads.canonical (h : Leads d here path via place) (hhere : d.Canonical here) :
    d.Canonical place := by
  induction h with
  | done _ => exact hhere
  | root _ ih => exact ih canonical_nil
  | up _ ih => exact ih hhere.dropLast
  | name hno _ ih => exact ih (hhere.snoc hno)
  | link _ _ ih => exact ih hhere

theorem Canonical.leads (h : d.Canonical place) : Leads d [] (place.map Hop.name) [] place := by
  induction place using List.reverseRecOn with
  | nil => exact Leads.done []
  | append_singleton here n ih =>
    have hhere : d.Canonical here := by
      have := h.dropLast
      rwa [dropLast_concat] at this
    have hlast : Leads d here [.name n] [] (here ++ [n]) :=
      .name (h _ (by simp) (prefix_refl _)) (.done _)
    rw [map_append]
    exact (ih hhere).append hlast

/-- Resolve a path as the system does, in at most so many steps: every directory on the way is
there, and so is the place where the path leads. -/
def follow (d : Disk N C) : Nat → List N → List (Hop N) → Option (List N)
  | _, here, [] => if here = [] ∨ (d here).isSome then some here else none
  | 0, _, _ => none
  | steps + 1, _, .root :: rest => d.follow steps [] rest
  | steps + 1, here, .up :: rest => d.follow steps here.dropLast rest
  | steps + 1, here, .name n :: rest =>
    match d (here ++ [n]) with
    | some (.link t) => d.follow steps here (t ++ rest)
    | some .dir => d.follow steps (here ++ [n]) rest
    | some (.file _) => if rest = [] then some (here ++ [n]) else none
    | none => none

@[simp] theorem follow_nil {steps : Nat} : d.follow steps [] [] = some [] := by
  cases steps <;> rfl

theorem leads_of_follow {steps : Nat} (h : d.follow steps here path = some place) :
    ∃ via, Leads d here path via place := by
  induction steps generalizing here path with
  | zero =>
    cases path with
    | nil =>
      rw [follow] at h
      split at h
      · cases h
        exact ⟨[], .done _⟩
      · cases h
    | cons hop rest => cases h
  | succ steps ih =>
    cases path with
    | nil =>
      rw [follow] at h
      split at h
      · cases h
        exact ⟨[], .done _⟩
      · cases h
    | cons hop rest =>
      cases hop with
      | root =>
        obtain ⟨via, hleads⟩ := ih h
        exact ⟨via, .root hleads⟩
      | up =>
        obtain ⟨via, hleads⟩ := ih h
        exact ⟨via, .up hleads⟩
      | name n =>
        rw [follow] at h
        split at h
        · rename_i t hlink
          obtain ⟨via, hleads⟩ := ih h
          exact ⟨_, .link hlink hleads⟩
        · rename_i hdir
          obtain ⟨via, hleads⟩ := ih h
          exact ⟨via, .name (by simp [hdir]) hleads⟩
        · rename_i hfile
          split at h
          · rename_i hrest
            cases h
            subst hrest
            exact ⟨[], .name (by simp [hfile]) (.done _)⟩
          · cases h
        · cases h

theorem prefix_of_leads_names {names : List N} (h : Leads d here (names.map Hop.name) [] place) :
    here <+: place := by
  induction names generalizing here with
  | nil =>
    cases h
    exact prefix_refl _
  | cons n names ih =>
    cases h with
    | name _ h => exact (prefix_append here [n]).trans (ih h)

theorem leads_names {names : List N} (hno : ∀ q, here <+: q → ∀ t, d q ≠ some (.link t)) :
    Leads d here (names.map Hop.name) [] (here ++ names) := by
  induction names generalizing here with
  | nil =>
    rw [append_nil]
    exact Leads.done here
  | cons n names ih =>
    have hrest : Leads d (here ++ [n]) (names.map Hop.name) [] (here ++ [n] ++ names) :=
      ih fun q hq => hno q ((prefix_append here [n]).trans hq)
    rw [append_assoc] at hrest
    exact Leads.name (hno _ (prefix_append here [n])) hrest

/-- The path names the entry `slot`, over the links `front`.  The entry itself may be a link. -/
def Entry (d : Disk N C) (start : List N) (path : List (Hop N)) (front : List (List N))
    (slot : List N) : Prop :=
  ∃ dirs n here, path = dirs ++ [.name n] ∧ Leads d start dirs front here ∧ slot = here ++ [n]

/-- How a path that is read goes: the links on the way to its entry, the entry, the links from there
on, and the place where they end. -/
structure Route (N : Type) where
  front : List (List N)
  slot : List N
  tail : List (List N)
  place : List N
  deriving DecidableEq, Repr

def Route.way (r : Route N) : List (List N) := r.front ++ r.slot :: (r.tail ++ [r.place])

namespace Route

theorem slot_mem_way (r : Route N) : r.slot ∈ r.way := by simp [way]

theorem place_mem_way (r : Route N) : r.place ∈ r.way := by simp [way]

theorem mem_way_of_tail {r : Route N} (h : q ∈ r.tail) : q ∈ r.way := by simp [way, h]

end Route

/-- The path goes over this route, and its last name by the slot. -/
def Goes (d : Disk N C) (start : List N) (path : List (Hop N)) (r : Route N) : Prop :=
  ∃ dirs n here, path = dirs ++ [.name n] ∧ Leads d start dirs r.front here ∧
    r.slot = here ++ [n] ∧ Leads d here [.name n] r.tail r.place

/-- Reading the path gives the content. -/
def Reads (d : Disk N C) (start : List N) (path : List (Hop N)) (c : C) : Prop :=
  ∃ r, Goes d start path r ∧ d r.place = some (.file c)

variable {start slot slot' : List N} {front front' : List (List N)} {r r' : Route N} {c : C}

theorem Goes.entry (h : Goes d start path r) : Entry d start path r.front r.slot := by
  obtain ⟨dirs, n, here, hpath, hfront, hslot, -⟩ := h
  exact ⟨dirs, n, here, hpath, hfront, hslot⟩

theorem Entry.unique (h : Entry d start path front slot) (h' : Entry d start path front' slot') :
    front = front' ∧ slot = slot' := by
  obtain ⟨dirs, n, here, hpath, hfront, rfl⟩ := h
  obtain ⟨dirs', n', here', hpath', hfront', rfl⟩ := h'
  rw [hpath] at hpath'
  obtain ⟨rfl, hn⟩ := append_inj' hpath' rfl
  cases hn
  obtain ⟨rfl, rfl⟩ := hfront.unique hfront'
  exact ⟨rfl, rfl⟩

theorem Goes.unique (h : Goes d start path r) (h' : Goes d start path r') : r = r' := by
  obtain ⟨dirs, n, here, hpath, hfront, hslot, htail⟩ := h
  obtain ⟨dirs', n', here', hpath', hfront', hslot', htail'⟩ := h'
  rw [hpath] at hpath'
  obtain ⟨rfl, hn⟩ := append_inj' hpath' rfl
  cases hn
  obtain ⟨hf, rfl⟩ := hfront.unique hfront'
  obtain ⟨ht, hp⟩ := htail.unique htail'
  cases r
  cases r'
  simp_all

theorem Entry.link_of_mem (h : Entry d start path front slot) (hq : q ∈ front) :
    ∃ t, d q = some (.link t) := by
  obtain ⟨_, _, _, -, hfront, -⟩ := h
  exact hfront.link_of_mem hq

theorem Goes.link_of_mem_tail (h : Goes d start path r) (hq : q ∈ r.tail) :
    ∃ t, d q = some (.link t) := by
  obtain ⟨_, _, _, -, -, -, htail⟩ := h
  exact htail.link_of_mem hq

theorem Entry.keep (h : Entry d start path front slot) (hlinks : NoNewLinks d d')
    (hfront : ∀ q ∈ front, d' q = d q) : Entry d' start path front slot := by
  obtain ⟨dirs, n, here, hpath, hleads, hslot⟩ := h
  exact ⟨dirs, n, here, hpath, hleads.keep hlinks hfront, hslot⟩

theorem Goes.keep (h : Goes d start path r) (hlinks : NoNewLinks d d')
    (hfront : ∀ q ∈ r.front, d' q = d q) (htail : ∀ q ∈ r.tail, d' q = d q) :
    Goes d' start path r := by
  obtain ⟨dirs, n, here, hpath, hleads, hslot, hrest⟩ := h
  exact ⟨dirs, n, here, hpath, hleads.keep hlinks hfront, hslot, hrest.keep hlinks htail⟩

section

variable (h : Entry d start path front slot)
include h

theorem Entry.goes (hno : ∀ t, d slot ≠ some (.link t)) :
    Goes d start path ⟨front, slot, [], slot⟩ := by
  obtain ⟨dirs, n, here, hpath, hfront, rfl⟩ := h
  exact ⟨dirs, n, here, hpath, hfront, rfl, Leads.name hno (Leads.done _)⟩

theorem Entry.reads (hfile : d slot = some (.file c)) : Reads d start path c := by
  refine ⟨⟨front, slot, [], slot⟩, h.goes ?_, hfile⟩
  intro t ht
  rw [hfile] at ht
  cases ht

theorem Entry.not_reads (hdir : ∀ node, d slot = some node → node = .dir) :
    ¬Reads d start path c := by
  rintro ⟨r, hgoes, hfile⟩
  have hno : ∀ t, d slot ≠ some (.link t) := by
    intro t ht
    cases hdir _ ht
  rw [hgoes.unique (h.goes hno)] at hfile
  cases hdir _ hfile

end

theorem Goes.reads_iff (h : Goes d start path r) :
    Reads d start path c ↔ d r.place = some (.file c) := by
  constructor
  · rintro ⟨r', h', hfile⟩
    rwa [h.unique h']
  · intro hfile
    exact ⟨r, h, hfile⟩

/-- Directories are made where nothing was. -/
def MakesDirs (d d' : Disk N C) : Prop := ∀ q, d' q = d q ∨ d q = none ∧ d' q = some .dir

/-- A file takes the place of an entry, and the directories above it are made. -/
def Writes (d : Disk N C) (slot : List N) (c : C) (d' : Disk N C) : Prop :=
  d' slot = some (.file c) ∧ ∀ q, q ≠ slot → d' q = d q ∨ d q = none ∧ d' q = some .dir

def Unlinks (d : Disk N C) (slot : List N) (d' : Disk N C) : Prop :=
  d' slot = none ∧ ∀ q, q ≠ slot → d' q = d q

theorem MakesDirs.refl (d : Disk N C) : MakesDirs d d := fun _ => Or.inl rfl

theorem Writes.eq_of_ne (h : Writes d slot c d') {node : DiskNode N C} (hq : q ≠ slot)
    (hnode : d q = some node) : d' q = some node := by
  rcases h.2 q hq with hsame | ⟨hnone, -⟩
  · rw [hsame, hnode]
  · rw [hnode] at hnone
    cases hnone

theorem MakesDirs.eq (h : MakesDirs d d') {node : DiskNode N C} (hnode : d q = some node) :
    d' q = some node := by
  rcases h q with hsame | ⟨hnone, -⟩
  · rw [hsame, hnode]
  · rw [hnode] at hnone
    cases hnone

theorem MakesDirs.noNewLinks (h : MakesDirs d d') : NoNewLinks d d' := by
  intro q t ht
  rcases h q with hsame | ⟨-, hdir⟩
  · rwa [hsame] at ht
  · rw [hdir] at ht
    cases ht

theorem Writes.noNewLinks (h : Writes d slot c d') : NoNewLinks d d' := by
  intro q t ht
  by_cases hq : q = slot
  · rw [hq, h.1] at ht
    cases ht
  · rcases h.2 q hq with hsame | ⟨-, hdir⟩
    · rwa [hsame] at ht
    · rw [hdir] at ht
      cases ht

theorem Unlinks.noNewLinks (h : Unlinks d slot d') : NoNewLinks d d' := by
  intro q t ht
  by_cases hq : q = slot
  · rw [hq, h.1] at ht
    cases ht
  · rwa [h.2 q hq] at ht

theorem NoNewLinks.trans {d'' : Disk N C} (h : NoNewLinks d d') (h' : NoNewLinks d' d'') :
    NoNewLinks d d'' := fun q t ht => h q t (h' q t ht)

/-- The system opens a path for a write at `place`, over at most `links` links: what is entered is a
directory, and at the end a file is replaced, or made where nothing was. -/
inductive Opens (d : Disk N C) : Nat → List N → List (Hop N) → List N → Prop
  | create {links : Nat} {here : List N} {n : N} : d (here ++ [n]) = none →
    Opens d links here [.name n] (here ++ [n])
  | replace {links : Nat} {here : List N} {n : N} {c : C} :
      d (here ++ [n]) = some (.file c) → Opens d links here [.name n] (here ++ [n])
  | root {links : Nat} {here place : List N} {rest : List (Hop N)} :
      Opens d links [] rest place → Opens d links here (.root :: rest) place
  | up {links : Nat} {here place : List N} {rest : List (Hop N)} :
      Opens d links here.dropLast rest place → Opens d links here (.up :: rest) place
  | enter {links : Nat} {here place : List N} {n : N} {rest : List (Hop N)} :
      d (here ++ [n]) = some .dir → Opens d links (here ++ [n]) rest place →
        Opens d links here (.name n :: rest) place
  | link {links : Nat} {here place : List N} {n : N} {rest t : List (Hop N)} :
      d (here ++ [n]) = some (.link t) → Opens d links here (t ++ rest) place →
      Opens d (links + 1) here (.name n :: rest) place

theorem Opens.leads {links : Nat} (h : Opens d links here path place) :
    ∃ via, Leads d here path via place ∧ via.length ≤ links := by
  induction h with
  | create hnone =>
    refine ⟨[], .name (fun t ht => ?_) (.done _), Nat.zero_le _⟩
    rw [hnone] at ht
    cases ht
  | replace hfile =>
    refine ⟨[], .name (fun t ht => ?_) (.done _), Nat.zero_le _⟩
    rw [hfile] at ht
    cases ht
  | root _ ih =>
    obtain ⟨via, hleads, hlength⟩ := ih
    exact ⟨via, .root hleads, hlength⟩
  | up _ ih =>
    obtain ⟨via, hleads, hlength⟩ := ih
    exact ⟨via, .up hleads, hlength⟩
  | enter hdir _ ih =>
    obtain ⟨via, hleads, hlength⟩ := ih
    refine ⟨via, .name (fun t ht => ?_) hleads, hlength⟩
    rw [hdir] at ht
    cases ht
  | link hlink _ ih =>
    obtain ⟨via, hleads, hlength⟩ := ih
    exact ⟨_, .link hlink hleads, Nat.succ_le_succ hlength⟩

theorem MakesDirs.leads (h : MakesDirs d d') (hleads : Leads d' here path via place) :
    Leads d here path via place := by
  refine hleads.keep (fun q t ht => h.eq ht) fun q hq => ?_
  obtain ⟨t, ht⟩ := hleads.link_of_mem hq
  rw [ht, h.noNewLinks q t ht]

end Disk

end Dctl.ProofKit
