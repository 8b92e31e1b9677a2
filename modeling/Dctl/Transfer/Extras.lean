import Dctl.Transfer.Listed
import Dctl.Transfer.Mirror

/-! The extras of a mirror and the files that its source still holds. -/

namespace Dctl.Transfer

open Cli ProofKit List

variable {nfc : String → String} {o : ListOptions} {src dst : Endpoint} {s d : Listing}
  {display : String}

theorem Plan.mem_deletions {source dest : List Entry} {policy : Policy} {plan : Plan}
    {entry : PlanEntry} (hdel : policy.deleteExtras = true)
    (h : Plan.compute source dest policy = .ok plan) :
    entry ∈ plan.deletions ↔ ∃ item ∈ Plan.extrasOf source dest, entry = extraEntry item := by
  obtain ⟨entries, hall, rfl⟩ := Plan.compute_eq_ok.mp h
  rw [Plan.deletions, filter_append, mem_append, if_pos hdel]
  constructor
  · rintro (hmem | hmem)
    · obtain ⟨hmem, hdestroys⟩ := mem_filter.mp hmem
      obtain ⟨item, -, hentry⟩ := Plan.exists_item hall hmem
      have hne := Plan.sourceEntry_ne_delete hentry
      cases ha : entry.action <;> simp_all [Op.destroys]
    · obtain ⟨item, hitem, rfl⟩ := mem_map.mp (mem_filter.mp hmem).1
      exact ⟨item, hitem, rfl⟩
  · rintro ⟨item, hitem, rfl⟩
    exact Or.inr (mem_filter.mpr ⟨mem_map.mpr ⟨item, hitem, rfl⟩, rfl⟩)

theorem not_unmatched_iff {source dest : List Entry} {i : Nat} {entry : Entry}
    (hi : dest[i]? = some entry) : ¬Plan.Unmatched source dest i ↔
      (∃ item ∈ source, item.path = entry.path) ∧
        ∀ (j : Nat) (other : Entry), i < j → dest[j]? = some other → other.path ≠ entry.path := by
  constructor
  · intro h
    refine ⟨?_, fun j other hj ho hpath => h (Plan.unmatched_of_later hi ho hj hpath)⟩
    by_contra hno
    exact h (Plan.unmatched_of_absent hi fun item hitem hpath => hno ⟨item, hitem, hpath⟩)
  · rintro ⟨⟨item, hitem, hpath⟩, hlast⟩
    exact Plan.matched_of_last hi hlast hitem hpath

/-- The plan of a mirror deletes nothing at a path where the source holds a file exactly when, for
every file of the destination listing whose path the source holds, the source can read a file there
that is inside the windows, or an empty directory, and the entry is the last one of its path. -/
theorem spares_held_iff (hnfc : KeepsComponents nfc) {compare : ComparePolicy}
    {emptyDirs traversed : Bool} {plan : Plan} (hs : Listing.source nfc o display src = .ok s)
    (hd : Listing.destination nfc o dst = .ok d)
    (hp : Plan.compute s.entries d.entries
      (((Policy.syncing compare).withEmptySrcDirs emptyDirs).withTraversal traversed) = .ok plan) :
    (∀ entry ∈ plan.deletions, ¬src.Holds nfc o.links entry.dest) ↔
      ∀ (i : Nat) (entry : Entry), d.entries[i]? = some entry → entry.isFile = true →
        src.Holds nfc o.links entry.path →
        (src.ReadsInWindows nfc o entry.path ∨ src.ReadsEmptyDir nfc o entry.path) ∧
          ∀ (j : Nat) (other : Entry), i < j → d.entries[j]? = some other →
            other.path ≠ entry.path := by
  have hlisted : ∀ entry ∈ d.entries, entry.isFile = true →
      ((∃ item ∈ s.entries, item.path = entry.path) ↔
        src.ReadsInWindows nfc o entry.path ∨ src.ReadsEmptyDir nfc o entry.path) := by
    intro entry hmem hfile
    have hkey : (entry.path, .file) ∈ d.keys :=
      Listing.mem_keys.mpr ⟨entry, hmem, rfl, of_decide_eq_true hfile⟩
    obtain ⟨size, modified, -, hadm⟩ := (file_mem_keys hd).mp hkey
    have hsource := enumerate_of_source hs
    rw [exists_path_iff_keys, file_mem_keys_of_admits hnfc hsource hadm,
      emptyDir_mem_keys_of_reached hnfc hsource (Filter.admitsEnumerated_iff.mp hadm).2]
  constructor
  · intro hspared i entry hi hfile hholds
    have hmem := mem_of_getElem? hi
    rw [← hlisted entry hmem hfile, ← not_unmatched_iff hi]
    intro hun
    have hextra : entry ∈ Plan.extrasOf s.entries d.entries :=
      Plan.mem_extrasOf.mpr ⟨hfile, i, hi, hun⟩
    exact hspared _ ((Plan.mem_deletions rfl hp).mpr ⟨entry, hextra, rfl⟩) hholds
  · intro hlast entry hentry hholds
    obtain ⟨item, hitem, rfl⟩ := (Plan.mem_deletions rfl hp).mp hentry
    obtain ⟨hfile, i, hi, hun⟩ := Plan.mem_extrasOf.mp hitem
    have hmatched := hlast i item hi hfile hholds
    rw [← hlisted item (mem_of_getElem? hi) hfile, ← not_unmatched_iff hi] at hmatched
    exact hmatched hun

/-- A file whose metadata cannot be read, and one that is too large, are deleted from the
destination that holds a smaller copy. -/
theorem unseen_file_deleted :
    (Listing.source id (noLarger none) "root" (holding (lone 3 false)) = .ok { existing := true } ∧
      Listing.destination id (noLarger none) (holding (lone 3 true)) = .ok (loneListing 3) ∧
      (holding (lone 3 false)).Holds id .skip "a") ∧
    (Listing.source id (noLarger (some 5)) "root" (holding (lone 9 true)) =
      .ok { existing := true } ∧
      Listing.destination id (noLarger (some 5)) (holding (lone 3 true)) = .ok (loneListing 3) ∧
      (holding (lone 9 true)).Holds id .skip "a") ∧
    Plan.compute [] (loneListing 3).entries (.syncing {}) =
      .ok ⟨[extraEntry (Entry.ofFile "a" 3)]⟩ := by
  have hempty : ({ existing := true } : Listing).collisions = [] := by
    simp [Listing.collisions]
  refine ⟨⟨?_, enumerate_holding rfl (Nat.le_refl 1), holds_lone 3 false⟩,
    ⟨?_, enumerate_holding rfl (Nat.le_refl 1), holds_lone 9 true⟩, rfl⟩
  · exact source_of_enumerate (enumerate_holding rfl (Nat.zero_le 1)) rfl hempty
  · exact source_of_enumerate (enumerate_holding rfl (Nat.zero_le 1)) rfl hempty

/-- Two equal sides. -/
theorem spares_held_iff_lone :
    (∀ entry ∈ (⟨[fileEntry (Entry.ofFile "a" 3) "a" (.update planReasonModified)]⟩ :
      Plan).deletions,
      ¬(holding (lone 3 true)).Holds id .skip entry.dest) ↔
      ∀ (i : Nat) (entry : Entry), (loneListing 3).entries[i]? = some entry → entry.isFile = true →
        (holding (lone 3 true)).Holds id .skip entry.path →
        ((holding (lone 3 true)).ReadsInWindows id (noLarger (some 5)) entry.path ∨
          (holding (lone 3 true)).ReadsEmptyDir id (noLarger (some 5)) entry.path) ∧
          ∀ (j : Nat) (other : Entry), i < j → (loneListing 3).entries[j]? = some other →
            other.path ≠ entry.path :=
  have hlist : Listing.enumerate id (noLarger (some 5)) (holding (lone 3 true)) =
      .ok (loneListing 3) := enumerate_holding rfl (Nat.le_refl 1)
  have hs : Listing.source id (noLarger (some 5)) "root" (holding (lone 3 true)) =
      .ok (loneListing 3) := source_of_enumerate hlist rfl (collisions_loneListing 3)
  have hp : Plan.compute (loneListing 3).entries (loneListing 3).entries
      (((Policy.syncing {}).withEmptySrcDirs false).withTraversal true) =
      .ok ⟨[fileEntry (Entry.ofFile "a" 3) "a" (.update planReasonModified)]⟩ := rfl
  spares_held_iff (fun _ h => h) hs hlist hp

end Dctl.Transfer
