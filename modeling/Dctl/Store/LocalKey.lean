import Dctl.Store.LocalTree
import Dctl.Store.SftpPath

/-! The keys of the local backend: the path that a key stands for (`local/key_path.rs`), and the key
that the walk spells for a path (`local/tree.rs`). -/

namespace Dctl.Store.LocalFs

open ProofKit List

def resolve (key : String) : Except StoreError (List Name) :=
  let raw := key.toList
  if raw = [] then .error (.invalidKey "empty key")
  else if '\x00' ∈ raw then .error (.invalidKey "key contains NUL byte")
  else if Sftp.isAbsolute raw then .error (.invalidKey ("absolute key not allowed: " ++ key))
  else if (Sftp.components raw).any (!·.isNormal) then
    .error (.invalidKey ("disallowed path component in key: " ++ key))
  else .ok ((Sftp.components raw).filterMap fun
    | .normal name => some (utf8 (String.ofList name))
    | _ => none)

def parts (key : String) : List String :=
  ((segments '/' key.toList).filter (· ≠ ['.'])).map String.ofList

/-- The key with a single separator between any two of its parts, and no other. -/
def plainKey (key : String) : String := pathText (parts key)

/-- A key that is spelled as its parts are. -/
def Plain (key : String) : Prop := plainKey key = key

variable {key key' : String} {path : List Name}

theorem isComponent_of_mem_parts {s : String} (h : s ∈ parts key) (hup : s ≠ "..") :
    IsComponent s := by
  obtain ⟨seg, hseg, rfl⟩ := mem_map.mp h
  obtain ⟨hmem, hdot⟩ := mem_filter.mp hseg
  obtain ⟨hne, hsep⟩ := of_mem_segments hmem
  refine ⟨?_, ?_, hup, ?_⟩
  · exact fun h => hne (by simpa using congrArg String.toList h)
  · exact fun h => of_decide_eq_true hdot (by simpa using congrArg String.toList h)
  · rwa [String.toList_ofList]

theorem components_normal :
    (∀ c ∈ Sftp.components key.toList, c.isNormal = true) ↔
      (key.toList.splitOn '/').head? ≠ some ['.'] ∧ ∀ s ∈ parts key, s ≠ ".." := by
  simp only [Sftp.components, forall_mem_append, parts, forall_mem_map]
  refine and_congr ?_ (forall₂_congr fun seg _ => ?_)
  · split <;> simp_all [Sftp.Component.isNormal]
  · have hup : String.ofList seg = ".." ↔ seg = ['.', '.'] := by
      rw [← String.toList_inj, String.toList_ofList]
      rfl
    split <;> simp_all [Sftp.Component.isNormal]

theorem resolve_eq_ok : resolve key = .ok path ↔
    key ≠ "" ∧ '\x00' ∉ key.toList ∧ Sftp.isAbsolute key.toList = false ∧
      (key.toList.splitOn '/').head? ≠ some ['.'] ∧ (∀ s ∈ parts key, s ≠ "..") ∧
      path = (parts key).map utf8 := by
  have hempty : key.toList = [] ↔ key = "" := String.toList_eq_nil_iff
  have hany : (Sftp.components key.toList).any (!·.isNormal) = true ↔
      ¬ ∀ c ∈ Sftp.components key.toList, c.isNormal = true := by simp
  rw [components_normal] at hany
  have hnames : ((key.toList.splitOn '/').head? ≠ some ['.'] ∧ ∀ s ∈ parts key, s ≠ "..") →
      (Sftp.components key.toList).filterMap (fun
        | .normal name => some (utf8 (String.ofList name))
        | _ => none) = (parts key).map utf8 := by
    rintro ⟨hhead, hup⟩
    rw [Sftp.components, if_neg hhead, nil_append, filterMap_map, parts, map_map,
      ← filterMap_eq_map]
    refine filterMap_congr fun seg hseg => ?_
    have hne : seg ≠ ['.', '.'] := by
      rintro rfl
      exact hup ".." (mem_map.mpr ⟨_, hseg, rfl⟩) rfl
    simp [hne]
  unfold resolve
  simp only [hempty, hany]
  split
  · simp_all
  split
  · simp_all
  split
  · simp_all
  split
  · simp_all
  · rename_i _ _ _ hnormal
    have hnormal := not_not.mp hnormal
    rw [hnames hnormal, Except.ok.injEq]
    constructor
    · rintro rfl
      simp_all
    · rintro ⟨-, -, -, -, -, rfl⟩
      rfl

theorem isComponent_of_resolve (h : resolve key = .ok path) : ∀ s ∈ parts key, IsComponent s := by
  obtain ⟨-, -, -, -, hup, -⟩ := resolve_eq_ok.mp h
  exact fun s hs => isComponent_of_mem_parts hs (hup s hs)

theorem resolve_inj {path' : List Name} (h : resolve key = .ok path)
    (h' : resolve key' = .ok path') :
    path = path' ↔ plainKey key = plainKey key' := by
  obtain ⟨-, -, -, -, -, rfl⟩ := resolve_eq_ok.mp h
  obtain ⟨-, -, -, -, -, rfl⟩ := resolve_eq_ok.mp h'
  rw [map_inj_right fun s t => utf8_injective]
  constructor
  · intro heq
    rw [plainKey, plainKey, heq]
  · exact fun heq => pathText_injective (isComponent_of_resolve h) (isComponent_of_resolve h') heq

theorem path_ne_nil (h : resolve key = .ok path) : path ≠ [] := by
  obtain ⟨hne, -, habs, hdot, -, rfl⟩ := resolve_eq_ok.mp h
  have hhead : key.toList.head? ≠ some '/' := of_decide_eq_false habs
  obtain ⟨first, rest, hsplit, hfirst⟩ :=
    exists_splitOn (fun he => hne (String.toList_eq_nil_iff.mp he)) hhead
  have hmem : String.ofList first ∈ parts key := by
    refine mem_map.mpr ⟨first, mem_filter.mpr ⟨?_, ?_⟩, rfl⟩
    · rw [segments, hsplit]
      exact mem_filter.mpr ⟨mem_cons_self, decide_eq_true hfirst⟩
    · rw [hsplit, List.head?_cons] at hdot
      exact decide_eq_true fun h => hdot (congrArg some h)
  exact ne_nil_of_mem (mem_map.mpr ⟨_, hmem, rfl⟩)

theorem relativeKey_eq {ss : List String} (h : '\\' ∉ (pathText ss).toList) :
    relativeKey (ss.map utf8) = pathText ss := by
  rw [relativeKey, joinNames_utf8, toStringLossy_utf8]
  have hid : (pathText ss).toList.map (fun c => if c = '\\' then '/' else c) =
      (pathText ss).toList := by
    refine (map_congr_left fun c hc => ?_).trans (map_id _)
    exact if_neg (ne_of_mem_of_not_mem hc h)
  rw [hid, String.ofList_toList]

theorem relativeKey_resolve (h : resolve key = .ok path) (hplain : Plain key)
    (hback : '\\' ∉ key.toList) : relativeKey path = key := by
  obtain ⟨-, -, -, -, -, rfl⟩ := resolve_eq_ok.mp h
  have hback : '\\' ∉ (pathText (parts key)).toList := by
    rwa [show pathText (parts key) = key from hplain]
  rw [relativeKey_eq hback]
  exact hplain

end Dctl.Store.LocalFs
