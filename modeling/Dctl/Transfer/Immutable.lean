import Dctl.Transfer.Listed
import Dctl.Transfer.Mirror
import Dctl.Transfer.Prepare

/-! When a plan that `--immutable` lets through writes over nothing. -/

namespace Dctl.Transfer

open Cli ProofKit List

def Entry.Present (counterpart : Option Entry) : Prop :=
  ∃ x, counterpart = some x ∧ x.objectMissing = false

theorem op_decide_eq_copy {item : Entry} {counterpart : Option Entry} {compare : ComparePolicy}
    {action : Action} (h : decide item counterpart compare = .ok action) :
    action.op = .copy ↔ ¬Entry.Present counterpart := by
  cases counterpart with
  | none =>
    cases h
    simp [Action.op, Entry.Present]
  | some x =>
    rw [decide] at h
    cases hm : x.objectMissing
    · simp only [hm, Bool.false_eq_true, if_false] at h
      have hpresent : Entry.Present (some x) := ⟨x, rfl, hm⟩
      have hop : action.op ≠ .copy := by
        split at h
        · cases h
          exact Op.noConfusion
        · split at h
          · cases h
            exact Op.noConfusion
          · split at h
            · rw [decideChecksum] at h
              split at h
              · cases h
                split <;> exact Op.noConfusion
              · cases h
            · cases h
              rw [decideMetadata]
              repeat' split
              all_goals exact Op.noConfusion
      exact ⟨fun hcopy => absurd hcopy hop, fun hno => absurd hpresent hno⟩
    · simp only [hm, if_true] at h
      cases h
      simp [Action.op, Entry.Present, hm]

theorem Plan.writes_iff {source dest : List Entry} {policy : Policy} {plan : Plan}
    {P : String → Prop} (htraversed : policy.traversed = true)
    (h : Plan.compute source dest policy = .ok plan)
    (hkept : ∀ entry ∈ plan.entries, entry.action.replacesExisting = false) :
    (∀ entry ∈ plan.entries, entry.action.transfers = true ∨ entry.action.destroys = true →
      ¬P entry.dest) ↔
      ∀ item ∈ source, item.isFile = true → P item.path →
        Entry.Present (lastWith Entry.path dest item.path) := by
  obtain ⟨entries, hall, rfl⟩ := Plan.compute_eq_ok.mp h
  constructor
  · intro hclear item hitem hfile hP
    by_contra hno
    obtain ⟨entry, hentry, hmade⟩ := Plan.exists_entry hall hitem
    obtain ⟨action, haction, rfl⟩ := Plan.sourceEntry_file hmade hfile
    rw [fileAction, if_pos htraversed] at haction
    have hcopy : action.op = .copy := (op_decide_eq_copy haction).mpr hno
    refine hclear _ (mem_append_left _ hentry) (Or.inl ?_) hP
    rw [fileEntry, hcopy]
    rfl
  · intro hpresent entry hentry hwrites hP
    have hnodestroy : entry.action.destroys = false := by
      have := hkept entry hentry
      cases ha : entry.action <;> simp_all [Op.replacesExisting, Op.destroys]
    have htransfers := hwrites.resolve_right (by simp [hnodestroy])
    rcases mem_append.mp hentry with hmem | hmem
    · obtain ⟨item, hitem, hmade⟩ := Plan.exists_item hall hmem
      have hfile := Plan.isFile_of_transfers hmade htransfers
      obtain ⟨action, haction, rfl⟩ := Plan.sourceEntry_file hmade hfile
      rw [fileAction, if_pos htraversed] at haction
      have hcopy : action.op = .copy := by
        have hno := hkept _ hentry
        rw [fileEntry] at hno htransfers
        cases ha : action.op <;> simp_all [Op.replacesExisting, Op.transfers]
      exact (op_decide_eq_copy haction).mp hcopy (hpresent item hitem hfile hP)
    · split at hmem
      · obtain ⟨item, -, rfl⟩ := mem_map.mp hmem
        cases htransfers
      · cases hmem

/-- The destination's enumeration answers for the file at this path: it reads a file or an empty
directory there, and of the objects it has there the last one is not marked as gone. -/
def Endpoint.Answers (nfc : String → String) (o : ListOptions) (path : String) : Endpoint → Prop
  | .local root => (Endpoint.local root).ReadsInWindows nfc o path ∨
    (Endpoint.local root).ReadsEmptyDir nfc o path
  | .named root cursor => ∃ x, lastWith Prod.fst (inScope o (cursor.contents root)) path = some x ∧
    x.2.objectMissing = false

/-- The enumeration of an exact destination answers for the file that the destination is. -/
def Endpoint.AnswersItself (nfc : String → String) (o : ListOptions) : Endpoint → Prop
  | .local root => ∃ path, (Endpoint.local root).Lists nfc o path
  | .named root cursor => ∃ x ∈ inScope o (cursor.contents root), x.2.objectMissing = false

variable {nfc : String → String} {o : ListOptions} {dst : Endpoint} {d : Listing} {path : String}

theorem pathLE_trans (a b c : String) (hab : Decidable.decide (a ≤ b) = true)
    (hbc : Decidable.decide (b ≤ c) = true) : Decidable.decide (a ≤ c) = true :=
  decide_eq_true (String.le_trans (of_decide_eq_true hab) (of_decide_eq_true hbc))

theorem pathLE_total (a b : String) :
    (Decidable.decide (a ≤ b) || Decidable.decide (b ≤ a)) = true := by
  rw [Bool.or_eq_true]
  exact (String.le_total a b).imp decide_eq_true decide_eq_true

theorem present_iff_answers (hnfc : KeepsComponents nfc)
    (h : Listing.destination nfc o dst = .ok d) {size : Option Nat} {modified : Option Int}
    (hadm : o.filter.admitsEnumerated ⟨path, size, modified, false⟩ = true) :
    Entry.Present (lastWith Entry.path d.entries path) ↔ dst.Answers nfc o path := by
  cases dst with
  | «local» root =>
    have hthere := (walkLocal_eq_ok h).2.2
    have hpath : Entry.Present (lastWith Entry.path d.entries path) ↔
        ∃ x ∈ d.entries, x.path = path := by
      constructor
      · rintro ⟨x, hx, -⟩
        obtain ⟨hmem, hpath⟩ := lastWith_eq_some hx
        exact ⟨x, hmem, hpath⟩
      · rintro ⟨x, hmem, rfl⟩
        obtain ⟨y, hy⟩ : ∃ y, lastWith Entry.path d.entries x.path = some y := lastWith_isSome hmem
        exact ⟨y, hy, hthere y (lastWith_eq_some hy).1⟩
    rw [hpath, exists_path_iff_keys, file_mem_keys_of_admits hnfc h hadm,
      emptyDir_mem_keys_of_reached hnfc h (Filter.admitsEnumerated_iff.mp hadm).2]
    rfl
  | named root cursor =>
    obtain ⟨-, entries, -, hall, hentries, -⟩ :=
      walkRemote_eq_ok (show walkRemote o root cursor = .ok d from h)
    have hsorted : lastWith Entry.path d.entries path = lastWith Entry.path entries path := by
      rw [hentries]
      exact @lastWith_mergeSort Entry String _ Entry.path (fun a b => Decidable.decide (a ≤ b))
        pathLE_trans pathLE_total entries path
    have hrel : Option.Rel (Described o)
        (lastWith Prod.fst (inScope o (cursor.contents root)) path)
        (lastWith Entry.path entries path) :=
      forall₂_lastWith (fun x e hx => hx.eq.1.symm) hall path
    rw [hsorted, Endpoint.Answers]
    revert hrel
    generalize lastWith Prod.fst (inScope o (cursor.contents root)) path = a
    generalize lastWith Entry.path entries path = b
    rintro (hdesc | -)
    · simp [Entry.Present, hdesc.eq.2.2]
    · simp [Entry.Present]

theorem not_emptyDirAt_of_single {passes : String → Bool → Node → Prop}
    (h : dst.IsSingle) : ¬dst.EmptyDirAt nfc o.links passes path := by
  cases dst with
  | named root cursor => exact id
  | «local» root =>
    obtain ⟨len, modified, digest, hnode⟩ := h
    rintro ⟨dir, node, htree, hat⟩
    rw [LocalRoot.tree, hnode] at htree
    simp only at htree
    split at htree
    · cases htree
      cases hat
    · cases htree

/-- The object that an exact destination has is there exactly when its enumeration answers for
it. -/
theorem present_iff_answersItself (h : Listing.destination nfc o dst = .ok d)
    (hsingle : d.existing = true → d.isSingleFile = true) :
    Entry.Present d.entries.head? ↔ dst.AnswersItself nfc o := by
  cases dst with
  | «local» root =>
    have hthere := (walkLocal_eq_ok h).2.2
    have hhead : Entry.Present d.entries.head? ↔ ∃ x, x ∈ d.entries := by
      cases he : d.entries with
      | nil => simp [Entry.Present]
      | cons x rest =>
        simp only [List.head?_cons, mem_cons]
        exact ⟨fun _ => ⟨x, Or.inl rfl⟩, fun _ => ⟨x, rfl, hthere x (he ▸ mem_cons_self)⟩⟩
    rw [hhead]
    constructor
    · rintro ⟨x, hx⟩
      cases hkind : x.kind with
      | file => exact ⟨x.path, (file_mem_keys h).mp (Listing.mem_keys.mpr ⟨x, hx, rfl, hkind⟩)⟩
      | emptyDir =>
        obtain ⟨hempty, -⟩ :=
          (emptyDir_mem_keys h).mp (Listing.mem_keys.mpr ⟨x, hx, rfl, hkind⟩)
        have hexists : d.existing = true := by
          by_contra hno
          rw [(shape_enumerate h).2 (Bool.eq_false_iff.mpr hno)] at hx
          cases hx
        exact absurd hempty (not_emptyDirAt_of_single ((shape_enumerate h).1.mp (hsingle hexists)))
    · rintro ⟨path, hlists⟩
      obtain ⟨x, hx, -⟩ := Listing.mem_keys.mp ((file_mem_keys h).mpr hlists)
      exact ⟨x, hx⟩
  | named root cursor =>
    obtain ⟨objects, entries, hobjects, hall, hentries, hsing, hexisting⟩ :=
      walkRemote_eq_ok (show walkRemote o root cursor = .ok d from h)
    have hone : inScope o (cursor.contents root) = [] ∨
        ∃ x, inScope o (cursor.contents root) = [x] := by
      cases hx : exactObject root objects with
      | none =>
        have hmissing : objects = [] := by
          refine hexisting.resolve_left fun hexists => ?_
          obtain ⟨object, hobject⟩ := hsing.mp (hsingle hexists)
          rw [hx] at hobject
          cases hobject
        left
        simp [Cursor.contents, hobjects, hmissing, inScope, exactObject]
      | some object =>
        have hcontents : cursor.contents root = [(LogicalPath.fileName root, object)] := by
          simp [Cursor.contents, hobjects, hx]
        rw [hcontents, inScope, filter_singleton]
        cases accepts o (LogicalPath.fileName root) object.size object.modifiedUnix
        · exact Or.inl rfl
        · exact Or.inr ⟨_, rfl⟩
    rw [Endpoint.AnswersItself]
    obtain hnil | ⟨x, hx⟩ := hone
    · rw [hnil] at hall
      cases hall
      simp [hentries, hnil, Entry.Present]
    · rw [hx] at hall
      cases hall with
      | cons hdesc hrest =>
        cases hrest
        simp [hentries, hx, Entry.Present, hdesc.eq.2.2]

namespace Prepare

variable {m : Machine} {r : Request} {source dest : RemoteSpec} {prepared : Prepared}

theorem gated_eq_ok {diff : Except CliError Prepared} (him : r.immutable = true)
    (h : gated m r diff = .ok prepared) : diff = .ok prepared ∧ r.noTraverse = false ∧
      ∀ entry ∈ prepared.plan.entries, entry.action.replacesExisting = false := by
  rw [gated] at h
  obtain ⟨-, -, h⟩ := bind_eq_ok.mp h
  obtain ⟨_, htraverse, h⟩ := bind_eq_ok.mp h
  obtain ⟨prepared', hdiff, h⟩ := bind_eq_ok.mp h
  obtain ⟨_, hreplaced, h⟩ := bind_eq_ok.mp h
  cases h
  refine ⟨hdiff, ?_, ?_⟩
  · rw [ensureTraversalCanEnforceIt, him] at htraverse
    cases hn : r.noTraverse
    · rfl
    · simp [hn] at htraverse
  · rw [ensureNothingIsReplaced, him] at hreplaced
    simp only [Bool.not_true, Bool.false_eq_true, if_false] at hreplaced
    split at hreplaced
    · rename_i hempty
      intro entry hentry
      have := filter_eq_nil_iff.mp (isEmpty_iff.mp hempty) entry hentry
      simpa using this
    · cases hreplaced

theorem planPolicy_traversed {policy : Policy} (htraverse : r.noTraverse = false)
    (h : r.planPolicy = .ok policy) : policy.traversed = true := by
  obtain ⟨compare, -, h⟩ := bind_eq_ok.mp h
  cases h
  simp [Policy.withTraversal, htraverse]

structure ComputedFrom (m : Machine) (o : ListOptions) (dest : RemoteSpec) (prepared : Prepared)
    (s : Listing) : Prop where
  dest_eq : prepared.dest = dest
  computed : ∃ d policy, Listing.destination m.nfc o (m.stands dest) = .ok d ∧
    policy.traversed = true ∧ Plan.compute s.entries d.entries policy = .ok prepared.plan

structure ExactFrom (m : Machine) (o : ListOptions) (dest : RemoteSpec) (prepared : Prepared) :
    Prop where
  dest_eq : prepared.dest = dest.parent
  computed : ∃ d policy item, Listing.destination m.nfc o (m.stands dest) = .ok d ∧
    (d.existing = true → d.isSingleFile = true) ∧ policy.traversed = true ∧
    Plan.computeExact item d.entries.head? (dest.leaf (normalizeUnicode m.nfc)) policy =
      .ok prepared.plan

variable {o : ListOptions}

theorem computedFrom {root : RemoteSpec} {s : Listing} (htraverse : r.noTraverse = false)
    (h : (do
      let destListing ← enumerateDestination m r dest o
      rejectFileDestination dest destListing
      let policy ← r.planPolicy
      let plan ← Plan.compute s.entries destListing.entries policy
      pure (⟨root, dest, plan, destListing.entries.length⟩ : Prepared)) = .ok prepared) :
    ComputedFrom m o dest prepared s := by
  obtain ⟨d, hd, h⟩ := bind_eq_ok.mp h
  obtain ⟨_, -, h⟩ := bind_eq_ok.mp h
  obtain ⟨policy, hpolicy, h⟩ := bind_eq_ok.mp h
  obtain ⟨plan, hplan, h⟩ := bind_eq_ok.mp h
  cases h
  rw [enumerateDestination, htraverse] at hd
  exact ⟨rfl, d, policy, hd, planPolicy_traversed htraverse hpolicy, hplan⟩

section

variable (hs : r.source = .ok source) (hd : r.dest = .ok dest) (ho : r.options = .ok o)
  (htraverse : r.noTraverse = false)
include hs hd ho htraverse

theorem diffDirectoryTransfer_eq_ok (h : diffDirectoryTransfer m r = .ok prepared) :
    ∃ s, Listing.source m.nfc o source.display (m.stands source) = .ok s ∧
      ComputedFrom m o dest prepared s := by
  rw [diffDirectoryTransfer, hs, hd, ho] at h
  simp only [ok_bind] at h
  obtain ⟨_, -, h⟩ := bind_eq_ok.mp h
  obtain ⟨s, hsource, h⟩ := bind_eq_ok.mp h
  refine ⟨s, hsource, ?_⟩
  by_cases hsync : (s.isSingleFile && r.deleteExtras) = true
  · simp [hsync] at h
  · simp only [hsync] at h
    exact computedFrom htraverse h

theorem diffExactTransfer_eq_ok (h : diffExactTransfer m r = .ok prepared) :
    ∃ s, Listing.source m.nfc o source.display (m.stands source) = .ok s ∧
      (s.isSingleFile = false → ComputedFrom m o dest prepared s) ∧
      (s.isSingleFile = true → ExactFrom m o dest prepared) := by
  rw [diffExactTransfer, hs, hd, ho] at h
  simp only [ok_bind] at h
  obtain ⟨_, -, h⟩ := bind_eq_ok.mp h
  obtain ⟨s, hsource, h⟩ := bind_eq_ok.mp h
  refine ⟨s, hsource, ?_, ?_⟩
  · intro hsingle
    simp only [hsingle] at h
    exact computedFrom htraverse h
  · intro hsingle
    simp only [hsingle, if_true] at h
    rw [diffExactFile] at h
    by_cases hname : dest.leaf (normalizeUnicode m.nfc) = ""
    · simp [hname] at h
    simp only [hname, if_false] at h
    cases hitem : s.entries.head? with
    | none => simp [hitem] at h
    | some item =>
      simp only [hitem] at h
      obtain ⟨existing, hexisting, h⟩ := bind_eq_ok.mp h
      obtain ⟨policy, hpolicy, h⟩ := bind_eq_ok.mp h
      obtain ⟨plan, hplan, h⟩ := bind_eq_ok.mp h
      cases h
      rw [existingObject, htraverse] at hexisting
      obtain ⟨d, hdest, hexisting⟩ := bind_eq_ok.mp hexisting
      have hshape := shape_enumerate hdest
      cases he : d.existing
      · simp only [he, Bool.not_false, if_true] at hexisting
        cases hexisting
        refine ⟨rfl, d, policy, item, hdest, fun hexists => ?_, planPolicy_traversed htraverse
          hpolicy, ?_⟩
        · rw [he] at hexists
          cases hexists
        · rw [hshape.2 he]
          exact hplan
      · simp only [he, Bool.not_true, Bool.false_eq_true, if_false] at hexisting
        cases hone : d.isSingleFile
        · simp [hone] at hexisting
        · simp only [hone, Bool.not_true, Bool.false_eq_true, if_false] at hexisting
          cases hexisting
          exact ⟨rfl, d, policy, item, hdest, fun _ => hone, planPolicy_traversed htraverse hpolicy,
            hplan⟩

end

/-- The condition under which a plan that `--immutable` lets through writes over nothing: where a
lone file becomes a file that the destination holds, its enumeration answers for that file; and
where a tree is transferred, the enumeration answers for every path at which the source lists a file
and the destination holds one.  `holds` is what the destination holds below a root. -/
def AnswersForAll (m : Machine) (o : ListOptions) (source dest : RemoteSpec) (exact : Bool)
    (holds : RemoteSpec → String → Prop) : Prop :=
  (exact = true ∧ (m.stands source).IsSingle →
    holds dest.parent (dest.leaf (normalizeUnicode m.nfc)) →
    (m.stands dest).AnswersItself m.nfc o) ∧
  (¬(exact = true ∧ (m.stands source).IsSingle) →
    ∀ path, (m.stands source).Lists m.nfc o path → holds dest path →
      (m.stands dest).Answers m.nfc o path)

theorem ComputedFrom.adds_iff {s : Listing} {holds : RemoteSpec → String → Prop}
    (hnfc : KeepsComponents m.nfc) (hsource : Listing.enumerate m.nfc o (m.stands source) = .ok s)
    (hfrom : ComputedFrom m o dest prepared s)
    (hkept : ∀ entry ∈ prepared.plan.entries, entry.action.replacesExisting = false) :
    (∀ entry ∈ prepared.plan.entries, entry.action.transfers = true ∨ entry.action.destroys = true →
      ¬holds prepared.dest entry.dest) ↔
      ∀ path, (m.stands source).Lists m.nfc o path → holds dest path →
        (m.stands dest).Answers m.nfc o path := by
  obtain ⟨hdest, d, policy, hd, htraversed, hplan⟩ := hfrom
  rw [hdest, Plan.writes_iff htraversed hplan hkept]
  constructor
  · intro hpresent path hlists hholds
    obtain ⟨item, hitem, rfl, hkind⟩ := Listing.mem_keys.mp ((file_mem_keys hsource).mpr hlists)
    obtain ⟨_, _, -, hadm⟩ := hlists
    exact (present_iff_answers hnfc hd hadm).mp
      (hpresent item hitem (decide_eq_true hkind) hholds)
  · intro hanswers item hitem hfile hholds
    have hlists : (m.stands source).Lists m.nfc o item.path := (file_mem_keys hsource).mp
      (Listing.mem_keys.mpr ⟨item, hitem, rfl, of_decide_eq_true hfile⟩)
    have hanswer := hanswers item.path hlists hholds
    obtain ⟨_, _, -, hadm⟩ := hlists
    exact (present_iff_answers hnfc hd hadm).mpr hanswer

theorem ExactFrom.adds_iff {holds : RemoteSpec → String → Prop}
    (hfrom : ExactFrom m o dest prepared)
    (hkept : ∀ entry ∈ prepared.plan.entries, entry.action.replacesExisting = false) :
    (∀ entry ∈ prepared.plan.entries, entry.action.transfers = true ∨ entry.action.destroys = true →
      ¬holds prepared.dest entry.dest) ↔
      (holds dest.parent (dest.leaf (normalizeUnicode m.nfc)) →
        (m.stands dest).AnswersItself m.nfc o) := by
  obtain ⟨hdest, d, policy, item, hd, hsingle, htraversed, hplan⟩ := hfrom
  rw [Plan.computeExact] at hplan
  obtain ⟨action, haction, hplan⟩ := bind_eq_ok.mp hplan
  rw [fileAction, if_pos htraversed] at haction
  have hcopy := op_decide_eq_copy haction
  rw [present_iff_answersItself hd hsingle] at hcopy
  have hentries : prepared.plan.entries =
      [fileEntry item (dest.leaf (normalizeUnicode m.nfc)) action] := by
    rw [← Except.ok.inj hplan]
  rw [hentries] at hkept ⊢
  simp only [mem_singleton, forall_eq, fileEntry, hdest] at hkept ⊢
  cases ha : action.op with
  | copy =>
    simp [ha, Op.transfers, Op.destroys] at hcopy ⊢
    tauto
  | skip =>
    simp [ha, Op.transfers, Op.destroys] at hcopy ⊢
    tauto
  | update => simp [ha, Op.replacesExisting] at hkept
  | delete => simp [ha, Op.replacesExisting] at hkept
  | createDir =>
    simp [ha, Op.transfers, Op.destroys] at hcopy ⊢
    tauto

/-- A plan that `--immutable` lets through writes and removes nothing that the destination holds
exactly when the enumeration of the destination answers for all of it. -/
theorem immutable_adds_iff (exact : Bool) (holds : RemoteSpec → String → Prop)
    (hnfc : KeepsComponents m.nfc) (hs : r.source = .ok source) (hd : r.dest = .ok dest)
    (ho : r.options = .ok o) (him : r.immutable = true)
    (h : (if exact then exactTransfer m r else directoryTransfer m r) = .ok prepared) :
    (∀ entry ∈ prepared.plan.entries, entry.action.transfers = true ∨ entry.action.destroys = true →
      ¬holds prepared.dest entry.dest) ↔ AnswersForAll m o source dest exact holds := by
  rw [AnswersForAll]
  cases exact with
  | false =>
    obtain ⟨hdiff, htraverse, hkept⟩ := gated_eq_ok him h
    obtain ⟨s, hsource, hfrom⟩ := diffDirectoryTransfer_eq_ok hs hd ho htraverse hdiff
    rw [hfrom.adds_iff hnfc (enumerate_of_source hsource) hkept]
    simp
  | true =>
    obtain ⟨hdiff, htraverse, hkept⟩ := gated_eq_ok him h
    obtain ⟨s, hsource, htree, hfile⟩ := diffExactTransfer_eq_ok hs hd ho htraverse hdiff
    have hshape := (shape_enumerate (enumerate_of_source hsource)).1
    cases hsingle : s.isSingleFile with
    | false =>
      rw [(htree hsingle).adds_iff hnfc (enumerate_of_source hsource) hkept]
      have hno : ¬(m.stands source).IsSingle := by simp [← hshape, hsingle]
      simp [hno]
    | true =>
      rw [(hfile hsingle).adds_iff hkept]
      have hyes : (m.stands source).IsSingle := hshape.mp hsingle
      simp [hyes]

def sampleMachine : Machine :=
  ⟨id, fun _ => none, fun _ => .ok (), fun spec =>
    if spec = .local "src" then holding (lone 3 true) else holding (lone 9 true)⟩

def sampleRequest : Request :=
  ⟨.ok (.local "src"), .ok (.local "dst"), .ok (noLarger (some 5)), .ok {}, false,
    false, false, true⟩

def samplePrepared : Prepared :=
  ⟨.local "src", .local "dst",
    ⟨[fileEntry (Entry.ofFile "a" 3) "a" (.copy planReasonMissing)]⟩, 0⟩

theorem directoryTransfer_sample :
    directoryTransfer sampleMachine sampleRequest = .ok samplePrepared := by
  have hsource : Listing.source sampleMachine.nfc (noLarger (some 5)) "src"
      (sampleMachine.stands (.local "src")) = .ok (loneListing 3) :=
    source_of_enumerate (enumerate_holding rfl (Nat.le_refl 1)) rfl (collisions_loneListing 3)
  have hdest : enumerateDestination sampleMachine sampleRequest (.local "dst") (noLarger (some 5)) =
      .ok { existing := true } := enumerate_holding rfl (Nat.zero_le 1)
  have hdiff : diffDirectoryTransfer sampleMachine sampleRequest = .ok samplePrepared := by
    have hself : rejectSelfTransfer sampleMachine.canonicalize (.local "src") (.local "dst") =
        .ok () := rfl
    have hs : sampleRequest.source = .ok (.local "src") := rfl
    have hd : sampleRequest.dest = .ok (.local "dst") := rfl
    have ho : sampleRequest.options = .ok (noLarger (some 5)) := rfl
    rw [diffDirectoryTransfer, hs, hd, ho]
    simp only [ok_bind, hself, RemoteSpec.display, hsource, hdest]
    rfl
  rw [directoryTransfer, gated, hdiff]
  rfl

/-- The copy of a small file over a large one is planned, although nothing may be replaced. -/
theorem immutable_writes_over :
    directoryTransfer sampleMachine sampleRequest = .ok samplePrepared ∧
      sampleRequest.immutable = true ∧
      (∃ entry ∈ samplePrepared.plan.entries, entry.action.transfers = true ∧ entry.dest = "a") ∧
      (sampleMachine.stands samplePrepared.dest).Holds id .skip "a" :=
  ⟨directoryTransfer_sample, rfl, ⟨_, mem_singleton.mpr rfl, rfl, rfl⟩, holds_lone 9 true⟩

theorem immutable_adds_iff_sample :
    (∀ entry ∈ samplePrepared.plan.entries,
      entry.action.transfers = true ∨ entry.action.destroys = true →
        ¬(sampleMachine.stands samplePrepared.dest).Holds id .skip entry.dest) ↔
      AnswersForAll sampleMachine (noLarger (some 5)) (.local "src") (.local "dst") false
        fun spec path => (sampleMachine.stands spec).Holds id .skip path :=
  immutable_adds_iff (m := sampleMachine) (r := sampleRequest) false
    (fun spec path => (sampleMachine.stands spec).Holds id .skip path) (fun _ h => h)
      rfl rfl rfl rfl
    directoryTransfer_sample

end Prepare

end Dctl.Transfer
