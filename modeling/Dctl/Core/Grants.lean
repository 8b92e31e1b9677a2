import Dctl.ProofKit.Roster
import Dctl.Core.ShareKeys

/-! The grants of an object (`vault/share.rs`): calls that add recipients to it or remove them, one
after the other, over stores that lose answers. -/

namespace Dctl.Core

open ProofKit Crypto Kem Index Object List Prog

def rosterOf (parsed : ParsedSidecar) : Roster KeyId where
  version := parsed.grantGen.toNat
  members := parsed.grants.map grantKeyId

section Roster

variable (L : Libraries) (v : Vault)

def Vault.barred (front : ObjectFront) : List KeyId :=
  (Sidecar.inlineKeyIds front.block).toOption.getD [] ++ [v.identityKeyId L]

/-- The grants of the object: those of its sidecar, or none where there is no sidecar. -/
def Stores.Grants (s : Stores) (front : ObjectFront) (r : Roster KeyId) : Prop :=
  (s.objects[grantKeyOf front.fileId]? = none ∧ r = Roster.empty) ∨
    ∃ bytes parsed, s.objects[grantKeyOf front.fileId]? = some bytes ∧
      Sidecar.parse L.toPrimitives bytes front.fileId front.headBytes = .ok parsed ∧
      r = rosterOf parsed

end Roster

variable {L : Libraries} {v : Vault} {s s' : Stores} {nfcPath key : String} {front : ObjectFront}

section

variable {r : Roster KeyId} (h : s.Grants L front r)
include h

theorem Stores.Grants.length_le : r.members.length ≤ maxGrantCount := by
  rcases h with ⟨-, rfl⟩ | ⟨bytes, parsed, -, hparse, rfl⟩
  · exact Nat.zero_le _
  · rw [rosterOf, length_map]
    exact Sidecar.length_le_of_parse hparse

theorem Stores.Grants.congr
    (hsame : s'.objects[grantKeyOf front.fileId]? = s.objects[grantKeyOf front.fileId]?) :
    s'.Grants L front r := by
  unfold Grants
  rw [hsame]
  exact h

theorem Stores.Grants.grantsOf_eq {grants : List GrantRecord} {gen : UInt64}
    (hgrants : Vault.grantsOf L front (s.objects.get (grantKeyOf front.fileId)) =
      .ok (grants, gen)) :
    r = rosterOf { grantGen := gen, grants } := by
  rcases h with ⟨hnone, rfl⟩ | ⟨bytes, parsed, hsome, hparse, rfl⟩
  · simp only [Backend.get, hnone, Vault.grantsOf] at hgrants
    cases hgrants
    rfl
  · simp only [Backend.get, hsome, okOr, Vault.grantsOf, hparse] at hgrants
    cases hgrants
    rfl

end

section Edits

variable {recipients : List Drk1Public} {answer : Except StoreError Bytes}

theorem Vault.readable_of_grantsOf {grants : List GrantRecord} {gen : UInt64}
    (h : grantsOf L front answer = .ok (grants, gen)) :
    ∀ grant ∈ grants, Sidecar.Readable grant := by
  unfold grantsOf at h
  cases answer with
  | ok bytes =>
    simp only [bind_eq_ok, ofCrypto_eq_ok, pure_eq_ok] at h
    obtain ⟨parsed, hparse, heq⟩ := h
    cases heq
    exact Sidecar.readable_of_parse hparse
  | error e =>
    cases e with
    | notFound key =>
      cases h
      intro grant hgrant
      cases hgrant
    | io message | backend message | rangeOutOfBounds message => cases h

theorem Vault.addGrants_eq_ok {kw : Key} {headBytes : Bytes} {encaps : Nat → EncapsDraws}
    {index : Nat} {present : List KeyId} {added : List GrantRecord}
    (h : addGrants L kw headBytes encaps index present recipients = .ok added) :
    added.map grantKeyId = freshIn present (recipients.map (·.keyId L.toPrimitives)) ∧
      ∀ grant ∈ added, Sidecar.Readable grant := by
  induction recipients generalizing index present added with
  | nil =>
    cases h
    exact ⟨rfl, fun grant hgrant => by cases hgrant⟩
  | cons r rest ih =>
    unfold addGrants at h
    rw [map_cons, freshIn]
    by_cases hpresent : r.keyId L.toPrimitives ∈ present
    · rw [if_pos hpresent] at h
      rw [if_pos hpresent]
      exact ih h
    · rw [if_neg hpresent] at h
      rw [if_neg hpresent]
      simp only [bind_eq_ok, pure_eq_ok] at h
      obtain ⟨grant, hgrant, grants, hgrants, rfl⟩ := h
      obtain ⟨hreadable, hkeyId⟩ := Sidecar.sealKwToRecipient_eq_ok hgrant
      obtain ⟨hids, hall⟩ := ih hgrants
      refine ⟨by rw [map_cons, hkeyId, hids], ?_⟩
      intro other hother
      rcases mem_cons.mp hother with rfl | hother
      · exact hreadable
      · exact hall other hother

theorem Vault.nextGen_eq_ok {gen next : UInt64} (h : nextGen gen = .ok next) :
    next.toNat = gen.toNat + 1 := by
  unfold nextGen at h
  split at h
  · cases h
    rename_i hlt
    rw [UInt64.toNat_add, UInt64.toNat_one, Nat.mod_eq_of_lt hlt]
  · cases h

theorem Vault.planAdd_eq_ok {encaps : Nat → EncapsDraws} {kw : Key} {sidecar : Option Bytes}
    (h : v.planAdd L front recipients encaps answer = .ok (kw, sidecar)) :
    ∃ grants gen, grantsOf L front answer = .ok (grants, gen) ∧
      ((sidecar = none ∧ (rosterOf { grantGen := gen, grants }).edit (v.barred L front)
          (.add (recipients.map (·.keyId L.toPrimitives))) = rosterOf { grantGen := gen, grants }) ∨
        ∃ bytes next, sidecar = some bytes ∧
          Sidecar.parse L.toPrimitives bytes front.fileId front.headBytes = .ok next ∧
          rosterOf next = (rosterOf { grantGen := gen, grants }).edit (v.barred L front)
            (.add (recipients.map (·.keyId L.toPrimitives))) ∧
          (rosterOf next).version = gen.toNat + 1) := by
  unfold planAdd at h
  obtain ⟨⟨grants, gen⟩, hgrants, h⟩ := bind_eq_ok.mp h
  obtain ⟨kw', -, h⟩ := bind_eq_ok.mp h
  obtain ⟨inlineIds, hinline, h⟩ := bind_eq_ok.mp h
  obtain ⟨added, hadded, h⟩ := bind_eq_ok.mp h
  obtain ⟨_, hlimit, h⟩ := bind_eq_ok.mp h
  rw [ofCrypto_eq_ok] at hinline hadded
  rw [reject_eq_ok, not_lt] at hlimit
  have hbarred : v.barred L front = inlineIds ++ [v.identityKeyId L] := by
    rw [barred, hinline]
    rfl
  obtain ⟨hids, hreadable⟩ := addGrants_eq_ok hadded
  refine ⟨grants, gen, hgrants, ?_⟩
  rw [Roster.edit_add, hbarred]
  have hfresh :
      freshIn (inlineIds ++ [v.identityKeyId L] ++ (rosterOf { grantGen := gen, grants }).members)
      (recipients.map (·.keyId L.toPrimitives)) = added.map grantKeyId := hids.symm
  rw [hfresh]
  by_cases hnone : added = []
  · rw [if_pos hnone] at h
    cases h
    exact Or.inl ⟨rfl, by rw [hnone, map_nil, if_pos rfl]⟩
  · rw [if_neg hnone] at h
    right
    simp only [bind_eq_ok, ofCrypto_eq_ok, pure_eq_ok, Prod.mk.injEq] at h
    obtain ⟨next, hnext, bytes, hbytes, -, rfl⟩ := h
    have hall : ∀ grant ∈ grants ++ added, Sidecar.Readable grant := by
      intro grant hgrant
      rcases mem_append.mp hgrant with hold | hnew
      · exact readable_of_grantsOf hgrants grant hold
      · exact hreadable grant hnew
    refine ⟨bytes, _, rfl, Sidecar.parse_serialize hall hbytes, ?_, nextGen_eq_ok hnext⟩
    rw [if_neg (by rwa [map_eq_nil_iff]), Roster.append, rosterOf, rosterOf]
    simp only [nextGen_eq_ok hnext, map_append]

theorem Vault.planRemove_eq_ok {keyId : KeyId} {bytes : Bytes}
    (h : planRemove L nfcPath front keyId answer = .ok bytes) :
    ∃ grants gen next, grantsOf L front answer = .ok (grants, gen) ∧
      Sidecar.parse L.toPrimitives bytes front.fileId front.headBytes = .ok next ∧
      rosterOf next = (rosterOf { grantGen := gen, grants }).edit (v.barred L front)
        (.remove keyId) ∧
      (rosterOf next).version = gen.toNat + 1 := by
  unfold planRemove at h
  cases answer with
  | error e =>
    cases e with
    | notFound key => cases h
    | io message | backend message | rangeOutOfBounds message => cases h
  | ok stored =>
    simp only [bind_eq_ok, ofCrypto_eq_ok, reject_eq_ok] at h
    obtain ⟨parsed, hparse, _, hfound, gen, hgen, hbytes⟩ := h
    have hmember : keyId ∈ parsed.grants.map grantKeyId := by
      by_contra hnot
      apply hfound
      rw [filter_eq_self.mpr]
      intro grant hgrant
      rw [decide_eq_true_eq]
      intro heq
      exact hnot (mem_map.mpr ⟨grant, hgrant, heq⟩)
    have hall : ∀ grant ∈ parsed.grants.filter (fun g => grantKeyId g ≠ keyId),
        Sidecar.Readable grant := by
      intro grant hgrant
      exact Sidecar.readable_of_parse hparse grant (mem_of_mem_filter hgrant)
    refine ⟨parsed.grants, parsed.grantGen, _, ?_, Sidecar.parse_serialize hall hbytes, ?_,
      nextGen_eq_ok hgen⟩
    · unfold grantsOf
      simp only [hparse]
      rfl
    · rw [Roster.edit_remove, rosterOf, rosterOf, if_pos hmember, Roster.without]
      simp only [nextGen_eq_ok hgen, filter_map]
      rfl

end Edits

inductive ShareCall where
  | add (draws : ShareDraws) (path : String) (recipients : List Drk1Public)
  | remove (path : String) (keyId : KeyId)

namespace ShareCall

def path : ShareCall → String
  | add _ path _ | remove path _ => path

variable (L : Libraries) (v : Vault)

def run : ShareCall → VaultM Unit
  | add draws path recipients => v.shareAddRecipients L draws path recipients
  | remove path keyId => v.shareRemoveRecipient L path keyId

def edit : ShareCall → RosterEdit KeyId
  | add _ _ recipients => .add (recipients.map (·.keyId L.toPrimitives))
  | remove _ keyId => .remove keyId

end ShareCall

/-- The path leads to the object by its row or its name record. -/
def Vault.Resolves (L : Libraries) (v : Vault) (s : Stores) (path objectKey : String) : Prop :=
  ∃ nfcPath, Path.normalize L.toUnicode path = .ok nfcPath ∧
    v.lookupObjectKey L s.view nfcPath = .ok (some objectKey)

/-- A discovery record tells the recipient of the object. -/
def Stores.Announced (s : Stores) (front : ObjectFront) (keyId : KeyId) : Prop :=
  (s.objects[discoveryKeyOf keyId front.fileId]?).isSome

/-- What a call does to the grants of an object.  It leaves the sidecar or makes its edit.  One that
succeeds has made its edit, if that changes anything, and has announced the object to those whom it
adds. -/
structure Vault.ShareEffect (L : Libraries) (v : Vault) (front : ObjectFront) (s : Stores)
    (r : Roster KeyId) (e : RosterEdit KeyId) (ok : Bool) (s' : Stores) : Prop where
  side : s.SameOff (SideKey front.fileId) s'
  announced : ok = true → ∀ keyId, e.Adds keyId → keyId ≠ v.identityKeyId L →
    s'.Announced front keyId
  grants :
    (s'.objects[grantKeyOf front.fileId]? = s.objects[grantKeyOf front.fileId]? ∧
        (ok = true → r.edit (v.barred L front) e = r) ∧
        ∀ keyId, s.Announced front keyId → s'.Announced front keyId) ∨
      (s'.Grants L front (r.edit (v.barred L front) e) ∧
        (r.edit (v.barred L front) e).version = r.version + 1 ∧
        ∀ keyId, ¬e.Removes keyId → s.Announced front keyId → s'.Announced front keyId)

theorem Vault.ShareEffect.unchanged {r : Roster KeyId} {e : RosterEdit KeyId} :
    v.ShareEffect L front s r e false s where
  side := Stores.SameOff.refl s
  announced h := by cases h
  grants := Or.inl ⟨rfl, (fun h => by cases h), fun _ => id⟩

theorem Vault.lossy_fetchHeadAndBlock {x : Except CoreError ObjectFront}
    (h : Prog.Run mayLoseAnswer (fetchHeadAndBlock key).run s x s') :
    s' = s ∧ ∀ front, x = .ok front → s.view.front key = .ok front := by
  have hs := (@Stores.SameOff.run_lossy (fun _ => False) _ _ _ _ _ asks_fetchHeadAndBlock h).eq
  refine ⟨hs, ?_⟩
  intro front hx
  subst hx
  unfold fetchHeadAndBlock at h
  obtain ⟨bytes, s1, hfirst, hrest⟩ := run_bind_ok.mp h
  obtain ⟨n, s2, hcheck, hrest⟩ := run_bind_ok.mp hrest
  obtain ⟨block, s3, hsecond, hrest⟩ := run_bind_ok.mp hrest
  obtain ⟨_, s4, hlength, hrest⟩ := run_bind_ok.mp hrest
  obtain ⟨rfl, hbytes⟩ := lossy_fetchRange hfirst
  obtain ⟨hn, rfl⟩ := run_ofExcept.mp hcheck
  obtain ⟨rfl, hblock⟩ := lossy_fetchRange hsecond
  obtain ⟨hlen, rfl⟩ := run_ofExcept.mp hlength
  obtain ⟨hfront, -⟩ := run_pure.mp hrest
  unfold View.front
  simp only [Stores.view, Backend.view, hbytes bytes rfl, hblock block rfl, hn, hlen, ofStore,
    Except.mapError, ok_bind]
  exact hfront.symm

theorem Vault.lossy_resolveForShare {x : Except CoreError String}
    (h : Prog.Run mayLoseAnswer (v.resolveForShare L nfcPath).run s x s') :
    s' = s ∧ ∀ objectKey, x = .ok objectKey →
      v.lookupObjectKey L s.view nfcPath = .ok (some objectKey) := by
  have hs := (@Stores.SameOff.run_lossy (fun _ => False) _ _ _ _ _ asks_resolveForShare h).eq
  refine ⟨hs, ?_⟩
  intro objectKey hx
  subst hx
  unfold resolveForShare lookupKey at h
  obtain ⟨found, s1, hfound, hsome⟩ := run_bind_ok.mp h
  obtain ⟨hsome, -⟩ := run_ofExcept.mp hsome
  rw [okOr_eq_ok] at hsome
  subst hsome
  obtain ⟨row, s2, hrow, hrest⟩ := run_bind_ok.mp hfound
  obtain ⟨rfl, hrow⟩ := lossy_indexGet hrow
  have hview : s2.view.indexGet nfcPath = .ok row := by
    rw [hrow row rfl]
    rfl
  rw [lookupObjectKey_eq hview]
  cases row with
  | some record =>
    obtain ⟨hfound, -⟩ := run_pure.mp hrest
    exact hfound.symm
  | none =>
    obtain ⟨answer, s3, hanswer, hnamed⟩ := run_bind_ok.mp hrest
    obtain ⟨rfl, answer', hanswer', hget⟩ := lossy_tryFetch hanswer
    cases hanswer'
    obtain ⟨hnamed, -⟩ := run_pure.mp hnamed
    -- An answer that failed would name nothing.
    rcases hget with rfl | ⟨e, rfl, -⟩
    · exact hnamed.symm
    · cases hnamed

theorem Stores.Announced.insert {keyId : KeyId} (h : s.Announced front keyId) (value : Bytes) :
    Stores.Announced { s with objects := s.objects.insert key value } front keyId := by
  unfold Announced
  dsimp only
  rw [Std.ExtTreeMap.getElem?_insert]
  split
  · rfl
  · exact h

theorem Vault.lossy_announce {α : Type} {kw : Key} {draws : Nat → DiscoveryDraws}
    {recipients : List Drk1Public} {a : α} {x : Except CoreError α}
    (h : Prog.Run mayLoseAnswer (do
      let disc ← discoveryInfoForShare L nfcPath front key kw
      v.writeDiscoveryRecords L front.headBytes disc draws 0 recipients
      pure a : VaultM α).run s x s') :
    s.SameOff (fun other => ∃ keyId, other = discoveryKeyOf keyId front.fileId) s' ∧
      (∀ keyId, s.Announced front keyId → s'.Announced front keyId) ∧
      (x.isOk → ∀ r ∈ recipients, r.keyId L.toPrimitives ≠ v.identityKeyId L →
        s'.Announced front (r.keyId L.toPrimitives)) := by
  have hreads : ∀ {y : Except CoreError DiscoveryInfo} {s1 : Stores},
      Prog.Run mayLoseAnswer (discoveryInfoForShare L nfcPath front key kw).run s y s1 → s1 = s :=
    fun hrun => (@Stores.SameOff.run_lossy (fun _ => False) _ _ _ _ _
      asks_discoveryInfoForShare hrun).eq
  rcases run_fallible_bind.mp h with ⟨e, hdisc, rfl⟩ | ⟨disc, s1, hdisc, hwrites⟩
  · rw [hreads hdisc]
    exact ⟨Stores.SameOff.refl s, fun _ => id, fun hx => by cases hx⟩
  have hid : disc.fileId = front.fileId := by
    unfold discoveryInfoForShare at hdisc
    obtain ⟨_, _, -, hdisc⟩ := run_bind_ok.mp hdisc
    obtain ⟨_, _, -, hdisc⟩ := run_bind_ok.mp hdisc
    obtain ⟨heq, -⟩ := run_pure.mp hdisc
    rw [Except.ok.inj heq]
  have hs := hreads hdisc
  subst hs
  have hwritten : ∀ {y : Except CoreError Unit} {s2 : Stores},
      Prog.Run mayLoseAnswer (v.writeDiscoveryRecords L front.headBytes disc draws 0 recipients).run
        s1 y s2 →
      s1.SameOff (fun other => ∃ keyId, other = discoveryKeyOf keyId front.fileId) s2 ∧
        (∀ keyId, s1.Announced front keyId → s2.Announced front keyId) ∧
        (y = .ok () → ∀ r ∈ recipients, r.keyId L.toPrimitives ≠ v.identityKeyId L →
          s2.Announced front (r.keyId L.toPrimitives)) := by
    intro y s2 hrun
    obtain ⟨hkeep, hall⟩ := discovered_of_run 0 recipients hrun
    rw [hid] at hall
    refine ⟨Stores.SameOff.run_lossy
      (asks_writeDiscoveryRecords hid (fun keyId => ⟨keyId, rfl⟩) 0 _)
      hrun, fun keyId => hkeep _, hall⟩
  rcases run_fallible_bind.mp hwrites with ⟨e, hrun, rfl⟩ | ⟨_, s2, hrun, hpure⟩
  · obtain ⟨hside, hkeep, -⟩ := hwritten hrun
    exact ⟨hside, hkeep, fun hx => by cases hx⟩
  · obtain ⟨rfl, rfl⟩ := run_pure.mp hpure
    obtain ⟨hside, hkeep, hall⟩ := hwritten hrun
    exact ⟨hside, hkeep, fun _ => hall rfl⟩

theorem Stores.sameOff_insert_grantKeyOf (s : Stores) (front : ObjectFront) (bytes : Bytes) :
    s.SameOff (SideKey front.fileId)
      { s with objects := s.objects.insert (grantKeyOf front.fileId) bytes } := by
  refine ⟨rfl, fun other hother => ?_⟩
  exact Backend.getElem?_insert_of_ne fun heq => hother (Or.inl heq.symm)

section

variable (h : s.SameOff (fun other => ∃ keyId, other = discoveryKeyOf keyId front.fileId) s')
include h

theorem Stores.SameOff.sideKey : s.SameOff (SideKey front.fileId) s' :=
  ⟨h.rows, fun other hother => h.objects other fun hkey => hother (Or.inr hkey)⟩

theorem Stores.SameOff.grantKeyOf_eq :
    s'.objects[grantKeyOf front.fileId]? = s.objects[grantKeyOf front.fileId]? := by
  apply h.objects
  intro hkey
  obtain ⟨keyId, heq⟩ := hkey
  exact grantKeyOf_ne_discoveryKeyOf front.fileId keyId front.fileId heq

end

theorem Vault.grantsOf_transient {e : StoreError} (h : e.transient)
    {x : List GrantRecord × UInt64} :
    grantsOf L front (.error e) ≠ .ok x := by
  intro hok
  cases e with
  | notFound key => cases h
  | io message | backend message | rangeOutOfBounds message => cases hok

theorem Stores.Grants.eq_rosterOf {r : Roster KeyId} {answer : Except StoreError Bytes}
    {grants : List GrantRecord} {gen : UInt64} (hr : s.Grants L front r)
    (hanswer : answer = s.objects.get (grantKeyOf front.fileId) ∨
      ∃ e, answer = .error e ∧ e.transient)
    (hgrants : Vault.grantsOf L front answer = .ok (grants, gen)) :
    r = rosterOf { grantGen := gen, grants } := by
  rcases hanswer with rfl | ⟨e, rfl, he⟩
  · exact hr.grantsOf_eq hgrants
  · exact absurd hgrants (Vault.grantsOf_transient he)

theorem Vault.lossy_front_bind {α β : Type} {x : Except CoreError α}
    {plan : ObjectFront → Except StoreError Bytes → Except CoreError β}
    {rest : ObjectFront → β → VaultM α} (hfront : s.view.front key = .ok front)
    (h : Prog.Run mayLoseAnswer (do
      let front ← fetchHeadAndBlock key
      let answer ← tryFetch (grantKeyOf front.fileId)
      let planned ← Prog.ofExcept (plan front answer)
      rest front planned : VaultM α).run s x s') :
    (s' = s ∧ ∃ e, x = .error e) ∨ ∃ answer planned,
      (answer = s.objects.get (grantKeyOf front.fileId) ∨ ∃ e, answer = .error e ∧ e.transient) ∧
      plan front answer = .ok planned ∧ Prog.Run mayLoseAnswer (rest front planned).run s x s' := by
  rcases run_fallible_bind.mp h with ⟨e, hrun, rfl⟩ | ⟨front', s1, hrun, hrest⟩
  · exact Or.inl ⟨(lossy_fetchHeadAndBlock hrun).1, e, rfl⟩
  obtain ⟨rfl, hsame⟩ := lossy_fetchHeadAndBlock hrun
  cases hfront.symm.trans (hsame front' rfl)
  rcases run_fallible_bind.mp hrest with ⟨e, hget, -⟩ | ⟨answer, s2, hget, hplanned⟩
  · obtain ⟨-, _, herror, -⟩ := lossy_tryFetch hget
    cases herror
  obtain ⟨rfl, _, hanswer, hanswered⟩ := lossy_tryFetch hget
  cases hanswer
  rcases run_ofExcept_bind.mp hplanned with ⟨e, -, rfl, hs⟩ | ⟨planned, hplan, hwrites⟩
  · exact Or.inl ⟨hs.symm, _, rfl⟩
  · exact Or.inr ⟨answer, planned, hanswered, hplan, hwrites⟩

section Effects

variable {r : Roster KeyId} (hfront : s.view.front key = .ok front) (hr : s.Grants L front r)
include hfront hr

theorem Vault.effect_addToObject {draws : ShareDraws} {recipients : List Drk1Public}
    {x : Except CoreError (Option Key)}
    (h : Prog.Run mayLoseAnswer (v.addToObject L draws nfcPath key recipients).run s x s') :
    v.ShareEffect L front s r (.add (recipients.map (·.keyId L.toPrimitives))) x.isOk s' := by
  unfold addToObject at h
  rcases lossy_front_bind hfront h with
    ⟨rfl, e, rfl⟩ | ⟨answer, ⟨kw, sidecar⟩, hanswered, hplan, hwrites⟩
  · exact .unchanged
  obtain ⟨grants, gen, hgrants, hsidecar⟩ := planAdd_eq_ok hplan
  have hroster := hr.eq_rosterOf hanswered hgrants
  rw [← hroster] at hsidecar
  have hadds : ∀ keyId, (RosterEdit.add (recipients.map (·.keyId L.toPrimitives))).Adds keyId →
      ∃ r ∈ recipients, r.keyId L.toPrimitives = keyId := fun keyId hkey => mem_map.mp hkey
  rcases hsidecar with ⟨rfl, hedit⟩ | ⟨bytes, next, rfl, hparse, hnext, hversion⟩
  · -- Nobody is new, and only the discovery records are written.
    rcases run_fallible_bind.mp hwrites with ⟨e, hwrite, -⟩ | ⟨_, s3, hwrite, hannounce⟩
    · cases (run_pure.mp hwrite).1
    obtain ⟨-, rfl⟩ := run_pure.mp hwrite
    obtain ⟨hside, hkeep, hall⟩ := lossy_announce hannounce
    refine ⟨hside.sideKey, ?_, Or.inl ⟨hside.grantKeyOf_eq, fun _ => hedit, hkeep⟩⟩
    intro hok keyId hkey howner
    obtain ⟨r, hmem, rfl⟩ := hadds keyId hkey
    exact hall hok r hmem howner
  have hstored : Stores.Grants L
      { s with objects := s.objects.insert (grantKeyOf front.fileId) bytes } front
      (r.edit (v.barred L front) (.add (recipients.map (·.keyId L.toPrimitives)))) :=
    Or.inr ⟨bytes, next, Std.ExtTreeMap.getElem?_insert_self, hparse, hnext.symm⟩
  have hraised :
      (r.edit (v.barred L front) (.add (recipients.map (·.keyId L.toPrimitives)))).version =
      r.version + 1 := by
    rw [← hnext, hversion, hroster]
    rfl
  rcases run_fallible_bind.mp hwrites with ⟨e, hwrite, rfl⟩ | ⟨_, s3, hwrite, hannounce⟩
  · rcases lossy_putObject hwrite with ⟨hx, -⟩ | ⟨-, rfl | rfl⟩
    · cases hx
    · exact .unchanged
    · exact ⟨Stores.sameOff_insert_grantKeyOf s front bytes, (fun hok => by cases hok),
        Or.inr ⟨hstored, hraised, fun keyId _ hkey => hkey.insert bytes⟩⟩
  · rcases lossy_putObject hwrite with ⟨-, rfl⟩ | ⟨⟨e, hx⟩, -⟩
    · obtain ⟨hside, hkeep, hall⟩ := lossy_announce hannounce
      refine ⟨(Stores.sameOff_insert_grantKeyOf s front bytes).trans hside.sideKey, ?_,
        Or.inr ⟨hstored.congr hside.grantKeyOf_eq, hraised,
          fun keyId _ hkey => hkeep keyId (hkey.insert bytes)⟩⟩
      intro hok keyId hkey howner
      obtain ⟨r, hmem, rfl⟩ := hadds keyId hkey
      exact hall hok r hmem howner
    · cases hx

theorem Vault.effect_removeFromObject {keyId : KeyId} {x : Except CoreError Unit}
    (h : Prog.Run mayLoseAnswer (removeFromObject L nfcPath key keyId).run s x s') :
    v.ShareEffect L front s r (.remove keyId) x.isOk s' := by
  unfold removeFromObject at h
  rcases lossy_front_bind hfront h with ⟨rfl, e, rfl⟩ | ⟨answer, bytes, hanswered, hplan, hwrites⟩
  · exact .unchanged
  obtain ⟨grants, gen, next, hgrants, hparse, hnext, hversion⟩ :=
    @planRemove_eq_ok L v _ _ _ _ _ hplan
  have hroster := hr.eq_rosterOf hanswered hgrants
  rw [← hroster] at hnext
  have hstored : Stores.Grants L
      { s with objects := s.objects.insert (grantKeyOf front.fileId) bytes } front
      (r.edit (v.barred L front) (.remove keyId)) :=
    Or.inr ⟨bytes, next, Std.ExtTreeMap.getElem?_insert_self, hparse, hnext.symm⟩
  have hraised : (r.edit (v.barred L front) (.remove keyId)).version = r.version + 1 := by
    rw [← hnext, hversion, hroster]
    rfl
  have hadds : x.isOk = true → ∀ id, (RosterEdit.remove keyId).Adds id → id ≠ v.identityKeyId L →
      s'.Announced front id := fun _ id hid => absurd hid not_false
  have hwritten := Stores.sameOff_insert_grantKeyOf s front bytes
  rcases run_fallible_bind.mp hwrites with ⟨e, hwrite, rfl⟩ | ⟨_, s3, hwrite, hdelete⟩
  · rcases lossy_putObject hwrite with ⟨hx, -⟩ | ⟨-, rfl | rfl⟩
    · cases hx
    · exact .unchanged
    · exact ⟨hwritten, hadds, Or.inr ⟨hstored, hraised, fun id _ hid => hid.insert bytes⟩⟩
  · rcases lossy_putObject hwrite with ⟨-, rfl⟩ | ⟨⟨e, hx⟩, -⟩
    · rcases lossy_deleteObject hdelete with rfl | ⟨-, rfl⟩
      · have herased : ∀ other, other ≠ discoveryKeyOf keyId front.fileId →
            ((s.objects.insert (grantKeyOf front.fileId) bytes).erase
                (discoveryKeyOf keyId front.fileId))[other]? =
              (s.objects.insert (grantKeyOf front.fileId) bytes)[other]? :=
          fun other hne => Backend.getElem?_erase_of_ne fun heq => hne heq.symm
        refine ⟨hwritten.trans ⟨rfl, fun other hother => herased other ?_⟩, hadds,
          Or.inr ⟨hstored.congr (herased _ ?_), hraised, fun id hid hannounced => ?_⟩⟩
        · intro heq
          exact hother (Or.inr ⟨keyId, heq⟩)
        · exact grantKeyOf_ne_discoveryKeyOf front.fileId keyId front.fileId
        · unfold Stores.Announced
          rw [herased]
          · exact hannounced.insert bytes
          · intro heq
            exact hid (discoveryKeyOf_inj.mp heq).1.symm
      · exact ⟨hwritten, hadds, Or.inr ⟨hstored, hraised, fun id _ hid => hid.insert bytes⟩⟩
    · cases hx

end Effects

theorem Vault.lossy_resolve_bind {α : Type} {path objectKey : String}
    (hpath : v.Resolves L s path objectKey) {f : String → String →
      VaultM α} {x : Except CoreError α}
    (h : Prog.Run mayLoseAnswer (do
      let path ← liftCrypto (Path.normalize L.toUnicode path)
      let objectKey ← v.resolveForShare L path
      f path objectKey : VaultM α).run s x s') :
    ((∃ e, x = .error e) ∧ s' = s) ∨
      ∃ nfcPath, Prog.Run mayLoseAnswer (f nfcPath objectKey).run s x s' := by
  obtain ⟨nfcPath, hnormal, hlookup⟩ := hpath
  unfold liftCrypto at h
  rw [hnormal, ofCrypto, Except.mapError, run_ofExcept_ok_bind] at h
  rcases run_fallible_bind.mp h with ⟨e, hrun, rfl⟩ | ⟨found, s1, hrun, hrest⟩
  · exact Or.inl ⟨⟨e, rfl⟩, (lossy_resolveForShare hrun).1⟩
  · obtain ⟨rfl, hfound⟩ := lossy_resolveForShare hrun
    cases (hfound found rfl).symm.trans hlookup
    exact Or.inr ⟨nfcPath, hrest⟩

theorem ShareCall.effect {c : ShareCall} {r : Roster KeyId} {x : Except CoreError Unit}
    (hpath : v.Resolves L s c.path key) (hfront : s.view.front key = .ok front)
    (hr : s.Grants L front r) (h : Prog.Run mayLoseAnswer (c.run L v).run s x s') :
    v.ShareEffect L front s r (c.edit L) x.isOk s' := by
  cases c with
  | add draws path recipients =>
    unfold run Vault.shareAddRecipients Vault.shareAddWith at h
    obtain ⟨y, hadd, rfl⟩ := run_map h
    have hok : (y.map fun _ => ()).isOk = y.isOk := by
      cases y with
      | ok wrapped => rfl
      | error e => rfl
    rw [hok]
    rcases Vault.lossy_resolve_bind hpath hadd with ⟨⟨e, rfl⟩, rfl⟩ | ⟨nfcPath, hrun⟩
    · exact .unchanged
    · exact Vault.effect_addToObject hfront hr hrun
  | remove path keyId =>
    rcases Vault.lossy_resolve_bind hpath h with ⟨⟨e, rfl⟩, rfl⟩ | ⟨nfcPath, hrun⟩
    · exact .unchanged
    · exact Vault.effect_removeFromObject hfront hr hrun

theorem ShareCall.run_of_no_front {c : ShareCall} {x : Except CoreError Unit} {e : CoreError}
    (hpath : v.Resolves L s c.path key) (hfront : s.view.front key = .error e)
    (h : Prog.Run mayLoseAnswer (c.run L v).run s x s') : (∃ e, x = .error e) ∧ s' = s := by
  have hstop : ∀ {α : Type} {f : ObjectFront → VaultM α} {y : Except CoreError α},
      Prog.Run mayLoseAnswer (Vault.fetchHeadAndBlock key >>= f).run s y s' →
      (∃ e, y = .error e) ∧ s' = s := by
    intro α f y hrun
    rcases run_fallible_bind.mp hrun with ⟨e, hfetch, rfl⟩ | ⟨front, s1, hfetch, -⟩
    · exact ⟨⟨e, rfl⟩, (Vault.lossy_fetchHeadAndBlock hfetch).1⟩
    · have hok := (Vault.lossy_fetchHeadAndBlock hfetch).2 front rfl
      rw [hfront] at hok
      cases hok
  cases c with
  | add draws path recipients =>
    unfold run Vault.shareAddRecipients Vault.shareAddWith at h
    obtain ⟨y, hadd, rfl⟩ := run_map h
    rcases Vault.lossy_resolve_bind hpath hadd with ⟨⟨e, rfl⟩, rfl⟩ | ⟨nfcPath, hrun⟩
    · exact ⟨⟨e, rfl⟩, rfl⟩
    · obtain ⟨⟨e, rfl⟩, rfl⟩ := hstop hrun
      exact ⟨⟨e, rfl⟩, rfl⟩
  | remove path keyId =>
    rcases Vault.lossy_resolve_bind hpath h with ⟨⟨e, rfl⟩, rfl⟩ | ⟨nfcPath, hrun⟩
    · exact ⟨⟨e, rfl⟩, rfl⟩
    · exact hstop hrun

section Sequences

variable (L : Libraries) (v : Vault)

/-- The stores that a sequence of calls about one object leads to, with the edit that each call
asked for and whether it succeeded. -/
inductive Vault.Shares (objectKey : String) (s : Stores) :
    List (RosterEdit KeyId × Bool) → Stores → Prop
  | start : Shares objectKey s [] s
  | call {calls : List (RosterEdit KeyId × Bool)} {s1 s2 : Stores} {c : ShareCall}
      {x : Except CoreError Unit} (h : Shares objectKey s calls s1)
      (hpath : v.Resolves L s1 c.path objectKey)
      (hrun : Prog.Run mayLoseAnswer (c.run L v).run s1 x s2) :
      Shares objectKey s (calls ++ [(c.edit L, x.isOk)]) s2

def Vault.rosterAfter (front : ObjectFront) (effective : List (RosterEdit KeyId × Bool)) :
    Roster KeyId :=
  (effective.map Prod.fst).foldl (Roster.edit (v.barred L front)) Roster.empty

end Sequences

variable {fileId : FileId} {calls : List (RosterEdit KeyId × Bool)}

theorem Stores.SameOff.front_eq {other : FileId} (h : s.SameOff (SideKey other) s') :
    s'.view.front (objectKeyOf fileId) = s.view.front (objectKeyOf fileId) := by
  have hsame : ∀ offset length, s'.view.getRange (objectKeyOf fileId) offset length =
      s.view.getRange (objectKeyOf fileId) offset length := by
    intro offset length
    simp only [Stores.view, Backend.view, Backend.getRange, Backend.get,
      h.objects (objectKeyOf fileId) (not_sideKey_objectKeyOf other fileId)]
  unfold View.front
  simp only [hsame]

/-- What holds after a sequence of calls.  `effective` are those that took effect, which all that
succeeded did. -/
structure Vault.GrantsKept (L : Libraries) (v : Vault) (front : ObjectFront)
    (calls : List (RosterEdit KeyId × Bool)) (s : Stores)
    (effective : List (RosterEdit KeyId × Bool)) : Prop where
  sublist : effective.Sublist calls
  succeeded : (calls.filter Prod.snd).Sublist effective
  stored : s.Grants L front (v.rosterAfter L front effective)
  valid : (v.rosterAfter L front effective).Valid (v.barred L front) maxGrantCount
  granted : ∀ keyId, keyId ∈ (v.rosterAfter L front effective).members ↔
    keyId ∉ v.barred L front ∧
      AddedLast (RosterEdit.Adds keyId) (RosterEdit.Removes keyId) (effective.map Prod.fst)
  announced : ∀ keyId, keyId ≠ v.identityKeyId L →
    AddedLast (fun c => c.2 = true ∧ c.1.Adds keyId) (fun c => c.1.Removes keyId) effective →
    s.Announced front keyId

theorem Vault.GrantsKept.call {effective : List (RosterEdit KeyId × Bool)}
    (h : v.GrantsKept L front calls s effective) {e : RosterEdit KeyId} {ok : Bool}
    (heffect : v.ShareEffect L front s (v.rosterAfter L front effective) e ok s') :
    ∃ effective', v.GrantsKept L front (calls ++ [(e, ok)]) s' effective' := by
  have hafter : v.rosterAfter L front (effective ++ [(e, ok)]) =
      (v.rosterAfter L front effective).edit (v.barred L front) e := by
    rw [rosterAfter, map_append, foldl_append]
    rfl
  -- The call is counted where it succeeded or made its edit.
  have hcounted : s'.Grants L front ((v.rosterAfter L front effective).edit (v.barred L front) e) →
      (∀ keyId, ¬e.Removes keyId → s.Announced front keyId → s'.Announced front keyId) →
      v.GrantsKept L front (calls ++ [(e, ok)]) s' (effective ++ [(e, ok)]) := by
    intro hgrants hkeep
    constructor
    · exact h.sublist.append (List.Sublist.refl _)
    · rw [filter_append]
      refine h.succeeded.append ?_
      exact filter_sublist
    · rw [hafter]
      exact hgrants
    · rw [hafter]
      exact h.valid.edit hgrants.length_le
    · intro keyId
      exact Roster.mem_foldl_edit
    · intro keyId howner hlast
      rcases addedLast_append_singleton.mp hlast with ⟨hok, hadds⟩ | ⟨hbefore, hremoves⟩
      · exact heffect.announced hok keyId hadds howner
      · exact hkeep keyId hremoves (h.announced keyId howner hbefore)
  rcases heffect.grants with ⟨hsame, hnoop, hkeep⟩ | ⟨hgrants, -, hkeep⟩
  · cases ok with
    | true =>
      refine ⟨_, hcounted ?_ fun keyId _ => hkeep keyId⟩
      rw [hnoop rfl]
      exact h.stored.congr hsame
    | false =>
      refine ⟨effective, ?_, ?_, h.stored.congr hsame, h.valid, h.granted, ?_⟩
      · exact h.sublist.trans (sublist_append_left _ _)
      · rw [filter_append]
        simpa using h.succeeded
      · intro keyId howner hlast
        exact hkeep keyId (h.announced keyId howner hlast)
  · exact ⟨_, hcounted hgrants hkeep⟩

theorem Vault.Shares.kept (h : v.Shares L (objectKeyOf fileId) s calls s')
    (hfront : s.view.front (objectKeyOf fileId) = .ok front)
    (hnone : s.objects[grantKeyOf front.fileId]? = none) :
    s.SameOff (SideKey front.fileId) s' ∧ ∃ effective, v.GrantsKept L front calls s' effective := by
  induction h with
  | start =>
    refine ⟨Stores.SameOff.refl s, [], List.Sublist.refl _, List.Sublist.refl _,
      Or.inl ⟨hnone, rfl⟩, Roster.valid_empty _ _, fun keyId => Roster.mem_foldl_edit, ?_⟩
    intro keyId _ hlast
    exact absurd hlast not_addedLast_nil
  | call h hpath hrun ih =>
    obtain ⟨hside, effective, hkept⟩ := ih
    have heffect := ShareCall.effect hpath (hside.front_eq.trans hfront) hkept.stored hrun
    exact ⟨hside.trans heffect.side, hkept.call heffect⟩

/-- After every sequence of calls that add recipients to an object or remove them, over stores that
may fail before or after each request took effect: the sidecar parses, its grants are distinct,
within the limit, and none is the owner's or an inline recipient's; they are those that the calls
which took effect have added and not removed since, every call that succeeded among them; whoever a
successful call has added since is announced; and each call leaves the sidecar or makes its own
edit under the next generation. -/
theorem Vault.shares_keep_grants (L : Libraries) (v : Vault) (fileId : FileId) {s s' : Stores}
    {calls : List (RosterEdit KeyId × Bool)} (h : v.Shares L (objectKeyOf fileId) s calls s') :
    (∀ e, s.view.front (objectKeyOf fileId) = .error e → s' = s ∧ ∀ c ∈ calls, c.2 = false) ∧
      ∀ front, s.view.front (objectKeyOf fileId) = .ok front →
        s.objects[grantKeyOf front.fileId]? = none →
        ∃ effective, v.GrantsKept L front calls s' effective ∧
          ∀ (c : ShareCall) (x : Except CoreError Unit) (s'' : Stores),
            v.Resolves L s' c.path (objectKeyOf fileId) →
            Prog.Run mayLoseAnswer (c.run L v).run s' x s'' →
            v.ShareEffect L front s' (v.rosterAfter L front effective) (c.edit L) x.isOk s'' := by
  constructor
  · intro e hfront
    induction h with
    | start => exact ⟨rfl, fun c hc => by cases hc⟩
    | call h hpath hrun ih =>
      obtain ⟨rfl, hfailed⟩ := ih
      obtain ⟨⟨error, rfl⟩, rfl⟩ := ShareCall.run_of_no_front hpath hfront hrun
      refine ⟨rfl, ?_⟩
      intro c hc
      rcases mem_append.mp hc with hc | hc
      · exact hfailed c hc
      · rw [mem_singleton.mp hc]
        rfl
  · intro front hfront hnone
    obtain ⟨hside, effective, hkept⟩ := h.kept hfront hnone
    refine ⟨effective, hkept, ?_⟩
    intro c x s'' hpath hrun
    exact ShareCall.effect hpath (hside.front_eq.trans hfront) hkept.stored hrun

def Stores.answer (fails : String → Bool) (s : Stores) : (r : Request) → r.Answer × Stores
  | .get key => (s.objects.get key, s)
  | .getRange key offset length => (s.objects.getRange key offset length, s)
  | .put key data =>
    if fails key then (.error (.io ""), s)
    else (.ok (), { s with objects := s.objects.insert key data })
  | .delete key => (.ok (), { s with objects := s.objects.erase key })
  | .listPage _ _ => (.error (.io ""), s)
  | .indexGet path => (.ok s.rows[path]?, s)
  | .indexPut record => (.ok (), { s with rows := s.rows.insert record.path record })
  | .indexDelete path => (.ok (), { s with rows := s.rows.erase path })

theorem run_mayFail_of_eval {α : Type} {fails : String → Bool} {p : Prog Request Request.Answer α}
    (s : Stores) :
    Prog.Run mayFail p s (p.eval (Stores.answer fails) s).1 (p.eval (Stores.answer fails) s).2 := by
  have hrun : Prog.Run (Prog.Server.ofFun (Stores.answer fails)) p s
      (p.eval (Stores.answer fails) s).1 (p.eval (Stores.answer fails) s).2 := run_ofFun.mpr rfl
  refine hrun.mono ?_
  intro s r x s' hserve
  have hx : (s.answer fails r).1 = x := congrArg Prod.fst hserve
  have hs : (s.answer fails r).2 = s' := congrArg Prod.snd hserve
  subst hx hs
  cases r with
  | put key data =>
    unfold Stores.answer
    by_cases hfails : fails key
    · simp only [if_pos hfails]
      exact Or.inr ⟨⟨_, rfl, rfl⟩, rfl⟩
    · simp only [if_neg hfails]
      exact Or.inl ⟨rfl, rfl⟩
  | listPage start cursor => exact Or.inr ⟨⟨_, rfl, rfl⟩, rfl⟩
  | get key | getRange key offset length | delete key | indexGet path | indexPut record
  | indexDelete path => exact Or.inl ⟨rfl, rfl⟩

def noDiscovery (key : String) : Bool := (stripPrefix discoveryKeyPrefix key).isSome

def ownStores : Stores where
  objects := (∅ : Backend).insert (objectKeyOf default) (sharedObject sampleSharedDraws.object [])
  rows := (∅ : Rows).insert "a" (Vault.bufferedRow sharingLibraries "a" default [] none)

def shareOwn : ShareCall := .add sampleShareDraws "a" [sampleFriend]

def sharedOwn (fails : String → Bool) : Except CoreError Unit × Stores :=
  (shareOwn.run sharingLibraries sampleVault).run.eval (Stores.answer fails) ownStores

def grantedOwn (s : Stores) : Option (List KeyId) := do
  let front ← (s.view.front (objectKeyOf default)).toOption
  let bytes ← s.objects[grantKeyOf front.fileId]?
  let parsed ← (Sidecar.parse sharingLibraries.toPrimitives bytes front.fileId
      front.headBytes).toOption
  pure (rosterOf parsed).members

theorem ownStores_resolves : sampleVault.Resolves sharingLibraries ownStores "a"
    (objectKeyOf default) := by
  refine ⟨"a", normalize_a, ?_⟩
  have hrow :
      ownStores.rows["a"]? = some (Vault.bufferedRow sharingLibraries "a" default [] none) :=
    Std.ExtTreeMap.getElem?_insert_self
  have hview : ownStores.view.indexGet "a" = .ok (some _) := congrArg Except.ok hrow
  exact Vault.lookupObjectKey_eq hview

/-- Where nothing fails, the owner shares the object. -/
theorem Vault.shared_own_keeps_grants : ∃ front effective,
    ownStores.view.front (objectKeyOf default) = .ok front ∧
      sampleVault.GrantsKept sharingLibraries front [(shareOwn.edit sharingLibraries, true)]
        (sharedOwn fun _ => false).2 effective := by
  have hok : (sharedOwn fun _ => false).1.isOk = true := by decide +kernel
  have hrun : Prog.Run mayLoseAnswer (shareOwn.run sharingLibraries sampleVault).run ownStores
      (sharedOwn fun _ => false).1 (sharedOwn fun _ => false).2 :=
    (run_mayFail_of_eval ownStores).mono mayFail_le_mayLoseAnswer
  have hshares : sampleVault.Shares sharingLibraries (objectKeyOf default) ownStores
      ([] ++ [(shareOwn.edit sharingLibraries, (sharedOwn fun _ => false).1.isOk)])
      (sharedOwn fun _ => false).2 := .call .start ownStores_resolves hrun
  have hfront : (ownStores.view.front (objectKeyOf default)).isOk := by decide +kernel
  cases hread : ownStores.view.front (objectKeyOf default) with
  | error e =>
    rw [hread] at hfront
    cases hfront
  | ok front =>
    have hnone : ownStores.objects[grantKeyOf front.fileId]? = none := by
      rw [ownStores, Backend.getElem?_insert_of_ne (objectKeyOf_ne_grantKeyOf default front.fileId)]
      rfl
    obtain ⟨effective, hkept, -⟩ := (Vault.shares_keep_grants sharingLibraries sampleVault default
      hshares).2 front hread hnone
    rw [hok] at hkept
    exact ⟨front, effective, rfl, hkept⟩

/-- The discovery record cannot be written.  The call fails, and has granted the object to a
recipient who is not told of it. -/
theorem Vault.failed_add_leaves_grant :
    ownStores.objects[grantKeyOf default]? = none ∧
      Prog.Run mayFail (shareOwn.run sharingLibraries sampleVault).run ownStores
        (sharedOwn noDiscovery).1 (sharedOwn noDiscovery).2 ∧
      (sharedOwn noDiscovery).1.isOk = false ∧
      grantedOwn (sharedOwn noDiscovery).2 =
        some [sampleFriend.keyId sharingLibraries.toPrimitives] ∧
      (sharedOwn noDiscovery).2.objects[discoveryKeyOf
        (sampleFriend.keyId sharingLibraries.toPrimitives)
        default]? = none := by
  refine ⟨?_, run_mayFail_of_eval ownStores, by decide +kernel⟩
  rw [ownStores, Backend.getElem?_insert_of_ne (objectKeyOf_ne_grantKeyOf default default)]
  rfl

end Dctl.Core
