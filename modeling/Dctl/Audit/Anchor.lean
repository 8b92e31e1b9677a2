import Dctl.Audit.Log

/-! A head hash that is kept outside the log, and what comparing it with a chain shows
(`audit/anchor.rs`). -/

namespace Dctl.Audit

open ProofKit Crypto List

/-- A head hash recorded outside the log, with the number of records the chain held, if it says so.
-/
structure Anchor where
  records : Option Nat
  head : String
  wellFormed : isWellFormedHash head = true

inductive Mismatch where
  | advanced (anchoredRecords records appended : Nat)
  | truncated (anchoredRecords records missing : Nat)
  | diverged (anchoredRecords : Nat) (expected found : String)
  | absent (expected : String) (records : Nat)
  deriving DecidableEq

def headAfter (records : List AuditRecord) : Nat → Option String
  | 0 => some auditChainGenesisPrev
  | count + 1 => records[count]?.map AuditRecord.hash

def compare (anchor : Anchor) (verified : Verified) (records : List AuditRecord) :
    Except Mismatch Unit :=
  if eqIgnoreAsciiCase anchor.head verified.head then .ok ()
  else
    let now := records.length
    match anchor.records with
    | some anchoredRecords => match headAfter records anchoredRecords with
      | none => .error (.truncated anchoredRecords now (anchoredRecords - now))
      | some found =>
        if eqIgnoreAsciiCase anchor.head found then
          .error (.advanced anchoredRecords now (now - anchoredRecords))
        else .error (.diverged anchoredRecords anchor.head found)
    -- A bare hash is searched for from the end.
    | none => match (List.range now).reverse.find? fun count =>
          (headAfter records count).any fun found => eqIgnoreAsciiCase anchor.head found with
      | some anchoredRecords => .error (.advanced anchoredRecords now (now - anchoredRecords))
      | none => .error (.absent anchor.head now)

variable {blake3 : Bytes → Digest} {as bs records : List AuditRecord} {a b verified : Verified}
  {r s : AuditRecord} {head head' : String} {anchor : Anchor} {n : Nat}

theorem headAfter_take (h : verifyFrom blake3 0 auditChainGenesisPrev records = .ok head)
    (hn : n ≤ records.length) :
    ∃ middle, headAfter records n = some middle ∧
      verifyFrom blake3 0 auditChainGenesisPrev (records.take n) = .ok middle := by
  cases n with
  | zero => exact ⟨_, rfl, rfl⟩
  | succ n =>
    have hsplit : records = records.take (n + 1) ++ records.drop (n + 1) :=
      (take_append_drop _ _).symm
    rw [hsplit, verifyFrom_append] at h
    obtain ⟨middle, hmiddle, -⟩ := h
    refine ⟨middle, ?_, hmiddle⟩
    have hlast : records.take (n + 1) = records.take n ++ [records[n]] :=
      take_succ_eq_append_getElem hn
    rw [hlast, verifyFrom_append] at hmiddle
    obtain ⟨before, -, hrecord⟩ := hmiddle
    obtain ⟨-, hend⟩ := verifyFrom_cons.mp hrecord
    cases hend
    rw [headAfter, List.getElem?_eq_getElem hn]
    rfl

theorem headAfter_eq_none (h : records.length < n) : headAfter records n = none := by
  cases n with
  | zero => omega
  | succ n => rw [headAfter, List.getElem?_eq_none (by omega), Option.map_none]

theorem headAfter_length (h : verifyFrom blake3 0 auditChainGenesisPrev records = .ok head) :
    headAfter records records.length = some head := by
  obtain ⟨middle, hmiddle, hwalk⟩ := headAfter_take h (Nat.le_refl _)
  rw [take_length] at hwalk
  cases h.symm.trans hwalk
  exact hmiddle

theorem prev_eq_of_canonical (hr : r.isSupportedVersion = true) (hs : s.isSupportedVersion = true)
    (hrprev : isWellFormedHash r.prev = true) (hsprev : isWellFormedHash s.prev = true)
    (h : canonical r = canonical s) : r.prev = s.prev := by
  have hversion := version_eq_of_canonical hr hs hrprev hsprev h
  have hlist := congrArg String.toList h
  rw [toList_canonical, toList_canonical] at hlist
  apply String.toList_injective
  rcases AuditRecord.version_cases hs with hlegacy | hcurrent
  · rw [canonicalFields_legacy hlegacy, canonicalFields_legacy (hversion.trans hlegacy)] at hlist
    exact head_intercalate_inj (separate_of_isWellFormedHash hrprev)
      (separate_of_isWellFormedHash hsprev)
      (cons_ne_nil _ _) (cons_ne_nil _ _) hlist
  · rw [canonicalFields_current hcurrent, canonicalFields_current (hversion.trans hcurrent),
      map_cons, map_cons, intercalate_cons_of_ne_nil (by simp [legacyFields]),
      intercalate_cons_of_ne_nil (by simp [legacyFields])] at hlist
    have hbehind := append_cancel_left hlist
    exact head_intercalate_inj (separate_of_isWellFormedHash hrprev)
      (separate_of_isWellFormedHash hsprev)
      (cons_ne_nil _ _) (cons_ne_nil _ _) hbehind

/-- The hash is free of collisions on the records at hand, and gives the genesis hash for none of
them. -/
structure Ideal (blake3 : Bytes → Digest) (as bs : List AuditRecord) : Prop where
  collisionFree : CollisionFree blake3 as bs
  notGenesis : ∀ r ∈ as ++ bs, computeHash blake3 r ≠ auditChainGenesisPrev

theorem not_genesis (h : computeHash blake3 r ≠ auditChainGenesisPrev)
    (hr : eqIgnoreAsciiCase r.hash (computeHash blake3 r)) :
    ¬eqIgnoreAsciiCase r.hash auditChainGenesisPrev := by
  intro hgenesis
  have hfold : foldCase auditChainGenesisPrev = auditChainGenesisPrev.toList := by decide
  apply h
  apply String.toList_injective
  calc (computeHash blake3 r).toList
      = foldCase (computeHash blake3 r) := (foldCase_hexEncode _).symm
    _ = foldCase r.hash := hr.symm
    _ = foldCase auditChainGenesisPrev := hgenesis
    _ = auditChainGenesisPrev.toList := hfold

theorem canonical_eq_of_head (ha : verifyFrom blake3 0 auditChainGenesisPrev as = .ok head)
    (hb : verifyFrom blake3 0 auditChainGenesisPrev bs = .ok head')
    (hhead : eqIgnoreAsciiCase head head') (hfree : CollisionFree blake3 as bs)
    (hgenesis : ∀ r ∈ as ++ bs, computeHash blake3 r ≠ auditChainGenesisPrev) :
    List.Forall₂ (fun r s => canonical r = canonical s) as bs := by
  induction as using List.reverseRecOn generalizing bs head head' with
  | nil =>
    cases ha
    rcases eq_nil_or_concat bs with rfl | ⟨bs, s, rfl⟩
    · exact .nil
    · rw [concat_eq_append] at hb hgenesis ⊢
      obtain ⟨before, -, hrecord⟩ := verifyFrom_append.mp hb
      obtain ⟨hs, hend⟩ := verifyFrom_cons.mp hrecord
      cases hend
      obtain ⟨-, -, -, -, -, hhash⟩ := checkRecord_eq_ok.mp hs
      exact absurd hhead.symm (not_genesis (hgenesis s (by simp)) hhash)
  | append_singleton as r ih =>
    obtain ⟨before, hbefore, hrecord⟩ := verifyFrom_append.mp ha
    obtain ⟨hr, hend⟩ := verifyFrom_cons.mp hrecord
    cases hend
    obtain ⟨hrprev, -, hrversion, -, hrlink, hrhash⟩ := checkRecord_eq_ok.mp hr
    rcases eq_nil_or_concat bs with rfl | ⟨bs, s, rfl⟩
    · cases hb
      exact absurd hhead (not_genesis (hgenesis r (by simp)) hrhash)
    · rw [concat_eq_append] at hb hgenesis hfree ⊢
      obtain ⟨before', hbefore', hrecord'⟩ := verifyFrom_append.mp hb
      obtain ⟨hs, hend⟩ := verifyFrom_cons.mp hrecord'
      cases hend
      obtain ⟨hsprev, -, hsversion, -, hslink, hshash⟩ := checkRecord_eq_ok.mp hs
      have hcanonical := canonical_eq_of_hash (hfree r (by simp) s (by simp)) hrhash hshash hhead
      have hprev := prev_eq_of_canonical hrversion hsversion hrprev hsprev hcanonical
      have hlinks : eqIgnoreAsciiCase before before' := by
        rw [hprev] at hrlink
        exact hrlink.symm.trans hslink
      have hrest := ih hbefore hbefore' hlinks
        (fun r hr s hs => hfree r (mem_append_left _ hr) s (mem_append_left _ hs))
        fun t ht => hgenesis t (by
          rcases mem_append.mp ht with ht | ht <;> simp [ht])
      exact rel_append hrest (.cons hcanonical .nil)

/-- The anchor was taken from a chain: it has its head, in either case of the digits, and its number
of records if it has one at all. -/
structure Anchor.TakenFrom (anchor : Anchor) (verified : Verified) : Prop where
  head : eqIgnoreAsciiCase anchor.head verified.head
  records : ∀ n ∈ anchor.records, n = verified.records

/-- After so many records, the chain heads at the anchored hash. -/
def Reaches (records : List AuditRecord) (n : Nat) (anchor : Anchor) : Prop :=
  ∃ found, headAfter records n = some found ∧ eqIgnoreAsciiCase anchor.head found

theorem any_headAfter :
    ((headAfter records n).any fun found => eqIgnoreAsciiCase anchor.head found) = true ↔
    Reaches records n anchor := by
  rw [Option.any_eq_true, Reaches]
  simp

/-- No record of the chain is `r`, by its canonical bytes. -/
def Missing (r : AuditRecord) (records : List AuditRecord) : Prop :=
  ∀ s ∈ records, canonical s ≠ canonical r

theorem Reaches.position (hreaches : Reaches bs n anchor) (hn : n ≤ bs.length)
    (ha : verifyFrom blake3 0 auditChainGenesisPrev as = .ok a.head)
    (hb : verifyFrom blake3 0 auditChainGenesisPrev bs = .ok b.head) (hideal : Ideal blake3 as bs)
    (hhead : eqIgnoreAsciiCase anchor.head a.head) :
    n = as.length ∧ List.Forall₂ (fun r s => canonical r = canonical s) as (bs.take n) := by
  obtain ⟨found, hfound, hsame⟩ := hreaches
  obtain ⟨middle, hmiddle, hwalk⟩ := headAfter_take hb hn
  cases hfound.symm.trans hmiddle
  have hcanonical := canonical_eq_of_head ha hwalk (hhead.symm.trans hsame)
    (fun r hr s hs => hideal.collisionFree r hr s (mem_of_mem_take hs)) fun r hr => by
      rcases mem_append.mp hr with hr | hr
      · exact hideal.notGenesis r (mem_append_left _ hr)
      · exact hideal.notGenesis r (mem_append_right _ (mem_of_mem_take hr))
  have hlength := hcanonical.length_eq
  rw [length_take, Nat.min_eq_left hn] at hlength
  exact ⟨hlength.symm, hcanonical⟩

theorem le_of_headAfter {found : String} (h : headAfter records n = some found) :
    n ≤ records.length := by
  by_contra hlt
  rw [headAfter_eq_none (Nat.lt_of_not_le hlt)] at h
  cases h

theorem exists_of_forall₂ {R : AuditRecord → AuditRecord → Prop} (h : List.Forall₂ R as bs)
    (hr : r ∈ as) : ∃ s ∈ bs, R r s := by
  induction h with
  | nil => cases hr
  | cons hrs _ ih =>
    rcases mem_cons.mp hr with rfl | hr
    · exact ⟨_, mem_cons_self, hrs⟩
    · obtain ⟨s, hs, hrs⟩ := ih hr
      exact ⟨s, mem_cons_of_mem _ hs, hrs⟩

theorem compare_eq_ok :
    compare anchor verified records = .ok () ↔ eqIgnoreAsciiCase anchor.head verified.head := by
  constructor
  · intro h
    by_contra hdiffers
    rw [compare, if_neg hdiffers] at h
    simp only at h
    split at h
    · split at h
      · cases h
      · split at h <;> cases h
    · split at h <;> cases h
  · intro hhead
    rw [compare, if_pos hhead]

theorem of_compare_advanced {x y : Nat}
    (h : compare anchor verified records = .error (.advanced n x y)) :
    ¬eqIgnoreAsciiCase anchor.head verified.head ∧ (x = records.length ∧ y = records.length - n) ∧
      Reaches records n anchor := by
  rw [compare] at h
  split at h
  next => cases h
  next hhead =>
    refine ⟨hhead, ?_⟩
    split at h
    next m _ =>
      split at h
      next => cases h
      next found hfound =>
        split at h
        next hsame =>
          cases h
          exact ⟨⟨rfl, rfl⟩, found, hfound, hsame⟩
        next => cases h
    next =>
      simp only at h
      split at h
      next m hfind =>
        cases h
        have hany := List.find?_some hfind
        exact ⟨⟨rfl, rfl⟩, any_headAfter.mp hany⟩
      next => cases h

theorem compare_advanced (hhead : ¬eqIgnoreAsciiCase anchor.head verified.head)
    (hreaches : Reaches records n anchor) (hn : n < records.length)
    (hcount : ∀ m ∈ anchor.records, m = n)
    (hunique : ∀ m < records.length, Reaches records m anchor → m = n) :
    compare anchor verified records = .error (.advanced n records.length (records.length - n)) := by
  obtain ⟨found, hfound, hsame⟩ := hreaches
  rw [compare, if_neg hhead]
  cases hrecords : anchor.records with
  | some m =>
    obtain rfl := hcount m hrecords
    simp only [hfound, if_pos hsame]
  | none =>
    have hsome : ((List.range records.length).reverse.find? fun count =>
        (headAfter records count).any fun found => eqIgnoreAsciiCase anchor.head found) =
          some n := by
      cases hfind : (List.range records.length).reverse.find? fun count =>
          (headAfter records count).any fun found => eqIgnoreAsciiCase anchor.head found with
      | none =>
        have hnot := List.find?_eq_none.mp hfind n (by simpa using hn)
        exact absurd (any_headAfter.mpr ⟨found, hfound, hsame⟩) hnot
      | some m =>
        have hany := List.find?_some hfind
        have hlt : m < records.length := by simpa using mem_of_find?_eq_some hfind
        rw [hunique m hlt (any_headAfter.mp hany)]
    simp only [hsome]

theorem compare_short (hhead : ¬eqIgnoreAsciiCase anchor.head verified.head)
    (hnever : ∀ m < records.length, ¬Reaches records m anchor) :
    compare anchor verified records = match anchor.records with
      | some n => match headAfter records n with
        | none => .error (.truncated n records.length (n - records.length))
        | some found => if eqIgnoreAsciiCase anchor.head found then
            .error (.advanced n records.length (records.length - n))
          else .error (.diverged n anchor.head found)
      | none => .error (.absent anchor.head records.length) := by
  rw [compare, if_neg hhead]
  cases hrecords : anchor.records with
  | some n => rfl
  | none =>
    have hnone : ((List.range records.length).reverse.find? fun count =>
        (headAfter records count).any fun found => eqIgnoreAsciiCase anchor.head found) = none := by
      rw [List.find?_eq_none]
      intro m hm hany
      exact hnever m (by simpa using hm) (any_headAfter.mp hany)
    simp only [hnone]

/-- Of a chain whose records the hash is ideal on, and an anchor that was taken from another: the
verdict is that the chain ends at the anchor just where its head is the anchored one, that it has
advanced by the records behind the anchor just where it reaches the anchor there and goes on, and
that it was truncated by the records that are gone where it is a part of the other.  A bare anchor
then says that it is absent.  No verdict says that a chain has advanced which lacks a record that
the anchor covers. -/
theorem compare_verdict (ha : verify blake3 as = .ok a) (hb : verify blake3 bs = .ok b)
    (hideal : Ideal blake3 as bs) (htaken : anchor.TakenFrom a) :
    (compare anchor b bs = .ok () ↔ eqIgnoreAsciiCase b.head anchor.head) ∧
    (compare anchor b bs = .error (.advanced as.length bs.length (bs.length - as.length)) ↔
      Reaches bs as.length anchor ∧ as.length < bs.length) ∧
    (bs <+: as → bs.length < as.length → compare anchor b bs = match anchor.records with
      | some n => .error (.truncated n bs.length (as.length - bs.length))
      | none => .error (.absent anchor.head bs.length)) ∧
    ∀ n x y, compare anchor b bs = .error (.advanced n x y) →
      (n = as.length ∧ x = bs.length ∧ y = bs.length - as.length) ∧ ∀ r ∈ as, ¬Missing r bs := by
  obtain ⟨hwalka, hlena⟩ := verify_eq_ok.mp ha
  obtain ⟨hwalkb, hlenb⟩ := verify_eq_ok.mp hb
  obtain ⟨hhead, hrecords⟩ := htaken
  have hposition := fun n (h : Reaches bs n anchor) =>
    h.position (le_of_headAfter h.choose_spec.1) hwalka hwalkb hideal hhead
  have hend : Reaches bs bs.length anchor ↔ eqIgnoreAsciiCase anchor.head b.head := by
    simp [Reaches, headAfter_length hwalkb]
  have hadvanced : ∀ n x y, compare anchor b bs = .error (.advanced n x y) →
      ((n = as.length ∧ x = bs.length ∧ y = bs.length - as.length) ∧ Reaches bs as.length anchor ∧
        as.length < bs.length) ∧ ∀ r ∈ as, ¬Missing r bs := by
    intro n x y h
    obtain ⟨hdiffers, ⟨rfl, rfl⟩, hreaches⟩ := of_compare_advanced h
    obtain ⟨rfl, hcanonical⟩ := hposition n hreaches
    have hle := le_of_headAfter hreaches.choose_spec.1
    have hne : as.length ≠ bs.length := fun heq => hdiffers (hend.mp (heq ▸ hreaches))
    refine ⟨⟨⟨rfl, rfl, rfl⟩, hreaches, by omega⟩, ?_⟩
    intro r hr hmissing
    obtain ⟨s, hs, hsame⟩ := exists_of_forall₂ hcanonical hr
    exact hmissing s (mem_of_mem_take hs) hsame.symm
  refine ⟨compare_eq_ok.trans eq_comm, ?_, ?_, fun n x y h =>
    ⟨(hadvanced n x y h).1.1, (hadvanced n x y h).2⟩⟩
  · constructor
    · intro h
      exact (hadvanced _ _ _ h).1.2
    · rintro ⟨hreaches, hlt⟩
      have hdiffers : ¬eqIgnoreAsciiCase anchor.head b.head := by
        intro hsame
        have := (hposition _ (hend.mpr hsame)).1
        omega
      refine compare_advanced hdiffers hreaches hlt ?_ fun m _ hm => (hposition m hm).1
      intro m hm
      rw [hrecords m hm, hlena]
  · intro hprefix hlt
    have hnever : ∀ m < bs.length, ¬Reaches bs m anchor := by
      intro m hm hreaches
      have := (hposition m hreaches).1
      omega
    have hdiffers : ¬eqIgnoreAsciiCase anchor.head b.head := by
      intro hsame
      have := (hposition _ (hend.mpr hsame)).1
      omega
    rw [compare_short hdiffers hnever]
    cases hcount : anchor.records with
    | none => rfl
    | some n =>
      obtain rfl : n = as.length := by rw [hrecords n hcount, hlena]
      simp only [headAfter_eq_none hlt]

def documentedAnchor : Anchor := ⟨some 2, documentedSecond.hash, by decide +kernel⟩

def bareAnchor : Anchor := ⟨none, documentedSecond.hash, by decide +kernel⟩

theorem verify_documentedFirst :
    verify documentedBlake3 [documentedFirst] = .ok ⟨1, documentedFirst.hash⟩ :=
  verify_eq_ok.mpr ⟨verifyFrom_cons.mpr ⟨checkRecord_documentedFirst, rfl⟩, rfl⟩

theorem computeHash_ne_genesis (h : Documented r) :
    computeHash documentedBlake3 r ≠ auditChainGenesisPrev := by
  rcases h with h | h
  · rw [computeHash, h, documentedBlake3_first]
    decide +kernel
  · rw [computeHash, h, documentedBlake3_second]
    decide +kernel

theorem ideal_documented {as bs : List AuditRecord} (has : ∀ r ∈ as, Documented r)
    (hbs : ∀ s ∈ bs, Documented s) : Ideal documentedBlake3 as bs where
  collisionFree := collisionFree_documented has hbs
  notGenesis r hr := by
    rcases mem_append.mp hr with hr | hr
    · exact computeHash_ne_genesis (has r hr)
    · exact computeHash_ne_genesis (hbs r hr)

/-- Of the documented log, the first record is left. -/
theorem compare_verdict_truncated :
    compare documentedAnchor ⟨1, documentedFirst.hash⟩ [documentedFirst] =
      .error (.truncated 2 1 1) :=
  (@compare_verdict documentedBlake3 documentedLog [documentedFirst] ⟨2, documentedSecond.hash⟩
    ⟨1, documentedFirst.hash⟩ documentedAnchor verify_documented verify_documentedFirst
    (ideal_documented (fun _ => documented_of_mem) fun _ h => documented_of_mem
      (mem_of_mem_take (i := 1) h)) ⟨rfl, by decide⟩).2.2.1
    ⟨[documentedSecond], rfl⟩ (by decide)

/-- A bare anchor cannot count what is gone, and a record of the first schema may be relabelled. -/
theorem bareAnchor_absent :
    (verify documentedBlake3 documentedLog = .ok ⟨2, documentedSecond.hash⟩ ∧
      verify documentedBlake3 [documentedFirst] = .ok ⟨1, documentedFirst.hash⟩ ∧
      compare bareAnchor ⟨1, documentedFirst.hash⟩ [documentedFirst] ≠ .error (.truncated 2 1 1)) ∧
    verify documentedBlake3 relabelledLog = .ok ⟨2, documentedSecond.hash⟩ ∧
      compare ⟨some 1, documentedFirst.hash, by decide +kernel⟩ ⟨2, documentedSecond.hash⟩
        relabelledLog =
        .error (.advanced 1 2 1) ∧ documentedFirst ∉ relabelledLog :=
  ⟨⟨verify_documented, verify_documentedFirst, by decide +kernel⟩, verify_relabelled,
    by decide +kernel, by decide⟩

end Dctl.Audit
