import Dctl.Kem.Wrap
import Dctl.Object.RoundTrip

/-! Objects with recipient wraps (`object/recipient.rs`): the data key is wrapped once under a fresh
object key, and the object key is wrapped for each recipient. -/

namespace Dctl.Object

open ProofKit Crypto Kem

variable (P : Primitives) (K : KemPrimitives)

structure RecipientDraws extends Draws where
  kw : Key
  encaps : Nat → EncapsDraws

def encapsulateAll (fixedHead : Bytes) (kw : Key) (encaps : Nat → EncapsDraws) :
    Nat → List Drk1Public → Except CryptoError (List Bytes)
  | _, [] => pure []
  | index, r :: rest => do
    let sub ← encapsulateTo P K r fixedHead kw (encaps index)
    let subs ← encapsulateAll fixedHead kw encaps (index + 1) rest
    pure (sub :: subs)

def sealToRecipients (draws : RecipientDraws) (recipients : List Drk1Public) (plaintext : Bytes)
    (metadata : Metadata) (chunkSize : UInt32) : Except CryptoError Bytes := do
  let n := recipients.length
  reject (n = 0 ∨ maxRecipCount < n) (.format "recipient count out of range (1..=53)")
  sealCore P kemIdHybrid draws.kw (fun fixedHead => do
    let subRecords ← encapsulateAll P K fixedHead draws.kw draws.encaps 0 recipients
    serializeBlock subRecords) draws.toDraws plaintext metadata chunkSize

def openWithKw (kw : Key) (blob : Bytes) : Except CryptoError Opened := do
  let head ← parseHead blob
  reject (head.kemId ≠ kemIdHybrid)
    (.format "not a kem_id=1 object (open_with_kw is for the hybrid path)")
  let kemCtLen ← readU16 blob objectHeadLen
  let blockEnd := objectHeadLen + 2 + kemCtLen
  reject (blob.length < blockEnd) (.format "object truncated (kem_wrap)")
  openCore P kw blob head blockEnd

variable {P K}

theorem wraps_of_encapsulateAll {fixedHead : Bytes} {kw : Key} {encaps : Nat → EncapsDraws}
    {index : Nat} {recipients : List Drk1Public} {subs : List Bytes}
    (h : encapsulateAll P K fixedHead kw encaps index recipients = .ok subs) :
    List.Forall₂ (Wraps P K fixedHead kw) recipients subs := by
  induction recipients generalizing index subs with
  | nil =>
    cases h
    exact .nil
  | cons r rest ih =>
    simp only [encapsulateAll, bind_eq_ok, pure_eq_ok] at h
    obtain ⟨sub, hsub, subs', hsubs, rfl⟩ := h
    exact .cons ⟨_, hsub⟩ (ih hsubs)

theorem eq_buildHead_append {blob rest : Bytes} {head : Head} {n : Nat}
    (hblob : blob = buildHead head ++ (le 2 n ++ rest)) (hlen : 70 + n ≤ blob.length) :
    ∃ kemWrap tail : Bytes, kemWrap.length = n ∧
      blob = buildHead head ++ (le 2 kemWrap.length ++ (kemWrap ++ tail)) := by
  have htotal := congrArg List.length hblob
  simp only [List.length_append, length_buildHead, length_le, objectHeadLen] at htotal
  have htake : (rest.take n).length = n := by
    rw [List.length_take, Nat.min_eq_left (by omega)]
  exact ⟨rest.take n, rest.drop n, htake, by rw [htake, List.take_append_drop, hblob]⟩

theorem openWithKw_eq_ok {kw : Key} {blob : Bytes} {o : Opened} :
    openWithKw P kw blob = .ok o ↔
      ∃ (f : Frame) (dek : Key) (pts : List Bytes), f.head.kemId = kemIdHybrid ∧
        f.Opens P kw dek o.metadata pts ∧ blob = f.bytes ∧ o.plaintext = pts.flatten := by
  simp only [openWithKw, bind_eq_ok, reject_eq_ok, ne_eq, not_not, not_lt, openCore, Prod.exists,
    pure_eq_ok]
  constructor
  · rintro ⟨head, hhead, _, hkem, n, hn, _, hend, metadata, plaintext, hopen, rfl⟩
    obtain ⟨rest, hblob, hv, hle⟩ := parseHead_readU16_eq_ok.mp ⟨hhead, hn⟩
    obtain ⟨kemWrap, tail, rfl, rfl⟩ := eq_buildHead_append hblob
      (by simp only [objectHeadLen] at hend; omega)
    obtain ⟨f, dek, pts, rfl, -, hf, hbytes, hfold⟩ :=
      (openCoreStreamed_eq_ok hv kemWrap hle).mp hopen
    have hplain : plaintext = pts.flatten := by
      have h := foldlM_vecSink pts []
      rw [show (writeOut vecSink) = fun plaintext chunk => pure (plaintext ++ chunk) from rfl,
        hfold, Except.ok.injEq, List.nil_append] at h
      exact h
    exact ⟨f, dek, pts, hkem, hf, hbytes, hplain⟩
  · rintro ⟨f, dek, pts, hkem, hf, rfl, hplain⟩
    have hbytes : f.bytes = buildHead f.head ++ (le 2 f.kemWrap.length ++ (f.kemWrap ++
        (f.wrappedDek.bytes ++ (le 4 f.metaBlob.length ++ (f.metaBlob ++
          (f.chunks.flatten ++ f.footer)))))) := by
      rw [f.bytes_eq, Header.bytes_append]
    obtain ⟨hhead, hn⟩ := parseHead_readU16_eq_ok.mpr ⟨_, hbytes, f.head_valid, f.kemWrap_le⟩
    have hfold := foldlM_vecSink pts []
    rw [List.nil_append] at hfold
    have hopen := (openCoreStreamed_eq_ok f.head_valid f.kemWrap f.kemWrap_le).mpr
      ⟨f, dek, pts, rfl, rfl, hf, hbytes.symm, hfold⟩
    rw [← hbytes] at hopen
    refine ⟨f.head, hhead, (), hkem, f.kemWrap.length, hn, (), ?_, o.metadata,
      pts.flatten, hopen, ?_⟩
    · have hlen := congrArg List.length hbytes
      simp only [List.length_append, length_buildHead, length_le, objectHeadLen] at hlen ⊢
      omega
    · rw [← hplain]

end Dctl.Object
