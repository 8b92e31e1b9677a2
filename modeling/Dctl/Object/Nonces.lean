import Dctl.Object.RoundTrip
import Mathlib.Data.List.Nodup

/-! The partition of a plaintext that a head describes, and the nonces of a seal
(`object/nonce.rs`).  The lengths of the chunks are those of the slices of the plaintext, and no
nonce is used twice under the data key: chunk nonces differ in their first eight bytes, and the
metadata nonce differs from each of them in the domain byte. -/

namespace Dctl.Object

open ProofKit Crypto List

def Head.chunkLens (h : Head) : List Nat :=
  (List.range h.chunkCount.toNat).map (chunkPlaintextLen h.plaintextLen.toNat h.chunkSize.toNat)

theorem Head.Valid.sum_chunkLens {h : Head} (hv : h.Valid) :
    h.chunkLens.sum = h.plaintextLen.toNat := by
  rw [Head.chunkLens, sum_chunkPlaintextLen h.plaintextLen.toNat_lt, hv.chunkCount]
  exact Nat.min_eq_left ((divCeil_le_iff hv.chunkSize_toNat_pos).mp (Nat.le_refl _))

theorem Head.Valid.chunkLens_bounds {h : Head} (hv : h.Valid) :
    ∀ n ∈ h.chunkLens, 1 ≤ n ∧ n ≤ h.chunkSize.toNat := by
  intro n hn
  obtain ⟨i, hi, rfl⟩ := mem_map.mp hn
  rw [mem_range, hv.chunkCount, lt_divCeil_iff hv.chunkSize_toNat_pos] at hi
  have hpos := hv.chunkSize_toNat_pos
  rw [chunkPlaintextLen_eq h.plaintextLen.toNat_lt]
  omega

theorem Head.Valid.lengths_chunks {h : Head} (hv : h.Valid) {plaintext : Bytes}
    (hlen : plaintext.length = h.plaintextLen.toNat) :
    (chunks h.chunkSize.toNat plaintext).map List.length = h.chunkLens := by
  have hcount := length_chunks hv.chunkSize_toNat_pos plaintext
  have hpieces : Pieces plaintext.length h.chunkSize.toNat 0 (chunks h.chunkSize.toNat plaintext) :=
    pieces_chunks (hlen ▸ h.plaintextLen.toNat_lt)
  rw [hlen, ← hv.chunkCount] at hcount
  rw [hlen] at hpieces
  refine ext_getElem ?_ fun i hi _ => ?_
  · rw [length_map, hcount, Head.chunkLens, length_map, length_range]
  · rw [length_map] at hi
    have hlength := hpieces i hi
    rw [Nat.zero_add] at hlength
    simp only [Head.chunkLens, getElem_map, getElem_range]
    exact hlength

theorem zipWith_xor_inj {xs ys zs : Bytes} (hy : ys.length ≤ xs.length) (hz : zs.length ≤ xs.length)
    (h : List.zipWith (· ^^^ ·) xs ys = List.zipWith (· ^^^ ·) xs zs) : ys = zs := by
  have hlen := congrArg List.length h
  rw [length_zipWith, length_zipWith, Nat.min_eq_right hy, Nat.min_eq_right hz] at hlen
  refine ext_getElem hlen fun i hi hi' => ?_
  have hbyte := getElem_of_eq h (i := i) (by rw [length_zipWith]; omega)
  rw [getElem_zipWith, getElem_zipWith] at hbyte
  exact (UInt8.xor_right_inj _).mp hbyte

theorem chunkNonce_inj {base : Nonce} {i j : Nat} (hi : i < 2 ^ 64) (hj : j < 2 ^ 64)
    (h : chunkNonce base i = chunkNonce base j) : i = j := by
  have htake : (base.bytes.take 8).length = 8 := by
    rw [length_take, base.length]
    rfl
  have hbytes := congrArg Block.bytes h
  obtain ⟨hfront, -⟩ := append_inj hbytes (by simp only [length_zipWith, length_le])
  refine le_inj hi hj (zipWith_xor_inj ?_ ?_ hfront) <;> rw [length_le, htake]

theorem byteAt_chunkNonce (base : Nonce) (i : Nat) :
    byteAt (chunkNonce base i).bytes nonceDomainByte = byteAt base.bytes nonceDomainByte := by
  have hfront : (List.zipWith (· ^^^ ·) (base.bytes.take 8) (le 8 i)).length = 8 := by
    rw [length_zipWith, length_take, base.length, length_le]
    rfl
  simp only [byteAt, getD_eq_getElem?_getD, chunkNonce]
  rw [List.getElem?_append_right (by rw [hfront]; decide), hfront, List.getElem?_drop]
  rfl

theorem byteAt_withDomain (raw : Nonce) (marker : UInt8) :
    byteAt (withDomain raw marker).bytes nonceDomainByte = marker := by
  have hlen : nonceDomainByte < raw.bytes.length := by
    rw [raw.length]
    decide
  simp only [byteAt, withDomain, getD_eq_getElem?_getD]
  rw [List.getElem?_set_self hlen, Option.getD_some]

theorem metadataNonce_ne_chunkNonce (raw base : Nonce) (i : Nat) :
    metadataNonce raw ≠ chunkNonce (baseNonce base) i := by
  intro h
  have hbyte := congrArg (fun n : Nonce => byteAt n.bytes nonceDomainByte) h
  simp only [byteAt_chunkNonce, metadataNonce, baseNonce, byteAt_withDomain] at hbyte
  exact absurd hbyte (by decide)

def sealNonces (draws : Draws) (h : Head) : List Nonce :=
  metadataNonce draws.metadata :: (List.range h.chunkCount.toNat).map (chunkNonce h.baseNonce)

theorem nodup_sealNonces {draws : Draws} {h : Head} (hbase : h.baseNonce = baseNonce draws.base) :
    (sealNonces draws h).Nodup := by
  rw [sealNonces, nodup_cons, hbase]
  constructor
  · intro hmem
    obtain ⟨i, -, heq⟩ := mem_map.mp hmem
    exact metadataNonce_ne_chunkNonce draws.metadata draws.base i heq.symm
  · refine List.Nodup.map_on (fun i hi j hj heq => ?_) nodup_range
    rw [mem_range] at hi hj
    have hcount := h.chunkCount.toNat_lt
    exact chunkNonce_inj (by omega) (by omega) heq

/-- The chunk lengths add up to the plaintext, the chunks have them, and no nonce comes twice. -/
structure Partitioned (draws : Draws) (h : Head) : Prop where
  sum : h.chunkLens.sum = h.plaintextLen.toNat
  bounds : ∀ n ∈ h.chunkLens, 1 ≤ n ∧ n ≤ h.chunkSize.toNat
  slices : ∀ plaintext : Bytes, plaintext.length = h.plaintextLen.toNat →
    (chunks h.chunkSize.toNat plaintext).map List.length = h.chunkLens
  nonces : (sealNonces draws h).Nodup

/-- Every length and every admitted chunk size gives a partition. -/
theorem partitioned_sealHead (kemId : UInt8) (draws : Draws) (plaintextLen : UInt64)
    {chunkSize : UInt32} (hcs : AdmitsChunkSize chunkSize) :
    Partitioned draws (sealHead kemId draws plaintextLen chunkSize) := by
  -- the identifier of the key wrap is no part of the geometry
  have hv : (sealHead kemIdNone draws plaintextLen chunkSize).Valid := sealHead_valid (.inl rfl) hcs
  exact ⟨hv.sum_chunkLens, hv.chunkLens_bounds, fun _ => hv.lengths_chunks, nodup_sealNonces rfl⟩

/-- Ten bytes in chunks of four. -/
theorem partitioned_ten : (sealHead kemIdHybrid ⟨default, default, default, default, default⟩ 10
    4).chunkLens = [4, 4, 2] ∧
    Partitioned ⟨default, default, default, default, default⟩
      (sealHead kemIdHybrid ⟨default, default, default, default, default⟩ 10 4) :=
  ⟨by decide, partitioned_sealHead kemIdHybrid _ 10 ⟨by decide, by decide⟩⟩

end Dctl.Object
