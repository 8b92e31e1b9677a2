import Dctl.Index.Database

/-! The wire format of `postcard` for records and totals: a variable-length integer for each number
and each length, seven bits a byte, and the fields one behind another. -/

namespace Dctl.Index

open ProofKit Crypto

namespace Postcard

def varintLoop : (rounds : Nat) → Nat → Bytes
  | 0, _ => []
  | rounds + 1, n =>
    if n < 128 then [UInt8.ofNat n]
    else UInt8.ofNat (n % 128 + 128) :: varintLoop rounds (n / 128)

def varint (n : Nat) : Bytes := varintLoop (n + 1) n

def readVarint : Bytes → Option (Nat × Bytes)
  | [] => none
  | b :: rest =>
    if b.toNat < 128 then some (b.toNat, rest)
    else do
      let (n, rest) ← readVarint rest
      pure (b.toNat - 128 + 128 * n, rest)

theorem readVarint_varintLoop {rounds n : Nat} (h : n < rounds) (rest : Bytes) :
    readVarint (varintLoop rounds n ++ rest) = some (n, rest) := by
  induction rounds generalizing n with
  | zero => exact absurd h (Nat.not_lt_zero n)
  | succ rounds ih =>
    unfold varintLoop
    split
    next hsmall =>
      have hbyte : (UInt8.ofNat n).toNat = n :=
        UInt8.toNat_ofNat_of_lt' (by simp [UInt8.size]; omega)
      simp only [List.singleton_append, readVarint, hbyte, if_pos hsmall]
    next hlarge =>
      have hbyte : (UInt8.ofNat (n % 128 + 128)).toNat = n % 128 + 128 :=
        UInt8.toNat_ofNat_of_lt' (by simp [UInt8.size]; omega)
      have hrest := ih (show n / 128 < rounds by omega)
      simp only [List.cons_append, readVarint, hbyte, hrest, Option.bind_eq_bind, Option.bind_some]
      rw [if_neg (by omega)]
      simp only [Option.pure_def, Option.some.injEq, Prod.mk.injEq, and_true]
      omega

theorem readVarint_varint (n : Nat) (rest : Bytes) :
    readVarint (varint n ++ rest) = some (n, rest) :=
  readVarint_varintLoop (Nat.lt_succ_self n) rest

theorem length_varintLoop_le {rounds n k : Nat} (h : n < 128 ^ (k + 1)) :
    (varintLoop rounds n).length ≤ k + 1 := by
  induction rounds generalizing n k with
  | zero => exact Nat.zero_le _
  | succ rounds ih =>
    unfold varintLoop
    split
    · exact Nat.succ_le_succ (Nat.zero_le k)
    next hlarge =>
      cases k with
      | zero => omega
      | succ k =>
        have hdiv : n / 128 < 128 ^ (k + 1) := by
          rw [Nat.div_lt_iff_lt_mul (by decide), ← Nat.pow_succ]
          exact h
        rw [List.length_cons]
        exact Nat.succ_le_succ (ih hdiv)

theorem length_varint_le (n : UInt64) : (varint n.toNat).length ≤ 10 := by
  have h : n.toNat < 2 ^ 64 := n.toNat_lt
  exact length_varintLoop_le (show n.toNat < 128 ^ (9 + 1) by omega)

def bytesField (bs : Bytes) : Bytes := varint bs.length ++ bs

def readBytes (input : Bytes) : Option (Bytes × Bytes) := do
  let (n, rest) ← readVarint input
  if rest.length < n then none else some (rest.take n, rest.drop n)

theorem readBytes_bytesField (bs rest : Bytes) :
    readBytes (bytesField bs ++ rest) = some (bs, rest) := by
  unfold readBytes bytesField
  rw [List.append_assoc, readVarint_varint]
  simp

def readString (input : Bytes) : Option (String × Bytes) := do
  let (bs, rest) ← readBytes input
  let s ← fromUtf8 bs
  pure (s, rest)

theorem readString_bytesField (s : String) (rest : Bytes) :
    readString (bytesField (utf8 s) ++ rest) = some (s, rest) := by
  simp [readString, readBytes_bytesField]

/-- A signed number as an unsigned one, its sign in the lowest bit. -/
def zigzag (n : Int) : Nat := if 0 ≤ n then 2 * n.toNat else 2 * (-n).toNat - 1

def unzigzag (n : Nat) : Int := if n % 2 = 0 then (n / 2 : Nat) else -((n + 1) / 2 : Nat)

theorem unzigzag_zigzag (n : Int) : unzigzag (zigzag n) = n := by
  unfold unzigzag zigzag
  split <;> split <;> omega

def optionField : Option Int64 → Bytes
  | none => [0]
  | some n => 1 :: varint (zigzag n.toInt)

def readOption : Bytes → Option (Option Int64 × Bytes)
  | 0 :: rest => some (none, rest)
  | 1 :: rest => do
    let (n, rest) ← readVarint rest
    pure (some (Int64.ofInt (unzigzag n)), rest)
  | _ => none

theorem readOption_optionField (o : Option Int64) (rest : Bytes) :
    readOption (optionField o ++ rest) = some (o, rest) := by
  cases o with
  | none => rfl
  | some n => simp [optionField, readOption, readVarint_varint, unzigzag_zigzag]

def encodeRecord (r : Record) : Bytes :=
  bytesField (utf8 r.path) ++ (bytesField (utf8 r.objectKey) ++ (varint r.size.toNat ++
    (optionField r.modifiedUnix ++ bytesField r.contentHash)))

def decodeRecord (input : Bytes) : Option Record := do
  let (path, input) ← readString input
  let (objectKey, input) ← readString input
  let (size, input) ← readVarint input
  let (modifiedUnix, input) ← readOption input
  let (contentHash, _) ← readBytes input
  pure { path, objectKey, size := UInt64.ofNat size, modifiedUnix, contentHash }

def encodeTotals (t : Totals) : Bytes :=
  varint t.objects.toNat ++ (varint t.bytes.toNat ++ varint t.unmeasured.toNat)

def decodeTotals (input : Bytes) : Option Totals := do
  let (objects, input) ← readVarint input
  let (bytes, input) ← readVarint input
  let (unmeasured, _) ← readVarint input
  pure { objects := UInt64.ofNat objects, bytes := UInt64.ofNat bytes,
         unmeasured := UInt64.ofNat unmeasured }

def codec : Codec where
  encodeRecord := encodeRecord
  decodeRecord := decodeRecord
  encodeTotals := encodeTotals
  decodeTotals := decodeTotals

theorem codec_lawful : codec.Lawful where
  decode_encodeRecord r := by
    have hlast := readBytes_bytesField r.contentHash []
    rw [List.append_nil] at hlast
    simp [codec, encodeRecord, decodeRecord, readString_bytesField, readVarint_varint,
      readOption_optionField, hlast]
  decode_encodeTotals t := by
    have hlast := readVarint_varint t.unmeasured.toNat []
    rw [List.append_nil] at hlast
    simp [codec, encodeTotals, decodeTotals, readVarint_varint, hlast]
  length_encodeTotals t := by
    have h1 := length_varint_le t.objects
    have h2 := length_varint_le t.bytes
    have h3 := length_varint_le t.unmeasured
    simp only [codec, encodeTotals, List.length_append]
    omega

end Postcard

def clearIndex : Index where
  toPrimitives := clearPrimitives
  toCodec := Postcard.codec
  keyedHash _ bytes := Block.slice 32 bytes 0
  keyingKey := default
  encKey := default

end Dctl.Index
