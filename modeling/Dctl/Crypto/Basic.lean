import Dctl.ProofKit.Checks
import Dctl.ProofKit.Bytes

/-! What the encryption core is built on: its error type, its frozen constants, and the
primitives that come from other libraries.  The primitives are a parameter of the model;
`Primitives.Lawful` states what the core relies on of them. -/

namespace Dctl.Crypto

open ProofKit

inductive CryptoError where
  | kdf (message : String)
  | invalidKdfParams (message : String)
  | aead
  | format (message : String)
  | hkdf
  deriving DecidableEq, Repr

@[simp, reducible] def nonceLen : Nat := 24
@[simp, reducible] def tagLen : Nat := 16
@[simp, reducible] def keyLen : Nat := 32
@[simp, reducible] def footerLen : Nat := 32
@[simp, reducible] def fileIdLen : Nat := 16
@[simp, reducible] def keyIdLen : Nat := 32

@[simp, reducible] def objectVersion : UInt8 := 1
@[simp, reducible] def algoXchacha20Poly1305 : UInt8 := 1
@[simp, reducible] def flagFooter : UInt8 := 1
@[simp, reducible] def kemIdNone : UInt8 := 0
@[simp, reducible] def kemIdHybrid : UInt8 := 1
@[simp, reducible] def objectHeadLen : Nat := 68
@[simp, reducible] def wrappedDekLen : Nat := 72
@[simp, reducible] def maxChunkSize : Nat := 16777216

@[simp, reducible] def metaMinPlaintextLen : Nat := 76
@[simp, reducible] def metaMinLen : Nat := 116
@[simp, reducible] def metaMaxLen : Nat := 262144
@[simp, reducible] def metaSchemaV1 : UInt8 := 1
@[simp, reducible] def metaFlagTombstone : UInt8 := 8

@[simp, reducible] def nonceDomainByte : Nat := 23
@[simp, reducible] def nonceDomainChunk : UInt8 := 0
@[simp, reducible] def nonceDomainMeta : UInt8 := 1

@[simp, reducible] def objectHeaderProbeLen : Nat := 4096

def ascii (s : String) : Bytes := s.toList.map fun c => UInt8.ofNat c.toNat

/-- `*b"DSF1"`. -/
def objectMagic : Bytes := [0x44, 0x53, 0x46, 0x31]

def dekWrapAadPrefix : Bytes := ascii "dctl-dek-v1::"
def metaAadPrefix : Bytes := ascii "dctl-meta-v1::"
def nameAadPrefix : Bytes := ascii "dctl-name-v1::"

abbrev Key := Block keyLen
abbrev Nonce := Block nonceLen
abbrev Digest := Block 32
abbrev FileId := Block fileIdLen
abbrev KeyId := Block keyIdLen

/-- XChaCha20-Poly1305 (with its 16-byte tag appended to the ciphertext) and BLAKE3. -/
structure Primitives where
  encrypt : Key → Nonce → (plaintext aad : Bytes) → Option Bytes
  decrypt : Key → Nonce → (ciphertext aad : Bytes) → Option Bytes
  hash : Bytes → Digest

/-- The longest message the cipher takes: the 32-bit block counter spans `2^38 - 64` bytes. -/
@[simp, reducible] def maxMessageLen : Nat := 2 ^ 38 - 64

/-- The documented behaviour of the cipher: it encrypts every message up to its limit, a ciphertext
is one tag longer than its plaintext, and it decrypts what it encrypted under the same key, nonce
and associated data. -/
structure Primitives.Lawful (P : Primitives) : Prop where
  encrypt_isSome : ∀ key nonce plaintext aad, plaintext.length ≤ maxMessageLen →
    (P.encrypt key nonce plaintext aad).isSome
  encrypt_length : ∀ key nonce plaintext aad ciphertext,
    P.encrypt key nonce plaintext aad = some ciphertext →
      ciphertext.length = plaintext.length + tagLen
  decrypt_length : ∀ key nonce ciphertext aad plaintext,
    P.decrypt key nonce ciphertext aad = some plaintext →
      ciphertext.length = plaintext.length + tagLen
  decrypt_encrypt : ∀ key nonce plaintext aad ciphertext,
    P.encrypt key nonce plaintext aad = some ciphertext →
      P.decrypt key nonce ciphertext aad = some plaintext

/-- What makes the cipher authentic: it opens only what it would itself have written. -/
structure Primitives.Authentic (P : Primitives) : Prop where
  encrypt_decrypt : ∀ key nonce ciphertext aad plaintext,
    P.decrypt key nonce ciphertext aad = some plaintext → plaintext.length ≤ maxMessageLen →
      P.encrypt key nonce plaintext aad = some ciphertext

def clearPrimitives : Primitives where
  encrypt _ _ plaintext _ :=
    if plaintext.length ≤ maxMessageLen then some (plaintext ++ List.replicate tagLen 0) else none
  decrypt _ _ ciphertext _ :=
    let n := ciphertext.length - tagLen
    if ciphertext = ciphertext.take n ++ List.replicate tagLen 0 then some (ciphertext.take n)
    else none
  hash bytes := Block.slice 32 bytes 0

def taggedPrimitives (tag : Key → Nonce → (plaintext aad : Bytes) → UInt8) : Primitives where
  encrypt key nonce plaintext aad :=
    if plaintext.length ≤ maxMessageLen then
      some (plaintext ++ List.replicate tagLen (tag key nonce plaintext aad))
    else none
  decrypt key nonce ciphertext aad :=
    let plaintext := ciphertext.take (ciphertext.length - tagLen)
    if ciphertext = plaintext ++ List.replicate tagLen (tag key nonce plaintext aad)
      then some plaintext
    else none
  hash := clearPrimitives.hash

theorem taggedPrimitives_lawful {tag : Key → Nonce → (plaintext aad : Bytes) → UInt8} :
    (taggedPrimitives tag).Lawful where
  encrypt_isSome _ _ plaintext _ h := by
    simp only [taggedPrimitives, if_pos h, Option.isSome_some]
  encrypt_length _ _ plaintext _ ciphertext h := by
    simp only [taggedPrimitives, Option.ite_none_right_eq_some, Option.some.injEq] at h
    simp [← h.2]
  decrypt_length _ _ ciphertext _ plaintext h := by
    simp only [taggedPrimitives, Option.ite_none_right_eq_some, Option.some.injEq] at h
    rw [h.1, h.2]
    simp
  decrypt_encrypt _ _ plaintext _ ciphertext h := by
    simp only [taggedPrimitives, Option.ite_none_right_eq_some, Option.some.injEq] at h
    simp [taggedPrimitives, ← h.2]

theorem clearPrimitives_lawful : clearPrimitives.Lawful := @taggedPrimitives_lawful fun _ _ _ _ => 0

theorem clearPrimitives_authentic : clearPrimitives.Authentic where
  encrypt_decrypt _ _ ciphertext _ plaintext h hlen := by
    simp only [clearPrimitives, Option.ite_none_right_eq_some, Option.some.injEq] at h
    simp only [clearPrimitives, if_pos hlen, Option.some.injEq]
    rw [h.1, h.2]

end Dctl.Crypto
