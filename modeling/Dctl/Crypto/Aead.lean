import Dctl.Crypto.Basic

/-! The AEAD layer: `aead/encrypt.rs`, `aead/decrypt.rs` and `aead/raw.rs`.  A nonce that the code
draws from the operating system is an argument here. -/

namespace Dctl.Crypto.Aead

open ProofKit

variable (P : Primitives)

def encryptWithNonce (key : Key) (nonce : Nonce) (plaintext aad : Bytes) :
    Except CryptoError Bytes :=
  okOr .aead (P.encrypt key nonce plaintext aad)

def decryptWithNonce (key : Key) (nonce : Nonce) (ctAndTag aad : Bytes) :
    Except CryptoError Bytes := do
  reject (ctAndTag.length < tagLen) (.format "aead ciphertext too short")
  okOr .aead (P.decrypt key nonce ctAndTag aad)

def encrypt (key : Key) (nonce : Nonce) (plaintext aad : Bytes) : Except CryptoError Bytes := do
  let ciphertext ← okOr .aead (P.encrypt key nonce plaintext aad)
  pure (nonce.bytes ++ ciphertext)

def decrypt (key : Key) (blob aad : Bytes) : Except CryptoError Bytes := do
  reject (blob.length < nonceLen + tagLen) (.format "aead blob too short")
  okOr .aead (P.decrypt key (Block.slice nonceLen blob 0) (blob.drop nonceLen) aad)

variable {P}

variable {aad ct plaintext : Bytes} {key : Key} {nonce : Nonce}

theorem encryptWithNonce_eq_ok :
    encryptWithNonce P key nonce plaintext aad = .ok ct ↔
      P.encrypt key nonce plaintext aad = some ct := by
  simp [encryptWithNonce]

variable {blob : Bytes}

theorem encrypt_eq_ok :
    encrypt P key nonce plaintext aad = .ok blob ↔
      ∃ ct, P.encrypt key nonce plaintext aad = some ct ∧ nonce.bytes ++ ct = blob := by
  simp [encrypt]

variable {pt : Bytes}

section

variable (hP : P.Lawful)
include hP

theorem decryptWithNonce_eq_ok :
    decryptWithNonce P key nonce ct aad = .ok pt ↔ P.decrypt key nonce ct aad = some pt := by
  simp only [decryptWithNonce, bind_eq_ok, reject_eq_ok, okOr_eq_ok]
  constructor
  · rintro ⟨_, _, h⟩
    exact h
  · intro h
    have := hP.decrypt_length _ _ _ _ _ h
    exact ⟨(), by omega, h⟩

theorem encryptWithNonce_isOk (key : Key) (nonce : Nonce) (plaintext aad : Bytes)
    (h : plaintext.length ≤ maxMessageLen) :
    ∃ ct, encryptWithNonce P key nonce plaintext aad = .ok ct := by
  obtain ⟨ct, hct⟩ := Option.isSome_iff_exists.mp (hP.encrypt_isSome key nonce plaintext aad h)
  exact ⟨ct, encryptWithNonce_eq_ok.mpr hct⟩

theorem encrypt_isOk (key : Key) (nonce : Nonce) (plaintext aad : Bytes)
    (h : plaintext.length ≤ maxMessageLen) :
    ∃ blob, encrypt P key nonce plaintext aad = .ok blob := by
  obtain ⟨ct, hct⟩ := Option.isSome_iff_exists.mp (hP.encrypt_isSome key nonce plaintext aad h)
  exact ⟨_, encrypt_eq_ok.mpr ⟨ct, hct, rfl⟩⟩

theorem encryptWithNonce_length (h : encryptWithNonce P key nonce plaintext aad = .ok ct) :
    ct.length = plaintext.length + tagLen :=
  hP.encrypt_length _ _ _ _ _ (encryptWithNonce_eq_ok.mp h)

theorem encrypt_length (h : encrypt P key nonce plaintext aad = .ok blob) :
    blob.length = nonceLen + plaintext.length + tagLen := by
  obtain ⟨ct, hct, rfl⟩ := encrypt_eq_ok.mp h
  simp [hP.encrypt_length _ _ _ _ _ hct]
  omega

theorem decryptWithNonce_encryptWithNonce
    (h : encryptWithNonce P key nonce plaintext aad = .ok ct) :
    decryptWithNonce P key nonce ct aad = .ok plaintext :=
  (decryptWithNonce_eq_ok hP).mpr (hP.decrypt_encrypt _ _ _ _ _ (encryptWithNonce_eq_ok.mp h))

theorem decrypt_encrypt (h : encrypt P key nonce plaintext aad = .ok blob) :
    decrypt P key blob aad = .ok plaintext := by
  obtain ⟨ct, hct, rfl⟩ := encrypt_eq_ok.mp h
  have hlen := hP.encrypt_length _ _ _ _ _ hct
  have hnonce : Block.slice nonceLen (nonce.bytes ++ ct) 0 = nonce := by
    apply Block.ext
    rw [Block.slice_bytes (by simp)]
    simp
  simp only [decrypt, bind_eq_ok, reject_eq_ok, okOr_eq_ok]
  refine ⟨(), by simp [hlen]; omega, ?_⟩
  rw [hnonce, List.drop_left' nonce.length]
  exact hP.decrypt_encrypt _ _ _ _ _ hct

theorem decrypt_length (h : decrypt P key blob aad = .ok pt) :
    blob.length = nonceLen + pt.length + tagLen := by
  simp only [decrypt, bind_eq_ok, reject_eq_ok, okOr_eq_ok] at h
  obtain ⟨_, hlen, h⟩ := h
  have := hP.decrypt_length _ _ _ _ _ h
  simp only [List.length_drop] at this
  simp only [nonceLen, tagLen] at *
  omega

end

theorem encrypt_of_decrypt (hA : P.Authentic) (h : decrypt P key blob aad = .ok pt)
    (hlen : pt.length ≤ maxMessageLen) :
    encrypt P key (Block.slice nonceLen blob 0) pt aad = .ok blob := by
  simp only [decrypt, bind_eq_ok, reject_eq_ok, okOr_eq_ok, not_lt] at h
  obtain ⟨_, hblob, h⟩ := h
  refine encrypt_eq_ok.mpr ⟨_, hA.encrypt_decrypt _ _ _ _ _ h hlen, ?_⟩
  have hroom : 0 + nonceLen ≤ blob.length := by
    simp only [nonceLen, tagLen] at hblob ⊢
    omega
  have hsplit := Block.drop_eq_slice_append nonceLen hroom
  rw [List.drop_zero, Nat.zero_add] at hsplit
  exact hsplit.symm

end Dctl.Crypto.Aead
