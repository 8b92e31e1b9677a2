import Dctl.Crypto.Names

/-! Key encryption keys (`kdf/cost.rs`, `kdf/derive.rs`, `kdf/mnemonic.rs`).  Argon2id and the
BIP-39 seed come from other libraries; the bounds on the cost are checked before either runs. -/

namespace Dctl.Kdf

open ProofKit Crypto

@[simp, reducible] def argon2MinMCost : UInt32 := 8
@[simp, reducible] def argon2MaxMCost : UInt32 := 1048576
@[simp, reducible] def argon2MaxTCost : UInt32 := 16
@[simp, reducible] def argon2MaxPLanes : UInt32 := 8
@[simp, reducible] def defaultSaltLen : Nat := 16

structure Cost where
  mCost : UInt32
  tCost : UInt32
  pLanes : UInt32
  deriving DecidableEq, Repr

def Cost.production : Cost := { mCost := 131072, tCost := 3, pLanes := 4 }

def Cost.test : Cost := { mCost := 8, tCost := 1, pLanes := 1 }

def Cost.shipped (writesProductionCost : Bool) : Cost :=
  if writesProductionCost then .production else .test

/-- The costs that an envelope may ask for. -/
def Cost.Allowed (cost : Cost) : Prop :=
  (argon2MinMCost ≤ cost.mCost ∧ cost.mCost ≤ argon2MaxMCost) ∧
    (1 ≤ cost.tCost ∧ cost.tCost ≤ argon2MaxTCost) ∧
    (1 ≤ cost.pLanes ∧ cost.pLanes ≤ argon2MaxPLanes)

instance (cost : Cost) : Decidable cost.Allowed := inferInstanceAs (Decidable (_ ∧ _ ∧ _))

def Cost.validate (cost : Cost) : Except CryptoError Unit :=
  reject (¬cost.Allowed) (.invalidKdfParams
    ("m=" ++ toString cost.mCost ++ " t=" ++ toString cost.tCost ++ " p=" ++ toString cost.pLanes ++
      "; allowed m in " ++ toString argon2MinMCost ++ "..=" ++ toString argon2MaxMCost ++
      ", t in 1..=" ++ toString argon2MaxTCost ++ ", p in 1..=" ++ toString argon2MaxPLanes))

structure KdfPrimitives where
  hashPassword : Cost → (secret salt : Bytes) → Except String Key
  seed : (phrase : String) → Except String Bytes

variable (A : KdfPrimitives)

def argon2id (secret salt : Bytes) (cost : Cost) : Except CryptoError Key := do
  cost.validate
  (A.hashPassword cost secret salt).mapError .kdf

def passphraseInput (P : Primitives) (U : Unicode) (passphrase : String) (factor : Option Bytes) :
    Bytes :=
  utf8 (U.nfc passphrase) ++ factor.elim [] fun factor => (P.hash factor).bytes

def deriveKek (P : Primitives) (U : Unicode) (passphrase : String) (factor : Option Bytes)
    (salt : Bytes) (cost : Cost) : Except CryptoError Key :=
  argon2id A (passphraseInput P U passphrase factor) salt cost

def deriveKekFromMnemonic (mnemonic : String) (salt : Bytes) (cost : Cost) :
    Except CryptoError Key := do
  let seed ← (A.seed mnemonic).mapError fun e => .kdf ("invalid mnemonic: " ++ e)
  argon2id A seed salt cost

variable {A}

theorem argon2id_eq_ok {secret salt : Bytes} {cost : Cost} {kek : Key} :
    argon2id A secret salt cost = .ok kek ↔
      cost.Allowed ∧ A.hashPassword cost secret salt = .ok kek := by
  simp [argon2id, Cost.validate]

end Dctl.Kdf
