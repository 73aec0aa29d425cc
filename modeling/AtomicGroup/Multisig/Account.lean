import AtomicGroup.Txn.Schema

/-!
# Multisig accounts

An account of several keys and the number of them that must sign. The order of the keys is part of the
account: `MultisigAccount.address` hashes the keys one after the other.
-/
namespace AtomicGroup

inductive ThresholdFault where
  | noKeys
  | zero
  | exceeds (threshold : UInt8) (keys : Nat)
deriving DecidableEq, Repr

def ThresholdFault.message : ThresholdFault → String
  | noKeys => "multisig account has no keys"
  | zero => "threshold must be at least 1"
  | exceeds threshold keys =>
    "threshold " ++ Decimal.text threshold.toNat ++ " exceeds key count " ++ Decimal.text keys

inductive EnvelopeFault where
  | empty
  | missing (filled : Nat) (required : UInt8)
  | badSignature (key : Address)
deriving DecidableEq, Repr

def EnvelopeFault.message : EnvelopeFault → String
  | empty => "empty multisig envelope"
  | missing filled required =>
    Decimal.text filled ++ " of " ++ Decimal.text required.toNat ++ " required signatures present"
  | badSignature key => "bad signature from " ++ key.text

inductive MultisigError where
  | unknownVersion (version : UInt8)
  | threshold (fault : ThresholdFault)
  | tooManyKeys (count : Nat)
  | keyNotInAccount (key : Address)
  | parametersMismatch
  | authorizerMismatch
  | transactionMismatch
  | signatureMismatch
  | nothingToMerge
  | notMultisig
  | verification (fault : EnvelopeFault)
  | transaction (error : TransactionError)
  | key (error : KeyError)
deriving DecidableEq, Repr

def MultisigError.message : MultisigError → String
  | unknownVersion version => "Unknown multisig version: " ++ Decimal.text version.toNat
  | threshold fault => "Invalid threshold: " ++ fault.message
  | tooManyKeys count => "Too many keys in multisig account: " ++ Decimal.text count
  | keyNotInAccount signer =>
    "signer address does not match any of the addresses in the multisig account: " ++ signer.text
  | parametersMismatch => "multisig parameters do not match"
  | authorizerMismatch => "multisig authorizing addresses do not match"
  | transactionMismatch => "multisig transactions do not match"
  | signatureMismatch => "mismatched duplicate signatures"
  | nothingToMerge => "need at least one signed transaction to merge"
  | notMultisig => "transaction is not signed by a multisig account"
  | verification fault => "Multisig verification failed: " ++ fault.message
  | transaction error => "Transaction error: " ++ error.message
  | key error => "Crypto error: " ++ error.message

structure MultisigAccount where
  version : UInt8
  threshold : UInt8
  keys : List Address
deriving DecidableEq, Repr

namespace MultisigAccount

/-- The only version in use. -/
def currentVersion : UInt8 := 1

def maxKeys : Nat := 255

/-- The account of the given keys, when its parameters make sense. -/
def make (version threshold : UInt8) (keys : List Address) : Except MultisigError MultisigAccount :=
  if version ≠ currentVersion then .error (.unknownVersion version)
  else if maxKeys < keys.length then .error (.tooManyKeys keys.length)
  else if keys = [] then .error (.threshold .noKeys)
  else if threshold = 0 then .error (.threshold .zero)
  else if keys.length < threshold.toNat then .error (.threshold (.exceeds threshold keys.length))
  else .ok ⟨version, threshold, keys⟩

def ofTexts (version threshold : UInt8) (texts : List String) : Except MultisigError MultisigAccount := do
  let keys ← (texts.mapM Address.ofText).mapError .key
  make version threshold keys

/-- The octets that the address of an account is the digest of. -/
def descriptor (a : MultisigAccount) : Bytes := a.version :: a.threshold :: a.keys.flatMap Address.bytes

def address (a : MultisigAccount) : Address := .ofDigest (Domain.multisigAddress.digest a.descriptor)

/-- The positions that a key holds; a key may hold several. -/
def slotsOf (a : MultisigAccount) (key : Address) : List Nat :=
  (a.keys.zipIdx.filter (·.1 == key)).map (·.2)

def contains (a : MultisigAccount) (key : Address) : Bool := a.keys.contains key

def description (a : MultisigAccount) : String :=
  Decimal.text a.threshold.toNat ++ "-of-" ++ Decimal.text a.keys.length

def display (a : MultisigAccount) : String := a.address.text ++ " (" ++ a.description ++ ")"

def describe (a : MultisigAccount) : String :=
  "MultisigAccount \x7b version: " ++ Decimal.text a.version.toNat
    ++ ", threshold: " ++ Decimal.text a.threshold.toNat
    ++ ", public_keys: [" ++ ", ".intercalate (a.keys.map Address.describe) ++ "] \x7d"

/-- The fields of an account. Reading one does not check that its parameters make sense. -/
def schema : Wire.Schema MultisigAccount :=
  .record false MultisigAccount.mk
    (.required "version" .uint8 (·.version) <|
    .required "threshold" .uint8 (·.threshold) <|
    .required "public_keys" (.list Address.schema) (·.keys) .nil)

end MultisigAccount

end AtomicGroup
