import AtomicGroup.LogicSig.Basic

/-!
# Signed transactions

A transaction travels with its authorisation: a signature, a multisig envelope or a logic signature. The
authorising address is written down when it is not the sender's.
-/
namespace AtomicGroup

structure SignedTxn where
  lsig : Option LogicSig := none
  msig : Option MultisigEnvelope := none
  /-- The authorising address, when it is not the sender's. -/
  signer : Option Address := none
  sig : Option Signature := none
  txn : Transaction
deriving DecidableEq, Repr

namespace SignedTxn

def schema : Wire.Schema SignedTxn :=
  .record true SignedTxn.mk
    (.optional "lsig" (.option LogicSig.schema) (·.lsig) none <|
    .optional "msig" (.option MultisigEnvelope.schema) (·.msig) none <|
    .optional "sgnr" (.option Address.schema) (·.signer) none <|
    .optional "sig" (.option Signature.schema) (·.sig) none <|
    .required "txn" Transaction.schema (·.txn) .nil)

def encode (s : SignedTxn) : Bytes := schema.encode s

def decode (bs : Bytes) : Except TransactionError SignedTxn := (schema.decode bs).mapError .encoding

def toJson (s : SignedTxn) : String := schema.toJson s

/-- The address to write down for an authoriser of a transaction: none when it is the sender. -/
def signerFor (t : Transaction) (authorizer : Address) : Option Address :=
  if authorizer = t.header.sender then none else some authorizer

def withSignature (sig : Signature) (t : Transaction) (signer : Address) : SignedTxn :=
  { txn := t, sig := some sig, signer := signerFor t signer }

def sign (key : KeyPair) (t : Transaction) : SignedTxn :=
  withSignature (key.sign t.bytesToSign) t key.address

def isSigned (s : SignedTxn) : Bool := s.sig.isSome || s.msig.isSome || s.lsig.isSome

/-- The address whose authority is claimed. -/
def authorizer (s : SignedTxn) : Address := s.signer.getD s.txn.header.sender

def id (s : SignedTxn) : Digest := s.txn.id

/-- The octets of a signed transaction made from a signature, the octets of a transaction and the text of
the signer's address. The signature is not verified. -/
def attachSignature (sig txn : Bytes) (signer : String) : Except TransactionError Bytes := do
  let sig ← (Signature.ofBytes sig).mapError .key
  let txn ← Transaction.decode txn
  let signer ← (Address.ofText signer).mapError .key
  return (withSignature sig txn signer).encode

end SignedTxn

end AtomicGroup
