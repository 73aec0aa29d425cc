import AtomicGroup.Txn.Signed

/-!
# Signing for a multisig account

Each member contributes an envelope with its own slots filled; contributions to one transaction are merged
until the threshold is met.
-/
namespace AtomicGroup

namespace MultisigAccount

def enclose (a : MultisigAccount) (t : Transaction) (e : MultisigEnvelope) : SignedTxn :=
  { txn := t, msig := some e, signer := SignedTxn.signerFor t a.address }

def signTransaction (a : MultisigAccount) (key : KeyPair) (t : Transaction) :
    Except MultisigError SignedTxn := do
  if !a.contains key.address then throw (.keyNotInAccount key.address)
  let envelope ← (MultisigEnvelope.blank a).fill key.address (key.sign t.bytesToSign)
  return a.enclose t envelope

/-- A transaction with a member's signature that was made elsewhere. -/
def attachSignature (a : MultisigAccount) (signer : Address) (sig : Bytes) (t : Transaction) :
    Except MultisigError SignedTxn := do
  let sig ← (Signature.ofBytes sig).mapError .key
  let envelope ← (MultisigEnvelope.blank a).fill signer sig
  return a.enclose t envelope

end MultisigAccount

namespace SignedTxn

def mergeMultisig (a b : SignedTxn) : Except MultisigError SignedTxn :=
  match a.msig, b.msig with
  | some ours, some theirs => do
    let envelope ← ours.merge theirs
    if a.signer ≠ b.signer then throw .authorizerMismatch
    if a.txn ≠ b.txn then throw .transactionMismatch
    return { a with msig := some envelope }
  | _, _ => .error .notMultisig

/-- The union of any number of contributions, from left to right. -/
def mergeAll : List SignedTxn → Except MultisigError SignedTxn
  | [] => .error .nothingToMerge
  | first :: rest => if first.msig.isNone then .error .notMultisig else rest.foldlM mergeMultisig first

def mergeEncoded (a b : Bytes) : Except MultisigError Bytes := do
  let a ← (decode a).mapError .transaction
  let b ← (decode b).mapError .transaction
  return (← mergeMultisig a b).encode

/-- The multisig account that signed an encoded transaction, if any. -/
def multisigAccount? (signed : Bytes) : Except MultisigError (Option MultisigAccount) := do
  let s ← (decode signed).mapError .transaction
  s.msig.mapM (·.account)

end SignedTxn

end AtomicGroup
