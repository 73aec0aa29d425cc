import AtomicGroup.LogicSig.Account
import AtomicGroup.Multisig.Signing

/-!
# Signers

A signer holds the authority to sign some transactions of a group: a key, enough keys of a multisig account, a
logic signature, or something outside that answers requests. It gives one encoded signed transaction for each
index it is asked for, in the order asked.
-/
namespace AtomicGroup

inductive SignerError where
  | indexOutOfRange (index length : Nat)
  | payloadCount (expected got : Nat)
  | duplicateKey (key : Address)
  | keyNotInMultisig (key : Address)
  | insufficientKeys (held : Nat) (need : UInt8)
  | external (text : String)
  | multisig (error : MultisigError)
  | logicSig (error : LogicSigError)
  | key (error : KeyError)
deriving DecidableEq, Repr

def SignerError.message : SignerError → String
  | indexOutOfRange index length => "Index " ++ Decimal.text index ++ " out of range for a group of "
      ++ Decimal.text length ++ " transactions"
  | payloadCount expected got => "Signer returned " ++ Decimal.text got
      ++ " signed transactions, expected " ++ Decimal.text expected
  | duplicateKey member => "duplicate private key for public key " ++ member.text
  | keyNotInMultisig member => "Key " ++ member.text ++ " is not part of the multisig account"
  | insufficientKeys held need => "not enough private keys to meet multisig threshold. Have "
      ++ Decimal.text held ++ ", need " ++ Decimal.text need.toNat
  | external text => "External signer failed: " ++ text
  | multisig error => "Multisig error: " ++ error.message
  | logicSig error => "LogicSig error: " ++ error.message
  | key error => "Crypto error: " ++ error.message

structure MultisigSigner where
  account : MultisigAccount
  keys : List KeyPair
deriving DecidableEq, Repr

namespace MultisigSigner

/-- Checks that keys hold different slots of an account, none of which has been seen; gives all slots held. -/
def claimSlots (account : MultisigAccount) : (seen : List Nat) → List KeyPair → Except SignerError (List Nat)
  | seen, [] => .ok seen
  | seen, key :: keys =>
    match (account.slotsOf key.address).head? with
    | none => .error (.keyNotInMultisig key.address)
    | some slot =>
      if seen.contains slot then .error (.duplicateKey key.address)
      else claimSlots account (slot :: seen) keys

/-- The signer of an account with some of its keys, enough to meet the threshold. -/
def make (account : MultisigAccount) (keys : List KeyPair) : Except SignerError MultisigSigner := do
  let slots ← claimSlots account [] keys
  if slots.length < account.threshold.toNat then throw (.insufficientKeys slots.length account.threshold)
  return ⟨account, keys⟩

/-- A transaction with the signatures of all keys. -/
def signTransaction (s : MultisigSigner) (t : Transaction) : Except MultisigError SignedTxn := do
  SignedTxn.mergeAll (← s.keys.mapM fun key => s.account.signTransaction key t)

/-- The text that shows a signer, without its secrets. -/
def describe (s : MultisigSigner) : String :=
  "MultisigSigner \x7b account: " ++ s.account.describe ++ ", keys: ["
    ++ ", ".intercalate (s.keys.map (·.address.describe)) ++ "] \x7d"

end MultisigSigner

/-- A signer outside this library as another one sees it. -/
structure SignerHandle where
  /-- What tells this signer from all others. -/
  name : String
  /-- What it shows of itself, if anything. -/
  label : Option String := none
  respond : List Transaction → List Nat → Except SignerError (List Bytes)

/-- A signer outside this library, which brings its own notion of authority. -/
structure ExternalSigner extends SignerHandle where
  /-- Whether it holds the authority of another signer; by default, of itself alone. -/
  equals : SignerHandle → Bool := fun other => other.name == name

/-- Whether a signer outside is another one, or holds that it has the same authority. -/
def ExternalSigner.same (a b : ExternalSigner) : Bool := a.name == b.name || a.equals b.toSignerHandle

inductive Signer where
  | basic (key : KeyPair)
  | multisig (signer : MultisigSigner)
  | logicSig (account : LogicSigAccount)
  | external (signer : ExternalSigner)

namespace Signer

def same : Signer → Signer → Bool
  | .basic a, .basic b => a == b
  | .multisig a, .multisig b => a == b
  | .logicSig a, .logicSig b => a == b
  | .external a, .external b => a.same b
  | _, _ => false

def ofPrivateKey (bs : Bytes) : Except SignerError Signer :=
  ((KeyPair.ofPrivateKey bs).map .basic).mapError .key

def select (txns : List Transaction) (indexes : List Nat) : Except SignerError (List Transaction) :=
  indexes.mapM fun i =>
    match txns[i]? with
    | some t => .ok t
    | none => .error (.indexOutOfRange i txns.length)

/-- What a signer answers when it is asked to sign some transactions of a list. -/
def respond (txns : List Transaction) (indexes : List Nat) : Signer → Except SignerError (List Bytes)
  | .basic key => do return (← select txns indexes).map fun t => (SignedTxn.sign key t).encode
  | .multisig signer => do
    (← select txns indexes).mapM fun t => ((signer.signTransaction t).map (·.encode)).mapError .multisig
  | .logicSig account => do
    (← select txns indexes).mapM fun t => ((account.signTransaction t).map (·.encode)).mapError .logicSig
  | .external signer => signer.respond txns indexes

/-- The encoded signed transactions at given positions, one for each. -/
def sign (s : Signer) (txns : List Transaction) (indexes : List Nat) : Except SignerError (List Bytes) := do
  let payloads ← s.respond txns indexes
  if payloads.length ≠ indexes.length then throw (.payloadCount indexes.length payloads.length)
  return payloads

end Signer

structure TxnEntry where
  txn : Transaction
  signer : Signer

def TxnEntry.same (a b : TxnEntry) : Bool := a.txn == b.txn && a.signer.same b.signer

end AtomicGroup
