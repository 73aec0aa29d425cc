import AtomicGroup.Txn.Signed

/-!
# Logic signature accounts

A logic signature with the key that delegated to it, if one did. It signs a transaction only when its own
authority verifies.
-/
namespace AtomicGroup

structure LogicSigAccount where
  lsig : LogicSig
  signingKey : Option Address := none
deriving DecidableEq, Repr

namespace LogicSigAccount

def schema : Wire.Schema LogicSigAccount :=
  .record false LogicSigAccount.mk
    (.required "lsig" LogicSig.schema (·.lsig) <|
    .optional "sigkey" (.option Address.schema) (·.signingKey) none .nil)

/-- The account that a program controls by itself. -/
def escrow (program : Bytes) (args : List Bytes) : Except LogicSigError LogicSigAccount := do
  Program.check program
  return ⟨{ args, program }, none⟩

/-- The account of a key that delegates to a program. -/
def delegateSign (program : Bytes) (args : List Bytes) (key : KeyPair) :
    Except LogicSigError LogicSigAccount := do
  Program.check program
  return ⟨{ args, program, sig := some (key.sign (Program.bytesToSign program)) }, some key.address⟩

/-- The account of a key that delegated to a program elsewhere; its signature has to verify. -/
def delegateAttach (program : Bytes) (args : List Bytes) (signer : Address) (sig : Bytes) :
    Except LogicSigError LogicSigAccount := do
  let sig ← (Signature.ofBytes sig).mapError .key
  Program.check program
  let lsig : LogicSig := { args, program, sig := some sig }
  lsig.verify signer
  return ⟨lsig, some signer⟩

/-- A multisig account about to delegate to a program. -/
def delegateMultisig (program : Bytes) (args : List Bytes) (account : MultisigAccount) :
    Except LogicSigError LogicSigAccount := do
  Program.check program
  return ⟨{ args, program, msig := some (.blank account) }, none⟩

/-- The slots with a signature in the first one of a key. -/
def fillFirst (key : Address) (sig : Signature) : List MultisigSlot → Option (List MultisigSlot)
  | [] => none
  | slot :: slots =>
    if slot.key = key then some ({ slot with sig := some sig } :: slots)
    else (fillFirst key sig slots).map (slot :: ·)

/-- The account with a member's signature that was made elsewhere. It is not verified, since more may follow. -/
def appendAttach (a : LogicSigAccount) (signer : Address) (sig : Bytes) :
    Except LogicSigError LogicSigAccount := do
  let sig ← (Signature.ofBytes sig).mapError .key
  match a.lsig.msig with
  | none => throw .missingMultisig
  | some envelope =>
    match fillFirst signer sig envelope.slots with
    | none => throw (.keyNotInMultisig signer)
    | some slots => return { a with lsig := { a.lsig with msig := some { envelope with slots } } }

def appendSign (a : LogicSigAccount) (key : KeyPair) : Except LogicSigError LogicSigAccount :=
  a.appendAttach key.address (key.sign (Program.bytesToSign a.lsig.program)).bytes

/-- Whether the program acts for another account than its own. -/
def isDelegated (a : LogicSigAccount) : Bool := a.lsig.sig.isSome || a.lsig.msig.isSome

def address (a : LogicSigAccount) : Except LogicSigError Address :=
  match a.lsig.sig, a.lsig.msig with
  | some _, some _ => .error .tooManySignatures
  | some _, none =>
    match a.signingKey with
    | some key => .ok key
    | none => .error .noSigningKey
  | none, some envelope => (envelope.account.mapError .multisig).map (·.address)
  | none, none => .ok (Program.address a.lsig.program)

/-- A transaction under the account's authority, which has to verify. -/
def signTransaction (a : LogicSigAccount) (t : Transaction) : Except LogicSigError SignedTxn := do
  let address ← a.address
  a.lsig.verify address
  return { txn := t, lsig := some a.lsig, signer := SignedTxn.signerFor t address }

def toJson (a : LogicSigAccount) : String := schema.toJson a

def ofJson (text : String) : Except LogicSigError LogicSigAccount :=
  (schema.ofJson text).mapError fun _ => .json

/-- The account of a logic signature that came on a transaction. A single key's signature is verified against
the key of the given signer. -/
def ofLogicSig (lsig : LogicSig) (signer : Option Address) : Except LogicSigError LogicSigAccount :=
  match lsig.sig, lsig.msig with
  | some _, some _ => throw .tooManySignatures
  | some sig, none =>
    match signer with
    | none => throw .noSigningKey
    | some key => do
      (sig.verify key (Program.bytesToSign lsig.program)).mapError fun _ => .invalidSignature
      return ⟨lsig, some key⟩
  | none, _ => return ⟨lsig, none⟩

end LogicSigAccount

def SignedTxn.logicSigAccount? (signed : Bytes) : Except LogicSigError (Option LogicSigAccount) := do
  let s ← (decode signed).mapError .transaction
  s.lsig.mapM fun lsig => LogicSigAccount.ofLogicSig lsig (some s.authorizer)

end AtomicGroup
