import AtomicGroup.Multisig.Account

/-!
# Multisig envelopes

An envelope has a slot for each key of an account, filled or not. Merging two envelopes of one account unites
their slots; verifying one asks for enough filled slots and for a good signature in each.
-/
namespace AtomicGroup

structure MultisigSlot where
  key : Address
  sig : Option Signature := none
deriving DecidableEq, Repr

structure MultisigEnvelope where
  slots : List MultisigSlot := []
  threshold : UInt8 := 0
  version : UInt8 := 0
deriving DecidableEq, Repr

namespace MultisigSlot

def schema : Wire.Schema MultisigSlot :=
  .record true MultisigSlot.mk
    (.required "pk" Address.schema (·.key) <|
    .optional "s" (.option Signature.schema) (·.sig) none .nil)

/-- The union of two slots of one key; they must not hold different signatures. -/
def merge (a b : MultisigSlot) : Except MultisigError MultisigSlot :=
  match a.sig, b.sig with
  | none, sig => .ok { a with sig := sig }
  | some _, none => .ok a
  | some ours, some theirs => if ours = theirs then .ok a else .error .signatureMismatch

end MultisigSlot

namespace MultisigEnvelope

/-- The fields of an envelope, which are all written. -/
def schema : Wire.Schema MultisigEnvelope :=
  .record true MultisigEnvelope.mk
    (.kept "subsig" (.list MultisigSlot.schema) (·.slots) [] <|
    .kept "thr" .uint8 (·.threshold) 0 <|
    .kept "v" .uint8 (·.version) 0 .nil)

/-- The envelope of an account with all slots empty. -/
def blank (a : MultisigAccount) : MultisigEnvelope :=
  ⟨a.keys.map fun key => { key }, a.threshold, a.version⟩

/-- The account that an envelope was made for. -/
def account (e : MultisigEnvelope) : Except MultisigError MultisigAccount :=
  MultisigAccount.make e.version e.threshold (e.slots.map (·.key))

def count (e : MultisigEnvelope) : Nat := e.slots.countP (·.sig.isSome)

/-- The envelope with a signature in every slot of a key. -/
def fill (e : MultisigEnvelope) (key : Address) (sig : Signature) :
    Except MultisigError MultisigEnvelope :=
  if e.slots.any (·.key == key) then
    .ok { e with slots := e.slots.map fun s => if s.key == key then { s with sig := some sig } else s }
  else
    .error (.keyNotInAccount key)

def mergeSlots : (ours theirs : List MultisigSlot) → Except MultisigError (List MultisigSlot)
  | a :: as, b :: bs => do
    let slot ← a.merge b
    return slot :: (← mergeSlots as bs)
  | as, _ => .ok as

def merge (a b : MultisigEnvelope) : Except MultisigError MultisigEnvelope := do
  if (← a.account) ≠ (← b.account) then throw .parametersMismatch
  return { a with slots := ← mergeSlots a.slots b.slots }

/-- Whether every filled slot holds a good signature of a message. -/
def verifySlots (message : Bytes) : List MultisigSlot → Except MultisigError Unit
  | [] => .ok ()
  | slot :: slots =>
    match slot.sig with
    | none => verifySlots message slots
    | some sig => do
      (sig.verify slot.key message).mapError fun _ => .verification (.badSignature slot.key)
      verifySlots message slots

def verify (e : MultisigEnvelope) (message : Bytes) : Except MultisigError Unit :=
  if e.version ≠ MultisigAccount.currentVersion then .error (.unknownVersion e.version)
  else if e.slots = [] ∨ e.threshold = 0 then .error (.verification .empty)
  else if e.slots.length < e.threshold.toNat then
    .error (.threshold (.exceeds e.threshold e.slots.length))
  else if e.count < e.threshold.toNat then .error (.verification (.missing e.count e.threshold))
  else verifySlots message e.slots

end MultisigEnvelope

end AtomicGroup
