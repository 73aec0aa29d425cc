import AtomicGroup.Txn.Schema

/-!
# Groups of transactions

The id of a group is the digest of its members' ids, each taken with the group id cleared. A list of
transactions falls into runs that carry one id, a transaction without an id being a run by itself.
-/
namespace AtomicGroup

inductive GroupError where
  | empty
  | tooLarge (count : Nat)
  /-- The transactions from `start` up to but without `stop` are no valid group. -/
  | invalid (start stop : Nat)
  | decode (index : Nat) (error : TransactionError)
deriving DecidableEq, Repr

def GroupError.message : GroupError → String
  | empty => "Input transaction group has 0 elements"
  | tooLarge count => "Group of " ++ Decimal.text count ++ " transactions exceeds the maximum of 16"
  | invalid start stop => "The transactions in range [" ++ Decimal.text start ++ ":" ++ Decimal.text stop
      ++ "] form an invalid group"
  | decode index error =>
    "Could not decode transaction at index " ++ Decimal.text index ++ ": " ++ error.message

namespace Group

structure Members where
  ids : List Digest
deriving DecidableEq, Repr

def Members.schema : Wire.Schema Members :=
  .record true Members.mk (.required "txlist" (.list Digest.schema) (·.ids) .nil)

def preimage (txns : List Transaction) : Bytes :=
  Members.schema.encode ⟨txns.map fun t => (t.withGroup .zero).id⟩

/-- The digest of a list of transactions, of any length. -/
def digest (txns : List Transaction) : Digest := Domain.group.digest (preimage txns)

def id (txns : List Transaction) : Except GroupError Digest :=
  if txns = [] then .error .empty
  else if maxGroupSize < txns.length then .error (.tooLarge txns.length)
  else .ok (digest txns)

/-- A list of transactions stamped with its group id, which a single transaction gets too. -/
def assign (txns : List Transaction) : Except GroupError (Digest × List Transaction) := do
  let gid ← id txns
  return (gid, txns.map (·.withGroup gid))

/-- Whether a list of transactions carries its group id; a single one may carry none. -/
def verify : List Transaction → Except GroupError Bool
  | [] => .error .empty
  | txns@(first :: rest) =>
    if rest = [] ∧ first.header.group.isZero then .ok true
    else if txns.any (·.header.group != first.header.group) then .ok false
    else if maxGroupSize < txns.length then .ok false
    else .ok (digest txns == first.header.group)

/-- The maximal runs of transactions that carry one and the same group id. -/
def runs (txns : List Transaction) : List (List Transaction) :=
  txns.splitBy fun a b => a.header.group == b.header.group && a.hasGroup

/-- Whether each run is a valid group; the first that is not is named by its range. -/
def verifyRuns (start : Nat) : List (List Transaction) → Except GroupError Unit
  | [] => .ok ()
  | run :: rest => do
    if ← verify run then verifyRuns (start + run.length) rest
    else throw (.invalid start (start + run.length))

/-- For each transaction, the number of its run. -/
def segment (txns : List Transaction) : Except GroupError (List Nat) := do
  if txns = [] then throw .empty
  verifyRuns 0 (runs txns)
  return (runs txns).zipIdx.flatMap fun (run, i) => List.replicate run.length i

/-- The transactions that octets write, the first of which has a given index. -/
def decodeFrom (index : Nat) : List Bytes → Except GroupError (List Transaction)
  | [] => .ok []
  | bs :: rest => do
    let t ← (Transaction.decode bs).mapError (.decode index)
    return t :: (← decodeFrom (index + 1) rest)

def decode (encoded : List Bytes) : Except GroupError (List Transaction) := decodeFrom 0 encoded

def assignEncoded (encoded : List Bytes) : Except GroupError (List Bytes) := do
  let (_, txns) ← assign (← decode encoded)
  return txns.map (·.encode)

def verifyEncoded (encoded : List Bytes) : Except GroupError Bool := do verify (← decode encoded)

def segmentEncoded (encoded : List Bytes) : Except GroupError (List Nat) := do segment (← decode encoded)

end Group

end AtomicGroup
