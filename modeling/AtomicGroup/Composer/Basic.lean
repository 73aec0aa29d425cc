import AtomicGroup.Composer.MethodCall

/-!
# Composing a group

A composer collects transactions with their signers, stamps them with their group id, and asks each signer once for
all of its transactions. It only moves forward: from building to built to signed. Gathering tells, beside its
result, which requests it made, and leaves a built group behind when a signer fails.
-/
namespace AtomicGroup

/-- An entry of a group, with the method that it calls, if it is a call. -/
structure ComposerEntry extends TxnEntry where
  method : Option Abi.Method := none

def ComposerEntry.stamp (id : Digest) (e : ComposerEntry) : ComposerEntry := { e with txn := e.txn.withGroup id }

inductive ComposerStatus where
  | building
  | built
  | signed
deriving DecidableEq, Repr

structure Composer where
  status : ComposerStatus := .building
  entries : List ComposerEntry := []
  /-- The signed transactions, once they are gathered. -/
  cache : List Bytes := []

structure SignRequest where
  signer : Signer
  indexes : List Nat

structure Gathering where
  composer : Composer
  requests : List SignRequest
  result : Except ComposerError (List Bytes)

namespace Composer

def count (c : Composer) : Nat := c.entries.length

def txns (c : Composer) : List Transaction := c.entries.map (·.txn)

def methodAt (c : Composer) (i : Nat) : Option Abi.Method := c.entries[i]?.bind (·.method)

def transactions (c : Composer) : List TxnEntry := c.entries.map (·.toTxnEntry)

def ensureBuilding : Operation Composer Unit := do
  if (← get).status ≠ .building then throw .notBuilding

def push (entry : TxnEntry) (method : Option Abi.Method) : Operation Composer Unit :=
  modify fun c => { c with entries := c.entries ++ [⟨entry, method⟩] }

def addTransaction (entry : TxnEntry) : Operation Composer Unit := do
  ensureBuilding
  if (← get).count = maxGroupSize then throw .groupFull
  if entry.txn.hasGroup then throw .nonZeroGroup
  push entry none

def addMethodCall (call : MethodCall) : Operation Composer Unit := do
  ensureBuilding
  if maxGroupSize < (← get).count + call.method.txnCount then throw .groupFull
  let (args, entry) ← MonadExcept.ofExcept call.expand
  args.forM fun arg => push arg none
  push entry (some call.method)

def stamp : Operation Composer Unit := do
  let gid ← MonadExcept.ofExcept ((Group.id (← get).txns).mapError .group)
  modify fun c => { c with entries := c.entries.map (·.stamp gid) }

/-- Completes the group; a lone transaction keeps an empty group id. -/
def build : Operation Composer (List TxnEntry) := do
  if (← get).status = .building then
    if (← get).entries.isEmpty then throw .empty
    if 1 < (← get).count then stamp
    modify fun c => { c with status := .built }
  return (← get).transactions

/-- Requests with a transaction added to the first whose signer holds the same authority. -/
def addRequest (signer : Signer) (index : Nat) : List SignRequest → List SignRequest
  | [] => [⟨signer, [index]⟩]
  | r :: rs =>
    if r.signer.same signer then { r with indexes := r.indexes ++ [index] } :: rs
    else r :: addRequest signer index rs

/-- The requests that cover all signers, each once, in the order of their first transactions. -/
def requests (signers : List Signer) : List SignRequest :=
  signers.zipIdx.foldl (fun rs (signer, i) => addRequest signer i rs) []

/-- The requests made, up to the first that fails, and the payloads with their positions. -/
def runRequests (txns : List Transaction) :
    List SignRequest → List SignRequest × Except SignerError (List (Nat × Bytes))
  | [] => ([], .ok [])
  | r :: rs =>
    match r.signer.sign txns r.indexes with
    | .error e => ([r], .error e)
    | .ok payloads =>
      let (made, result) := runRequests txns rs
      (r :: made, result.map (r.indexes.zip payloads ++ ·))

/-- The payloads of all positions from one on, none of which may be missing or empty. -/
def collect (payloads : List (Nat × Bytes)) : (index count : Nat) → Except ComposerError (List Bytes)
  | _, 0 => .ok []
  | index, count + 1 =>
    match payloads.lookup index with
    | none | some [] => .error (.missingSignature index)
    | some payload => do return payload :: (← collect payloads (index + 1) count)

def gatherBuilt (c : Composer) : Gathering :=
  let (made, result) := runRequests c.txns (requests (c.entries.map (·.signer)))
  let payloads := (result.mapError ComposerError.signer).bind fun found => collect found 0 c.count
  match payloads with
  | .ok signed => ⟨{ c with status := .signed, cache := signed }, made, .ok signed⟩
  | .error e => ⟨c, made, .error e⟩

/-- Gathers all signatures, building the group first if need be. Once gathered they are kept. -/
def gather (c : Composer) : Gathering :=
  if c.status = .signed then ⟨c, [], .ok c.cache⟩
  else
    match build.run c with
    | .error e left => ⟨left, [], .error e⟩
    | .ok _ built => built.gatherBuilt

/-- A building composer with the same entries, their group ids cleared. -/
def reopen (c : Composer) : Composer := ⟨.building, c.entries.map (·.stamp .zero), []⟩

end Composer

end AtomicGroup
