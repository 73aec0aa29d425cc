import AtomicGroup.Abi.Json
import AtomicGroup.Abi.Method
import AtomicGroup.Signer
import AtomicGroup.Txn.Builder
import AtomicGroup.Txn.Group

/-!
# Calls of methods

The arguments of a call are supplied one after the other and checked as they come. `MethodCall.expand` turns the
call into transactions: the transaction arguments, then one application call that carries the selector and the
encoded values. References become positions in the lists of the call, which grow by what they do not hold yet.
-/
namespace AtomicGroup

/-- What a call must or must not carry, by the kind of call. -/
inductive ProgramRule where
  | creationPrograms
  | updatePrograms
  | updateLimits
  | neither
deriving DecidableEq, Repr

def ProgramRule.message : ProgramRule → String
  | creationPrograms =>
    "ApprovalProgram and ClearProgram must be provided for an application creation call"
  | updatePrograms => "ApprovalProgram and ClearProgram must be provided for an application update call"
  | updateLimits => "GlobalSchema and LocalSchema must not be provided for an application update call"
  | neither => "ApprovalProgram, ClearProgram, GlobalSchema, and LocalSchema must not be provided for a "
      ++ "non-creation call"

inductive ComposerError where
  | notBuilding
  | groupFull
  | nonZeroGroup
  | empty
  | argCount (expected got : Nat)
  | tooManyArguments (method : String)
  | argKind (index : Nat) (expected got : String)
  | transactionKind (index : Nat) (expected got : TxnKind)
  | programRule (rule : ProgramRule)
  | missingSignature (index : Nat)
  | abi (error : Abi.Error)
  | transaction (error : TransactionError)
  | group (error : GroupError)
  | signer (error : SignerError)
deriving DecidableEq, Repr

def ComposerError.message : ComposerError → String
  | notBuilding => "status must be BUILDING in order to add transactions"
  | groupFull => "reached max group size: 16"
  | nonZeroGroup => "cannot add a transaction with nonzero group ID"
  | empty => "no transactions to build"
  | argCount expected got => "the incorrect number of arguments were provided: " ++ Decimal.text got
      ++ " != " ++ Decimal.text expected
  | tooManyArguments method => "too many arguments for method: '" ++ method ++ "'"
  | argKind index expected got =>
    "argument " ++ Decimal.text index ++ " expects " ++ expected ++ ", got " ++ got
  | transactionKind index expected got => "argument " ++ Decimal.text index ++ " expects a "
      ++ expected.name ++ " transaction, got " ++ got.name
  | programRule rule => rule.message
  | missingSignature index => "missing signature for transaction " ++ Decimal.text index
  | abi error => "ABI error: " ++ error.message
  | transaction error => "Transaction error: " ++ error.message
  | group error => "Group error: " ++ error.message
  | signer error => "Signer error: " ++ error.message

/-- An operation on something in the making, which also tells what a failure leaves behind. -/
abbrev Operation (σ α : Type) := EStateM ComposerError σ α

inductive ArgValue where
  | value (v : Abi.Value)
  | transaction (entry : TxnEntry)

def ArgValue.kind : ArgValue → String
  | value v => v.kind
  | transaction _ => "transaction"

structure MethodCall where
  app : UInt64
  method : Abi.Method
  sender : Address
  params : SuggestedParams
  signer : Signer
  onCompletion : OnCompletion := .noOp
  accounts : List Address := []
  foreignApps : List UInt64 := []
  foreignAssets : List UInt64 := []
  boxes : List AppBox := []
  note : Bytes := []
  lease : Digest := .zero
  rekeyTo : Address := .zero
  approvalProgram : Bytes := []
  clearProgram : Bytes := []
  globalState : StateLimits := {}
  localState : StateLimits := {}
  extraPages : UInt32 := 0
  args : List ArgValue := []

/-- The lists of a call that references point into. -/
structure ForeignLists where
  accounts : List Address
  apps : List UInt64
  assets : List UInt64
deriving DecidableEq, Repr

/-- The position of an item in a list, and the list, which gets the item at its end if it lacks it. -/
def positionOf {α : Type} [BEq α] (item : α) (items : List α) : Nat × List α :=
  match items.findIdx? (· == item) with
  | some i => (i, items)
  | none => (items.length, items ++ [item])

/-- The number that refers to a value in a call, and the lists afterwards. The sender and the called application
are number 0 of their kinds. -/
def ForeignLists.refer (l : ForeignLists) (sender : Address) (app : UInt64) :
    Abi.Reference → Abi.Value → Option (Nat × ForeignLists)
  | .account, v => do
    let account ← v.address?
    if account = sender then return (0, l)
    let (i, accounts) := positionOf account l.accounts
    return (1 + i, { l with accounts })
  | .application, v => do
    let id ← v.uint64?
    if id = app then return (0, l)
    let (i, apps) := positionOf id l.apps
    return (1 + i, { l with apps })
  | .asset, v => do
    let (i, assets) := positionOf (← v.uint64?) l.assets
    return (i, { l with assets })

/-- What arguments come to: the lists, the transactions before the call, and the values to encode. -/
structure Expansion where
  lists : ForeignLists
  entries : List TxnEntry
  values : List (Abi.Ty × Abi.Value)

namespace MethodCall

/-- The most arguments that an application call carries, the selector included. -/
def maxAppArgs : Nat := 16

/-- The next argument to supply: its position, what fills it and the name of its type. -/
def nextArg (c : MethodCall) : Except ComposerError (Nat × Abi.ArgKind × String) :=
  match c.method.args[c.args.length]? with
  | none => .error (.tooManyArguments c.method.name)
  | some arg => do
    let kind ← arg.kind.mapError .abi
    return (c.args.length, kind, arg.type)

def push (c : MethodCall) (arg : ArgValue) : MethodCall := { c with args := c.args ++ [arg] }

inductive Supply where
  /-- The JSON text of a value. A reference is given by what it refers to. -/
  | json (text : String)
  | value (v : Abi.Value)
  | transaction (entry : TxnEntry)

/-- The argument that a place makes of what is supplied. A value must be one that its type encodes. -/
def Supply.argFor (index : Nat) (kind : Abi.ArgKind) (type : String) : Supply → Except ComposerError ArgValue
  | json text =>
    match kind with
    | .value t => ((t.ofJson text).map .value).mapError .abi
    | .reference r => ((r.valueType.ofJson text).map .value).mapError .abi
    | .transaction _ => .error (.argKind index type "json")
  | value v =>
    match kind with
    | .value t => ((t.encode v).map fun _ => .value v).mapError .abi
    | .reference r => ((r.valueType.encode v).map fun _ => .value v).mapError .abi
    | .transaction _ => .error (.argKind index type v.kind)
  | transaction entry =>
    if kind.isTransaction then .ok (.transaction entry) else .error (.argKind index type "transaction")

def supply (s : Supply) : Operation MethodCall Unit := do
  let (index, kind, type) ← MonadExcept.ofExcept (← get).nextArg
  let arg ← MonadExcept.ofExcept (s.argFor index kind type)
  modify (·.push arg)

/-- Checks that programs and state limits come with a creation, programs alone with an update, and neither with
another call. -/
def checkPrograms (c : MethodCall) : Except ComposerError Unit :=
  let somePrograms := c.approvalProgram ≠ [] ∨ c.clearProgram ≠ []
  let bothPrograms := c.approvalProgram ≠ [] ∧ c.clearProgram ≠ []
  let limits := c.globalState ≠ {} ∨ c.localState ≠ {} ∨ c.extraPages ≠ 0
  if c.app = 0 then
    if bothPrograms then .ok () else .error (.programRule .creationPrograms)
  else if c.onCompletion = .updateApplication then
    if ¬ bothPrograms then .error (.programRule .updatePrograms)
    else if limits then .error (.programRule .updateLimits)
    else .ok ()
  else if somePrograms ∨ limits then .error (.programRule .neither)
  else .ok ()

def checkTransaction (index : Nat) (expected : Option TxnKind) (t : Transaction) :
    Except ComposerError Unit := do
  match expected with
  | some kind => if t.kind ≠ kind then throw (.transactionKind index kind t.kind)
  | none => pure ()
  if t.hasGroup then throw .nonZeroGroup

/-- What the arguments from a position on come to, each given with the name and the sort of its type. -/
def expandArgs (sender : Address) (app : UInt64) :
    (index : Nat) → ForeignLists → List (String × Abi.ArgKind) → List ArgValue →
      Except ComposerError Expansion
  | index, lists, (type, kind) :: kinds, arg :: args =>
    match kind, arg with
    | .transaction expected, .transaction entry => do
      checkTransaction index expected entry.txn
      let rest ← expandArgs sender app (index + 1) lists kinds args
      return { rest with entries := entry :: rest.entries }
    | .reference r, .value v =>
      match lists.refer sender app r v with
      | none => .error (.argKind index r.name v.kind)
      | some (i, lists) => do
        let rest ← expandArgs sender app (index + 1) lists kinds args
        return { rest with values := (.uint 8, .uint i) :: rest.values }
    | .value t, .value v => do
      let rest ← expandArgs sender app (index + 1) lists kinds args
      return { rest with values := (t, v) :: rest.values }
    | _, arg => .error (.argKind index type arg.kind)
  | _, lists, _, _ => .ok ⟨lists, [], []⟩

/-- Values, of which those that do not fit beside the selector share one tuple. -/
def packValues (values : List (Abi.Ty × Abi.Value)) : List (Abi.Ty × Abi.Value) :=
  if values.length ≤ maxAppArgs - 1 then values
  else
    let packed := values.drop (maxAppArgs - 2)
    values.take (maxAppArgs - 2) ++ [(.tuple (packed.map (·.1)), .tuple (packed.map (·.2)))]

def appArgs (c : MethodCall) (values : List (Abi.Ty × Abi.Value)) : Except ComposerError (List Bytes) := do
  return c.method.selector :: (← (packValues values).mapM fun (t, v) => (t.encode v).mapError .abi)

def appCall (c : MethodCall) (lists : ForeignLists) (args : List Bytes) : AppCall where
  app := c.app
  onCompletion := c.onCompletion
  args := args
  accounts := lists.accounts
  foreignApps := lists.apps
  foreignAssets := lists.assets
  boxes := c.boxes
  approvalProgram := c.approvalProgram
  clearProgram := c.clearProgram
  globalState := c.globalState
  localState := c.localState
  extraPages := c.extraPages

/-- The transactions of a call: those of its arguments, and the application call itself. -/
def expand (c : MethodCall) : Except ComposerError (List TxnEntry × TxnEntry) := do
  let kinds ← c.method.argKinds.mapError .abi
  if c.args.length ≠ kinds.length then throw (.argCount kinds.length c.args.length)
  c.checkPrograms
  let expansion ← expandArgs c.sender c.app 0 ⟨c.accounts, c.foreignApps, c.foreignAssets⟩
    ((c.method.args.map (·.type)).zip kinds) c.args
  let args ← c.appArgs expansion.values
  let draft ← (TxnDraft.callApp c.sender (c.appCall expansion.lists args)).mapError .transaction
  let draft := ((draft.withNote c.note).withLease c.lease).withRekey c.rekeyTo
  let txn ← (draft.build c.params).mapError .transaction
  return (expansion.entries, ⟨txn, c.signer⟩)

end MethodCall

end AtomicGroup
