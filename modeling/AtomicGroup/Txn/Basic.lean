import AtomicGroup.Key

/-!
# Transactions

A transaction is a header and the fields of every kind of transaction, of which those of its own kind are
meant to be set. Nothing forbids others: what arrives from outside may carry any of them.
-/
namespace AtomicGroup

inductive TxnKind where
  | payment
  | keyRegistration
  | assetConfig
  | assetTransfer
  | assetFreeze
  | appCall
deriving DecidableEq, Repr, Inhabited

def TxnKind.all : List TxnKind :=
  [.payment, .keyRegistration, .assetConfig, .assetTransfer, .assetFreeze, .appCall]

def TxnKind.name : TxnKind → String
  | payment => "pay"
  | keyRegistration => "keyreg"
  | assetConfig => "acfg"
  | assetTransfer => "axfer"
  | assetFreeze => "afrz"
  | appCall => "appl"

def TxnKind.ofName? (name : String) : Option TxnKind := all.find? (·.name == name)

inductive OnCompletion where
  | noOp
  | optIn
  | closeOut
  | clearState
  | updateApplication
  | deleteApplication
deriving DecidableEq, Repr, Inhabited

namespace OnCompletion

def all : List OnCompletion := [noOp, optIn, closeOut, clearState, updateApplication, deleteApplication]

def number : OnCompletion → UInt64
  | noOp => 0
  | optIn => 1
  | closeOut => 2
  | clearState => 3
  | updateApplication => 4
  | deleteApplication => 5

def ofNumber? (n : UInt64) : Option OnCompletion := all.find? (·.number == n)

/-- The names that an action answers to, in lower case. -/
def names : OnCompletion → List String
  | noOp => ["noop"]
  | optIn => ["optin"]
  | closeOut => ["closeout"]
  | clearState => ["clearstate"]
  | updateApplication => ["update", "updateapplication"]
  | deleteApplication => ["delete", "deleteapplication"]

/-- The action with a given name, in which the case of the letters `A` to `Z` does not matter. -/
def ofName? (name : String) : Option OnCompletion :=
  all.find? fun action => action.names.contains (name.map Char.toLower)

end OnCompletion

structure AssetParams where
  metadataHash : Digest := .zero
  assetName : String := ""
  url : String := ""
  clawback : Address := .zero
  decimals : UInt32 := 0
  defaultFrozen : Bool := false
  freeze : Address := .zero
  manager : Address := .zero
  reserve : Address := .zero
  total : UInt64 := 0
  unitName : String := ""
deriving DecidableEq, Repr, Inhabited

structure StateLimits where
  byteSlices : UInt64 := 0
  uints : UInt64 := 0
deriving DecidableEq, Repr, Inhabited

/-- A box of an application: the called one at index 0, a foreign one at its position counted from 1. -/
structure BoxReference where
  app : UInt64 := 0
  name : Bytes := []
deriving DecidableEq, Repr, Inhabited

structure Header where
  sender : Address := .zero
  fee : UInt64 := 0
  firstValid : UInt64 := 0
  lastValid : UInt64 := 0
  genesisId : String := ""
  genesisHash : Digest := .zero
  group : Digest := .zero
  lease : Digest := .zero
  note : Bytes := []
  rekeyTo : Address := .zero
deriving DecidableEq, Repr, Inhabited

structure PaymentFields where
  receiver : Address := .zero
  amount : UInt64 := 0
  closeTo : Address := .zero
deriving DecidableEq, Repr, Inhabited

structure KeyRegistrationFields where
  voteKey : Bytes := []
  selectionKey : Bytes := []
  stateProofKey : Bytes := []
  voteFirst : UInt64 := 0
  voteLast : UInt64 := 0
  voteKeyDilution : UInt64 := 0
  nonParticipation : Bool := false
deriving DecidableEq, Repr, Inhabited

structure AssetConfigFields where
  asset : UInt64 := 0
  params : AssetParams := {}
deriving DecidableEq, Repr, Inhabited

/-- What a transfer of an asset has; `source` is set when units are clawed back. -/
structure AssetTransferFields where
  asset : UInt64 := 0
  amount : UInt64 := 0
  source : Address := .zero
  receiver : Address := .zero
  closeTo : Address := .zero
deriving DecidableEq, Repr, Inhabited

structure AssetFreezeFields where
  asset : UInt64 := 0
  account : Address := .zero
  frozen : Bool := false
deriving DecidableEq, Repr, Inhabited

structure AppCallFields where
  app : UInt64 := 0
  onCompletion : OnCompletion := .noOp
  args : List Bytes := []
  accounts : List Address := []
  foreignApps : List UInt64 := []
  foreignAssets : List UInt64 := []
  boxes : List BoxReference := []
  approvalProgram : Bytes := []
  clearProgram : Bytes := []
  globalState : StateLimits := {}
  localState : StateLimits := {}
  extraPages : UInt32 := 0
deriving DecidableEq, Repr, Inhabited

structure Transaction where
  kind : TxnKind := .payment
  header : Header := {}
  payment : PaymentFields := {}
  keyRegistration : KeyRegistrationFields := {}
  assetConfig : AssetConfigFields := {}
  assetTransfer : AssetTransferFields := {}
  assetFreeze : AssetFreezeFields := {}
  appCall : AppCallFields := {}
deriving DecidableEq, Repr, Inhabited

def maxGroupSize : Nat := 16

def minFee : UInt64 := 1000

def Transaction.hasGroup (t : Transaction) : Bool := !t.header.group.isZero

def Transaction.withGroup (t : Transaction) (id : Digest) : Transaction :=
  { t with header := { t.header with group := id } }

end AtomicGroup
