import AtomicGroup.Params
import AtomicGroup.Txn.Signed

/-!
# Building transactions

One function for each thing that a transaction can be made to do, giving a `TxnDraft`; options are set on the
draft, and `TxnDraft.build` fills in the network's parameters and the fee last, so that it covers every field.

A fee is either given as it is or as a rate for each octet of the signed transaction. The size is measured while the
fee field holds the rate, so it does not depend on the fee before; a rate that asks for too much stays behind there.
-/
namespace AtomicGroup

namespace Transaction

/-- The size of a transaction with one signature. -/
def signedSize (t : Transaction) : Nat :=
  SignedTxn.encode { txn := t, sig := some .zero } |>.length

def withFee (t : Transaction) (fee : UInt64) : Transaction :=
  { t with header := { t.header with fee := fee } }

def applyFee (params : SuggestedParams) : EStateM TransactionError Transaction Unit := do
  modify (·.withFee params.fee)
  if ¬ params.flatFee then
    let fee := (← get).signedSize * params.fee.toNat
    if UInt64.size ≤ fee then throw .feeOverflow
    modify (·.withFee (UInt64.ofNat (max fee minFee.toNat)))

end Transaction

/-- A box of an application named by the application's id. -/
structure AppBox where
  app : UInt64
  name : Bytes
deriving DecidableEq, Repr

/-- A box as a call names it, by the position of its application. -/
def AppBox.resolve (foreignApps : List UInt64) (called : UInt64) (box : AppBox) :
    Except TransactionError BoxReference :=
  if box.app = 0 ∨ box.app = called then .ok ⟨0, box.name⟩
  else
    match foreignApps.findIdx? (· == box.app) with
    | some i => .ok ⟨UInt64.ofNat (i + 1), box.name⟩
    | none => .error (.unknownBoxApp box.app)

structure ParticipationKeys where
  voteKey : Bytes := []
  selectionKey : Bytes := []
  stateProofKey : Bytes := []
  voteFirst : UInt64 := 0
  voteLast : UInt64 := 0
  voteKeyDilution : UInt64 := 0
deriving DecidableEq, Repr

/-- What an application call asks for, with boxes named by application id. -/
structure AppCall where
  app : UInt64 := 0
  onCompletion : OnCompletion := .noOp
  args : List Bytes := []
  accounts : List Address := []
  foreignApps : List UInt64 := []
  foreignAssets : List UInt64 := []
  boxes : List AppBox := []
  approvalProgram : Bytes := []
  clearProgram : Bytes := []
  globalState : StateLimits := {}
  localState : StateLimits := {}
  extraPages : UInt32 := 0
deriving DecidableEq, Repr

/-- A transaction without the network's parameters. -/
structure TxnDraft where
  txn : Transaction
  /-- A rekey target that is written only after the fee is computed. -/
  rekeyAfterFee : Option Address := none
deriving DecidableEq, Repr

namespace TxnDraft

def blank (kind : TxnKind) (sender : Address) : TxnDraft := ⟨{ kind, header := { sender } }, none⟩

def payment (sender receiver : Address) (amount : UInt64) : TxnDraft :=
  ⟨{ header := { sender }, payment := { receiver, amount } }, none⟩

/-- A payment of nothing to oneself that hands the account to another key; the fee does not cover that field. -/
def rekey (sender target : Address) : TxnDraft :=
  { payment sender sender 0 with rekeyAfterFee := some target }

def goOnline (sender : Address) (keys : ParticipationKeys) : TxnDraft :=
  ⟨{ kind := .keyRegistration, header := { sender },
     keyRegistration := {
       voteKey := keys.voteKey, selectionKey := keys.selectionKey, stateProofKey := keys.stateProofKey,
       voteFirst := keys.voteFirst, voteLast := keys.voteLast, voteKeyDilution := keys.voteKeyDilution } },
   none⟩

def goOffline (sender : Address) : TxnDraft := blank .keyRegistration sender

def neverParticipate (sender : Address) : TxnDraft :=
  ⟨{ kind := .keyRegistration, header := { sender }, keyRegistration := { nonParticipation := true } }, none⟩

def createAsset (sender : Address) (params : AssetParams) : TxnDraft :=
  ⟨{ kind := .assetConfig, header := { sender }, assetConfig := { params } }, none⟩

/-- A change of the addresses that manage an asset. -/
def configureAsset (sender : Address) (asset : UInt64) (manager reserve freeze clawback : Address) :
    TxnDraft :=
  ⟨{ kind := .assetConfig, header := { sender },
     assetConfig := { asset, params := { manager, reserve, freeze, clawback } } }, none⟩

def destroyAsset (sender : Address) (asset : UInt64) : TxnDraft :=
  ⟨{ kind := .assetConfig, header := { sender }, assetConfig := { asset } }, none⟩

def transferAsset (sender receiver : Address) (amount asset : UInt64) : TxnDraft :=
  ⟨{ kind := .assetTransfer, header := { sender }, assetTransfer := { asset, amount, receiver } }, none⟩

/-- A transfer of nothing to oneself, which accepts an asset. -/
def acceptAsset (sender : Address) (asset : UInt64) : TxnDraft := transferAsset sender sender 0 asset

def revokeAsset (sender source receiver : Address) (amount asset : UInt64) : TxnDraft :=
  ⟨{ kind := .assetTransfer, header := { sender }, assetTransfer := { asset, amount, source, receiver } },
   none⟩

def freezeAsset (sender : Address) (asset : UInt64) (account : Address) (frozen : Bool) : TxnDraft :=
  ⟨{ kind := .assetFreeze, header := { sender }, assetFreeze := { asset, account, frozen } }, none⟩

def callApp (sender : Address) (call : AppCall) : Except TransactionError TxnDraft := do
  let boxes ← call.boxes.mapM (AppBox.resolve call.foreignApps call.app)
  return ⟨{
    kind := .appCall
    header := { sender }
    appCall := {
      app := call.app
      onCompletion := call.onCompletion
      args := call.args
      accounts := call.accounts
      foreignApps := call.foreignApps
      foreignAssets := call.foreignAssets
      boxes
      approvalProgram := call.approvalProgram
      clearProgram := call.clearProgram
      globalState := call.globalState
      localState := call.localState
      extraPages := call.extraPages } }, none⟩

/-- The draft with the rest of the sender's money going to an account. -/
def closeTo (d : TxnDraft) (target : Address) : TxnDraft :=
  { d with txn := { d.txn with payment := { d.txn.payment with closeTo := target } } }

def closeAssetTo (d : TxnDraft) (target : Address) : TxnDraft :=
  { d with txn := { d.txn with assetTransfer := { d.txn.assetTransfer with closeTo := target } } }

def withNote (d : TxnDraft) (note : Bytes) : TxnDraft :=
  { d with txn := { d.txn with header := { d.txn.header with note } } }

def withLease (d : TxnDraft) (lease : Digest) : TxnDraft :=
  { d with txn := { d.txn with header := { d.txn.header with lease } } }

def withRekey (d : TxnDraft) (target : Address) : TxnDraft :=
  { d with txn := { d.txn with header := { d.txn.header with rekeyTo := target } } }

/-- The drafted transaction with what the network's parameters say, but for the fee. -/
def inNetwork (d : TxnDraft) (params : SuggestedParams) : Transaction :=
  { d.txn with header := { d.txn.header with
    firstValid := params.firstValid
    lastValid := params.lastValid
    genesisId := params.genesisId
    genesisHash := params.genesisHash } }

def build (d : TxnDraft) (params : SuggestedParams) : Except TransactionError Transaction := do
  if params.lastValid < params.firstValid then throw (.window params.firstValid params.lastValid)
  match (Transaction.applyFee params).run (d.inNetwork params) with
  | .error e _ => throw e
  | .ok _ txn =>
    match d.rekeyAfterFee with
    | none => return txn
    | some target => return { txn with header := { txn.header with rekeyTo := target } }

end TxnDraft

end AtomicGroup
