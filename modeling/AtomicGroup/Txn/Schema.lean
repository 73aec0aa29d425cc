import AtomicGroup.Txn.Basic
import AtomicGroup.Wire.Forms

/-!
# Transactions on the wire

The field tables of a transaction and of the records inside it, in the order of their keys. Every field but
the kind is left out when it holds its default.
-/
namespace AtomicGroup

open Wire (Fields Schema)
open Wire.Fields (optional kept)

def Address.schema : Schema Address := .via Address.block (fun b => some ⟨b⟩) (.block 32)

def Digest.schema : Schema Digest := .via Digest.block (fun b => some ⟨b⟩) (.block 32)

def Signature.schema : Schema Signature := .via Signature.block (fun b => some ⟨b⟩) (.block 64)

/-- The schema of transaction kinds, by name. -/
def TxnKind.schema : Schema TxnKind := .via TxnKind.name TxnKind.ofName? .text

/-- The schema of actions after a call, by number. -/
def OnCompletion.schema : Schema OnCompletion := .via OnCompletion.number OnCompletion.ofNumber? .uint64

def AssetParams.schema : Schema AssetParams :=
  .record true AssetParams.mk
    (optional "am" Digest.schema (·.metadataHash) .zero <|
    optional "an" .text (·.assetName) "" <|
    optional "au" .text (·.url) "" <|
    optional "c" Address.schema (·.clawback) .zero <|
    optional "dc" .uint32 (·.decimals) 0 <|
    optional "df" .bool (·.defaultFrozen) false <|
    optional "f" Address.schema (·.freeze) .zero <|
    optional "m" Address.schema (·.manager) .zero <|
    optional "r" Address.schema (·.reserve) .zero <|
    optional "t" .uint64 (·.total) 0 <|
    optional "un" .text (·.unitName) "" .nil)

def StateLimits.schema : Schema StateLimits :=
  .record true StateLimits.mk
    (optional "nbs" .uint64 (·.byteSlices) 0 <|
    optional "nui" .uint64 (·.uints) 0 .nil)

def BoxReference.schema : Schema BoxReference :=
  .record true BoxReference.mk
    (optional "i" .uint64 (·.app) 0 <|
    optional "n" .bytes (·.name) [] .nil)

def Transaction.schema : Schema Transaction :=
  .record true
    (fun aamt aclose afrz amt apaa apan apap apar apas apat apbx apep apfa apgs apid apls apsu arcv asnd
        caid close fadd faid fee fv gen gh grp lv lx nonpart note rcv rekey selkey snd sprfkey type
        votefst votekd votekey votelst xaid => Transaction.mk type
      ⟨snd, fee, fv, lv, gen, gh, grp, lx, note, rekey⟩
      ⟨rcv, amt, close⟩
      ⟨votekey, selkey, sprfkey, votefst, votelst, votekd, nonpart⟩
      ⟨caid, apar⟩
      ⟨xaid, aamt, asnd, arcv, aclose⟩
      ⟨faid, fadd, afrz⟩
      ⟨apid, apan, apaa, apat, apfa, apas, apbx, apap, apsu, apgs, apls, apep⟩)
    (optional "aamt" .uint64 (·.assetTransfer.amount) 0 <|
    optional "aclose" Address.schema (·.assetTransfer.closeTo) .zero <|
    optional "afrz" .bool (·.assetFreeze.frozen) false <|
    optional "amt" .uint64 (·.payment.amount) 0 <|
    optional "apaa" (.list .bytes) (·.appCall.args) [] <|
    optional "apan" OnCompletion.schema (·.appCall.onCompletion) .noOp <|
    optional "apap" .bytes (·.appCall.approvalProgram) [] <|
    optional "apar" AssetParams.schema (·.assetConfig.params) {} <|
    optional "apas" (.list .uint64) (·.appCall.foreignAssets) [] <|
    optional "apat" (.list Address.schema) (·.appCall.accounts) [] <|
    optional "apbx" (.list BoxReference.schema) (·.appCall.boxes) [] <|
    optional "apep" .uint32 (·.appCall.extraPages) 0 <|
    optional "apfa" (.list .uint64) (·.appCall.foreignApps) [] <|
    optional "apgs" StateLimits.schema (·.appCall.globalState) {} <|
    optional "apid" .uint64 (·.appCall.app) 0 <|
    optional "apls" StateLimits.schema (·.appCall.localState) {} <|
    optional "apsu" .bytes (·.appCall.clearProgram) [] <|
    optional "arcv" Address.schema (·.assetTransfer.receiver) .zero <|
    optional "asnd" Address.schema (·.assetTransfer.source) .zero <|
    optional "caid" .uint64 (·.assetConfig.asset) 0 <|
    optional "close" Address.schema (·.payment.closeTo) .zero <|
    optional "fadd" Address.schema (·.assetFreeze.account) .zero <|
    optional "faid" .uint64 (·.assetFreeze.asset) 0 <|
    optional "fee" .uint64 (·.header.fee) 0 <|
    optional "fv" .uint64 (·.header.firstValid) 0 <|
    optional "gen" .text (·.header.genesisId) "" <|
    optional "gh" Digest.schema (·.header.genesisHash) .zero <|
    optional "grp" Digest.schema (·.header.group) .zero <|
    optional "lv" .uint64 (·.header.lastValid) 0 <|
    optional "lx" Digest.schema (·.header.lease) .zero <|
    optional "nonpart" .bool (·.keyRegistration.nonParticipation) false <|
    optional "note" .bytes (·.header.note) [] <|
    optional "rcv" Address.schema (·.payment.receiver) .zero <|
    optional "rekey" Address.schema (·.header.rekeyTo) .zero <|
    optional "selkey" .bytes (·.keyRegistration.selectionKey) [] <|
    optional "snd" Address.schema (·.header.sender) .zero <|
    optional "sprfkey" .bytes (·.keyRegistration.stateProofKey) [] <|
    kept "type" TxnKind.schema (·.kind) .payment <|
    optional "votefst" .uint64 (·.keyRegistration.voteFirst) 0 <|
    optional "votekd" .uint64 (·.keyRegistration.voteKeyDilution) 0 <|
    optional "votekey" .bytes (·.keyRegistration.voteKey) [] <|
    optional "votelst" .uint64 (·.keyRegistration.voteLast) 0 <|
    optional "xaid" .uint64 (·.assetTransfer.asset) 0 .nil)

inductive TransactionError where
  /-- The last valid round lies before the first. -/
  | window (first last : UInt64)
  /-- The fee does not fit 64 bits. -/
  | feeOverflow
  /-- A box of an application that is neither the called one nor a foreign one of the call. -/
  | unknownBoxApp (app : UInt64)
  | unknownKind (name : String)
  | encoding (error : EncodingError)
  | key (error : KeyError)
deriving DecidableEq, Repr

def TransactionError.message : TransactionError → String
  | window first last => "Invalid transaction: last valid round " ++ Decimal.text last.toNat
      ++ " is before first valid round " ++ Decimal.text first.toNat
  | feeOverflow => "Invalid transaction: fee overflows u64"
  | unknownBoxApp app =>
    "the app id " ++ Decimal.text app.toNat ++ " provided for this box is not in the foreignApps array"
  | unknownKind name => "Unknown transaction type: " ++ name
  | encoding error => "Encoding error: " ++ error.message
  | key error => "Key error: " ++ error.message

def TxnKind.ofName (name : String) : Except TransactionError TxnKind :=
  match ofName? name with
  | some kind => .ok kind
  | none => .error (.unknownKind name)

namespace Transaction

def encode (t : Transaction) : Bytes := schema.encode t

def decode (bs : Bytes) : Except TransactionError Transaction :=
  (schema.decode bs).mapError .encoding

def toJson (t : Transaction) : String := schema.toJson t

def ofJson (text : String) : Except TransactionError Transaction :=
  (schema.ofJson text).mapError .encoding

/-- The octets that a signature covers. -/
def bytesToSign (t : Transaction) : Bytes := Domain.transaction.tagged t.encode

def id (t : Transaction) : Digest := Domain.transaction.digest t.encode

def idText (t : Transaction) : String := Base32.encode t.id.bytes

def jsonOfMsgpack (bs : Bytes) : Except TransactionError String := return (← decode bs).toJson

def msgpackOfJson (text : String) : Except TransactionError Bytes := return (← ofJson text).encode

end Transaction

end AtomicGroup
