import AtomicGroup.Abi.Json
import AtomicGroup.Abi.Method
import AtomicGroup.Multisig.Signing
import AtomicGroup.Text.Lines
import AtomicGroup.Txn.Builder
import AtomicGroup.Txn.Group

/-!
# What the commands print

One function for each command, from its arguments and the contents of the file it reads, if any, to the text it
prints. Encoded transactions come and go as base 64 text; a file holds one on each line that is not blank.
-/
namespace AtomicGroup

inductive CommandError where
  /-- A line of a file, counted from 1, that is not base 64 text. -/
  | line (number : Nat) (fault : Base64.Fault)
  | noFile
  | base64 (fault : Base64.Fault)
  | hex
  | key (error : KeyError)
  | transaction (error : TransactionError)
  | group (error : GroupError)
  | multisig (error : MultisigError)
  | abi (error : Abi.Error)
  | config (error : ConfigError)
deriving DecidableEq, Repr

def CommandError.message : CommandError → String
  | line number fault => "line " ++ Decimal.text number ++ ": " ++ fault.message
  | noFile => "no such file"
  | base64 fault => fault.message
  | hex => "not hexadecimal text"
  | key error => error.message
  | transaction error => error.message
  | group error => error.message
  | multisig error => error.message
  | abi error => error.message
  | config error => error.message

/-- Where a command line finds what it is not told. -/
structure Settings where
  paramsFile : String := "suggested_params.json"
  logFilter : String := "info"
deriving DecidableEq, Repr

namespace Report

/-- Lines, each ended by a line feed. -/
def ofLines (lines : List String) : String := String.join (lines.map (· ++ "\n"))

/-- The byte strings on the lines that are not blank, the first line having a given number. -/
def decodeLines : (number : Nat) → List String → Except CommandError (List Bytes)
  | _, [] => .ok []
  | number, line :: rest =>
    let text := Lines.trim line
    if text = "" then decodeLines (number + 1) rest
    else
      match Base64.decode text with
      | .error fault => .error (.line number fault)
      | .ok bs => do return bs :: (← decodeLines (number + 1) rest)

def encodedLines (contents : Option String) : Except CommandError (List Bytes) :=
  match contents with
  | none => .error .noFile
  | some text => decodeLines 1 (Lines.lines text)

/-- The byte string of a text with blanks around it. -/
def encodedText (text : String) : Except CommandError Bytes :=
  (Base64.decode (Lines.trim text)).mapError .base64

def newKey (key : KeyPair) : String :=
  ofLines ["🔐 New key generated!", "   📍 Address: " ++ key.address.text,
    "   🔑 Private key: " ++ Base64.encode key.privateKey, "",
    "   ⚠️  IMPORTANT: Keep the private key secret."]

/-- A multisig account and its members. -/
def multisigAddress (version threshold : UInt8) (addresses : List String) : Except CommandError String := do
  let keys ← (addresses.mapM Address.ofText).mapError .key
  let account ← (MultisigAccount.make version threshold keys).mapError .multisig
  let members := account.keys.zipIdx.map fun (key, i) =>
    "   └─ [" ++ Decimal.text i ++ "] " ++ key.text
  return ofLines (["🔐 Multisig account", "   📍 Address: " ++ account.address.text,
    "   🔧 " ++ account.description] ++ members)

/-- The transactions of a file, stamped with their group id. -/
def groupAssign (contents : Option String) : Except CommandError String := do
  let stamped ← (Group.assignEncoded (← encodedLines contents)).mapError .group
  return ofLines (stamped.map Base64.encode)

/-- Whether the transactions of a file are one valid group. -/
def groupVerify (contents : Option String) : Except CommandError String := do
  let encoded ← encodedLines contents
  let valid ← (Group.verifyEncoded encoded).mapError .group
  let size := Decimal.text encoded.length
  return ofLines [
    if valid then "✅ Group of " ++ size ++ " transaction(s) is valid"
    else "❌ Group of " ++ size ++ " transaction(s) is NOT valid"]

/-- The groups that the transactions of a file fall into. -/
def groupFind (contents : Option String) : Except CommandError String := do
  let encoded ← encodedLines contents
  let numbers ← (Group.segmentEncoded encoded).mapError .group
  let rows := numbers.zipIdx.map fun (number, i) =>
    "   " ++ Decimal.text i ++ " -> group " ++ Decimal.text number
  return ofLines (("📋 " ++ Decimal.text encoded.length ++ " transaction(s):") :: rows)

def abiEncode (type value : String) : Except CommandError String := do
  let t ← (Abi.Ty.parse type).mapError .abi
  return ofLines [Hex.encode (← (t.encodeJson value).mapError .abi)]

/-- Hexadecimal digits without any marks in front. -/
def dropHexMarks : List Char → List Char
  | '0' :: 'x' :: rest => dropHexMarks rest
  | digits => digits

def abiDecode (type hex : String) : Except CommandError String := do
  let t ← (Abi.Ty.parse type).mapError .abi
  match Hex.decodeChars? (dropHexMarks hex.toList) with
  | none => throw .hex
  | some bs => return ofLines [← (t.decodeJson bs).mapError .abi]

def abiMethod (signature : String) : Except CommandError String := do
  let m ← (Abi.Method.ofSignature signature).mapError .abi
  return ofLines ["📜 Method " ++ m.signature, "   ├─ Selector: " ++ Hex.encode m.selector,
    "   ├─ Transactions: " ++ Decimal.text m.txnCount, "   └─ JSON: " ++ m.toJson]

def multisigMerge (first second : String) : Except CommandError String := do
  let a ← encodedText first
  let b ← encodedText second
  return ofLines [Base64.encode (← (SignedTxn.mergeEncoded a b).mapError .multisig)]

/-- An unsigned payment under the parameters of a file. -/
def pay (sender receiver : String) (amount : UInt64) (note : Option String) (contents : Option String) :
    Except CommandError String := do
  let file ← (ParamsFile.load contents).mapError .config
  let params ← file.toParams.mapError .config
  let sender ← (Address.ofText sender).mapError .key
  let receiver ← (Address.ofText receiver).mapError .key
  let draft := TxnDraft.payment sender receiver amount
  let draft := (note.map fun text => draft.withNote (Utf8.encode text)).getD draft
  let txn ← (draft.build params).mapError .transaction
  return ofLines [Base64.encode txn.encode]

def showTransaction (input : String) : Except CommandError String := do
  let txn ← (Transaction.decode (← encodedText input)).mapError .transaction
  return ofLines ["🧾 Transaction " ++ txn.idText, Json.pretty (Transaction.schema.write txn)]

end Report

end AtomicGroup
