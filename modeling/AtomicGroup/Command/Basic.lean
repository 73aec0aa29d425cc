import AtomicGroup.Command.Arguments
import AtomicGroup.Command.Report

/-!
# Commands

A command line as a value: what it asks for, which file it reads, and the text it prints when it is given the
contents of that file. Reading files, random octets and printing are left to the program around it.
-/
namespace AtomicGroup

inductive Command where
  | keygen
  | multisigAddress (version threshold : UInt8) (addresses : List String)
  | groupAssign (file : String)
  | groupVerify (file : String)
  | groupFind (file : String)
  | abiEncode (type value : String)
  | abiDecode (type hex : String)
  | abiMethod (signature : String)
  | multisigMerge (first second : String)
  | pay (sender receiver : String) (amount : UInt64) (note file : Option String)
  | showTransaction (input : String)
deriving DecidableEq, Repr

namespace Command

def usage : String := Report.ofLines [
  "keygen",
  "msig-address [--version N] --threshold N ADDRESS...",
  "group assign|verify|find --input FILE",
  "abi encode --type TYPE --value JSON",
  "abi decode --type TYPE --hex HEX",
  "abi method --signature SIGNATURE",
  "msig merge FIRST SECOND",
  "txn pay --from ADDRESS --to ADDRESS --amount N [--note TEXT] [--params FILE]",
  "txn show --input BASE64"]

/-- The only option of a command and its value. -/
def onlyOption (option : OptionName) (words : List String) : Except UsageError String := do
  let a ← Arguments.ofWords [option] words
  a.noOperands
  a.value option.long

/-- The option that names a file or holds a transaction. -/
def input : OptionName := ⟨"input", some 'i'⟩

def ofAccountWords (words : List String) : Except UsageError Command := do
  let a ← Arguments.ofWords [⟨"version", none⟩, ⟨"threshold", none⟩] words
  let version ← Arguments.number "version" 256 ((a.value? "version").getD "1")
  let threshold ← Arguments.number "threshold" 256 (← a.value "threshold")
  if a.operands.isEmpty then throw (.missing "ADDRESS")
  return .multisigAddress version.toUInt8 threshold.toUInt8 a.operands

/-- The command with the words of a codec: a type and one other option. -/
def ofCodecWords (option : OptionName) (command : (type text : String) → Command) (words : List String) :
    Except UsageError Command := do
  let a ← Arguments.ofWords [⟨"type", some 't'⟩, option] words
  a.noOperands
  return command (← a.value "type") (← a.value option.long)

def ofPaymentWords (words : List String) : Except UsageError Command := do
  let a ← Arguments.ofWords
    [⟨"from", some 'f'⟩, ⟨"to", some 't'⟩, ⟨"amount", some 'a'⟩, ⟨"note", some 'n'⟩, ⟨"params", some 'p'⟩] words
  a.noOperands
  let amount ← Arguments.number "amount" UInt64.size (← a.value "amount")
  return .pay (← a.value "from") (← a.value "to") amount.toUInt64 (a.value? "note") (a.value? "params")

def ofMergeWords (words : List String) : Except UsageError Command := do
  match (← Arguments.ofWords [] words).operands with
  | [] => throw (.missing "FIRST")
  | [_] => throw (.missing "SECOND")
  | [first, second] => return .multisigMerge first second
  | _ :: _ :: word :: _ => throw (.unexpected word)

def ofWords : List String → Except UsageError Command
  | "keygen" :: words => do
    (← Arguments.ofWords [] words).noOperands
    return .keygen
  | "msig-address" :: words => ofAccountWords words
  | "group" :: "assign" :: words => .groupAssign <$> onlyOption input words
  | "group" :: "verify" :: words => .groupVerify <$> onlyOption input words
  | "group" :: "find" :: words => .groupFind <$> onlyOption input words
  | "abi" :: "encode" :: words => ofCodecWords ⟨"value", some 'v'⟩ .abiEncode words
  | "abi" :: "decode" :: words => ofCodecWords ⟨"hex", none⟩ .abiDecode words
  | "abi" :: "method" :: words => .abiMethod <$> onlyOption ⟨"signature", some 's'⟩ words
  | "msig" :: "merge" :: words => ofMergeWords words
  | "txn" :: "pay" :: words => ofPaymentWords words
  | "txn" :: "show" :: words => .showTransaction <$> onlyOption input words
  | _ => .error .unknownCommand

def file? (settings : Settings) : Command → Option String
  | groupAssign file => some file
  | groupVerify file => some file
  | groupFind file => some file
  | pay _ _ _ _ file => some (file.getD settings.paramsFile)
  | _ => none

/-- The text that a command prints, given the contents of the file it reads and the seed of a new key. -/
def report (contents : Option String) (seed : Block 32) : Command → Except CommandError String
  | keygen => .ok (Report.newKey ⟨seed⟩)
  | multisigAddress version threshold addresses => Report.multisigAddress version threshold addresses
  | groupAssign _ => Report.groupAssign contents
  | groupVerify _ => Report.groupVerify contents
  | groupFind _ => Report.groupFind contents
  | abiEncode type value => Report.abiEncode type value
  | abiDecode type hex => Report.abiDecode type hex
  | abiMethod signature => Report.abiMethod signature
  | multisigMerge first second => Report.multisigMerge first second
  | pay sender receiver amount note _ => Report.pay sender receiver amount note contents
  | showTransaction input => Report.showTransaction input

end Command

end AtomicGroup
