import AtomicGroup.Multisig.Envelope

/-!
# Programs and logic signatures

A program is a byte string; its hash is the address that it controls by itself. Printable octets alone are
no program but something passed by mistake. A program with its arguments stands for its own address, or for the
account that delegated to it: a key that signed the program, or a multisig account whose members did.
-/
namespace AtomicGroup

inductive LogicSigError where
  | emptyProgram
  | programIsAddress
  | programIsBase64
  | printableProgram
  | missingMultisig
  | keyNotInMultisig (key : Address)
  | invalidSignature
  | tooManySignatures
  | noSigningKey
  | multisig (error : MultisigError)
  | transaction (error : TransactionError)
  | key (error : KeyError)
  | json
deriving DecidableEq, Repr

def LogicSigError.message : LogicSigError → String
  | emptyProgram => "empty program"
  | programIsAddress => "requesting program verification with an address instead of bytecode"
  | programIsBase64 => "program should not be base64 encoded"
  | printableProgram =>
    "program bytes are all ASCII printable characters, not looking like TEAL byte code"
  | missingMultisig => "empty multisig in logicsig"
  | keyNotInMultisig signer => "signer " ++ signer.text ++ " is not a member of the logicsig multisig"
  | invalidSignature => "invalid signature provided"
  | tooManySignatures => "logicsig carries both a signature and a multisig"
  | noSigningKey => "delegated logicsig has no signing key"
  | multisig error => "Multisig error: " ++ error.message
  | transaction error => "Transaction error: " ++ error.message
  | key error => "Crypto error: " ++ error.message
  | json => "JSON error: " ++ "not a logic signature account"

namespace Program

def isPrintable (b : UInt8) : Bool := 0x20 ≤ b && b ≤ 0x7e

/-- Whether a byte string may be a program. -/
def check (program : Bytes) : Except LogicSigError Unit :=
  if program = [] then .error .emptyProgram
  else if !program.all isPrintable then .ok ()
  else
    let chars := program.map fun b => Char.ofNat b.toNat
    if Address.isText (String.ofList chars) then .error .programIsAddress
    else if (Base64.decodeChars? chars).isSome then .error .programIsBase64
    else .error .printableProgram

/-- The octets that a delegating key signs. -/
def bytesToSign (program : Bytes) : Bytes := Domain.program.tagged program

def address (program : Bytes) : Address := .ofDigest (Domain.program.digest program)

end Program

structure LogicSig where
  args : List Bytes := []
  program : Bytes := []
  msig : Option MultisigEnvelope := none
  sig : Option Signature := none
deriving DecidableEq, Repr

namespace LogicSig

def schema : Wire.Schema LogicSig :=
  .record true LogicSig.mk
    (.optional "arg" (.list .bytes) (·.args) [] <|
    .optional "l" .bytes (·.program) [] <|
    .optional "msig" (.option MultisigEnvelope.schema) (·.msig) none <|
    .optional "sig" (.option Signature.schema) (·.sig) none .nil)

/-- Whether a logic signature may act for an address. -/
def verify (l : LogicSig) (address : Address) : Except LogicSigError Unit := do
  Program.check l.program
  match l.sig, l.msig with
  | some _, some _ => throw .tooManySignatures
  | some sig, none =>
    (sig.verify address (Program.bytesToSign l.program)).mapError fun _ => .invalidSignature
  | none, some msig =>
    let account ← msig.account.mapError .multisig
    if account.address ≠ address then throw .invalidSignature
    (msig.verify (Program.bytesToSign l.program)).mapError .multisig
  | none, none => if Program.address l.program ≠ address then throw .invalidSignature

end LogicSig

end AtomicGroup
