import AtomicGroup.Abi.Ty.Parser
import AtomicGroup.Txn.Schema

/-!
# Methods of a contract

A method is known by its signature, whose hash gives the selector that a call begins with. Its arguments are values,
references to entries of the call's lists, or transactions that stand before the call.
-/
namespace AtomicGroup.Abi

inductive Reference where
  | account
  | asset
  | application
deriving DecidableEq, Repr

def Reference.all : List Reference := [account, asset, application]

def Reference.name : Reference → String
  | account => "account"
  | asset => "asset"
  | application => "application"

/-- The type in which a caller gives what is referred to. -/
def Reference.valueType : Reference → Ty
  | account => .address
  | asset => .uint 64
  | application => .uint 64

/-- What fills the place of an argument. -/
inductive ArgKind where
  | value (t : Ty)
  /-- The position of something in a list of the call. -/
  | reference (r : Reference)
  /-- A transaction before the call, of a given kind or of any. -/
  | transaction (kind : Option TxnKind)
deriving DecidableEq, Repr

namespace ArgKind

def isTransaction : ArgKind → Bool
  | transaction _ => true
  | _ => false

def isReference : ArgKind → Bool
  | reference _ => true
  | _ => false

def parse (text : String) : Except Error ArgKind :=
  if text = "txn" then .ok (.transaction none)
  else
    match TxnKind.ofName? text with
    | some kind => .ok (.transaction (some kind))
    | none =>
      match Reference.all.find? (·.name == text) with
      | some r => .ok (.reference r)
      | none => return .value (← Ty.parse text)

end ArgKind

structure MethodArg where
  name : Option String := none
  type : String
  desc : Option String := none
deriving DecidableEq, Repr

structure MethodReturn where
  type : String := "void"
  desc : Option String := none
deriving DecidableEq, Repr

structure Method where
  name : String
  desc : Option String := none
  args : List MethodArg := []
  returns : MethodReturn := {}
deriving DecidableEq, Repr

def MethodArg.schema : Wire.Schema MethodArg :=
  .record false MethodArg.mk
    (.optional "name" (.option .text) (·.name) none <|
    .required "type" .text (·.type) <|
    .optional "desc" (.option .text) (·.desc) none .nil)

def MethodReturn.schema : Wire.Schema MethodReturn :=
  .record false MethodReturn.mk
    (.required "type" .text (·.type) <|
    .optional "desc" (.option .text) (·.desc) none .nil)

def Method.schema : Wire.Schema Method :=
  .record false Method.mk
    (.required "name" .text (·.name) <|
    .optional "desc" (.option .text) (·.desc) none <|
    .kept "args" (.list MethodArg.schema) (·.args) [] <|
    .kept "returns" MethodReturn.schema (·.returns) {} .nil)

def MethodArg.kind (a : MethodArg) : Except Error ArgKind := ArgKind.parse a.type

/-- The type of a result, or none when there is no result. -/
def MethodReturn.valueType (r : MethodReturn) : Except Error (Option Ty) :=
  if r.type = "void" then .ok none else return some (← Ty.parse r.type)

namespace Method

def selectorLength : Nat := 4

def argKinds (m : Method) : Except Error (List ArgKind) := m.args.mapM (·.kind)

/-- Checks that every type name names something. -/
def validate (m : Method) : Except Error Unit := do
  let _ ← m.argKinds
  let _ ← m.returns.valueType

def signatureChars (m : Method) : List Char :=
  m.name.toList ++ '(' :: (List.intercalate [','] (m.args.map (·.type.toList)) ++ ')' :: m.returns.type.toList)

def signature (m : Method) : String := String.ofList m.signatureChars

/-- The octets that a call of the method begins with. -/
def selector (m : Method) : Bytes :=
  (Sha512.digest256 (Utf8.encode m.signature)).take selectorLength

/-- The number of transactions that a call takes: the transaction arguments and the call. -/
def txnCount (m : Method) : Nat :=
  1 + m.args.countP fun a =>
    match a.kind with
    | .ok kind => kind.isTransaction
    | .error _ => false

/-- The name, the argument types and the result type of a signature. -/
def splitSignature (text : List Char) : Except MethodFault (List Char × List (List Char) × List Char) :=
  match splitFirst? '(' text with
  | none => .error .noOpenParenthesis
  | some (name, rest) =>
    if name = [] then .error .noName
    else
      match splitClosing 0 rest with
      | none => .error .unbalanced
      | some (inside, returns) =>
        match splitTopLevel inside with
        | none => .error .arguments
        | some args => if returns = [] then .error .noReturnType else .ok (name, args, returns)

/-- The method of a signature, with its types checked. -/
def ofSignature (text : String) : Except Error Method := do
  let (name, args, returns) ← (splitSignature text.toList).mapError fun fault => .invalidMethod fault text
  let m : Method := {
    name := String.ofList name
    args := args.map fun t => { type := String.ofList t }
    returns := { type := String.ofList returns } }
  m.validate
  return m

/-- The method that a JSON text writes, with its types unchecked. -/
def readJson (text : String) : Except Error Method := (schema.ofJson text).mapError fun _ => .json

def ofJson (text : String) : Except Error Method := do
  let m ← readJson text
  m.validate
  return m

def toJson (m : Method) : String := schema.toJson m

end Method

end AtomicGroup.Abi
