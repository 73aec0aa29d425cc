import AtomicGroup.Abi.Codec
import AtomicGroup.Json.Reader

/-!
# Values as JSON

Numbers are JSON numbers of any size, decimals with all their places, addresses their texts and byte strings
base 64 text. Other arrays and tuples are JSON arrays. A decimal with `precision` places is kept as its number scaled
by ten to that power: printing shows all places, and reading takes fewer and refuses more.
-/
namespace AtomicGroup.Abi

open AtomicGroup (Json)

namespace Fixed

/-- The numbers that a decimal may be scaled to lie below this bound. -/
def bound : Nat := 1 <<< 512

/-- The digits of a text before and after its first point. -/
def splitPoint (text : List Char) : List Char × List Char :=
  (text.takeWhile (· != '.'), (text.dropWhile (· != '.')).drop 1)

/-- The scaled number that a numeral writes. -/
def parse? (precision : Nat) (text : List Char) : Option Nat :=
  let (whole, fraction) := splitPoint text
  if whole ≠ [] ∧ whole.all Decimal.isDigit ∧ fraction.all Decimal.isDigit ∧ fraction.length ≤ precision then
    let raw := Decimal.ofDigits (whole ++ fraction ++ List.replicate (precision - fraction.length) '0')
    if raw < bound then some raw else none
  else
    none

/-- The numeral of a scaled number, with all its places. -/
def format (precision raw : Nat) : List Char :=
  let digits := Decimal.digits raw
  let padded := List.replicate (precision + 1 - digits.length) '0' ++ digits
  let whole := padded.length - precision
  padded.take whole ++ '.' :: padded.drop whole

end Fixed

def checkRange (t : Ty) (bits n : Nat) : Except Error Value :=
  if n < 1 <<< bits then .ok (.uint n) else .error (.outOfRange t n)

def readNat? (text : String) : Option Nat := (Decimal.read? text.toList).filter (· < Fixed.bound)

def readOctet? (json : Json) : Option UInt8 :=
  match json with
  | .number text =>
    ((Decimal.readCanonical? text.toList).filter (· < 256)).map UInt8.ofNat
  | _ => none

def readBase64 (t : Ty) (text : String) : Except Error Value :=
  match Base64.decode? text with
  | some bs => .ok (.bytes bs)
  | none => .error (.invalidJson t .base64)

def jsonItems (t : Ty) (json : Json) : Except Error (List Json) :=
  match json with
  | .array items => .ok items
  | _ => .error (.invalidJson t .array)

/-- The value of an array type: a base 64 string for octets, or else a JSON array. -/
def readArray (t elem : Ty) (json : Json) (read : Json → Except Error Value) : Except Error Value :=
  match json with
  | .string text => if elem = .byte then readBase64 t text else .error (.invalidJson t .array)
  | _ => do return .array (← (← jsonItems t json).mapM read)

mutual

def Ty.ofJsonValue : Ty → Json → Except Error Value
  | .uint bits, json =>
    match json with
    | .number text =>
      match readNat? text with
      | some n => checkRange (.uint bits) bits n
      | none => .error (.invalidJson (.uint bits) .integer)
    | _ => .error (.invalidJson (.uint bits) .number)
  | .ufixed bits precision, json =>
    match json with
    | .number text =>
      match Fixed.parse? precision text.toList with
      | some n => checkRange (.ufixed bits precision) bits n
      | none => .error (.invalidJson (.ufixed bits precision) .decimal)
    | _ => .error (.invalidJson (.ufixed bits precision) .number)
  | .byte, json =>
    match readOctet? json with
    | some b => .ok (.byte b)
    | none => .error (.invalidJson .byte .octet)
  | .bool, json =>
    match json with
    | .bool b => .ok (.bool b)
    | _ => .error (.invalidJson .bool .bool)
  | .address, json =>
    match json with
    | .string text => do return .address (← (Address.ofText text).mapError .address)
    | _ => .error (.invalidJson .address .address)
  | .string, json =>
    match json with
    | .string s => .ok (.string s)
    | _ => .error (.invalidJson .string .string)
  | .array elem length, json => do
    let v ← readArray (.array elem length) elem json elem.ofJsonValue
    expectLength (.array elem length) length (v.items?.getD []).length
    return v
  | .list elem, json => readArray (.list elem) elem json elem.ofJsonValue
  | .tuple members, json => do
    let items ← jsonItems (.tuple members) json
    expectLength (.tuple members) members.length items.length
    return .tuple (← membersOfJson members items)

def membersOfJson : List Ty → List Json → Except Error (List Value)
  | t :: ts, json :: rest => do
    let v ← t.ofJsonValue json
    return v :: (← membersOfJson ts rest)
  | _, _ => .ok []

end

mutual

def Ty.toJsonValue : Ty → Value → Except Error Json
  | .uint bits, v =>
    match v with
    | .uint n => .ok (.number (Decimal.text n))
    | _ => .error (.typeMismatch (.uint bits) v.kind)
  | .ufixed bits precision, v =>
    match v with
    | .uint n => .ok (.number (String.ofList (Fixed.format precision n)))
    | _ => .error (.typeMismatch (.ufixed bits precision) v.kind)
  | .byte, v =>
    match v with
    | .byte b => .ok (.number (Decimal.text b.toNat))
    | _ => .error (.typeMismatch .byte v.kind)
  | .bool, v =>
    match v with
    | .bool b => .ok (.bool b)
    | _ => .error (.typeMismatch .bool v.kind)
  | .address, v =>
    match v.address? with
    | some a => .ok (.string a.text)
    | none => .error (.typeMismatch .address v.kind)
  | .string, v =>
    match v with
    | .string s => .ok (.string s)
    | _ => .error (.typeMismatch .string v.kind)
  | .array elem length, v =>
    if elem = .byte then octetsToJson (.array elem length) v
    else do return .array (← (← itemsOf (.array elem length) v).mapM elem.toJsonValue)
  | .list elem, v =>
    if elem = .byte then octetsToJson (.list elem) v
    else do return .array (← (← itemsOf (.list elem) v).mapM elem.toJsonValue)
  | .tuple members, v => do
    let items ← itemsOf (.tuple members) v
    if items.length ≠ members.length then throw (.typeMismatch (.tuple members) v.kind)
    return .array (← membersToJson members items)

def membersToJson : List Ty → List Value → Except Error (List Json)
  | t :: ts, v :: vs => do
    let json ← t.toJsonValue v
    return json :: (← membersToJson ts vs)
  | _, _ => .ok []

/-- The base 64 string of a byte string. -/
def octetsToJson (t : Ty) (v : Value) : Except Error Json :=
  match v.bytes? with
  | some bs => .ok (.string (Base64.encode bs))
  | none => .error (.typeMismatch t v.kind)

end

namespace Ty

def ofJson (t : Ty) (text : String) : Except Error Value :=
  match Json.parsePlain? text with
  | some json => t.ofJsonValue json
  | none => .error .json

def toJson (t : Ty) (v : Value) : Except Error String := return (← t.toJsonValue v).compact

def encodeJson (t : Ty) (text : String) : Except Error Bytes := do t.encode (← t.ofJson text)

def decodeJson (t : Ty) (bs : Bytes) : Except Error String := do t.toJson (← t.decode bs)

end Ty

end AtomicGroup.Abi
