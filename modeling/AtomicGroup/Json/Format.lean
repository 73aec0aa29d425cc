import AtomicGroup.Json.Basic
import AtomicGroup.Text.Bases
import AtomicGroup.Text.Numerals
import AtomicGroup.Wire.Format

/-!
# JSON as a data format

Byte strings stand as base 64 text and integers as plain numerals. A record may come as a list of its fields.
-/
namespace AtomicGroup.Json

def intText : Int → String
  | .ofNat n => Decimal.text n
  | .negSucc n => "-" ++ Decimal.text (n + 1)

/-- The integer that a number's text writes; neither minus zero nor a fraction nor an exponent is one. -/
def ofIntText? (text : String) : Option Int :=
  match text.toList with
  | '-' :: digits =>
    match Decimal.readCanonical? digits with
    | some (n + 1) => some (.negSucc n)
    | _ => none
  | digits => (Decimal.readCanonical? digits).map Int.ofNat

def int? : Json → Option Int
  | .number text => ofIntText? text
  | _ => none

def bool? : Json → Option Bool
  | .bool b => some b
  | _ => none

def text? : Json → Option String
  | .string s => some s
  | _ => none

def bytes? (value : Json) : Option Bytes := value.text?.bind Base64.decode?

def list? : Json → Option (List Json)
  | .array items => some items
  | _ => none

def fields? (strict : Bool) (keys : List String) : Json → Option (List (String × Json))
  | .object members => Wire.selectFields strict keys (members.map fun (key, value) => (some key, value))
  | value => do Wire.positionalFields keys (← value.list?)

instance : Wire.Format Json where
  null := .null
  ofInt n := .number (intText n)
  ofBool := .bool
  ofText := .string
  ofBytes bs := .string (Base64.encode bs)
  ofList := .array
  ofRecord := .object
  isNull
    | .null => true
    | _ => false
  int? := int?
  bool? := bool?
  text? := text?
  bytes? := bytes?
  block? n value := value.bytes?.bind (Block.ofBytes? n)
  list? := list?
  fields? := fields?

end AtomicGroup.Json
