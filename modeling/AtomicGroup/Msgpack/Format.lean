import AtomicGroup.Msgpack.Reader
import AtomicGroup.Bytes
import AtomicGroup.Wire.Format

/-!
# Msgpack as a data format

Writing is canonical. Reading is lenient where the meaning is plain: text may come as a byte string and a
byte string as text or as a list of numbers, a byte string may stand for the list of its octets, and a record
may come as a list of its fields or name a field by its number, which has no sign.
-/
namespace AtomicGroup.Msgpack

namespace Value

def int? : Value → Option Int
  | .nat n => some n
  | .int n => some n
  | _ => none

def bool? : Value → Option Bool
  | .bool b => some b
  | _ => none

def text? : Value → Option String
  | .str raw => Utf8.decode? raw
  | .bin raw => Utf8.decode? raw
  | _ => none

def octet? (v : Value) : Option UInt8 := do
  let n ← v.int?
  if 0 ≤ n ∧ n < 256 then return UInt8.ofNat n.toNat else none

def bytes? : Value → Option Bytes
  | .bin raw => some raw
  | .str raw => some raw
  | .array items => items.mapM octet?
  | _ => none

/-- The byte string of `n` octets of a tree. Well-formed text is not taken for octets here. -/
def block? (n : Nat) : Value → Option (Block n)
  | .bin raw => Block.ofBytes? n raw
  | .str raw => if (Utf8.decode? raw).isNone then Block.ofBytes? n raw else none
  | .array items => (items.mapM octet?).bind (Block.ofBytes? n)
  | _ => none

def list? : Value → Option (List Value)
  | .array items => some items
  | .bin raw => some (raw.map fun b => .nat b.toNat)
  | _ => none

/-- The key of a map entry: the text, or the number of a declared key. The inner option is empty when the
key is no declared one. -/
def key? (keys : List String) : Value → Option (Option String)
  | .str raw => some (Utf8.decode? raw)
  | .bin raw => some (Utf8.decode? raw)
  | .nat n => some keys[n]?
  | _ => none

/-- The fields of a record. A byte string that is longer than the record fills it all the same. -/
def fields? (strict : Bool) (keys : List String) : Value → Option (List (String × Value))
  | .map entries => do
    Wire.selectFields strict keys (← entries.mapM fun (k, v) => return (← k.key? keys, v))
  | .array items => Wire.positionalFields keys items
  | .bin raw => some (keys.zip (raw.map fun b => .nat b.toNat))
  | _ => none

end Value

instance : Wire.Format Value where
  null := .nil
  ofInt := .ofInt
  ofBool := .bool
  ofText s := .str (Utf8.encode s)
  ofBytes := .bin
  ofList := .array
  ofRecord fields := .map (fields.map fun (key, v) => (.str (Utf8.encode key), v))
  isNull
    | .nil => true
    | _ => false
  int? := Value.int?
  bool? := Value.bool?
  text? := Value.text?
  bytes? := Value.bytes?
  block? := Value.block?
  list? := Value.list?
  fields? := Value.fields?

end AtomicGroup.Msgpack
