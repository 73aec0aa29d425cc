import AtomicGroup.Json.Format
import AtomicGroup.Json.Basic
import AtomicGroup.Json.Reader
import AtomicGroup.Msgpack.Format
import AtomicGroup.Wire.Schema

/-!
# The two forms of a record

Msgpack is what is hashed, signed and sent; JSON carries the same record as text.
-/
namespace AtomicGroup

inductive EncodingError where
  /-- The octets are not the record in msgpack. -/
  | decode
  /-- The text is not the record in JSON. -/
  | json
deriving DecidableEq, Repr

def EncodingError.message : EncodingError → String
  | decode => "Decode error: not a record of this kind"
  | json => "JSON error: not a record of this kind"

namespace Wire.Schema

variable {α : Type}

def encode (schema : Schema α) (x : α) : Bytes := Msgpack.Value.encode (schema.write x)

def decode (schema : Schema α) (bs : Bytes) : Except EncodingError α :=
  match (Msgpack.decode? bs).bind schema.read? with
  | some x => .ok x
  | none => .error .decode

def toJson (schema : Schema α) (x : α) : String := Json.compact (schema.write x)

def ofJson (schema : Schema α) (text : String) : Except EncodingError α :=
  match (Json.parse? text).bind schema.read? with
  | some x => .ok x
  | none => .error .json

end Wire.Schema

end AtomicGroup
