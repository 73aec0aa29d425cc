import AtomicGroup.Abi.Layout
import AtomicGroup.Bytes

/-!
# Encoding and decoding values

Numbers have a fixed width and the most significant octet first. Arrays are tuples of one type; what has a length
of its own carries it in two octets in front. Decoding uses up its input exactly.
-/
namespace AtomicGroup.Abi

/-- The octets of a number of a given type, in `width` octets. -/
def encodeNat (t : Ty) (width n : Nat) : Except Error Bytes :=
  if n < 1 <<< (8 * width) then .ok (bigEndian width n) else .error (.outOfRange t n)

def encodeScalar (t : Ty) (width : Nat) (v : Value) : Except Error Bytes :=
  match v with
  | .uint n => encodeNat t width n
  | .byte b => encodeNat t width b.toNat
  | _ => .error (.typeMismatch t v.kind)

/-- The octet of a truth value that stands alone. -/
def boolOctet (b : Bool) : UInt8 := if b then 0x80 else 0

/-- Octets with a count in two octets before them. -/
def withLength (count : Nat) (body : Bytes) : Except Error Bytes := return (← encodeLength count) ++ body

/-- An encoded member of a tuple: a truth value becomes a bit. -/
def Ty.part (t : Ty) (encoded : Bytes) : Part :=
  if t = .bool then .bit (encoded = [boolOctet true])
  else if t.isDynamic then .tail encoded
  else .inline encoded

/-- The items of a value, of which there must be a given number. -/
def itemsOf (t : Ty) (v : Value) : Except Error (List Value) :=
  match v.items? with
  | some items => .ok items
  | none => .error (.typeMismatch t v.kind)

def expectLength (t : Ty) (expected got : Nat) : Except Error Unit :=
  if got = expected then .ok () else .error (.lengthMismatch t expected got)

mutual

def Ty.encode : Ty → Value → Except Error Bytes
  | .uint bits, v => encodeScalar (.uint bits) (bits / 8) v
  | .ufixed bits precision, v => encodeScalar (.ufixed bits precision) (bits / 8) v
  | .byte, v => encodeScalar .byte 1 v
  | .bool, v =>
    match v with
    | .bool b => .ok [boolOctet b]
    | _ => .error (.typeMismatch .bool v.kind)
  | .address, v =>
    match v.address? with
    | some a => .ok a.bytes
    | none => .error (.typeMismatch .address v.kind)
  | .string, v =>
    match v with
    | .string s => withLength (Utf8.encode s).length (Utf8.encode s)
    | _ => .error (.typeMismatch .string v.kind)
  | .array elem length, v => do
    let items ← itemsOf (.array elem length) v
    expectLength (.array elem length) length items.length
    layout (← items.mapM fun item => return elem.part (← elem.encode item))
  | .list elem, v => do
    let items ← itemsOf (.list elem) v
    withLength items.length (← layout (← items.mapM fun item => return elem.part (← elem.encode item)))
  | .tuple members, v => do
    let items ← itemsOf (.tuple members) v
    expectLength (.tuple members) members.length items.length
    layout (← encodeMembers members items)

def encodeMembers : List Ty → List Value → Except Error (List Part)
  | t :: ts, v :: vs => do
    let part := t.part (← t.encode v)
    return part :: (← encodeMembers ts vs)
  | _, _ => .ok []

end

/-- The number in the two octets at the front, and the rest. -/
def readLength (bs : Bytes) : Except Error (Nat × Bytes) :=
  match bs with
  | hi :: lo :: rest => .ok (ofBigEndian [hi, lo], rest)
  | _ => .error (.decode .noLength)

/-- The octets after their number, which must be exact. -/
def readSized (bs : Bytes) : Except Error Bytes := do
  let (count, body) ← readLength bs
  if body.length = count then return body else throw (.decode (.length count body.length))

/-- The value of an array's items; single octets become one byte string. -/
def arrayValue (elem : Ty) (items : List Value) : Value :=
  if elem = .byte then .bytes (items.filterMap Value.byte?) else .array items

def Ty.member (t : Ty) (read : Bytes → Except Error Value) : Member :=
  if t = .bool then .bit
  else if t.isDynamic then .tail read
  else .inline t.staticLength read

mutual

def Ty.decode : Ty → Bytes → Except Error Value
  | .uint bits, bs => do
    expectLength (.uint bits) (Ty.uint bits).staticLength bs.length
    return .uint (ofBigEndian bs)
  | .ufixed bits precision, bs => do
    expectLength (.ufixed bits precision) (Ty.ufixed bits precision).staticLength bs.length
    return .uint (ofBigEndian bs)
  | .byte, bs =>
    match bs with
    | [b] => .ok (.byte b)
    | _ => .error (.lengthMismatch .byte 1 bs.length)
  | .bool, bs =>
    match bs with
    | [b] =>
      if b = boolOctet true then .ok (.bool true)
      else if b = boolOctet false then .ok (.bool false)
      else .error (.decode (.boolOctet b))
    | _ => .error (.lengthMismatch .bool 1 bs.length)
  | .address, bs =>
    match Address.ofBytes bs with
    | .ok a => .ok (.address a)
    | .error _ => .error (.lengthMismatch .address 32 bs.length)
  | .string, bs => do
    match Utf8.decode? (← readSized bs) with
    | some s => return .string s
    | none => throw (.decode .utf8)
  | .array elem length, bs => do
    return arrayValue elem (← readMembers (List.replicate length (elem.member elem.decode)) bs)
  | .list elem, bs => do
    let (count, body) ← readLength bs
    return arrayValue elem (← readMembers (List.replicate count (elem.member elem.decode)) body)
  | .tuple members, bs => return .tuple (← readMembers (memberReaders members) bs)

def memberReaders : List Ty → List Member
  | [] => []
  | t :: ts => t.member t.decode :: memberReaders ts

end

end AtomicGroup.Abi
