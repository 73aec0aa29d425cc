import AtomicGroup.Bytes

/-!
# Msgpack values and their canonical octets

`Value` is a tree of msgpack, kept apart from the width of its headers. `Value.encode` writes every
number and every header in its shortest form.
-/
namespace AtomicGroup.Msgpack

/-- A msgpack value. Text is kept as octets, since it need not be well-formed. -/
inductive Value where
  | nil
  | bool (b : Bool)
  /-- An integer of the formats without a sign. -/
  | nat (n : Nat)
  /-- An integer of the formats in two's complement. -/
  | int (n : Int)
  | str (raw : Bytes)
  | bin (raw : Bytes)
  | array (items : List Value)
  | map (entries : List (Value × Value))
  /-- A floating-point number or an extension, as its octets. -/
  | foreign (raw : Bytes)
deriving Inhabited, Repr, BEq

def Value.ofInt : Int → Value
  | .ofNat n => .nat n
  | .negSucc n => .int (.negSucc n)

/-- The shortest octets of a number below `2⁶⁴`. -/
def encodeNat (n : Nat) : Bytes :=
  if n < 0x80 then [UInt8.ofNat n]
  else if n < 0x100 then 0xcc :: bigEndian 1 n
  else if n < 0x10000 then 0xcd :: bigEndian 2 n
  else if n < 0x100000000 then 0xce :: bigEndian 4 n
  else 0xcf :: bigEndian 8 n

/-- The shortest octets of an integer between `-2⁶³` and `2⁶⁴ - 1`. -/
def encodeInt (n : Int) : Bytes :=
  match n with
  | .ofNat n => encodeNat n
  | .negSucc n =>
    if n < 0x20 then [UInt8.ofNat (0xff - n)]
    else if n < 0x80 then 0xd0 :: bigEndian 1 (0xff - n)
    else if n < 0x8000 then 0xd1 :: bigEndian 2 (0xffff - n)
    else if n < 0x80000000 then 0xd2 :: bigEndian 4 (0xffffffff - n)
    else 0xd3 :: bigEndian 8 (0xffffffffffffffff - n)

/-- The shortest header of a text of `n` octets. -/
def strHeader (n : Nat) : Bytes :=
  if n < 0x20 then [UInt8.ofNat (0xa0 + n)]
  else if n < 0x100 then 0xd9 :: bigEndian 1 n
  else if n < 0x10000 then 0xda :: bigEndian 2 n
  else 0xdb :: bigEndian 4 n

def binHeader (n : Nat) : Bytes :=
  if n < 0x100 then 0xc4 :: bigEndian 1 n
  else if n < 0x10000 then 0xc5 :: bigEndian 2 n
  else 0xc6 :: bigEndian 4 n

def arrayHeader (n : Nat) : Bytes :=
  if n < 0x10 then [UInt8.ofNat (0x90 + n)]
  else if n < 0x10000 then 0xdc :: bigEndian 2 n
  else 0xdd :: bigEndian 4 n

def mapHeader (n : Nat) : Bytes :=
  if n < 0x10 then [UInt8.ofNat (0x80 + n)]
  else if n < 0x10000 then 0xde :: bigEndian 2 n
  else 0xdf :: bigEndian 4 n

mutual

def Value.encode : Value → Bytes
  | .nil => [0xc0]
  | .bool false => [0xc2]
  | .bool true => [0xc3]
  | .nat n => encodeNat n
  | .int n => encodeInt n
  | .str raw => strHeader raw.length ++ raw
  | .bin raw => binHeader raw.length ++ raw
  | .array items => arrayHeader items.length ++ encodeItems items
  | .map entries => mapHeader entries.length ++ encodeEntries entries
  | .foreign raw => raw

def encodeItems : List Value → Bytes
  | [] => []
  | v :: vs => v.encode ++ encodeItems vs

def encodeEntries : List (Value × Value) → Bytes
  | [] => []
  | (k, v) :: es => k.encode ++ v.encode ++ encodeEntries es

end

end AtomicGroup.Msgpack
