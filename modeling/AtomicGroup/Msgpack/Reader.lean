import AtomicGroup.Msgpack.Value

/-!
# Reading msgpack

A value begins with a header that tells all of a scalar, or how many values an array or a map holds.
`decode?` reads one value off the front of a byte string, accepts every spelling of a header, and follows
at most `maxDepth` arrays and maps inside one another; an extension counts as one of them, since it holds two parts.
-/
namespace AtomicGroup.Msgpack

inductive Header where
  | scalar (v : Value)
  /-- An extension, as its octets. -/
  | extension (raw : Bytes)
  | array (count : Nat)
  | map (count : Nat)
deriving Repr

def splitOctets? (n : Nat) (bs : Bytes) : Option (Bytes × Bytes) :=
  let front := bs.take n
  if front.length = n then some (front, bs.drop n) else none

/-- A number of `width` octets and the rest. -/
def readNat? (width : Nat) (bs : Bytes) : Option (Nat × Bytes) := do
  let (front, rest) ← splitOctets? width bs
  return (ofBigEndian front, rest)

/-- A number of `width` octets in two's complement and the rest. -/
def readInt? (width : Nat) (bs : Bytes) : Option (Int × Bytes) := do
  let (n, rest) ← readNat? width bs
  let numbers := 1 <<< (8 * width)
  return (if n < numbers / 2 then (n : Int) else (n : Int) - (numbers : Nat), rest)

/-- A header that is a number of `width` octets. -/
def readUnsigned? (width : Nat) (bs : Bytes) : Option (Header × Bytes) := do
  let (n, rest) ← readNat? width bs
  return (.scalar (.nat n), rest)

def readSigned? (width : Nat) (bs : Bytes) : Option (Header × Bytes) := do
  let (n, rest) ← readInt? width bs
  return (.scalar (.int n), rest)

/-- A header that holds `n` octets. -/
def readRaw? (make : Bytes → Header) (n : Nat) (bs : Bytes) : Option (Header × Bytes) := do
  let (raw, rest) ← splitOctets? n bs
  return (make raw, rest)

/-- A header that holds the octets after their number in `width` octets. -/
def readSized? (make : Bytes → Header) (width : Nat) (bs : Bytes) : Option (Header × Bytes) := do
  let (n, rest) ← readNat? width bs
  readRaw? make n rest

/-- A header that is a count in `width` octets. -/
def readCount? (make : Nat → Header) (width : Nat) (bs : Bytes) : Option (Header × Bytes) := do
  let (n, rest) ← readNat? width bs
  return (make n, rest)

/-- An extension after its length in `width` octets; its kind takes one more octet. -/
def readExtension? (make : Bytes → Header) (width : Nat) (bs : Bytes) : Option (Header × Bytes) := do
  let (n, _) ← readNat? width bs
  readRaw? make (width + 1 + n) bs

def readHeader? : Bytes → Option (Header × Bytes)
  | [] => none
  | first :: rest =>
    let b := first.toNat
    let float (raw : Bytes) : Header := .scalar (.foreign (first :: raw))
    let extension (raw : Bytes) : Header := .extension (first :: raw)
    let str (raw : Bytes) : Header := .scalar (.str raw)
    let bin (raw : Bytes) : Header := .scalar (.bin raw)
    if b < 0x80 then some (.scalar (.nat b), rest)
    else if b < 0x90 then some (.map (b - 0x80), rest)
    else if b < 0xa0 then some (.array (b - 0x90), rest)
    else if b < 0xc0 then readRaw? str (b - 0xa0) rest
    else if 0xe0 ≤ b then some (.scalar (.int ((b : Int) - 256)), rest)
    else
      match b with
      | 0xc0 => some (.scalar .nil, rest)
      | 0xc2 => some (.scalar (.bool false), rest)
      | 0xc3 => some (.scalar (.bool true), rest)
      | 0xc4 => readSized? bin 1 rest
      | 0xc5 => readSized? bin 2 rest
      | 0xc6 => readSized? bin 4 rest
      | 0xc7 => readExtension? extension 1 rest
      | 0xc8 => readExtension? extension 2 rest
      | 0xc9 => readExtension? extension 4 rest
      | 0xca => readRaw? float 4 rest
      | 0xcb => readRaw? float 8 rest
      | 0xcc => readUnsigned? 1 rest
      | 0xcd => readUnsigned? 2 rest
      | 0xce => readUnsigned? 4 rest
      | 0xcf => readUnsigned? 8 rest
      | 0xd0 => readSigned? 1 rest
      | 0xd1 => readSigned? 2 rest
      | 0xd2 => readSigned? 4 rest
      | 0xd3 => readSigned? 8 rest
      | 0xd4 => readRaw? extension 2 rest
      | 0xd5 => readRaw? extension 3 rest
      | 0xd6 => readRaw? extension 5 rest
      | 0xd7 => readRaw? extension 9 rest
      | 0xd8 => readRaw? extension 17 rest
      | 0xd9 => readSized? str 1 rest
      | 0xda => readSized? str 2 rest
      | 0xdb => readSized? str 4 rest
      | 0xdc => readCount? .array 2 rest
      | 0xdd => readCount? .array 4 rest
      | 0xde => readCount? .map 2 rest
      | 0xdf => readCount? .map 4 rest
      | _ => none

def readMany? {α : Type} (read : Bytes → Option (α × Bytes)) : Nat → Bytes → Option (List α × Bytes)
  | 0, bs => some ([], bs)
  | count + 1, bs => do
    let (x, rest) ← read bs
    let (xs, rest) ← readMany? read count rest
    return (x :: xs, rest)

def readPair? {α : Type} (read : Bytes → Option (α × Bytes)) (bs : Bytes) : Option ((α × α) × Bytes) := do
  let (x, rest) ← read bs
  let (y, rest) ← read rest
  return ((x, y), rest)

/-- The value at the front of a byte string, with at most `depth` arrays, maps and extensions inside one another. -/
def readValue? : (depth : Nat) → Bytes → Option (Value × Bytes)
  | 0, bs =>
    match readHeader? bs with
    | some (.scalar v, rest) => some (v, rest)
    | _ => none
  | depth + 1, bs =>
    match readHeader? bs with
    | some (.scalar v, rest) => some (v, rest)
    | some (.extension raw, rest) => some (.foreign raw, rest)
    | some (.array count, rest) =>
      (readMany? (readValue? depth) count rest).map fun (items, rest) => (.array items, rest)
    | some (.map count, rest) =>
      (readMany? (readPair? (readValue? depth)) count rest).map fun (entries, rest) => (.map entries, rest)
    | none => none

/-- How many arrays, maps and extensions may lie inside one another. -/
def maxDepth : Nat := 1023

/-- The value at the front of a byte string; what follows it is not looked at. -/
def decode? (bs : Bytes) : Option Value := (readValue? maxDepth bs).map (·.1)

end AtomicGroup.Msgpack
