import AtomicGroup.Abi.Error
import AtomicGroup.Text.BitGroups

/-!
# The layout of a tuple

A tuple is a head and a tail. The head holds a static member itself and, for a dynamic one, the offset of its
encoding in the whole; the tail holds the encodings of the dynamic members in order. Truth values that stand
together are bits of shared octets, the first one at the top.

Encoding goes from the encoded members (`Part`) to octets, decoding from the members' readers (`Member`) to
values by way of what the head tells of each (`Slot`).
-/
namespace AtomicGroup.Abi

/-- An encoded member of a tuple. -/
inductive Part where
  | bit (b : Bool)
  | inline (bs : Bytes)
  | tail (bs : Bytes)
deriving DecidableEq, Repr

/-- What an encoded member puts into the head. -/
inductive Cell where
  | octets (bs : Bytes)
  /-- The offset of a dynamic member. -/
  | offset (tail : Bytes)
deriving DecidableEq, Repr

/-- The octet of at most eight truth values, the first one at the top. -/
def packBits (bits : List Bool) : UInt8 :=
  UInt8.ofNat (BitGroups.ofBits (BitGroups.fill 8 bits))

/-- The octet of the truth values read so far, if any. -/
def flush (pending : List Bool) : List Cell :=
  if pending = [] then [] else [.octets [packBits pending]]

/-- The cells of encoded members, after truth values that do not fill an octet yet. -/
def cellsAfter : (pending : List Bool) → List Part → List Cell
  | pending, [] => flush pending
  | pending, .bit b :: parts =>
    if pending.length = 7 then flush (pending ++ [b]) ++ cellsAfter [] parts
    else cellsAfter (pending ++ [b]) parts
  | pending, .inline bs :: parts => flush pending ++ .octets bs :: cellsAfter [] parts
  | pending, .tail bs :: parts => flush pending ++ .offset bs :: cellsAfter [] parts

def cells (parts : List Part) : List Cell := cellsAfter [] parts

def Cell.headLength : Cell → Nat
  | .octets bs => bs.length
  | .offset _ => 2

def headLength : List Cell → Nat
  | [] => 0
  | c :: cs => c.headLength + headLength cs

def Cell.tail : Cell → Bytes
  | .octets _ => []
  | .offset bs => bs

/-- A number in two octets. -/
def encodeLength (n : Nat) : Except Error Bytes :=
  if n < UInt16.size then .ok (bigEndian 2 n) else .error (.tooLong n)

/-- The octets of the head, when the next dynamic member begins at a given offset. -/
def heads (offset : Nat) : List Cell → Except Error Bytes
  | [] => .ok []
  | .octets bs :: cs => return bs ++ (← heads offset cs)
  | .offset bs :: cs => do
    let start ← encodeLength offset
    return start ++ (← heads (offset + bs.length) cs)

def layout (parts : List Part) : Except Error Bytes := do
  let cs := cells parts
  let head ← heads (headLength cs) cs
  return head ++ cs.flatMap Cell.tail

/-- How a member of a tuple is read. -/
inductive Member where
  | bit
  | inline (length : Nat) (read : Bytes → Except Error Value)
  | tail (read : Bytes → Except Error Value)

/-- What the head of a tuple tells of a member. -/
inductive Slot where
  | value (v : Value)
  /-- The offset of a dynamic member and how to read it. -/
  | tail (start : Nat) (read : Bytes → Except Error Value)

/-- The first `n` octets and the rest, which the head of a tuple must have. -/
def takeHead (n : Nat) (bs : Bytes) : Except Error (Bytes × Bytes) :=
  if (bs.take n).length = n then .ok (bs.take n, bs.drop n) else .error (.decode .truncatedHead)

/-- Whether the truth value at a position of an octet is set, counted from the top. -/
def bitAt (octet : UInt8) (i : Nat) : Bool := octet.toNat.testBit (7 - i)

/-- The slots of members and the octets after the head. `shared` is the octet whose first truth values have been
read, and their number, which is between one and seven. -/
def scan : (shared : Option (UInt8 × Nat)) → (rest : Bytes) → List Member → Except Error (List Slot × Bytes)
  | _, rest, [] => .ok ([], rest)
  | some (octet, used), rest, .bit :: ms => do
    let (slots, rest) ← scan (if used = 7 then none else some (octet, used + 1)) rest ms
    return (.value (.bool (bitAt octet used)) :: slots, rest)
  | none, rest, .bit :: ms =>
    match rest with
    | [] => .error (.decode .truncatedHead)
    | octet :: rest => do
      let (slots, rest) ← scan (some (octet, 1)) rest ms
      return (.value (.bool (bitAt octet 0)) :: slots, rest)
  | _, rest, .inline length read :: ms => do
    let (front, rest) ← takeHead length rest
    let v ← read front
    let (slots, rest) ← scan none rest ms
    return (.value v :: slots, rest)
  | _, rest, .tail read :: ms => do
    let (front, rest) ← takeHead 2 rest
    let (slots, rest) ← scan none rest ms
    return (.tail (ofBigEndian front) read :: slots, rest)

def firstOffset? : List Slot → Option Nat
  | [] => none
  | .value _ :: ss => firstOffset? ss
  | .tail start _ :: _ => some start

/-- The values of slots in an encoding of `total` octets. A dynamic member ends where the next one begins, so that
the octets `rest` of the tail are cut from the front. -/
def fillSlots (total : Nat) : (rest : Bytes) → List Slot → Except Error (List Value)
  | _, [] => .ok []
  | rest, .value v :: ss => return v :: (← fillSlots total rest ss)
  | rest, .tail start read :: ss => do
    let stop := (firstOffset? ss).getD total
    if stop < start ∨ total < stop then throw (.decode (.offsetOrder start stop))
    let v ← read (rest.take (stop - start))
    return v :: (← fillSlots total (rest.drop (stop - start)) ss)

def readMembers (ms : List Member) (bs : Bytes) : Except Error (List Value) := do
  let (slots, rest) ← scan none bs ms
  match firstOffset? slots with
  | none => if rest ≠ [] then throw (.decode (.unused rest.length))
  | some start =>
    let headEnd := bs.length - rest.length
    if start ≠ headEnd then throw (.decode (.firstOffset start headEnd))
  fillSlots bs.length rest slots

end AtomicGroup.Abi
