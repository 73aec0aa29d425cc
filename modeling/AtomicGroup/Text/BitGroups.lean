import AtomicGroup.Bytes

/-!
# Octets regrouped into digits of another width

A text of base 32 or 64 is the bit string of its octets, cut anew into groups of five or six bits. The
last group is filled up with zero bits, and reading accepts no other filling and no group that
carries nothing, so that a byte string has one list of groups.
-/
namespace AtomicGroup.BitGroups

/-- The `width` low bits of `n`, most significant first. -/
def bits : (width n : Nat) → List Bool
  | 0, _ => []
  | width + 1, n => n.testBit width :: bits width n

def ofBits (bs : List Bool) : Nat := bs.foldl (fun n b => 2 * n + b.toNat) 0

def bytesToBits (bs : Bytes) : List Bool := bs.flatMap fun b => bits 8 b.toNat

/-- A list of bits filled up with zeros to length `width`. -/
def fill (width : Nat) (bs : List Bool) : List Bool := bs ++ List.replicate (width - bs.length) false

/-- A byte string as numbers of `width` bits. -/
def encode (width : Nat) (bs : Bytes) : List Nat :=
  (chunks width (bytesToBits bs)).map fun group => ofBits (fill width group)

/-- The byte string that numbers of `width` bits carry: whole octets, and fewer than `width` zero bits. -/
def decode? (width : Nat) (groups : List Nat) : Option Bytes :=
  let all := groups.flatMap (bits width)
  let whole := all.length / 8 * 8
  let rest := all.drop whole
  if rest.length < width ∧ rest.all (! ·) then
    some ((chunks 8 (all.take whole)).map fun octet => UInt8.ofNat (ofBits octet))
  else
    none

@[simp] theorem length_bits (width n : Nat) : (bits width n).length = width := by
  induction width with
  | zero => rfl
  | succ width ih => simp [bits, ih]

end AtomicGroup.BitGroups
