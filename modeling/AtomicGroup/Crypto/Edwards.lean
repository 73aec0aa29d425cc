import AtomicGroup.Text.BitGroups

/-!
# The curve edwards25519

The points of `-x² + y² = 1 + d x² y²` over the integers modulo `2²⁵⁵ - 19`, in extended coordinates, with
the complete addition law. A point is written as the 32 octets of `y`, with the parity of `x` in the top bit.
-/
namespace AtomicGroup.Edwards

def prime : Nat := (1 <<< 255) - 19

/-- The order of the base point. -/
def order : Nat := (1 <<< 252) + 27742317777372353535851937790883648493

def sub (a b : Nat) : Nat := (a + (prime - b % prime)) % prime

/-- A power in the field, of an exponent below `2²⁵⁶`. -/
def pow (base exponent : Nat) : Nat :=
  (BitGroups.bits 256 exponent).foldl
    (fun acc bit => let square := acc * acc % prime; if bit then square * base % prime else square) 1

/-- The inverse in the field; zero for zero. -/
def inverse (a : Nat) : Nat := pow a (prime - 2)

/-- The constant `d` of the curve. -/
def coefficient : Nat := 37095705934669439343138083508754565189542113879843219016388785533085940283555

def rootOfMinusOne : Nat := 19681161376707505956807079304988542015446066515923890162744021073123829784752

/-- A point as `x = X / Z`, `y = Y / Z`, `x y = T / Z`. -/
structure Point where
  x : Nat
  y : Nat
  z : Nat
  t : Nat
deriving DecidableEq, Repr

namespace Point

def neutral : Point := ⟨0, 1, 1, 0⟩

def affine (x y : Nat) : Point := ⟨x, y, 1, x * y % prime⟩

def base : Point :=
  affine 15112221349535400772501151409588531511454012693041857206046113283949847762202
    46316835694926478169428394003475163141307993866256225615783033603165251855960

def add (p q : Point) : Point :=
  let a := sub p.y p.x * sub q.y q.x % prime
  let b := (p.y + p.x) * (q.y + q.x) % prime
  let c := 2 * coefficient * p.t % prime * q.t % prime
  let d := 2 * p.z * q.z % prime
  let e := sub b a
  let f := sub d c
  let g := (d + c) % prime
  let h := (b + a) % prime
  ⟨e * f % prime, g * h % prime, f * g % prime, e * h % prime⟩

def double (p : Point) : Point :=
  let a := p.x * p.x % prime
  let b := p.y * p.y % prime
  let c := 2 * p.z * p.z % prime
  let h := (a + b) % prime
  let e := sub h ((p.x + p.y) * (p.x + p.y) % prime)
  let g := sub a b
  let f := (c + g) % prime
  ⟨e * f % prime, g * h % prime, f * g % prime, e * h % prime⟩

def neg (p : Point) : Point := ⟨sub 0 p.x, p.y, p.z, sub 0 p.t⟩

/-- The multiple of a point by a number below `2²⁵⁶`. -/
def mul (n : Nat) (p : Point) : Point :=
  (BitGroups.bits 256 n).foldl (fun acc bit => if bit then add acc.double p else acc.double) neutral

def encode (p : Point) : Bytes :=
  let w := inverse p.z
  let x := p.x * w % prime
  let y := p.y * w % prime
  littleEndian 32 (y + ((x % 2) <<< 255))

/-- The root of `u / v` that is even, if there is one. -/
def evenRoot? (u v : Nat) : Option Nat :=
  let v3 := v * v % prime * v % prime
  let v7 := v3 * v3 % prime * v % prime
  let r := u * v3 % prime * pow (u * v7 % prime) ((prime - 5) / 8) % prime
  let check := v * (r * r % prime) % prime
  let root? :=
    if check = u then some r
    else if check = sub 0 u then some (r * rootOfMinusOne % prime)
    else none
  root?.map fun r => if r % 2 = 1 then prime - r else r

/-- The point that 32 octets write; `y` need not be reduced, and a zero `x` may carry the sign bit. -/
def decode? (bs : Bytes) : Option Point := do
  let n := ofLittleEndian bs
  let y := n % (1 <<< 255) % prime
  let y2 := y * y % prime
  let u := sub y2 1
  let v := (coefficient * y2 + 1) % prime
  let x ← evenRoot? u v
  return affine (if n >>> 255 = 1 then sub 0 x else x) y

@[simp] theorem length_encode (p : Point) : p.encode.length = 32 := by simp [encode]

end Point

end AtomicGroup.Edwards
