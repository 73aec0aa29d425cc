import AtomicGroup.Address

/-!
# Values of call arguments

Integers and scaled decimals are both plain numbers. The same list may come as octets or as an array of single
octets, and an array as a tuple: `Value.bytes?` and `Value.items?` give the one view of them all.
-/
namespace AtomicGroup.Abi

inductive Value where
  | uint (n : Nat)
  | byte (b : UInt8)
  | bool (b : Bool)
  | address (a : Address)
  | string (s : String)
  | bytes (bs : Bytes)
  | array (items : List Value)
  | tuple (items : List Value)
deriving Repr, Inhabited

namespace Value

mutual

def beq : Value → Value → Bool
  | .uint m, .uint n => m == n
  | .byte a, .byte b => a == b
  | .bool a, .bool b => a == b
  | .address a, .address b => a == b
  | .string a, .string b => a == b
  | .bytes a, .bytes b => a == b
  | .array vs, .array ws => beqAll vs ws
  | .tuple vs, .tuple ws => beqAll vs ws
  | _, _ => false

def beqAll : List Value → List Value → Bool
  | [], [] => true
  | v :: vs, w :: ws => beq v w && beqAll vs ws
  | _, _ => false

end

mutual

theorem beq_iff : (v w : Value) → (beq v w = true ↔ v = w)
  | .uint _, w => by cases w <;> simp [beq]
  | .byte _, w => by cases w <;> simp [beq]
  | .bool _, w => by cases w <;> simp [beq]
  | .address _, w => by cases w <;> simp [beq]
  | .string _, w => by cases w <;> simp [beq]
  | .bytes _, w => by cases w <;> simp [beq]
  | .array vs, w => by cases w <;> simp [beq, beqAll_iff vs]
  | .tuple vs, w => by cases w <;> simp [beq, beqAll_iff vs]

theorem beqAll_iff : (vs ws : List Value) → (beqAll vs ws = true ↔ vs = ws)
  | [], ws => by cases ws <;> simp [beqAll]
  | v :: vs, ws => by cases ws <;> simp [beqAll, beq_iff v, beqAll_iff vs]

end

instance : DecidableEq Value := fun v w => decidable_of_iff _ (beq_iff v w)

def kind : Value → String
  | .uint _ => "uint"
  | .byte _ => "byte"
  | .bool _ => "bool"
  | .address _ => "address"
  | .string _ => "string"
  | .bytes _ => "bytes"
  | .array _ => "array"
  | .tuple _ => "tuple"

/-- The number of a value, when it fits 64 bits. -/
def uint64? : Value → Option UInt64
  | .uint n => if n < UInt64.size then some (UInt64.ofNat n) else none
  | .byte b => some b.toUInt64
  | _ => none

/-- The address of a value, which may come as 32 octets. -/
def address? : Value → Option Address
  | .address a => some a
  | .bytes bs => (Address.ofBytes bs).toOption
  | _ => none

def byte? : Value → Option UInt8
  | .byte b => some b
  | _ => none

/-- The octets of a value, which may come as a list of single octets. -/
def bytes? : Value → Option Bytes
  | .bytes bs => some bs
  | .array items => items.mapM byte?
  | .tuple items => items.mapM byte?
  | _ => none

/-- The items of a value; those of octets are single octets. -/
def items? : Value → Option (List Value)
  | .array items => some items
  | .tuple items => some items
  | .bytes bs => some (bs.map .byte)
  | _ => none

end Value

end AtomicGroup.Abi
