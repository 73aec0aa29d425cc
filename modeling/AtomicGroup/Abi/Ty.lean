import AtomicGroup.Text.Numerals

/-!
# Types of call arguments

The type language of contract calls, with its names. A type is dynamic when the length of an encoding depends
on the value; `Ty.staticLength` is the length of the encodings of every other type. Consecutive truth values
share an octet, eight at most.
-/
namespace AtomicGroup.Abi

inductive Ty where
  /-- Natural numbers of `bits` bits. -/
  | uint (bits : Nat)
  /-- Decimals with `precision` places, kept as their scaled number of `bits` bits. -/
  | ufixed (bits precision : Nat)
  | byte
  | bool
  | address
  | string
  | array (elem : Ty) (length : Nat)
  | list (elem : Ty)
  | tuple (members : List Ty)
deriving Repr, Inhabited

namespace Ty

mutual

def beq : Ty → Ty → Bool
  | .uint a, .uint b => a == b
  | .ufixed a p, .ufixed b q => a == b && p == q
  | .byte, .byte => true
  | .bool, .bool => true
  | .address, .address => true
  | .string, .string => true
  | .array s m, .array t n => beq s t && m == n
  | .list s, .list t => beq s t
  | .tuple ss, .tuple ts => beqAll ss ts
  | _, _ => false

def beqAll : List Ty → List Ty → Bool
  | [], [] => true
  | s :: ss, t :: ts => beq s t && beqAll ss ts
  | _, _ => false

end

mutual

theorem beq_iff : (s t : Ty) → (beq s t = true ↔ s = t)
  | .uint _, t => by cases t <;> simp [beq]
  | .ufixed _ _, t => by cases t <;> simp [beq]
  | .byte, t => by cases t <;> simp [beq]
  | .bool, t => by cases t <;> simp [beq]
  | .address, t => by cases t <;> simp [beq]
  | .string, t => by cases t <;> simp [beq]
  | .array s _, t => by cases t <;> simp [beq, beq_iff s]
  | .list s, t => by cases t <;> simp [beq, beq_iff s]
  | .tuple ss, t => by cases t <;> simp [beq, beqAll_iff ss]

theorem beqAll_iff : (ss ts : List Ty) → (beqAll ss ts = true ↔ ss = ts)
  | [], ts => by cases ts <;> simp [beqAll]
  | s :: ss, ts => by cases ts <;> simp [beqAll, beq_iff s, beqAll_iff ss]

end

instance : DecidableEq Ty := fun s t => decidable_of_iff _ (beq_iff s t)

mutual

/-- Whether the length of an encoding depends on the value. -/
def isDynamic : Ty → Bool
  | .string => true
  | .list _ => true
  | .array elem _ => elem.isDynamic
  | .tuple members => anyDynamic members
  | _ => false

def anyDynamic : List Ty → Bool
  | [] => false
  | t :: ts => t.isDynamic || anyDynamic ts

end

mutual

/-- The first part of a type that has no length of its own, if there is one. -/
def dynamicPart? : Ty → Option Ty
  | .string => some .string
  | .list elem => some (.list elem)
  | .array elem _ => elem.dynamicPart?
  | .tuple members => firstDynamicPart? members
  | _ => none

def firstDynamicPart? : List Ty → Option Ty
  | [] => none
  | t :: ts => t.dynamicPart? <|> firstDynamicPart? ts

end

/-- The octets that hold a number of bits. -/
def octets (bits : Nat) : Nat := (bits + 7) / 8

mutual

def staticLength : Ty → Nat
  | .uint bits => bits / 8
  | .ufixed bits _ => bits / 8
  | .byte => 1
  | .bool => 1
  | .address => 32
  | .string => 0
  | .array .bool length => octets length
  | .array elem length => elem.staticLength * length
  | .list _ => 0
  | .tuple members => membersLength 0 members

/-- The length of the encodings of static types after a run of `bits` truth values. -/
def membersLength (bits : Nat) : List Ty → Nat
  | [] => octets bits
  | .bool :: ts => membersLength (bits + 1) ts
  | t :: ts => octets bits + t.staticLength + membersLength 0 ts

end

/-- Whether the values of a type are byte strings. -/
def isByteArray : Ty → Bool
  | .array .byte _ => true
  | .list .byte => true
  | _ => false

mutual

def chars : Ty → List Char
  | .uint bits => "uint".toList ++ Decimal.digits bits
  | .ufixed bits precision => "ufixed".toList ++ Decimal.digits bits ++ 'x' :: Decimal.digits precision
  | .byte => "byte".toList
  | .bool => "bool".toList
  | .address => "address".toList
  | .string => "string".toList
  | .array elem length => elem.chars ++ '[' :: Decimal.digits length ++ [']']
  | .list elem => elem.chars ++ ['[', ']']
  | .tuple members => '(' :: (List.intercalate [','] (memberChars members) ++ [')'])

def memberChars : List Ty → List (List Char)
  | [] => []
  | t :: ts => t.chars :: memberChars ts

end

def name (t : Ty) : String := String.ofList t.chars

end Ty

end AtomicGroup.Abi
