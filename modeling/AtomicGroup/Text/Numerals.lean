import AtomicGroup.Bytes

/-!
# Decimal and hexadecimal digits

Decimal numerals stand for natural numbers, and two hexadecimal digits for an octet. `Hex.encode` writes lower case;
`Hex.decode?` reads either case, and `Hex.decode?_encode` says that it reads back what was written.
-/
namespace AtomicGroup

namespace Decimal

def isDigit (c : Char) : Bool := '0' ≤ c && c ≤ '9'

/-- The number that digits write, in any base-ten numeral and with any leading zeros. -/
def ofDigits (cs : List Char) : Nat := cs.foldl (fun n c => 10 * n + (c.toNat - 48)) 0

def digits (n : Nat) : List Char := Nat.toDigits 10 n

def text (n : Nat) : String := String.ofList (digits n)

/-- The number of a non-empty run of digits, leading zeros allowed. -/
def read? (cs : List Char) : Option Nat :=
  if cs ≠ [] ∧ cs.all isDigit then some (ofDigits cs) else none

/-- The number of a numeral without superfluous leading zeros. -/
def readCanonical? (cs : List Char) : Option Nat :=
  if cs.length > 1 ∧ cs.head? = some '0' then none else read? cs

end Decimal

namespace Hex

def digit (n : Nat) : Char :=
  if n < 10 then Char.ofNat (48 + n) else Char.ofNat (87 + n)

/-- The value of a digit of either case. -/
def value? (c : Char) : Option Nat :=
  if '0' ≤ c ∧ c ≤ '9' then some (c.toNat - 48)
  else if 'a' ≤ c ∧ c ≤ 'f' then some (c.toNat - 87)
  else if 'A' ≤ c ∧ c ≤ 'F' then some (c.toNat - 55)
  else none

def digits (b : UInt8) : List Char := [digit (b.toNat / 16), digit (b.toNat % 16)]

def encodeChars (bs : Bytes) : List Char := bs.flatMap digits

/-- The lower-case text of a byte string. -/
def encode (bs : Bytes) : String := String.ofList (encodeChars bs)

/-- The byte string that digits write, when they pair up. -/
def decodeChars? : List Char → Option Bytes
  | [] => some []
  | [_] => none
  | hi :: lo :: rest => do
    let h ← value? hi
    let l ← value? lo
    return UInt8.ofNat (16 * h + l) :: (← decodeChars? rest)

def decode? (text : String) : Option Bytes := decodeChars? text.toList

theorem value?_digit : ∀ n < 16, value? (digit n) = some n := by decide

theorem decodeChars?_encodeChars (bs : Bytes) : decodeChars? (encodeChars bs) = some bs := by
  induction bs with
  | nil => rfl
  | cons b bs ih =>
    have hb : b.toNat < 256 := b.toNat_lt
    change decodeChars? (digit (b.toNat / 16) :: digit (b.toNat % 16) :: encodeChars bs) = _
    rw [decodeChars?, value?_digit _ (by omega), value?_digit _ (by omega), ih]
    simp only [Option.bind_eq_bind, Option.bind_some, Option.pure_def, Option.some.injEq,
      List.cons.injEq, and_true]
    rw [Nat.div_add_mod, UInt8.ofNat_toNat]

theorem decode?_encode (bs : Bytes) : decode? (encode bs) = some bs := by
  simp [decode?, encode, decodeChars?_encodeChars]

end Hex

end AtomicGroup
