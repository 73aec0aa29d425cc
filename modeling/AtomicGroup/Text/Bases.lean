import AtomicGroup.Text.BitGroups
import AtomicGroup.Text.Numerals

/-!
# Texts of base 32 and base 64

Base 32 has the upper-case letters and the digits from two to seven, without padding. Base 64 has the standard
alphabet, filled up with `=` to a multiple of four characters; the filling is mandatory and the unused bits are zero.
In both a byte string has one text. What is not a text of base 64 has a `Base64.Fault`, which tells the first place
that is wrong.
-/
namespace AtomicGroup

namespace Base32

def alphabet : List Char := "ABCDEFGHIJKLMNOPQRSTUVWXYZ234567".toList

def digit (n : Nat) : Char := alphabet.getD n 'A'

def value? (c : Char) : Option Nat := alphabet.findIdx? (· == c)

def encode (bs : Bytes) : String := String.ofList ((BitGroups.encode 5 bs).map digit)

def decode? (text : String) : Option Bytes := do
  BitGroups.decode? 5 (← text.toList.mapM value?)

theorem value?_digit : ∀ n < 32, value? (digit n) = some n := by decide

end Base32

namespace Base64

def alphabet : List Char :=
  "ABCDEFGHIJKLMNOPQRSTUVWXYZabcdefghijklmnopqrstuvwxyz0123456789+/".toList

def digit (n : Nat) : Char := alphabet.getD n 'A'

def value? (c : Char) : Option Nat := alphabet.findIdx? (· == c)

/-- The filling after a given number of digits. -/
def padding (digits : Nat) : List Char := List.replicate ((4 - digits % 4) % 4) '='

def encodeChars (bs : Bytes) : List Char :=
  let digits := (BitGroups.encode 6 bs).map digit
  digits ++ padding digits.length

def encode (bs : Bytes) : String := String.ofList (encodeChars bs)

def decodeChars? (cs : List Char) : Option Bytes := do
  let digits := cs.takeWhile (· != '=')
  if cs.dropWhile (· != '=') = padding digits.length then
    BitGroups.decode? 6 (← digits.mapM value?)
  else
    none

def decode? (text : String) : Option Bytes := decodeChars? text.toList

/-- What is wrong with the octets of a text. Offsets count them from zero. -/
inductive Fault where
  /-- An octet that does not belong where it stands. -/
  | symbol (octet : UInt8) (offset : Nat)
  /-- A last digit with bits that no octet takes up. -/
  | lastSymbol (octet : UInt8) (offset : Nat)
  /-- A last group of a single digit. -/
  | length (symbols : Nat)
  | padding
deriving DecidableEq, Repr

def Fault.message : Fault → String
  | symbol octet offset =>
    "Invalid symbol " ++ Decimal.text octet.toNat ++ ", offset " ++ Decimal.text offset ++ "."
  | lastSymbol octet offset =>
    "Invalid last symbol " ++ Decimal.text octet.toNat ++ ", offset " ++ Decimal.text offset ++ "."
  | length symbols => "Invalid input length: " ++ Decimal.text symbols
  | padding => "Invalid padding"

def filling : UInt8 := 0x3d

def isDigit (octet : UInt8) : Bool := (value? (Char.ofNat octet.toNat)).isSome

/-- The fault of a last group, which begins at a given offset. -/
def Fault.ofGroup (start : Nat) (group : Bytes) : Fault :=
  let digits := group.takeWhile isDigit
  let offset := start + digits.length
  match group.dropWhile isDigit with
  | [] => if digits.length < 2 then .length offset else .padding
  | octet :: rest =>
    if octet ≠ filling ∨ digits.length < 2 ∨ rest.any (· != filling) then .symbol octet offset
    else if group.length < 4 then .padding
    else .lastSymbol (digits.getLastD 0) (offset - 1)

/-- The fault of a text that is refused. A stray octet behind the last whole group is told before anything else. -/
def Fault.ofBytes (bs : Bytes) : Fault :=
  let rest := bs.length % 4
  let start := bs.length - if rest = 0 then 4 else rest
  let last := bs.getLastD 0
  if rest = 1 ∧ last ≠ filling ∧ ¬ isDigit last then .symbol last (bs.length - 1)
  else
    match bs.findIdx? (! isDigit ·) with
    | some i => if i < start then .symbol (bs.getD i 0) i else ofGroup start (bs.drop start)
    | none => ofGroup start (bs.drop start)

/-- The byte string that a text writes, or what is wrong with the text. -/
def decode (text : String) : Except Fault Bytes :=
  match decode? text with
  | some bs => .ok bs
  | none => .error (.ofBytes (Utf8.encode text))

theorem value?_digit : ∀ n < 64, value? (digit n) = some n := by decide

end Base64

end AtomicGroup
