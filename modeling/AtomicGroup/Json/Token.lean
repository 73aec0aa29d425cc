import AtomicGroup.Json.Basic
import AtomicGroup.Text.Numerals

/-!
# The tokens of JSON

Every reader takes characters from the front of a text and gives the rest. A string follows the grammar when its
control characters and its escapes do; it has characters only when every escaped surrogate has its partner.
-/
namespace AtomicGroup.Json

def isBlank (c : Char) : Bool := c = ' ' || c = '\t' || c = '\n' || c = '\r'

def skipBlanks (cs : List Char) : List Char := cs.dropWhile isBlank

def readHex4? : List Char → Option (Nat × List Char)
  | a :: b :: c :: d :: rest => do
    let a ← Hex.value? a
    let b ← Hex.value? b
    let c ← Hex.value? c
    let d ← Hex.value? d
    return (((a * 16 + b) * 16 + c) * 16 + d, rest)
  | _ => none

/-- The low surrogate that an escape at the front writes, and the rest. -/
def readLowSurrogate? (cs : List Char) : Option (Nat × List Char) :=
  match cs with
  | '\\' :: 'u' :: rest => (readHex4? rest).filter fun (low, _) => 0xDC00 ≤ low && low < 0xE000
  | _ => none

/-- The character of a numbered escape, after its `\u`, and the rest; a surrogate alone is no character. -/
def readNumbered? (cs : List Char) : Option (Option Char × List Char) := do
  let (high, rest) ← readHex4? cs
  if 0xD800 ≤ high ∧ high < 0xDC00 then
    match readLowSurrogate? rest with
    | some (low, rest) =>
      return (some (Char.ofNat (0x10000 + (high - 0xD800) * 0x400 + (low - 0xDC00))), rest)
    | none => return (none, rest)
  else if 0xDC00 ≤ high ∧ high < 0xE000 then
    return (none, rest)
  else
    return (some (Char.ofNat high), rest)

def readEscape? : List Char → Option (Option Char × List Char)
  | [] => none
  | c :: rest =>
    if c = '"' ∨ c = '\\' ∨ c = '/' then some (some c, rest)
    else if c = 'b' then some (some '\x08', rest)
    else if c = 'f' then some (some '\x0c', rest)
    else if c = 'n' then some (some '\n', rest)
    else if c = 'r' then some (some '\r', rest)
    else if c = 't' then some (some '\t', rest)
    else if c = 'u' then readNumbered? rest
    else none

/-- The characters of a string after its opening quote, if it has any, and the rest after the closing one. -/
def readString? : (fuel : Nat) → List Char → Option (Option (List Char) × List Char)
  | 0, _ => none
  | _, [] => none
  | fuel + 1, c :: rest =>
    if c = '"' then some (some [], rest)
    else if c = '\\' then do
      let (c?, rest) ← readEscape? rest
      let (cs?, rest) ← readString? fuel rest
      return (do return (← c?) :: (← cs?), rest)
    else if c.toNat < 0x20 then none
    else do
      let (cs?, rest) ← readString? fuel rest
      return (cs?.map (c :: ·), rest)

def readText? (cs : List Char) : Option (Option String × List Char) :=
  match cs with
  | '"' :: rest => (readString? rest.length rest).map fun (cs?, rest) => (cs?.map String.ofList, rest)
  | _ => none

def readDigits? (cs : List Char) : Option (List Char × List Char) :=
  match cs.takeWhile Decimal.isDigit with
  | [] => none
  | digits => some (digits, cs.dropWhile Decimal.isDigit)

/-- The whole part of a number: no leading zeros. -/
def readWhole? (cs : List Char) : Option (List Char × List Char) :=
  match cs with
  | '0' :: rest => if (rest.head?.map Decimal.isDigit).getD false then none else some (['0'], rest)
  | _ => readDigits? cs

def readFraction? (cs : List Char) : Option (List Char × List Char) :=
  match cs with
  | '.' :: rest => (readDigits? rest).map fun (digits, rest) => ('.' :: digits, rest)
  | _ => some ([], cs)

/-- The digits of an exponent, after its letter, with their sign. -/
def readSignedDigits? (cs : List Char) : Option (List Char × List Char) :=
  match cs with
  | c :: rest =>
    if c = '+' ∨ c = '-' then (readDigits? rest).map fun (digits, rest) => (c :: digits, rest)
    else readDigits? cs
  | [] => none

def readExponent? (cs : List Char) : Option (List Char × List Char) :=
  match cs with
  | c :: rest =>
    if c = 'e' ∨ c = 'E' then (readSignedDigits? rest).map fun (digits, rest) => (c :: digits, rest)
    else some ([], cs)
  | [] => some ([], [])

def readNumber? (cs : List Char) : Option (List Char × List Char) := do
  let (sign, rest) := match cs with
    | '-' :: rest => (['-'], rest)
    | _ => ([], cs)
  let (whole, rest) ← readWhole? rest
  let (fraction, rest) ← readFraction? rest
  let (exponent, rest) ← readExponent? rest
  return (sign ++ whole ++ fraction ++ exponent, rest)

def readWord? (word cs : List Char) : Option (List Char) :=
  if word.isPrefixOf cs then some (cs.drop word.length) else none

/-- A value that is neither an array nor an object, and the rest. -/
def readScalar? (cs : List Char) : Option (Json × List Char) :=
  match cs with
  | 'n' :: _ => (readWord? "null".toList cs).map fun rest => (.null, rest)
  | 't' :: _ => (readWord? "true".toList cs).map fun rest => (.bool true, rest)
  | 'f' :: _ => (readWord? "false".toList cs).map fun rest => (.bool false, rest)
  | '"' :: _ => (readText? cs).map fun (s?, rest) => ((s?.map Json.string).getD .unreadable, rest)
  | _ => (readNumber? cs).map fun (text, rest) => (.number (String.ofList text), rest)

def readKey? (cs : List Char) : Option (Option String × List Char) := do
  let (key?, rest) ← readText? cs
  match skipBlanks rest with
  | ':' :: rest => return (key?, rest)
  | _ => none

end AtomicGroup.Json
