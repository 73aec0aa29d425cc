import AtomicGroup.Abi.Error
import AtomicGroup.Abi.Split

/-!
# Reading the name of a type

Each type has one name, so numbers take no leading zeros and widths and precisions keep their bounds. An array's
length stands at the end of a name: the reader takes a name apart from its end, and tuples at their outer commas.
-/
namespace AtomicGroup.Abi.Ty

def maxBits : Nat := 512

def maxPrecision : Nat := 160

/-- A plain numeral below `2⁶⁴`. -/
def readLength? (text : List Char) : Option Nat := (Decimal.readCanonical? text).filter (· < UInt64.size)

/-- The width of a number: whole octets, `maxBits` at most. -/
def readBits? (text : List Char) : Option Nat :=
  (readLength? text).filter fun bits => 8 ≤ bits && bits ≤ maxBits && bits % 8 == 0

def readPrecision? (text : List Char) : Option Nat :=
  (readLength? text).filter fun precision => 1 ≤ precision && precision ≤ maxPrecision

def readUfixed? (text : List Char) : Option Ty := do
  let (bits, precision) ← splitFirst? 'x' text
  return .ufixed (← readBits? bits) (← readPrecision? precision)

/-- The types that are a single word. -/
def ofWord? (text : List Char) : Option Ty :=
  [byte, bool, address, string].find? (·.chars == text)

/-- A type without parts. -/
def ofPlain? (text : List Char) : Option Ty :=
  match dropStart? "uint".toList text with
  | some rest => (readBits? rest).map uint
  | none =>
    match dropStart? "ufixed".toList text with
    | some rest => readUfixed? rest
    | none => ofWord? text

/-- How a name is put together. -/
inductive Shape where
  | list (elem : List Char)
  | array (elem : List Char) (length : Nat)
  | tuple (members : List (List Char))
  | plain (t : Ty)
deriving Repr

def shape? (text : List Char) : Option Shape :=
  match dropEnd? "[]".toList text with
  | some elem => some (.list elem)
  | none =>
    match dropEnd? [']'] text with
    | some body => do
      let (elem, length) ← splitLast? '[' body
      return .array elem (← readLength? length)
    | none =>
      match dropStart? ['('] text with
      | some body => do return .tuple (← splitTopLevel (← dropEnd? [')'] body))
      | none => (ofPlain? text).map .plain

/-- The type that a text names, read to a given depth. -/
def parseUpTo : (fuel : Nat) → List Char → Except Error Ty
  | 0, text => .error (.invalidType (String.ofList text))
  | fuel + 1, text =>
    match shape? text with
    | none => .error (.invalidType (String.ofList text))
    | some (.list elem) => return .list (← parseUpTo fuel elem)
    | some (.array elem length) => return .array (← parseUpTo fuel elem) length
    | some (.tuple members) => return .tuple (← members.mapM (parseUpTo fuel))
    | some (.plain t) => .ok t

/-- The type that characters name: a part is shorter than the whole. -/
def parseChars (text : List Char) : Except Error Ty := parseUpTo (text.length + 1) text

def parse (text : String) : Except Error Ty := parseChars text.toList

end AtomicGroup.Abi.Ty
