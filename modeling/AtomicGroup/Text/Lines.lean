/-!
# Lines and blanks

A text falls into lines at each line feed; a carriage return just before the line feed belongs to the line
end, and a final line end opens no further line. Blanks are the characters of the Unicode property
White_Space.
-/
namespace AtomicGroup.Lines

def splitAll {α : Type} [BEq α] (sep : α) : List α → List (List α)
  | [] => [[]]
  | x :: xs =>
    if x == sep then [] :: splitAll sep xs
    else
      match splitAll sep xs with
      | [] => [[x]]
      | piece :: pieces => (x :: piece) :: pieces

/-- A list without its last element when that is `x`. -/
def dropLastIf {α : Type} [BEq α] (x : α) (xs : List α) : List α :=
  if xs.getLast? == some x then xs.dropLast else xs

def lines (text : String) : List String :=
  let pieces := splitAll '\n' text.toList
  let ended := pieces.dropLast.map (dropLastIf '\r')
  let last := pieces.getLastD []
  (if last.isEmpty then ended else ended ++ [last]).map String.ofList

/-- Whether a character has the property White_Space. -/
def isBlank (c : Char) : Bool :=
  let n := c.toNat
  (9 ≤ n && n ≤ 13) || n == 0x20 || n == 0x85 || n == 0xA0 || n == 0x1680 || (0x2000 ≤ n && n ≤ 0x200A)
    || n == 0x2028 || n == 0x2029 || n == 0x202F || n == 0x205F || n == 0x3000

def trim (text : String) : String :=
  String.ofList ((text.toList.dropWhile isBlank).reverse.dropWhile isBlank).reverse

end AtomicGroup.Lines
