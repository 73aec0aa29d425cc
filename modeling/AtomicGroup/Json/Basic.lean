import AtomicGroup.Text.Numerals

/-!
# JSON values and their text

A number is kept as the text that writes it, so that no digit is lost; an object keeps its members in the order in
which they were written. A `Layout` says what is printed between the parts of a value: nothing at all, or a line for
each item and a blank after each colon. Strings escape the quote, the backslash and the control characters, and
nothing else.
-/
namespace AtomicGroup

inductive Json where
  | null
  | bool (b : Bool)
  | number (text : String)
  | string (s : String)
  | array (items : List Json)
  | object (members : List (String × Json))
  /-- What follows the grammar but has no content: its text spells no characters, or it lies too deep. It may stand
  where a value is passed over. -/
  | unreadable
deriving Inhabited, Repr, BEq

namespace Json

/-- An object with the given members, which is unreadable when a key is. -/
def ofMembers (members : List (Option String × Json)) : Json :=
  match members.mapM fun (key?, value) => key?.map (·, value) with
  | some members => .object members
  | none => .unreadable

/-- The blanks between the parts of a printed value. -/
structure Layout where
  /-- What stands before an item at a given depth, and before the closing bracket. -/
  lineBreak : Nat → List Char
  /-- What stands between a key and its value. -/
  colon : List Char

def Layout.compact : Layout := ⟨fun _ => [], [':']⟩

/-- A line for each item, indented by two blanks for each level. -/
def Layout.pretty : Layout := ⟨fun depth => '\n' :: List.replicate (2 * depth) ' ', [':', ' ']⟩

/-- A character as it stands in a string. -/
def escape (c : Char) : List Char :=
  if c = '"' then ['\\', '"']
  else if c = '\\' then ['\\', '\\']
  else if c = '\x08' then ['\\', 'b']
  else if c = '\x0c' then ['\\', 'f']
  else if c = '\n' then ['\\', 'n']
  else if c = '\r' then ['\\', 'r']
  else if c = '\t' then ['\\', 't']
  else if c.toNat < 0x20 then ['\\', 'u', '0', '0', Hex.digit (c.toNat / 16), Hex.digit (c.toNat % 16)]
  else [c]

def quote (s : String) : List Char := '"' :: (s.toList.flatMap escape ++ ['"'])

/-- Printed parts with a comma between them, each on its line, then the closing bracket on its own. -/
def enclose (layout : Layout) (depth : Nat) (opening closing : Char) : List (List Char) → List Char
  | [] => [opening, closing]
  | parts@(_ :: _) =>
    opening :: (List.intercalate [','] (parts.map (layout.lineBreak (depth + 1) ++ ·))
      ++ layout.lineBreak depth ++ [closing])

mutual

def chars (layout : Layout) (depth : Nat) : Json → List Char
  | .null | .unreadable => ['n', 'u', 'l', 'l']
  | .bool true => ['t', 'r', 'u', 'e']
  | .bool false => ['f', 'a', 'l', 's', 'e']
  | .number text => text.toList
  | .string s => quote s
  | .array items => enclose layout depth '[' ']' (itemChars layout (depth + 1) items)
  | .object members => enclose layout depth '\x7b' '\x7d' (memberChars layout (depth + 1) members)

def itemChars (layout : Layout) (depth : Nat) : List Json → List (List Char)
  | [] => []
  | item :: items => chars layout depth item :: itemChars layout depth items

def memberChars (layout : Layout) (depth : Nat) : List (String × Json) → List (List Char)
  | [] => []
  | (key, value) :: members =>
    (quote key ++ layout.colon ++ chars layout depth value) :: memberChars layout depth members

end

def compact (value : Json) : String := String.ofList (value.chars .compact 0)

def pretty (value : Json) : String := String.ofList (value.chars .pretty 0)

end Json

end AtomicGroup
