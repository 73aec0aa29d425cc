import AtomicGroup.Json.Token

/-!
# Reading JSON

Plain recursive descent over the characters of a text. Arrays and objects are read as far as `maxDepth` of them lie
inside one another; what lies deeper is passed over, with the closing brackets still owed kept in a list, so that depth
costs nothing. Only blanks may follow the value.

Where a text stands for itself and not for a record, all of it must be readable, which `parsePlain?` sees to. There a
number may come in disguise: as an object of one member, whose key is `numberKey` and whose value is the number's text
in a string.
-/
namespace AtomicGroup.Json

/-- The bracket that closes what a character opens. -/
def closing? (c : Char) : Option Char :=
  if c = '[' then some ']' else if c = '\x7b' then some '\x7d' else none

/-- The text from an item's value on, inside the brackets that a given one closes: an object's item has its key
first. -/
def itemValue? (closing : Char) (cs : List Char) : Option (List Char) :=
  if closing = ']' then some cs else (readKey? (skipBlanks cs)).map (·.2)

/-- The rest after all owed brackets. Before it stands a value, or the end of one. -/
def passBrackets? : (fuel : Nat) → (atValue : Bool) → (owed : List Char) → List Char → Option (List Char)
  | 0, _, _, _ => none
  | _ + 1, false, [], cs => some cs
  | fuel + 1, false, closing :: outer, cs =>
    match skipBlanks cs with
    | [] => none
    | c :: rest =>
      if c = closing then passBrackets? fuel false outer rest
      else if c = ',' then
        match itemValue? closing rest with
        | none => none
        | some rest => passBrackets? fuel true (closing :: outer) rest
      else none
  | fuel + 1, true, owed, cs =>
    match skipBlanks cs with
    | [] => none
    | c :: rest =>
      match closing? c with
      | none =>
        match readScalar? (c :: rest) with
        | none => none
        | some (_, rest) => passBrackets? fuel false owed rest
      | some closing =>
        match skipBlanks rest with
        | [] => none
        | d :: inside =>
          if d = closing then passBrackets? fuel false owed inside
          else
            match itemValue? closing (d :: inside) with
            | none => none
            | some inside => passBrackets? fuel true (closing :: owed) inside

/-- The rest after a value of any depth. -/
def passValue? (cs : List Char) : Option (List Char) := passBrackets? (cs.length + 1) true [] cs

/-- Items with a comma between them, up to the closing bracket. -/
def readItems? {α : Type} (read : List Char → Option (α × List Char)) (closing : Char) :
    (fuel : Nat) → List Char → Option (List α × List Char)
  | 0, _ => none
  | fuel + 1, cs => do
    let (item, rest) ← read (skipBlanks cs)
    match skipBlanks rest with
    | c :: rest =>
      if c = closing then return ([item], rest)
      else if c = ',' then
        let (items, rest) ← readItems? read closing fuel rest
        return (item :: items, rest)
      else none
    | [] => none

/-- Any number of items up to the closing bracket. -/
def readEnclosed? {α : Type} (read : List Char → Option (α × List Char)) (closing : Char)
    (cs : List Char) : Option (List α × List Char) :=
  match skipBlanks cs with
  | [] => none
  | c :: rest => if c = closing then some ([], rest) else readItems? read closing cs.length (c :: rest)

/-- A key, a colon and a value. -/
def readMember? {α : Type} (read : List Char → Option (α × List Char)) (cs : List Char) :
    Option ((Option String × α) × List Char) := do
  let (key?, rest) ← readKey? cs
  let (value, rest) ← read (skipBlanks rest)
  return ((key?, value), rest)

/-- The value at the front, with at most `depth` arrays and objects inside one another. -/
def readValue? : (depth : Nat) → List Char → Option (Json × List Char)
  | 0, cs =>
    match cs.head?.bind closing? with
    | some _ => (passValue? cs).map (.unreadable, ·)
    | none => readScalar? cs
  | depth + 1, cs =>
    match cs with
    | '[' :: rest =>
      (readEnclosed? (readValue? depth) ']' rest).map fun (items, rest) => (.array items, rest)
    | '\x7b' :: rest =>
      (readEnclosed? (readMember? (readValue? depth)) '\x7d' rest).map
        fun (members, rest) => (ofMembers members, rest)
    | _ => readScalar? cs

/-- How many arrays and objects may lie inside one another. -/
def maxDepth : Nat := 127

def parse? (text : String) : Option Json := do
  let (value, rest) ← readValue? maxDepth (skipBlanks text.toList)
  if (skipBlanks rest).isEmpty then return value else none

/-- The key that marks a number in disguise, when it comes first. -/
def numberKey : String := "$serde_json::private::Number"

def numeral? : Json → Option Json
  | .string text =>
    match readNumber? text.toList with
    | some (digits, []) => some (.number (String.ofList digits))
    | _ => none
  | _ => none

mutual

/-- A value without numbers in disguise; none when some part is unreadable or a disguise holds no number. -/
def plain? : Json → Option Json
  | .null => some .null
  | .bool b => some (.bool b)
  | .number text => some (.number text)
  | .string s => some (.string s)
  | .array items => (plainItems? items).map .array
  | .object members =>
    match members with
    | [] => some (.object [])
    | (key, value) :: rest =>
      if key = numberKey then
        if rest.isEmpty then numeral? value else none
      else (plainMembers? members).map .object
  | .unreadable => none

def plainItems? : List Json → Option (List Json)
  | [] => some []
  | item :: items => do
    let item ← plain? item
    return item :: (← plainItems? items)

def plainMembers? : List (String × Json) → Option (List (String × Json))
  | [] => some []
  | (key, value) :: members => do
    let value ← plain? value
    return (key, value) :: (← plainMembers? members)

end

/-- The value that a text writes, all of it. -/
def parsePlain? (text : String) : Option Json := (parse? text).bind plain?

end AtomicGroup.Json
