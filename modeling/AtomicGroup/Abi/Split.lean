/-!
# Lists in parentheses

Cutting text at the commas that stand outside all parentheses, and at the parenthesis that closes an open one.
-/
namespace AtomicGroup.Abi

/-- A list of pieces with a character put before the first. -/
def consFirst (c : Char) : List (List Char) → List (List Char)
  | [] => [[c]]
  | piece :: pieces => (c :: piece) :: pieces

/-- The pieces of a text inside `depth` open parentheses, cut at its outer commas; every parenthesis has to be
closed at the end and none more than that. -/
def splitFrom : (depth : Nat) → List Char → Option (List (List Char))
  | 0, [] => some [[]]
  | _ + 1, [] => none
  | depth, c :: cs =>
    if c = '(' then (splitFrom (depth + 1) cs).map (consFirst c)
    else if c = ')' then
      match depth with
      | 0 => none
      | depth + 1 => (splitFrom depth cs).map (consFirst c)
    else if c = ',' ∧ depth = 0 then (splitFrom 0 cs).map ([] :: ·)
    else (splitFrom depth cs).map (consFirst c)

/-- The parts of a text between its outer commas, none of which may be empty; an empty text has no parts. -/
def splitTopLevel (text : List Char) : Option (List (List Char)) :=
  if text = [] then some []
  else (splitFrom 0 text).filter fun parts => parts.all (· != [])

/-- A text inside `depth + 1` open parentheses, cut at the one that closes the outermost. -/
def splitClosing : (depth : Nat) → List Char → Option (List Char × List Char)
  | _, [] => none
  | depth, c :: cs =>
    let continueAt (depth : Nat) := (splitClosing depth cs).map fun (inside, rest) => (c :: inside, rest)
    if c = '(' then continueAt (depth + 1)
    else if c = ')' then
      match depth with
      | 0 => some ([], cs)
      | depth + 1 => continueAt depth
    else continueAt depth

def splitFirst? (c : Char) : List Char → Option (List Char × List Char)
  | [] => none
  | x :: xs =>
    if x = c then some ([], xs) else (splitFirst? c xs).map fun (before, rest) => (x :: before, rest)

def splitLast? (c : Char) : List Char → Option (List Char × List Char)
  | [] => none
  | x :: xs =>
    match splitLast? c xs with
    | some (before, rest) => some (x :: before, rest)
    | none => if x = c then some ([], xs) else none

def dropEnd? (ending text : List Char) : Option (List Char) :=
  if ending.isSuffixOf text then some (text.take (text.length - ending.length)) else none

def dropStart? (beginning text : List Char) : Option (List Char) :=
  if beginning.isPrefixOf text then some (text.drop beginning.length) else none

end AtomicGroup.Abi
