import AtomicGroup.Bytes

/-!
# What a data format offers

A `Format` is a kind of tree that records are written to and read from. Records know nothing else of
msgpack and JSON, so whatever holds of all formats holds of both.
-/
namespace AtomicGroup.Wire

class Format (D : Type) where
  /-- The tree of an absent value. -/
  null : D
  ofInt : Int → D
  ofBool : Bool → D
  ofText : String → D
  ofBytes : Bytes → D
  ofList : List D → D
  /-- The tree of a record, whose present fields are given with their keys. -/
  ofRecord : List (String × D) → D
  isNull : D → Bool
  int? : D → Option Int
  bool? : D → Option Bool
  text? : D → Option String
  bytes? : D → Option Bytes
  /-- A byte string of a fixed length. -/
  block? : (n : Nat) → D → Option (Block n)
  list? : D → Option (List D)
  /-- The present fields of a record that declares the given keys; a strict record admits no other. -/
  fields? : (strict : Bool) → (keys : List String) → D → Option (List (String × D))

/-- The entries whose keys are declared. No declared key may come twice; a foreign key, `none` or not
declared, is refused by a strict record and dropped by another. -/
def selectFields {D : Type} (strict : Bool) (keys : List String) :
    List (Option String × D) → Option (List (String × D))
  | [] => some []
  | (key?, d) :: entries => do
    let selected ← selectFields strict keys entries
    match key?.filter keys.contains with
    | some key => if selected.any (·.1 == key) then none else return (key, d) :: selected
    | none => if strict then none else return selected

/-- The fields of a record that is written as a list of its first fields. -/
def positionalFields {D : Type} (keys : List String) (items : List D) : Option (List (String × D)) :=
  if items.length ≤ keys.length then some (keys.zip items) else none

end AtomicGroup.Wire
