import AtomicGroup.Wire.Format

/-!
# Schemas of records

A `Schema α` says once how values of type `α` stand in any data format; writing and reading are both read off
it. A record's schema is a table of its fields, in the order of their keys: how to get the field from the
record, when it is left out, and what it is when it is absent.
-/
namespace AtomicGroup.Wire

mutual

/-- How the values of a type stand in a data format. -/
inductive Schema : Type → Type 1 where
  | uint8 : Schema UInt8
  | uint32 : Schema UInt32
  | uint64 : Schema UInt64
  | int64 : Schema Int64
  | bool : Schema Bool
  | text : Schema String
  | bytes : Schema Bytes
  | block (n : Nat) : Schema (Block n)
  | list {α : Type} (item : Schema α) : Schema (List α)
  | option {α : Type} (item : Schema α) : Schema (Option α)
  /-- A type whose values stand for those values of another that `of?` accepts. -/
  | via {α β : Type} (view : β → α) (of? : α → Option β) (carrier : Schema α) : Schema β
  /-- A record, made of its fields in the order of the table. -/
  | record {ρ γ : Type} (strict : Bool) (make : γ) (fields : Fields ρ γ) : Schema ρ

/-- The fields of a record `ρ` that a constructor of type `γ` takes. -/
inductive Fields : Type → Type → Type 1 where
  | nil {ρ : Type} : Fields ρ ρ
  | cons {ρ α β : Type} (key : String) (schema : Schema α) (get : ρ → α) (absent : Option α)
      (skip : α → Bool) (rest : Fields ρ β) : Fields ρ (α → β)

end

def Fields.keys {ρ γ : Type} : Fields ρ γ → List String
  | .nil => []
  | .cons key _ _ _ _ rest => key :: rest.keys

/-- A field that is left out when it holds its default. -/
abbrev Fields.optional {ρ α β : Type} [DecidableEq α] (key : String) (schema : Schema α) (get : ρ → α)
    (default : α) (rest : Fields ρ β) : Fields ρ (α → β) :=
  .cons key schema get (some default) (fun x => decide (x = default)) rest

/-- A field that is always written, and has a default when it is absent. -/
abbrev Fields.kept {ρ α β : Type} (key : String) (schema : Schema α) (get : ρ → α)
    (default : α) (rest : Fields ρ β) : Fields ρ (α → β) :=
  .cons key schema get (some default) (fun _ => false) rest

/-- A field that is always there. -/
abbrev Fields.required {ρ α β : Type} (key : String) (schema : Schema α) (get : ρ → α)
    (rest : Fields ρ β) : Fields ρ (α → β) :=
  .cons key schema get none (fun _ => false) rest

mutual

def Schema.write {D : Type} [Format D] {α : Type} : Schema α → α → D
  | .uint8, n => Format.ofInt n.toNat
  | .uint32, n => Format.ofInt n.toNat
  | .uint64, n => Format.ofInt n.toNat
  | .int64, n => Format.ofInt n.toInt
  | .bool, b => Format.ofBool b
  | .text, s => Format.ofText s
  | .bytes, bs => Format.ofBytes bs
  | .block _, b => Format.ofBytes b.bytes
  | .list item, xs => Format.ofList (xs.map item.write)
  | .option _, none => Format.null
  | .option item, some x => item.write x
  | .via view _ carrier, x => carrier.write (view x)
  | .record _ _ fields, r => Format.ofRecord (fields.write r)

/-- The fields of a record that are not left out, with their keys. -/
def Fields.write {D : Type} [Format D] {ρ γ : Type} : Fields ρ γ → ρ → List (String × D)
  | .nil, _ => []
  | .cons key schema get _ skip rest, r =>
    if skip (get r) then rest.write r else (key, schema.write (get r)) :: rest.write r

end

def natBelow? {D : Type} [Format D] (bound : Nat) (d : D) : Option Nat := do
  let n ← Format.int? d
  if 0 ≤ n ∧ n < bound then return n.toNat else none

mutual

def Schema.read? {D : Type} [Format D] {α : Type} : Schema α → D → Option α
  | .uint8, d => (natBelow? UInt8.size d).map UInt8.ofNat
  | .uint32, d => (natBelow? UInt32.size d).map UInt32.ofNat
  | .uint64, d => (natBelow? UInt64.size d).map UInt64.ofNat
  | .int64, d => do
    let n ← Format.int? d
    if Int64.minValue.toInt ≤ n ∧ n ≤ Int64.maxValue.toInt then return Int64.ofInt n else none
  | .bool, d => Format.bool? d
  | .text, d => Format.text? d
  | .bytes, d => Format.bytes? d
  | .block n, d => Format.block? n d
  | .list item, d => do (← Format.list? d).mapM item.read?
  | .option item, d => if Format.isNull d then some none else (item.read? d).map some
  | .via _ of? carrier, d => (carrier.read? d).bind of?
  | .record strict make fields, d => do fields.read? (← Format.fields? strict fields.keys d) make

def Fields.read? {D : Type} [Format D] {ρ γ : Type} : Fields ρ γ → List (String × D) → γ → Option ρ
  | .nil, _, r => some r
  | .cons key schema _ absent _ rest, entries, make => do
    let x ← match entries.lookup key with
      | some d => schema.read? d
      | none => absent
    rest.read? entries (make x)

end

end AtomicGroup.Wire
