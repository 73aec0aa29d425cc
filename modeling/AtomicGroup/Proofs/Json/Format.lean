import AtomicGroup.Proofs.Json.RoundTrip
import AtomicGroup.Proofs.Msgpack.Format
import AtomicGroup.Proofs.Text.Bases

/-!
# Records in JSON

JSON is a lawful format, so that a record is read back from its JSON text. Nothing has to be counted: a text is as long
as it needs to be, and only the depth of a schema has to stay within the reader's.
-/
namespace AtomicGroup

open Wire

namespace Json

theorem ofIntText?_intText (n : Int) : ofIntText? (intText n) = some n := by
  cases n with
  | ofNat n =>
    obtain ⟨c, cs, hcs⟩ := List.exists_cons_of_ne_nil (Decimal.digits_ne_nil n)
    have hc : Decimal.isDigit c = true := Decimal.isDigit_of_mem_digits (hcs ▸ List.mem_cons_self)
    have hread := Decimal.readCanonical?_digits n
    rw [intText, Decimal.text, ofIntText?, String.toList_ofList]
    rw [hcs] at hread ⊢
    split
    · rename_i heq
      cases heq
      cases hc
    · rw [hread]
      rfl
  | negSucc n =>
    have htext : (intText (.negSucc n)).toList = '-' :: Decimal.digits (n + 1) := by
      simp [intText, Decimal.text]
    simp only [ofIntText?, htext, Decimal.readCanonical?_digits]

/-- The text of an integer is a numeral. -/
theorem numeral_intText (n : Int) : Numeral (intText n).toList := by
  cases n with
  | ofNat n =>
    rw [intText, Decimal.text, String.toList_ofList]
    exact .natural n
  | negSucc n =>
    have htext : (intText (.negSucc n)).toList = '-' :: Decimal.digits (n + 1) := by
      simp [intText, Decimal.text]
    rw [htext]
    exact .negative (n + 1)

theorem bytes?_string (bs : Bytes) : bytes? (.string (Base64.encode bs)) = some bs := by
  rw [bytes?, text?, Option.bind_some, Base64.decode?_encode]

instance : LawfulFormat Json where
  int?_ofInt := ofIntText?_intText
  bool?_ofBool _ := rfl
  text?_ofText _ := rfl
  bytes?_ofBytes := bytes?_string
  block?_ofBytes b := by
    change (bytes? (.string (Base64.encode b.bytes))).bind _ = _
    rw [bytes?_string]
    exact Block.ofBytes?_bytes b
  list?_ofList _ := rfl
  fields?_ofRecord _ _ _ := rfl
  isNull_null := rfl
  isNull_ofInt _ := rfl
  isNull_ofBool _ := rfl
  isNull_ofText _ := rfl
  isNull_ofBytes _ := rfl
  isNull_ofList _ := rfl
  isNull_ofRecord _ := rfl

end Json

namespace Wire

mutual

/-- The tree of a value has a text. -/
theorem Schema.json_fits_write {α : Type} : (s : Schema α) → (x : α) → (depth : Nat) → s.depth ≤ depth →
    (s.write x : Json).Fits depth
  | .uint8, _, _, _ => .number (Json.numeral_intText _)
  | .uint32, _, _, _ => .number (Json.numeral_intText _)
  | .uint64, _, _, _ => .number (Json.numeral_intText _)
  | .int64, _, _, _ => .number (Json.numeral_intText _)
  | .bool, b, _, _ => .bool b
  | .text, s, _, _ => .string s
  | .bytes, bs, _, _ => .string _
  | .block _, b, _, _ => .string _
  | .list item, xs, depth + 1, hd => by
    refine .array fun v hv => ?_
    obtain ⟨x, hx, rfl⟩ := List.mem_map.mp hv
    exact Schema.json_fits_write item x depth (Nat.le_of_succ_le_succ hd)
  | .option _, none, _, _ => .null
  | .option item, some x, depth, hd => Schema.json_fits_write item x depth hd
  | .via view _ carrier, x, depth, hd => Schema.json_fits_write carrier (view x) depth hd
  | .record _ _ fields, r, depth + 1, hd =>
    .object (Fields.json_fits_write fields r depth (Nat.le_of_succ_le_succ hd))

/-- The trees of the fields of a record have texts. -/
theorem Fields.json_fits_write {ρ γ : Type} : (fields : Fields ρ γ) → (r : ρ) → (depth : Nat) → fields.depth ≤ depth →
    ∀ f ∈ (fields.write r : List (String × Json)), f.2.Fits depth
  | .nil, _, _, _ => nofun
  | .cons key schema get _ skip rest, r, depth, hd => by
    have htail := Fields.json_fits_write rest r depth (Nat.le_trans (Nat.le_max_right _ _) hd)
    rw [Fields.write]
    split
    · exact htail
    · refine List.forall_mem_cons.mpr ⟨?_, htail⟩
      exact Schema.json_fits_write schema (get r) depth (Nat.le_trans (Nat.le_max_left _ _) hd)

end

/-- The JSON text of a value of a lawful schema reads as it. -/
theorem Schema.ofJson_toJson {α : Type} {s : Schema α} (hl : s.Lawful) (hd : s.depth ≤ Json.maxDepth) (x : α) :
    s.ofJson (s.toJson x) = .ok x := by
  have hfits := s.json_fits_write x Json.maxDepth hd
  have hread : s.read? (s.write x : Json) = some x := s.read?_write hl x
  rw [Schema.ofJson, Schema.toJson, Json.parse?_compact hfits, Option.bind_some, hread]

/-- So does its text on lines of its own. -/
theorem Schema.ofJson_pretty {α : Type} {s : Schema α} (hl : s.Lawful) (hd : s.depth ≤ Json.maxDepth) (x : α) :
    s.ofJson (Json.pretty (s.write x)) = .ok x := by
  have hfits := s.json_fits_write x Json.maxDepth hd
  have hread : s.read? (s.write x : Json) = some x := s.read?_write hl x
  rw [Schema.ofJson, Json.parse?_pretty hfits, Option.bind_some, hread]

end Wire

end AtomicGroup
