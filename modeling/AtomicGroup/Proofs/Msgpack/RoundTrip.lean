import AtomicGroup.Proofs.Msgpack.Spelling

/-!
# Reading canonical msgpack

`Value.Fits` says which values have canonical octets that can be read: their numbers fit 64 bits, their parts are
counted in 32 bits, and no more arrays and maps lie inside one another than the reader follows. For these
`spells_encode` says that the canonical octets are a spelling with the shortest headers, so that they are read as the
value like any other spelling of it.
-/
namespace AtomicGroup.Msgpack

/-- A value that canonical octets hold, with at most a given number of arrays and maps inside one another. -/
inductive Value.Fits : (depth : Nat) → Value → Prop where
  | nil {depth : Nat} : Fits depth .nil
  | bool {depth : Nat} (b : Bool) : Fits depth (.bool b)
  | nat {depth n : Nat} (h : n < 0x10000000000000000) : Fits depth (.nat n)
  /-- Only negative numbers are written with a sign. -/
  | int {depth n : Nat} (h : n < 0x8000000000000000) : Fits depth (.int (.negSucc n))
  | str {depth : Nat} {raw : Bytes} (h : raw.length < 0x100000000) : Fits depth (.str raw)
  | bin {depth : Nat} {raw : Bytes} (h : raw.length < 0x100000000) : Fits depth (.bin raw)
  | array {depth : Nat} {items : List Value} (h : items.length < 0x100000000)
      (hitems : ∀ v ∈ items, Fits depth v) : Fits (depth + 1) (.array items)
  | map {depth : Nat} {entries : List (Value × Value)} (h : entries.length < 0x100000000)
      (hkeys : ∀ e ∈ entries, Fits depth e.1) (hvalues : ∀ e ∈ entries, Fits depth e.2) :
      Fits (depth + 1) (.map entries)

theorem encodeItems_eq_flatten (items : List Value) : encodeItems items = (items.map Value.encode).flatten := by
  induction items with
  | nil => rfl
  | cons v items ih => rw [encodeItems, ih, List.map_cons, List.flatten_cons]

theorem encodeEntries_eq_flatten (entries : List (Value × Value)) :
    encodeEntries entries = ((entries.map fun e => (e.1.encode, e.2.encode)).map fun p => p.1 ++ p.2).flatten := by
  induction entries with
  | nil => rfl
  | cons e entries ih => rw [encodeEntries, ih, List.map_cons, List.map_cons, List.flatten_cons]

/-- The canonical octets of a value have the shortest headers. -/
theorem spells_encode {depth : Nat} {v : Value} (h : v.Fits depth) : Spells Shortest depth v v.encode := by
  induction h with
  | nil => exact .scalar shortest_nil
  | bool b => cases b <;> exact .scalar (shortest_bool _)
  | nat h => exact .scalar (shortest_encodeNat h)
  | int h => exact .scalar (shortest_encodeInt h)
  | str h => exact .scalar (shortest_str h)
  | bin h => exact .scalar (shortest_bin h)
  | @array depth items h _ ih =>
    have hitems : List.Forall₂ (Spells Shortest depth) items (items.map Value.encode) := by
      rw [List.forall₂_map_right_iff, List.forall₂_same]
      exact ih
    obtain ⟨hlen, hzip⟩ := List.forall₂_iff_zip.mp hitems
    rw [Value.encode, encodeItems_eq_flatten]
    exact .array (shortest_array h) hlen fun _ _ => hzip
  | @map depth entries h _ _ ihkeys ihvalues =>
    have hentries : List.Forall₂ (fun e p => Spells Shortest depth e.1 p.1 ∧ Spells Shortest depth e.2 p.2) entries
        (entries.map fun e => (e.1.encode, e.2.encode)) := by
      rw [List.forall₂_map_right_iff, List.forall₂_same]
      exact fun e he => ⟨ihkeys e he, ihvalues e he⟩
    obtain ⟨hlen, hzip⟩ := List.forall₂_iff_zip.mp hentries
    rw [Value.encode, encodeEntries_eq_flatten]
    exact .map (shortest_map h) hlen (fun _ _ hz => (hzip hz).1) fun _ _ hz => (hzip hz).2

/-- The canonical octets of a value decode to it. -/
theorem decode?_encode {v : Value} (h : v.Fits maxDepth) : decode? v.encode = some v :=
  decode?_of_spells ((spells_encode h).mono fun _ _ hshort => hshort.form)

end AtomicGroup.Msgpack
