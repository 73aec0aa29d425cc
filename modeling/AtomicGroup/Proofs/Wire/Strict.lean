import AtomicGroup.Proofs.Json.Format
import AtomicGroup.Proofs.Wire.Canonical

/-!
# Strict records

A strict record is made of nothing but its fields, each of them once. `Schema.Intruded` says which trees a value has when
one entry more is put somewhere into one of its records, with a key that is foreign to the record or there already. If
all records of a schema are strict, then none of these trees is read, whatever the entry holds.
-/
namespace AtomicGroup.Wire

open Msgpack (Value Spells)

/-- The entries of a record together with one more, which is under a foreign key or repeats one. -/
def Intrusion {D : Type} (keys : List String) (written entries : List (String × D)) : Prop :=
  ∃ front back key d, written = front ++ back ∧ entries = front ++ (key, d) :: back ∧
    (key ∉ keys ∨ key ∈ written.map (·.1))

mutual

/-- The trees of a value in which one record has an entry too many. -/
def Schema.Intruded {D : Type} [Format D] {α : Type} : Schema α → α → D → Prop
  | .list item, xs, d => ∃ front x back e, xs = front ++ x :: back ∧ item.Intruded x e ∧
    d = Format.ofList (List.map item.write front ++ e :: List.map item.write back)
  | .option item, some x, d => item.Intruded x d
  | .via view _ carrier, x, d => carrier.Intruded (view x) d
  | .record _ _ fields, r, d => ∃ entries, d = Format.ofRecord entries ∧
    (Intrusion fields.keys (fields.write r) entries ∨ fields.Intruded r entries)
  | _, _, _ => False

def Fields.Intruded {D : Type} [Format D] {ρ γ : Type} : Fields ρ γ → ρ → List (String × D) → Prop
  | .nil, _, _ => False
  | .cons key schema get _ skip rest, r, entries =>
    if skip (get r) then rest.Intruded r entries
    else (∃ d, schema.Intruded (get r) d ∧ entries = (key, d) :: rest.write r) ∨
      ∃ later, rest.Intruded r later ∧ entries = (key, schema.write (get r)) :: later

end

/-- A strict record takes the entries of different declared keys as they are, and no others. -/
theorem selectFields_strict {D : Type} {keys : List String} {entries selected : List (String × D)} :
    selectFields true keys (entries.map fun f => (some f.1, f.2)) = some selected ↔
      selected = entries ∧ (∀ f ∈ entries, f.1 ∈ keys) ∧ (entries.map (·.1)).Nodup := by
  refine ⟨fun h => ?_, fun ⟨heq, hdeclared, hdistinct⟩ => heq ▸ selectFields_declared true keys entries hdeclared hdistinct⟩
  induction entries generalizing selected with
  | nil =>
    cases h
    exact ⟨rfl, nofun, List.nodup_nil⟩
  | cons f entries ih =>
    rw [List.map_cons, selectFields, Option.bind_eq_bind, Option.bind_eq_some_iff] at h
    obtain ⟨later, hlater, h⟩ := h
    obtain ⟨rfl, hdeclared, hdistinct⟩ := ih hlater
    by_cases hkey : f.1 ∈ keys
    · have hfilter : Option.filter keys.contains (some f.1) = some f.1 := by simp [hkey]
      rw [hfilter] at h
      dsimp only at h
      split at h
      · cases h
      · rename_i hnew
        cases h
        refine ⟨rfl, List.forall_mem_cons.mpr ⟨hkey, hdeclared⟩, List.nodup_cons.mpr ⟨fun hmem => hnew ?_, hdistinct⟩⟩
        obtain ⟨g, hg, heq⟩ := List.mem_map.mp hmem
        exact List.any_eq_true.mpr ⟨g, hg, by simpa using heq⟩
    · have hfilter : Option.filter keys.contains (some f.1) = none := by simp [hkey]
      rw [hfilter] at h
      cases h

theorem selectFields_of_intrusion {D : Type} {keys : List String} {written entries : List (String × D)}
    (h : Intrusion keys written entries) :
    selectFields true keys (entries.map fun f => (some f.1, f.2)) = none := by
  obtain ⟨front, back, key, d, rfl, rfl, hkey⟩ := h
  rw [Option.eq_none_iff_forall_ne_some]
  intro selected hselect
  obtain ⟨-, hdeclared, hdistinct⟩ := selectFields_strict.mp hselect
  rcases hkey with hforeign | hthere
  · exact hforeign (hdeclared (key, d) (List.mem_append_right front List.mem_cons_self))
  · rw [List.map_append, List.map_cons, List.nodup_middle, ← List.map_append] at hdistinct
    exact (List.nodup_cons.mp hdistinct).1 hthere

/-- A list is not read when one of its items is not. -/
theorem mapM_read?_eq_none {D : Type} [Format D] {α : Type} {item : Schema α} (front back : List D) {d : D}
    (h : item.read? d = none) : (front ++ d :: back).mapM item.read? = none := by
  induction front with
  | nil =>
    rw [List.nil_append, List.mapM_cons, h]
    rfl
  | cons e front ih =>
    rw [List.cons_append, List.mapM_cons, ih]
    cases item.read? e <;> rfl

open LawfulFormat

/-- A tree with an entry too many is that of a record or holds one, so that it is never that of an absent value. -/
theorem Schema.isNull_of_intruded {D : Type} [Format D] [LawfulFormat D] {α : Type} : (s : Schema α) → (x : α) →
    (d : D) → s.Intruded x d → Format.isNull d = false
  | .list _, _, d, h => by
    obtain ⟨_, _, _, _, -, -, rfl⟩ := h
    exact isNull_ofList _
  | .option _, none, _, h => h.elim
  | .option item, some x, d, h => Schema.isNull_of_intruded item x d h
  | .via view _ carrier, x, d, h => Schema.isNull_of_intruded carrier (view x) d h
  | .record _ _ _, _, d, h => by
    obtain ⟨_, rfl, -⟩ := h
    exact isNull_ofRecord _
  | .uint8, _, _, h => h.elim
  | .uint32, _, _, h => h.elim
  | .uint64, _, _, h => h.elim
  | .int64, _, _, h => h.elim
  | .bool, _, _, h => h.elim
  | .text, _, _, h => h.elim
  | .bytes, _, _, h => h.elim
  | .block _, _, _, h => h.elim

section Reading

variable {p : (ρ γ : Type) → Bool → Fields ρ γ → Prop}

mutual

/-- When all records are strict, a tree with an entry too many is not read. -/
theorem Schema.read?_of_intruded {D : Type} [Format D] [LawfulFormat D]
    (hp : ∀ ρ γ strict (fields : Fields ρ γ), p ρ γ strict fields → strict = true) {α : Type} : (s : Schema α) →
    s.Lawful → s.Each p → (x : α) → (d : D) → s.Intruded x d → s.read? d = none
  | .list item, hl, he, _, d, h => by
    obtain ⟨front, x, back, e, rfl, hx, rfl⟩ := h
    have hitem := Schema.read?_of_intruded hp item hl he x e hx
    have hitems := mapM_read?_eq_none (List.map item.write front) (List.map item.write back) hitem
    simp only [Schema.read?, list?_ofList, Option.bind_eq_bind, Option.bind_some, hitems]
  | .option _, _, _, none, _, h => h.elim
  | .option item, hl, he, some x, d, h => by
    have hitem := Schema.read?_of_intruded hp item hl.1 he x d h
    simp only [Schema.read?, Schema.isNull_of_intruded item x d h, Bool.false_eq_true, if_false, hitem, Option.map_none]
  | .via view _ carrier, hl, he, x, d, h => by
    rw [Schema.read?, Schema.read?_of_intruded hp carrier hl.1 he (view x) d h, Option.bind_none]
  | .record strict make fields, hl, he, r, d, h => by
    obtain ⟨hfields, hdistinct, -⟩ := hl
    obtain ⟨entries, rfl, hentries⟩ := h
    obtain rfl : strict = true := hp _ _ _ _ he.1
    rw [Schema.read?, fields?_ofRecord, Option.bind_eq_bind, Option.bind_eq_none_iff]
    intro selected hselect
    rcases hentries with hintrusion | hnested
    · rw [selectFields_of_intrusion hintrusion] at hselect
      cases hselect
    · obtain ⟨rfl, -, -⟩ := selectFields_strict.mp hselect
      exact Fields.read?_of_intruded hp fields hfields he.2 hdistinct r selected hnested selected (fun _ _ => rfl) make
  | .uint8, _, _, _, _, h => h.elim
  | .uint32, _, _, _, _, h => h.elim
  | .uint64, _, _, _, _, h => h.elim
  | .int64, _, _, _, _, h => h.elim
  | .bool, _, _, _, _, h => h.elim
  | .text, _, _, _, _, h => h.elim
  | .bytes, _, _, _, _, h => h.elim
  | .block _, _, _, _, _, h => h.elim

/-- No record is made of entries one of which cannot be read, nor of any entries in which the fields are found alike. -/
theorem Fields.read?_of_intruded {D : Type} [Format D] [LawfulFormat D]
    (hp : ∀ ρ γ strict (fields : Fields ρ γ), p ρ γ strict fields → strict = true) {ρ γ : Type} :
    (fields : Fields ρ γ) → fields.Lawful → fields.Each p → fields.keys.Nodup → (r : ρ) →
    (entries : List (String × D)) → fields.Intruded r entries → (found : List (String × D)) →
    (∀ key ∈ fields.keys, found.lookup key = entries.lookup key) → (make : γ) → fields.read? found make = none
  | .nil, _, _, _, _, _, h, _, _, _ => h.elim
  | .cons key schema get absent skip rest, hl, he, hdistinct, r, entries, h, found, hfound, make => by
    obtain ⟨hnew, hdistinct⟩ := List.nodup_cons.mp hdistinct
    have hlater (later : List (String × D)) (hnested : rest.Intruded r later)
        (hsame : ∀ k ∈ rest.keys, entries.lookup k = later.lookup k) :
        (Fields.cons key schema get absent skip rest).read? found make = none := by
      have hrest (x) : rest.read? found (make x) = none :=
        Fields.read?_of_intruded hp rest hl.2.2 he.2 hdistinct r later hnested found
          (fun k hk => (hfound k (List.mem_cons_of_mem _ hk)).trans (hsame k hk)) (make x)
      simp only [Fields.read?, hrest, Option.bind_eq_bind, Option.bind_fun_none]
      split <;> rfl
    rw [Fields.Intruded] at h
    split at h
    · exact hlater entries h fun _ _ => rfl
    · rcases h with ⟨d, hd, rfl⟩ | ⟨later, hnested, rfl⟩
      · have hkey : found.lookup key = some d := by rw [hfound key List.mem_cons_self, List.lookup_cons_self]
        have hfield := Schema.read?_of_intruded hp schema hl.1 he.1 (get r) d hd
        simp only [Fields.read?, hkey, hfield, Option.bind_eq_bind, Option.bind_none]
      · refine hlater later hnested fun k hk => ?_
        have hne : (k == key) = false := beq_false_of_ne fun heq => hnew (heq ▸ hk)
        rw [List.lookup_cons, hne]

end

end Reading

namespace Schema

variable {α : Type} {s : Schema α} {x : α}

/-- Octets that spell what is written of a value decode to it. -/
theorem decode_of_spells (hl : s.Lawful) {bs : Bytes} (hs : Spells Msgpack.Form Msgpack.maxDepth (s.write x) bs) :
    s.decode bs = .ok x := by
  rw [decode, Msgpack.decode?_of_spells hs, Option.bind_some, s.read?_write hl x]

/-- A JSON text that spells what is written of a value is read as it. -/
theorem ofJson_of_spells (hl : s.Lawful) {text padded : List Char}
    (hs : Json.Spells Json.maxDepth (s.write x) text) (hp : Json.Padded text padded) :
    s.ofJson (String.ofList padded) = .ok x := by
  rw [ofJson, Json.parse?_of_spells hs hp, Option.bind_some, s.read?_write hl x]

/-- No octets of a value in which a record has an entry too many are decoded. -/
theorem decode_of_intruded (hl : s.Lawful) (ht : s.Each @Fields.Tidy) {v : Value} (h : s.Intruded x v) {depth : Nat}
    {bs : Bytes} (hs : Spells Msgpack.Form depth v bs) : s.decode bs = .error .decode := by
  have hread := s.read?_of_intruded (fun _ _ _ _ h => h.strict) hl ht x v h
  have hnone : (Msgpack.decode? bs).bind s.read? = none := by
    rw [Option.bind_eq_none_iff]
    intro found hfound
    rw [Msgpack.eq_of_decode?_of_spells hs hfound, hread]
  rw [decode, hnone]

/-- No JSON text of a value in which a record has an entry too many is read. -/
theorem ofJson_of_intruded (hl : s.Lawful) (ht : s.Each @Fields.Tidy) {v : Json} (h : s.Intruded x v)
    {text padded : List Char} (hs : Json.Spells Json.maxDepth v text) (hp : Json.Padded text padded) :
    s.ofJson (String.ofList padded) = .error .json := by
  have hread := s.read?_of_intruded (fun _ _ _ _ h => h.strict) hl ht x v h
  rw [ofJson, Json.parse?_of_spells hs hp, Option.bind_some, hread]

end Schema

end AtomicGroup.Wire
