import AtomicGroup.Proofs.Msgpack.Format

/-!
# The canonical octets of a record, and all others

A tidy record declares its keys in ascending order and leaves a field out exactly when it holds its default. In the
canonical octets of a value each record is arranged so, and each header is as short as it can be. Other octets write the
same value: their records may come in any order and show fields that could be left out, and their headers may be longer.
All of them are read alike.
-/
namespace AtomicGroup.Wire

open Msgpack (Value Spells)

/-- A field is missing exactly when it is one that can be left out and holds its default. -/
def Fields.Appears {ρ γ : Type} : Fields ρ γ → ρ → List String → Prop
  | .nil, _, _ => True
  | .cons key _ get absent skip rest, r, keys =>
    (key ∉ keys ↔ (∃ x, skip x) ∧ absent = some (get r)) ∧ rest.Appears r keys

/-- Ascending keys of the fields that do not hold their default. -/
structure Fields.Ordered {ρ γ : Type} (fields : Fields ρ γ) (r : ρ) (keys : List String) : Prop where
  ascending : keys.Pairwise fun a b => Utf8.encode a < Utf8.encode b
  declared : ∀ key ∈ keys, key ∈ fields.keys
  appears : fields.Appears r keys

/-- The one arrangement that is written. -/
def Arrangement.canonical : Arrangement := fun _ _ fields r keys => fields.Ordered r keys

/-- What can be left out is so exactly when it is the default. -/
def Fields.Exact {ρ γ : Type} : Fields ρ γ → Prop
  | .nil => True
  | .cons _ _ _ absent skip rest => (∀ x, skip x ↔ (∃ y, skip y) ∧ absent = some x) ∧ rest.Exact

/-- A strict record with ascending keys whose fields are left out exactly when they hold their defaults. -/
structure Fields.Tidy {ρ γ : Type} (strict : Bool) (fields : Fields ρ γ) : Prop where
  strict : strict = true
  ascending : fields.keys.Pairwise fun a b => Utf8.encode a < Utf8.encode b
  exact : fields.Exact

section Laws

variable {ρ α β : Type} {key : String} {schema : Schema α} {get : ρ → α} {rest : Fields ρ β}

@[simp] theorem exact_nil : (Fields.nil : Fields ρ ρ).Exact := trivial

@[simp] theorem exact_optional [DecidableEq α] {default : α} :
    (Fields.optional key schema get default rest).Exact ↔ rest.Exact := by
  refine and_iff_right fun x => ?_
  have hsome : ∃ y, decide (y = default) = true := ⟨default, decide_eq_true rfl⟩
  rw [and_iff_right hsome, decide_eq_true_eq, Option.some_inj, eq_comm]

@[simp] theorem exact_kept {default : α} : (Fields.kept key schema get default rest).Exact ↔ rest.Exact :=
  and_iff_right fun x => by simp

@[simp] theorem exact_required : (Fields.required key schema get rest).Exact ↔ rest.Exact :=
  and_iff_right fun x => by simp

variable {p : (ρ γ : Type) → Bool → Fields ρ γ → Prop}

@[simp] theorem each_uint8 : Schema.uint8.Each p := trivial
@[simp] theorem each_uint32 : Schema.uint32.Each p := trivial
@[simp] theorem each_uint64 : Schema.uint64.Each p := trivial
@[simp] theorem each_bool : Schema.bool.Each p := trivial
@[simp] theorem each_text : Schema.text.Each p := trivial
@[simp] theorem each_bytes : Schema.bytes.Each p := trivial
@[simp] theorem each_block {n : Nat} : (Schema.block n).Each p := trivial
@[simp] theorem each_list : schema.list.Each p ↔ schema.Each p := Iff.rfl
@[simp] theorem each_option : schema.option.Each p ↔ schema.Each p := Iff.rfl
@[simp] theorem each_via {view : β → α} {of? : α → Option β} : (Schema.via view of? schema).Each p ↔ schema.Each p :=
  Iff.rfl
@[simp] theorem each_nil : (Fields.nil : Fields ρ ρ).Each p := trivial
@[simp] theorem each_cons {absent : Option α} {skip : α → Bool} :
    (Fields.cons key schema get absent skip rest).Each p ↔ schema.Each p ∧ rest.Each p := Iff.rfl

end Laws

section Ordered

variable {ρ γ : Type} {r : ρ}

theorem Fields.Appears.congr {keys more : List String} : {γ : Type} → {fields : Fields ρ γ} → fields.Appears r keys →
    (∀ key ∈ fields.keys, key ∈ keys ↔ key ∈ more) → fields.Appears r more
  | _, .nil, _, _ => trivial
  | _, .cons key _ _ _ _ _, h, hkeys => by
    refine ⟨?_, h.2.congr fun k hk => hkeys k (List.mem_cons_of_mem _ hk)⟩
    rw [← h.1, hkeys key List.mem_cons_self]

theorem appears_shown : {γ : Type} → (fields : Fields ρ γ) → fields.Exact → fields.keys.Nodup →
    fields.Appears r (fields.shown r)
  | _, .nil, _, _ => trivial
  | _, .cons key _ get _ skip rest, h, hdistinct => by
    obtain ⟨hnew, hdistinct⟩ := List.nodup_cons.mp hdistinct
    have hlater : key ∉ rest.shown r := fun hk => hnew ((shown_sublist r rest).subset hk)
    have hrest := appears_shown rest h.2 hdistinct
    by_cases hs : skip (get r)
    · rw [Fields.shown, if_pos hs]
      exact ⟨iff_of_true hlater ((h.1 _).mp hs), hrest⟩
    · rw [Fields.shown, if_neg hs]
      refine ⟨iff_of_false (fun hk => hk List.mem_cons_self) fun hd => hs ((h.1 _).mpr hd), hrest.congr fun k hk => ?_⟩
      have hne : k ≠ key := fun heq => hnew (heq ▸ hk)
      rw [List.mem_cons, or_iff_right hne]

theorem Fields.Tidy.nodup {fields : Fields ρ γ} {strict : Bool} (h : fields.Tidy strict) : fields.keys.Nodup := by
  refine h.ascending.imp fun {a b} hlt => ?_
  rintro rfl
  exact List.lt_irrefl _ hlt

/-- A tidy record shows its fields in the canonical arrangement. -/
theorem Fields.Tidy.ordered_shown {fields : Fields ρ γ} {strict : Bool} (h : fields.Tidy strict) :
    fields.Ordered r (fields.shown r) where
  ascending := h.ascending.sublist (shown_sublist r fields)
  declared _ := fun hkey => (shown_sublist r fields).subset hkey
  appears := appears_shown fields h.exact h.nodup

end Ordered

namespace Schema

variable {α : Type} {s : Schema α} {x : α} {bs : Bytes}

/-- Octets in which each record is in the canonical arrangement and each header is as short as it can be. -/
def Canonical (s : Schema α) (x : α) (bs : Bytes) : Prop :=
  ∃ v : Value, s.Writes .canonical x v ∧ Spells Msgpack.Shortest Msgpack.maxDepth v bs

/-- Octets in which each record comes in any order and shows any of the fields that could be left out, with headers of
any form. -/
def Rearranged (s : Schema α) (x : α) (bs : Bytes) : Prop :=
  ∃ v : Value, s.Writes .anyOrder x v ∧ Spells Msgpack.Form Msgpack.maxDepth v bs

theorem spells_encode (hl : s.Lawful) (hs : s.sized) (hd : s.depth ≤ Msgpack.maxDepth) (h : s.Short x) :
    Spells Msgpack.Shortest Msgpack.maxDepth (s.write x) (s.encode x) :=
  Msgpack.spells_encode (s.fits_of_writes hl hs x h _ (s.writes_anyOrder hl x) Msgpack.maxDepth hd)

theorem canonical_encode (hl : s.Lawful) (ht : s.Each @Fields.Tidy) (hs : s.sized) (hd : s.depth ≤ Msgpack.maxDepth)
    (h : s.Short x) : s.Canonical x (s.encode x) :=
  ⟨s.write x, s.writes_write (fun _ _ _ _ _ htidy => htidy.ordered_shown) hl ht x, spells_encode hl hs hd h⟩

/-- The canonical octets of any tree that writes a short value are among those that write it. -/
theorem rearranged_of_writes (hl : s.Lawful) (hs : s.sized) (hd : s.depth ≤ Msgpack.maxDepth) (h : s.Short x)
    {v : Value} (hv : s.Writes .anyOrder x v) : s.Rearranged x v.encode := by
  have hfits := s.fits_of_writes hl hs x h v hv Msgpack.maxDepth hd
  exact ⟨v, hv, (Msgpack.spells_encode hfits).mono fun _ _ hshort => hshort.form⟩

theorem decode_of_rearranged (hl : s.Lawful) (h : s.Rearranged x bs) : s.decode bs = .ok x := by
  obtain ⟨v, hv, hspells⟩ := h
  rw [decode, Msgpack.decode?_of_spells hspells, Option.bind_some, s.read?_of_writes hl x v hv]

end Schema

end AtomicGroup.Wire
