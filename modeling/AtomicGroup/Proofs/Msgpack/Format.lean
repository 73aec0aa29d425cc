import AtomicGroup.Proofs.Msgpack.RoundTrip
import AtomicGroup.Proofs.Outcome
import AtomicGroup.Bytes
import AtomicGroup.Proofs.Wire.Schema
import AtomicGroup.Wire.Forms

/-!
# Records in msgpack

Msgpack is a lawful format. A value of a schema has canonical octets that are read back when its texts, byte strings
and lists are `Short`, that is counted in 32 bits; the rest is a property of the schema alone, which `sized` and `depth`
compute.
-/
namespace AtomicGroup

namespace Msgpack

open Wire

theorem key?_str (keys : List String) (key : String) : (Value.str (Utf8.encode key)).key? keys = some (some key) := by
  rw [Value.key?, Utf8.decode?_encode]

/-- The keys of written fields are read as declared ones, in their order. -/
theorem mapM_key? (keys : List String) (fields : List (String × Value)) :
    ((fields.map fun f => (Value.str (Utf8.encode f.1), f.2)).mapM
      fun (k, v) => return (← k.key? keys, v) : Option (List (Option String × Value))) =
      some (fields.map fun f => (some f.1, f.2)) := by
  induction fields with
  | nil => rfl
  | cons f fields ih =>
    simp only [List.map_cons, List.mapM_cons, key?_str, Option.bind_eq_bind, Option.bind_some] at ih ⊢
    rw [ih]
    rfl

theorem fields?_ofRecord (strict : Bool) (keys : List String) (fields : List (String × Value)) :
    (Value.map (fields.map fun f => (.str (Utf8.encode f.1), f.2))).fields? strict keys =
      selectFields strict keys (fields.map fun f => (some f.1, f.2)) := by
  rw [Value.fields?, mapM_key?, Option.bind_eq_bind, Option.bind_some]

instance : LawfulFormat Value where
  int?_ofInt n := by cases n <;> rfl
  bool?_ofBool _ := rfl
  text?_ofText := Utf8.decode?_encode
  bytes?_ofBytes _ := rfl
  block?_ofBytes := Block.ofBytes?_bytes
  list?_ofList _ := rfl
  fields?_ofRecord := fields?_ofRecord
  isNull_null := rfl
  isNull_ofInt n := by cases n <;> rfl
  isNull_ofBool _ := rfl
  isNull_ofText _ := rfl
  isNull_ofBytes _ := rfl
  isNull_ofList _ := rfl
  isNull_ofRecord _ := rfl

end Msgpack

namespace Wire

mutual

def Schema.sized {α : Type} : Schema α → Bool
  | .block n => n < 0x100000000
  | .list item => item.sized
  | .option item => item.sized
  | .via _ _ carrier => carrier.sized
  | .record _ _ fields => fields.keys.length < 0x100000000 && fields.sized
  | _ => true

def Fields.sized {ρ γ : Type} : Fields ρ γ → Bool
  | .nil => true
  | .cons key schema _ _ _ rest => (Utf8.encode key).length < 0x100000000 && schema.sized && rest.sized

end

mutual

/-- How many lists and records lie inside one another in a schema. -/
def Schema.depth {α : Type} : Schema α → Nat
  | .list item => item.depth + 1
  | .option item => item.depth
  | .via _ _ carrier => carrier.depth
  | .record _ _ fields => fields.depth + 1
  | _ => 0

def Fields.depth {ρ γ : Type} : Fields ρ γ → Nat
  | .nil => 0
  | .cons _ schema _ _ _ rest => max schema.depth rest.depth

end

mutual

/-- A value all of whose texts, byte strings and lists are counted in 32 bits. -/
def Schema.Short {α : Type} : Schema α → α → Prop
  | .text, s => (Utf8.encode s).length < 0x100000000
  | .bytes, bs => bs.length < 0x100000000
  | .list item, xs => xs.length < 0x100000000 ∧ ∀ x ∈ xs, item.Short x
  | .option item, x => ∀ y ∈ x, item.Short y
  | .via view _ carrier, x => carrier.Short (view x)
  | .record _ _ fields, r => fields.Short r
  | _, _ => True

def Fields.Short {ρ γ : Type} : Fields ρ γ → ρ → Prop
  | .nil, _ => True
  | .cons _ schema get _ _ rest, r => schema.Short (get r) ∧ rest.Short r

end

section Short

@[simp] theorem short_uint8 (n : UInt8) : Schema.uint8.Short n := trivial
@[simp] theorem short_uint32 (n : UInt32) : Schema.uint32.Short n := trivial
@[simp] theorem short_uint64 (n : UInt64) : Schema.uint64.Short n := trivial
@[simp] theorem short_bool (b : Bool) : Schema.bool.Short b := trivial
@[simp] theorem short_block {n : Nat} (b : Block n) : (Schema.block n).Short b := trivial
@[simp] theorem short_text {s : String} : Schema.text.Short s ↔ (Utf8.encode s).length < 0x100000000 := Iff.rfl
@[simp] theorem short_bytes {bs : Bytes} : Schema.bytes.Short bs ↔ bs.length < 0x100000000 := Iff.rfl

variable {ρ γ α β : Type} {schema : Schema α}

@[simp] theorem short_list {xs : List α} :
    schema.list.Short xs ↔ xs.length < 0x100000000 ∧ ∀ x ∈ xs, schema.Short x := Iff.rfl

@[simp] theorem short_option {x : Option α} : schema.option.Short x ↔ ∀ y ∈ x, schema.Short y := Iff.rfl

@[simp] theorem short_via {view : β → α} {of? : α → Option β} {x : β} :
    (Schema.via view of? schema).Short x ↔ schema.Short (view x) := Iff.rfl

@[simp] theorem short_record {strict : Bool} {make : γ} {fields : Fields ρ γ} {r : ρ} :
    (Schema.record strict make fields).Short r ↔ fields.Short r := Iff.rfl

@[simp] theorem short_nil (r : ρ) : (Fields.nil : Fields ρ ρ).Short r := trivial

@[simp] theorem short_cons {key : String} {get : ρ → α} {absent : Option α} {skip : α → Bool} {rest : Fields ρ β}
    {r : ρ} : (Fields.cons key schema get absent skip rest).Short r ↔ schema.Short (get r) ∧ rest.Short r := Iff.rfl

end Short

open Msgpack (Value)

theorem fits_ofNat {depth n : Nat} (h : n < 0x10000000000000000) : (Value.ofInt n).Fits depth := .nat h

theorem fits_ofInt64 {depth : Nat} (n : Int64) : (Value.ofInt n.toInt).Fits depth := by
  have hlow := n.le_toInt
  have hhigh := n.toInt_lt
  cases hn : n.toInt with
  | ofNat m =>
    have hm : (m : Int) = n.toInt := hn.symm
    exact .nat (by omega)
  | negSucc m => exact .int (by omega)

theorem fits_ofRecord {depth : Nat} {entries : List (String × Value)} (hlen : entries.length < 0x100000000)
    (h : ∀ e ∈ entries, (Utf8.encode e.1).length < 0x100000000 ∧ e.2.Fits depth) :
    (Format.ofRecord entries : Value).Fits (depth + 1) := by
  refine .map (by rwa [List.length_map]) ?_ ?_
  · intro e he
    obtain ⟨f, hf, rfl⟩ := List.mem_map.mp he
    exact .str (h f hf).1
  · intro e he
    obtain ⟨f, hf, rfl⟩ := List.mem_map.mp he
    exact (h f hf).2

mutual

/-- The trees of a short value have canonical octets, in whatever order its records come. -/
theorem Schema.fits_of_writes {α : Type} : (s : Schema α) → s.Lawful → s.sized → (x : α) → s.Short x → (v : Value) →
    s.Writes .anyOrder x v → (depth : Nat) → s.depth ≤ depth → v.Fits depth
  | .uint8, _, _, n, _, _, rfl, _, _ => fits_ofNat (Nat.lt_trans n.toNat_lt (by decide))
  | .uint32, _, _, n, _, _, rfl, _, _ => fits_ofNat (Nat.lt_trans n.toNat_lt (by decide))
  | .uint64, _, _, n, _, _, rfl, _, _ => fits_ofNat n.toNat_lt
  | .int64, _, _, n, _, _, rfl, _, _ => fits_ofInt64 n
  | .bool, _, _, b, _, _, rfl, _, _ => .bool b
  | .text, _, _, _, h, _, rfl, _, _ => .str h
  | .bytes, _, _, _, h, _, rfl, _, _ => .bin h
  | .block n, _, hs, b, _, _, rfl, _, _ => .bin (by rw [b.length_eq]; simpa [Schema.sized] using hs)
  | .list item, hl, hs, xs, h, v, hv, depth + 1, hd => by
    obtain ⟨vs, rfl, hvs⟩ := hv
    refine .array (hvs.length_eq ▸ h.1) ?_
    intro v hv
    obtain ⟨x, hx, hxv⟩ := Outcome.exists_of_mem_right hvs hv
    exact Schema.fits_of_writes item hl hs x (h.2 x hx) v hxv depth (Nat.le_of_succ_le_succ hd)
  | .option item, _, _, none, _, v, hv, _, _ => by
    obtain rfl : v = .nil := hv
    exact .nil
  | .option item, hl, hs, some x, h, v, hv, depth, hd => Schema.fits_of_writes item hl.1 hs x (h x rfl) v hv depth hd
  | .via view _ carrier, hl, hs, x, h, v, hv, depth, hd =>
    Schema.fits_of_writes carrier hl.1 hs (view x) h v hv depth hd
  | .record _ _ fields, hl, hs, r, h, v, hv, depth + 1, hd => by
    obtain ⟨hcount, hfields⟩ := Bool.and_eq_true_iff.mp hs
    obtain ⟨entries, rfl, harrange, hentries⟩ := hv
    have hdeclared : ∀ e ∈ entries, e.1 ∈ fields.keys :=
      fun e he => declared_of_anyOrder harrange e.1 (List.mem_map.mpr ⟨e, he, rfl⟩)
    have hfits := Fields.fits_of_writes fields hl.1 hfields r h entries hentries depth (Nat.le_of_succ_le_succ hd)
    have hlen := (nodup_of_anyOrder hl.2.1 harrange).length_le_of_subset (declared_of_anyOrder harrange)
    rw [List.length_map] at hlen
    exact fits_ofRecord (Nat.lt_of_le_of_lt hlen (of_decide_eq_true hcount)) fun e he => hfits e he (hdeclared e he)

/-- Entries that write the fields of a short record have canonical octets, keys and values alike. -/
theorem Fields.fits_of_writes {ρ γ : Type} : (fields : Fields ρ γ) → fields.Lawful → fields.sized → (r : ρ) →
    fields.Short r → (entries : List (String × Value)) → fields.Writes .anyOrder r entries → (depth : Nat) →
    fields.depth ≤ depth → ∀ e ∈ entries, e.1 ∈ fields.keys → (Utf8.encode e.1).length < 0x100000000 ∧ e.2.Fits depth
  | .nil, _, _, _, _, _, _, _, _ => nofun
  | .cons key schema get _ _ rest, hl, hs, r, h, entries, hentries, depth, hd => by
    obtain ⟨hhead, hrest⟩ := Bool.and_eq_true_iff.mp hs
    obtain ⟨hkey, hschema⟩ := Bool.and_eq_true_iff.mp hhead
    rintro ⟨k, v⟩ he hk
    rcases List.mem_cons.mp hk with rfl | hk
    · refine ⟨of_decide_eq_true hkey, ?_⟩
      exact Schema.fits_of_writes schema hl.1 hschema (get r) h.1 v (hentries.1 v he) depth
        (Nat.le_trans (Nat.le_max_left _ _) hd)
    · exact Fields.fits_of_writes rest hl.2.2 hrest r h.2 entries hentries.2 depth
        (Nat.le_trans (Nat.le_max_right _ _) hd) _ he hk

end

/-- The canonical octets of a short value of a lawful schema decode to it. -/
theorem Schema.decode_encode {α : Type} {s : Schema α} (hl : s.Lawful) (hs : s.sized)
    (hd : s.depth ≤ Msgpack.maxDepth) {x : α} (h : s.Short x) : s.decode (s.encode x) = .ok x := by
  have hfits := s.fits_of_writes hl hs x h _ (s.writes_anyOrder hl x) Msgpack.maxDepth hd
  have hread : s.read? (s.write x : Value) = some x := s.read?_write hl x
  rw [Schema.decode, Schema.encode, Msgpack.decode?_encode hfits, Option.bind_some, hread]

/-- Two short values of a lawful schema do not share their canonical octets. -/
theorem Schema.encode_injective {α : Type} {s : Schema α} (hl : s.Lawful) (hs : s.sized)
    (hd : s.depth ≤ Msgpack.maxDepth) {x y : α} (hx : s.Short x) (hy : s.Short y) (h : s.encode x = s.encode y) :
    x = y := by
  have hread := Schema.decode_encode hl hs hd hx
  rw [h, Schema.decode_encode hl hs hd hy] at hread
  exact (Except.ok.inj hread).symm

end Wire

end AtomicGroup
