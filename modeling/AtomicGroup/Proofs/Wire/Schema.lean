import AtomicGroup.Wire.Schema
import Mathlib.Data.List.Nodup

/-!
# Reading what a schema writes

`LawfulFormat` says what a data format has to keep of what is put into it, and `Schema.Lawful` what a schema has to
keep to: views can be taken back, nothing but an option is absent, and a record is made of what its table gets from it.
`Schema.Writes` says which trees write a value when its records may be arranged in some ways. One induction over schemas
and field tables proves that a value reads back from all of them, in every lawful format, however its records are
ordered and whichever of the fields that may be left out they show; what `Schema.write` makes of it is one of them.
-/
namespace AtomicGroup.Wire

class LawfulFormat (D : Type) [Format D] : Prop where
  int?_ofInt (n : Int) : Format.int? (Format.ofInt n : D) = some n
  bool?_ofBool (b : Bool) : Format.bool? (Format.ofBool b : D) = some b
  text?_ofText (s : String) : Format.text? (Format.ofText s : D) = some s
  bytes?_ofBytes (bs : Bytes) : Format.bytes? (Format.ofBytes bs : D) = some bs
  block?_ofBytes {n : Nat} (b : Block n) : Format.block? n (Format.ofBytes b.bytes : D) = some b
  list?_ofList (ds : List D) : Format.list? (Format.ofList ds) = some ds
  /-- The fields of a record are told by their keys. -/
  fields?_ofRecord (strict : Bool) (keys : List String) (fields : List (String × D)) :
    Format.fields? strict keys (Format.ofRecord fields) =
      selectFields strict keys (fields.map fun f => (some f.1, f.2))
  isNull_null : Format.isNull (Format.null : D) = true
  isNull_ofInt (n : Int) : Format.isNull (Format.ofInt n : D) = false
  isNull_ofBool (b : Bool) : Format.isNull (Format.ofBool b : D) = false
  isNull_ofText (s : String) : Format.isNull (Format.ofText s : D) = false
  isNull_ofBytes (bs : Bytes) : Format.isNull (Format.ofBytes bs : D) = false
  isNull_ofList (ds : List D) : Format.isNull (Format.ofList ds) = false
  isNull_ofRecord (fields : List (String × D)) : Format.isNull (Format.ofRecord fields) = false

/-- Selecting declared fields of different keys leaves them as they are. -/
theorem selectFields_declared {D : Type} (strict : Bool) (keys : List String) (fields : List (String × D))
    (declared : ∀ f ∈ fields, f.1 ∈ keys) (distinct : (fields.map (·.1)).Nodup) :
    selectFields strict keys (fields.map fun f => (some f.1, f.2)) = some fields := by
  induction fields with
  | nil => rfl
  | cons f fields ih =>
    obtain ⟨hnew, htail⟩ := List.nodup_cons.mp distinct
    have hkey : f.1 ∈ keys := declared f List.mem_cons_self
    have hrest := ih (fun g hg => declared g (List.mem_cons_of_mem _ hg)) htail
    have hany : fields.any (·.1 == f.1) = false := by
      rw [List.any_eq_false]
      intro g hg heq
      exact hnew (List.mem_map.mpr ⟨g, hg, by simpa using heq⟩)
    have hfilter : Option.filter keys.contains (some f.1) = some f.1 := by simp [hkey]
    simp only [List.map_cons, selectFields, hrest, Option.bind_eq_bind, Option.bind_some, hfilter, hany]
    rfl

/-- Whether the trees of a schema are never those of an absent value. -/
def Schema.present {α : Type} : Schema α → Bool
  | .option _ => false
  | .via _ _ carrier => carrier.present
  | _ => true

def Fields.assemble {ρ γ : Type} : Fields ρ γ → γ → ρ → ρ
  | .nil, made, _ => made
  | .cons _ _ get _ _ rest, make, r => rest.assemble (make (get r)) r

mutual

/-- What a schema keeps to. -/
def Schema.Lawful {α : Type} : Schema α → Prop
  | .list item => item.Lawful
  | .option item => item.Lawful ∧ item.present
  | .via view of? carrier => carrier.Lawful ∧ ∀ x, of? (view x) = some x
  | .record _ make fields => fields.Lawful ∧ fields.keys.Nodup ∧ ∀ r, fields.assemble make r = r
  | _ => True

def Fields.Lawful {ρ γ : Type} : Fields ρ γ → Prop
  | .nil => True
  | .cons _ schema _ absent skip rest => schema.Lawful ∧ (∀ x, skip x → absent = some x) ∧ rest.Lawful

end

section Laws

@[simp] theorem lawful_uint8 : Schema.uint8.Lawful := trivial
@[simp] theorem lawful_uint32 : Schema.uint32.Lawful := trivial
@[simp] theorem lawful_uint64 : Schema.uint64.Lawful := trivial
@[simp] theorem lawful_int64 : Schema.int64.Lawful := trivial
@[simp] theorem lawful_bool : Schema.bool.Lawful := trivial
@[simp] theorem lawful_text : Schema.text.Lawful := trivial
@[simp] theorem lawful_bytes : Schema.bytes.Lawful := trivial

variable {ρ α β : Type} {key : String} {schema : Schema α} {get : ρ → α} {rest : Fields ρ β}

@[simp] theorem lawful_list : schema.list.Lawful ↔ schema.Lawful := Iff.rfl
@[simp] theorem lawful_option : schema.option.Lawful ↔ schema.Lawful ∧ schema.present := Iff.rfl

@[simp] theorem lawful_nil : (Fields.nil : Fields ρ ρ).Lawful := trivial

@[simp] theorem lawful_optional [DecidableEq α] {default : α} :
    (Fields.optional key schema get default rest).Lawful ↔ schema.Lawful ∧ rest.Lawful :=
  ⟨fun h => ⟨h.1, h.2.2⟩, fun h => ⟨h.1, fun _ hx => congrArg some (of_decide_eq_true hx).symm, h.2⟩⟩

@[simp] theorem lawful_kept {default : α} :
    (Fields.kept key schema get default rest).Lawful ↔ schema.Lawful ∧ rest.Lawful :=
  ⟨fun h => ⟨h.1, h.2.2⟩, fun h => ⟨h.1, nofun, h.2⟩⟩

@[simp] theorem lawful_required : (Fields.required key schema get rest).Lawful ↔ schema.Lawful ∧ rest.Lawful :=
  ⟨fun h => ⟨h.1, h.2.2⟩, fun h => ⟨h.1, nofun, h.2⟩⟩

end Laws

/-- The keys of the fields of a record that are not left out. -/
def Fields.shown {ρ γ : Type} : Fields ρ γ → ρ → List String
  | .nil, _ => []
  | .cons key _ get _ skip rest, r => if skip (get r) then rest.shown r else key :: rest.shown r

/-- Under which keys a record may show its fields, and in which order. -/
def Arrangement : Type 1 := (ρ γ : Type) → Fields ρ γ → ρ → List String → Prop

/-- The fields that are not left out in any order, together with any that could be left out. -/
def Arrangement.anyOrder : Arrangement := fun _ _ fields r keys =>
  ∃ added, keys.Perm (fields.shown r ++ added) ∧ added.Nodup ∧ ∀ key ∈ added, key ∈ fields.keys ∧ key ∉ fields.shown r

mutual

/-- The trees that write a value when each record in it may be arranged in some ways. -/
def Schema.Writes {D : Type} [Format D] (arrange : Arrangement) {α : Type} : Schema α → α → D → Prop
  | .list item, xs, d => ∃ ds, d = Format.ofList ds ∧ List.Forall₂ (item.Writes arrange) xs ds
  | .option _, none, d => d = Format.null
  | .option item, some x, d => item.Writes arrange x d
  | .via view _ carrier, x, d => carrier.Writes arrange (view x) d
  | .record _ _ fields, r, d =>
    ∃ entries, d = Format.ofRecord entries ∧ arrange _ _ fields r (entries.map (·.1)) ∧ fields.Writes arrange r entries
  | s, x, d => d = s.write x

/-- Entries that write the fields under whose keys they stand. -/
def Fields.Writes {D : Type} [Format D] (arrange : Arrangement) {ρ γ : Type} :
    Fields ρ γ → ρ → List (String × D) → Prop
  | .nil, _, _ => True
  | .cons key schema get _ _ rest, r, entries =>
    (∀ d, (key, d) ∈ entries → schema.Writes arrange (get r) d) ∧ rest.Writes arrange r entries

end

mutual

/-- A schema each of whose records has a property, which may depend on whether it is strict. -/
def Schema.Each (p : (ρ γ : Type) → Bool → Fields ρ γ → Prop) {α : Type} : Schema α → Prop
  | .list item => item.Each p
  | .option item => item.Each p
  | .via _ _ carrier => carrier.Each p
  | .record strict _ fields => p _ _ strict fields ∧ fields.Each p
  | _ => True

def Fields.Each (p : (ρ γ : Type) → Bool → Fields ρ γ → Prop) {ρ γ : Type} : Fields ρ γ → Prop
  | .nil => True
  | .cons _ schema _ _ _ rest => schema.Each p ∧ rest.Each p

end

section Keys

theorem keys_write {D : Type} [Format D] {ρ γ : Type} (r : ρ) : (fields : Fields ρ γ) →
    (fields.write r : List (String × D)).map (·.1) = fields.shown r
  | .nil => rfl
  | .cons key schema get _ skip rest => by
    have h := keys_write (D := D) r rest
    simp only [Fields.write, Fields.shown]
    split
    · exact h
    · rw [List.map_cons, h]

/-- Every field that is shown is a declared one, and comes in its order. -/
theorem shown_sublist {ρ γ : Type} (r : ρ) : (fields : Fields ρ γ) → (fields.shown r).Sublist fields.keys
  | .nil => List.Sublist.refl _
  | .cons key _ get _ skip rest => by
    have h := shown_sublist r rest
    simp only [Fields.shown, Fields.keys]
    split
    · exact h.cons key
    · exact h.cons_cons key

variable {ρ γ : Type} {fields : Fields ρ γ} {r : ρ} {keys : List String}

theorem anyOrder_shown : Arrangement.anyOrder _ _ fields r (fields.shown r) :=
  ⟨[], by rw [List.append_nil], List.nodup_nil, nofun⟩

theorem nodup_of_anyOrder (hdistinct : fields.keys.Nodup) (h : Arrangement.anyOrder _ _ fields r keys) :
    keys.Nodup := by
  obtain ⟨added, hperm, hadded, hnew⟩ := h
  rw [hperm.nodup_iff]
  exact (hdistinct.sublist (shown_sublist r fields)).append hadded fun key hs ha => (hnew key ha).2 hs

theorem declared_of_anyOrder (h : Arrangement.anyOrder _ _ fields r keys) : ∀ key ∈ keys, key ∈ fields.keys := by
  obtain ⟨added, hperm, -, hnew⟩ := h
  intro key hkey
  rcases List.mem_append.mp (hperm.mem_iff.mp hkey) with hs | ha
  · exact (shown_sublist r fields).subset hs
  · exact (hnew key ha).1

theorem mem_of_anyOrder (h : Arrangement.anyOrder _ _ fields r keys) : ∀ key ∈ fields.shown r, key ∈ keys := by
  obtain ⟨added, hperm, -, -⟩ := h
  exact fun key hkey => hperm.mem_iff.mpr (List.mem_append_left _ hkey)

end Keys

section Writing

variable {D : Type} [Format D] {arrange : Arrangement} {p : (ρ γ : Type) → Bool → Fields ρ γ → Prop}

mutual

theorem Schema.each_of_forall (h : ∀ ρ γ strict (fields : Fields ρ γ), p ρ γ strict fields) {α : Type} :
    (s : Schema α) → s.Each p
  | .list item => Schema.each_of_forall h item
  | .option item => Schema.each_of_forall h item
  | .via _ _ carrier => Schema.each_of_forall h carrier
  | .record _ _ fields => ⟨h _ _ _ _, Fields.each_of_forall h fields⟩
  | .uint8 => trivial
  | .uint32 => trivial
  | .uint64 => trivial
  | .int64 => trivial
  | .bool => trivial
  | .text => trivial
  | .bytes => trivial
  | .block _ => trivial

theorem Fields.each_of_forall (h : ∀ ρ γ strict (fields : Fields ρ γ), p ρ γ strict fields) {ρ γ : Type} :
    (fields : Fields ρ γ) → fields.Each p
  | .nil => trivial
  | .cons _ schema _ _ _ rest => ⟨Schema.each_of_forall h schema, Fields.each_of_forall h rest⟩

end

/-- Only the entries of declared keys count. -/
theorem Fields.Writes.of_subset {ρ γ : Type} {r : ρ} {entries more : List (String × D)} : {fields : Fields ρ γ} →
    fields.Writes arrange r entries → (∀ key ∈ fields.keys, ∀ d, (key, d) ∈ more → (key, d) ∈ entries) →
    fields.Writes arrange r more
  | .nil, _, _ => trivial
  | .cons key _ _ _ _ _, h, hsub =>
    ⟨fun d hd => h.1 d (hsub key List.mem_cons_self d hd), h.2.of_subset fun k hk => hsub k (List.mem_cons_of_mem _ hk)⟩

mutual

/-- What is written writes the value, when records may be arranged in the order of their tables. -/
theorem Schema.writes_write (hp : ∀ ρ γ strict (fields : Fields ρ γ) r, p ρ γ strict fields →
    arrange _ _ fields r (fields.shown r)) {α : Type} : (s : Schema α) → s.Lawful → s.Each p → (x : α) →
    s.Writes arrange x (s.write x : D)
  | .list item, h, he, xs => by
    refine ⟨xs.map item.write, rfl, ?_⟩
    rw [List.forall₂_map_right_iff, List.forall₂_same]
    exact fun x _ => Schema.writes_write hp item h he x
  | .option _, _, _, none => rfl
  | .option item, h, he, some x => Schema.writes_write hp item h.1 he x
  | .via view _ carrier, h, he, x => Schema.writes_write hp carrier h.1 he (view x)
  | .record _ _ fields, h, he, r => by
    refine ⟨fields.write r, rfl, ?_, Fields.writes_write hp fields h.1 he.2 h.2.1 r⟩
    rw [keys_write]
    exact hp _ _ _ fields r he.1
  | .uint8, _, _, _ => rfl
  | .uint32, _, _, _ => rfl
  | .uint64, _, _, _ => rfl
  | .int64, _, _, _ => rfl
  | .bool, _, _, _ => rfl
  | .text, _, _, _ => rfl
  | .bytes, _, _, _ => rfl
  | .block _, _, _, _ => rfl

theorem Fields.writes_write (hp : ∀ ρ γ strict (fields : Fields ρ γ) r, p ρ γ strict fields →
    arrange _ _ fields r (fields.shown r)) {ρ γ : Type} : (fields : Fields ρ γ) → fields.Lawful → fields.Each p →
    fields.keys.Nodup → (r : ρ) → fields.Writes arrange r (fields.write r : List (String × D))
  | .nil, _, _, _, _ => trivial
  | .cons key schema get _ skip rest, h, he, hdistinct, r => by
    obtain ⟨hnew, hdistinct⟩ := List.nodup_cons.mp hdistinct
    have hrest := Fields.writes_write hp rest h.2.2 he.2 hdistinct r
    have habsent : ∀ d, (key, d) ∉ (rest.write r : List (String × D)) := by
      intro d hd
      have hkey : key ∈ rest.shown r := keys_write (D := D) r rest ▸ List.mem_map.mpr ⟨_, hd, rfl⟩
      exact hnew ((shown_sublist r rest).subset hkey)
    rw [Fields.write]
    split
    · exact ⟨fun d hd => absurd hd (habsent d), hrest⟩
    · refine ⟨fun d hd => ?_, hrest.of_subset fun k hk d hd => ?_⟩
      · rcases List.mem_cons.mp hd with heq | hd
        · cases heq
          exact Schema.writes_write hp schema h.1 he.1 (get r)
        · exact absurd hd (habsent d)
      · rcases List.mem_cons.mp hd with heq | hd
        · cases heq
          exact absurd hk hnew
        · exact hd

end

end Writing

/-- Items that each read as a value read as the list of these values. -/
theorem mapM_read?_eq_some {D : Type} [Format D] {α : Type} {item : Schema α} {xs : List α} {ds : List D}
    (h : List.Forall₂ (fun x d => item.read? d = some x) xs ds) : ds.mapM item.read? = some xs := by
  induction h with
  | nil => rfl
  | cons hx _ ih =>
    simp only [List.mapM_cons, hx, ih, Option.bind_eq_bind, Option.bind_some]
    rfl

open LawfulFormat

section Reading

variable {D : Type} [Format D] [LawfulFormat D]

theorem natBelow?_ofInt {bound n : Nat} (h : n < bound) : natBelow? bound (Format.ofInt n : D) = some n := by
  simp [natBelow?, int?_ofInt, h]

/-- The trees of a schema that is always present are not those of an absent value. -/
theorem isNull_of_writes {arrange : Arrangement} {α : Type} : (s : Schema α) → s.present → (x : α) → (d : D) →
    s.Writes arrange x d → Format.isNull d = false
  | .uint8, _, _, _, rfl => isNull_ofInt _
  | .uint32, _, _, _, rfl => isNull_ofInt _
  | .uint64, _, _, _, rfl => isNull_ofInt _
  | .int64, _, _, _, rfl => isNull_ofInt _
  | .bool, _, _, _, rfl => isNull_ofBool _
  | .text, _, _, _, rfl => isNull_ofText _
  | .bytes, _, _, _, rfl => isNull_ofBytes _
  | .block n, _, _, _, rfl => isNull_ofBytes _
  | .list item, _, _, d, hd => by
    obtain ⟨ds, rfl, -⟩ := hd
    exact isNull_ofList ds
  | .via view _ carrier, h, x, d, hd => isNull_of_writes carrier h (view x) d hd
  | .record strict make fields, _, _, d, hd => by
    obtain ⟨entries, rfl, -, -⟩ := hd
    exact isNull_ofRecord entries

end Reading

mutual

/-- A value reads back from whatever writes it, in whatever order its records come. -/
theorem Schema.read?_of_writes {D : Type} [Format D] [LawfulFormat D] {α : Type} : (s : Schema α) → s.Lawful →
    (x : α) → (d : D) → s.Writes .anyOrder x d → s.read? d = some x
  | .uint8, _, n, _, rfl => by
    rw [Schema.write, Schema.read?, natBelow?_ofInt n.toNat_lt, Option.map_some, UInt8.ofNat_toNat]
  | .uint32, _, n, _, rfl => by
    rw [Schema.write, Schema.read?, natBelow?_ofInt n.toNat_lt, Option.map_some, UInt32.ofNat_toNat]
  | .uint64, _, n, _, rfl => by
    rw [Schema.write, Schema.read?, natBelow?_ofInt n.toNat_lt, Option.map_some, UInt64.ofNat_toNat]
  | .int64, _, n, _, rfl => by
    have hrange : Int64.minValue.toInt ≤ n.toInt ∧ n.toInt ≤ Int64.maxValue.toInt :=
      ⟨n.minValue_le_toInt, n.toInt_le⟩
    simp only [Schema.write, Schema.read?, int?_ofInt, Option.bind_eq_bind, Option.bind_some, if_pos hrange,
      Int64.ofInt_toInt]
    rfl
  | .bool, _, b, _, rfl => bool?_ofBool b
  | .text, _, s, _, rfl => text?_ofText s
  | .bytes, _, bs, _, rfl => bytes?_ofBytes bs
  | .block n, _, b, _, rfl => block?_ofBytes b
  | .list item, h, xs, d, hd => by
    obtain ⟨ds, rfl, hds⟩ := hd
    have hitems := mapM_read?_eq_some (hds.imp fun x d hd => Schema.read?_of_writes item h x d hd)
    simp only [Schema.read?, list?_ofList, Option.bind_eq_bind, Option.bind_some, hitems]
  | .option item, _, none, d, hd => by
    obtain rfl : d = Format.null := hd
    simp only [Schema.read?, isNull_null, if_true]
  | .option item, h, some x, d, hd => by
    have hitem := Schema.read?_of_writes item h.1 x d hd
    simp only [Schema.read?, isNull_of_writes item h.2 x d hd, Bool.false_eq_true, if_false, hitem, Option.map_some]
  | .via view of? carrier, h, x, d, hd => by
    rw [Schema.read?, Schema.read?_of_writes carrier h.1 (view x) d hd, Option.bind_some, h.2 x]
  | .record strict make fields, h, r, d, hd => by
    obtain ⟨hfields, hdistinct, hmake⟩ := h
    obtain ⟨entries, rfl, harrange, hentries⟩ := hd
    have hselect := selectFields_declared strict fields.keys entries
      (fun f hf => declared_of_anyOrder harrange f.1 (List.mem_map.mpr ⟨f, hf, rfl⟩))
      (nodup_of_anyOrder hdistinct harrange)
    have hread := Fields.read?_of_writes fields hfields r make entries (mem_of_anyOrder harrange) hentries
    simp only [Schema.read?, fields?_ofRecord, hselect, Option.bind_eq_bind, Option.bind_some, hread, hmake]

/-- A record reads back from entries that write its fields, as long as every field is there that is not left out. -/
theorem Fields.read?_of_writes {D : Type} [Format D] [LawfulFormat D] {ρ γ : Type} : (fields : Fields ρ γ) →
    fields.Lawful → (r : ρ) → (make : γ) → (entries : List (String × D)) →
    (∀ key ∈ fields.shown r, key ∈ entries.map (·.1)) → fields.Writes .anyOrder r entries →
    fields.read? entries make = some (fields.assemble make r)
  | .nil, _, _, _, _, _, _ => rfl
  | .cons key schema get absent skip rest, h, r, make, entries, hshown, hwrites => by
    obtain ⟨hschema, hskip, hrest⟩ := h
    have hlater : ∀ k ∈ rest.shown r, k ∈ entries.map (·.1) := by
      intro k hk
      refine hshown k ?_
      rw [Fields.shown]
      split
      · exact hk
      · exact List.mem_cons_of_mem _ hk
    have hread := Fields.read?_of_writes rest hrest r (make (get r)) entries hlater hwrites.2
    cases hkey : entries.lookup key with
    | some d =>
      have hmem : (key, d) ∈ entries := by
        obtain ⟨front, back, rfl, -⟩ := List.lookup_eq_some_iff.mp hkey
        exact List.mem_append_right _ List.mem_cons_self
      have hfield := Schema.read?_of_writes schema hschema (get r) d (hwrites.1 d hmem)
      simp only [Fields.read?, hkey, hfield, Option.bind_eq_bind, Option.bind_some, hread]
      rfl
    | none =>
      -- A field that is not there was left out, so that it holds its default.
      have hleft : skip (get r) = true := by
        by_contra hs
        have hkept : key ∈ (Fields.cons key schema get absent skip rest).shown r := by
          rw [Fields.shown, if_neg hs]
          exact List.mem_cons_self
        obtain ⟨f, hf, hfst⟩ := List.mem_map.mp (hshown key hkept)
        have hother := List.lookup_eq_none_iff.mp hkey f hf
        rw [hfst] at hother
        simp at hother
      simp only [Fields.read?, hkey, hskip _ hleft, Option.bind_eq_bind, Option.bind_some, hread]
      rfl

end

theorem Schema.writes_anyOrder {D : Type} [Format D] {α : Type} (s : Schema α) (h : s.Lawful) (x : α) :
    s.Writes .anyOrder x (s.write x : D) :=
  s.writes_write (fun _ _ _ _ _ _ => anyOrder_shown) h (s.each_of_forall fun _ _ _ _ => trivial) x

/-- What a lawful schema writes reads back. -/
theorem Schema.read?_write {D : Type} [Format D] [LawfulFormat D] {α : Type} (s : Schema α) (h : s.Lawful) (x : α) :
    s.read? (s.write x : D) = some x :=
  s.read?_of_writes h x _ (s.writes_anyOrder h x)

end AtomicGroup.Wire
