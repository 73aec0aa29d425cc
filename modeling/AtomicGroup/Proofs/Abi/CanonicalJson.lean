import AtomicGroup.Abi.Json
import AtomicGroup.Proofs.Abi.Fixed
import AtomicGroup.Proofs.Abi.Limits
import AtomicGroup.Proofs.Abi.Names

/-!
# The canonical JSON of a value

JSON may write one value in several ways: a decimal with fewer places than it has, octets as a list of numbers.
Printing writes it in one way, `CanonicalJson`. Whatever a type reads from JSON has this form, and encoding it is limited
by lengths and offsets alone; decoding the octets then prints the same text as the value that was read.
-/
namespace AtomicGroup.Abi

open Outcome

mutual

/-- The JSON that stands for a value of a type: numbers in plain digits, decimals with all their places, octets as base 64
text, and every other array or tuple as the array of its items. -/
inductive CanonicalJson : Ty → Value → Json → Prop where
  | uint {bits n : Nat} (h : n < 1 <<< bits) : CanonicalJson (.uint bits) (.uint n) (.number (Decimal.text n))
  | ufixed {bits precision whole : Nat} {places : List Char} (hlen : places.length = precision)
      (hd : places.all Decimal.isDigit = true) (h : Decimal.ofDigits (Decimal.digits whole ++ places) < 1 <<< bits) :
      CanonicalJson (.ufixed bits precision) (.uint (Decimal.ofDigits (Decimal.digits whole ++ places)))
        (.number (String.ofList (Decimal.digits whole ++ '.' :: places)))
  | byte (b : UInt8) : CanonicalJson .byte (.byte b) (.number (Decimal.text b.toNat))
  | bool (b : Bool) : CanonicalJson .bool (.bool b) (.bool b)
  | address (a : Address) : CanonicalJson .address (.address a) (.string a.text)
  | string (s : String) : CanonicalJson .string (.string s) (.string s)
  | octetArray {v : Value} {bs : Bytes} (hv : v.bytes? = some bs) :
      CanonicalJson (.array .byte bs.length) v (.string (Base64.encode bs))
  | octetList {v : Value} {bs : Bytes} (hv : v.bytes? = some bs) :
      CanonicalJson (.list .byte) v (.string (Base64.encode bs))
  | array {elem : Ty} {v : Value} {items : List Value} {jsons : List Json} (he : elem ≠ .byte)
      (hv : v.items? = some items) (h : CanonicalAll (List.replicate items.length elem) items jsons) :
      CanonicalJson (.array elem items.length) v (.array jsons)
  | list {elem : Ty} {v : Value} {items : List Value} {jsons : List Json} (he : elem ≠ .byte)
      (hv : v.items? = some items) (h : CanonicalAll (List.replicate items.length elem) items jsons) :
      CanonicalJson (.list elem) v (.array jsons)
  | tuple {members : List Ty} {v : Value} {items : List Value} {jsons : List Json} (hv : v.items? = some items)
      (h : CanonicalAll members items jsons) : CanonicalJson (.tuple members) v (.array jsons)

inductive CanonicalAll : List Ty → List Value → List Json → Prop where
  | nil : CanonicalAll [] [] []
  | cons {t : Ty} {v : Value} {json : Json} {ts : List Ty} {vs : List Value} {jsons : List Json}
      (head : CanonicalJson t v json) (rest : CanonicalAll ts vs jsons) :
      CanonicalAll (t :: ts) (v :: vs) (json :: jsons)

end

theorem CanonicalAll.length_eq {ts : List Ty} {vs : List Value} {jsons : List Json} (h : CanonicalAll ts vs jsons) :
    vs.length = ts.length := by
  induction ts generalizing vs jsons with
  | nil => cases h; rfl
  | cons t ts ih =>
    cases h with
    | cons _ rest => exact congrArg Nat.succ (ih rest)

section Octets

/-- Values that are octets are those of the octets that they are. -/
theorem eq_map_byte_of_mapM {items : List Value} {bs : Bytes} (h : items.mapM Value.byte? = some bs) :
    items = bs.map .byte := by
  induction items generalizing bs with
  | nil =>
    cases h
    rfl
  | cons item items ih =>
    rw [List.mapM_cons] at h
    obtain ⟨b, hb, h⟩ := Option.bind_eq_some_iff.mp h
    obtain ⟨rest, hrest, h⟩ := Option.bind_eq_some_iff.mp h
    cases h
    cases item with
    | byte c =>
      cases hb
      rw [ih hrest]
      rfl
    | _ => cases hb

theorem items?_of_bytes? {v : Value} {bs : Bytes} (h : v.bytes? = some bs) : v.items? = some (bs.map .byte) := by
  cases v with
  | bytes cs =>
    cases h
    rfl
  | array items => exact congrArg some (eq_map_byte_of_mapM h)
  | tuple items => exact congrArg some (eq_map_byte_of_mapM h)
  | _ => cases h

theorem mapM_byte?_map (bs : Bytes) : (bs.map Value.byte).mapM Value.byte? = some bs := by
  induction bs with
  | nil => rfl
  | cons b bs ih =>
    rw [List.map_cons, List.mapM_cons, ih]
    rfl

theorem bytes?_of_items? {v : Value} {bs : Bytes} (h : v.items? = some (bs.map .byte)) : v.bytes? = some bs := by
  cases v with
  | bytes cs =>
    have hinj : cs = bs := List.map_injective_iff.mpr (fun _ _ h => Value.byte.inj h) (Option.some.inj h)
    exact congrArg some hinj
  | array items =>
    cases h
    exact mapM_byte?_map bs
  | tuple items =>
    cases h
    exact mapM_byte?_map bs
  | _ => cases h

end Octets

section Printing

theorem mapM_toJsonValue (elem : Ty) (items : List Value) :
    items.mapM elem.toJsonValue = membersToJson (List.replicate items.length elem) items := by
  induction items with
  | nil => rfl
  | cons v vs ih => rw [List.mapM_cons, List.length_cons, List.replicate_succ, membersToJson, ih]

theorem octetsToJson_of_bytes? {t : Ty} {v : Value} {bs : Bytes} (h : v.bytes? = some bs) :
    octetsToJson t v = .ok (.string (Base64.encode bs)) := by
  rw [octetsToJson, h]

mutual

/-- Printing writes the canonical JSON, by recursion on it. -/
theorem CanonicalJson.prints {t : Ty} {v : Value} {json : Json} : CanonicalJson t v json → t.toJsonValue v = .ok json
  | .uint _ => rfl
  | .ufixed hlen hd _ => by rw [Ty.toJsonValue, Fixed.format_ofDigits hlen hd]
  | .byte _ => rfl
  | .bool _ => rfl
  | .address _ => rfl
  | .string _ => rfl
  | .octetArray hv => by rw [Ty.toJsonValue, if_pos rfl, octetsToJson_of_bytes? hv]
  | .octetList hv => by rw [Ty.toJsonValue, if_pos rfl, octetsToJson_of_bytes? hv]
  | .array he hv h => by
    rw [Ty.toJsonValue, if_neg he, itemsOf_eq_ok.mpr hv, ok_bind, mapM_toJsonValue, h.prints]
    rfl
  | .list he hv h => by
    rw [Ty.toJsonValue, if_neg he, itemsOf_eq_ok.mpr hv, ok_bind, mapM_toJsonValue, h.prints]
    rfl
  | .tuple hv h => by
    rw [Ty.toJsonValue, itemsOf_eq_ok.mpr hv, ok_bind, if_neg (not_not_intro h.length_eq), h.prints]
    rfl

theorem CanonicalAll.prints {ts : List Ty} {vs : List Value} {jsons : List Json} :
    CanonicalAll ts vs jsons → membersToJson ts vs = .ok jsons
  | .nil => rfl
  | .cons head rest => by
    rw [membersToJson, head.prints, ok_bind, rest.prints]
    rfl

end

end Printing

section Normalizing

mutual

/-- A value and the one that it is normalised to have the same JSON, by recursion on it. -/
theorem CanonicalJson.normalize {t : Ty} {v : Value} {json : Json} :
    CanonicalJson t v json → CanonicalJson t (t.normalize v) json
  | .uint h => .uint h
  | .ufixed hlen hd h => .ufixed hlen hd h
  | .byte b => .byte b
  | .bool b => .bool b
  | .address a => .address a
  | .string s => .string s
  | @CanonicalJson.octetArray _ bs hv => by
    have hmap : (bs.map Value.byte).map Value.octet = bs := by simp [Function.comp_def, Value.octet]
    simp only [Ty.normalize, items?_of_bytes? hv, if_true, hmap]
    exact .octetArray rfl
  | @CanonicalJson.octetList _ bs hv => by
    have hmap : (bs.map Value.byte).map Value.octet = bs := by simp [Function.comp_def, Value.octet]
    simp only [Ty.normalize, items?_of_bytes? hv, if_true, hmap]
    exact .octetList rfl
  | @CanonicalJson.array elem _ items _ he hv h => by
    have hall := h.normalize
    rw [normalizeAll_replicate, ← List.length_map elem.normalize] at hall
    have hjson := CanonicalJson.array (v := .array (items.map elem.normalize)) he rfl hall
    rw [List.length_map] at hjson
    simpa only [Ty.normalize, hv, if_neg he] using hjson
  | @CanonicalJson.list elem _ items _ he hv h => by
    have hall := h.normalize
    rw [normalizeAll_replicate, ← List.length_map elem.normalize] at hall
    simp only [Ty.normalize, hv, if_neg he]
    exact .list he rfl hall
  | .tuple hv h => by
    simp only [Ty.normalize, hv]
    exact .tuple rfl h.normalize

theorem CanonicalAll.normalize {ts : List Ty} {vs : List Value} {jsons : List Json} :
    CanonicalAll ts vs jsons → CanonicalAll ts (normalizeAll ts vs) jsons
  | .nil => .nil
  | .cons head rest => .cons head.normalize rest.normalize

end

end Normalizing

section Encoding

/-- A number of its type's width is encoded. -/
theorem onlyTooLong_number {t : Ty} {bits n : Nat} (hw : Ty.IsWidth bits) (h : n < 1 <<< bits) :
    OnlyTooLong (encodeScalar t (bits / 8) (.uint n)) := by
  obtain ⟨-, -, hmod⟩ := hw
  have hbits : 8 * (bits / 8) = bits := by omega
  rw [encodeScalar, encodeNat, hbits, if_pos h]
  exact onlyTooLong_ok _

theorem onlyTooLong_byte (b : UInt8) : OnlyTooLong (Ty.byte.encode (.byte b)) := by
  have hlt : b.toNat < 1 <<< (8 * 1) := b.toNat_lt
  rw [Ty.encode, encodeScalar, encodeNat, if_pos hlt]
  exact onlyTooLong_ok _

theorem onlyTooLong_octets (bs : Bytes) :
    List.Forall₂ (fun t v => OnlyTooLong (Ty.encode t v)) (List.replicate (bs.map Value.byte).length .byte)
      (bs.map .byte) := by
  induction bs with
  | nil => exact .nil
  | cons b bs ih => exact .cons (onlyTooLong_byte b) ih

theorem allWithinBounds_replicate (elem : Ty) (h : elem.WithinBounds) (n : Nat) :
    Ty.AllWithinBounds (List.replicate n elem) := by
  rw [Ty.allWithinBounds_iff]
  intro t ht
  rwa [List.eq_of_mem_replicate ht]

mutual

/-- A value that has canonical JSON has an encoding as far as its lengths and offsets do, by recursion on the JSON. -/
theorem CanonicalJson.onlyTooLong {t : Ty} {v : Value} {json : Json} :
    CanonicalJson t v json → t.WithinBounds → OnlyTooLong (t.encode v)
  | .uint h, hin => onlyTooLong_number hin h
  | .ufixed _ _ h, hin => onlyTooLong_number hin.1 h
  | .byte b, _ => onlyTooLong_byte b
  | .bool _, _ => onlyTooLong_ok _
  | .address _, _ => onlyTooLong_ok _
  | .string _, _ => onlyTooLong_withLength _ _
  | @CanonicalJson.octetArray _ bs hv, _ => by
    have harray := onlyTooLong_array (items?_of_bytes? hv) (onlyTooLong_octets bs)
    rwa [List.length_map] at harray
  | @CanonicalJson.octetList _ bs hv, _ => onlyTooLong_list (items?_of_bytes? hv) (onlyTooLong_octets bs)
  | .array _ hv h, hin => onlyTooLong_array hv (h.onlyTooLong (allWithinBounds_replicate _ hin.1 _))
  | @CanonicalJson.list elem _ _ _ _ hv h, hin =>
    onlyTooLong_list hv (h.onlyTooLong (allWithinBounds_replicate elem hin _))
  | .tuple hv h, hin => onlyTooLong_tuple hv (h.onlyTooLong hin)

theorem CanonicalAll.onlyTooLong {ts : List Ty} {vs : List Value} {jsons : List Json} :
    CanonicalAll ts vs jsons → Ty.AllWithinBounds ts → List.Forall₂ (fun t v => OnlyTooLong (t.encode v)) ts vs
  | .nil, _ => .nil
  | .cons head rest, hin => .cons (head.onlyTooLong hin.1) (rest.onlyTooLong hin.2)

end

end Encoding

section Reading

/-- Values that are read by a type have canonical JSON. -/
def ReadsCanonical (t : Ty) : Prop := ∀ json v, t.ofJsonValue json = .ok v → ∃ json', CanonicalJson t v json'

theorem checkRange_eq_ok {t : Ty} {bits n : Nat} {v : Value} (h : checkRange t bits n = .ok v) :
    v = .uint n ∧ n < 1 <<< bits := by
  unfold checkRange at h
  split at h
  · rename_i hn
    exact ⟨(Except.ok.inj h).symm, hn⟩
  · cases h

theorem readsCanonical_uint (bits : Nat) : ReadsCanonical (.uint bits) := by
  intro json v h
  cases json with
  | number text =>
    rw [Ty.ofJsonValue] at h
    split at h
    · obtain ⟨rfl, hn⟩ := checkRange_eq_ok h
      exact ⟨_, .uint hn⟩
    · cases h
  | _ => cases h

theorem readsCanonical_ufixed (bits precision : Nat) : ReadsCanonical (.ufixed bits precision) := by
  intro json v h
  cases json with
  | number text =>
    rw [Ty.ofJsonValue] at h
    split at h
    · rename_i n _
      obtain ⟨rfl, hn⟩ := checkRange_eq_ok h
      obtain ⟨whole, places, -, hlen, hd, rfl⟩ := Fixed.format_eq precision n
      exact ⟨_, .ufixed hlen hd hn⟩
    · cases h
  | _ => cases h

theorem readsCanonical_byte : ReadsCanonical .byte := by
  intro json v h
  rw [Ty.ofJsonValue] at h
  split at h
  · cases h
    exact ⟨_, .byte _⟩
  · cases h

theorem readsCanonical_bool : ReadsCanonical .bool := by
  intro json v h
  cases json with
  | bool b =>
    cases h
    exact ⟨_, .bool b⟩
  | _ => cases h

theorem readsCanonical_address : ReadsCanonical .address := by
  intro json v h
  cases json with
  | string text =>
    obtain ⟨a, -, hp⟩ := bind_eq_ok.mp h
    obtain rfl := pure_eq_ok.mp hp
    exact ⟨_, .address a⟩
  | _ => cases h

theorem readsCanonical_string : ReadsCanonical .string := by
  intro json v h
  cases json with
  | string s =>
    cases h
    exact ⟨_, .string s⟩
  | _ => cases h

/-- Members that are read have canonical JSON, one after the other. -/
theorem canonicalAll_of_membersOfJson {ts : List Ty} (ht : ∀ t ∈ ts, ReadsCanonical t) {jsons : List Json}
    {vs : List Value} (hlen : jsons.length = ts.length) (h : membersOfJson ts jsons = .ok vs) :
    ∃ jsons', CanonicalAll ts vs jsons' := by
  induction ts generalizing jsons vs with
  | nil =>
    cases h
    exact ⟨[], .nil⟩
  | cons t ts ih =>
    cases jsons with
    | nil => cases hlen
    | cons json jsons =>
      rw [List.forall_mem_cons] at ht
      obtain ⟨v, hv, h⟩ := bind_eq_ok.mp h
      obtain ⟨rest, hrest, hp⟩ := bind_eq_ok.mp h
      obtain rfl := pure_eq_ok.mp hp
      obtain ⟨json', hjson⟩ := ht.1 json v hv
      obtain ⟨jsons', hjsons⟩ := ih ht.2 (Nat.succ.inj hlen) hrest
      exact ⟨json' :: jsons', .cons hjson hjsons⟩

theorem mapM_ofJsonValue (elem : Ty) (jsons : List Json) :
    jsons.mapM elem.ofJsonValue = membersOfJson (List.replicate jsons.length elem) jsons := by
  induction jsons with
  | nil => rfl
  | cons json jsons ih => rw [List.mapM_cons, List.length_cons, List.replicate_succ, membersOfJson, ih]

theorem canonicalAll_octets (bs : Bytes) :
    ∃ jsons, CanonicalAll (List.replicate (bs.map Value.byte).length .byte) (bs.map .byte) jsons := by
  induction bs with
  | nil => exact ⟨[], .nil⟩
  | cons b bs ih =>
    obtain ⟨jsons, hrest⟩ := ih
    exact ⟨_ :: jsons, .cons (.byte b) hrest⟩

/-- Octets that were read one by one. -/
theorem exists_octets {items : List Value} {jsons : List Json}
    (h : CanonicalAll (List.replicate items.length .byte) items jsons) : ∃ bs : Bytes, items = bs.map .byte := by
  induction items generalizing jsons with
  | nil => exact ⟨[], rfl⟩
  | cons item items ih =>
    cases h with
    | cons head rest =>
      cases head with
      | byte b =>
        obtain ⟨bs, rfl⟩ := ih rest
        exact ⟨b :: bs, rfl⟩

/-- An array whose items have canonical JSON has it too, of a fixed length or of any. -/
theorem canonical_of_items {elem : Ty} {v : Value} {items : List Value} {jsons : List Json} (hv : v.items? = some items)
    (h : CanonicalAll (List.replicate items.length elem) items jsons) :
    (∃ json, CanonicalJson (.array elem items.length) v json) ∧ ∃ json, CanonicalJson (.list elem) v json := by
  by_cases he : elem = .byte
  · subst he
    obtain ⟨bs, rfl⟩ := exists_octets h
    rw [List.length_map]
    exact ⟨⟨_, .octetArray (bytes?_of_items? hv)⟩, ⟨_, .octetList (bytes?_of_items? hv)⟩⟩
  · exact ⟨⟨_, .array he hv h⟩, ⟨_, .list he hv h⟩⟩

/-- What an array type reads has items, and these have canonical JSON. -/
theorem items_of_readArray {t elem : Ty} (he : ReadsCanonical elem) {json : Json} {v : Value}
    (h : readArray t elem json elem.ofJsonValue = .ok v) :
    ∃ items jsons, v.items? = some items ∧ CanonicalAll (List.replicate items.length elem) items jsons := by
  unfold readArray at h
  split at h
  · -- Base64 text stands for octets.
    split at h
    · rename_i hb
      subst hb
      unfold readBase64 at h
      split at h
      · rename_i bs _
        cases h
        obtain ⟨jsons, hall⟩ := canonicalAll_octets bs
        exact ⟨_, jsons, rfl, hall⟩
      · cases h
    · cases h
  · obtain ⟨jsons, -, h⟩ := bind_eq_ok.mp h
    obtain ⟨items, hitems, hp⟩ := bind_eq_ok.mp h
    obtain rfl := pure_eq_ok.mp hp
    have hlen : items.length = jsons.length := (mapM_eq_ok.mp hitems).length_eq.symm
    rw [mapM_ofJsonValue, ← hlen] at hitems
    obtain ⟨jsons', hall⟩ := canonicalAll_of_membersOfJson
      (fun t ht => List.eq_of_mem_replicate ht ▸ he) (by rw [List.length_replicate, hlen]) hitems
    exact ⟨items, jsons', rfl, hall⟩

/-- Whatever a type of the language reads from JSON has canonical JSON, by induction on the type. -/
theorem readsCanonical (t : Ty) : t.WithinBounds → ReadsCanonical t := by
  induction t using Ty.induct with
  | uint bits => exact fun _ => readsCanonical_uint bits
  | ufixed bits precision => exact fun _ => readsCanonical_ufixed bits precision
  | byte => exact fun _ => readsCanonical_byte
  | bool => exact fun _ => readsCanonical_bool
  | address => exact fun _ => readsCanonical_address
  | string => exact fun _ => readsCanonical_string
  | array elem length ih =>
    intro hin json v h
    obtain ⟨w, hread, h⟩ := bind_eq_ok.mp h
    obtain ⟨_, hlength, hp⟩ := bind_eq_ok.mp h
    obtain rfl := pure_eq_ok.mp hp
    obtain ⟨items, jsons, hitems, hall⟩ := items_of_readArray (ih hin.1) hread
    rw [expectLength_eq_ok, hitems, Option.getD_some] at hlength
    subst hlength
    exact (canonical_of_items hitems hall).1
  | list elem ih =>
    intro hin json v h
    obtain ⟨items, jsons, hitems, hall⟩ := items_of_readArray (ih hin) h
    exact (canonical_of_items hitems hall).2
  | tuple members ih =>
    intro hin json v h
    obtain ⟨jsons, -, h⟩ := bind_eq_ok.mp h
    obtain ⟨_, hlength, h⟩ := bind_eq_ok.mp h
    obtain ⟨vs, hvs, hp⟩ := bind_eq_ok.mp h
    obtain rfl := pure_eq_ok.mp hp
    obtain ⟨jsons', hall⟩ := canonicalAll_of_membersOfJson
      (fun t ht => ih t ht (Ty.allWithinBounds_iff.mp hin t ht)) (expectLength_eq_ok.mp hlength) hvs
    exact ⟨_, .tuple rfl hall⟩

/-- A value that is read from JSON text is encoded unless it is too long. -/
theorem onlyTooLong_of_ofJson {t : Ty} {text : String} {v : Value} (hin : t.WithinBounds) (h : t.ofJson text = .ok v) :
    OnlyTooLong (t.encode v) := by
  unfold Ty.ofJson at h
  split at h
  · obtain ⟨json, hcanonical⟩ := readsCanonical t hin _ v h
    exact hcanonical.onlyTooLong hin
  · cases h

end Reading

/-- What a named type reads from JSON is encoded unless a length or an offset is too large, and is printed as canonical
JSON. Decoding its encoding prints the same text. -/
theorem json_and_octets_agree {name text : String} {t : Ty} {v : Value} (ht : Ty.parse name = .ok t)
    (h : t.ofJson text = .ok v) :
    OnlyTooLong (t.encode v) ∧ (∃ json, CanonicalJson t v json ∧ t.toJson v = .ok json.compact) ∧
      ∀ bs, t.encodeJson text = .ok bs → t.encode v = .ok bs ∧ t.decodeJson bs = t.toJson v := by
  have hin : t.WithinBounds := (Ty.chars_of_parseUpTo ht).1
  obtain ⟨json, hread⟩ : ∃ json, t.ofJsonValue json = .ok v := by
    unfold Ty.ofJson at h
    split at h
    · exact ⟨_, h⟩
    · cases h
  obtain ⟨json', hcanonical⟩ := readsCanonical t hin json v hread
  have htext : t.toJson v = .ok json'.compact := bind_eq_ok.mpr ⟨json', hcanonical.prints, rfl⟩
  refine ⟨hcanonical.onlyTooLong hin, ⟨json', hcanonical, htext⟩, ?_⟩
  intro bs hencode
  obtain ⟨w, hw, hencode⟩ := bind_eq_ok.mp hencode
  obtain rfl : v = w := Except.ok.inj (h.symm.trans hw)
  have hback : t.toJson (t.normalize v) = .ok json'.compact :=
    bind_eq_ok.mpr ⟨json', hcanonical.normalize.prints, rfl⟩
  refine ⟨hencode, ?_⟩
  rw [htext, Ty.decodeJson, (encodes_of_encode t v bs hencode).decode]
  exact hback

/-- A decimal with fewer places than its type has, and octets as a list of numbers. -/
theorem json_and_octets_agree_mixed :
    Ty.parse "(ufixed8x3,byte[],bool)" = .ok (.tuple [.ufixed 8 3, .list .byte, .bool]) ∧
    (Ty.tuple [.ufixed 8 3, .list .byte, .bool]).ofJson "[0.2, [1,2], true]" =
      .ok (.tuple [.uint 200, .array [.byte 1, .byte 2], .bool true]) ∧
    (Ty.tuple [.ufixed 8 3, .list .byte, .bool]).encodeJson "[0.2, [1,2], true]" = .ok [200, 0, 4, 0x80, 0, 2, 1, 2] ∧
    (Ty.tuple [.ufixed 8 3, .list .byte, .bool]).decodeJson [200, 0, 4, 0x80, 0, 2, 1, 2] =
      .ok "[0.200,\"AQI=\",true]" := by
  have ht : Ty.parse "(ufixed8x3,byte[],bool)" = .ok (.tuple [.ufixed 8 3, .list .byte, .bool]) := by rfl
  have h : (Ty.tuple [.ufixed 8 3, .list .byte, .bool]).ofJson "[0.2, [1,2], true]" =
      .ok (.tuple [.uint 200, .array [.byte 1, .byte 2], .bool true]) := by decide +kernel
  have hencode : (Ty.tuple [.ufixed 8 3, .list .byte, .bool]).encodeJson "[0.2, [1,2], true]" =
      .ok [200, 0, 4, 0x80, 0, 2, 1, 2] := by decide +kernel
  obtain ⟨-, -, hagree⟩ := json_and_octets_agree ht h
  have hprinted : (Ty.tuple [.ufixed 8 3, .list .byte, .bool]).toJson
      (.tuple [.uint 200, .array [.byte 1, .byte 2], .bool true]) = .ok "[0.200,\"AQI=\",true]" := by decide +kernel
  exact ⟨ht, h, hencode, (hagree _ hencode).2.trans hprinted⟩

end AtomicGroup.Abi
