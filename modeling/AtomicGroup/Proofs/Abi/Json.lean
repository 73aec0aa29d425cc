import AtomicGroup.Abi.Json
import AtomicGroup.Proofs.Abi.Canonical
import AtomicGroup.Proofs.Abi.Fixed
import AtomicGroup.Proofs.Abi.Names
import AtomicGroup.Proofs.Address
import AtomicGroup.Proofs.Json.RoundTrip

/-!
# Decoded values survive as JSON

What a type decodes is printed as JSON of the same shape and read back as the same value: the type itself says how each
part is written, and no range or length that decoding let through is refused on the way back.
-/
namespace AtomicGroup.Abi

open Outcome

mutual

/-- How many arrays and tuples of a type lie inside one another. -/
def Ty.nesting : Ty → Nat
  | .array elem _ => elem.nesting + 1
  | .list elem => elem.nesting + 1
  | .tuple members => membersNesting members + 1
  | _ => 0

def membersNesting : List Ty → Nat
  | [] => 0
  | t :: ts => max t.nesting (membersNesting ts)

end

/-- What makes JSON a good form of a value: it is printed for the value and read as the value, and it has a text that
stands for itself. -/
structure JsonForm (t : Ty) (v : Value) (json : Json) : Prop where
  prints : t.toJsonValue v = .ok json
  reads : t.ofJsonValue json = .ok v
  fits : json.Fits t.nesting
  plain : json.plain? = some json

/-- Whatever a type decodes has a good form. -/
def HasForms (t : Ty) : Prop := ∀ bs v, t.decode bs = .ok v → ∃ json, JsonForm t v json

section Scalars

/-- A number that was decoded has as many bits as its type, which reading it back asks for. -/
theorem decode_number {t : Ty} {bits : Nat} (hw : Ty.IsWidth bits) (hs : t.staticLength = bits / 8) {bs : Bytes}
    {v : Value} (h : (do expectLength t t.staticLength bs.length; return .uint (ofBigEndian bs)) = Except.ok v) :
    ∃ n, v = .uint n ∧ n < Fixed.bound ∧ checkRange t bits n = .ok (.uint n) := by
  obtain ⟨_, hlen, hp⟩ := bind_eq_ok.mp h
  have hlt := ofBigEndian_lt bs
  obtain ⟨-, hmax, hmod⟩ := hw
  have hbits : 8 * bs.length = bits := by
    rw [expectLength_eq_ok.mp hlen, hs]
    omega
  have hbound : 1 <<< bits ≤ 1 <<< Ty.maxBits := by
    rw [Nat.one_shiftLeft, Nat.one_shiftLeft]
    exact Nat.pow_le_pow_right (by decide) hmax
  rw [hbits] at hlt
  exact ⟨_, (pure_eq_ok.mp hp).symm, Nat.lt_of_lt_of_le hlt hbound, if_pos hlt⟩

theorem hasForms_uint {bits : Nat} (hw : Ty.IsWidth bits) : HasForms (.uint bits) := by
  intro bs v h
  obtain ⟨n, rfl, hbound, hrange⟩ := decode_number hw rfl h
  have hread : readNat? (Decimal.text n) = some n := by
    rw [readNat?, Decimal.text, String.toList_ofList, Decimal.read?_digits]
    exact Option.filter_some_pos (decide_eq_true hbound)
  refine ⟨.number (Decimal.text n), rfl, ?_, .number ?_, rfl⟩
  · simp only [Ty.ofJsonValue, hread, hrange]
  · rw [Decimal.text, String.toList_ofList]
    exact .natural n

theorem hasForms_ufixed {bits precision : Nat} (hw : Ty.IsWidth bits) (hp : Ty.IsPrecision precision) :
    HasForms (.ufixed bits precision) := by
  intro bs v h
  obtain ⟨n, rfl, hbound, hrange⟩ := decode_number hw rfl h
  have hread : Fixed.parse? precision (String.ofList (Fixed.format precision n)).toList = some n := by
    rw [String.toList_ofList, Fixed.parse?_format, if_pos hbound]
  refine ⟨.number (String.ofList (Fixed.format precision n)), rfl, ?_, .number ?_, rfl⟩
  · simp only [Ty.ofJsonValue, hread, hrange]
  · obtain ⟨whole, places, hformat, hlen, hplaces, -⟩ := Fixed.format_eq precision n
    rw [String.toList_ofList, hformat]
    refine .decimal whole ?_ hplaces
    rw [← List.length_pos_iff, hlen]
    exact hp.1

theorem hasForms_byte : HasForms .byte := by
  intro bs v h
  unfold Ty.decode at h
  split at h
  · rename_i b
    cases h
    have hread : readOctet? (.number (Decimal.text b.toNat)) = some b := by
      have hlt : (some b.toNat).filter (· < 256) = some b.toNat :=
        Option.filter_some_pos (decide_eq_true b.toNat_lt)
      rw [readOctet?, Decimal.text, String.toList_ofList, Decimal.readCanonical?_digits, hlt]
      exact congrArg some UInt8.ofNat_toNat
    refine ⟨.number (Decimal.text b.toNat), rfl, ?_, .number ?_, rfl⟩
    · simp only [Ty.ofJsonValue, hread]
    · rw [Decimal.text, String.toList_ofList]
      exact .natural _
  · cases h

theorem hasForms_bool : HasForms .bool := by
  intro bs v h
  have hbool : ∃ b, v = .bool b := by
    unfold Ty.decode at h
    split at h
    · split at h
      · exact ⟨true, (Except.ok.inj h).symm⟩
      · split at h
        · exact ⟨false, (Except.ok.inj h).symm⟩
        · cases h
    · cases h
  obtain ⟨b, rfl⟩ := hbool
  exact ⟨.bool b, rfl, rfl, .bool b, rfl⟩

theorem hasForms_address : HasForms .address := by
  intro bs v h
  unfold Ty.decode at h
  split at h
  · rename_i a _
    cases h
    refine ⟨.string a.text, rfl, ?_, .string _, rfl⟩
    simp only [Ty.ofJsonValue, Address.ofText_text]
    rfl
  · cases h

theorem hasForms_string : HasForms .string := by
  intro bs v h
  obtain ⟨body, -, htext⟩ := bind_eq_ok.mp h
  split at htext
  · rename_i s _
    obtain rfl := pure_eq_ok.mp htext
    exact ⟨.string s, rfl, rfl, .string s, rfl⟩
  · cases htext

end Scalars

section Members

/-- A member that was read was decoded by its type: a truth value, from the octet that it would have for itself. -/
theorem decoded_of_reads {t : Ty} {p : Part} {v : Value} (h : Reads (t.member t.decode) p v) :
    ∃ bs, t.decode bs = .ok v := by
  by_cases hb : t = .bool
  · subst hb
    cases h with
    | bit b => exact ⟨[boolOctet b], by cases b <;> rfl⟩
  · by_cases hd : t.isDynamic
    · simp only [Ty.member, if_neg hb, if_pos hd] at h
      cases h with
      | tail hr => exact ⟨_, hr⟩
    · simp only [Ty.member, if_neg hb, if_neg hd] at h
      generalize t.staticLength = length at h
      cases h with
      | inline hr => exact ⟨_, hr⟩

/-- The members of a tuple that was read were each decoded by their types. -/
theorem decoded_members {ts : List Ty} {bs : Bytes} {vs : List Value} (h : readMembers (memberReaders ts) bs = .ok vs) :
    List.Forall₂ (fun t v => ∃ bs, t.decode bs = .ok v) ts vs := by
  obtain ⟨ps, -, -, -, -, hreads⟩ := laidOut_of_readMembers h
  clear h
  induction ts generalizing ps vs with
  | nil =>
    cases hreads
    exact .nil
  | cons t ts ih =>
    cases hreads with
    | cons hhead hrest => exact .cons (decoded_of_reads hhead) (ih _ hrest)

/-- The members of a tuple have good forms, one after the other. -/
theorem forms_members {ts : List Ty} {vs : List Value} (ht : ∀ t ∈ ts, HasForms t)
    (h : List.Forall₂ (fun t v => ∃ bs, t.decode bs = .ok v) ts vs) :
    ∃ jsons, membersToJson ts vs = .ok jsons ∧ membersOfJson ts jsons = .ok vs ∧ jsons.length = ts.length ∧
      ∀ json ∈ jsons, json.Fits (membersNesting ts) ∧ json.plain? = some json := by
  induction h with
  | nil => exact ⟨[], rfl, rfl, rfl, nofun⟩
  | @cons t v ts vs hv _ ih =>
    obtain ⟨bs, hv⟩ := hv
    obtain ⟨json, hprints, hreads, hfits, hplain⟩ := ht t List.mem_cons_self bs v hv
    obtain ⟨jsons, hprintsAll, hreadsAll, hlen, hall⟩ := ih fun t h => ht t (List.mem_cons_of_mem _ h)
    refine ⟨json :: jsons, ?_, ?_, congrArg Nat.succ hlen, List.forall_mem_cons.mpr ⟨⟨?_, hplain⟩, ?_⟩⟩
    · rw [membersToJson, hprints, hprintsAll]
      rfl
    · rw [membersOfJson, hreads, hreadsAll]
      rfl
    · exact hfits.mono (Nat.le_max_left _ _)
    · exact fun j hj => ⟨(hall j hj).1.mono (Nat.le_max_right _ _), (hall j hj).2⟩

/-- The items of an array that was read were each decoded by its type, and are as many as were asked for. -/
theorem decoded_items {elem : Ty} {n : Nat} {bs : Bytes} {vs : List Value}
    (h : readMembers (List.replicate n (elem.member elem.decode)) bs = .ok vs) :
    vs.length = n ∧ ∀ v ∈ vs, ∃ bs, elem.decode bs = .ok v := by
  rw [replicate_member] at h
  have hall := decoded_members h
  constructor
  · rw [← hall.length_eq, List.length_replicate]
  · intro v hv
    obtain ⟨t, ht, hdecoded⟩ := exists_of_mem_right hall hv
    rwa [List.eq_of_mem_replicate ht] at hdecoded

theorem plainItems?_eq {items : List Json} (h : ∀ json ∈ items, json.plain? = some json) :
    Json.plainItems? items = some items := by
  induction items with
  | nil => rfl
  | cons json items ih =>
    rw [List.forall_mem_cons] at h
    rw [Json.plainItems?, h.1, ih h.2]
    rfl

/-- The items of an array have good forms, one after the other. -/
theorem forms_items {elem : Ty} (he : HasForms elem) {vs : List Value} (h : ∀ v ∈ vs, ∃ bs, elem.decode bs = .ok v) :
    ∃ jsons, vs.mapM elem.toJsonValue = .ok jsons ∧ jsons.mapM elem.ofJsonValue = .ok vs ∧
      ∀ json ∈ jsons, json.Fits elem.nesting ∧ json.plain? = some json := by
  have hforms : List.Forall₂ (fun v w => ∃ json, JsonForm elem v json ∧ elem.ofJsonValue json = .ok w) vs vs := by
    refine List.forall₂_same.mpr fun v hv => ?_
    obtain ⟨bs, hdecoded⟩ := h v hv
    obtain ⟨json, hform⟩ := he bs v hdecoded
    exact ⟨json, hform, hform.reads⟩
  obtain ⟨jsons, hprints, hreads⟩ := forall₂_comp_iff.mp hforms
  refine ⟨jsons, mapM_eq_ok.mpr (hprints.imp fun _ _ hform => hform.prints), mapM_eq_ok.mpr hreads, ?_⟩
  intro json hjson
  obtain ⟨v, -, hform⟩ := exists_of_mem_right hprints hjson
  exact ⟨hform.fits, hform.plain⟩

/-- A form of the items of an array: base 64 text for octets, and an array for all others. It is the same for arrays
of a fixed and of any length. -/
theorem form_arrayValue {elem : Ty} (he : HasForms elem) {n : Nat} {bs : Bytes} {vs : List Value}
    (h : readMembers (List.replicate n (elem.member elem.decode)) bs = .ok vs) (t : Ty) :
    ∃ json, (if elem = .byte then octetsToJson t (arrayValue elem vs)
        else do return .array (← (← itemsOf t (arrayValue elem vs)).mapM elem.toJsonValue)) = .ok json ∧
      readArray t elem json elem.ofJsonValue = .ok (arrayValue elem vs) ∧
      ((arrayValue elem vs).items?.getD []).length = n ∧
      json.Fits (elem.nesting + 1) ∧ json.plain? = some json := by
  obtain ⟨hlen, hdecoded⟩ := decoded_items h
  have hitems : (arrayValue elem vs).items? = some vs := (recodes_items (recodes_of_decode elem) h).2.items
  have hcount : ((arrayValue elem vs).items?.getD []).length = n := by rw [hitems, Option.getD_some, hlen]
  by_cases hb : elem = .byte
  · subst hb
    refine ⟨.string (Base64.encode (vs.filterMap Value.byte?)), rfl, ?_, hcount, .string _, rfl⟩
    rw [readArray, if_pos rfl, readBase64, Base64.decode?_encode]
    rfl
  · obtain ⟨jsons, hprints, hreads, hall⟩ := forms_items he hdecoded
    refine ⟨.array jsons, ?_, ?_, hcount, .array fun json hj => (hall json hj).1, ?_⟩
    · rw [if_neg hb]
      exact bind_eq_ok.mpr ⟨vs, itemsOf_eq_ok.mpr hitems, bind_eq_ok.mpr ⟨jsons, hprints, rfl⟩⟩
    · rw [arrayValue, if_neg hb]
      exact bind_eq_ok.mpr ⟨jsons, rfl, bind_eq_ok.mpr ⟨vs, hreads, rfl⟩⟩
    · rw [Json.plain?, plainItems?_eq fun json hj => (hall json hj).2]
      rfl

end Members

/-- Whatever a type of the language decodes has a good form, by induction on the type. -/
theorem hasForms (t : Ty) : t.WithinBounds → HasForms t := by
  induction t using Ty.induct with
  | uint bits => exact hasForms_uint
  | ufixed bits precision => exact fun h => hasForms_ufixed h.1 h.2
  | byte => exact fun _ => hasForms_byte
  | bool => exact fun _ => hasForms_bool
  | address => exact fun _ => hasForms_address
  | string => exact fun _ => hasForms_string
  | array elem length ih =>
    intro hin bs v h
    obtain ⟨vs, hvs, hp⟩ := bind_eq_ok.mp h
    obtain rfl := pure_eq_ok.mp hp
    obtain ⟨json, hprints, hreads, hcount, hfits, hplain⟩ := form_arrayValue (ih hin.1) hvs (.array elem length)
    refine ⟨json, hprints, ?_, hfits, hplain⟩
    exact bind_eq_ok.mpr ⟨_, hreads, bind_eq_ok.mpr ⟨(), expectLength_eq_ok.mpr hcount, rfl⟩⟩
  | list elem ih =>
    intro hin bs v h
    obtain ⟨⟨count, body⟩, -, h⟩ := bind_eq_ok.mp h
    obtain ⟨vs, hvs, hp⟩ := bind_eq_ok.mp h
    obtain rfl := pure_eq_ok.mp hp
    obtain ⟨json, hprints, hreads, -, hfits, hplain⟩ := form_arrayValue (ih hin) hvs (.list elem)
    exact ⟨json, hprints, hreads, hfits, hplain⟩
  | tuple members ih =>
    intro hin bs v h
    obtain ⟨vs, hvs, hp⟩ := bind_eq_ok.mp h
    obtain rfl := pure_eq_ok.mp hp
    have hdecoded := decoded_members hvs
    obtain ⟨jsons, hprints, hreads, hlen, hall⟩ :=
      forms_members (fun t ht => ih t ht (Ty.allWithinBounds_iff.mp hin t ht)) hdecoded
    refine ⟨.array jsons, ?_, ?_, .array fun json hj => (hall json hj).1, ?_⟩
    · have hcount : ¬vs.length ≠ members.length := not_not_intro hdecoded.length_eq.symm
      refine bind_eq_ok.mpr ⟨vs, rfl, ?_⟩
      rw [if_neg hcount]
      exact bind_eq_ok.mpr ⟨jsons, hprints, rfl⟩
    · exact bind_eq_ok.mpr ⟨jsons, rfl, bind_eq_ok.mpr ⟨(), expectLength_eq_ok.mpr hlen, bind_eq_ok.mpr
        ⟨vs, hreads, rfl⟩⟩⟩
    · rw [Json.plain?, plainItems?_eq fun json hj => (hall json hj).2]
      rfl

/-- What a named type decodes has a JSON text that reads as it, unless the type nests deeper than texts may. Encoding
the text is therefore encoding the value, which cannot fail either. -/
theorem ofJson_of_decode {name : String} {t : Ty} {bs : Bytes} {v : Value} (ht : Ty.parse name = .ok t)
    (hn : t.nesting < 128) (h : t.decode bs = .ok v) :
    ∃ text bs', t.toJson v = .ok text ∧ t.ofJson text = .ok v ∧ t.decodeJson bs = .ok text ∧
      t.encodeJson text = .ok bs' ∧ t.encode v = .ok bs' := by
  obtain ⟨json, hprints, hreads, hfits, hplain⟩ := hasForms t (Ty.chars_of_parseUpTo ht).1 bs v h
  have htext : t.toJson v = .ok json.compact := bind_eq_ok.mpr ⟨json, hprints, rfl⟩
  have hparse : Json.parsePlain? json.compact = some json := by
    rw [Json.parsePlain?, Json.parse?_compact (hfits.mono (Nat.le_of_lt_succ hn)), Option.bind_some, hplain]
  have hread : t.ofJson json.compact = .ok v := by
    rw [Ty.ofJson, hparse]
    exact hreads
  obtain ⟨-, henc, -⟩ := recodes_of_decode t bs v h
  exact ⟨json.compact, _, htext, hread, bind_eq_ok.mpr ⟨v, h, htext⟩, bind_eq_ok.mpr ⟨v, hread, henc⟩, henc⟩

/-- Numbers, octets, an escaped text and truth values in a tuple. -/
theorem ofJson_of_decode_mixed :
    Ty.parse "(uint16,ufixed8x3,byte[2],string,bool[2])" =
      .ok (.tuple [.uint 16, .ufixed 8 3, .array .byte 2, .string, .array .bool 2]) ∧
    (Ty.tuple [.uint 16, .ufixed 8 3, .array .byte 2, .string, .array .bool 2]).decodeJson
        [0xFF, 0xFF, 7, 1, 2, 0, 8, 0x40, 0, 2, 0x22, 10] = .ok "[65535,0.007,\"AQI=\",\"\\\"\\n\",[false,true]]" ∧
    (Ty.tuple [.uint 16, .ufixed 8 3, .array .byte 2, .string, .array .bool 2]).ofJson
        "[65535,0.007,\"AQI=\",\"\\\"\\n\",[false,true]]" =
      .ok (.tuple [.uint 65535, .uint 7, .bytes [1, 2], .string "\"\n", .array [.bool false, .bool true]]) := by
  have ht : Ty.parse "(uint16,ufixed8x3,byte[2],string,bool[2])" =
      .ok (.tuple [.uint 16, .ufixed 8 3, .array .byte 2, .string, .array .bool 2]) := by rfl
  have h : (Ty.tuple [.uint 16, .ufixed 8 3, .array .byte 2, .string, .array .bool 2]).decode
      [0xFF, 0xFF, 7, 1, 2, 0, 8, 0x40, 0, 2, 0x22, 10] =
      .ok (.tuple [.uint 65535, .uint 7, .bytes [1, 2], .string "\"\n", .array [.bool false, .bool true]]) := by rfl
  obtain ⟨text, _, hprints, hreads, hdecode, -⟩ := ofJson_of_decode ht (by decide) h
  have htext : text = "[65535,0.007,\"AQI=\",\"\\\"\\n\",[false,true]]" := by
    refine Except.ok.inj (hprints.symm.trans ?_)
    rfl
  rw [htext] at hreads hdecode
  exact ⟨ht, hdecode, hreads⟩

end AtomicGroup.Abi
