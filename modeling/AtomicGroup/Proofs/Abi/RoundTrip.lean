import AtomicGroup.Proofs.Abi.Length
import AtomicGroup.Bytes

/-!
# Decoding what was encoded

Encoding accepts several values for one: an octet for a small number and the other way round, octets for an address,
octets or a tuple for an array. `Ty.normalize` names the one value that they all stand for, and decoding an encoding
gives exactly that value back.
-/
namespace AtomicGroup.Abi

open Outcome

namespace Value

def asNumber : Value → Value
  | .byte b => .uint b.toNat
  | v => v

def octet : Value → UInt8
  | .byte b => b
  | .uint n => UInt8.ofNat n
  | _ => 0

def asOctet : Value → Value
  | .uint n => .byte (UInt8.ofNat n)
  | v => v

def asAddress (v : Value) : Value :=
  match v.address? with
  | some a => .address a
  | none => v

end Value

mutual

/-- The value that a value stands for as one of a type, at every depth. -/
def Ty.normalize : Ty → Value → Value
  | .uint _, v => v.asNumber
  | .ufixed _ _, v => v.asNumber
  | .byte, v => v.asOctet
  | .address, v => v.asAddress
  | .array elem _, v =>
    match v.items? with
    | some items => if elem = .byte then .bytes (items.map Value.octet) else .array (items.map elem.normalize)
    | none => v
  | .list elem, v =>
    match v.items? with
    | some items => if elem = .byte then .bytes (items.map Value.octet) else .array (items.map elem.normalize)
    | none => v
  | .tuple members, v =>
    match v.items? with
    | some items => .tuple (normalizeAll members items)
    | none => v
  | _, v => v

def normalizeAll : List Ty → List Value → List Value
  | t :: ts, v :: vs => t.normalize v :: normalizeAll ts vs
  | _, _ => []

end

/-- What makes octets a good encoding of a value: they decode to it, a static one has its type's length, and that
of a truth value is one of the two octets. -/
structure Encodes (t : Ty) (v : Value) (bs : Bytes) : Prop where
  decode : t.decode bs = .ok (t.normalize v)
  length : t.isDynamic = false → bs.length = t.staticLength
  bool : t = .bool → ∃ b, bs = [boolOctet b] ∧ t.normalize v = .bool b

/-- All but a truth value may have any octets. -/
theorem Encodes.of_ne_bool {t : Ty} {v : Value} {bs : Bytes} (ht : t ≠ .bool)
    (decode : t.decode bs = .ok (t.normalize v)) (length : t.isDynamic = false → bs.length = t.staticLength) :
    Encodes t v bs :=
  ⟨decode, length, fun h => absurd h ht⟩

theorem decide_boolOctet (b : Bool) : decide ([boolOctet b] = [boolOctet true]) = b := by
  cases b <;> decide

/-- The part that an encoding becomes is read back by the type's member. -/
theorem reads_part {t : Ty} {v : Value} {bs : Bytes} (h : Encodes t v bs) :
    Reads (t.member t.decode) (t.part bs) (t.normalize v) := by
  by_cases hb : t = .bool
  · obtain ⟨b, rfl, hv⟩ := h.bool hb
    rw [Ty.member, Ty.part, if_pos hb, if_pos hb, hv, decide_boolOctet]
    exact .bit b
  · by_cases hd : t.isDynamic
    · simp only [Ty.member, Ty.part, if_neg hb, if_pos hd]
      exact .tail h.decode
    · simp only [Ty.member, Ty.part, if_neg hb, if_neg hd, ← h.length (by simpa using hd)]
      exact .inline h.decode

theorem partOf_part {t : Ty} {v : Value} {bs : Bytes} (h : Encodes t v bs) : PartOf t (t.part bs) := by
  by_cases hb : t = .bool
  · subst hb
    exact .bit _
  · by_cases hd : t.isDynamic
    · simp only [Ty.part, if_neg hb, if_pos hd]
      exact .tail hd
    · simp only [Ty.part, if_neg hb, if_neg hd]
      exact .inline hb (h.length (by simpa using hd))

def EncodesAll (ts : List Ty) : Prop := ∀ t ∈ ts, ∀ v bs, t.encode v = .ok bs → Encodes t v bs

theorem encodeMembers_reads {ts : List Ty} (ht : EncodesAll ts) {vs : List Value} {ps : List Part}
    (hlen : vs.length = ts.length) (h : encodeMembers ts vs = .ok ps) :
    ReadsAll (memberReaders ts) ps (normalizeAll ts vs) ∧ List.Forall₂ PartOf ts ps := by
  induction ts generalizing vs ps with
  | nil =>
    cases h
    exact ⟨.nil, .nil⟩
  | cons t ts ih =>
    cases vs with
    | nil => simp at hlen
    | cons v vs =>
      obtain ⟨bs, hbs, h⟩ := bind_eq_ok.mp h
      obtain ⟨qs, hqs, hp⟩ := bind_eq_ok.mp h
      obtain rfl := pure_eq_ok.mp hp
      have he : Encodes t v bs := ht t List.mem_cons_self v bs hbs
      obtain ⟨hreads, hparts⟩ := ih (fun t h => ht t (List.mem_cons_of_mem _ h)) (by simpa using hlen) hqs
      exact ⟨.cons (reads_part he) hreads, .cons (partOf_part he) hparts⟩

/-- A tuple of well encoded members is read back, and has the length of its types when they are static. -/
theorem readMembers_encodeMembers {ts : List Ty} (ht : EncodesAll ts) {vs : List Value} {ps : List Part}
    {bs : Bytes} (hlen : vs.length = ts.length) (h : encodeMembers ts vs = .ok ps) (hl : layout ps = .ok bs) :
    readMembers (memberReaders ts) bs = .ok (normalizeAll ts vs) ∧
      (Ty.anyDynamic ts = false → bs.length = Ty.membersLength 0 ts) := by
  obtain ⟨hreads, hparts⟩ := encodeMembers_reads ht hlen h
  exact ⟨readMembers_layout hreads hl,
    fun hs => length_layout hparts (Ty.anyDynamic_eq_false_iff.mp hs) hl⟩

/-- The items of an array are encoded as the members of a tuple of one type. -/
theorem mapM_part_eq_encodeMembers (elem : Ty) (items : List Value) :
    (items.mapM fun item => return elem.part (← elem.encode item)) =
      encodeMembers (List.replicate items.length elem) items := by
  induction items with
  | nil => rfl
  | cons v vs ih =>
    rw [List.mapM_cons, List.length_cons, List.replicate_succ, encodeMembers, ih]
    cases elem.encode v <;> rfl

theorem replicate_member (elem : Ty) (n : Nat) :
    List.replicate n (elem.member elem.decode) = memberReaders (List.replicate n elem) := by
  induction n with
  | zero => rfl
  | succ n ih => rw [List.replicate_succ, List.replicate_succ, memberReaders, ih]

theorem normalizeAll_replicate (elem : Ty) (items : List Value) :
    normalizeAll (List.replicate items.length elem) items = items.map elem.normalize := by
  induction items with
  | nil => rfl
  | cons v vs ih => rw [List.length_cons, List.replicate_succ, normalizeAll, ih, List.map_cons]

theorem anyDynamic_replicate {elem : Ty} (h : elem.isDynamic = false) (n : Nat) :
    Ty.anyDynamic (List.replicate n elem) = false := by
  rw [Ty.anyDynamic_eq_false_iff]
  intro t ht
  rw [List.eq_of_mem_replicate ht, h]

theorem encodesAll_replicate {elem : Ty} (h : ∀ v bs, elem.encode v = .ok bs → Encodes elem v bs) (n : Nat) :
    EncodesAll (List.replicate n elem) := by
  intro t ht
  rw [List.eq_of_mem_replicate ht]
  exact h

theorem itemsOf_eq_ok {t : Ty} {v : Value} {items : List Value} :
    itemsOf t v = .ok items ↔ v.items? = some items := by
  unfold itemsOf
  cases v.items? <;> simp

theorem expectLength_eq_ok {t : Ty} {expected got : Nat} {u : Unit} :
    expectLength t expected got = .ok u ↔ got = expected := by
  unfold expectLength
  split <;> simp_all

/-- A number is written in the octets of its width, and read back from them. -/
theorem encodeScalar_eq_ok {t : Ty} {width : Nat} {v : Value} {bs : Bytes} (h : encodeScalar t width v = .ok bs) :
    ∃ n, v.asNumber = .uint n ∧ v.octet = UInt8.ofNat n ∧ bs.length = width ∧ ofBigEndian bs = n := by
  have hnat {n : Nat} (h : encodeNat t width n = .ok bs) : bs.length = width ∧ ofBigEndian bs = n := by
    unfold encodeNat at h
    split at h
    · rename_i hn
      injection h with h
      subst h
      exact ⟨length_bigEndian width n, by rw [ofBigEndian_bigEndian, Nat.mod_eq_of_lt hn]⟩
    · cases h
  cases v with
  | uint n => exact ⟨n, rfl, rfl, hnat h⟩
  | byte b => exact ⟨b.toNat, rfl, by simp [Value.octet], hnat h⟩
  | _ => cases h

/-- Whatever is encoded as an octet is normalised to one. -/
theorem normalize_byte {v : Value} {bs : Bytes} (h : Ty.byte.encode v = .ok bs) :
    bs = [v.octet] ∧ Ty.byte.normalize v = .byte v.octet := by
  obtain ⟨n, -, ho, hlen, hval⟩ := encodeScalar_eq_ok h
  obtain ⟨b, rfl⟩ := List.length_eq_one_iff.mp hlen
  have hb : b = v.octet := by
    rw [ho, ← hval]
    simp [ofBigEndian, ofLittleEndian]
  subst hb
  refine ⟨rfl, ?_⟩
  cases v with
  | uint n => rfl
  | byte b => rfl
  | _ => cases h

/-- Items that are encoded as octets are normalised to these. -/
theorem map_normalize_byte {items : List Value} {ps : List Part}
    (h : (items.mapM fun item => return Ty.byte.part (← Ty.byte.encode item)) = .ok ps) :
    items.map Ty.byte.normalize = (items.map Value.octet).map .byte := by
  induction items generalizing ps with
  | nil => rfl
  | cons v vs ih =>
    rw [List.mapM_cons] at h
    obtain ⟨p, hp, h⟩ := bind_eq_ok.mp h
    obtain ⟨qs, hqs, -⟩ := bind_eq_ok.mp h
    obtain ⟨bs, hbs, -⟩ := bind_eq_ok.mp hp
    rw [List.map_cons, List.map_cons, List.map_cons, ih hqs, (normalize_byte hbs).2]

theorem arrayValue_byte (bs : Bytes) : arrayValue .byte (bs.map .byte) = .bytes bs := by
  simp [arrayValue, List.filterMap_map, Function.comp_def, Value.byte?]

/-- The array that decoding makes of the items is the one that normalising makes of them. -/
theorem arrayValue_map_normalize {elem : Ty} {items : List Value} {ps : List Part}
    (h : (items.mapM fun item => return elem.part (← elem.encode item)) = .ok ps) :
    arrayValue elem (items.map elem.normalize) =
      if elem = .byte then .bytes (items.map Value.octet) else .array (items.map elem.normalize) := by
  by_cases hb : elem = .byte
  · subst hb
    rw [map_normalize_byte h, arrayValue_byte, if_pos rfl]
  · simp only [arrayValue, if_neg hb]

/-- The items of an array are read back, and make up the length of a static one. -/
theorem readMembers_items {elem : Ty} (h : ∀ v bs, elem.encode v = .ok bs → Encodes elem v bs)
    {items : List Value} {ps : List Part} {bs : Bytes}
    (hp : (items.mapM fun item => return elem.part (← elem.encode item)) = .ok ps) (hl : layout ps = .ok bs) :
    readMembers (List.replicate items.length (elem.member elem.decode)) bs = .ok (items.map elem.normalize) ∧
      (elem.isDynamic = false → bs.length = (Ty.array elem items.length).staticLength) := by
  rw [mapM_part_eq_encodeMembers] at hp
  obtain ⟨hread, hlen⟩ := readMembers_encodeMembers (encodesAll_replicate h items.length) (by simp) hp hl
  rw [replicate_member, hread, normalizeAll_replicate]
  refine ⟨rfl, ?_⟩
  intro hd
  rw [hlen (anyDynamic_replicate hd _), Ty.membersLength_replicate]

theorem encodes_number {t : Ty} {width : Nat} {v : Value} {bs : Bytes} (hs : t.staticLength = width)
    (hb : t ≠ .bool) (hd : t.decode bs = do expectLength t t.staticLength bs.length; return .uint (ofBigEndian bs))
    (hn : t.normalize v = v.asNumber) (h : encodeScalar t width v = .ok bs) : Encodes t v bs := by
  obtain ⟨n, hv, -, hlen, hval⟩ := encodeScalar_eq_ok h
  have hexp : expectLength t t.staticLength bs.length = .ok () := expectLength_eq_ok.mpr (hlen.trans hs.symm)
  refine ⟨?_, fun _ => hlen.trans hs.symm, fun he => absurd he hb⟩
  rw [hd, hexp, ok_bind, hval, hn, hv]
  rfl

theorem withLength_eq_ok {count : Nat} {body bs : Bytes} (h : withLength count body = .ok bs) :
    readLength bs = .ok (count, body) := by
  obtain ⟨front, hf, hp⟩ := bind_eq_ok.mp h
  obtain rfl := pure_eq_ok.mp hp
  obtain ⟨hlen, hval⟩ := encodeLength_eq_ok hf
  obtain ⟨hi, lo, rfl⟩ := List.length_eq_two.mp hlen
  rw [← hval]
  rfl

/-- Every encoding is a good one, by induction on the type. -/
theorem encodes_of_encode (t : Ty) : ∀ v bs, t.encode v = .ok bs → Encodes t v bs := by
  induction t using Ty.induct with
  | uint bits =>
    intro v bs h
    exact encodes_number rfl (by simp) rfl rfl h
  | ufixed bits precision =>
    intro v bs h
    exact encodes_number rfl (by simp) rfl rfl h
  | byte =>
    intro v bs h
    obtain ⟨rfl, hv⟩ := normalize_byte h
    exact .of_ne_bool (by simp) (by rw [hv]; rfl) (fun _ => rfl)
  | bool =>
    intro v bs h
    cases v with
    | bool b =>
      cases h
      exact ⟨by cases b <;> rfl, fun _ => rfl, fun _ => ⟨b, rfl, rfl⟩⟩
    | _ => cases h
  | address =>
    intro v bs h
    simp only [Ty.encode] at h
    cases ha : v.address? with
    | none => rw [ha] at h; cases h
    | some a =>
      rw [ha] at h
      cases h
      refine .of_ne_bool (by simp) ?_ (fun _ => a.length_bytes)
      simp only [Ty.decode, Address.ofBytes_eq_ok_iff.mpr rfl, Ty.normalize, Value.asAddress, ha]
  | string =>
    intro v bs h
    cases v with
    | string s =>
      refine .of_ne_bool (by simp) ?_ (fun hs => by cases hs)
      simp only [Ty.decode, readSized, withLength_eq_ok h, ok_bind, pure_bind, if_true, Utf8.decode?_encode]
      rfl
    | _ => cases h
  | array elem length ih =>
    intro v bs h
    obtain ⟨items, hitems, h⟩ := bind_eq_ok.mp h
    obtain ⟨_, hlength, h⟩ := bind_eq_ok.mp h
    obtain ⟨ps, hps, hl⟩ := bind_eq_ok.mp h
    rw [itemsOf_eq_ok] at hitems
    obtain rfl := expectLength_eq_ok.mp hlength
    obtain ⟨hread, hlen⟩ := readMembers_items ih hps hl
    refine .of_ne_bool (by simp) ?_ hlen
    rw [Ty.decode, hread, ok_bind, arrayValue_map_normalize hps, Ty.normalize, hitems]
    rfl
  | list elem ih =>
    intro v bs h
    obtain ⟨items, hitems, h⟩ := bind_eq_ok.mp h
    obtain ⟨ps, hps, h⟩ := bind_eq_ok.mp h
    obtain ⟨body, hl, h⟩ := bind_eq_ok.mp h
    rw [itemsOf_eq_ok] at hitems
    obtain ⟨hread, -⟩ := readMembers_items ih hps hl
    refine .of_ne_bool (by simp) ?_ (fun hs => by cases hs)
    rw [Ty.decode, withLength_eq_ok h, ok_bind]
    simp only [hread, ok_bind, arrayValue_map_normalize hps, Ty.normalize, hitems]
    rfl
  | tuple members ih =>
    intro v bs h
    obtain ⟨items, hitems, h⟩ := bind_eq_ok.mp h
    obtain ⟨_, hlength, h⟩ := bind_eq_ok.mp h
    obtain ⟨ps, hps, hl⟩ := bind_eq_ok.mp h
    rw [itemsOf_eq_ok] at hitems
    obtain ⟨hread, hlen⟩ := readMembers_encodeMembers ih (expectLength_eq_ok.mp hlength) hps hl
    refine .of_ne_bool (by simp) ?_ hlen
    rw [Ty.decode, hread, ok_bind, Ty.normalize, hitems]
    rfl

/-- Decoding an encoding gives the value back, normalised to its type. -/
theorem decode_of_encode {t : Ty} {v : Value} {bs : Bytes} (h : t.encode v = .ok bs) :
    t.decode bs = .ok (t.normalize v) :=
  (encodes_of_encode t v bs h).decode

/-- Truth values that share an octet, a dynamic member inside another, an octet written as a number, an empty tuple
and an array of no strings. -/
theorem decode_of_encode_nested :
    (Ty.tuple [.bool, .bool, .list .string, .array .byte 2, .tuple [], .array .string 0]).encode
        (.array [.bool true, .bool false, .tuple [.string "a", .string "bc"], .array [.byte 1, .uint 2], .bytes [],
          .tuple []]) =
      .ok [0x80, 0, 7, 1, 2, 0, 20, 0, 2, 0, 4, 0, 7, 0, 1, 97, 0, 2, 98, 99] ∧
    (Ty.tuple [.bool, .bool, .list .string, .array .byte 2, .tuple [], .array .string 0]).decode
        [0x80, 0, 7, 1, 2, 0, 20, 0, 2, 0, 4, 0, 7, 0, 1, 97, 0, 2, 98, 99] =
      .ok (.tuple [.bool true, .bool false, .array [.string "a", .string "bc"], .bytes [1, 2], .tuple [],
        .array []]) :=
  ⟨rfl, decode_of_encode (v := .array [.bool true, .bool false, .tuple [.string "a", .string "bc"],
    .array [.byte 1, .uint 2], .bytes [], .tuple []]) rfl⟩

end AtomicGroup.Abi
