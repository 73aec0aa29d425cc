import AtomicGroup.Proofs.Abi.Acceptance
import AtomicGroup.Proofs.Abi.RoundTrip

/-!
# Encoding what was decoded

A type has one encoding for each value, but for the bits that its truth values leave unused. Encoding a decoded value
gives the input back with these bits cleared, so that nothing else in it was free: there are no gaps, no other order
of the tails, and no other offsets or lengths.
-/
namespace AtomicGroup.Abi

open Outcome

def itemsMask (elem : Ty) (mask : Value → Bytes) (items : List Value) : Bytes :=
  tupleMask (items.map fun item => elem.part (mask item))

mutual

/-- The mask of the encoding of a value of a type: only truth values that stand in a tuple or an array leave bits
unused, the low ones of the octet that the last of them share. -/
def Ty.unusedBits : Ty → Value → Bytes
  | .string, v =>
    match v with
    | .string s => allUsed (2 + (Utf8.encode s).length)
    | _ => []
  | .array elem _, v => itemsMask elem elem.unusedBits (v.items?.getD [])
  | .list elem, v => allUsed 2 ++ itemsMask elem elem.unusedBits (v.items?.getD [])
  | .tuple members, v => tupleMask (memberMasks members (v.items?.getD []))
  | t, _ => allUsed t.staticLength

def memberMasks : List Ty → List Value → List Part
  | t :: ts, v :: vs => t.part (t.unusedBits v) :: memberMasks ts vs
  | _, _ => []

end

mutual

/-- Whether somewhere in a type truth values are members of a tuple or items of an array. -/
def Ty.packsBools : Ty → Bool
  | .array elem _ => elem = .bool || elem.packsBools
  | .list elem => elem = .bool || elem.packsBools
  | .tuple members => anyPacksBools members
  | _ => false

def anyPacksBools : List Ty → Bool
  | [] => false
  | t :: ts => t = .bool || t.packsBools || anyPacksBools ts

end

/-- What makes a value a good reading of octets: it is in normal form, and its encoding is that of the octets with the
unused bits cleared. -/
structure Recodes (t : Ty) (v : Value) (bs : Bytes) : Prop where
  length : (t.unusedBits v).length = bs.length
  encode : t.encode v = .ok (clearBits (t.unusedBits v) bs)
  normal : t.normalize v = v

def RecodesAll (ts : List Ty) : Prop := ∀ t ∈ ts, ∀ bs v, t.decode bs = .ok v → Recodes t v bs

/-- A member that was read is encoded as it was, without its unused bits. -/
theorem recodes_part {t : Ty} {p : Part} {v : Value} (ht : ∀ bs v, t.decode bs = .ok v → Recodes t v bs)
    (h : Reads (t.member t.decode) p v) :
    Part.Masks (t.part (t.unusedBits v)) p ∧ t.normalize v = v ∧
      ∃ bs, t.encode v = .ok bs ∧ t.part bs = Part.clear (t.part (t.unusedBits v)) p := by
  by_cases hb : t = .bool
  · subst hb
    cases h with
    | bit b =>
      refine ⟨.bit _ b, rfl, [boolOctet b], rfl, ?_⟩
      exact congrArg Part.bit (decide_boolOctet b)
  · by_cases hd : t.isDynamic
    · simp only [Ty.member, if_neg hb, if_pos hd] at h
      simp only [Ty.part, if_neg hb, if_pos hd]
      cases h with
      | tail hr =>
        obtain ⟨hlen, henc, hnorm⟩ := ht _ v hr
        exact ⟨.tail hlen, hnorm, _, henc, rfl⟩
    · simp only [Ty.member, if_neg hb, if_neg hd] at h
      simp only [Ty.part, if_neg hb, if_neg hd]
      generalize t.staticLength = length at h
      cases h with
      | inline hr =>
        obtain ⟨hlen, henc, hnorm⟩ := ht _ v hr
        exact ⟨.inline hlen, hnorm, _, henc, rfl⟩

/-- The members that were read are encoded as they were, without their unused bits. -/
theorem recodes_members {ts : List Ty} (ht : RecodesAll ts) {ps : List Part} {vs : List Value}
    (h : ReadsAll (memberReaders ts) ps vs) :
    List.Forall₂ Part.Masks (memberMasks ts vs) ps ∧ normalizeAll ts vs = vs ∧ vs.length = ts.length ∧
      encodeMembers ts vs = .ok (List.zipWith Part.clear (memberMasks ts vs) ps) := by
  induction ts generalizing ps vs with
  | nil =>
    cases h
    exact ⟨.nil, rfl, rfl, rfl⟩
  | cons t ts ih =>
    cases h with
    | @cons _ p v _ ps vs hm hrest =>
      obtain ⟨hmask, hnorm, bs, henc, hpart⟩ := recodes_part (ht t List.mem_cons_self) hm
      obtain ⟨hmasks, hnorms, hlen, hencs⟩ := ih (fun t h => ht t (List.mem_cons_of_mem _ h)) hrest
      refine ⟨.cons hmask hmasks, ?_, congrArg Nat.succ hlen, ?_⟩
      · rw [normalizeAll, hnorm, hnorms]
      · rw [encodeMembers, henc, hencs, memberMasks, List.zipWith_cons_cons, ← hpart]
        rfl

/-- A tuple that was read is laid out as it was, without its unused bits. -/
theorem recodes_tuple {ts : List Ty} (ht : RecodesAll ts) {bs : Bytes} {vs : List Value}
    (h : readMembers (memberReaders ts) bs = .ok vs) :
    (tupleMask (memberMasks ts vs)).length = bs.length ∧ normalizeAll ts vs = vs ∧ vs.length = ts.length ∧
      ∃ ps, encodeMembers ts vs = .ok ps ∧ layout ps = .ok (clearBits (tupleMask (memberMasks ts vs)) bs) := by
  obtain ⟨ps, hreads, hlayout⟩ := layout_of_readMembers h
  obtain ⟨hmasks, hnorm, hlen, henc⟩ := recodes_members ht hreads
  obtain ⟨hmask, hl⟩ := hlayout _ hmasks
  exact ⟨hmask, hnorm, hlen, _, henc, hl⟩

theorem tupleMask_replicate (elem : Ty) (items : List Value) :
    tupleMask (memberMasks (List.replicate items.length elem) items) = itemsMask elem elem.unusedBits items := by
  have hmasks : memberMasks (List.replicate items.length elem) items =
      items.map fun item => elem.part (elem.unusedBits item) := by
    induction items with
    | nil => rfl
    | cons v vs ih => rw [List.length_cons, List.replicate_succ, memberMasks, ih, List.map_cons]
  rw [hmasks, itemsMask]

/-- What makes items a good reading of octets: laying them out gives the octets with the unused bits cleared, and they
are those of an array in normal form. -/
structure RecodesItems (elem : Ty) (vs : List Value) (bs : Bytes) : Prop where
  length : (itemsMask elem elem.unusedBits vs).length = bs.length
  layout : (vs.mapM fun item => return elem.part (← elem.encode item)) >>= layout =
    .ok (clearBits (itemsMask elem elem.unusedBits vs) bs)
  items : (arrayValue elem vs).items? = some vs
  normal : (if elem = .byte then .bytes (vs.map Value.octet) else .array (vs.map elem.normalize)) =
    arrayValue elem vs

/-- The items of an array that was read are a good reading, and as many as were asked for. -/
theorem recodes_items {elem : Ty} (ht : ∀ bs v, elem.decode bs = .ok v → Recodes elem v bs) {n : Nat} {bs : Bytes}
    {vs : List Value} (h : readMembers (List.replicate n (elem.member elem.decode)) bs = .ok vs) :
    vs.length = n ∧ RecodesItems elem vs bs := by
  rw [replicate_member] at h
  obtain ⟨hmask, hnorm, hlen, ps, henc, hl⟩ := recodes_tuple (fun t hm => by rwa [List.eq_of_mem_replicate hm]) h
  obtain rfl : vs.length = n := by simpa using hlen
  rw [tupleMask_replicate] at hmask hl
  rw [normalizeAll_replicate] at hnorm
  rw [← mapM_part_eq_encodeMembers] at henc
  refine ⟨rfl, hmask, bind_eq_ok.mpr ⟨ps, henc, hl⟩, ?_, ?_⟩
  · by_cases hb : elem = .byte
    · subst hb
      have hoctets : vs = (vs.map Value.octet).map .byte := by rw [← map_normalize_byte henc, hnorm]
      rw [hoctets, arrayValue_byte]
      rfl
    · rw [arrayValue, if_neg hb]
      rfl
  · rw [← arrayValue_map_normalize henc, hnorm]

/-- Octets of which all bits are used are encoded as they were. -/
theorem Recodes.of_allUsed {t : Ty} {v : Value} {bs : Bytes} (hmask : t.unusedBits v = allUsed bs.length)
    (encode : t.encode v = .ok bs) (normal : t.normalize v = v) : Recodes t v bs where
  length := by rw [hmask, length_allUsed]
  encode := by rw [encode, hmask, clearBits_allUsed rfl]
  normal := normal

theorem encodeNat_ofBigEndian (t : Ty) (bs : Bytes) : encodeNat t bs.length (ofBigEndian bs) = .ok bs := by
  rw [encodeNat, if_pos (ofBigEndian_lt bs), bigEndian_ofBigEndian]

theorem recodes_number {t : Ty} {width : Nat} {v : Value} {bs : Bytes} (hs : t.staticLength = width)
    (hd : t.decode bs = do expectLength t t.staticLength bs.length; return .uint (ofBigEndian bs))
    (hmask : t.unusedBits v = allUsed t.staticLength) (he : t.encode v = encodeScalar t width v)
    (hn : t.normalize v = v.asNumber) (h : t.decode bs = .ok v) : Recodes t v bs := by
  rw [hd] at h
  obtain ⟨_, hlen, hp⟩ := bind_eq_ok.mp h
  obtain rfl := pure_eq_ok.mp hp
  have hlen : bs.length = t.staticLength := expectLength_eq_ok.mp hlen
  refine .of_allUsed (by rw [hmask, hlen]) ?_ hn
  rw [he, ← hs, ← hlen]
  exact encodeNat_ofBigEndian t bs

theorem readLength_eq_ok {bs body : Bytes} {count : Nat} (h : readLength bs = .ok (count, body)) :
    bs = bigEndian 2 count ++ body ∧ count < UInt16.size := by
  unfold readLength at h
  split at h
  · rename_i hi lo rest
    cases h
    have htwo : [hi, lo].length = 2 := rfl
    obtain ⟨hback, hlt⟩ := bigEndian_two_ofBigEndian htwo
    exact ⟨by rw [hback]; rfl, hlt⟩
  · cases h

theorem readLength_of_readSized {bs body : Bytes} (h : readSized bs = .ok body) :
    readLength bs = .ok (body.length, body) := by
  obtain ⟨⟨count, rest⟩, hcount, h⟩ := bind_eq_ok.mp h
  by_cases hlen : rest.length = count
  · simp only [if_pos hlen] at h
    obtain rfl := pure_eq_ok.mp h
    rwa [hlen]
  · simp only [if_neg hlen] at h
    cases h

theorem readSized_eq_ok {bs body : Bytes} (h : readSized bs = .ok body) :
    bs = bigEndian 2 body.length ++ body ∧ body.length < UInt16.size :=
  readLength_eq_ok (readLength_of_readSized h)

theorem withLength_of_lt {count : Nat} (h : count < UInt16.size) (body : Bytes) :
    withLength count body = .ok (bigEndian 2 count ++ body) := by
  rw [withLength, encodeLength, if_pos h]
  rfl

/-- Whatever is decoded is a good reading of the octets, by induction on the type. -/
theorem recodes_of_decode (t : Ty) : ∀ bs v, t.decode bs = .ok v → Recodes t v bs := by
  induction t using Ty.induct with
  | uint bits =>
    intro bs v h
    exact recodes_number rfl rfl rfl rfl rfl h
  | ufixed bits precision =>
    intro bs v h
    exact recodes_number rfl rfl rfl rfl rfl h
  | byte =>
    intro bs v h
    unfold Ty.decode at h
    split at h
    · rename_i b
      cases h
      have hb : ofBigEndian [b] = b.toNat := by simp [ofBigEndian, ofLittleEndian]
      refine .of_allUsed rfl ?_ rfl
      rw [← encodeNat_ofBigEndian .byte [b], hb]
      rfl
    · cases h
  | bool =>
    intro bs v h
    unfold Ty.decode at h
    split at h
    · split at h
      · rename_i hb
        cases h
        exact .of_allUsed rfl (by rw [hb]; rfl) rfl
      · split at h
        · rename_i hb
          cases h
          exact .of_allUsed rfl (by rw [hb]; rfl) rfl
        · cases h
    · cases h
  | address =>
    intro bs v h
    unfold Ty.decode at h
    split at h
    · rename_i a ha
      cases h
      obtain rfl := Address.ofBytes_eq_ok_iff.mp ha
      exact .of_allUsed (congrArg allUsed a.length_bytes.symm) rfl rfl
    · cases h
  | string =>
    intro bs v h
    obtain ⟨body, hbody, htext⟩ := bind_eq_ok.mp h
    obtain ⟨rfl, hlt⟩ := readSized_eq_ok hbody
    split at htext
    · rename_i s hs
      obtain rfl := pure_eq_ok.mp htext
      obtain rfl := Utf8.encode_of_decode? hs
      refine .of_allUsed ?_ (withLength_of_lt hlt _) rfl
      rw [Ty.unusedBits, List.length_append, length_bigEndian]
    · cases htext
  | array elem length ih =>
    intro bs v h
    obtain ⟨vs, hvs, hp⟩ := bind_eq_ok.mp h
    obtain rfl := pure_eq_ok.mp hp
    obtain ⟨hlen, hitems⟩ := recodes_items ih hvs
    refine ⟨?_, ?_, ?_⟩
    · rw [Ty.unusedBits, hitems.items]
      exact hitems.length
    · rw [Ty.unusedBits, hitems.items]
      exact bind_eq_ok.mpr ⟨vs, itemsOf_eq_ok.mpr hitems.items, bind_eq_ok.mpr ⟨(), expectLength_eq_ok.mpr hlen,
        hitems.layout⟩⟩
    · rw [Ty.normalize, hitems.items]
      exact hitems.normal
  | list elem ih =>
    intro bs v h
    obtain ⟨⟨count, body⟩, hcount, h⟩ := bind_eq_ok.mp h
    obtain ⟨vs, hvs, hp⟩ := bind_eq_ok.mp h
    obtain rfl := pure_eq_ok.mp hp
    obtain ⟨rfl, hlt⟩ := readLength_eq_ok hcount
    obtain ⟨rfl, hitems⟩ := recodes_items ih hvs
    refine ⟨?_, ?_, ?_⟩
    · rw [Ty.unusedBits, hitems.items, List.length_append, List.length_append, length_allUsed, length_bigEndian]
      exact congrArg (2 + ·) hitems.length
    · obtain ⟨ps, henc, hl⟩ := bind_eq_ok.mp hitems.layout
      rw [Ty.unusedBits, hitems.items, clearBits_append (by rw [length_allUsed, length_bigEndian]),
        clearBits_allUsed (length_bigEndian 2 vs.length).symm]
      exact bind_eq_ok.mpr ⟨vs, itemsOf_eq_ok.mpr hitems.items, bind_eq_ok.mpr ⟨ps, henc, bind_eq_ok.mpr ⟨_, hl,
        withLength_of_lt hlt _⟩⟩⟩
    · rw [Ty.normalize, hitems.items]
      exact hitems.normal
  | tuple members ih =>
    intro bs v h
    obtain ⟨vs, hvs, hp⟩ := bind_eq_ok.mp h
    obtain rfl := pure_eq_ok.mp hp
    obtain ⟨hmask, hnorm, hlen, ps, henc, hl⟩ := recodes_tuple ih hvs
    refine ⟨hmask, ?_, congrArg Value.tuple hnorm⟩
    exact bind_eq_ok.mpr ⟨vs, rfl, bind_eq_ok.mpr ⟨(), expectLength_eq_ok.mpr hlen,
      bind_eq_ok.mpr ⟨ps, henc, hl⟩⟩⟩

/-- A type whose values have no unused bits unless it packs truth values. -/
def Full (t : Ty) : Prop := t.packsBools = false → ∀ v, ∀ unused ∈ t.unusedBits v, unused = 0

theorem allUsed_part {t : Ty} (ht : Full t) (h : (decide (t = .bool) || t.packsBools) = false) (v : Value) :
    (t.part (t.unusedBits v)).AllUsed := by
  rw [Bool.or_eq_false_iff, decide_eq_false_iff_not] at h
  rw [Ty.part, if_neg h.1]
  split <;> exact ht h.2 v

theorem allUsed_items {elem : Ty} (ht : Full elem) (h : (decide (elem = .bool) || elem.packsBools) = false)
    {items : List Value} {unused : UInt8} (hu : unused ∈ itemsMask elem elem.unusedBits items) : unused = 0 := by
  refine eq_zero_of_mem_tupleMask ?_ hu
  intro mask hm
  obtain ⟨item, -, rfl⟩ := List.mem_map.mp hm
  exact allUsed_part ht h item

theorem allUsed_members {ts : List Ty} (ht : ∀ t ∈ ts, Full t) (h : anyPacksBools ts = false) (vs : List Value) :
    ∀ mask ∈ memberMasks ts vs, mask.AllUsed := by
  induction ts generalizing vs with
  | nil => simp [memberMasks]
  | cons t ts ih =>
    cases vs with
    | nil => simp [memberMasks]
    | cons v vs =>
      rw [anyPacksBools, Bool.or_eq_false_iff] at h
      rw [memberMasks, List.forall_mem_cons]
      exact ⟨allUsed_part (ht t List.mem_cons_self) h.1 v, ih (fun t hm => ht t (List.mem_cons_of_mem _ hm)) h.2 vs⟩

/-- Without packed truth values there are no unused bits, by induction on the type. -/
theorem Ty.full (t : Ty) : Full t := by
  induction t using Ty.induct with
  | array elem length ih => exact fun h v unused hu => allUsed_items ih h hu
  | list elem ih =>
    intro h v unused hu
    obtain hu | hu := List.mem_append.mp hu
    · exact eq_zero_of_mem_allUsed hu
    · exact allUsed_items ih h hu
  | tuple members ih => exact fun h v unused hu => eq_zero_of_mem_tupleMask (allUsed_members ih h _) hu
  | string =>
    intro _ v unused hu
    cases v with
    | string s => exact eq_zero_of_mem_allUsed hu
    | _ => cases hu
  | _ => exact fun _ v unused hu => eq_zero_of_mem_allUsed hu

/-- Encoding what was decoded gives the input back, with the unused bits cleared: an encoding of the same length that
decodes to the same value, and the very input when no truth values are packed. -/
theorem encode_of_decode {t : Ty} {v : Value} {bs : Bytes} (h : t.decode bs = .ok v) :
    ∃ bs', t.encode v = .ok bs' ∧ bs'.length = bs.length ∧ t.decode bs' = .ok v ∧
      bs' = clearBits (t.unusedBits v) bs ∧ (t.packsBools = false → bs' = bs) := by
  obtain ⟨hlen, henc, hnorm⟩ := recodes_of_decode t bs v h
  have hdec := (encodes_of_encode t v _ henc).decode
  rw [hnorm] at hdec
  exact ⟨_, henc, length_clearBits hlen, hdec, rfl,
    fun hp => clearBits_of_zero hlen (t.full hp v)⟩

/-- Truth values next to one another in a tuple and in an array, with all unused bits set. -/
theorem encode_of_decode_packed :
    (Ty.tuple [.bool, .bool, .string, .list .bool]).decode [0xBF, 0, 5, 0, 8, 0, 1, 97, 0, 3, 0xDF] =
      .ok (.tuple [.bool true, .bool false, .string "a", .array [.bool true, .bool true, .bool false]]) ∧
    (Ty.tuple [.bool, .bool, .string, .list .bool]).encode
        (.tuple [.bool true, .bool false, .string "a", .array [.bool true, .bool true, .bool false]]) =
      .ok [0x80, 0, 5, 0, 8, 0, 1, 97, 0, 3, 0xC0] := by
  have h : (Ty.tuple [.bool, .bool, .string, .list .bool]).decode [0xBF, 0, 5, 0, 8, 0, 1, 97, 0, 3, 0xDF] =
      .ok (.tuple [.bool true, .bool false, .string "a", .array [.bool true, .bool true, .bool false]]) := rfl
  obtain ⟨bs, henc, -, -, rfl, -⟩ := encode_of_decode h
  exact ⟨h, henc⟩

end AtomicGroup.Abi
