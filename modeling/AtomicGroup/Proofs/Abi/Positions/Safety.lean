import AtomicGroup.Proofs.Abi.Names
import AtomicGroup.Proofs.Abi.Positions.Head

/-!
# No place outside the input

Reading by positions ends as decoding does, whatever the octets are (`readAlike`): the head as `headAlike` says, the
tails by one induction in which the slots of the members before are filled, the types by induction. Of all the ways in
which reading may stop it takes the one that decoding has too, a refusal.
-/
namespace AtomicGroup.Abi

open Outcome

section Tails

variable {bs : Bytes} {ts : List Ty}

/-- A member is a truth value, or what its type reads in the tail or in the head. -/
theorem member_cases (t : Ty) (read : Bytes → Except Error Value) :
    (t = .bool ∧ t.member read = .bit) ∨ t.member read = .tail read ∨ t.member read = .inline t.staticLength read := by
  rw [Ty.member]
  split
  · exact .inl ⟨‹_›, rfl⟩
  · split
    · exact .inr (.inl rfl)
    · exact .inr (.inr rfl)

/-- Scanning the head of some members finds one slot for each of them. -/
theorem Scanned.slots_of {shared : Option (UInt8 × Nat)} {rest : Bytes} {slots : List Slot}
    (h : Scanned shared (memberReaders ts) bs slots rest) : List.Forall₂ Slot.Of ts slots := by
  induction ts generalizing shared bs slots with
  | nil =>
    cases h
    exact .nil
  | cons t ts ih =>
    rw [memberReaders] at h
    obtain ⟨-, hm⟩ | hm | hm := member_cases t t.decode <;> rw [hm] at h
    · cases h with
      | sharedBit hmore => exact .cons trivial (ih hmore)
      | freshBit hmore => exact .cons trivial (ih hmore)
    · cases h with
      | tail _ hmore => exact .cons rfl (ih hmore)
    · generalize t.staticLength = length at h
      cases h with
      | inline _ hmore => exact .cons trivial (ih hmore)

theorem itemAt_readersAt (before after : List Ty) (t : Ty) :
    itemAt (readersAt (before ++ t :: after)) before.length = .ok ⟨t, t.readAt⟩ := by
  rw [itemAt, readersAt_eq_map, List.getElem?_map, List.getElem?_append_right (Nat.le_refl _), Nat.sub_self]
  rfl

theorem putSlot_append (before after : List (Option Value)) (slot : Option Value) (v : Value) :
    putSlot (before ++ slot :: after) before.length v = .ok (before ++ some v :: after) := by
  rw [putSlot, if_pos (by simp), List.set_append_right _ _ (Nat.le_refl _), Nat.sub_self, List.set_cons_zero]

/-- Reading the tails by positions fills the slots that have no value yet, when those of the members before them are
filled, by induction on the slots. -/
theorem readTails_eq (bs : Bytes) (before : List Ty) (done : List Value) {slots : List Slot}
    (h : List.Forall₂ Slot.Of ts slots) (hts : ∀ t ∈ ts, ReadAlike t) (hdone : done.length = before.length) :
    readTails bs (readersAt (before ++ ts)) (offsetsFrom done.length slots) (done.map some ++ slots.map Slot.value?) =
      refusing ((fillSlots bs.length (bs.drop ((firstOffset? slots).getD bs.length)) slots).map
        fun vs => done.map some ++ vs.map some) := by
  induction h generalizing before done with
  | nil => simp [offsetsFrom, readTails, fillSlots, Except.map]
  | @cons t slot ts slots hslot hslots ih =>
    obtain ⟨ht, hrest⟩ := List.forall_mem_cons.mp hts
    have hnext (v : Value) := ih (before ++ [t]) (done ++ [v]) hrest (by simp [hdone])
    simp only [List.append_assoc, List.singleton_append, List.length_append, List.length_singleton, List.map_append,
      List.map_singleton] at hnext
    cases slot with
    | value v =>
      rw [offsetsFrom, List.map_cons, Slot.value?, hnext v, firstOffset?, fillSlots]
      cases fillSlots bs.length (bs.drop ((firstOffset? slots).getD bs.length)) slots <;> rfl
    | tail start read =>
      obtain rfl : read = t.decode := hslot
      -- This tail stops where the next one starts, or at the end of the input.
      generalize hstop : (firstOffset? slots).getD bs.length = stop at hnext
      rw [offsetsFrom, readTails, head?_offsetsFrom, firstOffset?, Option.getD_some, fillSlots]
      simp only [hstop]
      by_cases hguard : stop < start ∨ bs.length < stop
      · rw [if_pos hguard, if_pos hguard]
        rfl
      · have hreader := itemAt_readersAt before ts t
        have hslice : slice bs start stop = .ok ((bs.drop start).take (stop - start)) := if_pos (by omega)
        have hput := putSlot_append (done.map some) (slots.map Slot.value?) none
        have hdrop : (bs.drop start).drop (stop - start) = bs.drop stop := by
          rw [List.drop_drop, Nat.add_sub_cancel' (by omega)]
        rw [← hdone] at hreader
        rw [List.length_map] at hput
        rw [if_neg hguard, if_neg hguard, hreader, hslice, hdrop]
        simp only [List.map_cons, Slot.value?, ok_bind, ht _]
        cases t.decode ((bs.drop start).take (stop - start)) with
        | error e => rfl
        | ok v =>
          simp only [refusing_ok, ok_bind, hput, hnext v]
          cases fillSlots bs.length (bs.drop stop) slots <;> rfl

/-- Slots that all have a value give these values, so that none is left unfilled. -/
theorem collect_eq (x : Except Error (List Value)) :
    (refusing (x.map fun vs => vs.map some) >>= fun slots => slots.mapM slotValue) = refusing x := by
  cases x with
  | error e => rfl
  | ok vs =>
    change (vs.map some).mapM slotValue = .ok vs
    rw [mapM_eq_ok, List.forall₂_map_left_iff, List.forall₂_same]
    exact fun v _ => rfl

/-- A head that ends the input needs no more. -/
theorem checkHead_nil {front rest : Bytes} {p : Progress} (hoffsets : p.offsets = []) (hpos : p.pos = front.length) :
    checkHead (front ++ rest) p = if rest = [] then .ok () else refuse (.unused rest.length) := by
  have hslice : slice (front ++ rest) front.length (front ++ rest).length = .ok rest := by
    rw [slice, if_pos (by simp), List.drop_left, List.length_append, Nat.add_sub_cancel_left, List.take_length]
  rw [checkHead, hoffsets]
  simp only [hpos, hslice]
  by_cases hrest : rest = []
  · rw [if_pos hrest, hrest, List.append_nil, if_neg (not_not_intro rfl)]
    rfl
  · have hlen : front.length ≠ (front ++ rest).length := by
      have := List.length_pos_iff.mpr hrest
      rw [List.length_append]
      omega
    rw [if_neg hrest, if_pos hlen]
    rfl

/-- A tuple is read by positions as it is read by taking the input apart. -/
theorem readTuple_eq (hts : ∀ t ∈ ts, ReadAlike t) (bs : Bytes) :
    readTuple (readersAt ts) bs = refusing (readMembers (memberReaders ts) bs) := by
  rw [readTuple, headAlike hts {} (Nat.zero_le _), readMembers, List.drop_zero]
  cases hscan : scan none bs (memberReaders ts) with
  | error e => rfl
  | ok found =>
    obtain ⟨slots, rest⟩ := found
    have hscanned : Scanned none (memberReaders ts) bs slots rest := scan_eq_ok.mp hscan
    obtain ⟨front, rfl, -⟩ := hscanned.fills
    have htails := readTails_eq (front ++ rest) [] [] hscanned.slots_of hts rfl
    have hfirst := head?_offsetsFrom 0 slots
    have hpos : (front ++ rest).length - rest.length = front.length := by
      rw [List.length_append, Nat.add_sub_cancel]
    simp only [Except.map, refusing_ok, ok_bind, Progress.after, Nat.zero_add, List.nil_append, hpos]
    simp only [List.nil_append, List.map_nil, List.length_nil] at htails
    rw [htails]
    cases hoffset : firstOffset? slots with
    | none =>
      have hnil : offsetsFrom 0 slots = [] := by
        rw [hoffset] at hfirst
        simpa using hfirst
      rw [hnil, Option.getD_none, List.drop_length, checkHead_nil rfl rfl]
      by_cases hrest : rest = []
      · subst hrest
        exact collect_eq _
      · simp only [if_neg hrest, if_pos (show rest ≠ [] from hrest)]
        rfl
    | some start =>
      rw [hoffset, Option.map_eq_some_iff] at hfirst
      obtain ⟨⟨i, first⟩, hhead, hsame⟩ := hfirst
      obtain rfl : first = start := hsame
      obtain ⟨more, hcons⟩ := List.head?_eq_some_iff.mp hhead
      have hcheck : checkHead (front ++ rest) ⟨slots.length, slots.map Slot.value?, (i, first) :: more, front.length⟩ =
          if first ≠ front.length then refuse (.firstOffset first front.length) else .ok () := rfl
      rw [hcons, Option.getD_some, hcheck]
      by_cases hstart : first = front.length
      · simp only [hstart, ne_eq, not_true, if_false, List.drop_left]
        exact collect_eq _
      · simp only [if_pos (show first ≠ front.length from hstart)]
        rfl

end Tails

section Types

variable {t : Ty}

/-- Octets of a static type are as many as it has, or they are refused. -/
theorem expectOwn_cases (hs : t.isDynamic = false) (bs : Bytes) :
    (bs.length = t.staticLength ∧ expectOwn t bs = .ok ()) ∨ (bs.length ≠ t.staticLength ∧
      expectOwn t bs = refusing (.error (.lengthMismatch t t.staticLength bs.length))) := by
  have hexpect : expectOwn t bs = refusing (expectLength t t.staticLength bs.length) := by
    rw [expectOwn, Ty.byteLength_eq_ok.mpr ⟨hs, rfl⟩]
    rfl
  rw [hexpect, expectLength]
  by_cases hlen : bs.length = t.staticLength
  · exact .inl ⟨hlen, by rw [if_pos hlen]; rfl⟩
  · exact .inr ⟨hlen, by rw [if_neg hlen]⟩

/-- Numbers are read alike: those of a parsed width have few enough octets. -/
theorem readAlike_number {bits : Nat} (h : Ty.IsWidth bits) (hs : t.isDynamic = false)
    (hlength : t.staticLength = bits / 8)
    (hread : ∀ bs, t.readAt bs = do expectOwn t bs; return .uint (← numberOf bs))
    (hdecode : ∀ bs, t.decode bs = do expectLength t t.staticLength bs.length; return .uint (ofBigEndian bs)) :
    ReadAlike t := by
  have hmax : bits ≤ 512 := h.2.1
  intro bs
  rw [hread, hdecode, expectLength]
  obtain ⟨hlen, hexpect⟩ | ⟨hlen, hexpect⟩ := expectOwn_cases hs bs
  · have hnumber : numberOf bs = .ok (ofBigEndian bs) := if_pos (by omega)
    rw [hexpect, hnumber, if_pos hlen]
    rfl
  · rw [hexpect, if_neg hlen]
    rfl

theorem readAlike_byte : ReadAlike .byte := by
  intro bs
  unfold Ty.readAt Ty.decode
  obtain ⟨hlen, hexpect⟩ | ⟨hlen, hexpect⟩ := expectOwn_cases (t := .byte) rfl bs
  · obtain ⟨b, rfl⟩ := List.length_eq_one_iff.mp hlen
    rw [hexpect]
    rfl
  · rw [hexpect]
    split
    · exact absurd rfl hlen
    · rfl

theorem readAlike_bool : ReadAlike .bool := by
  intro bs
  unfold Ty.readAt Ty.decode
  obtain ⟨hlen, hexpect⟩ | ⟨hlen, hexpect⟩ := expectOwn_cases (t := .bool) rfl bs
  · obtain ⟨b, rfl⟩ := List.length_eq_one_iff.mp hlen
    have hitem : itemAt [b] 0 = .ok b := rfl
    simp only [hexpect, hitem, ok_bind]
    split
    · rfl
    · split <;> rfl
  · rw [hexpect]
    split
    · exact absurd rfl hlen
    · rfl

theorem readAlike_address : ReadAlike .address := by
  intro bs
  rw [Ty.readAt, Ty.decode]
  obtain ⟨hlen, hexpect⟩ | ⟨hlen, hexpect⟩ := expectOwn_cases (t := .address) rfl bs
  · have haddress : Address.ofBytes bs = .ok ⟨⟨bs, hlen⟩⟩ := Address.ofBytes_eq_ok_iff.mpr rfl
    rw [hexpect, haddress]
    rfl
  · rw [hexpect]
    split
    · rename_i a ha
      obtain rfl := Address.ofBytes_eq_ok_iff.mp ha
      exact absurd a.length_bytes hlen
    · rfl

/-- What a count and the octets after it are used for: the octets are there when the count is. -/
theorem counted_eq {α : Type} (bs : Bytes) (k : Nat → Bytes → Except Stop α) :
    (do let count ← countOf bs; let body ← slice bs 2 bs.length; k count body) =
      refusing (readLength bs) >>= fun found => k found.1 found.2 := by
  cases bs with
  | nil => rfl
  | cons hi bs =>
    cases bs with
    | nil => rfl
    | cons lo rest =>
      have hcount : countOf (hi :: lo :: rest) = .ok (ofBigEndian [hi, lo]) := rfl
      have hslice : slice (hi :: lo :: rest) 2 (hi :: lo :: rest).length = .ok rest := by simp [slice]
      rw [hcount, ok_bind, hslice]
      rfl

theorem bodyOf_eq (bs : Bytes) : bodyOf bs = refusing (readSized bs) := by
  rw [bodyOf, counted_eq, readSized, refusing_bind]
  refine congrArg (refusing (readLength bs) >>= ·) (funext fun found => ?_)
  obtain ⟨count, body⟩ := found
  change (if body.length = count then _ else _) = refusing (if body.length = count then _ else _)
  split <;> rfl

theorem readAlike_string : ReadAlike .string := by
  intro bs
  rw [Ty.readAt, Ty.decode, bodyOf_eq, refusing_bind]
  refine congrArg (refusing (readSized bs) >>= ·) (funext fun body => ?_)
  cases Utf8.decode? body <;> rfl

/-- The items of an array are read alike when its element is. -/
theorem readTuple_replicate {elem : Ty} (h : ReadAlike elem) (n : Nat) (bs : Bytes) :
    readTuple (List.replicate n ⟨elem, elem.readAt⟩) bs =
      refusing (readMembers (List.replicate n (elem.member elem.decode)) bs) := by
  have hreaders : List.replicate n ⟨elem, elem.readAt⟩ = readersAt (List.replicate n elem) := by
    rw [readersAt_eq_map, List.map_replicate]
  rw [hreaders, replicate_member]
  refine readTuple_eq (fun t ht => ?_) bs
  rwa [List.eq_of_mem_replicate ht]

/-- Parsed types are read by positions as they are decoded, by induction on the type. -/
theorem readAlike (h : t.WithinBounds) : ReadAlike t := by
  induction t using Ty.induct with
  | uint bits => exact readAlike_number h rfl rfl (fun _ => rfl) (fun _ => rfl)
  | ufixed bits precision => exact readAlike_number h.1 rfl rfl (fun _ => rfl) (fun _ => rfl)
  | byte => exact readAlike_byte
  | bool => exact readAlike_bool
  | address => exact readAlike_address
  | string => exact readAlike_string
  | array elem length ih =>
    intro bs
    rw [Ty.readAt, readTuple_replicate (ih h.1), Ty.decode, refusing_bind]
    rfl
  | list elem ih =>
    intro bs
    rw [Ty.readAt, counted_eq, Ty.decode, refusing_bind]
    refine congrArg (refusing (readLength bs) >>= ·) (funext fun found => ?_)
    obtain ⟨count, body⟩ := found
    rw [readTuple_replicate (ih h), refusing_bind]
    rfl
  | tuple members ih =>
    intro bs
    have hmembers : ∀ t ∈ members, ReadAlike t := fun t ht => ih t ht (Ty.allWithinBounds_iff.mp h t ht)
    rw [Ty.readAt, readTuple_eq hmembers, Ty.decode, refusing_bind]
    rfl

end Types

/-- What octets hold for a type: a truth value, or what the type decodes of a piece of them. -/
inductive HeldBy (bs : Bytes) : Ty → Value → Prop where
  | bit (b : Bool) : HeldBy bs .bool (.bool b)
  | piece {t : Ty} {v : Value} {piece : Bytes} (hpiece : piece <:+: bs) (h : t.decode piece = .ok v) : HeldBy bs t v

section Held

variable {bs : Bytes} {ts : List Ty}

/-- The encoded members of a head and a tail are pieces of these. -/
theorem LaidOut.infix_of_mem {shared : Option (UInt8 × Nat)} {o : Nat} {ps : List Part} {head tail : Bytes}
    (h : LaidOut shared o ps head tail) {piece : Bytes} (hm : .inline piece ∈ ps ∨ .tail piece ∈ ps) :
    piece <:+: head ∨ piece <:+: tail := by
  induction h with
  | nil => simp at hm
  | sharedBit _ ih => exact ih (by simpa using hm)
  | freshBit _ ih => exact (ih (by simpa using hm)).imp_left List.infix_cons
  | @inline _ _ ps head _ bs _ ih =>
    obtain rfl | hm : piece = bs ∨ .inline piece ∈ ps ∨ .tail piece ∈ ps := by simpa [or_assoc] using hm
    · exact .inl (List.prefix_append piece head).isInfix
    · exact (ih hm).imp_left fun hi => hi.trans (List.suffix_append bs head).isInfix
  | @tail _ o ps head more bs _ _ ih =>
    obtain rfl | hm : piece = bs ∨ .inline piece ∈ ps ∨ .tail piece ∈ ps := by simpa [or_left_comm] using hm
    · exact .inr (List.prefix_append piece more).isInfix
    · exact (ih hm).imp (fun hi => hi.trans (List.suffix_append (bigEndian 2 o) head).isInfix)
        fun hi => hi.trans (List.suffix_append bs more).isInfix

/-- Values that were read are held by octets of which their encoded forms are pieces. -/
theorem heldBy_of_readsAll {ps : List Part} {vs : List Value} (h : ReadsAll (memberReaders ts) ps vs)
    (hps : ∀ piece, .inline piece ∈ ps ∨ .tail piece ∈ ps → piece <:+: bs) : List.Forall₂ (HeldBy bs) ts vs := by
  induction ts generalizing ps vs with
  | nil =>
    cases h
    exact .nil
  | cons t ts ih =>
    cases h with
    | @cons _ p v _ ps vs hread hrest =>
      refine .cons ?_ (ih hrest fun piece hm => hps piece (hm.imp (List.mem_cons_of_mem _) (List.mem_cons_of_mem _)))
      obtain ⟨rfl, hm⟩ | hm | hm := member_cases t t.decode <;> rw [hm] at hread
      · cases hread with
        | bit b => exact .bit b
      · cases hread with
        | tail hv => exact .piece (hps _ (.inr List.mem_cons_self)) hv
      · generalize t.staticLength = length at hread
        cases hread with
        | inline hv => exact .piece (hps _ (.inl List.mem_cons_self)) hv

/-- Each of the values of a tuple is held by its octets. -/
theorem heldBy_of_readMembers {vs : List Value} (h : readMembers (memberReaders ts) bs = .ok vs) :
    List.Forall₂ (HeldBy bs) ts vs := by
  obtain ⟨ps, head, tail, rfl, hlaid, hreads⟩ := laidOut_of_readMembers h
  refine heldBy_of_readsAll hreads fun piece hm => ?_
  obtain hhead | htail := hlaid.infix_of_mem hm
  · exact hhead.trans (List.prefix_append head tail).isInfix
  · exact htail.trans (List.suffix_append head tail).isInfix

end Held

/-- A tuple of parsed types is read by positions as it is read by taking the input apart, and so are its members at
every depth. Whatever the octets are, reading therefore stops with a refusal or not at all: every octet and every slice
is there, every number is short enough, and no slot is left without a value. On success there is one value for each
type, in order, held by the octets. -/
theorem positions_stay_inside {ts : List Ty} (hts : ∀ t ∈ ts, ∃ name, Ty.parse name = .ok t) :
    (∀ t ∈ ts, ∀ bs, t.readAt bs = refusing (t.decode bs)) ∧
    ∀ bs, readTuple (readersAt ts) bs = refusing (readMembers (memberReaders ts) bs) ∧
      (∀ stop, readTuple (readersAt ts) bs = .error stop → ∃ e, stop = .refused e) ∧
      ∀ vs, readTuple (readersAt ts) bs = .ok vs → List.Forall₂ (HeldBy bs) ts vs := by
  have halike : ∀ t ∈ ts, ReadAlike t := by
    intro t ht
    obtain ⟨name, hname⟩ := hts t ht
    exact readAlike (Ty.name_of_parse hname).1
  refine ⟨halike, fun bs => ?_⟩
  have htuple := readTuple_eq halike bs
  rw [htuple]
  refine ⟨rfl, fun stop h => ?_, fun vs h => heldBy_of_readMembers (mapError_eq_ok.mp h)⟩
  obtain ⟨e, -, rfl⟩ := mapError_eq_error.mp h
  exact ⟨e, rfl⟩

/-- Offsets that go back, that lie beyond the input and that are good, after an octet of truth values. -/
theorem hostileOffsets_stay_inside :
    readTuple (readersAt [.bool, .string, .list .string]) [0x80, 0, 5, 0, 4] =
      .error (.refused (.decode (.offsetOrder 5 4))) ∧
    readTuple (readersAt [.bool, .string, .list .string]) [0x80, 0, 5, 0, 200] =
      .error (.refused (.decode (.offsetOrder 5 200))) ∧
    readTuple (readersAt [.bool, .string, .list .string]) [0x80, 0, 5, 0, 8, 0, 1, 97, 0, 0] =
      .ok [.bool true, .string "a", .array []] ∧
    ∀ bs stop, readTuple (readersAt [.bool, .string, .list .string]) bs = .error stop → ∃ e, stop = .refused e := by
  have hparsed : ∀ t ∈ [.bool, .string, .list .string], ∃ name, Ty.parse name = .ok t := by
    simp only [List.forall_mem_cons]
    exact ⟨⟨"bool", rfl⟩, ⟨"string", rfl⟩, ⟨"string[]", rfl⟩, nofun⟩
  obtain ⟨-, htuple⟩ := positions_stay_inside hparsed
  exact ⟨(htuple _).1.trans rfl, (htuple _).1.trans rfl, (htuple _).1.trans rfl, fun bs => (htuple bs).2.1⟩

end AtomicGroup.Abi
