import AtomicGroup.Proofs.Abi.Length
import AtomicGroup.Proofs.Abi.UnusedBits

/-!
# What the reader of a tuple accepts

`LaidOut` says which heads and tails a list of encoded members may have: static members and offsets one after the
other in the head, dynamic members one after the other in the tail, each at its offset, and any unused bits. Whatever
`readMembers` accepts is of this form, so that laying out the members that were read gives the input back, but for the
unused bits.
-/
namespace AtomicGroup.Abi

open Outcome

/-- The head and the tail of encoded members. `shared` is the octet of which some truth values have been taken, and
their number; `offset` is where the next dynamic member begins. -/
inductive LaidOut : (shared : Option (UInt8 × Nat)) → (offset : Nat) → List Part → (head tail : Bytes) → Prop where
  | nil {shared : Option (UInt8 × Nat)} {o : Nat} : LaidOut shared o [] [] []
  | sharedBit {octet : UInt8} {used o : Nat} {ps : List Part} {head tail : Bytes}
      (rest : LaidOut (if used = 7 then none else some (octet, used + 1)) o ps head tail) :
      LaidOut (some (octet, used)) o (.bit (bitAt octet used) :: ps) head tail
  | freshBit {octet : UInt8} {o : Nat} {ps : List Part} {head tail : Bytes}
      (rest : LaidOut (some (octet, 1)) o ps head tail) :
      LaidOut none o (.bit (bitAt octet 0) :: ps) (octet :: head) tail
  | inline {shared : Option (UInt8 × Nat)} {o : Nat} {ps : List Part} {head tail : Bytes} (bs : Bytes)
      (rest : LaidOut none o ps head tail) : LaidOut shared o (.inline bs :: ps) (bs ++ head) tail
  | tail {shared : Option (UInt8 × Nat)} {o : Nat} {ps : List Part} {head more : Bytes} (bs : Bytes)
      (ho : o < UInt16.size) (rest : LaidOut none (o + bs.length) ps head more) :
      LaidOut shared o (.tail bs :: ps) (bigEndian 2 o ++ head) (bs ++ more)

theorem takeHead_eq_ok {n : Nat} {bs front rest : Bytes} (h : takeHead n bs = .ok (front, rest)) :
    bs = front ++ rest ∧ front.length = n := by
  unfold takeHead at h
  split at h
  · cases h
    exact ⟨(List.take_append_drop n bs).symm, ‹_›⟩
  · cases h

/-- What scanning a head comes to: the slots of its members and the octets after it. -/
inductive Scanned : (shared : Option (UInt8 × Nat)) → List Member → (bs : Bytes) → List Slot → (rest : Bytes) → Prop where
  | nil {shared : Option (UInt8 × Nat)} (rest : Bytes) : Scanned shared [] rest [] rest
  | sharedBit {octet : UInt8} {used : Nat} {ms : List Member} {bs rest : Bytes} {slots : List Slot}
      (after : Scanned (if used = 7 then none else some (octet, used + 1)) ms bs slots rest) :
      Scanned (some (octet, used)) (.bit :: ms) bs (.value (.bool (bitAt octet used)) :: slots) rest
  | freshBit {octet : UInt8} {ms : List Member} {bs rest : Bytes} {slots : List Slot}
      (after : Scanned (some (octet, 1)) ms bs slots rest) :
      Scanned none (.bit :: ms) (octet :: bs) (.value (.bool (bitAt octet 0)) :: slots) rest
  | inline {shared : Option (UInt8 × Nat)} {ms : List Member} {own bs rest : Bytes} {slots : List Slot} {v : Value}
      {read : Bytes → Except Error Value} (hread : read own = .ok v) (after : Scanned none ms bs slots rest) :
      Scanned shared (.inline own.length read :: ms) (own ++ bs) (.value v :: slots) rest
  | tail {shared : Option (UInt8 × Nat)} {ms : List Member} {start bs rest : Bytes} {slots : List Slot}
      {read : Bytes → Except Error Value} (hstart : start.length = 2) (after : Scanned none ms bs slots rest) :
      Scanned shared (.tail read :: ms) (start ++ bs) (.tail (ofBigEndian start) read :: slots) rest

/-- Scanning succeeds in this way and no other, by induction on the members and on what was scanned. -/
theorem scan_eq_ok {ms : List Member} {shared : Option (UInt8 × Nat)} {bs rest : Bytes} {slots : List Slot} :
    scan shared bs ms = .ok (slots, rest) ↔ Scanned shared ms bs slots rest := by
  constructor
  · intro h
    induction ms generalizing shared bs slots with
    | nil =>
      cases shared <;> cases h <;> exact .nil rest
    | cons m ms ih =>
      cases m with
      | bit =>
        cases shared with
        | some taken =>
          obtain ⟨⟨more, rest'⟩, hmore, hp⟩ := bind_eq_ok.mp h
          cases hp
          exact .sharedBit (ih hmore)
        | none =>
          cases bs with
          | nil => cases h
          | cons octet bs =>
            obtain ⟨⟨more, rest'⟩, hmore, hp⟩ := bind_eq_ok.mp h
            cases hp
            exact .freshBit (ih hmore)
      | inline length read =>
        rw [scan] at h
        obtain ⟨⟨own, after⟩, hown, h⟩ := bind_eq_ok.mp h
        obtain ⟨v, hv, h⟩ := bind_eq_ok.mp h
        obtain ⟨⟨more, rest'⟩, hmore, hp⟩ := bind_eq_ok.mp h
        cases hp
        obtain ⟨rfl, rfl⟩ := takeHead_eq_ok hown
        exact .inline hv (ih hmore)
      | tail read =>
        rw [scan] at h
        obtain ⟨⟨start, after⟩, hstart, h⟩ := bind_eq_ok.mp h
        obtain ⟨⟨more, rest'⟩, hmore, hp⟩ := bind_eq_ok.mp h
        cases hp
        obtain ⟨rfl, hlen⟩ := takeHead_eq_ok hstart
        exact .tail hlen (ih hmore)
  · intro h
    induction h with
    | @nil shared rest => cases shared <;> rfl
    | sharedBit _ ih =>
      rw [scan, ih]
      rfl
    | freshBit _ ih =>
      rw [scan]
      simp only [ih]
      rfl
    | inline hread _ ih =>
      rw [scan, takeHead_append, ok_bind]
      simp only [hread, ih, ok_bind]
      rfl
    | tail hstart _ ih =>
      rw [scan, ← hstart, takeHead_append, ok_bind]
      simp only [ih, ok_bind]
      rfl

theorem bigEndian_two_ofBigEndian {bs : Bytes} (h : bs.length = 2) :
    bigEndian 2 (ofBigEndian bs) = bs ∧ ofBigEndian bs < UInt16.size := by
  have hback := bigEndian_ofBigEndian bs
  have hlt := ofBigEndian_lt bs
  rw [h] at hback hlt
  exact ⟨hback, hlt⟩

/-- Slots that a tail fills, from an offset on: their values are those of members laid out in this tail, whose head
part is `front`. -/
def Fills (shared : Option (UInt8 × Nat)) (ms : List Member) (slots : List Slot) (front : Bytes) : Prop :=
  ∀ (total o : Nat) (tail : Bytes) (vs : List Value), (firstOffset? slots).getD total = o → total = o + tail.length →
    fillSlots total tail slots = .ok vs → ∃ ps, LaidOut shared o ps front tail ∧ ReadsAll ms ps vs

section Fills

variable {ms : List Member} {slots : List Slot} {front : Bytes} {shared : Option (UInt8 × Nat)}

theorem fills_nil : Fills shared [] [] [] := by
  intro total o tail vs hfirst htotal h
  cases h
  have ho : total = o := hfirst
  have htail : tail = [] := List.eq_nil_of_length_eq_zero (by omega)
  rw [htail]
  exact ⟨[], .nil, .nil⟩

/-- A slot that already holds its value leaves the tail to the others. -/
theorem Fills.value {m : Member} {p : Part} {v : Value} {head : Bytes} {after : Option (UInt8 × Nat)}
    (h : Fills after ms slots front) (hread : Reads m p v)
    (hlaid : ∀ {o : Nat} {ps : List Part} {tail : Bytes}, LaidOut after o ps front tail →
      LaidOut shared o (p :: ps) head tail) : Fills shared (m :: ms) (.value v :: slots) head := by
  intro total o tail vs hfirst htotal hfill
  obtain ⟨ws, hws, hp⟩ := bind_eq_ok.mp hfill
  obtain rfl := pure_eq_ok.mp hp
  obtain ⟨ps, hps, hreads⟩ := h total o tail ws hfirst htotal hws
  exact ⟨p :: ps, hlaid hps, .cons hread hreads⟩

/-- A dynamic member takes the front of the tail, up to where the next one begins. -/
theorem Fills.tail {read : Bytes → Except Error Value} {start : Bytes} (h : Fills none ms slots front)
    (hstart : start.length = 2) :
    Fills shared (.tail read :: ms) (.tail (ofBigEndian start) read :: slots) (start ++ front) := by
  intro total o tail vs hfirst htotal hfill
  have ho : ofBigEndian start = o := hfirst
  obtain ⟨hback, hlt⟩ := bigEndian_two_ofBigEndian hstart
  rw [ho] at hback hlt hfill
  generalize hstop : (firstOffset? slots).getD total = stop at hfill
  simp only [fillSlots, hstop] at hfill
  by_cases hguard : stop < o ∨ total < stop
  · rw [if_pos hguard] at hfill
    cases hfill
  · rw [if_neg hguard] at hfill
    obtain ⟨v, hv, hfill⟩ := bind_eq_ok.mp hfill
    obtain ⟨ws, hws, hp⟩ := bind_eq_ok.mp hfill
    obtain rfl := pure_eq_ok.mp hp
    have htake : (tail.take (stop - o)).length = stop - o := by
      rw [List.length_take]
      omega
    have htotal' : total = stop + (tail.drop (stop - o)).length := by
      rw [List.length_drop]
      omega
    obtain ⟨ps, hps, hreads⟩ := h total stop _ ws hstop htotal' hws
    have hrest : LaidOut none (o + (tail.take (stop - o)).length) ps front (tail.drop (stop - o)) := by
      rwa [htake, show o + (stop - o) = stop by omega]
    have hlaid : LaidOut shared o (.tail (tail.take (stop - o)) :: ps) (bigEndian 2 o ++ front)
        (tail.take (stop - o) ++ tail.drop (stop - o)) := .tail _ hlt hrest
    rw [hback, List.take_append_drop] at hlaid
    exact ⟨_, hlaid, .cons (.tail hv) hreads⟩

end Fills

/-- The head of a tuple holds what fits its members. -/
theorem Scanned.fills {ms : List Member} {shared : Option (UInt8 × Nat)} {bs rest : Bytes} {slots : List Slot}
    (h : Scanned shared ms bs slots rest) : ∃ front, bs = front ++ rest ∧ Fills shared ms slots front := by
  induction h with
  | nil rest => exact ⟨[], rfl, fills_nil⟩
  | sharedBit _ ih =>
    obtain ⟨front, rfl, hfills⟩ := ih
    exact ⟨front, rfl, hfills.value (.bit _) .sharedBit⟩
  | @freshBit octet _ _ _ _ _ ih =>
    obtain ⟨front, rfl, hfills⟩ := ih
    exact ⟨octet :: front, rfl, hfills.value (.bit _) .freshBit⟩
  | @inline _ _ own _ _ _ _ _ hread _ ih =>
    obtain ⟨front, rfl, hfills⟩ := ih
    exact ⟨own ++ front, (List.append_assoc _ _ _).symm, hfills.value (.inline hread) (.inline own)⟩
  | @tail _ _ start _ _ _ _ hstart _ ih =>
    obtain ⟨front, rfl, hfills⟩ := ih
    exact ⟨start ++ front, (List.append_assoc _ _ _).symm, hfills.tail hstart⟩

/-- The members begin their tail where the head ends, or there is no tail. -/
theorem readMembers_eq_ok {ms : List Member} {bs : Bytes} {vs : List Value} (h : readMembers ms bs = .ok vs) :
    ∃ slots tail, scan none bs ms = .ok (slots, tail) ∧ fillSlots bs.length tail slots = .ok vs ∧
      (firstOffset? slots = none ∧ tail = [] ∨ firstOffset? slots = some (bs.length - tail.length)) := by
  obtain ⟨⟨slots, tail⟩, hscan, h⟩ := bind_eq_ok.mp h
  refine ⟨slots, tail, hscan, ?_⟩
  cases hfirst : firstOffset? slots with
  | none =>
    simp only [hfirst] at h
    by_cases hnil : tail = []
    · rw [if_neg (not_not_intro hnil)] at h
      exact ⟨h, .inl ⟨rfl, hnil⟩⟩
    · rw [if_pos hnil] at h
      cases h
  | some start =>
    simp only [hfirst] at h
    by_cases hstart : start = bs.length - tail.length
    · rw [if_neg (not_not_intro hstart)] at h
      exact ⟨h, .inr (congrArg some hstart)⟩
    · rw [if_pos hstart] at h
      cases h

/-- What was read as a tuple is a head and a tail of its members, without gaps and with nothing left over. -/
theorem laidOut_of_readMembers {ms : List Member} {bs : Bytes} {vs : List Value} (h : readMembers ms bs = .ok vs) :
    ∃ ps head tail, bs = head ++ tail ∧ LaidOut none head.length ps head tail ∧ ReadsAll ms ps vs := by
  obtain ⟨slots, tail, hscan, hfill, hfirst⟩ := readMembers_eq_ok h
  obtain ⟨head, rfl, hfills⟩ := (scan_eq_ok.mp hscan).fills
  have htotal : (head ++ tail).length = head.length + tail.length := List.length_append
  have hbegin : (firstOffset? slots).getD (head ++ tail).length = head.length := by
    obtain ⟨hnone, rfl⟩ | hsome := hfirst
    · rw [hnone, List.append_nil, Option.getD_none]
    · rw [hsome, htotal, Nat.add_sub_cancel, Option.getD_some]
  obtain ⟨ps, hlaid, hreads⟩ := hfills _ head.length tail vs hbegin htotal hfill
  exact ⟨ps, head, tail, rfl, hlaid, hreads⟩

/-- Cells that make a head and a tail, of which the bits of two masks are cleared. -/
structure Makes (o : Nat) (cs : List Cell) (headMask tailMask head tail : Bytes) : Prop where
  heads : heads o cs = .ok (clearBits headMask head)
  tails : cs.flatMap Cell.tail = clearBits tailMask tail
  length_head : headMask.length = head.length
  length_tail : tailMask.length = tail.length

section Makes

variable {o : Nat} {cs : List Cell} {headMask tailMask head tail mask bs : Bytes}

theorem makes_nil (o : Nat) : Makes o [] [] [] [] [] := ⟨rfl, rfl, rfl, rfl⟩

theorem Makes.octets (h : Makes o cs headMask tailMask head tail) (hl : mask.length = bs.length) :
    Makes o (.octets (clearBits mask bs) :: cs) (mask ++ headMask) tailMask (bs ++ head) tail where
  heads := by
    rw [Abi.heads, h.heads, clearBits_append hl]
    rfl
  tails := h.tails
  length_head := by rw [List.length_append, List.length_append, hl, h.length_head]
  length_tail := h.length_tail

theorem Makes.offset (h : Makes (o + bs.length) cs headMask tailMask head tail) (ho : o < UInt16.size)
    (hl : mask.length = bs.length) :
    Makes o (.offset (clearBits mask bs) :: cs) (allUsed 2 ++ headMask) (mask ++ tailMask) (bigEndian 2 o ++ head)
      (bs ++ tail) where
  heads := by
    have hstart : encodeLength o = .ok (bigEndian 2 o) := if_pos ho
    have htwo : (allUsed 2).length = (bigEndian 2 o).length := by rw [length_allUsed, length_bigEndian]
    rw [Abi.heads, hstart, length_clearBits hl, h.heads, clearBits_append htwo,
      clearBits_allUsed (length_bigEndian 2 o).symm]
    rfl
  tails := by
    rw [List.flatMap_cons, h.tails, clearBits_append hl]
    rfl
  length_head := by
    rw [List.length_append, List.length_append, length_allUsed, length_bigEndian, h.length_head]
  length_tail := by rw [List.length_append, List.length_append, hl, h.length_tail]

/-- The octet of which some truth values have been taken, at most a given number. -/
def Begun (most : Nat) (shared : Option (UInt8 × Nat)) : Prop := ∀ taken ∈ shared, 0 < taken.2 ∧ taken.2 ≤ most

theorem Begun.mono {shared : Option (UInt8 × Nat)} {m n : Nat} (h : m ≤ n) (hs : Begun m shared) : Begun n shared :=
  fun taken ht => ⟨(hs taken ht).1, Nat.le_trans (hs taken ht).2 h⟩

theorem begun_none (most : Nat) : Begun most none := by simp [Begun]

theorem begun_some {most used : Nat} {octet : UInt8} :
    Begun most (some (octet, used)) ↔ 0 < used ∧ used ≤ most := by
  simp [Begun]

/-- The truth values taken from an octet make that octet again, without its unused bits. -/
theorem Makes.flush {shared : Option (UInt8 × Nat)} (hs : Begun 8 shared)
    (h : Makes o cs headMask tailMask head tail) :
    Makes o (flush (takenBits shared) ++ cs) (begunMask (takenCount shared) ++ headMask) tailMask
      (begunOctet shared ++ head) tail := by
  cases shared with
  | none => exact h
  | some taken =>
    obtain ⟨octet, used⟩ := taken
    obtain ⟨hpos, hle⟩ := begun_some.mp hs
    have hne : firstBits octet used ≠ [] := by
      rw [← List.length_pos_iff, length_firstBits]
      exact hpos
    have hcell : Abi.flush (firstBits octet used) = [.octets (clearBits [lowBits used] [octet])] := by
      rw [Abi.flush, if_neg hne, packBits_firstBits octet hle]
      rfl
    rw [takenBits, hcell, takenCount, begunMask, if_neg (Nat.ne_of_gt hpos)]
    exact h.octets rfl

end Makes

/-- The encoded members of a head and a tail make these again, by induction on how they are laid out. -/
theorem LaidOut.makes {shared : Option (UInt8 × Nat)} {o : Nat} {ps qs : List Part} {head tail : Bytes}
    (h : LaidOut shared o ps head tail) (hs : Begun 7 shared) (hq : List.Forall₂ Part.Masks qs ps) :
    Makes o (cellsAfter (takenBits shared) (List.zipWith Part.clear qs ps)) (headMask (takenCount shared) qs)
      (qs.flatMap Part.tailMask) (begunOctet shared ++ head) tail := by
  induction h generalizing qs with
  | @nil shared o =>
    cases hq
    have hmakes := (makes_nil o).flush (hs.mono (by decide))
    simp only [List.append_nil] at hmakes ⊢
    exact hmakes
  | @sharedBit octet used o ps head tail hrest ih =>
    cases hq with
    | cons hmask hqs =>
      cases hmask
      obtain ⟨hpos, hle⟩ := begun_some.mp hs
      have hbits : firstBits octet used ++ [bitAt octet used] = firstBits octet (used + 1) :=
        (firstBits_succ octet used).symm
      rw [takenBits, takenCount]
      simp only [List.zipWith_cons_cons, Part.clear, cellsAfter, headMask, length_firstBits, hbits, List.flatMap_cons,
        Part.tailMask, List.nil_append]
      by_cases hfull : used = 7
      · -- The eighth truth value completes the octet, of which no bit is unused.
        simp only [hfull] at ih ⊢
        have heighth : Begun 8 (some (octet, 8)) := begun_some.mpr (by decide)
        exact (ih (begun_none 7) hqs).flush heighth
      · simp only [if_neg hfull] at ih ⊢
        exact ih (begun_some.mpr (by omega)) hqs
  | @freshBit octet o ps head tail hrest ih =>
    cases hq with
    | cons hmask hqs =>
      cases hmask
      exact ih (begun_some.mpr (by decide)) hqs
  | inline bs hrest ih =>
    cases hq with
    | cons hmask hqs =>
      cases hmask with
      | inline hl => exact ((ih (begun_none 7) hqs).octets hl).flush (hs.mono (by decide))
  | tail bs ho hrest ih =>
    cases hq with
    | cons hmask hqs =>
      cases hmask with
      | tail hl => exact ((ih (begun_none 7) hqs).offset ho hl).flush (hs.mono (by decide))

/-- Laying out the members that were read gives the input back, without the unused bits. -/
theorem layout_of_readMembers {ms : List Member} {bs : Bytes} {vs : List Value} (h : readMembers ms bs = .ok vs) :
    ∃ ps, ReadsAll ms ps vs ∧ ∀ qs, List.Forall₂ Part.Masks qs ps →
      (tupleMask qs).length = bs.length ∧ layout (List.zipWith Part.clear qs ps) = .ok (clearBits (tupleMask qs) bs) := by
  obtain ⟨ps, head, tail, rfl, hlaid, hreads⟩ := laidOut_of_readMembers h
  refine ⟨ps, hreads, ?_⟩
  intro qs hqs
  have hmakes : Makes head.length (cells (List.zipWith Part.clear qs ps)) (headMask 0 qs) (qs.flatMap Part.tailMask)
      head tail := hlaid.makes (begun_none 7) hqs
  obtain ⟨hheads, htails, hhead, htail⟩ := hmakes
  have hlength : headLength (cells (List.zipWith Part.clear qs ps)) = head.length := by
    rw [← length_clearBits hhead]
    exact (length_heads hheads).symm
  constructor
  · rw [tupleMask, List.length_append, List.length_append, hhead, htail]
  · rw [tupleMask, clearBits_append hhead, ← htails]
    simp only [layout, hlength]
    exact bind_eq_ok.mpr ⟨_, hheads, rfl⟩

end AtomicGroup.Abi
