import AtomicGroup.Abi.Layout
import AtomicGroup.Proofs.Outcome
import AtomicGroup.Proofs.Text.BitGroups

/-!
# Reading a tuple that was laid out

What `layout` writes, `readMembers` reads back, for any members whose readers undo their encodings. The head is
scanned cell by cell: `Scans` says that the members at hand fit the cells still to come, and `Placed` that the slots
found so far point at encodings which follow one another in the tail.
-/
namespace AtomicGroup.Abi

open Outcome

inductive Reads : Member → Part → Value → Prop where
  | bit (b : Bool) : Reads .bit (.bit b) (.bool b)
  | inline {read : Bytes → Except Error Value} {bs : Bytes} {v : Value} (h : read bs = .ok v) :
      Reads (.inline bs.length read) (.inline bs) v
  | tail {read : Bytes → Except Error Value} {bs : Bytes} {v : Value} (h : read bs = .ok v) :
      Reads (.tail read) (.tail bs) v

inductive ReadsAll : List Member → List Part → List Value → Prop where
  | nil : ReadsAll [] [] []
  | cons {m : Member} {p : Part} {v : Value} {ms : List Member} {ps : List Part} {vs : List Value}
      (head : Reads m p v) (rest : ReadsAll ms ps vs) : ReadsAll (m :: ms) (p :: ps) (v :: vs)

/-- Slots of the given values, the dynamic ones pointing at encodings that follow one another from an offset on. -/
inductive Placed : (offset : Nat) → List Slot → (tail : Bytes) → List Value → Prop where
  | nil {o : Nat} : Placed o [] [] []
  | value {o : Nat} {ss : List Slot} {bs : Bytes} {vs : List Value} (v : Value) (rest : Placed o ss bs vs) :
      Placed o (.value v :: ss) bs (v :: vs)
  | tail {o : Nat} {ss : List Slot} {bs more : Bytes} {v : Value} {vs : List Value}
      {read : Bytes → Except Error Value} (h : read bs = .ok v) (rest : Placed (o + bs.length) ss more vs) :
      Placed o (.tail o read :: ss) (bs ++ more) (v :: vs)

/-- The first dynamic slot points at the beginning of the tail; without one the tail is empty. -/
theorem firstOffset?_placed {o : Nat} {ss : List Slot} {tail : Bytes} {vs : List Value}
    (h : Placed o ss tail vs) : (firstOffset? ss).getD (o + tail.length) = o := by
  induction h with
  | nil => rfl
  | value v _ ih => exact ih
  | tail _ _ _ => rfl

/-- Each dynamic member ends where the next one begins, and the last one with the input. -/
theorem fillSlots_placed {o total : Nat} {ss : List Slot} {tail : Bytes} {vs : List Value}
    (h : Placed o ss tail vs) (ht : total = o + tail.length) : fillSlots total tail ss = .ok vs := by
  induction h with
  | nil => rfl
  | value v _ ih =>
    rw [fillSlots, ih ht, ok_bind]
    rfl
  | @tail o ss bs more v vs read hr hp ih =>
    have ht' : total = o + bs.length + more.length := by
      rw [ht, List.length_append]
      omega
    have hstop : (firstOffset? ss).getD total = o + bs.length := by
      rw [ht']
      exact firstOffset?_placed hp
    have hguard : ¬(o + bs.length < o ∨ total < o + bs.length) := by omega
    simp only [fillSlots, hstop, if_neg hguard, Nat.add_sub_cancel_left, List.take_left, List.drop_left,
      hr, ih ht', ok_bind]
    rfl

/-- Scanning the head that some cells make, after the truth values read so far, finds the members' slots. -/
def Scans (shared : Option (UInt8 × Nat)) (cs : List Cell) (ms : List Member) (vs : List Value) : Prop :=
  ∀ (offset : Nat) (head rest : Bytes), heads offset cs = .ok head →
    ∃ slots, scan shared (head ++ rest) ms = .ok (slots, rest) ∧ Placed offset slots (cs.flatMap Cell.tail) vs

theorem scans_nil (shared : Option (UInt8 × Nat)) : Scans shared [] [] [] := by
  intro offset head rest h
  cases h
  exact ⟨[], rfl, .nil⟩

theorem takeHead_append (front rest : Bytes) : takeHead front.length (front ++ rest) = .ok (front, rest) := by
  simp [takeHead]

theorem scans_inline {cs : List Cell} {ms : List Member} {vs : List Value} {bs : Bytes} {v : Value}
    {read : Bytes → Except Error Value} (hr : read bs = .ok v) (h : Scans none cs ms vs)
    (shared : Option (UInt8 × Nat)) :
    Scans shared (.octets bs :: cs) (.inline bs.length read :: ms) (v :: vs) := by
  intro offset head rest hh
  obtain ⟨more, hm, hp⟩ := bind_eq_ok.mp hh
  obtain rfl := pure_eq_ok.mp hp
  obtain ⟨slots, hs, hplaced⟩ := h offset more rest hm
  refine ⟨.value v :: slots, ?_, .value v hplaced⟩
  rw [List.append_assoc, scan, takeHead_append, ok_bind]
  simp only [hr, hs, ok_bind]
  rfl

theorem encodeLength_eq_ok {n : Nat} {bs : Bytes} (h : encodeLength n = .ok bs) :
    bs.length = 2 ∧ ofBigEndian bs = n := by
  unfold encodeLength at h
  split at h
  · rename_i hn
    injection h with h
    subst h
    refine ⟨length_bigEndian 2 n, ?_⟩
    rw [ofBigEndian_bigEndian]
    exact Nat.mod_eq_of_lt hn
  · cases h

theorem scans_tail {cs : List Cell} {ms : List Member} {vs : List Value} {bs : Bytes} {v : Value}
    {read : Bytes → Except Error Value} (hr : read bs = .ok v) (h : Scans none cs ms vs)
    (shared : Option (UInt8 × Nat)) : Scans shared (.offset bs :: cs) (.tail read :: ms) (v :: vs) := by
  intro offset head rest hh
  obtain ⟨start, hstart, hh⟩ := bind_eq_ok.mp hh
  obtain ⟨more, hm, hp⟩ := bind_eq_ok.mp hh
  obtain rfl := pure_eq_ok.mp hp
  obtain ⟨hlen, hval⟩ := encodeLength_eq_ok hstart
  obtain ⟨slots, hs, hplaced⟩ := h (offset + bs.length) more rest hm
  refine ⟨.tail offset read :: slots, ?_, .tail hr hplaced⟩
  rw [List.append_assoc, scan, ← hlen, takeHead_append, ok_bind]
  simp only [hs, hval, ok_bind]
  rfl

/-- A truth value in an octet that has been begun. -/
theorem scans_shared_bit {cs : List Cell} {ms : List Member} {vs : List Value} {octet : UInt8} {used : Nat}
    (h : Scans (if used = 7 then none else some (octet, used + 1)) cs ms vs) :
    Scans (some (octet, used)) cs (.bit :: ms) (.bool (bitAt octet used) :: vs) := by
  intro offset head rest hh
  obtain ⟨slots, hs, hplaced⟩ := h offset head rest hh
  refine ⟨.value (.bool (bitAt octet used)) :: slots, ?_, .value _ hplaced⟩
  rw [scan, hs, ok_bind]
  rfl

/-- A truth value that begins an octet. -/
theorem scans_fresh_bit {cs : List Cell} {ms : List Member} {vs : List Value} {octet : UInt8}
    (h : Scans (some (octet, 1)) cs ms vs) :
    Scans none (.octets [octet] :: cs) (.bit :: ms) (.bool (bitAt octet 0) :: vs) := by
  intro offset head rest hh
  obtain ⟨more, hm, hp⟩ := bind_eq_ok.mp hh
  obtain rfl := pure_eq_ok.mp hp
  obtain ⟨slots, hs, hplaced⟩ := h offset more rest hm
  refine ⟨.value (.bool (bitAt octet 0)) :: slots, ?_, .value _ hplaced⟩
  rw [List.append_assoc, List.singleton_append, scan]
  simp only [hs, ok_bind]
  rfl

/-- The bits of a packed octet are the truth values that it was made of, and zeros. -/
theorem bitAt_packBits_fill {bits : List Bool} (h8 : bits.length ≤ 8) {i : Nat} (hi : i < 8) :
    some (bitAt (packBits bits) i) = (BitGroups.fill 8 bits)[i]? := by
  have hlen : (BitGroups.fill 8 bits).length = 8 := BitGroups.length_fill h8
  have hlt : BitGroups.ofBits (BitGroups.fill 8 bits) < 256 := by
    have h := BitGroups.ofBits_lt (BitGroups.fill 8 bits)
    rw [hlen] at h
    exact h
  have hb := BitGroups.bits_ofBits (BitGroups.fill 8 bits)
  rw [hlen] at hb
  have hget := BitGroups.getElem?_bits (n := BitGroups.ofBits (BitGroups.fill 8 bits)) hi
  rw [hb] at hget
  rw [hget, bitAt, packBits, UInt8.toNat_ofNat_of_lt' hlt]

/-- The bits of an octet begin with the truth values that it was made of. -/
theorem bitAt_packBits {bits : List Bool} (h8 : bits.length ≤ 8) {i : Nat} (hi : i < bits.length) :
    some (bitAt (packBits bits) i) = bits[i]? := by
  rw [bitAt_packBits_fill h8 (Nat.lt_of_lt_of_le hi h8), BitGroups.getElem?_fill hi]

/-- An octet of truth values is closed by whatever follows, or by the eighth of them. -/
theorem scans_cellsAfter {ms : List Member} {ps : List Part} {vs : List Value} (h : ReadsAll ms ps vs) :
    Scans none (cellsAfter [] ps) ms vs ∧
    ∀ pending, pending ≠ [] → pending.length ≤ 7 → ∃ octet cs, cellsAfter pending ps = .octets [octet] :: cs ∧
      (∀ i < pending.length, some (bitAt octet i) = pending[i]?) ∧
      Scans (some (octet, pending.length)) cs ms vs := by
  have close {pending : List Bool} (hp : pending ≠ []) : flush pending = [.octets [packBits pending]] := if_neg hp
  induction h with
  | nil =>
    refine ⟨scans_nil none, ?_⟩
    intro pending hp h7
    exact ⟨packBits pending, [], close hp, fun i hi => bitAt_packBits (by omega) hi, scans_nil _⟩
  | @cons m p v ms ps vs hm hrest ih =>
    cases hm with
    | inline hr =>
      refine ⟨scans_inline hr ih.1 none, ?_⟩
      intro pending hp h7
      refine ⟨packBits pending, _, ?_, fun i hi => bitAt_packBits (by omega) hi, scans_inline hr ih.1 _⟩
      rw [cellsAfter, close hp]
      rfl
    | tail hr =>
      refine ⟨scans_tail hr ih.1 none, ?_⟩
      intro pending hp h7
      refine ⟨packBits pending, _, ?_, fun i hi => bitAt_packBits (by omega) hi, scans_tail hr ih.1 _⟩
      rw [cellsAfter, close hp]
      rfl
    | bit b =>
      constructor
      · obtain ⟨octet, cs, hcs, hbits, hscan⟩ := ih.2 [b] (by simp) (by simp)
        have hb : bitAt octet 0 = b := by simpa using hbits 0 (by simp)
        have h := scans_fresh_bit hscan
        rw [hb, ← hcs] at h
        exact h
      · intro pending hp h7
        by_cases hfull : pending.length = 7
        · -- The eighth truth value completes the octet.
          have hbits : ∀ i < 8, some (bitAt (packBits (pending ++ [b])) i) = (pending ++ [b])[i]? :=
            fun i hi => bitAt_packBits (by simp [hfull]) (by simpa [hfull] using hi)
          have hlast : bitAt (packBits (pending ++ [b])) pending.length = b := by
            simpa [hfull] using hbits pending.length (by omega)
          refine ⟨packBits (pending ++ [b]), cellsAfter [] ps, ?_, ?_, ?_⟩
          · rw [cellsAfter, if_pos hfull, close (by simp)]
            rfl
          · intro i hi
            rw [hbits i (by omega), List.getElem?_append_left hi]
          · have h : Scans (some (packBits (pending ++ [b]), pending.length)) (cellsAfter [] ps) (.bit :: ms)
                (.bool (bitAt (packBits (pending ++ [b])) pending.length) :: vs) :=
              scans_shared_bit (by rw [if_pos hfull]; exact ih.1)
            rwa [hlast] at h
        · obtain ⟨octet, cs, hcs, hbits, hscan⟩ := ih.2 (pending ++ [b]) (by simp) (by simp; omega)
          have hlast : bitAt octet pending.length = b := by simpa using hbits pending.length (by simp)
          refine ⟨octet, cs, ?_, ?_, ?_⟩
          · rw [cellsAfter, if_neg hfull, hcs]
          · intro i hi
            rw [hbits i (by simp; omega), List.getElem?_append_left hi]
          · have h : Scans (some (octet, pending.length)) cs (.bit :: ms)
                (.bool (bitAt octet pending.length) :: vs) :=
              scans_shared_bit (by rw [if_neg hfull]; simpa using hscan)
            rwa [hlast] at h

/-- The head is as long as its cells say. -/
theorem length_heads {cs : List Cell} {offset : Nat} {head : Bytes} (h : heads offset cs = .ok head) :
    head.length = headLength cs := by
  induction cs generalizing offset head with
  | nil => cases h; rfl
  | cons c cs ih =>
    cases c with
    | octets bs =>
      obtain ⟨more, hm, hp⟩ := bind_eq_ok.mp h
      obtain rfl := pure_eq_ok.mp hp
      simp only [List.length_append, headLength, Cell.headLength, ih hm]
    | offset bs =>
      obtain ⟨start, hstart, h⟩ := bind_eq_ok.mp h
      obtain ⟨more, hm, hp⟩ := bind_eq_ok.mp h
      obtain rfl := pure_eq_ok.mp hp
      simp only [List.length_append, headLength, Cell.headLength, ih hm, (encodeLength_eq_ok hstart).1]

/-- Reading undoes laying out. -/
theorem readMembers_layout {ms : List Member} {ps : List Part} {vs : List Value} {bs : Bytes}
    (h : ReadsAll ms ps vs) (hl : layout ps = .ok bs) : readMembers ms bs = .ok vs := by
  obtain ⟨head, hhead, hp⟩ := bind_eq_ok.mp hl
  obtain rfl := pure_eq_ok.mp hp
  have hlen : head.length = headLength (cells ps) := length_heads hhead
  have hscans : Scans none (cells ps) ms vs := (scans_cellsAfter h).1
  obtain ⟨slots, hscan, hplaced⟩ := hscans _ head ((cells ps).flatMap Cell.tail) hhead
  have hfirst := firstOffset?_placed hplaced
  have hfill : fillSlots (head ++ (cells ps).flatMap Cell.tail).length ((cells ps).flatMap Cell.tail) slots = .ok vs :=
    fillSlots_placed hplaced (by rw [List.length_append, hlen])
  simp only [readMembers, hscan, ok_bind]
  cases hf : firstOffset? slots with
  | none =>
    rw [hf, Option.getD_none] at hfirst
    have hnil : (cells ps).flatMap Cell.tail = [] := List.eq_nil_of_length_eq_zero (by omega)
    rw [hnil] at hfill ⊢
    simpa using hfill
  | some start =>
    rw [hf, Option.getD_some] at hfirst
    have hstart : ¬start ≠ (head ++ (cells ps).flatMap Cell.tail).length
        - ((cells ps).flatMap Cell.tail).length := by
      rw [List.length_append, Nat.add_sub_cancel, hlen]
      exact not_not_intro hfirst
    simp only [if_neg hstart]
    exact hfill

end AtomicGroup.Abi
