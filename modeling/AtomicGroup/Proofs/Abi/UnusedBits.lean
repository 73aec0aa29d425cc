import AtomicGroup.Proofs.Abi.Tuple

/-!
# The bits that no value uses

Truth values that do not fill an octet leave its low bits unused, and these alone may be anything in an encoding.
A mask says of each octet which of its bits are unused: `tupleMask` makes the mask of a tuple out of those of its
members, in the way in which `layout` makes the tuple out of its members.
-/
namespace AtomicGroup.Abi

open Outcome

def clearBits (mask bs : Bytes) : Bytes := List.zipWith (fun unused octet => octet &&& ~~~unused) mask bs

theorem length_clearBits {mask bs : Bytes} (h : mask.length = bs.length) : (clearBits mask bs).length = bs.length := by
  rw [clearBits, List.length_zipWith, h, Nat.min_self]

theorem clearBits_append {mask more bs rest : Bytes} (h : mask.length = bs.length) :
    clearBits (mask ++ more) (bs ++ rest) = clearBits mask bs ++ clearBits more rest :=
  List.zipWith_append h

/-- Nothing is cleared where no bit is unused. -/
theorem clearBits_of_zero {mask bs : Bytes} (h : mask.length = bs.length) (hzero : ∀ unused ∈ mask, unused = 0) :
    clearBits mask bs = bs := by
  induction mask generalizing bs with
  | nil =>
    have hbs : bs = [] := List.length_eq_zero_iff.mp h.symm
    rw [hbs]
    rfl
  | cons unused mask ih =>
    cases bs with
    | nil => cases h
    | cons octet bs =>
      have hhead : octet &&& ~~~unused = octet := by
        rw [hzero unused List.mem_cons_self]
        simp
      have htail := ih (Nat.succ.inj h) fun m hm => hzero m (List.mem_cons_of_mem _ hm)
      rw [clearBits, List.zipWith_cons_cons, hhead]
      exact congrArg (octet :: ·) htail

def allUsed (n : Nat) : Bytes := List.replicate n 0

@[simp] theorem length_allUsed (n : Nat) : (allUsed n).length = n := List.length_replicate

theorem eq_zero_of_mem_allUsed {n : Nat} {unused : UInt8} (h : unused ∈ allUsed n) : unused = 0 :=
  List.eq_of_mem_replicate h

theorem clearBits_allUsed {bs : Bytes} {n : Nat} (h : n = bs.length) : clearBits (allUsed n) bs = bs :=
  clearBits_of_zero (by rw [length_allUsed, h]) fun _ => eq_zero_of_mem_allUsed

/-- The low bits of an octet that begins with `used` truth values. -/
def lowBits (used : Nat) : UInt8 := UInt8.ofNat (1 <<< (8 - used) - 1)

/-- The mask of the octet that `used` truth values have begun, if there are any. -/
def begunMask (used : Nat) : Bytes := if used = 0 then [] else [lowBits used]

/-- The mask of the head of a tuple whose members are given by their masks, after `used` truth values that do not fill
an octet yet. -/
def headMask : (used : Nat) → List Part → Bytes
  | used, [] => begunMask used
  | used, .bit _ :: masks =>
    if used = 7 then begunMask 8 ++ headMask 0 masks else headMask (used + 1) masks
  | used, .inline mask :: masks => begunMask used ++ (mask ++ headMask 0 masks)
  | used, .tail _ :: masks => begunMask used ++ (allUsed 2 ++ headMask 0 masks)

def Part.tailMask : Part → Bytes
  | .tail mask => mask
  | _ => []

def tupleMask (masks : List Part) : Bytes := headMask 0 masks ++ masks.flatMap Part.tailMask

/-- The mask of a member that is used in full and shares no octet with others. -/
def Part.AllUsed : Part → Prop
  | .bit _ => False
  | .inline mask => ∀ unused ∈ mask, unused = 0
  | .tail mask => ∀ unused ∈ mask, unused = 0

/-- Members that are used in full make a tuple that is. -/
theorem eq_zero_of_mem_tupleMask {masks : List Part} (h : ∀ mask ∈ masks, mask.AllUsed) {unused : UInt8}
    (hu : unused ∈ tupleMask masks) : unused = 0 := by
  have hhead : ∀ unused ∈ headMask 0 masks, unused = 0 := by
    clear hu
    induction masks with
    | nil => simp [headMask, begunMask]
    | cons mask masks ih =>
      have hrest := ih fun m hm => h m (List.mem_cons_of_mem _ hm)
      have hmask := h mask List.mem_cons_self
      intro unused hu
      cases mask with
      | bit b => cases hmask
      | inline mask =>
        rw [headMask, begunMask, if_pos rfl, List.nil_append] at hu
        obtain hu | hu := List.mem_append.mp hu
        · exact hmask unused hu
        · exact hrest unused hu
      | tail mask =>
        rw [headMask, begunMask, if_pos rfl, List.nil_append] at hu
        obtain hu | hu := List.mem_append.mp hu
        · exact eq_zero_of_mem_allUsed hu
        · exact hrest unused hu
  have htail : ∀ unused ∈ masks.flatMap Part.tailMask, unused = 0 := by
    intro unused hu
    obtain ⟨mask, hm, hu⟩ := List.mem_flatMap.mp hu
    have hmask := h mask hm
    cases mask with
    | tail mask => exact hmask unused hu
    | _ => cases hu
  obtain hu | hu := List.mem_append.mp hu
  · exact hhead unused hu
  · exact htail unused hu

/-- An encoded member with the bits of its mask cleared; a truth value has none of its own. -/
def Part.clear : (mask part : Part) → Part
  | .inline mask, .inline bs => .inline (clearBits mask bs)
  | .tail mask, .tail bs => .tail (clearBits mask bs)
  | _, part => part

/-- A mask that belongs to an encoded member, being of its kind and length. -/
inductive Part.Masks : (mask part : Part) → Prop where
  | bit (b b' : Bool) : Masks (.bit b) (.bit b')
  | inline {mask bs : Bytes} (h : mask.length = bs.length) : Masks (.inline mask) (.inline bs)
  | tail {mask bs : Bytes} (h : mask.length = bs.length) : Masks (.tail mask) (.tail bs)

def firstBits (octet : UInt8) (n : Nat) : List Bool := (List.range n).map (bitAt octet)

@[simp] theorem length_firstBits (octet : UInt8) (n : Nat) : (firstBits octet n).length = n := by
  simp [firstBits]

theorem firstBits_succ (octet : UInt8) (n : Nat) : firstBits octet (n + 1) = firstBits octet n ++ [bitAt octet n] := by
  rw [firstBits, List.range_succ, List.map_append]
  rfl

/-- Two octets with the same truth values are the same. -/
theorem octet_ext {a b : UInt8} (h : ∀ i < 8, bitAt a i = bitAt b i) : a = b := by
  apply UInt8.toNat_inj.mp
  apply Nat.eq_of_testBit_eq
  intro j
  by_cases hj : j < 8
  · have hbit := h (7 - j) (by omega)
    have hback : 7 - (7 - j) = j := by omega
    rwa [bitAt, bitAt, hback] at hbit
  · have hhigh : ∀ octet : UInt8, octet.toNat.testBit j = false := by
      intro octet
      apply Nat.testBit_lt_two_pow
      exact Nat.lt_of_lt_of_le octet.toNat_lt (Nat.pow_le_pow_right (by decide) (Nat.not_lt.mp hj))
    rw [hhigh a, hhigh b]

/-- Clearing the low bits of an octet leaves its first truth values. -/
theorem bitAt_clear_lowBits (octet : UInt8) {n i : Nat} (hi : i < 8) :
    bitAt (octet &&& ~~~(lowBits n)) i = (bitAt octet i && decide (i < n)) := by
  have hle : 2 ^ (8 - n) ≤ 2 ^ 8 := Nat.pow_le_pow_right (by decide) (Nat.sub_le 8 n)
  have hpos : 0 < 2 ^ (8 - n) := Nat.pow_pos (by decide)
  have hlow : (lowBits n).toNat = 2 ^ (8 - n) - 1 := by
    rw [lowBits, Nat.one_shiftLeft]
    exact UInt8.toNat_ofNat_of_lt' (show 2 ^ (8 - n) - 1 < 2 ^ 8 by omega)
  have hnot : (~~~(lowBits n)).toNat.testBit (7 - i) = decide (i < n) := by
    have hsucc : UInt8.size - 1 - (2 ^ (8 - n) - 1) = 2 ^ 8 - ((2 ^ (8 - n) - 1) + 1) := by
      rw [show UInt8.size = 2 ^ 8 from rfl]
      omega
    rw [UInt8.toNat_not, hlow, hsucc, Nat.testBit_two_pow_sub_succ (by omega), Nat.testBit_two_pow_sub_one]
    by_cases hn : i < n
    · simp [hn]
      omega
    · simp [hn]
      omega
  rw [bitAt, UInt8.toNat_and, Nat.testBit_and, hnot, bitAt]

/-- Packing the first truth values of an octet clears the others. -/
theorem packBits_firstBits (octet : UInt8) {n : Nat} (h : n ≤ 8) :
    packBits (firstBits octet n) = octet &&& ~~~(lowBits n) := by
  apply octet_ext
  intro i hi
  have hlen : (firstBits octet n).length ≤ 8 := by rwa [length_firstBits]
  have hfill := bitAt_packBits_fill hlen hi
  rw [bitAt_clear_lowBits octet hi]
  by_cases hn : i < n
  · rw [BitGroups.getElem?_fill (by rwa [length_firstBits])] at hfill
    simp only [firstBits, List.getElem?_map, List.getElem?_range hn, Option.map_some, Option.some_inj] at hfill
    rw [firstBits, hfill, decide_eq_true hn, Bool.and_true]
  · rw [BitGroups.fill, List.getElem?_append_right (by rw [length_firstBits]; omega)] at hfill
    rw [List.getElem?_replicate_of_lt (by rw [length_firstBits]; omega)] at hfill
    rw [Option.some_inj.mp hfill, decide_eq_false hn, Bool.and_false]

/-- The octet that some truth values have begun, if there are any. -/
def begunOctet : Option (UInt8 × Nat) → Bytes
  | none => []
  | some (octet, _) => [octet]

def takenBits : Option (UInt8 × Nat) → List Bool
  | none => []
  | some (octet, used) => firstBits octet used

def takenCount : Option (UInt8 × Nat) → Nat
  | none => 0
  | some (_, used) => used

end AtomicGroup.Abi
