import AtomicGroup.Text.BitGroups
import Mathlib.Data.List.Induction

/-!
# Numbers and their bits

`bits` and `ofBits` undo one another on strings of the same width, and the bits of a number filled up with
zeros begin with the bits that were given. Groups of at most eight bits carry the octets that were regrouped, and
fewer than a group of zeros after them; the groups that `encode` writes are the only ones to carry a byte string.
-/
namespace AtomicGroup.BitGroups

/-- The lowest bit comes last. -/
theorem bits_succ_low (width n : Nat) : bits (width + 1) n = bits width (n / 2) ++ [n.testBit 0] := by
  induction width with
  | zero => rfl
  | succ width ih =>
    rw [bits, ih, bits, Nat.testBit_succ]
    rfl

theorem ofBits_append_singleton (bs : List Bool) (b : Bool) :
    ofBits (bs ++ [b]) = 2 * ofBits bs + b.toNat := by
  simp [ofBits]

/-- Writing out the bits of a number undoes reading them, by induction on the lowest bit. -/
theorem bits_ofBits (bs : List Bool) : bits bs.length (ofBits bs) = bs := by
  induction bs using List.reverseRecOn with
  | nil => rfl
  | append_singleton front last ih =>
    have hd : (2 * ofBits front + last.toNat) / 2 = ofBits front := by
      (cases last <;> simp); omega
    have hb : (2 * ofBits front + last.toNat).testBit 0 = last := by
      cases last <;> simp [Nat.testBit_zero]
    rw [ofBits_append_singleton, List.length_append, List.length_singleton, bits_succ_low, hd, hb, ih]

theorem ofBits_lt (bs : List Bool) : ofBits bs < 1 <<< bs.length := by
  induction bs using List.reverseRecOn with
  | nil => decide
  | append_singleton front last ih =>
    have hlast : last.toNat ≤ 1 := by cases last <;> decide
    rw [ofBits_append_singleton, List.length_append, List.length_singleton, Nat.shiftLeft_succ]
    omega

/-- The bit at a position counted from the top. -/
theorem getElem?_bits {width n i : Nat} (h : i < width) :
    (bits width n)[i]? = some (n.testBit (width - 1 - i)) := by
  induction width generalizing i with
  | zero => omega
  | succ width ih =>
    cases i with
    | zero => simp [bits]
    | succ i =>
      rw [bits, List.getElem?_cons_succ, ih (by omega)]
      congr 2
      omega

theorem length_fill {width : Nat} {bs : List Bool} (h : bs.length ≤ width) :
    (fill width bs).length = width := by
  simp only [fill, List.length_append, List.length_replicate]
  omega

/-- Filling up leaves the given bits in front. -/
theorem getElem?_fill {width i : Nat} {bs : List Bool} (h : i < bs.length) :
    (fill width bs)[i]? = bs[i]? := by
  rw [fill, List.getElem?_append_left h]

theorem ofBits_bits (width n : Nat) : ofBits (bits width n) = n % (1 <<< width) := by
  induction width generalizing n with
  | zero => rw [Nat.shiftLeft_zero, Nat.mod_one]; rfl
  | succ width ih =>
    have hbit : (n.testBit 0).toNat = n % 2 := by
      rw [Nat.testBit_zero]
      rcases Nat.mod_two_eq_zero_or_one n with h | h <;> simp [h]
    rw [bits_succ_low, ofBits_append_singleton, ih, hbit, Nat.shiftLeft_succ, Nat.mod_mul]
    omega

/-- The bits of the groups that bits are cut into are these bits and fewer zeros than a group has. -/
theorem flatMap_fill_chunksUpTo {width : Nat} (hpos : 0 < width) (fuel : Nat) (bs : List Bool) (h : bs.length ≤ fuel) :
    ∃ zeros < width, (chunksUpTo width fuel bs).flatMap (fill width) = bs ++ List.replicate zeros false := by
  induction fuel generalizing bs with
  | zero =>
    obtain rfl := List.length_eq_zero_iff.mp (Nat.le_zero.mp h)
    exact ⟨0, hpos, rfl⟩
  | succ fuel ih =>
    cases bs with
    | nil => exact ⟨0, hpos, rfl⟩
    | cons b bs =>
      rw [chunksUpTo, List.flatMap_cons]
      by_cases hle : (b :: bs).length ≤ width
      · refine ⟨width - (b :: bs).length, by simp only [List.length_cons]; omega, ?_⟩
        have hrest : chunksUpTo width fuel ([] : List Bool) = [] := by cases fuel <;> rfl
        rw [List.take_of_length_le hle, List.drop_of_length_le hle, hrest, List.flatMap_nil, List.append_nil, fill]
      · have hdrop : ((b :: bs).drop width).length ≤ fuel := by
          simp only [List.length_drop, List.length_cons] at h ⊢
          omega
        obtain ⟨zeros, hzeros, hrest⟩ := ih _ hdrop
        have htake : ((b :: bs).take width).length = width := by
          rw [List.length_take]
          omega
        refine ⟨zeros, hzeros, ?_⟩
        rw [hrest, fill, htake, Nat.sub_self, List.replicate_zero, List.append_nil, ← List.append_assoc,
          List.take_append_drop]

theorem chunksUpTo_congr {α : Type} {k : Nat} (hk : 0 < k) {m n : Nat} {xs : List α} (hm : xs.length ≤ m)
    (hn : xs.length ≤ n) : chunksUpTo k m xs = chunksUpTo k n xs := by
  induction m generalizing n xs with
  | zero =>
    obtain rfl := List.length_eq_zero_iff.mp (Nat.le_zero.mp hm)
    cases n <;> rfl
  | succ m ih =>
    cases xs with
    | nil => cases n <;> rfl
    | cons x xs =>
      cases n with
      | zero => simp at hn
      | succ n =>
        have hdrop : ((x :: xs).drop k).length ≤ xs.length := by
          simp only [List.length_drop, List.length_cons]
          omega
        rw [List.length_cons] at hm hn
        rw [chunksUpTo, chunksUpTo]
        exact congrArg _ (ih (by omega) (by omega))

theorem chunks_of_length_le {α : Type} {k : Nat} {xs : List α} (hne : xs ≠ []) (h : xs.length ≤ k) :
    chunks k xs = [xs] := by
  obtain ⟨x, rest, rfl⟩ := List.exists_cons_of_ne_nil hne
  rw [chunks, List.length_cons, chunksUpTo, List.take_of_length_le h, List.drop_of_length_le h]
  cases rest <;> rfl

/-- A whole piece is the first one of what begins with it. -/
theorem chunks_append {α : Type} {k : Nat} (hk : 0 < k) {piece : List α} (h : piece.length = k) (xs : List α) :
    chunks k (piece ++ xs) = piece :: chunks k xs := by
  obtain ⟨x, rest, rfl⟩ := List.exists_cons_of_ne_nil (List.ne_nil_of_length_pos (h ▸ hk))
  rw [List.length_cons] at h
  have hlen : (x :: (rest ++ xs)).length = (rest ++ xs).length + 1 := rfl
  have htake : (x :: (rest ++ xs)).take k = x :: rest := by rw [← List.cons_append, List.take_left' (by simpa using h)]
  have hdrop : (x :: (rest ++ xs)).drop k = xs := by rw [← List.cons_append, List.drop_left' (by simpa using h)]
  rw [List.cons_append, chunks, hlen, chunksUpTo, htake, hdrop]
  exact congrArg _ (chunksUpTo_congr hk (by rw [List.length_append]; omega) (Nat.le_refl _))

theorem length_le_of_mem_chunksUpTo {α : Type} {k fuel : Nat} {xs chunk : List α} (h : chunk ∈ chunksUpTo k fuel xs) :
    chunk.length ≤ k := by
  induction fuel generalizing xs with
  | zero => cases h
  | succ fuel ih =>
    cases xs with
    | nil => cases h
    | cons x xs =>
      rcases List.mem_cons.mp h with rfl | h
      · exact List.length_take_le k _
      · exact ih h

/-- A list is cut into as many pieces as it has lengths of one begun. -/
theorem length_chunksUpTo {α : Type} {k : Nat} (hk : 0 < k) (fuel : Nat) (xs : List α) (h : xs.length ≤ fuel) :
    (chunksUpTo k fuel xs).length = (xs.length + (k - 1)) / k := by
  induction fuel generalizing xs with
  | zero =>
    obtain rfl := List.length_eq_zero_iff.mp (Nat.le_zero.mp h)
    exact (Nat.div_eq_of_lt (by simp only [List.length_nil]; omega)).symm
  | succ fuel ih =>
    cases xs with
    | nil => exact (Nat.div_eq_of_lt (by simp only [List.length_nil]; omega)).symm
    | cons x xs =>
      rw [chunksUpTo, List.length_cons, ih _ (by simp only [List.length_drop, List.length_cons] at h ⊢; omega),
        List.length_drop]
      by_cases hle : (x :: xs).length ≤ k
      · rw [Nat.sub_eq_zero_of_le hle, Nat.zero_add, Nat.div_eq_of_lt (by omega)]
        have hlen : (x :: xs).length + (k - 1) = (x :: xs).length - 1 + k := by
          simp only [List.length_cons]
          omega
        rw [hlen, Nat.add_div_right _ hk, Nat.div_eq_of_lt (by omega)]
      · have hlen : (x :: xs).length + (k - 1) = (x :: xs).length - k + (k - 1) + k := by omega
        rw [hlen, Nat.add_div_right _ hk]

theorem length_bytesToBits (bs : Bytes) : (bytesToBits bs).length = 8 * bs.length := by
  induction bs with
  | nil => rfl
  | cons b bs ih =>
    rw [bytesToBits, List.flatMap_cons, List.length_append, length_bits, ← bytesToBits, ih, List.length_cons]
    omega

/-- The octets of a byte string's bits are the byte string. -/
theorem map_ofBits_chunks_bytesToBits (bs : Bytes) :
    (chunks 8 (bytesToBits bs)).map (fun octet => UInt8.ofNat (ofBits octet)) = bs := by
  induction bs with
  | nil => rfl
  | cons b bs ih =>
    have hoctet : UInt8.ofNat (ofBits (bits 8 b.toNat)) = b := by
      rw [ofBits_bits, Nat.mod_eq_of_lt (show b.toNat < 1 <<< 8 from b.toNat_lt), UInt8.ofNat_toNat]
    rw [bytesToBits, List.flatMap_cons, ← bytesToBits, chunks_append (by decide) (length_bits 8 _), List.map_cons,
      hoctet, ih]

/-- The bits of the groups of a byte string are its bits and fewer zeros than a group has. -/
theorem flatMap_bits_encode {width : Nat} (hpos : 0 < width) (bs : Bytes) :
    ∃ zeros < width, (encode width bs).flatMap (bits width) = bytesToBits bs ++ List.replicate zeros false := by
  obtain ⟨zeros, hzeros, hall⟩ := flatMap_fill_chunksUpTo hpos _ (bytesToBits bs) (Nat.le_refl _)
  refine ⟨zeros, hzeros, ?_⟩
  rw [encode, List.flatMap_map, ← hall, List.flatMap_def, List.flatMap_def]
  refine congrArg List.flatten (List.map_congr_left fun group hgroup => ?_)
  have hlen := length_fill (length_le_of_mem_chunksUpTo hgroup)
  have hbits := bits_ofBits (fill width group)
  rwa [hlen] at hbits

theorem length_encode {width : Nat} (hpos : 0 < width) (bs : Bytes) :
    (encode width bs).length = (8 * bs.length + (width - 1)) / width := by
  rw [encode, List.length_map, chunks, length_chunksUpTo hpos _ _ (Nat.le_refl _), length_bytesToBits]

theorem lt_of_mem_encode {width n : Nat} {bs : Bytes} (h : n ∈ encode width bs) : n < 1 <<< width := by
  obtain ⟨group, hgroup, rfl⟩ := List.mem_map.mp h
  have hlen := length_fill (length_le_of_mem_chunksUpTo hgroup)
  have hlt := ofBits_lt (fill width group)
  rwa [hlen] at hlt

/-- The bits of octets that whole octets of bits are read as. -/
theorem bytesToBits_map_ofBits_chunks {n : Nat} {bs : List Bool} (h : bs.length = 8 * n) :
    bytesToBits ((chunks 8 bs).map fun octet => UInt8.ofNat (ofBits octet)) = bs := by
  induction n generalizing bs with
  | zero =>
    obtain rfl := List.length_eq_zero_iff.mp h
    rfl
  | succ n ih =>
    have hfirst : (bs.take 8).length = 8 := by
      rw [List.length_take]
      omega
    have hrest : (bs.drop 8).length = 8 * n := by
      rw [List.length_drop]
      omega
    have hlt : ofBits (bs.take 8) < 256 := by
      have := ofBits_lt (bs.take 8)
      rwa [hfirst] at this
    have hoctet : bits 8 (UInt8.ofNat (ofBits (bs.take 8))).toNat = bs.take 8 := by
      have := bits_ofBits (bs.take 8)
      rwa [hfirst, ← UInt8.toNat_ofNat_of_lt hlt] at this
    conv_lhs => rw [← List.take_append_drop 8 bs]
    rw [chunks_append (by decide) hfirst, List.map_cons, bytesToBits, List.flatMap_cons, hoctet, ← bytesToBits,
      ih hrest, List.take_append_drop]

theorem length_flatMap_bits (width : Nat) (ns : List Nat) : (ns.flatMap (bits width)).length = ns.length * width := by
  induction ns with
  | nil => rw [List.flatMap_nil, List.length_nil, List.length_nil, Nat.zero_mul]
  | cons n ns ih =>
    rw [List.flatMap_cons, List.length_append, length_bits, ih, List.length_cons, Nat.succ_mul, Nat.add_comm]

theorem eq_of_bits_eq {width m n : Nat} (hm : m < 1 <<< width) (hn : n < 1 <<< width)
    (h : bits width m = bits width n) : m = n := by
  have hread := congrArg ofBits h
  rwa [ofBits_bits, ofBits_bits, Nat.mod_eq_of_lt hm, Nat.mod_eq_of_lt hn] at hread

/-- Groups of at most eight bits are read as the octets whose bits they begin with, when fewer zeros than a group has
are left. -/
theorem decode?_eq_some_iff {width : Nat} (hle : width ≤ 8) {groups : List Nat} {bs : Bytes} :
    decode? width groups = some bs ↔
      ∃ zeros < width, groups.flatMap (bits width) = bytesToBits bs ++ List.replicate zeros false := by
  generalize hall : groups.flatMap (bits width) = all
  simp only [decode?, hall, Option.ite_none_right_eq_some, Option.some.injEq]
  constructor
  · rintro ⟨⟨hshort, hzeros⟩, rfl⟩
    have htake : (all.take (all.length / 8 * 8)).length = 8 * (all.length / 8) := by
      rw [List.length_take]
      omega
    have hrest : all.drop (all.length / 8 * 8) = List.replicate (all.drop (all.length / 8 * 8)).length false :=
      List.eq_replicate_iff.mpr ⟨rfl, by simpa using hzeros⟩
    refine ⟨_, hshort, ?_⟩
    rw [bytesToBits_map_ofBits_chunks htake, ← hrest, List.take_append_drop]
  · rintro ⟨zeros, hzeros, rfl⟩
    have hwhole : (bytesToBits bs ++ List.replicate zeros false).length / 8 * 8 = (bytesToBits bs).length := by
      rw [List.length_append, List.length_replicate, length_bytesToBits]
      omega
    rw [hwhole, List.drop_left, List.take_left, List.length_replicate]
    exact ⟨⟨hzeros, by simp⟩, map_ofBits_chunks_bytesToBits bs⟩

/-- Groups of at most eight bits give their octets back. -/
theorem decode?_encode {width : Nat} (hpos : 0 < width) (hle : width ≤ 8) (bs : Bytes) :
    decode? width (encode width bs) = some bs :=
  (decode?_eq_some_iff hle).mpr (flatMap_bits_encode hpos bs)

/-- A byte string is read from no other groups than its own. -/
theorem encode_of_decode? {width : Nat} (hpos : 0 < width) (hle : width ≤ 8) {groups : List Nat} {bs : Bytes}
    (hlt : ∀ n ∈ groups, n < 1 <<< width) (h : decode? width groups = some bs) : encode width bs = groups := by
  obtain ⟨zeros, hzeros, hgroups⟩ := (decode?_eq_some_iff hle).mp h
  obtain ⟨zeros', hzeros', hencode⟩ := flatMap_bits_encode hpos bs
  -- Both fillings are shorter than a group, so that they are the same.
  have hlen := congrArg List.length hgroups
  have hlen' := congrArg List.length hencode
  rw [length_flatMap_bits, List.length_append, List.length_replicate] at hlen hlen'
  have hnum : (encode width bs).length = groups.length := by
    rw [length_bytesToBits] at hlen
    have hnext : (groups.length + 1) * width = groups.length * width + width := Nat.succ_mul _ _
    rw [length_encode hpos]
    exact Nat.div_eq_of_lt_le (by omega) (by omega)
  have hsame : zeros' = zeros := by
    rw [hnum] at hlen'
    omega
  refine eq_of_flatMap_eq hpos (length_bits width) (fun m hm n hn => eq_of_bits_eq (lt_of_mem_encode hm) (hlt n hn)) ?_
  rw [hencode, hgroups, hsame]

end AtomicGroup.BitGroups
