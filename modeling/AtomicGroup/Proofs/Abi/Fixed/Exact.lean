import AtomicGroup.Proofs.Abi.Fixed
import Mathlib.Algebra.Field.Rat
import Mathlib.Tactic.Ring

/-!
# Fixed-point numerals are exact

What a decimal writes is said by the places of its digits (`placeValue`): units, tens and so on in front of the point,
tenths, hundredths and so on behind it. `parse?` takes the decimals with few enough places, and what it returns is
what they write, scaled and neither reduced nor cut off; `placeValue_filled` carries this over to the digits as they
are read. An accumulator of 512 bits that gives up where one of its steps overflows reads the same numbers
(`toNat_accumulate?`).
-/
namespace AtomicGroup.Abi.Fixed

open Decimal (isDigit ofDigits)

section Places

def digitOf (c : Char) : Nat := c.toNat - '0'.toNat

/-- The number that digits write when the first of them counts a unit and each further one a tenth of what the one
before it counts. -/
def placeValue : (unit : ℚ) → List Char → ℚ
  | _, [] => 0
  | unit, c :: cs => digitOf c * unit + placeValue (unit / 10) cs

/-- What the first of the digits in front of a point counts. -/
def leadingUnit (whole : List Char) : ℚ := 10 ^ (whole.length - 1)

/-- The decimals, with how many places they have and what they write. -/
inductive Writes : List Char → (places : Nat) → ℚ → Prop where
  | whole {whole : List Char} (hne : whole ≠ []) (hwhole : whole.all isDigit = true) :
      Writes whole 0 (placeValue (leadingUnit whole) whole)
  | point {whole fraction : List Char} (hne : whole ≠ []) (hwhole : whole.all isDigit = true)
      (hfraction : fraction.all isDigit = true) :
      Writes (whole ++ '.' :: fraction) fraction.length (placeValue (leadingUnit whole) (whole ++ fraction))

theorem ofDigits_append (front cs : List Char) :
    ofDigits (front ++ cs) = ofDigits front * 10 ^ cs.length + ofDigits cs := by
  induction cs using List.reverseRecOn with
  | nil => simp [ofDigits]
  | append_singleton cs c ih =>
    rw [← List.append_assoc, Decimal.ofDigits_append_singleton, Decimal.ofDigits_append_singleton, ih,
      List.length_append, List.length_singleton, pow_succ]
    ring

theorem ofDigits_cons (c : Char) (cs : List Char) :
    ofDigits (c :: cs) = digitOf c * 10 ^ cs.length + ofDigits cs := by
  rw [← List.singleton_append, ofDigits_append]
  simp [ofDigits, digitOf]

/-- The number that is read from digits counts what the last of them counts. -/
theorem placeValue_mul (unit : ℚ) (cs : List Char) :
    placeValue unit cs * 10 ^ cs.length = ofDigits cs * (10 * unit) := by
  induction cs generalizing unit with
  | nil => simp [placeValue, ofDigits]
  | cons c cs ih =>
    have hrest := ih (unit / 10)
    rw [placeValue, ofDigits_cons, List.length_cons, pow_succ]
    push_cast
    calc
      (digitOf c * unit + placeValue (unit / 10) cs) * (10 ^ cs.length * 10)
        = digitOf c * unit * 10 ^ cs.length * 10 + placeValue (unit / 10) cs * 10 ^ cs.length * 10 := by ring
      _ = digitOf c * unit * 10 ^ cs.length * 10 + ofDigits cs * (10 * (unit / 10)) * 10 := by rw [hrest]
      _ = (digitOf c * 10 ^ cs.length + ofDigits cs) * (10 * unit) := by ring

theorem mul_leadingUnit {whole : List Char} (hne : whole ≠ []) : 10 * leadingUnit whole = 10 ^ whole.length := by
  rw [leadingUnit, ← pow_succ', Nat.sub_add_cancel (List.length_pos_iff.mpr hne)]

end Places

section Filled

/-- The digits of a decimal with zeros for the places that it leaves out. -/
def filled (precision : Nat) (whole fraction : List Char) : List Char :=
  whole ++ fraction ++ List.replicate (precision - fraction.length) '0'

/-- A text cut at its first point into digits, of which there are some in front. -/
structure Cut (text whole fraction : List Char) : Prop where
  split : splitPoint text = (whole, fraction)
  ne_nil : whole ≠ []
  whole : whole.all isDigit = true
  fraction : fraction.all isDigit = true

variable {text whole fraction : List Char} {precision : Nat}

theorem Cut.all_filled (h : Cut text whole fraction) : (filled precision whole fraction).all isDigit = true := by
  rw [filled, List.all_append, List.all_append, h.whole, h.fraction, List.all_replicate]
  simp [isDigit]

theorem ofDigits_filled (precision : Nat) (whole fraction : List Char) :
    ofDigits (filled precision whole fraction) = ofDigits (whole ++ fraction) * 10 ^ (precision - fraction.length) := by
  have hzeros : ofDigits (List.replicate (precision - fraction.length) '0') = 0 := by
    have h := ofDigits_replicate_append (precision - fraction.length) []
    rwa [List.append_nil] at h
  rw [filled, ofDigits_append, hzeros, List.length_replicate, Nat.add_zero]

/-- Scaling a decimal is filling its places. -/
theorem placeValue_filled (hne : whole ≠ []) (hlen : fraction.length ≤ precision) :
    placeValue (leadingUnit whole) (whole ++ fraction) * 10 ^ precision =
      ofDigits (filled precision whole fraction) := by
  have hvalue := placeValue_mul (leadingUnit whole) (whole ++ fraction)
  rw [mul_leadingUnit hne, List.length_append, pow_add] at hvalue
  -- The digits in front of the point are counted by the leading unit, and those behind it are left.
  have hpos : (10 : ℚ) ^ whole.length ≠ 0 := pow_ne_zero _ (by norm_num)
  have hplaces : placeValue (leadingUnit whole) (whole ++ fraction) * 10 ^ fraction.length =
      ofDigits (whole ++ fraction) := by
    apply mul_right_cancel₀ hpos
    rw [← hvalue]
    ring
  have hscale : (10 : ℚ) ^ precision = 10 ^ fraction.length * 10 ^ (precision - fraction.length) := by
    rw [← pow_add, Nat.add_sub_cancel' hlen]
  rw [hscale, ← mul_assoc, hplaces, ofDigits_filled]
  push_cast
  rfl

/-- A text is the digits in front of its first point, and what follows the point if there is one. -/
theorem splitPoint_cases (text : List Char) :
    (∃ whole, splitPoint text = (whole, []) ∧ text = whole) ∨
      ∃ whole fraction, splitPoint text = (whole, fraction) ∧ text = whole ++ '.' :: fraction := by
  have hjoin := List.takeWhile_append_dropWhile (p := (· != '.')) (l := text)
  rw [splitPoint]
  cases hrest : text.dropWhile (· != '.') with
  | nil =>
    rw [hrest, List.append_nil] at hjoin
    exact .inl ⟨_, rfl, hjoin.symm⟩
  | cons c rest =>
    have hpoint : c = '.' := by
      have h := List.head?_dropWhile_not (· != '.') text
      rw [hrest] at h
      simpa using h
    rw [hrest, hpoint] at hjoin
    exact .inr ⟨_, rest, rfl, hjoin.symm⟩

theorem splitPoint_of_digits (h : whole.all isDigit = true) : splitPoint whole = (whole, []) := by
  obtain ⟨front, hsplit, rfl⟩ | ⟨front, rest, -, rfl⟩ := splitPoint_cases whole
  · exact hsplit
  · simp [isDigit] at h

theorem writes_iff {places : Nat} {value : ℚ} :
    Writes text places value ↔
      ∃ whole fraction, Cut text whole fraction ∧ fraction.length = places ∧
        placeValue (leadingUnit whole) (whole ++ fraction) = value := by
  constructor
  · intro h
    cases h with
    | whole hne hwhole =>
      exact ⟨text, [], ⟨splitPoint_of_digits hwhole, hne, hwhole, rfl⟩, rfl, by rw [List.append_nil]⟩
    | @point whole fraction hne hwhole hfraction =>
      exact ⟨whole, fraction, ⟨splitPoint_append hwhole fraction, hne, hwhole, hfraction⟩, rfl, rfl⟩
  · rintro ⟨whole, fraction, hcut, rfl, rfl⟩
    obtain ⟨front, hsplit, rfl⟩ | ⟨front, rest, hsplit, rfl⟩ := splitPoint_cases text
    · cases hsplit.symm.trans hcut.split
      rw [List.append_nil]
      exact .whole hcut.ne_nil hcut.whole
    · cases hsplit.symm.trans hcut.split
      exact .point hcut.ne_nil hcut.whole hcut.fraction

end Filled

section Reading

variable {precision raw : Nat} {text : List Char}

def filled? (precision : Nat) (text : List Char) : Option (List Char) :=
  let (whole, fraction) := splitPoint text
  if whole ≠ [] ∧ whole.all isDigit ∧ fraction.all isDigit ∧ fraction.length ≤ precision then
    some (filled precision whole fraction)
  else
    none

theorem filled?_eq_some_iff {digits : List Char} :
    filled? precision text = some digits ↔
      ∃ whole fraction, Cut text whole fraction ∧ fraction.length ≤ precision ∧
        filled precision whole fraction = digits := by
  rw [filled?]
  constructor
  · intro h
    split at h
    rename_i whole fraction hsplit
    split at h
    · rename_i hgood
      exact ⟨whole, fraction, ⟨hsplit, hgood.1, hgood.2.1, hgood.2.2.1⟩, hgood.2.2.2, Option.some.inj h⟩
    · cases h
  · rintro ⟨whole, fraction, hcut, hlen, rfl⟩
    rw [hcut.split]
    exact if_pos ⟨hcut.ne_nil, hcut.whole, hcut.fraction, hlen⟩

theorem parse?_eq_bind (precision : Nat) (text : List Char) :
    parse? precision text =
      (filled? precision text).bind fun digits => if ofDigits digits < bound then some (ofDigits digits) else none := by
  rw [parse?, filled?]
  dsimp only
  split <;> rfl

theorem parse?_eq_some_iff :
    parse? precision text = some raw ↔
      ∃ places value, Writes text places value ∧ places ≤ precision ∧ value * 10 ^ precision = raw ∧ raw < bound := by
  rw [parse?_eq_bind, Option.bind_eq_some_iff]
  constructor
  · rintro ⟨digits, hfilled, hraw⟩
    obtain ⟨whole, fraction, hcut, hlen, rfl⟩ := filled?_eq_some_iff.mp hfilled
    split at hraw
    · rename_i hbound
      cases hraw
      exact ⟨_, _, writes_iff.mpr ⟨whole, fraction, hcut, rfl, rfl⟩, hlen, placeValue_filled hcut.ne_nil hlen, hbound⟩
    · cases hraw
  · rintro ⟨_, _, hwrites, hlen, hvalue, hbound⟩
    obtain ⟨whole, fraction, hcut, rfl, rfl⟩ := writes_iff.mp hwrites
    rw [placeValue_filled hcut.ne_nil hlen] at hvalue
    have hraw : ofDigits (filled precision whole fraction) = raw := by exact_mod_cast hvalue
    refine ⟨_, filled?_eq_some_iff.mpr ⟨whole, fraction, hcut, hlen, rfl⟩, ?_⟩
    rw [hraw, if_pos hbound]

end Reading

section Accumulating

variable {width : Nat}

/-- A digit put behind a number of some bits, unless the product or the sum overflows. -/
def putDigit? (n : BitVec width) (c : Char) : Option (BitVec width) :=
  let ten := BitVec.ofNat width 10
  let digit := BitVec.ofNat width (digitOf c)
  if n.umulOverflow ten ∨ (n * ten).uaddOverflow digit then none else some (n * ten + digit)

/-- The number of some bits that digits write, unless a step towards it overflows. -/
def accumulate? (width : Nat) (cs : List Char) : Option (BitVec width) := cs.foldlM putDigit? 0

/-- A step overflows where the number that it should give is too large. -/
theorem toNat_putDigit? (hw : 10 < 1 <<< width) (n : BitVec width) {c : Char} (hc : isDigit c = true) :
    (putDigit? n c).map BitVec.toNat =
      if 10 * n.toNat + digitOf c < 1 <<< width then some (10 * n.toNat + digitOf c) else none := by
  rw [Nat.one_shiftLeft] at hw ⊢
  have hlt : digitOf c < 10 := (Decimal.digitChar_of_isDigit hc).1
  have hten : (BitVec.ofNat width 10).toNat = 10 := by
    rw [BitVec.toNat_ofNat, Nat.mod_eq_of_lt hw]
  have hdigit : (BitVec.ofNat width (digitOf c)).toNat = digitOf c := by
    rw [BitVec.toNat_ofNat, Nat.mod_eq_of_lt (Nat.lt_trans hlt hw)]
  simp only [putDigit?, BitVec.umulOverflow, BitVec.uaddOverflow, decide_eq_true_iff, hten, hdigit, ge_iff_le]
  by_cases hmul : 2 ^ width ≤ n.toNat * 10
  · rw [if_pos (.inl hmul), if_neg (by omega)]
    rfl
  · have hproduct : (n * BitVec.ofNat width 10).toNat = n.toNat * 10 := by
      rw [BitVec.toNat_mul, hten, Nat.mod_eq_of_lt (by omega)]
    rw [hproduct]
    by_cases hadd : 2 ^ width ≤ n.toNat * 10 + digitOf c
    · rw [if_pos (.inr hadd), if_neg (by omega)]
      rfl
    · rw [if_neg (by omega), if_pos (by omega), Option.map_some, BitVec.toNat_add, hproduct, hdigit,
        Nat.mod_eq_of_lt (by omega), Nat.mul_comm]

/-- An accumulator that gives up at an overflow finds the number of the digits wherever there are bits for it. -/
theorem toNat_accumulate? (hw : 10 < 1 <<< width) {cs : List Char} (hd : cs.all isDigit = true) :
    (accumulate? width cs).map BitVec.toNat = if ofDigits cs < 1 <<< width then some (ofDigits cs) else none := by
  induction cs using List.reverseRecOn with
  | nil =>
    have hzero : ofDigits [] < 1 <<< width := Nat.lt_trans (by decide) hw
    rw [if_pos hzero, accumulate?, List.foldlM_nil]
    exact congrArg some BitVec.toNat_zero
  | append_singleton front c ih =>
    rw [List.all_append, Bool.and_eq_true] at hd
    have hfront := ih hd.1
    have hnext : ofDigits (front ++ [c]) = 10 * ofDigits front + digitOf c := Decimal.ofDigits_append_singleton front c
    rw [accumulate?, List.foldlM_append, ← accumulate?, hnext]
    cases hacc : accumulate? width front with
    | none =>
      -- What has overflowed once stays too large.
      have hlarge : ¬ofDigits front < 1 <<< width := by
        intro hlt
        rw [hacc, if_pos hlt] at hfront
        cases hfront
      rw [if_neg (by omega)]
      rfl
    | some n =>
      have hn : n.toNat = ofDigits front := by
        rw [hacc] at hfront
        split at hfront
        · exact Option.some.inj hfront
        · cases hfront
      have hstep := toNat_putDigit? hw n (c := c) (by simpa using hd.2)
      rw [hn] at hstep
      simpa using hstep

end Accumulating

section Printing

/-- Digits without a zero in front of others. -/
def IsNumeral (cs : List Char) : Prop := cs ≠ [] ∧ cs.all isDigit = true ∧ (1 < cs.length → cs.head? ≠ some '0')

theorem isNumeral_digits (n : Nat) : IsNumeral (Decimal.digits n) := by
  refine ⟨Decimal.digits_ne_nil n, Decimal.all_isDigit_digits n, fun hlong => ?_⟩
  apply Decimal.head?_digits
  refine Nat.pos_of_ne_zero ?_
  rintro rfl
  exact Nat.lt_irrefl 1 hlong

/-- A printed number has all its places, and in front of them a whole part without superfluous zeros. -/
theorem format_numeral (precision raw : Nat) :
    ∃ whole fraction, format precision raw = whole ++ '.' :: fraction ∧ IsNumeral whole ∧
      fraction.all isDigit = true ∧ fraction.length = precision := by
  obtain ⟨whole, fraction, hformat, hlen, hfraction, -⟩ := format_eq precision raw
  exact ⟨_, fraction, hformat, isNumeral_digits whole, hfraction, hlen⟩

end Printing

/-- Numbers are printed with all their places and no superfluous zero, and those below `2 ^ 512` are read back. Reading
takes the decimals with few enough places, of which it returns what they write, scaled, and refuses what is not below
`2 ^ 512`; nothing else is read. An accumulator of 512 bits that gives up where a step overflows agrees. -/
theorem fixed_point_text_exact (precision : Nat) :
    (∀ raw,
      (∃ whole fraction, format precision raw = whole ++ '.' :: fraction ∧ IsNumeral whole ∧
        fraction.all isDigit = true ∧ fraction.length = precision) ∧
      parse? precision (format precision raw) = if raw < bound then some raw else none) ∧
    ∀ text,
      (∀ raw, parse? precision text = some raw ↔
        ∃ places value, Writes text places value ∧ places ≤ precision ∧ value * 10 ^ precision = raw ∧ raw < bound) ∧
      parse? precision text =
        (filled? precision text).bind fun digits => (accumulate? 512 digits).map BitVec.toNat := by
  refine ⟨fun raw => ⟨format_numeral precision raw, parse?_format precision raw⟩, fun text =>
    ⟨fun raw => parse?_eq_some_iff, ?_⟩⟩
  rw [parse?_eq_bind]
  refine Option.bind_congr fun digits hfilled => ?_
  obtain ⟨whole, fraction, hcut, -, rfl⟩ := filled?_eq_some_iff.mp hfilled
  exact (toNat_accumulate? (by decide +kernel) hcut.all_filled).symm

example :
    (format 3 5, format 3 12500) = ("0.005".toList, "12.500".toList) ∧
    ["12.5", "012.", "12", ".5", "12.5000", "1.2.5"].map (fun text => parse? 3 text.toList) =
      [some 12500, some 12000, some 12000, none, none, none] := by
  decide

end AtomicGroup.Abi.Fixed
