import AtomicGroup.Abi.Json
import AtomicGroup.Proofs.Text.Decimal

/-!
# Fixed-point numerals are read back

A scaled number is printed with all its places. Zeros are put in front only where the whole part would be empty, so
that it is a numeral: a single zero, or digits that do not begin with one.
-/
namespace AtomicGroup.Abi.Fixed

theorem ofDigits_replicate_append (k : Nat) (cs : List Char) :
    Decimal.ofDigits (List.replicate k '0' ++ cs) = Decimal.ofDigits cs := by
  induction k with
  | zero => rfl
  | succ k ih =>
    rw [← ih, List.replicate_succ, List.cons_append]
    rfl

/-- The digits of a scaled number, with zeros in front up to its whole part. -/
def padded (precision raw : Nat) : List Char :=
  List.replicate (precision + 1 - (Decimal.digits raw).length) '0' ++ Decimal.digits raw

section Padded

variable (precision raw : Nat)

theorem all_isDigit_padded : (padded precision raw).all Decimal.isDigit = true := by
  rw [padded, List.all_append, Decimal.all_isDigit_digits, List.all_replicate]
  simp [Decimal.isDigit]

theorem ofDigits_padded : Decimal.ofDigits (padded precision raw) = raw := by
  rw [padded, ofDigits_replicate_append, Decimal.ofDigits_digits]

theorem lt_length_padded : precision < (padded precision raw).length := by
  rw [padded, List.length_append, List.length_replicate]
  omega

/-- Beyond its places and one digit before them, a scaled number has no zeros in front. -/
theorem head?_padded {precision raw : Nat} (h : precision + 1 < (padded precision raw).length) :
    (padded precision raw).head? ≠ some '0' := by
  have hlong : precision + 1 < (Decimal.digits raw).length := by
    rw [padded, List.length_append, List.length_replicate] at h
    omega
  have hpos : 0 < raw := by
    refine Nat.pos_of_ne_zero ?_
    rintro rfl
    have hone : (Decimal.digits 0).length = 1 := rfl
    omega
  rw [padded, Nat.sub_eq_zero_of_le (Nat.le_of_lt hlong), List.replicate_zero, List.nil_append]
  exact Decimal.head?_digits hpos

end Padded

/-- A printed number is a whole part without superfluous zeros, a point, and all its places. -/
theorem format_eq (precision raw : Nat) :
    ∃ whole places, format precision raw = Decimal.digits whole ++ '.' :: places ∧ places.length = precision ∧
      places.all Decimal.isDigit = true ∧ Decimal.ofDigits (Decimal.digits whole ++ places) = raw := by
  have hlen := lt_length_padded precision raw
  have hdigits := all_isDigit_padded precision raw
  generalize hcut : (padded precision raw).length - precision = cut
  rw [← List.take_append_drop cut (padded precision raw), List.all_append, Bool.and_eq_true] at hdigits
  have hwhole :
      Decimal.digits (Decimal.ofDigits ((padded precision raw).take cut)) = (padded precision raw).take cut := by
    refine Decimal.digits_ofDigits ?_ hdigits.1 ?_
    · rw [← List.length_pos_iff, List.length_take]
      omega
    · intro hlong
      rw [List.length_take] at hlong
      rw [List.head?_take, if_neg (by omega)]
      exact head?_padded (by omega)
  refine ⟨Decimal.ofDigits ((padded precision raw).take cut), (padded precision raw).drop cut, ?_, ?_, hdigits.2, ?_⟩
  · rw [hwhole, ← hcut]
    rfl
  · rw [List.length_drop]
    omega
  · rw [hwhole, List.take_append_drop, ofDigits_padded]

/-- Digits that begin with a numeral and have one place more at least are printed as they stand. -/
theorem padded_ofDigits {precision whole : Nat} {places : List Char} (hlen : places.length = precision)
    (hd : places.all Decimal.isDigit = true) :
    padded precision (Decimal.ofDigits (Decimal.digits whole ++ places)) = Decimal.digits whole ++ places := by
  generalize hcs : Decimal.digits whole ++ places = cs
  have hne : cs ≠ [] := by
    rw [← hcs]
    exact List.append_ne_nil_of_left_ne_nil (Decimal.digits_ne_nil whole) _
  have hall : cs.all Decimal.isDigit = true := by
    rw [← hcs, List.all_append, Decimal.all_isDigit_digits, hd]
    rfl
  have hwhole : 0 < (Decimal.digits whole).length := List.length_pos_iff.mpr (Decimal.digits_ne_nil whole)
  have hlong : precision + 1 ≤ cs.length := by
    rw [← hcs, List.length_append]
    omega
  by_cases hone : cs.length = precision + 1
  · rw [padded, ← hone, ← Decimal.eq_replicate_append_digits hne hall]
  · -- Two digits of a numeral do not begin with a zero.
    have hdigits : Decimal.digits (Decimal.ofDigits cs) = cs := by
      refine Decimal.digits_ofDigits hne hall fun _ => ?_
      have hpos : 0 < whole := by
        refine Nat.pos_of_ne_zero ?_
        rintro rfl
        refine hone ?_
        rw [← hcs, List.length_append, hlen, Nat.add_comm]
        rfl
      rw [← hcs, List.head?_append, Option.or_of_isSome (by simp)]
      exact Decimal.head?_digits hpos
    rw [padded, hdigits, Nat.sub_eq_zero_of_le hlong]
    rfl

/-- The numeral of a scaled number is the only one with all its places. -/
theorem format_ofDigits {precision whole : Nat} {places : List Char} (hlen : places.length = precision)
    (hd : places.all Decimal.isDigit = true) :
    format precision (Decimal.ofDigits (Decimal.digits whole ++ places)) = Decimal.digits whole ++ '.' :: places := by
  have hformat : ∀ raw, format precision raw =
      (padded precision raw).take ((padded precision raw).length - precision) ++
        '.' :: (padded precision raw).drop ((padded precision raw).length - precision) := fun _ => rfl
  rw [hformat, padded_ofDigits hlen hd, List.length_append, hlen, Nat.add_sub_cancel, List.take_left, List.drop_left]

theorem splitPoint_append {whole : List Char} (h : whole.all Decimal.isDigit = true) (places : List Char) :
    splitPoint (whole ++ '.' :: places) = (whole, places) := by
  have hpoint : whole.all (· != '.') = true := by
    refine List.all_eq_true.mpr fun c hc => ?_
    have hd := List.all_eq_true.mp h c hc
    rw [bne_iff_ne]
    rintro rfl
    cases hd
  have hstop : ∀ c ∈ ('.' :: places).head?, (c != '.') = false := by simp
  obtain ⟨htake, hdrop⟩ := Decimal.span_append hpoint hstop
  rw [splitPoint, htake, hdrop]
  rfl

theorem parse?_format (precision raw : Nat) :
    parse? precision (format precision raw) = if raw < bound then some raw else none := by
  obtain ⟨whole, places, hformat, hlen, hplaces, hraw⟩ := format_eq precision raw
  have hgood : Decimal.digits whole ≠ [] ∧ (Decimal.digits whole).all Decimal.isDigit ∧ places.all Decimal.isDigit ∧
      places.length ≤ precision :=
    ⟨Decimal.digits_ne_nil whole, Decimal.all_isDigit_digits whole, hplaces, Nat.le_of_eq hlen⟩
  rw [parse?, hformat, splitPoint_append (Decimal.all_isDigit_digits whole)]
  dsimp only
  rw [if_pos hgood, hlen, Nat.sub_self, List.replicate_zero, List.append_nil, hraw]

end AtomicGroup.Abi.Fixed
