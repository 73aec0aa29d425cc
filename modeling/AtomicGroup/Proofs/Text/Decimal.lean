import AtomicGroup.Text.Numerals
import Mathlib.Data.List.Induction

/-!
# Numerals and their numbers

A number has exactly one numeral without superfluous zeros, its digits: `readCanonical?` accepts that one and no other.
-/
namespace AtomicGroup.Decimal

/-- A run of characters of one sort ends where one of another sort follows. -/
theorem span_append {sort : Char → Bool} {run rest : List Char} (hrun : run.all sort = true)
    (hrest : ∀ c ∈ rest.head?, sort c = false) :
    (run ++ rest).takeWhile sort = run ∧ (run ++ rest).dropWhile sort = rest := by
  have hstop : rest.takeWhile sort = [] ∧ rest.dropWhile sort = rest := by
    cases rest with
    | nil => exact ⟨rfl, rfl⟩
    | cons c rest =>
      have hc := hrest c rfl
      simp [hc]
  have hall := List.all_eq_true.mp hrun
  rw [List.takeWhile_append_of_pos hall, List.dropWhile_append_of_pos hall, hstop.1, hstop.2, List.append_nil]
  exact ⟨rfl, rfl⟩

theorem isDigit_iff {c : Char} : isDigit c = true ↔ 48 ≤ c.toNat ∧ c.toNat ≤ 57 := by
  rw [isDigit, Bool.and_eq_true, decide_eq_true_iff, decide_eq_true_iff, Char.le_def, Char.le_def,
    UInt32.le_iff_toNat_le, UInt32.le_iff_toNat_le]
  rfl

/-- A digit is that of its value. -/
theorem digitChar_of_isDigit {c : Char} (h : isDigit c = true) :
    c.toNat - 48 < 10 ∧ Nat.digitChar (c.toNat - 48) = c := by
  obtain ⟨hlow, hhigh⟩ := isDigit_iff.mp h
  have hall : ∀ k < 10, Nat.digitChar k = Char.ofNat (48 + k) := by decide
  have hlt : c.toNat - 48 < 10 := by omega
  refine ⟨hlt, ?_⟩
  rw [hall _ hlt, Nat.add_sub_cancel' hlow, Char.ofNat_toNat]

theorem ofDigits_append_singleton (cs : List Char) (c : Char) :
    ofDigits (cs ++ [c]) = 10 * ofDigits cs + (c.toNat - 48) := by
  rw [ofDigits, List.foldl_append]
  rfl

@[simp] theorem digits_ne_nil (n : Nat) : digits n ≠ [] := Nat.toDigits_ne_nil

theorem isDigit_of_mem_digits {n : Nat} {c : Char} (h : c ∈ digits n) : isDigit c = true :=
  Nat.isDigit_of_mem_toDigits (by decide) (by decide) h

@[simp] theorem all_isDigit_digits (n : Nat) : (digits n).all isDigit = true :=
  List.all_eq_true.mpr fun _ => isDigit_of_mem_digits

@[simp] theorem ofDigits_digits (n : Nat) : ofDigits (digits n) = n := by
  have h := Nat.ofDigitChars_ten_toDigits (n := n)
  rwa [Nat.ofDigitChars_eq_foldl] at h

/-- The digits of a number, but for the last one, are those of its tenth. -/
theorem digits_add {n d : Nat} (hn : 0 < n) (hd : d < 10) : digits (10 * n + d) = digits n ++ [Nat.digitChar d] := by
  rw [digits, ← Nat.toDigits_append_toDigits (by decide) hn hd, Nat.toDigits_of_lt_base hd]
  rfl

/-- No numeral but that of zero begins with a zero. -/
theorem head?_digits {n : Nat} (hn : 0 < n) : (digits n).head? ≠ some '0' := by
  induction n using Nat.strongRecOn with
  | ind n ih =>
    by_cases hlt : n < 10
    · rw [digits, Nat.toDigits_of_lt_base hlt]
      intro h
      have hzero : n = 0 := Nat.digitChar_eq_zero.mp (Option.some.inj h)
      omega
    · have hsplit : digits n = digits (n / 10) ++ [Nat.digitChar (n % 10)] := by
        rw [← digits_add (by omega) (Nat.mod_lt _ (by decide)), Nat.div_add_mod]
      rw [hsplit, List.head?_append, Option.or_of_isSome (by simp)]
      exact ih (n / 10) (by omega) (by omega)

@[simp] theorem read?_digits (n : Nat) : read? (digits n) = some n := by
  simp [read?]

@[simp] theorem readCanonical?_digits (n : Nat) : readCanonical? (digits n) = some n := by
  rw [readCanonical?, if_neg, read?_digits]
  rintro ⟨hlen, hhead⟩
  cases n with
  | zero => cases Nat.lt_irrefl 1 hlen
  | succ n => exact head?_digits n.succ_pos hhead

/-- Digits without a superfluous zero in front are those of the number that they write. -/
theorem digits_ofDigits {cs : List Char} (hne : cs ≠ []) (hd : cs.all isDigit = true)
    (hzero : 1 < cs.length → cs.head? ≠ some '0') : digits (ofDigits cs) = cs := by
  induction cs using List.reverseRecOn with
  | nil => exact absurd rfl hne
  | append_singleton front last ih =>
    rw [List.all_append, Bool.and_eq_true] at hd
    obtain ⟨hlt, hlast⟩ := digitChar_of_isDigit (by simpa using hd.2)
    rw [ofDigits_append_singleton]
    by_cases hfront : front = []
    · subst hfront
      rw [show ofDigits [] = 0 from rfl, Nat.mul_zero, Nat.zero_add, digits, Nat.toDigits_of_lt_base hlt, hlast]
      rfl
    · have hhead : front.head? ≠ some '0' := by
        have h := hzero (by simpa using List.length_pos_iff.mpr hfront)
        rwa [List.head?_append, Option.or_of_isSome (by simpa using hfront)] at h
      have hdigits := ih hfront hd.1 fun _ => hhead
      have hpos : 0 < ofDigits front := by
        refine Nat.pos_of_ne_zero fun h => hhead ?_
        rw [← hdigits, h]
        rfl
      rw [digits_add hpos hlt, hdigits, hlast]

/-- Any digits are those of the number that they write, with zeros in front. -/
theorem eq_replicate_append_digits {cs : List Char} (hne : cs ≠ []) (hd : cs.all isDigit = true) :
    cs = List.replicate (cs.length - (digits (ofDigits cs)).length) '0' ++ digits (ofDigits cs) := by
  induction cs with
  | nil => exact absurd rfl hne
  | cons c cs ih =>
    by_cases hzero : cs ≠ [] ∧ c = '0'
    · obtain ⟨hcs, rfl⟩ := hzero
      have hrest := ih hcs (Bool.and_eq_true_iff.mp hd).2
      have hsame : ofDigits ('0' :: cs) = ofDigits cs := rfl
      have hlen := congrArg List.length hrest
      rw [List.length_append, List.length_replicate] at hlen
      rw [hsame, List.length_cons, Nat.succ_sub (by omega), List.replicate_succ, List.cons_append, ← hrest]
    · -- Without a superfluous zero there is nothing to put in front.
      have hdigits : digits (ofDigits (c :: cs)) = c :: cs := by
        refine digits_ofDigits hne hd fun hlen hhead => hzero ⟨?_, Option.some.inj hhead⟩
        rintro rfl
        exact Nat.lt_irrefl 1 hlen
      rw [hdigits, Nat.sub_self]
      rfl

/-- Reading a numeral strictly accepts the digits of the number and nothing else. -/
theorem readCanonical?_eq_some_iff {cs : List Char} {n : Nat} : readCanonical? cs = some n ↔ cs = digits n := by
  constructor
  · intro h
    rw [readCanonical?, read?] at h
    split at h
    · cases h
    · rename_i hzero
      split at h
      · rename_i hd
        rw [← Option.some.inj h]
        exact (digits_ofDigits hd.1 hd.2 fun hlen hhead => hzero ⟨hlen, hhead⟩).symm
      · cases h
  · rintro rfl
    exact readCanonical?_digits n

end AtomicGroup.Decimal
