import AtomicGroup.Abi.Ty.Parser
import AtomicGroup.Proofs.Abi.Split
import AtomicGroup.Proofs.Abi.Ty
import AtomicGroup.Proofs.Outcome
import AtomicGroup.Proofs.Text.Decimal

/-!
# Types and their names

Reading a name undoes printing it, and accepts nothing that printing does not produce. Both directions go by the
outermost shape of a name, which is printed in one way and recognised in that way only.
-/
namespace AtomicGroup.Abi.Ty

open Outcome

/-- A width that numbers may have: whole octets, and no more than `maxBits`. -/
def IsWidth (bits : Nat) : Prop := 8 ≤ bits ∧ bits ≤ maxBits ∧ bits % 8 = 0

def IsPrecision (precision : Nat) : Prop := 1 ≤ precision ∧ precision ≤ maxPrecision

mutual

/-- What keeps to the bounds of the type language: widths, precisions, and lengths of arrays of 64 bits. -/
def WithinBounds : Ty → Prop
  | .uint bits => IsWidth bits
  | .ufixed bits precision => IsWidth bits ∧ IsPrecision precision
  | .array elem length => elem.WithinBounds ∧ length < UInt64.size
  | .list elem => elem.WithinBounds
  | .tuple members => AllWithinBounds members
  | _ => True

def AllWithinBounds : List Ty → Prop
  | [] => True
  | t :: ts => t.WithinBounds ∧ AllWithinBounds ts

end

theorem allWithinBounds_iff {ts : List Ty} : AllWithinBounds ts ↔ ∀ t ∈ ts, t.WithinBounds := by
  induction ts with
  | nil => simp [AllWithinBounds]
  | cons t ts ih => simp [AllWithinBounds, ih]

theorem memberChars_eq_map (ts : List Ty) : memberChars ts = ts.map chars := by
  induction ts with
  | nil => rfl
  | cons t ts ih => rw [memberChars, ih, List.map_cons]

section Chars

-- One equation for each type with parts or numbers, so that no proof has to unfold the names of all types.

theorem chars_uint (bits : Nat) : (Ty.uint bits).chars = "uint".toList ++ Decimal.digits bits := rfl

theorem chars_ufixed (bits precision : Nat) :
    (Ty.ufixed bits precision).chars = "ufixed".toList ++ (Decimal.digits bits ++ 'x' :: Decimal.digits precision) :=
  List.append_assoc _ _ _

theorem chars_array (elem : Ty) (length : Nat) :
    (Ty.array elem length).chars = elem.chars ++ '[' :: Decimal.digits length ++ [']'] := rfl

theorem chars_list (elem : Ty) : (Ty.list elem).chars = elem.chars ++ ['[', ']'] := rfl

theorem chars_tuple (members : List Ty) :
    (Ty.tuple members).chars = '(' :: (List.intercalate [','] (members.map chars) ++ [')']) := by
  rw [← memberChars_eq_map]
  rfl

end Chars

section Numerals

theorem readLength?_eq_some_iff {text : List Char} {n : Nat} :
    readLength? text = some n ↔ text = Decimal.digits n ∧ n < UInt64.size := by
  simp [readLength?, Option.filter_eq_some_iff, Decimal.readCanonical?_eq_some_iff]

theorem readBits?_eq_some_iff {text : List Char} {bits : Nat} :
    readBits? text = some bits ↔ text = Decimal.digits bits ∧ IsWidth bits := by
  have hsize : maxBits < UInt64.size := by decide
  simp only [readBits?, Option.filter_eq_some_iff, readLength?_eq_some_iff, IsWidth, Bool.and_eq_true,
    decide_eq_true_eq, beq_iff_eq]
  constructor
  · rintro ⟨⟨rfl, -⟩, ⟨hlow, hhigh⟩, hmod⟩
    exact ⟨rfl, hlow, hhigh, hmod⟩
  · rintro ⟨rfl, hlow, hhigh, hmod⟩
    exact ⟨⟨rfl, by omega⟩, ⟨hlow, hhigh⟩, hmod⟩

theorem readPrecision?_eq_some_iff {text : List Char} {precision : Nat} :
    readPrecision? text = some precision ↔ text = Decimal.digits precision ∧ IsPrecision precision := by
  have hsize : maxPrecision < UInt64.size := by decide
  simp only [readPrecision?, Option.filter_eq_some_iff, readLength?_eq_some_iff, IsPrecision, Bool.and_eq_true,
    decide_eq_true_eq]
  constructor
  · rintro ⟨⟨rfl, -⟩, hrange⟩
    exact ⟨rfl, hrange⟩
  · rintro ⟨rfl, hlow, hhigh⟩
    exact ⟨⟨rfl, by omega⟩, hlow, hhigh⟩

theorem not_mem_digits {c : Char} (h : Decimal.isDigit c = false) (n : Nat) : c ∉ Decimal.digits n := by
  intro hc
  rw [Decimal.isDigit_of_mem_digits hc] at h
  cases h

theorem readUfixed?_eq_some_iff {text : List Char} {t : Ty} :
    readUfixed? text = some t ↔
      ∃ bits precision, t = .ufixed bits precision ∧ IsWidth bits ∧ IsPrecision precision ∧
        text = Decimal.digits bits ++ 'x' :: Decimal.digits precision := by
  simp only [readUfixed?, Option.bind_eq_bind, Option.bind_eq_some_iff, Prod.exists, splitFirst?_eq_some_iff,
    readBits?_eq_some_iff, readPrecision?_eq_some_iff, Option.pure_def, Option.some.injEq]
  constructor
  · rintro ⟨_, _, ⟨rfl, -⟩, bits, ⟨rfl, hbits⟩, precision, ⟨rfl, hprecision⟩, rfl⟩
    exact ⟨bits, precision, rfl, hbits, hprecision, rfl⟩
  · rintro ⟨bits, precision, rfl, hbits, hprecision, rfl⟩
    exact ⟨_, _, ⟨rfl, not_mem_digits (by decide) bits⟩, bits, ⟨rfl, hbits⟩, precision, ⟨rfl, hprecision⟩, rfl⟩

end Numerals

section Plain

/-- Whether a character is neither a bracket nor a comma. -/
def isWordChar (c : Char) : Bool := c != '(' && c != ')' && c != ',' && c != '[' && c != ']'

theorem isWordChar_of_isDigit {c : Char} (h : Decimal.isDigit c = true) : isWordChar c = true := by
  simp only [isWordChar, Bool.and_eq_true, bne_iff_ne]
  refine ⟨⟨⟨⟨?_, ?_⟩, ?_⟩, ?_⟩, ?_⟩ <;> (rintro rfl; cases h)

theorem isWordChar_of_mem_digits {n : Nat} {c : Char} (h : c ∈ Decimal.digits n) : isWordChar c = true :=
  isWordChar_of_isDigit (Decimal.isDigit_of_mem_digits h)

theorem flat_of_isWordChar {c : Char} (h : isWordChar c = true) : c ≠ '(' ∧ c ≠ ')' ∧ c ≠ ',' := by
  simp only [isWordChar, Bool.and_eq_true, bne_iff_ne] at h
  exact ⟨h.1.1.1.1, h.1.1.1.2, h.1.1.2⟩

/-- Whether a type has no parts. -/
def isPlain : Ty → Bool
  | .array _ _ => false
  | .list _ => false
  | .tuple _ => false
  | _ => true

/-- The name of a type without parts has no brackets and no commas. -/
theorem all_isWordChar_chars {t : Ty} (h : t.isPlain) : t.chars.all isWordChar = true := by
  cases t with
  | uint bits =>
    rw [chars_uint, List.all_append, Bool.and_eq_true]
    exact ⟨by decide, List.all_eq_true.mpr fun _ => isWordChar_of_mem_digits⟩
  | ufixed bits precision =>
    simp only [chars_ufixed, List.all_append, List.all_cons, Bool.and_eq_true]
    exact ⟨by decide, List.all_eq_true.mpr fun _ => isWordChar_of_mem_digits, by decide,
      List.all_eq_true.mpr fun _ => isWordChar_of_mem_digits⟩
  | byte => decide
  | bool => decide
  | address => decide
  | string => decide
  | _ => cases h

theorem ofPlain?_chars {t : Ty} (hp : t.isPlain) (h : t.WithinBounds) : ofPlain? t.chars = some t := by
  cases t with
  | uint bits =>
    have hdrop : dropStart? "uint".toList (Ty.uint bits).chars = some (Decimal.digits bits) :=
      dropStart?_eq_some_iff.mpr rfl
    rw [ofPlain?, hdrop]
    exact congrArg (Option.map uint) (readBits?_eq_some_iff.mpr ⟨rfl, h⟩)
  | ufixed bits precision =>
    have huint : dropStart? "uint".toList (Ty.ufixed bits precision).chars = none := rfl
    rw [ofPlain?, huint]
    simp only [dropStart?_eq_some_iff.mpr (chars_ufixed bits precision)]
    exact readUfixed?_eq_some_iff.mpr ⟨bits, precision, rfl, h.1, h.2, rfl⟩
  | byte => rfl
  | bool => rfl
  | address => rfl
  | string => rfl
  | _ => cases hp

theorem chars_of_ofWord? {text : List Char} {t : Ty} (h : ofWord? text = some t) :
    t.WithinBounds ∧ t.chars = text := by
  have hchars : t.chars = text := by simpa using List.find?_some h
  have hmem := List.mem_of_find?_eq_some h
  refine ⟨?_, hchars⟩
  simp only [List.mem_cons, List.not_mem_nil, or_false] at hmem
  obtain rfl | rfl | rfl | rfl := hmem <;> trivial

theorem chars_of_ofPlain? {text : List Char} {t : Ty} (h : ofPlain? text = some t) :
    t.WithinBounds ∧ t.chars = text := by
  rw [ofPlain?] at h
  split at h
  · rename_i rest hrest
    obtain ⟨bits, hbits, rfl⟩ := Option.map_eq_some_iff.mp h
    obtain ⟨rfl, hwidth⟩ := readBits?_eq_some_iff.mp hbits
    exact ⟨hwidth, (dropStart?_eq_some_iff.mp hrest).symm⟩
  · split at h
    · rename_i rest hrest
      obtain ⟨bits, precision, rfl, hbits, hprecision, rfl⟩ := readUfixed?_eq_some_iff.mp h
      exact ⟨⟨hbits, hprecision⟩, by rw [dropStart?_eq_some_iff.mp hrest, chars_ufixed]⟩
    · exact chars_of_ofWord? h

end Plain

section Shapes

/-- A text that does not end with a bracket that closes an array. -/
theorem dropEnd?_of_last (ending text : List Char) {c d : Char} (h : c ≠ d) :
    dropEnd? (ending ++ [c]) (text ++ [d]) = none := by
  rw [Option.eq_none_iff_forall_ne_some]
  intro rest hrest
  have heq := dropEnd?_eq_some_iff.mp hrest
  rw [← List.append_assoc] at heq
  exact h (List.singleton_inj.mp (List.append_inj_right' heq rfl)).symm

theorem shape?_list (elem : List Char) : shape? (elem ++ ['[', ']']) = some (.list elem) := by
  have hend : dropEnd? "[]".toList (elem ++ ['[', ']']) = some elem := dropEnd?_eq_some_iff.mpr rfl
  rw [shape?, hend]

theorem shape?_array (elem : List Char) {length : Nat} (h : length < UInt64.size) :
    shape? (elem ++ '[' :: Decimal.digits length ++ [']']) = some (.array elem length) := by
  have hlist : dropEnd? "[]".toList (elem ++ '[' :: Decimal.digits length ++ [']']) = none := by
    rw [Option.eq_none_iff_forall_ne_some]
    intro rest hrest
    have hlast : elem ++ '[' :: Decimal.digits length = rest ++ ['['] := by
      have heq := dropEnd?_eq_some_iff.mp hrest
      rw [show "[]".toList = ['['] ++ [']'] from rfl, ← List.append_assoc] at heq
      exact List.append_cancel_right heq
    -- A length is not empty, so that a digit stands before the bracket.
    have hmem : '[' ∈ Decimal.digits length := by
      rw [← List.dropLast_append_getLast (Decimal.digits_ne_nil length), ← List.cons_append,
        ← List.append_assoc] at hlast
      have hget := List.singleton_inj.mp (List.append_inj_right' hlast rfl)
      rw [← hget]
      exact List.getLast_mem _
    exact not_mem_digits (by decide) length hmem
  have harray : dropEnd? [']'] (elem ++ '[' :: Decimal.digits length ++ [']']) =
      some (elem ++ '[' :: Decimal.digits length) := dropEnd?_eq_some_iff.mpr rfl
  have hcut : splitLast? '[' (elem ++ '[' :: Decimal.digits length) = some (elem, Decimal.digits length) :=
    splitLast?_append (not_mem_digits (by decide) length) elem
  have hlength : readLength? (Decimal.digits length) = some length := readLength?_eq_some_iff.mpr ⟨rfl, h⟩
  rw [shape?, hlist]
  simp only [harray, hcut, hlength, Option.bind_eq_bind, Option.bind_some]
  rfl

theorem shape?_tuple {members : List (List Char)} (h : ∀ m ∈ members, IsPart m) :
    shape? ('(' :: (List.intercalate [','] members ++ [')'])) = some (.tuple members) := by
  have hlist : dropEnd? "[]".toList ('(' :: (List.intercalate [','] members ++ [')'])) = none :=
    dropEnd?_of_last ['['] ('(' :: List.intercalate [','] members) (by decide)
  have harray : dropEnd? [']'] ('(' :: (List.intercalate [','] members ++ [')'])) = none :=
    dropEnd?_of_last [] ('(' :: List.intercalate [','] members) (by decide)
  have hstart : dropStart? ['('] ('(' :: (List.intercalate [','] members ++ [')'])) =
      some (List.intercalate [','] members ++ [')']) := dropStart?_eq_some_iff.mpr rfl
  have hend : dropEnd? [')'] (List.intercalate [','] members ++ [')']) = some (List.intercalate [','] members) :=
    dropEnd?_eq_some_iff.mpr rfl
  rw [shape?, hlist]
  simp only [harray, hstart, hend, splitTopLevel_intercalate h, Option.bind_eq_bind, Option.bind_some]
  rfl

theorem shape?_of_word {text : List Char} (h : text.all isWordChar = true) :
    shape? text = (ofPlain? text).map .plain := by
  have hword {c : Char} (hc : c ∈ text) : isWordChar c = true := List.all_eq_true.mp h c hc
  have hend {ending : List Char} (hmem : ']' ∈ ending) : dropEnd? ending text = none := by
    rw [Option.eq_none_iff_forall_ne_some]
    intro rest hrest
    have hin : ']' ∈ text := dropEnd?_eq_some_iff.mp hrest ▸ List.mem_append_right _ hmem
    cases hword hin
  have hstart : dropStart? ['('] text = none := by
    rw [Option.eq_none_iff_forall_ne_some]
    intro rest hrest
    have hin : '(' ∈ text := dropStart?_eq_some_iff.mp hrest ▸ List.mem_cons_self
    cases hword hin
  rw [shape?, hend (by decide)]
  simp only [hend (List.mem_singleton.mpr rfl), hstart]

def Shape.chars : Shape → List Char
  | .list elem => elem ++ ['[', ']']
  | .array elem length => elem ++ '[' :: Decimal.digits length ++ [']']
  | .tuple members => '(' :: (List.intercalate [','] members ++ [')'])
  | .plain t => t.chars

/-- What the bounds ask of a shape, its parts apart. -/
def Shape.WithinBounds : Shape → Prop
  | .array _ length => length < UInt64.size
  | .plain t => t.WithinBounds
  | _ => True

/-- A shape is recognised only in its text. -/
theorem chars_of_shape? {text : List Char} {s : Shape} (h : shape? text = some s) :
    s.WithinBounds ∧ s.chars = text := by
  rw [shape?] at h
  split at h
  · rename_i elem helem
    cases h
    exact ⟨trivial, (dropEnd?_eq_some_iff.mp helem).symm⟩
  · split at h
    · rename_i body hbody
      simp only [Option.bind_eq_bind, Option.bind_eq_some_iff, Prod.exists, Option.pure_def, Option.some.injEq,
        readLength?_eq_some_iff] at h
      obtain ⟨elem, numeral, hcut, length, ⟨rfl, hlength⟩, rfl⟩ := h
      refine ⟨hlength, ?_⟩
      rw [dropEnd?_eq_some_iff.mp hbody, append_of_splitLast? hcut]
      rfl
    · split at h
      · rename_i body hbody
        simp only [Option.bind_eq_bind, Option.bind_eq_some_iff, Option.pure_def, Option.some.injEq] at h
        obtain ⟨inner, hinner, members, hmembers, rfl⟩ := h
        refine ⟨trivial, ?_⟩
        rw [dropStart?_eq_some_iff.mp hbody, dropEnd?_eq_some_iff.mp hinner,
          ← intercalate_of_splitTopLevel hmembers]
        rfl
      · obtain ⟨t, ht, rfl⟩ := Option.map_eq_some_iff.mp h
        exact chars_of_ofPlain? ht

end Shapes

section Whole

theorem chars_ne_nil (t : Ty) : t.chars ≠ [] := by
  cases t with
  | array elem length => rw [chars_array]; simp
  | list elem => rw [chars_list]; simp
  | _ => exact List.cons_ne_nil _ _

/-- The name of a type leaves every depth as it is: a tuple closes what it opens. -/
theorem depthAfter_chars (t : Ty) : ∀ depth, depthAfter depth t.chars = some depth := by
  have hflat {cs : List Char} (h : ∀ c ∈ cs, c ≠ '(' ∧ c ≠ ')' ∧ c ≠ ',') (depth : Nat) :
      depthAfter depth cs = some depth := depthAfter_of_flat h depth
  have hplain {t : Ty} (h : t.isPlain) (depth : Nat) : depthAfter depth t.chars = some depth :=
    hflat (fun c hc => flat_of_isWordChar (List.all_eq_true.mp (all_isWordChar_chars h) c hc)) depth
  induction t using induct with
  | array elem length ih =>
    intro depth
    rw [chars_array, List.append_assoc, depthAfter_append (ih depth)]
    refine hflat ?_ depth
    intro c hc
    simp only [List.cons_append, List.mem_cons, List.mem_append, List.not_mem_nil, or_false] at hc
    obtain rfl | hc | rfl := hc
    · decide
    · exact flat_of_isWordChar (isWordChar_of_mem_digits hc)
    · decide
  | list elem ih =>
    intro depth
    rw [chars_list, depthAfter_append (ih depth)]
    exact hflat (by simp) depth
  | tuple members ih =>
    intro depth
    have hmembers : ∀ p ∈ members.map chars, depthAfter (depth + 1) p = some (depth + 1) := by
      intro p hp
      obtain ⟨t, ht, rfl⟩ := List.mem_map.mp hp
      exact ih t ht (depth + 1)
    have hinside := depthAfter_intercalate hmembers
    rw [chars_tuple, depthAfter_open, depthAfter_append hinside, depthAfter_close, depthAfter_nil]
  | uint bits => exact hplain rfl
  | ufixed bits precision => exact hplain rfl
  | byte => exact hplain rfl
  | bool => exact hplain rfl
  | address => exact hplain rfl
  | string => exact hplain rfl

theorem isPart_chars (t : Ty) : IsPart t.chars := ⟨chars_ne_nil t, depthAfter_chars t 0⟩

/-- Reading the name of a type gives the type. -/
theorem parseUpTo_chars (t : Ty) :
    t.WithinBounds → ∀ fuel, t.chars.length < fuel → parseUpTo fuel t.chars = .ok t := by
  have hplain {t : Ty} (hp : t.isPlain) (h : t.WithinBounds) (fuel : Nat) (hfuel : t.chars.length < fuel) :
      parseUpTo fuel t.chars = .ok t := by
    cases fuel with
    | zero => exact absurd hfuel (Nat.not_lt_zero _)
    | succ fuel =>
      rw [parseUpTo, shape?_of_word (all_isWordChar_chars hp), ofPlain?_chars hp h]
      rfl
  induction t using induct with
  | array elem length ih =>
    intro h fuel hfuel
    cases fuel with
    | zero => exact absurd hfuel (Nat.not_lt_zero _)
    | succ fuel =>
      have helem := ih h.1 fuel (by simp only [chars_array, List.length_append, List.length_cons] at hfuel; omega)
      rw [parseUpTo, chars_array, shape?_array _ h.2]
      simp only [helem, ok_bind]
      rfl
  | list elem ih =>
    intro h fuel hfuel
    cases fuel with
    | zero => exact absurd hfuel (Nat.not_lt_zero _)
    | succ fuel =>
      have helem := ih h fuel (by simp only [chars_list, List.length_append, List.length_cons] at hfuel; omega)
      rw [parseUpTo, chars_list, shape?_list]
      simp only [helem, ok_bind]
      rfl
  | tuple members ih =>
    intro h fuel hfuel
    cases fuel with
    | zero => exact absurd hfuel (Nat.not_lt_zero _)
    | succ fuel =>
      have hparts : ∀ p ∈ members.map chars, IsPart p := by
        intro p hp
        obtain ⟨t, -, rfl⟩ := List.mem_map.mp hp
        exact isPart_chars t
      have hread : (members.map chars).mapM (parseUpTo fuel) = .ok members := by
        rw [mapM_eq_ok, List.forall₂_map_left_iff, List.forall₂_same]
        intro t ht
        refine ih t ht (allWithinBounds_iff.mp h t ht) fuel ?_
        have hle := length_le_intercalate (List.mem_map_of_mem (f := chars) ht)
        simp only [chars_tuple, List.length_cons, List.length_append] at hfuel
        omega
      rw [parseUpTo, chars_tuple, shape?_tuple hparts]
      simp only [hread, ok_bind]
      rfl
  | uint bits => exact hplain rfl
  | ufixed bits precision => exact hplain rfl
  | byte => exact hplain rfl
  | bool => exact hplain rfl
  | address => exact hplain rfl
  | string => exact hplain rfl

theorem chars_of_forall₂ {texts : List (List Char)} {ts : List Ty}
    (h : List.Forall₂ (fun text t => t.WithinBounds ∧ t.chars = text) texts ts) :
    AllWithinBounds ts ∧ ts.map chars = texts := by
  induction h with
  | nil => exact ⟨trivial, rfl⟩
  | cons ht _ ih =>
    obtain ⟨hin, rfl⟩ := ht
    exact ⟨⟨hin, ih.1⟩, by rw [List.map_cons, ih.2]⟩

/-- What is read as a type keeps to the bounds and is the type's name. -/
theorem chars_of_parseUpTo {fuel : Nat} {text : List Char} {t : Ty} (h : parseUpTo fuel text = .ok t) :
    t.WithinBounds ∧ t.chars = text := by
  induction fuel generalizing text t with
  | zero => cases h
  | succ fuel ih =>
    rw [parseUpTo] at h
    cases hs : shape? text with
    | none => rw [hs] at h; cases h
    | some s =>
      rw [hs] at h
      obtain ⟨hbounds, rfl⟩ := chars_of_shape? hs
      cases s with
      | list elem =>
        obtain ⟨u, hu, hp⟩ := bind_eq_ok.mp h
        obtain rfl := pure_eq_ok.mp hp
        obtain ⟨hin, rfl⟩ := ih hu
        exact ⟨hin, rfl⟩
      | array elem length =>
        obtain ⟨u, hu, hp⟩ := bind_eq_ok.mp h
        obtain rfl := pure_eq_ok.mp hp
        obtain ⟨hin, rfl⟩ := ih hu
        exact ⟨⟨hin, hbounds⟩, rfl⟩
      | tuple members =>
        obtain ⟨us, hus, hp⟩ := bind_eq_ok.mp h
        obtain rfl := pure_eq_ok.mp hp
        obtain ⟨hin, hchars⟩ := chars_of_forall₂ ((mapM_eq_ok.mp hus).imp fun _ _ => ih)
        exact ⟨hin, by rw [chars_tuple, hchars, Shape.chars]⟩
      | plain u =>
        cases h
        exact ⟨hbounds, rfl⟩

theorem parse_name {t : Ty} (h : t.WithinBounds) : parse t.name = .ok t := by
  rw [parse, parseChars, name, String.toList_ofList]
  exact parseUpTo_chars t h _ (Nat.lt_succ_self _)

theorem name_of_parse {text : String} {t : Ty} (h : parse text = .ok t) : t.WithinBounds ∧ t.name = text := by
  obtain ⟨hin, hchars⟩ := chars_of_parseUpTo h
  exact ⟨hin, by rw [name, hchars, String.ofList_toList]⟩

/-- A text names a type exactly when it is the one name of that type, whose widths, precisions and lengths keep to
their bounds. -/
theorem parse_eq_ok_iff {text : String} {t : Ty} : parse text = .ok t ↔ t.WithinBounds ∧ t.name = text := by
  constructor
  · exact name_of_parse
  · rintro ⟨hin, rfl⟩
    exact parse_name hin

example : parse "(uint64,())[2][]" = .ok (.list (.array (.tuple [.uint 64, .tuple []]) 2)) := by rfl

end Whole

end AtomicGroup.Abi.Ty
