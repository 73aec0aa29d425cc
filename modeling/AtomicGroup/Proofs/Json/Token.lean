import AtomicGroup.Json.Basic
import AtomicGroup.Json.Token
import AtomicGroup.Proofs.Text.Decimal

/-!
# The grammar of tokens

`Quoted` and `Number` are the grammar of what stands in a string and of numbers, and `Scalar` that of all values that are
neither arrays nor objects. A scalar is read as its value, whatever comes after it; only a digit, a point or the letter
of an exponent would go on with a number. The strings and the numerals that are printed follow the grammar.
-/
namespace AtomicGroup.Json

section Strings

/-- Four hexadecimal digits, of either case, and their number. -/
inductive Hex4 : Nat → List Char → Prop where
  | digits {a b c d : Char} {i j k l : Nat} (ha : Hex.value? a = some i) (hb : Hex.value? b = some j)
      (hc : Hex.value? c = some k) (hd : Hex.value? d = some l) :
      Hex4 (((i * 16 + j) * 16 + k) * 16 + l) [a, b, c, d]

/-- The first half of a character that takes two numbered escapes. -/
def High (n : Nat) : Prop := 0xD800 ≤ n ∧ n < 0xDC00

/-- The second half of such a character. -/
def Low (n : Nat) : Prop := 0xDC00 ≤ n ∧ n < 0xE000

/-- The texts of escapes after their backslash, with the characters that they have; a half alone is no character. -/
inductive Escape : Option Char → List Char → Prop where
  | letter {mark c : Char} (h : (mark, c) ∈ [('"', '"'), ('\\', '\\'), ('/', '/'), ('b', '\x08'), ('f', '\x0c'),
      ('n', '\n'), ('r', '\r'), ('t', '\t')]) : Escape (some c) [mark]
  | numbered {n : Nat} {hex : List Char} (h : Hex4 n hex) (hhigh : ¬High n) (hlow : ¬Low n) :
      Escape (some (Char.ofNat n)) ('u' :: hex)
  | halves {high low : Nat} {hex hex' : List Char} (h : Hex4 high hex) (h' : Hex4 low hex') (hhigh : High high)
      (hlow : Low low) : Escape (some (Char.ofNat (0x10000 + (high - 0xD800) * 0x400 + (low - 0xDC00))))
        ('u' :: (hex ++ '\\' :: 'u' :: hex'))
  | half {n : Nat} {hex : List Char} (h : Hex4 n hex) (hhalf : High n ∨ Low n) : Escape none ('u' :: hex)

/-- A text that does not begin with the escape of a second half. -/
def Apart (text : List Char) : Prop := ∀ low hex rest, Low low → Hex4 low hex → text ≠ '\\' :: 'u' :: (hex ++ rest)

/-- What stands between the quotes of a string, with its characters when there are no halves alone. -/
inductive Quoted : Option (List Char) → List Char → Prop where
  | nil : Quoted (some []) []
  | plain {c : Char} {cs? : Option (List Char)} {text : List Char} (hquote : c ≠ '"') (hslash : c ≠ '\\')
      (hcontrol : 0x20 ≤ c.toNat) (h : Quoted cs? text) : Quoted (cs?.map (c :: ·)) (c :: text)
  | escaped {c? : Option Char} {cs? : Option (List Char)} {escape text : List Char} (hescape : Escape c? escape)
      (hapart : c? = none → Apart text) (h : Quoted cs? text) :
      Quoted (do return (← c?) :: (← cs?)) ('\\' :: (escape ++ text))

theorem readHex4?_append {n : Nat} {hex : List Char} (h : Hex4 n hex) (rest : List Char) :
    readHex4? (hex ++ rest) = some (n, rest) := by
  obtain ⟨ha, hb, hc, hd⟩ := h
  simp only [List.cons_append, List.nil_append, readHex4?, ha, hb, hc, hd, Option.bind_eq_bind, Option.bind_some]
  rfl

theorem readLowSurrogate?_append {n : Nat} {hex : List Char} (h : Hex4 n hex) (hlow : Low n) (rest : List Char) :
    readLowSurrogate? ('\\' :: 'u' :: (hex ++ rest)) = some (n, rest) := by
  simp [readLowSurrogate?, readHex4?_append h, hlow.1, hlow.2]

/-- No second half is read where none stands, up to the closing quote. -/
theorem readLowSurrogate?_eq_none {cs? : Option (List Char)} {text : List Char} (h : Quoted cs? text)
    (hapart : Apart text) (rest : List Char) : readLowSurrogate? (text ++ '"' :: rest) = none := by
  have hhex {n : Nat} {hex later : List Char} (hread : Hex4 n hex) (hn : ¬Low n) :
      readLowSurrogate? ('\\' :: 'u' :: (hex ++ later)) = none := by
    simp only [readLowSurrogate?, readHex4?_append hread, Option.filter_some]
    refine if_neg fun h => hn ?_
    simpa [Low] using h
  cases h with
  | nil => rfl
  | plain hquote hslash hcontrol h =>
    rw [List.cons_append, readLowSurrogate?]
    intro later heq
    exact hslash (List.cons.inj heq).1
  | @escaped c? cs? escape text hescape _ h =>
    rw [List.cons_append, List.append_assoc]
    cases hescape with
    | letter hmark =>
      rw [List.singleton_append, readLowSurrogate?]
      rintro _ ⟨⟩
      simp at hmark
    | numbered hread _ hlow => exact hhex hread hlow
    | halves hread hread' hhigh hlow =>
      rw [List.cons_append, List.append_assoc]
      exact hhex hread fun hl => absurd hl.1 (Nat.not_le_of_lt hhigh.2)
    | @half n hex hread hhalf =>
      exact hhex hread fun hl => hapart n hex text hl hread (by rw [List.cons_append])

theorem readEscape?_append {c? : Option Char} {escape rest : List Char} (h : Escape c? escape)
    (hapart : c? = none → readLowSurrogate? rest = none) : readEscape? (escape ++ rest) = some (c?, rest) := by
  have hnumber (digits : List Char) : readEscape? ('u' :: digits) = readNumbered? digits := rfl
  cases h with
  | letter hmark =>
    simp only [List.mem_cons, Prod.mk.injEq, List.not_mem_nil, or_false] at hmark
    obtain ⟨rfl, rfl⟩ | ⟨rfl, rfl⟩ | ⟨rfl, rfl⟩ | ⟨rfl, rfl⟩ | ⟨rfl, rfl⟩ | ⟨rfl, rfl⟩ | ⟨rfl, rfl⟩ | ⟨rfl, rfl⟩ :=
      hmark <;> rfl
  | numbered hread hhigh hlow =>
    simp only [High, Low] at hhigh hlow
    simp only [List.cons_append, hnumber, readNumbered?, readHex4?_append hread, Option.bind_eq_bind, Option.bind_some,
      if_neg hhigh, if_neg hlow]
    rfl
  | halves hread hread' hhigh hlow =>
    have hsecond := readLowSurrogate?_append hread' hlow rest
    simp only [High] at hhigh
    simp only [List.cons_append, List.append_assoc, hnumber, readNumbered?, readHex4?_append hread, hsecond,
      Option.bind_eq_bind, Option.bind_some, if_pos hhigh]
    rfl
  | half hread hhalf =>
    simp only [List.cons_append, hnumber, readNumbered?, readHex4?_append hread, hapart rfl, Option.bind_eq_bind,
      Option.bind_some]
    rcases hhalf with hhigh | hlow
    · simp only [High] at hhigh
      simp only [if_pos hhigh]
      rfl
    · have hnot : ¬High _ := fun hhigh => absurd hlow.1 (Nat.not_le_of_lt hhigh.2)
      simp only [High, Low] at hnot hlow
      simp only [if_neg hnot, if_pos hlow]
      rfl

/-- What stands in a string is read up to the closing quote. -/
theorem readString?_append {cs? : Option (List Char)} {text : List Char} (h : Quoted cs? text) (rest : List Char) :
    ∀ fuel > text.length, readString? fuel (text ++ '"' :: rest) = some (cs?, rest) := by
  induction h with
  | nil =>
    intro fuel hfuel
    obtain ⟨fuel, rfl⟩ := Nat.exists_eq_succ_of_ne_zero (Nat.ne_of_gt hfuel)
    rfl
  | plain hquote hslash hcontrol _ ih =>
    intro fuel hfuel
    obtain ⟨fuel, rfl⟩ := Nat.exists_eq_succ_of_ne_zero (Nat.ne_of_gt (Nat.lt_of_le_of_lt (Nat.zero_le _) hfuel))
    rw [List.cons_append, readString?, if_neg hquote, if_neg hslash, if_neg (Nat.not_lt_of_le hcontrol),
      ih fuel (Nat.lt_of_succ_lt_succ hfuel)]
    rfl
  | @escaped c? cs? escape text hescape hapart htext ih =>
    intro fuel hfuel
    obtain ⟨fuel, rfl⟩ := Nat.exists_eq_succ_of_ne_zero (Nat.ne_of_gt (Nat.lt_of_le_of_lt (Nat.zero_le _) hfuel))
    have hlen : fuel > text.length := by
      rw [List.length_cons, List.length_append] at hfuel
      omega
    have hread := readEscape?_append hescape fun hnone => readLowSurrogate?_eq_none htext (hapart hnone) rest
    rw [List.cons_append, List.append_assoc, readString?, if_neg (by decide), if_pos rfl, hread]
    simp only [ih fuel hlen, Option.bind_eq_bind, Option.bind_some]
    rfl

theorem readText?_append {cs? : Option (List Char)} {text : List Char} (h : Quoted cs? text) (rest : List Char) :
    readText? ('"' :: (text ++ '"' :: rest)) = some (cs?.map String.ofList, rest) := by
  have hfuel : (text ++ '"' :: rest).length > text.length := by
    rw [List.length_append, List.length_cons]
    omega
  rw [readText?, readString?_append h rest _ hfuel]
  rfl

/-- The numbered escape of a control character. -/
theorem escape_control {c : Char} (h : c.toNat < 0x20) :
    Escape (some c) ['u', '0', '0', Hex.digit (c.toNat / 16), Hex.digit (c.toNat % 16)] := by
  have hzero : Hex.value? '0' = some 0 := rfl
  have hhex := Hex4.digits hzero hzero (Hex.value?_digit (c.toNat / 16) (by omega))
    (Hex.value?_digit (c.toNat % 16) (by omega))
  have hn : ((0 * 16 + 0) * 16 + c.toNat / 16) * 16 + c.toNat % 16 = c.toNat := by omega
  rw [hn] at hhex
  have hescape := Escape.numbered hhex (fun hhigh => by have := hhigh.1; omega) (fun hlow => by have := hlow.1; omega)
  rwa [Char.ofNat_toNat] at hescape

/-- A character is printed so that it stands for itself. -/
theorem quoted_escape (c : Char) {cs text : List Char} (h : Quoted (some cs) text) :
    Quoted (some (c :: cs)) (escape c ++ text) := by
  have hescaped {e : List Char} (he : Escape (some c) e) : Quoted (some (c :: cs)) ('\\' :: (e ++ text)) :=
    .escaped he nofun h
  unfold escape
  split
  · subst_vars; exact hescaped (.letter (by decide))
  split
  · subst_vars; exact hescaped (.letter (by decide))
  split
  · subst_vars; exact hescaped (.letter (by decide))
  split
  · subst_vars; exact hescaped (.letter (by decide))
  split
  · subst_vars; exact hescaped (.letter (by decide))
  split
  · subst_vars; exact hescaped (.letter (by decide))
  split
  · subst_vars; exact hescaped (.letter (by decide))
  split
  · exact hescaped (escape_control ‹_›)
  · rename_i hquote hslash _ _ _ _ _ hcontrol
    exact .plain hquote hslash (Nat.le_of_not_lt hcontrol) h

theorem quoted_flatMap_escape (cs : List Char) : Quoted (some cs) (cs.flatMap escape) := by
  induction cs with
  | nil => exact .nil
  | cons c cs ih => exact quoted_escape c ih

end Strings

section Numbers

/-- Whether a text does not go on with a number that stands before it. -/
def endsNumber : List Char → Bool
  | [] => true
  | c :: _ => !Decimal.isDigit c && c != '.' && c != 'e' && c != 'E'

structure Digits (ds : List Char) : Prop where
  ne_nil : ds ≠ []
  all : ds.all Decimal.isDigit = true

inductive Whole : List Char → Prop where
  | zero : Whole ['0']
  | digits {ds : List Char} (h : Digits ds) (hhead : ds.head? ≠ some '0') : Whole ds

inductive Fraction : List Char → Prop where
  | nil : Fraction []
  | places {ds : List Char} (h : Digits ds) : Fraction ('.' :: ds)

inductive Exponent : List Char → Prop where
  | nil : Exponent []
  | power {letter : Char} {sign ds : List Char} (hletter : letter = 'e' ∨ letter = 'E')
      (hsign : sign = [] ∨ sign = ['+'] ∨ sign = ['-']) (h : Digits ds) : Exponent (letter :: (sign ++ ds))

inductive Number : List Char → Prop where
  | parts {sign whole fraction exponent : List Char} (hsign : sign = [] ∨ sign = ['-']) (hwhole : Whole whole)
      (hfraction : Fraction fraction) (hexponent : Exponent exponent) :
      Number (sign ++ whole ++ fraction ++ exponent)

/-- The texts of numbers that are printed: an integer, or a decimal with at least one place. -/
inductive Numeral : List Char → Prop where
  | natural (n : Nat) : Numeral (Decimal.digits n)
  | negative (n : Nat) : Numeral ('-' :: Decimal.digits n)
  | decimal (n : Nat) {places : List Char} (hne : places ≠ []) (hd : places.all Decimal.isDigit = true) :
    Numeral (Decimal.digits n ++ '.' :: places)

/-- A run of digits begins with one. -/
theorem Digits.exists_cons {ds : List Char} (h : Digits ds) : ∃ d rest, ds = d :: rest ∧ Decimal.isDigit d = true := by
  obtain ⟨d, rest, rfl⟩ := List.exists_cons_of_ne_nil h.ne_nil
  exact ⟨d, rest, rfl, List.all_eq_true.mp h.all d List.mem_cons_self⟩

theorem Whole.exists_cons {whole : List Char} (h : Whole whole) :
    ∃ d rest, whole = d :: rest ∧ Decimal.isDigit d = true := by
  cases h with
  | zero => exact ⟨'0', [], rfl, rfl⟩
  | digits h _ => exact h.exists_cons

/-- A run of digits ends where no digit follows. -/
theorem readDigits?_append {ds rest : List Char} (h : Digits ds)
    (hrest : ∀ c ∈ rest.head?, Decimal.isDigit c = false) : readDigits? (ds ++ rest) = some (ds, rest) := by
  obtain ⟨htake, hdrop⟩ := Decimal.span_append h.all hrest
  rw [readDigits?, htake, hdrop]
  cases ds with
  | nil => exact absurd rfl h.ne_nil
  | cons d ds => rfl

theorem readWhole?_append {whole rest : List Char} (h : Whole whole)
    (hrest : ∀ c ∈ rest.head?, Decimal.isDigit c = false) : readWhole? (whole ++ rest) = some (whole, rest) := by
  cases h with
  | zero =>
    cases rest with
    | nil => rfl
    | cons c rest => simp [readWhole?, hrest c rfl]
  | digits h hhead =>
    have hread := readDigits?_append h hrest
    obtain ⟨d, ds, rfl, -⟩ := h.exists_cons
    unfold readWhole?
    split
    · rename_i heq
      cases heq
      exact absurd rfl hhead
    · exact hread

theorem readFraction?_append {fraction rest : List Char} (h : Fraction fraction)
    (hrest : ∀ c ∈ rest.head?, Decimal.isDigit c = false) (hpoint : rest.head? ≠ some '.') :
    readFraction? (fraction ++ rest) = some (fraction, rest) := by
  cases h with
  | nil =>
    rw [List.nil_append, readFraction?]
    rintro _ rfl
    exact hpoint rfl
  | places h =>
    rw [List.cons_append, readFraction?, readDigits?_append h hrest]
    rfl

theorem readExponent?_append {exponent rest : List Char} (h : Exponent exponent) (hrest : endsNumber rest = true) :
    readExponent? (exponent ++ rest) = some (exponent, rest) := by
  cases h with
  | nil =>
    cases rest with
    | nil => rfl
    | cons c rest =>
      simp only [endsNumber, Bool.and_eq_true, bne_iff_ne] at hrest
      rw [List.nil_append, readExponent?, if_neg (by rintro (rfl | rfl) <;> simp at hrest)]
  | @power letter sign ds hletter hsign h =>
    have hdigit : ∀ c ∈ rest.head?, Decimal.isDigit c = false := by
      cases rest with
      | nil => nofun
      | cons c rest =>
        rintro _ ⟨⟩
        simp only [endsNumber, Bool.and_eq_true, Bool.not_eq_true'] at hrest
        exact hrest.1.1.1
    have hdigits := readDigits?_append h hdigit
    have hsigned : readSignedDigits? (sign ++ ds ++ rest) = some (sign ++ ds, rest) := by
      obtain rfl | rfl | rfl := hsign
      · obtain ⟨d, ds, rfl, hd⟩ := h.exists_cons
        have hne : ¬(d = '+' ∨ d = '-') := by
          rintro (rfl | rfl) <;> cases hd
        rw [List.nil_append, List.cons_append, readSignedDigits?, if_neg hne]
        exact hdigits
      · simp only [List.cons_append, List.nil_append, readSignedDigits?, hdigits]
        rfl
      · simp only [List.cons_append, List.nil_append, readSignedDigits?, hdigits]
        rfl
    rw [List.cons_append, readExponent?, if_pos hletter, hsigned]
    rfl

/-- A number is read as its text. -/
theorem readNumber?_append {text rest : List Char} (h : Number text) (hrest : endsNumber rest = true) :
    readNumber? (text ++ rest) = some (text, rest) := by
  obtain ⟨hsign, hwhole, hfraction, hexponent⟩ := h
  rename_i sign whole fraction exponent
  -- What comes after the fraction is neither a digit nor a point, and what comes after the whole part is no digit.
  have hafter : (∀ c ∈ (exponent ++ rest).head?, Decimal.isDigit c = false) ∧ (exponent ++ rest).head? ≠ some '.' := by
    cases hexponent with
    | nil =>
      cases rest with
      | nil => exact ⟨nofun, nofun⟩
      | cons c rest =>
        simp only [endsNumber, Bool.and_eq_true, Bool.not_eq_true', bne_iff_ne] at hrest
        refine ⟨?_, fun heq => hrest.1.1.2 (Option.some.inj heq)⟩
        rintro _ ⟨⟩
        exact hrest.1.1.1
    | power hletter =>
      obtain rfl | rfl := hletter
      · exact ⟨by rintro _ ⟨⟩; rfl, by rintro ⟨⟩⟩
      · exact ⟨by rintro _ ⟨⟩; rfl, by rintro ⟨⟩⟩
  have hnodigit : ∀ c ∈ (fraction ++ (exponent ++ rest)).head?, Decimal.isDigit c = false := by
    cases hfraction with
    | nil => exact hafter.1
    | places _ =>
      rintro _ ⟨⟩
      rfl
  have hreadWhole := readWhole?_append hwhole hnodigit
  have hreadFraction := readFraction?_append hfraction hafter.1 hafter.2
  have hreadExponent := readExponent?_append hexponent hrest
  rw [List.append_assoc, List.append_assoc, List.append_assoc]
  obtain rfl | rfl := hsign
  · obtain ⟨d, ds, rfl, hd⟩ := hwhole.exists_cons
    unfold readNumber?
    split
    rename_i heq
    split at heq
    · rename_i hminus
      cases hminus
      cases hd
    · cases heq
      simp only [List.nil_append, hreadWhole, hreadFraction, hreadExponent, Option.bind_eq_bind, Option.bind_some]
      rfl
  · simp only [readNumber?, List.cons_append, List.nil_append, hreadWhole, hreadFraction, hreadExponent,
      Option.bind_eq_bind, Option.bind_some]
    rfl

theorem whole_digits (n : Nat) : Whole (Decimal.digits n) := by
  cases n with
  | zero => exact .zero
  | succ n => exact .digits ⟨Decimal.digits_ne_nil _, Decimal.all_isDigit_digits _⟩ (Decimal.head?_digits n.succ_pos)

/-- What is printed follows the grammar. -/
theorem Numeral.number {text : List Char} (h : Numeral text) : Number text := by
  cases h with
  | natural n =>
    have hparts := Number.parts (.inl rfl) (whole_digits n) .nil .nil
    rwa [List.nil_append, List.append_nil, List.append_nil] at hparts
  | negative n =>
    have hparts := Number.parts (.inr rfl) (whole_digits n) .nil .nil
    rwa [List.append_nil, List.append_nil] at hparts
  | decimal n hne hd =>
    have hparts := Number.parts (.inl rfl) (whole_digits n) (.places ⟨hne, hd⟩) .nil
    rwa [List.nil_append, List.append_nil] at hparts

def startsNumber (c : Char) : Bool := c == '-' || Decimal.isDigit c

theorem Number.exists_cons {text : List Char} (h : Number text) : ∃ c cs, text = c :: cs ∧ startsNumber c = true := by
  obtain ⟨hsign, hwhole, -, -⟩ := h
  obtain rfl | rfl := hsign
  · obtain ⟨d, ds, rfl, hd⟩ := hwhole.exists_cons
    exact ⟨d, _, rfl, by rw [startsNumber, hd, Bool.or_true]⟩
  · exact ⟨'-', _, rfl, rfl⟩

theorem ne_of_startsNumber {c d : Char} (hc : startsNumber c = true) (hd : startsNumber d = false) : c ≠ d := by
  rintro rfl
  rw [hc] at hd
  cases hd

end Numbers

section Scalars

/-- The texts of values that are neither arrays nor objects. A string with a half alone has no content. -/
inductive Scalar : Json → List Char → Prop where
  | null : Scalar .null ['n', 'u', 'l', 'l']
  | bool (b : Bool) : Scalar (.bool b) (if b then ['t', 'r', 'u', 'e'] else ['f', 'a', 'l', 's', 'e'])
  | number {text : List Char} (h : Number text) : Scalar (.number (String.ofList text)) text
  | string {cs? : Option (List Char)} {text : List Char} (h : Quoted cs? text) :
      Scalar ((cs?.map fun cs => .string (String.ofList cs)).getD .unreadable) ('"' :: (text ++ ['"']))

/-- Only a number begins like one. -/
theorem readScalar?_of_startsNumber {c : Char} {cs : List Char} (h : startsNumber c = true) :
    readScalar? (c :: cs) = (readNumber? (c :: cs)).map fun (text, rest) => (.number (String.ofList text), rest) := by
  have hne {d : Char} (hd : startsNumber d = false) : c ≠ d := ne_of_startsNumber h hd
  unfold readScalar?
  split
  · exact absurd (List.cons.inj ‹_›).1 (hne rfl)
  · exact absurd (List.cons.inj ‹_›).1 (hne rfl)
  · exact absurd (List.cons.inj ‹_›).1 (hne rfl)
  · exact absurd (List.cons.inj ‹_›).1 (hne rfl)
  · rfl

/-- A scalar is read as its value. -/
theorem readScalar?_append {value : Json} {text rest : List Char} (h : Scalar value text)
    (hrest : endsNumber rest = true) : readScalar? (text ++ rest) = some (value, rest) := by
  cases h with
  | null => rfl
  | bool b => cases b <;> rfl
  | number h =>
    have hread := readNumber?_append h hrest
    obtain ⟨c, cs, rfl, hc⟩ := h.exists_cons
    rw [List.cons_append] at hread ⊢
    rw [readScalar?_of_startsNumber hc, hread]
    rfl
  | @string cs? text h =>
    have hread := readText?_append h rest
    rw [List.cons_append, List.append_assoc, List.singleton_append, readScalar?, hread]
    cases cs? <;> rfl

end Scalars

end AtomicGroup.Json
