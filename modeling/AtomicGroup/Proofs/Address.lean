import AtomicGroup.Address
import AtomicGroup.Proofs.Text.Bases

/-!
# Addresses and their texts

The text of an address names it: its 58 characters carry the octets and a checksum that agrees. They carry two bits
more, which have to be zero, so that no other text names the address; `Misspelt` says what a text that names none has.
-/
namespace AtomicGroup.Address

theorem length_checksum (bs : Bytes) : (checksum bs).length = 4 := by
  rw [checksum, List.length_drop, Sha512.length_digest256]

theorem length_guarded (a : Address) : (a.bytes ++ checksum a.bytes).length = 36 := by
  rw [List.length_append, length_bytes, length_checksum]

theorem ofText_text (a : Address) : ofText a.text = .ok a := by
  have hraw := length_guarded a
  have hsize : a.text.utf8ByteSize = 58 := by rw [text, Base32.utf8ByteSize_encode, hraw]
  have hdecode : Base32.decode? a.text = some (a.bytes ++ checksum a.bytes) := Base32.decode?_encode _
  have htake : (a.bytes ++ checksum a.bytes).take 32 = a.bytes := List.take_left' a.length_bytes
  have hdrop : (a.bytes ++ checksum a.bytes).drop 32 = checksum a.bytes := List.drop_left' a.length_bytes
  simp only [ofText, hsize, ne_eq, not_true_eq_false, if_false, hdecode, hraw, htake, hdrop]
  exact ofBytes_eq_ok_iff.mpr rfl

/-- No other text than its own names an address. -/
theorem ofText_eq_ok_iff {s : String} {a : Address} : ofText s = .ok a ↔ s = a.text := by
  constructor
  · intro h
    unfold ofText at h
    split at h
    · cases h
    · split at h
      · cases h
      · rename_i raw hraw
        split at h
        · cases h
        · split at h
          · cases h
          · rename_i hsum
            have htake := ofBytes_eq_ok_iff.mp h
            rw [Base32.decode?_eq_some_iff.mp hraw, text, htake, ← not_not.mp hsum, List.take_append_drop]
  · rintro rfl
    exact ofText_text a

inductive Misspelt (s : String) : Prop where
  | length (h : s.length ≠ 58)
  /-- A character that is no digit of base 32. -/
  | character (c : Char) (hmem : c ∈ s.toList) (h : c ∉ Base32.alphabet)
  /-- A last digit with a bit that is part of no octet. -/
  | trailing (c : Char) (n : Nat) (hlast : s.toList.getLast? = some c) (hvalue : Base32.value? c = some n)
      (h : n % 4 ≠ 0)
  /-- Four octets at the end that are not the checksum of those before. -/
  | checksum (bs : Block 32) (sum : Block 4) (hs : s = Base32.encode (bs.bytes ++ sum.bytes))
      (h : sum.bytes ≠ checksum bs.bytes)

/-- The two lowest bits of a digit are zero when four divides its value. -/
theorem drop_bits_eq_zeros_iff : ∀ n < 32, (BitGroups.bits 5 n).drop 3 = List.replicate 2 false ↔ n % 4 = 0 := by
  decide

/-- 58 digits are read when the last one leaves no bit set beyond the 36 octets. -/
theorem exists_decode?_iff {front : List Nat} {last : Nat} (hlen : front.length = 57) (hlt : last < 32) :
    (∃ bs : Bytes, BitGroups.decode? 5 (front ++ [last]) = some bs ∧ bs.length = 36) ↔ last % 4 = 0 := by
  have hfront : (front.flatMap (BitGroups.bits 5)).length = 285 := by rw [BitGroups.length_flatMap_bits, hlen]
  have hlast : (BitGroups.bits 5 last).length = 5 := BitGroups.length_bits 5 last
  have hbits : (front ++ [last]).flatMap (BitGroups.bits 5) =
      (front.flatMap (BitGroups.bits 5) ++ (BitGroups.bits 5 last).take 3) ++ (BitGroups.bits 5 last).drop 3 := by
    rw [List.flatMap_append, List.flatMap_singleton, List.append_assoc, List.take_append_drop]
  generalize hwhole : front.flatMap (BitGroups.bits 5) ++ (BitGroups.bits 5 last).take 3 = whole at hbits
  have hnum : whole.length = 8 * 36 := by
    rw [← hwhole, List.length_append, List.length_take, hfront, hlast]
    rfl
  rw [← drop_bits_eq_zeros_iff last hlt]
  simp only [BitGroups.decode?_eq_some_iff (show 5 ≤ 8 by decide), hbits]
  constructor
  · rintro ⟨bs, ⟨zeros, hzeros, heq⟩, hbs⟩
    have hoctets := BitGroups.length_bytesToBits bs
    obtain ⟨-, hrest⟩ := List.append_inj heq (by omega)
    have hcount := congrArg List.length hrest
    rw [List.length_drop, hlast, List.length_replicate] at hcount
    rw [hrest, ← hcount]
  · intro hrest
    obtain ⟨bs, hbs⟩ : ∃ bs, BitGroups.bytesToBits bs = whole := ⟨_, BitGroups.bytesToBits_map_ofBits_chunks hnum⟩
    refine ⟨bs, ⟨2, by decide, by rw [hbs, hrest]⟩, ?_⟩
    have hoctets := BitGroups.length_bytesToBits bs
    rw [hbs, hnum] at hoctets
    omega

theorem length_text (a : Address) : a.text.length = 58 := by
  rw [text, Base32.length_encode, length_guarded]

/-- A text of 58 digits is known by the values of its digits. -/
theorem exists_digits {s : String} (hlen : s.length = 58) (hdigits : ∀ c ∈ s.toList, c ∈ Base32.alphabet) :
    ∃ front last, front.length = 57 ∧ (∀ n ∈ front ++ [last], n < 32) ∧
      s.toList = (front ++ [last]).map Base32.digit := by
  obtain ⟨ns, hns, hs⟩ := Base32.exists_map_digit hdigits
  have hnum : ns.length = 58 := by rw [← hlen, ← String.length_toList, ← hs, List.length_map]
  have hne : ns ≠ [] := List.ne_nil_of_length_pos (by omega)
  have hsplit : ns.dropLast ++ [ns.getLast hne] = ns := List.dropLast_concat_getLast hne
  rw [← hsplit] at hns hs
  exact ⟨_, _, by rw [List.length_dropLast, hnum], hns, hs.symm⟩

/-- The octets that a text of 58 digits writes, if it does, are 36. -/
theorem decode?_of_digits {s : String} {front : List Nat} {last : Nat} (hlen : front.length = 57)
    (hlt : ∀ n ∈ front ++ [last], n < 32) (hs : s.toList = (front ++ [last]).map Base32.digit) :
    (∃ bs, Base32.decode? s = some bs ∧ bs.length = 36) ↔ last % 4 = 0 := by
  rw [← String.ofList_toList (s := s), hs, Base32.decode?_map_digit hlt]
  exact exists_decode?_iff hlen (hlt last (by simp))

theorem not_misspelt_text (a : Address) : ¬Misspelt a.text := by
  intro h
  cases h with
  | length h => exact h a.length_text
  | character c hmem h => exact h (Base32.mem_alphabet_of_mem_encode hmem)
  | trailing c n hlast hvalue h =>
    obtain ⟨front, last, hlen, hlt, hs⟩ := exists_digits a.length_text fun c => Base32.mem_alphabet_of_mem_encode
    rw [hs, List.map_append, List.map_singleton, List.getLast?_concat] at hlast
    obtain rfl := Option.some.inj hlast
    rw [Base32.value?_digit last (hlt last (by simp))] at hvalue
    obtain rfl := Option.some.inj hvalue
    exact h ((decode?_of_digits hlen hlt hs).mp ⟨_, Base32.decode?_encode _, a.length_guarded⟩)
  | checksum bs sum hs h =>
    obtain ⟨hbytes, hsum⟩ := List.append_inj (Base32.encode_injective hs) (by rw [length_bytes, bs.length_eq])
    rw [hbytes] at hsum
    exact h hsum.symm

/-- A text with nothing wrong is that of an address. -/
theorem exists_text_of_not_misspelt {s : String} (h : ¬Misspelt s) : ∃ a : Address, s = a.text := by
  have hlen : s.length = 58 := by
    by_contra hne
    exact h (.length hne)
  have hdigits : ∀ c ∈ s.toList, c ∈ Base32.alphabet := by
    intro c hc
    by_contra hne
    exact h (.character c hc hne)
  obtain ⟨front, last, hfront, hlt, hs⟩ := exists_digits hlen hdigits
  have hlast : last % 4 = 0 := by
    by_contra hne
    refine h (.trailing (Base32.digit last) last ?_ (Base32.value?_digit last (hlt last (by simp))) hne)
    rw [hs, List.map_append, List.map_singleton, List.getLast?_concat]
  obtain ⟨raw, hraw, hnum⟩ := (decode?_of_digits hfront hlt hs).mpr hlast
  have htext : s = Base32.encode (raw.take 32 ++ raw.drop 32) := by
    rw [List.take_append_drop]
    exact Base32.decode?_eq_some_iff.mp hraw
  have hsum : raw.drop 32 = checksum (raw.take 32) := by
    by_contra hne
    exact h (.checksum ⟨raw.take 32, by rw [List.length_take]; omega⟩ ⟨raw.drop 32, by rw [List.length_drop]; omega⟩
      htext hne)
  refine ⟨⟨raw.take 32, by rw [List.length_take]; omega⟩, ?_⟩
  rw [htext, hsum]
  rfl

/-- Addresses and the texts that name them are one to one, and a text that names none is misspelt. -/
theorem one_text_for_each_address :
    (∀ a : Address, a.text.length = 58 ∧ ofText a.text = .ok a) ∧
    (∀ s (a : Address), ofText s = .ok a → s = a.text) ∧
    (∀ s, (∃ e, ofText s = .error e) ↔ Misspelt s) ∧
    (∀ s c, c ∈ s.toList → c.isLower ∨ c = '=' → Misspelt s) := by
  refine ⟨fun a => ⟨a.length_text, ofText_text a⟩, fun s a => ofText_eq_ok_iff.mp, ?_, ?_⟩
  · intro s
    constructor
    · rintro ⟨e, he⟩
      by_contra hs
      obtain ⟨a, rfl⟩ := exists_text_of_not_misspelt hs
      rw [ofText_text] at he
      cases he
    · intro hs
      cases h : ofText s with
      | error e => exact ⟨e, rfl⟩
      | ok a =>
        rw [ofText_eq_ok_iff.mp h] at hs
        exact absurd hs a.not_misspelt_text
  · intro s c hc h
    exact .character c hc (Base32.not_mem_alphabet h)

def zeroText : String := "AAAAAAAAAAAAAAAAAAAAAAAAAAAAAAAAAAAAAAAAAAAAAAAAAAAAY5HFKQ"

theorem zeroText_one_text : ofText zeroText = .ok zero ∧ zeroText = zero.text ∧
    (∃ e, ofText zeroText.toLower = .error e) ∧ (∃ e, ofText (zeroText ++ "======") = .error e) := by
  have htext : zeroText = zero.text := by decide +kernel
  obtain ⟨hread, hone, hrefused, hforeign⟩ := one_text_for_each_address
  have hzero : ofText zeroText = .ok zero := by rw [htext, (hread zero).2]
  refine ⟨hzero, hone _ _ hzero, (hrefused _).mpr ?_, (hrefused _).mpr ?_⟩
  · exact hforeign _ 'y' (by decide +kernel) (by decide)
  · exact hforeign _ '=' (by decide +kernel) (by decide)

end AtomicGroup.Address
