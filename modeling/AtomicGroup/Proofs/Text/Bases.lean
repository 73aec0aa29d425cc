import AtomicGroup.Proofs.Text.BitGroups
import AtomicGroup.Proofs.Text.Decimal
import AtomicGroup.Text.Bases

/-!
# Texts of base 32 and base 64

Both read back what they write: the digits of a byte string are those of its groups of bits, and the filling of base 64
is the one that the number of its digits asks for. No other text is read in either base. What is told of a text that
base 64 refuses stands where it is told to.
-/
namespace AtomicGroup

/-- Values that each have a digit are read back from their digits. -/
theorem mapM_value?_digit {digit : Nat → Char} {value? : Char → Option Nat} {bound : Nat}
    (hdigit : ∀ n < bound, value? (digit n) = some n) {ns : List Nat} (h : ∀ n ∈ ns, n < bound) :
    (ns.map digit).mapM value? = some ns := by
  induction ns with
  | nil => rfl
  | cons n ns ih =>
    have hn := hdigit n (h n List.mem_cons_self)
    have hns := ih fun m hm => h m (List.mem_cons_of_mem _ hm)
    simp only [List.map_cons, List.mapM_cons, hn, hns, Option.bind_eq_bind, Option.bind_some]
    rfl

/-- A character stands where it is found. -/
theorem getD_of_findIdx?_eq_some {alphabet : List Char} {c fallback : Char} {n : Nat}
    (h : alphabet.findIdx? (· == c) = some n) : n < alphabet.length ∧ alphabet.getD n fallback = c := by
  obtain ⟨hlt, heq, -⟩ := List.findIdx?_eq_some_iff_getElem.mp h
  refine ⟨hlt, ?_⟩
  rw [List.getD_eq_getElem?_getD, List.getElem?_eq_getElem hlt, Option.getD_some, eq_of_beq heq]

/-- Characters that each have a value are the digits of these values. -/
theorem map_digit_of_mapM_value? {digit : Nat → Char} {value? : Char → Option Nat} {bound : Nat}
    (hvalue : ∀ c n, value? c = some n → n < bound ∧ digit n = c) {cs : List Char} {ns : List Nat}
    (h : cs.mapM value? = some ns) : (∀ n ∈ ns, n < bound) ∧ ns.map digit = cs := by
  induction cs generalizing ns with
  | nil =>
    cases h
    exact ⟨nofun, rfl⟩
  | cons c cs ih =>
    rw [List.mapM_cons] at h
    obtain ⟨n, hn, h⟩ := Option.bind_eq_some_iff.mp h
    obtain ⟨ns', hns, h⟩ := Option.bind_eq_some_iff.mp h
    cases h
    obtain ⟨hlt, hdigit⟩ := hvalue c n hn
    obtain ⟨hlts, hdigits⟩ := ih hns
    exact ⟨List.forall_mem_cons.mpr ⟨hlt, hlts⟩, by rw [List.map_cons, hdigit, hdigits]⟩

/-- A text of characters of one octet has as many octets as characters. -/
theorem utf8ByteSize_of_ascii {cs : List Char} (h : ∀ c ∈ cs, c.utf8Size = 1) :
    (String.ofList cs).utf8ByteSize = cs.length := by
  induction cs with
  | nil => rfl
  | cons c cs ih =>
    rw [String.ofList_cons, String.utf8ByteSize_append, String.utf8ByteSize_singleton, h c List.mem_cons_self,
      ih fun d hd => h d (List.mem_cons_of_mem _ hd), List.length_cons, Nat.add_comm]

namespace Base32

/-- A character with a value is the digit of this value. -/
theorem digit_of_value? {c : Char} {n : Nat} (h : value? c = some n) : n < 32 ∧ digit n = c :=
  getD_of_findIdx?_eq_some h

/-- What a text of digits writes is what their values carry. -/
theorem decode?_map_digit {ns : List Nat} (h : ∀ n ∈ ns, n < 32) :
    decode? (String.ofList (ns.map digit)) = BitGroups.decode? 5 ns := by
  rw [decode?, String.toList_ofList, mapM_value?_digit value?_digit h]
  rfl

theorem decode?_encode (bs : Bytes) : decode? (encode bs) = some bs := by
  rw [encode, decode?_map_digit fun n hn => BitGroups.lt_of_mem_encode hn]
  exact BitGroups.decode?_encode (by decide) (by decide) bs

theorem decode?_eq_some_iff {text : String} {bs : Bytes} : decode? text = some bs ↔ text = encode bs := by
  constructor
  · intro h
    obtain ⟨ns, hns, hdecode⟩ := Option.bind_eq_some_iff.mp h
    obtain ⟨hlt, hdigits⟩ := map_digit_of_mapM_value? (fun c n => digit_of_value?) hns
    rw [encode, BitGroups.encode_of_decode? (by decide) (by decide) hlt hdecode, hdigits, String.ofList_toList]
  · rintro rfl
    exact decode?_encode bs

theorem encode_injective {as bs : Bytes} (h : encode as = encode bs) : as = bs :=
  Option.some.inj ((decode?_encode as).symm.trans (decode?_eq_some_iff.mpr h))

theorem digit_mem_alphabet : ∀ n < 32, digit n ∈ alphabet := by decide

theorem exists_digit_of_mem_alphabet {c : Char} (h : c ∈ alphabet) : ∃ n < 32, digit n = c := by
  obtain ⟨n, hn, rfl⟩ := List.getElem_of_mem h
  exact ⟨n, hn, (List.getElem_eq_getD 'A').symm⟩

theorem mem_alphabet_of_mem_encode {bs : Bytes} {c : Char} (h : c ∈ (encode bs).toList) : c ∈ alphabet := by
  rw [encode, String.toList_ofList] at h
  obtain ⟨n, hn, rfl⟩ := List.mem_map.mp h
  exact digit_mem_alphabet n (BitGroups.lt_of_mem_encode hn)

/-- Lower case and filling are no digits. -/
theorem not_mem_alphabet {c : Char} (h : c.isLower ∨ c = '=') : c ∉ alphabet := by
  have hupper : ∀ n < 32, (digit n).isLower = false ∧ digit n ≠ '=' := by decide
  intro hc
  obtain ⟨n, hn, rfl⟩ := exists_digit_of_mem_alphabet hc
  obtain ⟨hlower, hfilling⟩ := hupper n hn
  rcases h with h | h
  · exact absurd (hlower.symm.trans h) Bool.false_ne_true
  · exact hfilling h

/-- A text whose characters are all digits writes their values. -/
theorem exists_map_digit {cs : List Char} (h : ∀ c ∈ cs, c ∈ alphabet) :
    ∃ ns : List Nat, (∀ n ∈ ns, n < 32) ∧ ns.map digit = cs := by
  induction cs with
  | nil => exact ⟨[], nofun, rfl⟩
  | cons c cs ih =>
    obtain ⟨hc, hcs⟩ := List.forall_mem_cons.mp h
    obtain ⟨n, hn, rfl⟩ := exists_digit_of_mem_alphabet hc
    obtain ⟨ns, hns, rfl⟩ := ih hcs
    exact ⟨n :: ns, List.forall_mem_cons.mpr ⟨hn, hns⟩, rfl⟩

/-- Every digit is a single octet. -/
theorem utf8Size_digit : ∀ n < 32, (digit n).utf8Size = 1 := by decide

theorem length_encode (bs : Bytes) : (encode bs).length = (8 * bs.length + 4) / 5 := by
  rw [encode, String.length_ofList, List.length_map, BitGroups.length_encode (by decide)]

theorem utf8ByteSize_encode (bs : Bytes) : (encode bs).utf8ByteSize = (8 * bs.length + 4) / 5 := by
  have hone : ∀ c ∈ (BitGroups.encode 5 bs).map digit, c.utf8Size = 1 := by
    intro c hc
    obtain ⟨n, hn, rfl⟩ := List.mem_map.mp hc
    exact utf8Size_digit n (BitGroups.lt_of_mem_encode hn)
  rw [encode, utf8ByteSize_of_ascii hone, List.length_map, BitGroups.length_encode (by decide)]

end Base32

namespace Base64

/-- A character with a value is the digit of this value. -/
theorem digit_of_value? {c : Char} {n : Nat} (h : value? c = some n) : n < 64 ∧ digit n = c :=
  getD_of_findIdx?_eq_some h

/-- The filling is no digit, since it has no value. -/
theorem digit_ne_filling {n : Nat} (h : n < 64) : digit n ≠ '=' := by
  intro heq
  have hvalue := value?_digit n h
  rw [heq, show value? '=' = none from rfl] at hvalue
  cases hvalue

theorem decodeChars?_encodeChars (bs : Bytes) : decodeChars? (encodeChars bs) = some bs := by
  have hvalues := mapM_value?_digit value?_digit fun n (hn : n ∈ BitGroups.encode 6 bs) => BitGroups.lt_of_mem_encode hn
  have hdigits : ((BitGroups.encode 6 bs).map digit).all (· != '=') = true := by
    refine List.all_eq_true.mpr fun c hc => ?_
    obtain ⟨n, hn, rfl⟩ := List.mem_map.mp hc
    simpa using digit_ne_filling (BitGroups.lt_of_mem_encode hn)
  generalize hfill : padding ((BitGroups.encode 6 bs).map digit).length = filling
  have hstop : ∀ c ∈ filling.head?, (c != '=') = false := by
    rw [← hfill, padding, List.head?_replicate]
    split <;> simp
  obtain ⟨htake, hdrop⟩ := Decimal.span_append hdigits hstop
  simp only [decodeChars?, encodeChars, hfill, htake, hdrop, if_true, hvalues, Option.bind_eq_bind, Option.bind_some]
  exact BitGroups.decode?_encode (by decide) (by decide) bs

@[simp] theorem decode?_encode (bs : Bytes) : decode? (encode bs) = some bs := by
  rw [decode?, encode, String.toList_ofList, decodeChars?_encodeChars]

/-- The digits of a text are those of what it writes, and so is the filling. -/
theorem encodeChars_of_decodeChars? {cs : List Char} {bs : Bytes} (h : decodeChars? cs = some bs) :
    encodeChars bs = cs := by
  rw [decodeChars?] at h
  obtain ⟨hfilling, h⟩ := Option.ite_none_right_eq_some.mp h
  obtain ⟨ns, hns, hdecode⟩ := Option.bind_eq_some_iff.mp h
  obtain ⟨hlt, hdigits⟩ := map_digit_of_mapM_value? (fun c n => digit_of_value?) hns
  have hencode : (BitGroups.encode 6 bs).map digit = cs.takeWhile (· != '=') := by
    rw [BitGroups.encode_of_decode? (by decide) (by decide) hlt hdecode, hdigits]
  simp only [encodeChars, hencode, ← hfilling, List.takeWhile_append_dropWhile]

theorem decode?_eq_some_iff {text : String} {bs : Bytes} : decode? text = some bs ↔ text = encode bs := by
  constructor
  · intro h
    rw [encode, encodeChars_of_decodeChars? h, String.ofList_toList]
  · rintro rfl
    exact decode?_encode bs

theorem encode_injective {as bs : Bytes} (h : encode as = encode bs) : as = bs :=
  Option.some.inj ((decode?_encode as).symm.trans (decode?_eq_some_iff.mpr h))

theorem decode_eq_ok {text : String} {bs : Bytes} : decode text = .ok bs ↔ text = encode bs := by
  rw [← decode?_eq_some_iff, decode]
  cases decode? text <;> simp

theorem decode_eq_error {text : String} {fault : Fault} :
    decode text = .error fault ↔ decode? text = none ∧ fault = .ofBytes (Utf8.encode text) := by
  rw [decode]
  cases decode? text <;> simp [eq_comm]

/-- A fault whose octet stands at the offset that it tells. -/
def Fault.LocatedIn (bs : Bytes) : Fault → Prop
  | symbol octet offset | lastSymbol octet offset => bs[offset]? = some octet
  | length symbols => symbols ≤ bs.length
  | padding => True

theorem getElem?_length_sub_one {xs : Bytes} (h : xs ≠ []) : xs[xs.length - 1]? = some (xs.getLastD 0) := by
  rw [← List.getLast?_eq_getElem?, List.getLastD_eq_getLast?, List.getLast?_eq_some_getLast h]
  rfl

/-- The fault of a last group is told where it stands in the text. -/
theorem Fault.located_ofGroup (front group : Bytes) : (ofGroup front.length group).LocatedIn (front ++ group) := by
  have hsplit := List.takeWhile_append_dropWhile (p := isDigit) (l := group)
  unfold ofGroup
  generalize group.takeWhile isDigit = digits at hsplit ⊢
  generalize group.dropWhile isDigit = rest at hsplit ⊢
  subst hsplit
  cases rest with
  | nil =>
    dsimp only
    split
    · simp [LocatedIn]
    · trivial
  | cons octet rest =>
    dsimp only
    split
    · simp [LocatedIn]
    · rename_i hfilling
      split
      · trivial
      · have hmany : 2 ≤ digits.length := Nat.le_of_not_lt fun hfew => hfilling (.inr (.inl hfew))
        have hlast : front.length + digits.length - 1 - front.length = digits.length - 1 := by omega
        have hdigits : digits ≠ [] := List.length_pos_iff.mp (by omega)
        rw [LocatedIn, List.getElem?_append_right (by omega), hlast, List.getElem?_append_left (by omega),
          getElem?_length_sub_one hdigits]

theorem Fault.located_ofBytes (bs : Bytes) : (ofBytes bs).LocatedIn bs := by
  unfold ofBytes
  dsimp only
  split
  · rename_i hstray
    have hbs : bs ≠ [] := by
      rintro rfl
      simp at hstray
    exact getElem?_length_sub_one hbs
  · generalize hstart : bs.length - (if bs.length % 4 = 0 then 4 else bs.length % 4) = start
    have hgroup : (ofGroup start (bs.drop start)).LocatedIn bs := by
      have h := located_ofGroup (bs.take start) (bs.drop start)
      rwa [List.length_take_of_le (by omega), List.take_append_drop] at h
    split
    · rename_i i hi
      obtain ⟨hlt, -⟩ := List.findIdx?_eq_some_iff_getElem.mp hi
      split
      · rw [LocatedIn, List.getD_eq_getElem?_getD, List.getElem?_eq_getElem hlt, Option.getD_some]
      · exact hgroup
    · exact hgroup

/-- The octet that a fault tells stands at the offset that it tells. -/
theorem located_of_decode {text : String} {fault : Fault} (h : decode text = .error fault) :
    fault.LocatedIn (Utf8.encode text) := by
  obtain ⟨-, rfl⟩ := decode_eq_error.mp h
  exact Fault.located_ofBytes _

end Base64

end AtomicGroup
