import AtomicGroup.Msgpack.Format
import Mathlib.Data.List.Forall2

/-!
# The spellings of msgpack

`Form` lists all octets that a header may be written with, and `Spells` all octets of a value whose headers are taken
from some of these forms. Every spelling is read as its value; `Shortest` names the forms than which no other one that
tells the same is shorter.
-/
namespace AtomicGroup.Msgpack

/-- The octets of a header, in any of its formats. A format of more than one octet is named by its first octet and the
octets that its number takes. -/
inductive Form : Header → Bytes → Prop where
  | nil : Form (.scalar .nil) [0xc0]
  | bool (b : Bool) : Form (.scalar (.bool b)) [if b then 0xc3 else 0xc2]
  | fixNat {n : Nat} (h : n < 0x80) : Form (.scalar (.nat n)) [UInt8.ofNat n]
  | nat {first : UInt8} {w n : Nat} (hw : (first, w) ∈ [((0xcc : UInt8), 1), (0xcd, 2), (0xce, 4), (0xcf, 8)])
      (h : n < 1 <<< (8 * w)) : Form (.scalar (.nat n)) (first :: bigEndian w n)
  | fixInt {n : Nat} (h : n < 0x20) : Form (.scalar (.int (.negSucc n))) [UInt8.ofNat (0xff - n)]
  /-- Two's complement: a negative number stands as what it lacks to the next power. -/
  | int {first : UInt8} {w n : Nat} (hw : (first, w) ∈ [((0xd0 : UInt8), 1), (0xd1, 2), (0xd2, 4), (0xd3, 8)])
      (h : n < 1 <<< (8 * w)) :
      Form (.scalar (.int (if n < 1 <<< (8 * w) / 2 then n else n - (1 <<< (8 * w) : Nat))))
        (first :: bigEndian w n)
  | fixStr {raw : Bytes} (h : raw.length < 0x20) :
      Form (.scalar (.str raw)) (UInt8.ofNat (0xa0 + raw.length) :: raw)
  | str {first : UInt8} {w : Nat} {raw : Bytes} (hw : (first, w) ∈ [((0xd9 : UInt8), 1), (0xda, 2), (0xdb, 4)])
      (h : raw.length < 1 <<< (8 * w)) : Form (.scalar (.str raw)) (first :: (bigEndian w raw.length ++ raw))
  | bin {first : UInt8} {w : Nat} {raw : Bytes} (hw : (first, w) ∈ [((0xc4 : UInt8), 1), (0xc5, 2), (0xc6, 4)])
      (h : raw.length < 1 <<< (8 * w)) : Form (.scalar (.bin raw)) (first :: (bigEndian w raw.length ++ raw))
  | float {first : UInt8} {raw : Bytes} (h : (first, raw.length) ∈ [((0xca : UInt8), 4), (0xcb, 8)]) :
      Form (.scalar (.foreign (first :: raw))) (first :: raw)
  | fixExtension {first : UInt8} {raw : Bytes}
      (h : (first, raw.length) ∈ [((0xd4 : UInt8), 2), (0xd5, 3), (0xd6, 5), (0xd7, 9), (0xd8, 17)]) :
      Form (.extension (first :: raw)) (first :: raw)
  /-- The kind of an extension is not counted in its length. -/
  | extension {first : UInt8} {w n : Nat} {raw : Bytes}
      (hw : (first, w) ∈ [((0xc7 : UInt8), 1), (0xc8, 2), (0xc9, 4)]) (h : n < 1 <<< (8 * w))
      (hraw : raw.length = n + 1) :
      Form (.extension (first :: (bigEndian w n ++ raw))) (first :: (bigEndian w n ++ raw))
  | fixArray {n : Nat} (h : n < 0x10) : Form (.array n) [UInt8.ofNat (0x90 + n)]
  | array {first : UInt8} {w n : Nat} (hw : (first, w) ∈ [((0xdc : UInt8), 2), (0xdd, 4)])
      (h : n < 1 <<< (8 * w)) : Form (.array n) (first :: bigEndian w n)
  | fixMap {n : Nat} (h : n < 0x10) : Form (.map n) [UInt8.ofNat (0x80 + n)]
  | map {first : UInt8} {w n : Nat} (hw : (first, w) ∈ [((0xde : UInt8), 2), (0xdf, 4)])
      (h : n < 1 <<< (8 * w)) : Form (.map n) (first :: bigEndian w n)

/-- The octets of a value that lies in at most a given number of brackets, with headers of a given kind. -/
inductive Spells (form : Header → Bytes → Prop) : (depth : Nat) → Value → Bytes → Prop where
  | scalar {depth : Nat} {v : Value} {bs : Bytes} (h : form (.scalar v) bs) : Spells form depth v bs
  | extension {depth : Nat} {raw bs : Bytes} (h : form (.extension raw) bs) : Spells form (depth + 1) (.foreign raw) bs
  | array {depth : Nat} {items : List Value} {parts : List Bytes} {head : Bytes} (h : form (.array items.length) head)
      (hlen : items.length = parts.length) (hitems : ∀ v bs, (v, bs) ∈ items.zip parts → Spells form depth v bs) :
      Spells form (depth + 1) (.array items) (head ++ parts.flatten)
  | map {depth : Nat} {entries : List (Value × Value)} {parts : List (Bytes × Bytes)} {head : Bytes}
      (h : form (.map entries.length) head) (hlen : entries.length = parts.length)
      (hkeys : ∀ e p, (e, p) ∈ entries.zip parts → Spells form depth e.1 p.1)
      (hvalues : ∀ e p, (e, p) ∈ entries.zip parts → Spells form depth e.2 p.2) :
      Spells form (depth + 1) (.map entries) (head ++ (parts.map fun p => p.1 ++ p.2).flatten)

theorem Spells.mono {form form' : Header → Bytes → Prop} (hform : ∀ h bs, form h bs → form' h bs) {depth : Nat}
    {v : Value} {bs : Bytes} (h : Spells form depth v bs) : Spells form' depth v bs := by
  induction h with
  | scalar h => exact .scalar (hform _ _ h)
  | extension h => exact .extension (hform _ _ h)
  | array h hlen _ ih => exact .array (hform _ _ h) hlen ih
  | map h hlen _ _ ihkeys ihvalues => exact .map (hform _ _ h) hlen ihkeys ihvalues

/-- Headers that tell the same: an integer has formats of two kinds, any other header those of one. -/
inductive Header.Alike : Header → Header → Prop where
  | refl (h : Header) : Alike h h
  | integer {v w : Value} {n : Int} (hv : v.int? = some n) (hw : w.int? = some n) : Alike (.scalar v) (.scalar w)

/-- A form of a header, than which no other form of a header that tells the same is shorter. -/
structure Shortest (h : Header) (bs : Bytes) : Prop where
  form : Form h bs
  least : ∀ h' bs', h'.Alike h → Form h' bs' → bs.length ≤ bs'.length

section Headers

theorem splitOctets?_append (front rest : Bytes) : splitOctets? front.length (front ++ rest) = some (front, rest) := by
  simp [splitOctets?]

theorem readNat?_bigEndian {width n : Nat} (h : n < 1 <<< (8 * width)) (rest : Bytes) :
    readNat? width (bigEndian width n ++ rest) = some (n, rest) := by
  have hs := splitOctets?_append (bigEndian width n) rest
  rw [length_bigEndian] at hs
  simp only [readNat?, hs, Option.bind_eq_bind, Option.bind_some, ofBigEndian_bigEndian, Nat.mod_eq_of_lt h]
  rfl

theorem readUnsigned?_bigEndian (width : Nat) {n : Nat} (h : n < 1 <<< (8 * width)) (rest : Bytes) :
    readUnsigned? width (bigEndian width n ++ rest) = some (.scalar (.nat n), rest) := by
  rw [readUnsigned?, readNat?_bigEndian h]
  rfl

theorem readSigned?_bigEndian (width : Nat) {n : Nat} (h : n < 1 <<< (8 * width)) (rest : Bytes) :
    readSigned? width (bigEndian width n ++ rest) =
      some (.scalar (.int (if n < 1 <<< (8 * width) / 2 then n else n - (1 <<< (8 * width) : Nat))), rest) := by
  rw [readSigned?, readInt?, readNat?_bigEndian h]
  rfl

theorem readCount?_bigEndian (make : Nat → Header) (width : Nat) {n : Nat} (h : n < 1 <<< (8 * width)) (rest : Bytes) :
    readCount? make width (bigEndian width n ++ rest) = some (make n, rest) := by
  rw [readCount?, readNat?_bigEndian h]
  rfl

theorem readRaw?_append (make : Bytes → Header) (raw rest : Bytes) :
    readRaw? make raw.length (raw ++ rest) = some (make raw, rest) := by
  rw [readRaw?, splitOctets?_append]
  rfl

theorem readSized?_append (make : Bytes → Header) (width : Nat) {raw : Bytes} (h : raw.length < 1 <<< (8 * width))
    (rest : Bytes) :
    readSized? make width (bigEndian width raw.length ++ raw ++ rest) = some (make raw, rest) := by
  rw [List.append_assoc, readSized?, readNat?_bigEndian h]
  exact readRaw?_append make raw rest

/-- An extension is read again from its length on, kind and all. -/
theorem readExtension?_append (make : Bytes → Header) (width : Nat) {n : Nat} (h : n < 1 <<< (8 * width)) {raw : Bytes}
    (hraw : raw.length = n + 1) (rest : Bytes) :
    readExtension? make width (bigEndian width n ++ raw ++ rest) = some (make (bigEndian width n ++ raw), rest) := by
  have hlen : (bigEndian width n ++ raw).length = width + 1 + n := by
    rw [List.length_append, length_bigEndian, hraw]
    omega
  have hread := readRaw?_append make (bigEndian width n ++ raw) rest
  rw [hlen] at hread
  rw [readExtension?, List.append_assoc, readNat?_bigEndian h, ← List.append_assoc]
  exact hread

/-- Every form of a header is read as the header, whatever comes after it. -/
theorem readHeader?_of_form {h : Header} {bs : Bytes} (hform : Form h bs) (rest : Bytes) :
    readHeader? (bs ++ rest) = some (h, rest) := by
  cases hform with
  | nil => rfl
  | bool b => cases b <;> rfl
  | @fixNat n hn =>
    have hb : (UInt8.ofNat n).toNat = n := UInt8.toNat_ofNat_of_lt (show n < 256 by omega)
    simp only [List.cons_append, List.nil_append, readHeader?, hb, if_pos hn]
  | nat hw hn =>
    simp only [List.mem_cons, Prod.mk.injEq, List.not_mem_nil, or_false] at hw
    obtain ⟨rfl, rfl⟩ | ⟨rfl, rfl⟩ | ⟨rfl, rfl⟩ | ⟨rfl, rfl⟩ := hw <;> exact readUnsigned?_bigEndian _ hn rest
  | @fixInt n hn =>
    have hb : (UInt8.ofNat (0xff - n)).toNat = 0xff - n := UInt8.toNat_ofNat_of_lt (show 0xff - n < 256 by omega)
    have hneg : ((0xff - n : Nat) : Int) - 256 = .negSucc n := by omega
    simp only [List.cons_append, List.nil_append, readHeader?, hb]
    rw [if_neg (by omega), if_neg (by omega), if_neg (by omega), if_neg (by omega), if_pos (by omega), hneg]
  | int hw hn =>
    simp only [List.mem_cons, Prod.mk.injEq, List.not_mem_nil, or_false] at hw
    obtain ⟨rfl, rfl⟩ | ⟨rfl, rfl⟩ | ⟨rfl, rfl⟩ | ⟨rfl, rfl⟩ := hw <;> exact readSigned?_bigEndian _ hn rest
  | @fixStr raw hn =>
    have hb : (UInt8.ofNat (0xa0 + raw.length)).toNat = 0xa0 + raw.length :=
      UInt8.toNat_ofNat_of_lt (show 0xa0 + raw.length < 256 by omega)
    have hsub : 0xa0 + raw.length - 0xa0 = raw.length := by omega
    simp only [List.cons_append, readHeader?, hb]
    rw [if_neg (by omega), if_neg (by omega), if_neg (by omega), if_pos (by omega), hsub]
    exact readRaw?_append _ raw rest
  | str hw hn =>
    simp only [List.mem_cons, Prod.mk.injEq, List.not_mem_nil, or_false] at hw
    obtain ⟨rfl, rfl⟩ | ⟨rfl, rfl⟩ | ⟨rfl, rfl⟩ := hw <;> exact readSized?_append _ _ hn rest
  | bin hw hn =>
    simp only [List.mem_cons, Prod.mk.injEq, List.not_mem_nil, or_false] at hw
    obtain ⟨rfl, rfl⟩ | ⟨rfl, rfl⟩ | ⟨rfl, rfl⟩ := hw <;> exact readSized?_append _ _ hn rest
  | @float first raw hw =>
    have hread := readRaw?_append (fun raw => .scalar (.foreign (first :: raw))) raw rest
    simp only [List.mem_cons, Prod.mk.injEq, List.not_mem_nil, or_false] at hw
    obtain ⟨rfl, hlen⟩ | ⟨rfl, hlen⟩ := hw <;> (rw [hlen] at hread; exact hread)
  | @fixExtension first raw hw =>
    have hread := readRaw?_append (fun raw => .extension (first :: raw)) raw rest
    simp only [List.mem_cons, Prod.mk.injEq, List.not_mem_nil, or_false] at hw
    obtain ⟨rfl, hlen⟩ | ⟨rfl, hlen⟩ | ⟨rfl, hlen⟩ | ⟨rfl, hlen⟩ | ⟨rfl, hlen⟩ := hw <;>
      (rw [hlen] at hread; exact hread)
  | extension hw hn hraw =>
    simp only [List.mem_cons, Prod.mk.injEq, List.not_mem_nil, or_false] at hw
    obtain ⟨rfl, rfl⟩ | ⟨rfl, rfl⟩ | ⟨rfl, rfl⟩ := hw <;> exact readExtension?_append _ _ hn hraw rest
  | @fixArray n hn =>
    have hb : (UInt8.ofNat (0x90 + n)).toNat = 0x90 + n := UInt8.toNat_ofNat_of_lt (show 0x90 + n < 256 by omega)
    have hsub : 0x90 + n - 0x90 = n := by omega
    simp only [List.cons_append, List.nil_append, readHeader?, hb]
    rw [if_neg (by omega), if_neg (by omega), if_pos (by omega), hsub]
  | array hw hn =>
    simp only [List.mem_cons, Prod.mk.injEq, List.not_mem_nil, or_false] at hw
    obtain ⟨rfl, rfl⟩ | ⟨rfl, rfl⟩ := hw <;> exact readCount?_bigEndian _ _ hn rest
  | @fixMap n hn =>
    have hb : (UInt8.ofNat (0x80 + n)).toNat = 0x80 + n := UInt8.toNat_ofNat_of_lt (show 0x80 + n < 256 by omega)
    have hsub : 0x80 + n - 0x80 = n := by omega
    simp only [List.cons_append, List.nil_append, readHeader?, hb]
    rw [if_neg (by omega), if_pos (by omega), hsub]
  | map hw hn =>
    simp only [List.mem_cons, Prod.mk.injEq, List.not_mem_nil, or_false] at hw
    obtain ⟨rfl, rfl⟩ | ⟨rfl, rfl⟩ := hw <;> exact readCount?_bigEndian _ _ hn rest

end Headers

section Lengths

/-- An integer takes one octet when it is small enough, and else as many as hold it. -/
theorem Form.length_int {v : Value} {bs : Bytes} (h : Form (.scalar v) bs) {n : Int} (hn : v.int? = some n) :
    (-0x20 ≤ n ∧ n < 0x80 ∧ bs.length = 1) ∨ ∃ width ∈ [1, 2, 4, 8],
      -(1 <<< (8 * width) / 2 : Nat) ≤ n ∧ n < (1 <<< (8 * width) : Nat) ∧ bs.length = width + 1 := by
  cases h <;> cases hn
  case fixNat n h => exact .inl ⟨by omega, by omega, rfl⟩
  case fixInt n h => exact .inl ⟨by omega, by omega, rfl⟩
  case nat first width n hw h =>
    refine .inr ⟨width, ?_, by omega, by omega, by rw [List.length_cons, length_bigEndian]⟩
    simp only [List.mem_cons, Prod.mk.injEq, List.not_mem_nil, or_false] at hw ⊢
    omega
  case int first width n hw h =>
    simp only [List.mem_cons, Prod.mk.injEq, List.not_mem_nil, or_false] at hw
    have heven : 2 * (1 <<< (8 * width) / 2) = 1 <<< (8 * width) := by
      obtain ⟨-, rfl⟩ | ⟨-, rfl⟩ | ⟨-, rfl⟩ | ⟨-, rfl⟩ := hw <;> rfl
    refine .inr ⟨width, ?_, ?_, ?_, by rw [List.length_cons, length_bigEndian]⟩
    · simp only [List.mem_cons, List.not_mem_nil, or_false]
      omega
    · generalize 1 <<< (8 * width) = numbers at h heven ⊢
      split <;> omega
    · generalize 1 <<< (8 * width) = numbers at h ⊢
      split <;> omega

/-- The header of a text takes one octet when the text is short enough, and else one and those of the length. -/
theorem Form.length_str {raw bs : Bytes} (h : Form (.scalar (.str raw)) bs) :
    (raw.length < 0x20 ∧ bs.length = 1 + raw.length) ∨
      ∃ width ∈ [1, 2, 4], raw.length < 1 <<< (8 * width) ∧ bs.length = width + 1 + raw.length := by
  cases h
  case fixStr h => exact .inl ⟨h, by rw [List.length_cons, Nat.add_comm]⟩
  case str first width hw h =>
    refine .inr ⟨width, ?_, h, ?_⟩
    · simp only [List.mem_cons, Prod.mk.injEq, List.not_mem_nil, or_false] at hw ⊢
      omega
    · rw [List.length_cons, List.length_append, length_bigEndian]
      omega

theorem Form.length_bin {raw bs : Bytes} (h : Form (.scalar (.bin raw)) bs) :
    ∃ width ∈ [1, 2, 4], raw.length < 1 <<< (8 * width) ∧ bs.length = width + 1 + raw.length := by
  cases h
  case bin first width hw h =>
    refine ⟨width, ?_, h, ?_⟩
    · simp only [List.mem_cons, Prod.mk.injEq, List.not_mem_nil, or_false] at hw ⊢
      omega
    · rw [List.length_cons, List.length_append, length_bigEndian]
      omega

theorem Form.length_array {n : Nat} {bs : Bytes} (h : Form (.array n) bs) :
    (n < 0x10 ∧ bs.length = 1) ∨ ∃ width ∈ [2, 4], n < 1 <<< (8 * width) ∧ bs.length = width + 1 := by
  cases h
  case fixArray h => exact .inl ⟨h, rfl⟩
  case array first width hw h =>
    refine .inr ⟨width, ?_, h, by rw [List.length_cons, length_bigEndian]⟩
    simp only [List.mem_cons, Prod.mk.injEq, List.not_mem_nil, or_false] at hw ⊢
    omega

theorem Form.length_map {n : Nat} {bs : Bytes} (h : Form (.map n) bs) :
    (n < 0x10 ∧ bs.length = 1) ∨ ∃ width ∈ [2, 4], n < 1 <<< (8 * width) ∧ bs.length = width + 1 := by
  cases h
  case fixMap h => exact .inl ⟨h, rfl⟩
  case map first width hw h =>
    refine .inr ⟨width, ?_, h, by rw [List.length_cons, length_bigEndian]⟩
    simp only [List.mem_cons, Prod.mk.injEq, List.not_mem_nil, or_false] at hw ⊢
    omega

end Lengths

section Canonical

/-- A header that is no integer is like none but itself. -/
theorem shortest_of_not_int {h : Header} {bs : Bytes} (hint : ∀ v, h = .scalar v → v.int? = none) (hform : Form h bs)
    (hleast : ∀ bs', Form h bs' → bs.length ≤ bs'.length) : Shortest h bs := by
  refine ⟨hform, fun h' bs' halike hform' => ?_⟩
  cases halike with
  | refl => exact hleast bs' hform'
  | integer hv hw =>
    rw [hint _ rfl] at hw
    cases hw

theorem shortest_of_int {v : Value} {n : Int} {bs : Bytes} (hv : v.int? = some n) (hform : Form (.scalar v) bs)
    (hleast : ∀ w bs', w.int? = some n → Form (.scalar w) bs' → bs.length ≤ bs'.length) : Shortest (.scalar v) bs := by
  refine ⟨hform, fun h' bs' halike hform' => ?_⟩
  cases halike with
  | refl => exact hleast v bs' hv hform'
  | integer hw hv' =>
    obtain rfl := Option.some.inj (hv.symm.trans hv')
    exact hleast _ bs' hw hform'

theorem shortest_nil : Shortest (.scalar .nil) [0xc0] := by
  refine shortest_of_not_int (by rintro _ ⟨⟩; rfl) .nil ?_
  rintro bs' ⟨⟩
  exact Nat.le_refl _

theorem shortest_bool (b : Bool) : Shortest (.scalar (.bool b)) [if b then 0xc3 else 0xc2] := by
  refine shortest_of_not_int (by rintro _ ⟨⟩; rfl) (.bool b) ?_
  rintro bs' ⟨⟩
  exact Nat.le_refl _

theorem shortest_encodeNat {n : Nat} (h : n < 0x10000000000000000) : Shortest (.scalar (.nat n)) (encodeNat n) := by
  refine shortest_of_int (n := n) rfl ?_ ?_
  · unfold encodeNat
    split
    · exact .fixNat ‹_›
    split
    · exact .nat (w := 1) (by simp) ‹_›
    split
    · exact .nat (w := 2) (by simp) ‹_›
    split
    · exact .nat (w := 4) (by simp) ‹_›
    · exact .nat (w := 8) (by simp) h
  · intro w bs' hw hform
    obtain ⟨-, hsmall, hlen⟩ | ⟨width, hwidth, -, hhigh, hlen⟩ := hform.length_int hw
    · rw [encodeNat, if_pos (by omega), hlen]
      exact Nat.le_refl _
    · simp only [List.mem_cons, List.not_mem_nil, or_false] at hwidth
      unfold encodeNat
      obtain rfl | rfl | rfl | rfl := hwidth <;> simp at hhigh <;> split_ifs <;> simp <;> omega

/-- A negative number in the two's complement of a width that holds it. -/
theorem Form.negative {first : UInt8} {w n : Nat}
    (hw : (first, w) ∈ [((0xd0 : UInt8), 1), (0xd1, 2), (0xd2, 4), (0xd3, 8)]) (h : n < 1 <<< (8 * w) / 2) :
    Form (.scalar (.int (.negSucc n))) (first :: bigEndian w (1 <<< (8 * w) - 1 - n)) := by
  have hlt : 1 <<< (8 * w) - 1 - n < 1 <<< (8 * w) := by omega
  have hneg : ((1 <<< (8 * w) - 1 - n : Nat) : Int) - ((1 <<< (8 * w) : Nat) : Int) = .negSucc n := by
    generalize 1 <<< (8 * w) = numbers at *
    omega
  have hform := Form.int hw hlt
  rwa [if_neg (by omega), hneg] at hform

theorem shortest_encodeInt {n : Nat} (h : n < 0x8000000000000000) :
    Shortest (.scalar (.int (.negSucc n))) (encodeInt (.negSucc n)) := by
  refine shortest_of_int (n := .negSucc n) rfl ?_ ?_
  · unfold encodeInt
    dsimp only
    split
    · exact .fixInt ‹_›
    split
    · exact .negative (w := 1) (by simp) ‹_›
    split
    · exact .negative (w := 2) (by simp) ‹_›
    split
    · exact .negative (w := 4) (by simp) ‹_›
    · exact .negative (w := 8) (by simp) h
  · intro w bs' hw hform
    obtain ⟨hsmall, -, hlen⟩ | ⟨width, hwidth, hlow, -, hlen⟩ := hform.length_int hw
    · simp only [encodeInt]
      rw [if_pos (by omega), hlen]
      exact Nat.le_refl _
    · simp only [List.mem_cons, List.not_mem_nil, or_false] at hwidth
      simp only [encodeInt]
      obtain rfl | rfl | rfl | rfl := hwidth <;> simp at hlow <;> split_ifs <;> simp <;> omega

theorem shortest_str {raw : Bytes} (h : raw.length < 0x100000000) :
    Shortest (.scalar (.str raw)) (strHeader raw.length ++ raw) := by
  refine shortest_of_not_int (by rintro _ ⟨⟩; rfl) ?_ ?_
  · unfold strHeader
    split
    · exact .fixStr ‹_›
    split
    · exact .str (w := 1) (by simp) ‹_›
    split
    · exact .str (w := 2) (by simp) ‹_›
    · exact .str (w := 4) (by simp) h
  · intro bs' hform
    obtain ⟨hsmall, hlen⟩ | ⟨width, hwidth, hn, hlen⟩ := hform.length_str
    · rw [strHeader, if_pos hsmall, hlen, List.length_append]
      exact Nat.le_refl _
    · simp only [List.mem_cons, List.not_mem_nil, or_false] at hwidth
      unfold strHeader
      obtain rfl | rfl | rfl := hwidth <;> simp at hn <;> split_ifs <;> simp <;> omega

theorem shortest_bin {raw : Bytes} (h : raw.length < 0x100000000) :
    Shortest (.scalar (.bin raw)) (binHeader raw.length ++ raw) := by
  refine shortest_of_not_int (by rintro _ ⟨⟩; rfl) ?_ ?_
  · unfold binHeader
    split
    · exact .bin (w := 1) (by simp) ‹_›
    split
    · exact .bin (w := 2) (by simp) ‹_›
    · exact .bin (w := 4) (by simp) h
  · intro bs' hform
    obtain ⟨width, hwidth, hn, hlen⟩ := hform.length_bin
    simp only [List.mem_cons, List.not_mem_nil, or_false] at hwidth
    unfold binHeader
    obtain rfl | rfl | rfl := hwidth <;> simp at hn <;> split_ifs <;> simp <;> omega

theorem shortest_array {n : Nat} (h : n < 0x100000000) : Shortest (.array n) (arrayHeader n) := by
  refine shortest_of_not_int nofun ?_ ?_
  · unfold arrayHeader
    split
    · exact .fixArray ‹_›
    split
    · exact .array (w := 2) (by simp) ‹_›
    · exact .array (w := 4) (by simp) h
  · intro bs' hform
    obtain ⟨hsmall, hlen⟩ | ⟨width, hwidth, hn, hlen⟩ := hform.length_array
    · rw [arrayHeader, if_pos hsmall, hlen]
      exact Nat.le_refl _
    · simp only [List.mem_cons, List.not_mem_nil, or_false] at hwidth
      unfold arrayHeader
      obtain rfl | rfl := hwidth <;> simp at hn <;> split_ifs <;> simp <;> omega

theorem shortest_map {n : Nat} (h : n < 0x100000000) : Shortest (.map n) (mapHeader n) := by
  refine shortest_of_not_int nofun ?_ ?_
  · unfold mapHeader
    split
    · exact .fixMap ‹_›
    split
    · exact .map (w := 2) (by simp) ‹_›
    · exact .map (w := 4) (by simp) h
  · intro bs' hform
    obtain ⟨hsmall, hlen⟩ | ⟨width, hwidth, hn, hlen⟩ := hform.length_map
    · rw [mapHeader, if_pos hsmall, hlen]
      exact Nat.le_refl _
    · simp only [List.mem_cons, List.not_mem_nil, or_false] at hwidth
      unfold mapHeader
      obtain rfl | rfl := hwidth <;> simp at hn <;> split_ifs <;> simp <;> omega

end Canonical


section Values

/-- Items that can each be read off the front can be read one after the other. -/
theorem readMany?_flatten {α : Type} {read : Bytes → Option (α × Bytes)} {items : List α} {parts : List Bytes}
    (h : List.Forall₂ (fun x bs => ∀ rest, read (bs ++ rest) = some (x, rest)) items parts) (rest : Bytes) :
    readMany? read items.length (parts.flatten ++ rest) = some (items, rest) := by
  induction h with
  | nil => rfl
  | cons hx _ ih =>
    simp only [List.length_cons, List.flatten_cons, List.append_assoc, readMany?, hx, Option.bind_eq_bind,
      Option.bind_some, ih]
    rfl

theorem readPair?_append {read : Bytes → Option (Value × Bytes)} {e : Value × Value} {p : Bytes × Bytes}
    (hkey : ∀ rest, read (p.1 ++ rest) = some (e.1, rest)) (hvalue : ∀ rest, read (p.2 ++ rest) = some (e.2, rest))
    (rest : Bytes) : readPair? read (p.1 ++ p.2 ++ rest) = some (e, rest) := by
  simp only [readPair?, List.append_assoc, hkey, hvalue, Option.bind_eq_bind, Option.bind_some]
  rfl

theorem readValue?_of_scalar {bs rest : Bytes} {v : Value} (depth : Nat)
    (h : readHeader? bs = some (.scalar v, rest)) : readValue? depth bs = some (v, rest) := by
  cases depth <;> simp only [readValue?, h]

/-- Every spelling of a value is read as the value, whatever comes after it. -/
theorem readValue?_of_spells {depth : Nat} {v : Value} {bs : Bytes} (h : Spells Form depth v bs) (rest : Bytes) :
    readValue? depth (bs ++ rest) = some (v, rest) := by
  induction h generalizing rest with
  | scalar h => exact readValue?_of_scalar _ (readHeader?_of_form h rest)
  | extension h => simp only [readValue?, readHeader?_of_form h rest]
  | @array depth items parts head h hlen _ ih =>
    have hitems := readMany?_flatten (List.forall₂_iff_zip.mpr ⟨hlen, fun hz => ih _ _ hz⟩) rest
    simp only [List.append_assoc, readValue?, readHeader?_of_form h, hitems]
    rfl
  | @map depth entries parts head h hlen _ _ ihkeys ihvalues =>
    have hpairs : List.Forall₂ (fun e bs => ∀ rest, readPair? (readValue? depth) (bs ++ rest) = some (e, rest)) entries
        (parts.map fun p => p.1 ++ p.2) := by
      rw [List.forall₂_map_right_iff]
      exact List.forall₂_iff_zip.mpr ⟨hlen, fun hz => readPair?_append (ihkeys _ _ hz) (ihvalues _ _ hz)⟩
    have hentries := readMany?_flatten hpairs rest
    simp only [List.append_assoc, readValue?, readHeader?_of_form h, hentries]
    rfl

/-- Two readers that agree where both read. -/
def Agree {α : Type} (read read' : Bytes → Option (α × Bytes)) : Prop :=
  ∀ bs r r', read bs = some r → read' bs = some r' → r = r'

theorem Agree.readMany? {α : Type} {read read' : Bytes → Option (α × Bytes)} (h : Agree read read') (count : Nat) :
    Agree (readMany? read count) (Msgpack.readMany? read' count) := by
  induction count with
  | zero =>
    intro bs r r' hr hr'
    exact Option.some.inj (hr.symm.trans hr')
  | succ count ih =>
    intro bs r r' hr hr'
    obtain ⟨⟨x, rest⟩, hx, hr⟩ := Option.bind_eq_some_iff.mp hr
    obtain ⟨⟨x', rest'⟩, hx', hr'⟩ := Option.bind_eq_some_iff.mp hr'
    cases h _ _ _ hx hx'
    obtain ⟨⟨xs, more⟩, hxs, hr⟩ := Option.bind_eq_some_iff.mp hr
    obtain ⟨⟨xs', more'⟩, hxs', hr'⟩ := Option.bind_eq_some_iff.mp hr'
    cases ih _ _ _ hxs hxs'
    exact Option.some.inj (hr.symm.trans hr')

theorem Agree.readPair? {α : Type} {read read' : Bytes → Option (α × Bytes)} (h : Agree read read') :
    Agree (readPair? read) (Msgpack.readPair? read') := by
  intro bs r r' hr hr'
  obtain ⟨⟨x, rest⟩, hx, hr⟩ := Option.bind_eq_some_iff.mp hr
  obtain ⟨⟨x', rest'⟩, hx', hr'⟩ := Option.bind_eq_some_iff.mp hr'
  cases h _ _ _ hx hx'
  obtain ⟨⟨y, more⟩, hy, hr⟩ := Option.bind_eq_some_iff.mp hr
  obtain ⟨⟨y', more'⟩, hy', hr'⟩ := Option.bind_eq_some_iff.mp hr'
  cases h _ _ _ hy hy'
  exact Option.some.inj (hr.symm.trans hr')

/-- The depth that a reader follows decides whether it reads, but not what. -/
theorem agree_readValue? (depth depth' : Nat) : Agree (readValue? depth) (readValue? depth') := by
  induction depth generalizing depth' with
  | zero =>
    intro bs r r' hr hr'
    unfold readValue? at hr
    split at hr
    · rename_i v rest hheader
      rw [readValue?_of_scalar depth' hheader] at hr'
      exact Option.some.inj (hr.symm.trans hr')
    · cases hr
  | succ depth ih =>
    cases depth' with
    | zero =>
      intro bs r r' hr hr'
      unfold readValue? at hr'
      split at hr'
      · rename_i v rest hheader
        rw [readValue?_of_scalar (depth + 1) hheader] at hr
        exact Option.some.inj (hr.symm.trans hr')
      · cases hr'
    | succ depth' =>
      intro bs r r' hr hr'
      simp only [readValue?] at hr hr'
      split at hr
      · rename_i hheader
        rw [hheader] at hr'
        exact Option.some.inj (hr.symm.trans hr')
      · rename_i hheader
        rw [hheader] at hr'
        exact Option.some.inj (hr.symm.trans hr')
      · rename_i count rest hheader
        rw [hheader] at hr'
        obtain ⟨found, hfound, rfl⟩ := Option.map_eq_some_iff.mp hr
        obtain ⟨found', hfound', rfl⟩ := Option.map_eq_some_iff.mp hr'
        rw [(ih depth').readMany? count _ _ _ hfound hfound']
      · rename_i count rest hheader
        rw [hheader] at hr'
        obtain ⟨found, hfound, rfl⟩ := Option.map_eq_some_iff.mp hr
        obtain ⟨found', hfound', rfl⟩ := Option.map_eq_some_iff.mp hr'
        rw [(ih depth').readPair?.readMany? count _ _ _ hfound hfound']
      · cases hr

/-- Octets that spell a value decode to it or, when it lies too deep, not at all. -/
theorem eq_of_decode?_of_spells {depth : Nat} {v v' : Value} {bs : Bytes} (h : Spells Form depth v bs)
    (hread : decode? bs = some v') : v' = v := by
  obtain ⟨⟨found, rest⟩, hfound, rfl⟩ := Option.map_eq_some_iff.mp hread
  have hspelled := readValue?_of_spells h []
  rw [List.append_nil] at hspelled
  exact congrArg Prod.fst (agree_readValue? maxDepth depth bs _ _ hfound hspelled)

theorem decode?_of_spells {v : Value} {bs : Bytes} (h : Spells Form maxDepth v bs) : decode? bs = some v := by
  have hread := readValue?_of_spells h []
  rw [List.append_nil] at hread
  rw [decode?, hread]
  rfl

end Values

end AtomicGroup.Msgpack
