/-!
# Byte strings

Byte strings are lists of octets. A `Block n` is one whose length is fixed by its type. Numbers are
written into a given count of octets in either order, and `ofLittleEndian_littleEndian` says that
reading gives the number back up to the width written. Lists are cut into pieces of one length by
`chunks`; what such pieces make together shows them, by `eq_of_flatMap_eq`. Texts and the byte strings that are
well-formed UTF-8 are one and the same, by `Utf8.decode?_encode` and `Utf8.encode_of_decode?`.
-/
namespace AtomicGroup

abbrev Bytes := List UInt8

/-- A byte string of exactly `n` octets. -/
structure Block (n : Nat) where
  bytes : Bytes
  length_eq : bytes.length = n
deriving DecidableEq, Repr

namespace Block

variable {n : Nat}

/-- Two blocks with the same octets are the same. -/
@[ext] theorem ext {a b : Block n} (h : a.bytes = b.bytes) : a = b := by
  cases a; cases b; simp_all

def zero (n : Nat) : Block n := ⟨List.replicate n 0, by simp⟩

instance : Inhabited (Block n) := ⟨zero n⟩

def ofBytes? (n : Nat) (bs : Bytes) : Option (Block n) :=
  if h : bs.length = n then some ⟨bs, h⟩ else none

@[simp] theorem ofBytes?_bytes (b : Block n) : ofBytes? n b.bytes = some b := by
  simp [ofBytes?, b.length_eq]

theorem ofBytes?_eq_some_iff {bs : Bytes} {b : Block n} : ofBytes? n bs = some b ↔ b.bytes = bs := by
  constructor
  · intro h
    unfold ofBytes? at h
    split at h
    · injection h with h; rw [← h]
    · cases h
  · rintro rfl; simp

end Block

/-- The `width` low octets of `n`, least significant first. -/
def littleEndian : (width n : Nat) → Bytes
  | 0, _ => []
  | width + 1, n => UInt8.ofNat n :: littleEndian width (n / 256)

def ofLittleEndian : Bytes → Nat
  | [] => 0
  | b :: bs => b.toNat + 256 * ofLittleEndian bs

/-- The `width` low octets of `n`, most significant first. -/
def bigEndian (width n : Nat) : Bytes := (littleEndian width n).reverse

def ofBigEndian (bs : Bytes) : Nat := ofLittleEndian bs.reverse

@[simp] theorem length_littleEndian (width n : Nat) : (littleEndian width n).length = width := by
  induction width generalizing n with
  | zero => rfl
  | succ width ih => simp [littleEndian, ih]

@[simp] theorem length_bigEndian (width n : Nat) : (bigEndian width n).length = width := by
  simp [bigEndian]

/-- One octet more holds 256 times as many numbers. -/
theorem one_shiftLeft_octets (width : Nat) : 1 <<< (8 * (width + 1)) = 256 * (1 <<< (8 * width)) := by
  rw [Nat.mul_add, Nat.shiftLeft_add, Nat.shiftLeft_eq _ (8 * 1), Nat.mul_comm]

theorem ofLittleEndian_littleEndian (width n : Nat) :
    ofLittleEndian (littleEndian width n) = n % (1 <<< (8 * width)) := by
  induction width generalizing n with
  | zero => simp [littleEndian, ofLittleEndian, Nat.mod_one]
  | succ width ih =>
    simp only [littleEndian, ofLittleEndian, ih, UInt8.toNat_ofNat', one_shiftLeft_octets, Nat.mod_mul]

theorem ofBigEndian_bigEndian (width n : Nat) :
    ofBigEndian (bigEndian width n) = n % (1 <<< (8 * width)) := by
  simp [ofBigEndian, bigEndian, ofLittleEndian_littleEndian]

theorem ofLittleEndian_lt (bs : Bytes) : ofLittleEndian bs < 1 <<< (8 * bs.length) := by
  induction bs with
  | nil => decide
  | cons b bs ih =>
    have hb := b.toNat_lt
    simp only [ofLittleEndian, List.length_cons, one_shiftLeft_octets]
    omega

theorem ofBigEndian_lt (bs : Bytes) : ofBigEndian bs < 1 <<< (8 * bs.length) := by
  have := ofLittleEndian_lt bs.reverse
  simpa [ofBigEndian] using this

theorem littleEndian_ofLittleEndian (bs : Bytes) : littleEndian bs.length (ofLittleEndian bs) = bs := by
  induction bs with
  | nil => rfl
  | cons b bs ih =>
    have hb := b.toNat_lt
    have hd : (b.toNat + 256 * ofLittleEndian bs) / 256 = ofLittleEndian bs := by omega
    simp only [List.length_cons, littleEndian, ofLittleEndian, hd, ih, List.cons.injEq, and_true]
    apply UInt8.toNat_inj.mp
    rw [UInt8.toNat_ofNat']
    omega

theorem bigEndian_ofBigEndian (bs : Bytes) : bigEndian bs.length (ofBigEndian bs) = bs := by
  have := littleEndian_ofLittleEndian bs.reverse
  simp only [List.length_reverse] at this
  simp [bigEndian, ofBigEndian, this]

/-- At most `fuel` pieces of length `k` cut off a list from the front. -/
def chunksUpTo {α : Type} (k : Nat) : (fuel : Nat) → List α → List (List α)
  | 0, _ => []
  | _ + 1, [] => []
  | fuel + 1, x :: xs => (x :: xs).take k :: chunksUpTo k fuel ((x :: xs).drop k)

/-- A list cut into pieces of length `k`, of which the last may be shorter. -/
def chunks {α : Type} (k : Nat) (xs : List α) : List (List α) := chunksUpTo k xs.length xs

/-- Pieces of one length are known by what they make together. -/
theorem eq_of_flatMap_eq {α β : Type} {piece : α → List β} {n : Nat} (hn : 0 < n) (hlen : ∀ x, (piece x).length = n)
    {xs ys : List α} (hinj : ∀ x ∈ xs, ∀ y ∈ ys, piece x = piece y → x = y) (h : xs.flatMap piece = ys.flatMap piece) :
    xs = ys := by
  have hcons : ∀ z zs, (z :: zs).flatMap piece ≠ [] := by
    intro z zs hnil
    have hz := congrArg List.length (List.append_eq_nil_iff.mp hnil).1
    rw [hlen z, List.length_nil] at hz
    omega
  induction xs generalizing ys with
  | nil =>
    cases ys with
    | nil => rfl
    | cons y ys => exact absurd h.symm (hcons y ys)
  | cons x xs ih =>
    cases ys with
    | nil => exact absurd h (hcons x xs)
    | cons y ys =>
      rw [List.flatMap_cons, List.flatMap_cons] at h
      obtain ⟨hfirst, hrest⟩ := List.append_inj h (by rw [hlen, hlen])
      have hxy := hinj x List.mem_cons_self y List.mem_cons_self hfirst
      have hrests := ih (fun z hz w hw => hinj z (List.mem_cons_of_mem _ hz) w (List.mem_cons_of_mem _ hw)) hrest
      rw [hxy, hrests]

namespace Utf8

def encode (text : String) : Bytes := text.toUTF8.data.toList

def decode? (bs : Bytes) : Option String := String.fromUTF8? (ByteArray.mk bs.toArray)

@[simp] theorem decode?_encode (s : String) : decode? (encode s) = some s := by
  have hb : ByteArray.mk (encode s).toArray = s.toUTF8 := by simp [encode]
  have hv : s.toUTF8.IsValidUTF8 := s.isValidUTF8
  simp only [decode?, hb, String.fromUTF8?, hv, dite_true]
  rfl

/-- The octets that spell a text are its octets. -/
theorem encode_of_decode? {bs : Bytes} {s : String} (h : decode? bs = some s) : encode s = bs := by
  unfold decode? String.fromUTF8? at h
  split at h
  · injection h with h
    subst h
    rfl
  · cases h

end Utf8

end AtomicGroup
