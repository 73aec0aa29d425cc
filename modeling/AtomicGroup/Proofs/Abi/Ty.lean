import AtomicGroup.Abi.Ty

/-!
# Induction on types, and their lengths

A property of all types is proved one constructor at a time, a tuple having it when all its members do. The length
of static members is counted octet by octet: eight truth values more are one octet more.
-/
namespace AtomicGroup.Abi.Ty

/-- Induction on types, with one hypothesis for all members of a tuple. -/
@[elab_as_elim]
theorem induct {P : Ty → Prop} (uint : ∀ bits, P (.uint bits))
    (ufixed : ∀ bits precision, P (.ufixed bits precision)) (byte : P .byte) (bool : P .bool)
    (address : P .address) (string : P .string) (array : ∀ elem length, P elem → P (.array elem length))
    (list : ∀ elem, P elem → P (.list elem)) (tuple : ∀ members, (∀ t ∈ members, P t) → P (.tuple members))
    (t : Ty) : P t :=
  Ty.rec (motive_1 := P) (motive_2 := fun ts => ∀ t ∈ ts, P t) uint ufixed byte bool address string array
    list tuple (by simp) (fun t ts ht hts => by simpa using ⟨ht, hts⟩) t

theorem anyDynamic_eq_false_iff {ts : List Ty} : anyDynamic ts = false ↔ ∀ t ∈ ts, t.isDynamic = false := by
  induction ts with
  | nil => simp [anyDynamic]
  | cons t ts ih => simp [anyDynamic, ih]

theorem octets_add_eight (bits : Nat) : octets (bits + 8) = octets bits + 1 := by
  simp only [octets]
  omega

theorem membersLength_cons {t : Ty} (h : t ≠ .bool) (bits : Nat) (ts : List Ty) :
    membersLength bits (t :: ts) = octets bits + t.staticLength + membersLength 0 ts := by
  rw [membersLength]
  exact h

theorem membersLength_add_eight (bits : Nat) (ts : List Ty) :
    membersLength (bits + 8) ts = membersLength bits ts + 1 := by
  induction ts generalizing bits with
  | nil => exact octets_add_eight bits
  | cons t ts ih =>
    by_cases h : t = .bool
    · subst h
      rw [membersLength, membersLength, ← ih, Nat.add_right_comm]
    · rw [membersLength_cons h, membersLength_cons h, octets_add_eight]
      omega

theorem membersLength_bools (bits n : Nat) :
    membersLength bits (List.replicate n .bool) = octets (bits + n) := by
  induction n generalizing bits with
  | zero => rfl
  | succ n ih =>
    rw [List.replicate_succ, membersLength, ih]
    congr 1
    omega

theorem staticLength_array {t : Ty} (h : t ≠ .bool) (n : Nat) :
    (Ty.array t n).staticLength = t.staticLength * n := by
  rw [staticLength]
  exact h

/-- An array is as long as the tuple of its items. -/
theorem membersLength_replicate (t : Ty) (n : Nat) :
    membersLength 0 (List.replicate n t) = (Ty.array t n).staticLength := by
  by_cases h : t = .bool
  · subst h
    rw [membersLength_bools, staticLength, Nat.zero_add]
  · induction n with
    | zero => rw [staticLength_array h]; rfl
    | succ n ih =>
      rw [List.replicate_succ, membersLength_cons h, ih, staticLength_array h, staticLength_array h,
        Nat.mul_succ, show octets 0 = 0 from rfl]
      omega

end AtomicGroup.Abi.Ty
