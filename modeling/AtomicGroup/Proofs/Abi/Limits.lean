import AtomicGroup.Proofs.Abi.RoundTrip

/-!
# What encoding is limited by

Lengths, counts and offsets stand in two octets. Members that are encoded can be laid out and counted unless one of
these numbers is too large for that: no other way to fail is left.
-/
namespace AtomicGroup.Abi

open Outcome

/-- A computation that fails, if at all, at a number that two octets cannot hold. -/
def OnlyTooLong {α : Type} (x : Except Error α) : Prop := ∀ e, x = .error e → ∃ n, UInt16.size ≤ n ∧ e = .tooLong n

section OnlyTooLong

variable {α β : Type}

theorem onlyTooLong_ok (a : α) : OnlyTooLong (.ok a) := nofun

theorem OnlyTooLong.bind {x : Except Error α} {f : α → Except Error β} (hx : OnlyTooLong x)
    (hf : ∀ a, OnlyTooLong (f a)) : OnlyTooLong (x >>= f) := by
  cases x with
  | ok a => exact hf a
  | error e =>
    intro e' h
    obtain ⟨n, hn, he⟩ := hx e rfl
    refine ⟨n, hn, ?_⟩
    rw [← he]
    exact (Except.error.inj h).symm

end OnlyTooLong

theorem onlyTooLong_encodeLength (n : Nat) : OnlyTooLong (encodeLength n) := by
  intro e h
  unfold encodeLength at h
  split at h
  · cases h
  · rename_i hn
    exact ⟨n, Nat.not_lt.mp hn, (Except.error.inj h).symm⟩

/-- The head is limited by its offsets. -/
theorem onlyTooLong_heads (offset : Nat) (cs : List Cell) : OnlyTooLong (heads offset cs) := by
  induction cs generalizing offset with
  | nil => exact onlyTooLong_ok []
  | cons c cs ih =>
    cases c with
    | octets bs => exact (ih offset).bind fun _ => onlyTooLong_ok _
    | offset bs =>
      apply (onlyTooLong_encodeLength offset).bind
      intro start
      exact (ih (offset + bs.length)).bind fun _ => onlyTooLong_ok _

theorem onlyTooLong_layout (parts : List Part) : OnlyTooLong (layout parts) :=
  (onlyTooLong_heads _ _).bind fun _ => onlyTooLong_ok _

theorem onlyTooLong_withLength (count : Nat) (body : Bytes) : OnlyTooLong (withLength count body) :=
  (onlyTooLong_encodeLength count).bind fun _ => onlyTooLong_ok _

/-- A tuple is limited by what its members are limited by. -/
theorem onlyTooLong_encodeMembers {ts : List Ty} {vs : List Value}
    (h : List.Forall₂ (fun t v => OnlyTooLong (t.encode v)) ts vs) : OnlyTooLong (encodeMembers ts vs) := by
  induction h with
  | nil => exact onlyTooLong_ok []
  | cons hv _ ih =>
    apply hv.bind
    intro bs
    exact ih.bind fun _ => onlyTooLong_ok _

/-- The items of an array are limited as the members of a tuple of one type are. -/
theorem onlyTooLong_items {elem : Ty} {items : List Value}
    (h : List.Forall₂ (fun t v => OnlyTooLong (t.encode v)) (List.replicate items.length elem) items) :
    OnlyTooLong (items.mapM fun item => return elem.part (← elem.encode item)) := by
  rw [mapM_part_eq_encodeMembers]
  exact onlyTooLong_encodeMembers h

section Types

variable {v : Value} {items : List Value}

theorem onlyTooLong_array {elem : Ty} (hv : v.items? = some items)
    (h : List.Forall₂ (fun t v => OnlyTooLong (t.encode v)) (List.replicate items.length elem) items) :
    OnlyTooLong ((Ty.array elem items.length).encode v) := by
  have hlen : expectLength (.array elem items.length) items.length items.length = .ok () := expectLength_eq_ok.mpr rfl
  rw [Ty.encode, itemsOf_eq_ok.mpr hv, ok_bind, hlen, ok_bind]
  exact (onlyTooLong_items h).bind onlyTooLong_layout

theorem onlyTooLong_list {elem : Ty} (hv : v.items? = some items)
    (h : List.Forall₂ (fun t v => OnlyTooLong (t.encode v)) (List.replicate items.length elem) items) :
    OnlyTooLong ((Ty.list elem).encode v) := by
  rw [Ty.encode, itemsOf_eq_ok.mpr hv, ok_bind]
  apply (onlyTooLong_items h).bind
  intro parts
  exact (onlyTooLong_layout parts).bind (onlyTooLong_withLength _)

theorem onlyTooLong_tuple {members : List Ty} (hv : v.items? = some items)
    (h : List.Forall₂ (fun t v => OnlyTooLong (t.encode v)) members items) :
    OnlyTooLong ((Ty.tuple members).encode v) := by
  have hlen : expectLength (.tuple members) members.length items.length = .ok () :=
    expectLength_eq_ok.mpr h.length_eq.symm
  rw [Ty.encode, itemsOf_eq_ok.mpr hv, ok_bind, hlen, ok_bind]
  exact (onlyTooLong_encodeMembers h).bind onlyTooLong_layout

end Types

end AtomicGroup.Abi
