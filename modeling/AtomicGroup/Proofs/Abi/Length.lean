import AtomicGroup.Abi.Codec
import AtomicGroup.Proofs.Abi.Ty
import AtomicGroup.Proofs.Abi.Tuple

/-!
# The length of a tuple

Without dynamic members a tuple is all head, and its length is the one that its types have: full octets of truth
values are counted one by one while encoding and all at once from the types.
-/
namespace AtomicGroup.Abi

open Outcome

inductive PartOf : Ty → Part → Prop where
  | bit (b : Bool) : PartOf .bool (.bit b)
  | inline {t : Ty} {bs : Bytes} (hb : t ≠ .bool) (hl : bs.length = t.staticLength) : PartOf t (.inline bs)
  | tail {t : Ty} {bs : Bytes} (hd : t.isDynamic = true) : PartOf t (.tail bs)

@[simp] theorem headLength_append (cs ds : List Cell) : headLength (cs ++ ds) = headLength cs + headLength ds := by
  induction cs with
  | nil => simp [headLength]
  | cons c cs ih => simp only [List.cons_append, headLength, ih, Nat.add_assoc]

theorem headLength_flush {pending : List Bool} (h8 : pending.length ≤ 8) :
    headLength (flush pending) = Ty.octets pending.length := by
  by_cases h : pending = []
  · subst h; rfl
  · have hpos := List.length_pos_iff.mpr h
    simp only [flush, if_neg h, headLength, Cell.headLength, Ty.octets, List.length_singleton]
    omega

theorem tail_flush (pending : List Bool) : (flush pending).flatMap Cell.tail = [] := by
  unfold flush
  split <;> rfl

/-- Static members have no tail, and their head is as long as their types say. -/
theorem headLength_cellsAfter {ts : List Ty} {ps : List Part} (h : List.Forall₂ PartOf ts ps)
    (hs : ∀ t ∈ ts, t.isDynamic = false) (pending : List Bool) (h7 : pending.length ≤ 7) :
    headLength (cellsAfter pending ps) = Ty.membersLength pending.length ts ∧
      (cellsAfter pending ps).flatMap Cell.tail = [] := by
  induction h generalizing pending with
  | nil => exact ⟨headLength_flush (by omega), tail_flush pending⟩
  | @cons t p ts ps ht _ ih =>
    have hrest := ih fun t ht => hs t (List.mem_cons_of_mem _ ht)
    cases ht with
    | tail hd =>
      rw [hs t List.mem_cons_self] at hd
      cases hd
    | inline hb hl =>
      obtain ⟨hlen, htail⟩ := hrest [] (by simp)
      constructor
      · rw [cellsAfter, headLength_append, headLength_flush (by omega), headLength, hlen,
          Ty.membersLength_cons hb, Cell.headLength, hl, List.length_nil, Nat.add_assoc]
      · simp only [cellsAfter, List.flatMap_append, List.flatMap_cons, tail_flush, Cell.tail, htail,
          List.append_nil]
    | bit b =>
      by_cases hfull : pending.length = 7
      · obtain ⟨hlen, htail⟩ := hrest [] (by simp)
        have hflush : headLength (flush (pending ++ [b])) = 1 := by
          rw [headLength_flush (by simp [hfull]), List.length_append, hfull]
          simp [Ty.octets]
        constructor
        · rw [cellsAfter, if_pos hfull, headLength_append, hflush, hlen, Ty.membersLength, hfull,
            ← Nat.zero_add (7 + 1), Ty.membersLength_add_eight, Nat.add_comm]
          rfl
        · rw [cellsAfter, if_pos hfull, List.flatMap_append, tail_flush, htail, List.append_nil]
      · obtain ⟨hlen, htail⟩ := hrest (pending ++ [b]) (by simp; omega)
        rw [cellsAfter, if_neg hfull, Ty.membersLength, hlen, List.length_append, List.length_singleton]
        exact ⟨rfl, htail⟩

theorem length_layout {ts : List Ty} {ps : List Part} {bs : Bytes} (h : List.Forall₂ PartOf ts ps)
    (hs : ∀ t ∈ ts, t.isDynamic = false) (hl : layout ps = .ok bs) : bs.length = Ty.membersLength 0 ts := by
  obtain ⟨head, hhead, hp⟩ := bind_eq_ok.mp hl
  obtain rfl := pure_eq_ok.mp hp
  obtain ⟨hlen, htail⟩ := headLength_cellsAfter h hs [] (by simp)
  rw [cells, htail, List.append_nil, length_heads hhead]
  exact hlen

end AtomicGroup.Abi
