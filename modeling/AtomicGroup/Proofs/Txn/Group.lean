import AtomicGroup.Proofs.Txn.Fee
import AtomicGroup.Txn.Group

/-!
# Stamping a group

The group id does not depend on the ids that the transactions carry, so a list that is stamped with its own id
verifies. Building a transaction sets no group id.
-/
namespace AtomicGroup

namespace Transaction

variable (t : Transaction) (g h : Digest)

@[simp] theorem withGroup_withGroup : (t.withGroup g).withGroup h = t.withGroup h := rfl
@[simp] theorem group_withGroup : (t.withGroup g).header.group = g := rfl

theorem hasGroup_eq_false_iff {t : Transaction} : t.hasGroup = false ↔ t.header.group = .zero := by
  simp [hasGroup, Digest.isZero]

end Transaction

namespace TxnDraft

/-- Building leaves the kind, the sender, the group id and the fields of a call as they are drafted. -/
theorem kept_by_build {d : TxnDraft} {params : SuggestedParams} {t : Transaction} (h : d.build params = .ok t) :
    t.kind = d.txn.kind ∧ t.header.sender = d.txn.header.sender ∧ t.header.group = d.txn.header.group ∧
      t.appCall = d.txn.appCall := by
  obtain ⟨-, u, hu, rfl⟩ := build_eq_ok.mp h
  obtain ⟨fee, -, rfl⟩ := Transaction.applyFee_eq_ok_iff.mp hu
  cases d.rekeyAfterFee <;> exact ⟨rfl, rfl, rfl, rfl⟩

end TxnDraft

namespace Group

theorem digest_map_withGroup (txns : List Transaction) (g : Digest) :
    digest (txns.map (·.withGroup g)) = digest txns := by
  simp only [digest, preimage, List.map_map, Function.comp_def, Transaction.withGroup_withGroup]

theorem id_eq_ok {txns : List Transaction} {g : Digest} :
    id txns = .ok g ↔ txns ≠ [] ∧ txns.length ≤ maxGroupSize ∧ digest txns = g := by
  unfold id
  by_cases h : txns = []
  · simp [h]
  · by_cases hn : maxGroupSize < txns.length
    · simp [h, hn, Nat.not_le.mpr hn]
    · simp [h, hn, Nat.not_lt.mp hn]

/-- A list whose members all carry its own id verifies. -/
theorem verify_of_id {txns : List Transaction} (hne : txns ≠ []) (hn : txns.length ≤ maxGroupSize)
    (h : ∀ t ∈ txns, t.header.group = digest txns) : verify txns = .ok true := by
  cases txns with
  | nil => exact absurd rfl hne
  | cons first rest =>
    have hfirst : first.header.group = digest (first :: rest) := h first List.mem_cons_self
    have hsame : ((first :: rest).any fun t => t.header.group != first.header.group) = false := by
      rw [List.any_eq_false]
      intro t ht
      simp [h t ht, hfirst]
    rw [verify, hsame, if_neg Bool.false_ne_true, if_neg (Nat.not_lt.mpr hn), hfirst, beq_self_eq_true]
    split <;> rfl

theorem verify_singleton {t : Transaction} (h : t.header.group = .zero) : verify [t] = .ok true := by
  simp [verify, h, Digest.isZero]

end Group

end AtomicGroup
