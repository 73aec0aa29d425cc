import AtomicGroup.Proofs.Composer.Expansion
import AtomicGroup.Proofs.Composer.Run

/-!
# What every composer keeps to

However a composer was driven, it holds at most sixteen transactions, unstamped while it is being built and a valid
group from then on, and it keeps signed payloads exactly when it is signed, one for each transaction. Along one
composer nothing goes back: `Extends` says what stays of an earlier state in a later one.
-/
namespace AtomicGroup.Composer

open Outcome

def rank (c : Composer) : Nat :=
  match c.status with
  | .building => 0
  | .built => 1
  | .signed => 2

/-- A list of transactions stamped as a group: a lone one has no id, and more carry the id of the list. -/
structure Grouped (txns : List Transaction) : Prop where
  nonempty : 1 ≤ txns.length
  verifies : Group.verify txns = .ok true
  lone : txns.length = 1 → ∀ t ∈ txns, t.header.group = .zero
  stamped : 2 ≤ txns.length → ∀ t ∈ txns, Group.id txns = .ok t.header.group

/-- What every reachable composer is like. -/
structure Sound (c : Composer) : Prop where
  count_le : c.count ≤ maxGroupSize
  building : c.status = .building → (∀ t ∈ c.txns, t.header.group = .zero) ∧ c.cache = []
  grouped : c.status ≠ .building → Grouped c.txns
  cached : c.cache ≠ [] ↔ c.status = .signed
  signed : c.status = .signed → c.cache.length = c.count ∧ ∀ payload ∈ c.cache, payload ≠ []

/-- What stays of a composer in a later state of it. -/
structure Extends (c d : Composer) : Prop where
  rank_le : c.rank ≤ d.rank
  count_le : c.count ≤ d.count
  appended : ∃ added, d.entries.map (·.bare) = c.entries.map (·.bare) ++ added
  frozen : c.status ≠ .building → d.entries.map (·.bare) = c.entries.map (·.bare) ∧ d.txns = c.txns
  kept : c.status = .signed → d.status = .signed ∧ d.cache = c.cache

/-- A composer that keeps nothing and is not signed is sound when its transactions are as its status asks. -/
theorem sound_of_unsigned {c : Composer} (hn : c.count ≤ maxGroupSize) (hu : c.status ≠ .signed) (hc : c.cache = [])
    (hb : c.status = .building → ∀ t ∈ c.txns, t.header.group = .zero)
    (hg : c.status ≠ .building → Grouped c.txns) : c.Sound :=
  ⟨hn, fun h => ⟨hb h, hc⟩, hg, by simp [hc, hu], by simp [hu]⟩

/-- Nothing is kept before all is signed. -/
theorem Sound.cache_eq_nil {c : Composer} (h : c.Sound) (hu : c.status ≠ .signed) : c.cache = [] := by
  by_contra hc
  exact hu (h.cached.mp hc)

/-- A group of one that carries no id. -/
theorem grouped_singleton {t : Transaction} (h : t.header.group = .zero) : Grouped [t] := by
  refine ⟨by simp, Group.verify_singleton h, ?_, by simp⟩
  intro _ u hu
  rw [List.mem_singleton.mp hu, h]

/-- A list of more than one, stamped with its own id. -/
theorem grouped_stamped {txns : List Transaction} (h2 : 2 ≤ txns.length) (hn : txns.length ≤ maxGroupSize) :
    Grouped (txns.map (·.withGroup (Group.digest txns))) := by
  have hne : txns.map (·.withGroup (Group.digest txns)) ≠ [] := by
    intro h
    rw [List.map_eq_nil_iff.mp h] at h2
    simp at h2
  have hid : ∀ t ∈ txns.map (·.withGroup (Group.digest txns)),
      t.header.group = Group.digest (txns.map (·.withGroup (Group.digest txns))) := by
    intro t ht
    obtain ⟨u, -, rfl⟩ := List.mem_map.mp ht
    rw [Group.digest_map_withGroup, Transaction.group_withGroup]
  refine ⟨by simp; omega, Group.verify_of_id hne (by simpa using hn) hid, by simp; omega, ?_⟩
  intro _ t ht
  exact Group.id_eq_ok.mpr ⟨hne, by simpa using hn, (hid t ht).symm⟩

@[simp] theorem count_answering (b : Behaviour) (c : Composer) : (c.answering b).count = c.count := by
  simp [count, answering]

@[simp] theorem txns_answering (b : Behaviour) (c : Composer) : (c.answering b).txns = c.txns := by
  simp [txns, answering, Function.comp_def]

theorem txns_stamp (id : Digest) (entries : List ComposerEntry) (status : ComposerStatus) (cache : List Bytes) :
    (Composer.mk status (entries.map (·.stamp id)) cache).txns = (entries.map (·.txn)).map (·.withGroup id) := by
  simp [txns, Function.comp_def]

section Steps

variable {c d : Composer}

/-- Soundness depends on the status, the transactions and what is kept. -/
theorem Sound.congr (h : c.Sound) (hs : d.status = c.status) (ht : d.txns = c.txns) (hc : d.cache = c.cache) :
    d.Sound := by
  have hn : d.count = c.count := by rw [← length_txns, ht, length_txns]
  refine ⟨?_, ?_, ?_, ?_, ?_⟩
  · rw [hn]; exact h.count_le
  · rw [hs, ht, hc]; exact h.building
  · rw [hs, ht]; exact h.grouped
  · rw [hc, hs]; exact h.cached
  · rw [hc, hs, hn]; exact h.signed

/-- New entries without a group id keep a building composer sound while there is room. -/
theorem sound_append (h : c.Sound) (hs : c.status = .building) {new : List ComposerEntry}
    (hroom : c.count + new.length ≤ maxGroupSize) (hz : ∀ e ∈ new, e.txn.header.group = .zero) :
    ({ c with entries := c.entries ++ new } : Composer).Sound := by
  refine sound_of_unsigned ?_ (by simp [hs]) (h.cache_eq_nil (by simp [hs])) ?_ (by simp [hs])
  · simpa [count] using hroom
  · intro _ t ht
    simp only [txns, List.map_append, List.mem_append] at ht
    rcases ht with ht | ht
    · exact (h.building hs).1 t ht
    · obtain ⟨e, he, rfl⟩ := List.mem_map.mp ht
      exact hz e he

theorem sound_addTransaction {entry : TxnEntry} {u : Unit} (h : c.Sound)
    (hd : (addTransaction entry).run c = .ok u d) : d.Sound := by
  obtain ⟨hs, hn, hg, rfl⟩ := addTransaction_eq_ok hd
  have hle := h.count_le
  refine sound_append h hs (by simp only [List.length_singleton]; omega) ?_
  intro e he
  rw [List.mem_singleton.mp he]
  exact Transaction.hasGroup_eq_false_iff.mp hg

theorem sound_addMethodCall {call : MethodCall} {u : Unit} (h : c.Sound)
    (hd : (addMethodCall call).run c = .ok u d) : d.Sound := by
  obtain ⟨hs, hn, args, entry, hx, rfl⟩ := addMethodCall_eq_ok hd
  obtain ⟨hcount, hargs, hentry⟩ := MethodCall.expand_spec hx
  rw [List.append_assoc]
  refine sound_append h hs ?_ ?_
  · simp only [List.length_append, List.length_map, List.length_singleton]
    omega
  · intro e he
    rcases List.mem_append.mp he with he | he
    · obtain ⟨a, ha, rfl⟩ := List.mem_map.mp he
      exact hargs a ha
    · rw [List.mem_singleton.mp he]
      exact hentry

theorem sound_build (h : c.Sound) (hd : BuildsTo c d) : d.Sound := by
  cases hd with
  | same => exact h
  | lone hs e he =>
    refine sound_of_unsigned h.count_le (by simp) (h.cache_eq_nil (by simp [hs])) (by simp) ?_
    intro _
    have hz := (h.building hs).1 e.txn (by simp [txns, he])
    have ht : ({ c with status := .built } : Composer).txns = [e.txn] := by simp [txns, he]
    rw [ht]
    exact grouped_singleton hz
  | stamped hs hmany hn =>
    refine sound_of_unsigned (by simpa [count] using hn) (by simp) (h.cache_eq_nil (by simp [hs])) (by simp) ?_
    intro _
    rw [txns_stamp]
    exact grouped_stamped (by simpa using hmany) (by simpa using hn)

end Steps

end AtomicGroup.Composer
