import AtomicGroup.Proofs.Txn.Codec
import AtomicGroup.Proofs.Txn.Group

/-!
# What a group id binds

The id of a group is a digest of its members' digests. Computing it hashes the byte strings `Group.hashed`, and two
lists of transactions with one id are the same but for their group fields unless one byte string of each collide. No
assumption on the hash is made: a collision is what a statement ends in, not what it rules out.
-/
namespace AtomicGroup

/-- Two transactions that are equal in every field except the group. -/
def Transaction.SameButGroup (t u : Transaction) : Prop := t.withGroup u.header.group = u

theorem Transaction.sameButGroup_iff {t u : Transaction} : t.SameButGroup u ↔ t.withGroup .zero = u.withGroup .zero := by
  constructor
  · intro h
    rw [← show t.withGroup u.header.group = u from h]
    rfl
  · intro h
    have hback : (u.withGroup .zero).withGroup u.header.group = u := rfl
    rw [SameButGroup, ← hback, ← h]
    rfl

namespace Group

/-- The byte strings that are hashed for the id of a group: that of all member ids, and one for each member. -/
def hashed (txns : List Transaction) : List Bytes :=
  Domain.group.tagged (preimage txns) :: txns.map fun t => (t.withGroup .zero).bytesToSign

/-- Two different byte strings of one digest, each hashed for one of two groups. -/
def Collision (xs ys : List Transaction) : Prop :=
  ∃ p ∈ hashed xs, ∃ q ∈ hashed ys, p ≠ q ∧ Digest.of p = Digest.of q

variable {xs ys : List Transaction}

/-- Without a collision, hashed byte strings of one digest are the same. -/
theorem eq_of_not_collision (hc : ¬Collision xs ys) {p q : Bytes} (hp : p ∈ hashed xs) (hq : q ∈ hashed ys)
    (h : Digest.of p = Digest.of q) : p = q := by
  by_contra hne
  exact hc ⟨p, hp, q, hq, hne, h⟩

theorem Members.lawful_schema : Members.schema.Lawful := ⟨by simp, by decide, fun _ => rfl⟩

/-- The octets of a list of member ids determine the list. -/
theorem ids_eq_of_preimage (hx : xs.length ≤ maxGroupSize) (hy : ys.length ≤ maxGroupSize)
    (h : preimage xs = preimage ys) :
    xs.map (fun t => (t.withGroup .zero).id) = ys.map (fun t => (t.withGroup .zero).id) := by
  have hshort : ∀ {txns : List Transaction}, txns.length ≤ maxGroupSize →
      Members.schema.Short ⟨txns.map fun t => (t.withGroup .zero).id⟩ := by
    intro txns hn
    have hlt : txns.length < 0x100000000 := Nat.lt_of_le_of_lt hn (by decide)
    simpa [Members.schema, Digest.schema] using hlt
  have hmembers := Wire.Schema.encode_injective Members.lawful_schema (by decide +kernel) (by decide +kernel)
    (hshort hx) (hshort hy) h
  exact congrArg Members.ids hmembers

/-- Lists of one digest are the same but for their group fields, or a collision is at hand. -/
theorem same_or_collision (hx : ∀ t ∈ xs, Transaction.schema.Short t) (hy : ∀ t ∈ ys, Transaction.schema.Short t)
    (hnx : xs.length ≤ maxGroupSize) (hny : ys.length ≤ maxGroupSize) (h : digest xs = digest ys) :
    List.Forall₂ Transaction.SameButGroup xs ys ∨ Collision xs ys := by
  by_cases hc : Collision xs ys
  · exact .inr hc
  left
  have hpreimage : preimage xs = preimage ys :=
    List.append_cancel_left (eq_of_not_collision hc List.mem_cons_self List.mem_cons_self h)
  have hids := ids_eq_of_preimage hnx hny hpreimage
  rw [← List.forall₂_eq_eq_eq, List.forall₂_map_left_iff, List.forall₂_map_right_iff] at hids
  -- Each pair of members hashes one byte string each, and these are the same.
  have hpair : List.Forall₂ (fun t u => t ∈ xs ∧ u ∈ ys ∧ (t.withGroup .zero).id = (u.withGroup .zero).id) xs ys :=
    (List.forall₂_and_left _ _).mpr ⟨fun t ht => ht, ((List.forall₂_and_left _ _).mpr ⟨fun u hu => hu, hids.flip⟩).flip⟩
  refine hpair.imp ?_
  rintro t u ⟨ht, hu, hid⟩
  have hsigned : (t.withGroup .zero).bytesToSign = (u.withGroup .zero).bytesToSign :=
    eq_of_not_collision hc (List.mem_cons_of_mem _ (List.mem_map.mpr ⟨t, ht, rfl⟩))
      (List.mem_cons_of_mem _ (List.mem_map.mpr ⟨u, hu, rfl⟩)) hid
  have hcleared : t.withGroup .zero = u.withGroup .zero :=
    Transaction.bytesToSign_injective (Transaction.short_withGroup.mpr (hx t ht))
      (Transaction.short_withGroup.mpr (hy u hu)) hsigned
  exact Transaction.sameButGroup_iff.mpr hcleared

/-- More than one transaction verify exactly when they are not too many and all carry the id of the list. -/
theorem verify_of_two_le {txns : List Transaction} (h : 2 ≤ txns.length) :
    verify txns = .ok (decide (txns.length ≤ maxGroupSize ∧ ∀ t ∈ txns, t.header.group = digest txns)) := by
  match txns, h with
  | first :: rest, h =>
    have hrest : ¬(rest = [] ∧ first.header.group.isZero) := by
      rintro ⟨rfl, -⟩
      simp at h
    rw [verify, if_neg hrest]
    by_cases hany : (first :: rest).any (·.header.group != first.header.group)
    · -- Members that differ cannot all carry one id.
      have hnot : ¬∀ t ∈ first :: rest, t.header.group = digest (first :: rest) := by
        intro hall
        obtain ⟨t, ht, hne⟩ := List.any_eq_true.mp hany
        rw [hall t ht, hall first List.mem_cons_self, bne_self_eq_false] at hne
        cases hne
      rw [if_pos hany, decide_eq_false fun hand => hnot hand.2]
    · have hall : ∀ t ∈ first :: rest, t.header.group = first.header.group := by
        intro t ht
        by_contra hne
        exact hany (List.any_eq_true.mpr ⟨t, ht, bne_iff_ne.mpr hne⟩)
      rw [if_neg hany]
      by_cases hn : maxGroupSize < (first :: rest).length
      · rw [if_pos hn, decide_eq_false fun hand => Nat.not_le.mpr hn hand.1]
      · have hiff : ((first :: rest).length ≤ maxGroupSize ∧
            ∀ t ∈ first :: rest, t.header.group = digest (first :: rest)) ↔
            digest (first :: rest) = first.header.group := by
          constructor
          · intro hand
            exact (hand.2 first List.mem_cons_self).symm
          · intro heq
            exact ⟨Nat.not_lt.mp hn, fun t ht => (hall t ht).trans heq.symm⟩
        rw [if_neg hn, decide_eq_decide.mpr hiff]
        rfl

theorem verify_eq_true_iff {txns : List Transaction} (h : 2 ≤ txns.length) :
    verify txns = .ok true ↔ txns.length ≤ maxGroupSize ∧ ∀ t ∈ txns, t.header.group = digest txns := by
  rw [verify_of_two_le h]
  simp

/-- Transactions that are the same but for their group, and carry one group, are equal. -/
theorem eq_of_same {g : Digest} (h : List.Forall₂ Transaction.SameButGroup xs ys) (hx : ∀ t ∈ xs, t.header.group = g)
    (hy : ∀ t ∈ ys, t.header.group = g) : xs = ys := by
  induction h with
  | nil => rfl
  | @cons t u ts us hsame _ ih =>
    have htu : t.header.group = u.header.group :=
      (hx t List.mem_cons_self).trans (hy u List.mem_cons_self).symm
    have heq : t = u := by
      rw [← show t.withGroup u.header.group = u from hsame, ← htu]
      rfl
    rw [heq, ih (fun v hv => hx v (List.mem_cons_of_mem _ hv)) fun v hv => hy v (List.mem_cons_of_mem _ hv)]

/-- A group id binds the ordered list: lists of one id are the same but for their group fields, and no other list that
carries the group field of a verified one verifies. Both hold unless a collision is at hand. -/
theorem id_binds_list (hx : ∀ t ∈ xs, Transaction.schema.Short t) (hy : ∀ t ∈ ys, Transaction.schema.Short t) :
    (1 ≤ xs.length → xs.length ≤ maxGroupSize → 1 ≤ ys.length → ys.length ≤ maxGroupSize → id xs = id ys →
      List.Forall₂ Transaction.SameButGroup xs ys ∨ Collision xs ys) ∧
    (2 ≤ xs.length → verify xs = .ok true → 2 ≤ ys.length →
      (∀ u ∈ ys, ∃ t ∈ xs, u.header.group = t.header.group) → ys ≠ xs → verify ys = .ok false ∨ Collision xs ys) := by
  constructor
  · intro hx1 hnx hy1 hny hid
    have hxid : id xs = .ok (digest xs) := id_eq_ok.mpr ⟨List.length_pos_iff.mp hx1, hnx, rfl⟩
    have hyid : id ys = .ok (digest ys) := id_eq_ok.mpr ⟨List.length_pos_iff.mp hy1, hny, rfl⟩
    rw [hxid, hyid] at hid
    exact same_or_collision hx hy hnx hny (Except.ok.inj hid)
  · intro hx2 hverify hy2 hgroups hne
    obtain ⟨hnx, hxg⟩ := (verify_eq_true_iff hx2).mp hverify
    by_cases hv : verify ys = .ok true
    · obtain ⟨hny, hyg⟩ := (verify_eq_true_iff hy2).mp hv
      have hyx : ∀ u ∈ ys, u.header.group = digest xs := by
        intro u hu
        obtain ⟨t, ht, hut⟩ := hgroups u hu
        exact hut.trans (hxg t ht)
      obtain ⟨u, hu⟩ := List.exists_mem_of_length_pos (Nat.lt_of_lt_of_le Nat.zero_lt_two hy2)
      have hdigest : digest xs = digest ys := (hyx u hu).symm.trans (hyg u hu)
      refine (same_or_collision hx hy hnx hny hdigest).imp ?_ fun hc => hc
      intro hsame
      exact absurd (eq_of_same hsame hxg hyx).symm hne
    · left
      rw [verify_of_two_le hy2] at hv ⊢
      simpa using hv

def loosePair : List Transaction := [{}, { kind := .appCall }]

def boundPair : List Transaction := loosePair.map (·.withGroup (digest loosePair))

theorem boundPair_binds : verify boundPair = .ok true ∧
    (verify boundPair.reverse = .ok false ∨ Collision boundPair boundPair.reverse) ∧ id loosePair = id boundPair ∧
    (List.Forall₂ Transaction.SameButGroup loosePair boundPair ∨ Collision loosePair boundPair) := by
  have hcall : Transaction.schema.Short { kind := .appCall } := by
    simp [Transaction.schema, Address.schema, Digest.schema, TxnKind.schema, OnCompletion.schema, AssetParams.schema,
      StateLimits.schema]
    decide
  have hloose : ∀ t ∈ loosePair, Transaction.schema.Short t := by
    simp [loosePair, Transaction.short_default, hcall]
  have hbound : ∀ t ∈ boundPair, Transaction.schema.Short t := by
    simpa [boundPair] using hloose
  have hdigest : digest boundPair = digest loosePair := digest_map_withGroup _ _
  have hverify : verify boundPair = .ok true := by
    rw [verify_eq_true_iff (by decide), hdigest]
    simp [boundPair, loosePair, maxGroupSize]
  have hid : id loosePair = id boundPair := by
    rw [id_eq_ok.mpr ⟨by simp [loosePair], by decide, rfl⟩]
    exact (id_eq_ok.mpr ⟨by simp [boundPair, loosePair], by decide, hdigest⟩).symm
  have hswapped : boundPair.reverse ≠ boundPair := by
    intro h
    have hkinds := congrArg (List.map Transaction.kind) h
    simp [boundPair, loosePair, Transaction.withGroup] at hkinds
  have hreverse : ∀ u ∈ boundPair.reverse, ∃ t ∈ boundPair, u.header.group = t.header.group :=
    fun u hu => ⟨u, List.mem_reverse.mp hu, rfl⟩
  refine ⟨hverify, ?_, hid, (id_binds_list hloose hbound).1 (by decide) (by decide) (by decide) (by decide) hid⟩
  exact (id_binds_list hbound fun t ht => hbound t (List.mem_reverse.mp ht)).2 (by decide) hverify (by decide) hreverse
    hswapped

end Group

end AtomicGroup
