import AtomicGroup.Proofs.Txn.Codec
import AtomicGroup.Proofs.Txn.Segments

/-!
# Groups of encoded transactions

Byte strings that are decoded one after the other fail at the first that writes no transaction. Those that all write
one, canonically or not, are stamped by re-encoding: what comes out is canonical, and stamping it again changes nothing.
-/
namespace AtomicGroup

open Outcome

def Undecodable (bs : Bytes) : Prop := ∀ t, Transaction.decode bs ≠ .ok t

theorem Undecodable.exists_error {bs : Bytes} (h : Undecodable bs) : ∃ e, Transaction.decode bs = .error e := by
  cases ht : Transaction.decode bs with
  | error e => exact ⟨e, rfl⟩
  | ok t => exact absurd ht (h t)

namespace Group

variable {encoded : List Bytes} {txns : List Transaction} {gid : Digest}

theorem decodeFrom_eq_error {index : Nat} {err : GroupError} :
    decodeFrom index encoded = .error err ↔
      ∃ i bs e, FirstAt Undecodable encoded i bs ∧ Transaction.decode bs = .error e ∧ err = .decode (index + i) e := by
  induction encoded generalizing index with
  | nil => exact iff_of_false (by simp [decodeFrom]) fun ⟨_, _, _, hfirst, _⟩ => not_firstAt_nil hfirst
  | cons bs rest ih =>
    cases ht : Transaction.decode bs with
    | error e =>
      have hbad : Undecodable bs := by simp [Undecodable, ht]
      simp only [decodeFrom, ht, firstAt_cons_of_pos hbad]
      constructor
      · intro h
        exact ⟨0, bs, e, ⟨rfl, rfl⟩, ht, (Except.error.inj h).symm⟩
      · rintro ⟨i, bs', e', ⟨rfl, rfl⟩, he, rfl⟩
        rw [ht] at he
        rw [Except.error.inj he]
        rfl
    | ok t =>
      have hgood : ¬Undecodable bs := fun hbad => hbad t ht
      have hrest : decodeFrom index (bs :: rest) = .error err ↔ decodeFrom (index + 1) rest = .error err := by
        simp only [decodeFrom, ht]
        cases decodeFrom (index + 1) rest <;> simp [Except.mapError, bind, Except.bind, pure, Except.pure]
      rw [hrest, ih]
      simp only [firstAt_cons_of_neg hgood]
      constructor
      · rintro ⟨i, bs', e, hfirst, he, rfl⟩
        exact ⟨i + 1, bs', e, ⟨i, rfl, hfirst⟩, he, by rw [Nat.add_right_comm, Nat.add_assoc]⟩
      · rintro ⟨i, bs', e, ⟨j, rfl, hfirst⟩, he, rfl⟩
        exact ⟨j, bs', e, hfirst, he, by rw [Nat.add_right_comm, Nat.add_assoc]⟩

theorem length_of_decodeFrom {index : Nat} (h : decodeFrom index encoded = .ok txns) :
    txns.length = encoded.length := by
  induction encoded generalizing index txns with
  | nil =>
    obtain rfl := Except.ok.inj h
    rfl
  | cons bs rest ih =>
    simp only [decodeFrom, bind_eq_ok, pure_eq_ok] at h
    obtain ⟨t, -, txns', hrest, rfl⟩ := h
    rw [List.length_cons, List.length_cons, ih hrest]

/-- All operations on encoded transactions fail as reading them does. -/
theorem encoded_eq_error {err : GroupError} (h : decode encoded = .error err) :
    assignEncoded encoded = .error err ∧ verifyEncoded encoded = .error err ∧ segmentEncoded encoded = .error err := by
  simp only [assignEncoded, verifyEncoded, segmentEncoded, h]
  exact ⟨rfl, rfl, rfl⟩

/-- Byte strings that each write a transaction are read one after the other. -/
theorem decodeFrom_eq_ok (index : Nat) (h : List.Forall₂ (fun t bs => Transaction.decode bs = .ok t) txns encoded) :
    decodeFrom index encoded = .ok txns := by
  induction h generalizing index with
  | nil => rfl
  | cons ht _ ih =>
    simp only [decodeFrom, ht, ih (index + 1)]
    rfl

theorem decodeFrom_map_encode (index : Nat) (h : ∀ t ∈ txns, Transaction.schema.Short t) :
    decodeFrom index (txns.map (·.encode)) = .ok txns := by
  refine decodeFrom_eq_ok index ?_
  rw [List.forall₂_map_right_iff, List.forall₂_same]
  exact fun t ht => Transaction.decode_encode (h t ht)

/-! ### Transactions under their id -/

theorem id_map_withGroup (hid : id txns = .ok gid) : id (txns.map (·.withGroup gid)) = .ok gid := by
  obtain ⟨hne, hn, hdigest⟩ := id_eq_ok.mp hid
  exact id_eq_ok.mpr ⟨by simpa using hne, by simpa using hn, by rw [digest_map_withGroup, hdigest]⟩

theorem verify_map_withGroup (hid : id txns = .ok gid) : verify (txns.map (·.withGroup gid)) = .ok true := by
  obtain ⟨hne, hn, hdigest⟩ := id_eq_ok.mp (id_map_withGroup hid)
  apply verify_of_id hne hn
  intro t ht
  obtain ⟨u, -, rfl⟩ := List.mem_map.mp ht
  exact hdigest.symm

/-- Transactions under their id are one group, unless the id stands for no id. -/
theorem segment_map_withGroup (hid : id txns = .ok gid) (hgid : gid ≠ .zero) :
    segment (txns.map (·.withGroup gid)) = .ok (List.replicate txns.length 0) := by
  cases txns with
  | nil => exact absurd rfl (id_eq_ok.mp hid).1
  | cons t txns =>
    have hfirst : ((t :: txns).map (·.withGroup gid)).head? = some (t.withGroup gid) := rfl
    rw [← List.length_map (f := (·.withGroup gid))]
    exact (segment_eq_replicate_iff hfirst (.inr hgid)).mpr (verify_map_withGroup hid)

/-- Transactions under a group id, encoded. -/
def stamped (gid : Digest) (txns : List Transaction) : List Bytes := (txns.map (·.withGroup gid)).map (·.encode)

theorem stamped_map_withGroup : stamped gid (txns.map (·.withGroup gid)) = stamped gid txns := by
  simp only [stamped, List.map_map, Function.comp_def, Transaction.withGroup_withGroup]

theorem assignEncoded_eq_ok (hdecode : decode encoded = .ok txns) (hid : id txns = .ok gid) :
    assignEncoded encoded = .ok (stamped gid txns) := by
  simp only [assignEncoded, hdecode, ok_bind, assign, hid]
  rfl

section stamped

variable (hshort : ∀ t ∈ txns, Transaction.schema.Short t)
include hshort

theorem short_of_mem_map_withGroup : ∀ t ∈ txns.map (·.withGroup gid), Transaction.schema.Short t := by
  intro t ht
  obtain ⟨u, hu, rfl⟩ := List.mem_map.mp ht
  exact Transaction.short_withGroup.mpr (hshort u hu)

theorem decode_stamped : decode (stamped gid txns) = .ok (txns.map (·.withGroup gid)) :=
  decodeFrom_map_encode 0 (short_of_mem_map_withGroup hshort)

theorem verifyEncoded_stamped (hid : id txns = .ok gid) : verifyEncoded (stamped gid txns) = .ok true := by
  rw [verifyEncoded, decode_stamped hshort, ok_bind, verify_map_withGroup hid]

theorem segmentEncoded_stamped (hid : id txns = .ok gid) (hgid : gid ≠ .zero) :
    segmentEncoded (stamped gid txns) = .ok (List.replicate txns.length 0) := by
  rw [segmentEncoded, decode_stamped hshort, ok_bind, segment_map_withGroup hid hgid]

/-- A transaction is written with one octet at least. -/
theorem ne_nil_of_mem_stamped : ∀ bs ∈ stamped gid txns, bs ≠ [] := by
  rintro _ hbs rfl
  obtain ⟨t, ht, hnil⟩ := List.mem_map.mp hbs
  have hread := Transaction.decode_encode (short_of_mem_map_withGroup hshort t ht)
  rw [hnil] at hread
  cases hread

end stamped

end Group

end AtomicGroup
