import AtomicGroup.Proofs.Txn.Encoded
import AtomicGroup.Proofs.Wire.Canonical

/-!
# The canonical octets of transactions

The records of a transaction, signed or not, are all tidy, so that its octets are canonical and only one of many
spellings that decode to it. A transaction that is read from any other spelling is the same transaction: it has the same
canonical octets, the same id, and the same group.
-/
namespace AtomicGroup

open Wire Outcome
open Msgpack (Value)

section Tidy

@[simp] theorem Address.tidy_schema : Address.schema.Each @Fields.Tidy := trivial
@[simp] theorem Digest.tidy_schema : Digest.schema.Each @Fields.Tidy := trivial
@[simp] theorem Signature.tidy_schema : Signature.schema.Each @Fields.Tidy := trivial
@[simp] theorem TxnKind.tidy_schema : TxnKind.schema.Each @Fields.Tidy := trivial
@[simp] theorem OnCompletion.tidy_schema : OnCompletion.schema.Each @Fields.Tidy := trivial

@[simp] theorem AssetParams.tidy_schema : AssetParams.schema.Each @Fields.Tidy :=
  ⟨⟨rfl, by decide, by simp⟩, by simp⟩

@[simp] theorem StateLimits.tidy_schema : StateLimits.schema.Each @Fields.Tidy :=
  ⟨⟨rfl, by decide, by simp⟩, by simp⟩

@[simp] theorem BoxReference.tidy_schema : BoxReference.schema.Each @Fields.Tidy :=
  ⟨⟨rfl, by decide, by simp⟩, by simp⟩

@[simp] theorem Transaction.tidy_schema : Transaction.schema.Each @Fields.Tidy :=
  ⟨⟨rfl, by decide, by simp⟩, by simp⟩

@[simp] theorem MultisigSlot.tidy_schema : MultisigSlot.schema.Each @Fields.Tidy :=
  ⟨⟨rfl, by decide, by simp⟩, by simp⟩

@[simp] theorem MultisigEnvelope.tidy_schema : MultisigEnvelope.schema.Each @Fields.Tidy :=
  ⟨⟨rfl, by decide, by simp⟩, by simp⟩

@[simp] theorem LogicSig.tidy_schema : LogicSig.schema.Each @Fields.Tidy :=
  ⟨⟨rfl, by decide, by simp⟩, by simp⟩

theorem SignedTxn.tidy_schema : SignedTxn.schema.Each @Fields.Tidy :=
  ⟨⟨rfl, by decide, by simp⟩, by simp⟩

end Tidy

theorem Transaction.decode_of_rearranged {t : Transaction} {bs : Bytes} (h : Transaction.schema.Rearranged t bs) :
    Transaction.decode bs = .ok t := by
  rw [decode, Schema.decode_of_rearranged lawful_schema h]
  rfl

theorem SignedTxn.decode_of_rearranged {s : SignedTxn} {bs : Bytes} (h : SignedTxn.schema.Rearranged s bs) :
    SignedTxn.decode bs = .ok s := by
  rw [decode, Schema.decode_of_rearranged lawful_schema h]
  rfl

/-- Spellings of some transactions are the group that their canonical octets are. -/
theorem Group.decode_of_rearranged {txns : List Transaction} {encoded : List Bytes}
    (h : List.Forall₂ Transaction.schema.Rearranged txns encoded) (hshort : ∀ t ∈ txns, Transaction.schema.Short t) :
    Group.decode encoded = Group.decode (txns.map (·.encode)) := by
  have hencoded : Group.decode encoded = .ok txns :=
    Group.decodeFrom_eq_ok 0 (h.imp fun t bs hbs => Transaction.decode_of_rearranged hbs)
  rw [hencoded]
  exact (Group.decodeFrom_map_encode 0 hshort).symm

/-- The octets of a transaction, signed or not, have the keys of each record in ascending order, no field that can be
left out and holds its default, and headers that are as short as they can be. They decode to the same when the entries
of any records in them are put in another order and fields at their defaults are added, whatever the headers, so that
nothing that is made of a transaction or of a group depends on this. -/
theorem octets_canonical_and_order_free :
    (∀ t, Transaction.schema.Short t → Transaction.schema.Canonical t t.encode ∧
      ∀ v : Value, Transaction.schema.Writes .anyOrder t v → Transaction.schema.Rearranged t v.encode) ∧
    (∀ s, SignedTxn.schema.Short s → SignedTxn.schema.Canonical s s.encode ∧
      ∀ v : Value, SignedTxn.schema.Writes .anyOrder s v → SignedTxn.schema.Rearranged s v.encode) ∧
    (∀ t bs, Transaction.schema.Rearranged t bs → Transaction.decode bs = .ok t) ∧
    (∀ s bs, SignedTxn.schema.Rearranged s bs → SignedTxn.decode bs = .ok s) ∧
    (∀ txns encoded, List.Forall₂ Transaction.schema.Rearranged txns encoded →
      (∀ t ∈ txns, Transaction.schema.Short t) →
      Group.assignEncoded encoded = Group.assignEncoded (txns.map (·.encode)) ∧
      Group.verifyEncoded encoded = Group.verifyEncoded (txns.map (·.encode)) ∧
      Group.segmentEncoded encoded = Group.segmentEncoded (txns.map (·.encode))) := by
  have hdepth : Transaction.schema.depth ≤ Msgpack.maxDepth := Transaction.depth_le (by decide)
  have hdepthSigned : SignedTxn.schema.depth ≤ Msgpack.maxDepth := SignedTxn.depth_le (by decide)
  refine ⟨?_, ?_, fun t bs => Transaction.decode_of_rearranged, fun s bs => SignedTxn.decode_of_rearranged, ?_⟩
  · intro t ht
    have hcanonical := Schema.canonical_encode Transaction.lawful_schema Transaction.tidy_schema
      Transaction.sized_schema hdepth ht
    refine ⟨hcanonical, ?_⟩
    exact fun v hv => Schema.rearranged_of_writes Transaction.lawful_schema Transaction.sized_schema hdepth ht hv
  · intro s hs
    have hcanonical := Schema.canonical_encode SignedTxn.lawful_schema SignedTxn.tidy_schema SignedTxn.sized_schema
      hdepthSigned hs
    refine ⟨hcanonical, ?_⟩
    exact fun v hv => Schema.rearranged_of_writes SignedTxn.lawful_schema SignedTxn.sized_schema hdepthSigned hs hv
  · intro txns encoded h hshort
    have hdecode := Group.decode_of_rearranged h hshort
    simp only [Group.assignEncoded, Group.verifyEncoded, Group.segmentEncoded, hdecode, and_self]

def creation : Transaction where
  kind := .assetConfig
  header := { fee := 1000 }
  assetConfig := { params := { decimals := 6, total := 300 } }

theorem short_creation : Transaction.schema.Short creation := by
  simp [creation, Transaction.schema, Address.schema, Digest.schema, TxnKind.schema, OnCompletion.schema,
    AssetParams.schema, StateLimits.schema]
  decide

/-- The parameters of the asset, backwards, together with one at its default. -/
def shuffledParams : Value :=
  Format.ofRecord [("t", Format.ofInt 300), ("df", Format.ofBool false), ("dc", Format.ofInt 6)]

def shuffledCreation : Value :=
  Format.ofRecord [("type", Format.ofText "acfg"), ("note", Format.ofBytes []), ("fee", Format.ofInt 1000),
    ("apar", shuffledParams)]

theorem writes_shuffledParams : AssetParams.schema.Writes .anyOrder creation.assetConfig.params shuffledParams := by
  refine ⟨_, rfl, ⟨["df"], by decide, by decide, by decide⟩, ?_⟩
  simp [Fields.Writes, Schema.Writes, Schema.write, creation]

theorem writes_shuffledCreation : Transaction.schema.Writes .anyOrder creation shuffledCreation := by
  refine ⟨_, rfl, ⟨["note"], by decide, by decide, by decide⟩, ?_⟩
  simp [Fields.Writes, TxnKind.schema, Schema.Writes, Schema.write, creation]
  exact ⟨writes_shuffledParams, rfl⟩

theorem shuffledCreation_read : Transaction.schema.Canonical creation creation.encode ∧
    shuffledCreation.encode ≠ creation.encode ∧ Transaction.decode shuffledCreation.encode = .ok creation ∧
    Group.assignEncoded [shuffledCreation.encode] = Group.assignEncoded [creation.encode] := by
  obtain ⟨hwritten, -, hread, -, hgroup⟩ := octets_canonical_and_order_free
  obtain ⟨hcanonical, hrearranged⟩ := hwritten creation short_creation
  have hshuffled := hrearranged shuffledCreation writes_shuffledCreation
  obtain ⟨hassign, -, -⟩ := hgroup [creation] [shuffledCreation.encode] (.cons hshuffled .nil) (by simpa using short_creation)
  exact ⟨hcanonical, by decide, hread _ _ hshuffled, hassign⟩

end AtomicGroup
