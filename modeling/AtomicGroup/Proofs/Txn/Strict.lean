import AtomicGroup.Proofs.Txn.Canonical
import AtomicGroup.Proofs.Wire.Strict

/-!
# Nothing is hidden in a transaction

Every record of a transaction, signed or not, is strict. Once an entry is put into any of them that is foreign to the
record or is there already, neither the octets nor the JSON text are a transaction any more.
-/
namespace AtomicGroup

open Wire
open Msgpack (Value Spells)

/-- Octets decode to the transaction, signed or not, whose tree they spell, and a JSON text of a transaction is turned
into its octets. With one entry more in any of the records they are refused, whatever the entry holds, wherever it stands
and however they are spelled. -/
theorem records_admit_no_other_entry :
    (∀ t bs, (Spells Msgpack.Form Msgpack.maxDepth (Transaction.schema.write t) bs → Transaction.decode bs = .ok t) ∧
      ∀ (v : Value) depth, Transaction.schema.Intruded t v → Spells Msgpack.Form depth v bs →
        Transaction.decode bs = .error (.encoding .decode)) ∧
    (∀ s bs, (Spells Msgpack.Form Msgpack.maxDepth (SignedTxn.schema.write s) bs → SignedTxn.decode bs = .ok s) ∧
      ∀ (v : Value) depth, SignedTxn.schema.Intruded s v → Spells Msgpack.Form depth v bs →
        SignedTxn.decode bs = .error (.encoding .decode)) ∧
    (∀ t text padded, Json.Padded text padded →
      (Json.Spells Json.maxDepth (Transaction.schema.write t) text →
        Transaction.msgpackOfJson (String.ofList padded) = .ok t.encode) ∧
      ∀ v : Json, Transaction.schema.Intruded t v → Json.Spells Json.maxDepth v text →
        Transaction.msgpackOfJson (String.ofList padded) = .error (.encoding .json)) := by
  refine ⟨fun t bs => ⟨fun hs => ?_, fun v depth h hs => ?_⟩, fun s bs => ⟨fun hs => ?_, fun v depth h hs => ?_⟩,
    fun t text padded hp => ⟨fun hs => ?_, fun v h hs => ?_⟩⟩
  · rw [Transaction.decode, Schema.decode_of_spells Transaction.lawful_schema hs]
    rfl
  · rw [Transaction.decode, Schema.decode_of_intruded Transaction.lawful_schema Transaction.tidy_schema h hs]
    rfl
  · rw [SignedTxn.decode, Schema.decode_of_spells SignedTxn.lawful_schema hs]
    rfl
  · rw [SignedTxn.decode, Schema.decode_of_intruded SignedTxn.lawful_schema SignedTxn.tidy_schema h hs]
    rfl
  · rw [Transaction.msgpackOfJson, Transaction.ofJson, Schema.ofJson_of_spells Transaction.lawful_schema hs hp]
    rfl
  · rw [Transaction.msgpackOfJson, Transaction.ofJson,
      Schema.ofJson_of_intruded Transaction.lawful_schema Transaction.tidy_schema h hs hp]
    rfl

def strayParams : Value :=
  Format.ofRecord [("dc", Format.ofInt 6), ("df2", Format.null), ("t", Format.ofInt 300)]

def strayCreation : Value :=
  Format.ofRecord [("apar", strayParams), ("fee", Format.ofInt 1000), ("type", Format.ofText "acfg")]

def unsigned : SignedTxn := { msig := some ⟨[⟨.zero, none⟩], 1, 1⟩, txn := {} }

theorem short_unsigned : SignedTxn.schema.Short unsigned := by
  simp [unsigned, SignedTxn.short_iff, MultisigEnvelope.short_iff, Transaction.short_default]

def doubledSlot : Value :=
  Format.ofRecord [("pk", Format.ofBytes Address.zero.block.bytes), ("pk", Format.ofBytes [1])]

def doubledEnvelope : Value :=
  Format.ofRecord [("subsig", Format.ofList [doubledSlot]), ("thr", Format.ofInt 1), ("v", Format.ofInt 1)]

def doubledPayment : Value :=
  Format.ofRecord [("msig", doubledEnvelope), ("txn", Format.ofRecord [("type", Format.ofText "pay")])]

def doubledFee : Json :=
  Format.ofRecord [("apar", Format.ofRecord [("dc", Format.ofInt 6), ("t", Format.ofInt 300)]),
    ("fee", Format.ofInt 1), ("fee", Format.ofInt 1000), ("type", Format.ofText "acfg")]

theorem intruded_strayCreation : Transaction.schema.Intruded creation strayCreation := by
  have hparams : AssetParams.schema.Intruded creation.assetConfig.params strayParams :=
    ⟨_, rfl, .inl ⟨[("dc", _)], [("t", _)], "df2", _, rfl, rfl, .inl (by decide)⟩⟩
  exact ⟨_, rfl, .inr (Or.inl ⟨_, hparams, rfl⟩)⟩

theorem intruded_doubledPayment : SignedTxn.schema.Intruded unsigned doubledPayment := by
  have hslot : MultisigSlot.schema.Intruded ⟨.zero, none⟩ doubledSlot :=
    ⟨_, rfl, .inl ⟨[("pk", _)], [], "pk", _, rfl, rfl, .inr (by decide)⟩⟩
  have henvelope : MultisigEnvelope.schema.Intruded ⟨[⟨.zero, none⟩], 1, 1⟩ doubledEnvelope :=
    ⟨_, rfl, .inr (Or.inl ⟨_, ⟨[], _, [], _, rfl, hslot, rfl⟩, rfl⟩)⟩
  exact ⟨_, rfl, .inr (Or.inl ⟨_, henvelope, rfl⟩)⟩

theorem intruded_doubledFee : Transaction.schema.Intruded creation doubledFee :=
  ⟨_, rfl, .inl ⟨[("apar", _)], [("fee", _), ("type", _)], "fee", _, rfl, rfl, .inr (by decide)⟩⟩

theorem fits_strayCreation : strayCreation.Fits 2 := by
  have hparams : strayParams.Fits 1 := by
    refine fits_ofRecord (by decide) ?_
    simp only [List.forall_mem_cons]
    exact ⟨⟨by decide, .nat (by decide)⟩, ⟨by decide, .nil⟩, ⟨by decide, .nat (by decide)⟩, nofun⟩
  refine fits_ofRecord (by decide) ?_
  simp only [List.forall_mem_cons]
  exact ⟨⟨by decide, hparams⟩, ⟨by decide, .nat (by decide)⟩, ⟨by decide, .str (by decide)⟩, nofun⟩

theorem fits_doubledPayment : doubledPayment.Fits 4 := by
  have hslot : doubledSlot.Fits 1 := by
    refine fits_ofRecord (by decide) ?_
    simp only [List.forall_mem_cons]
    exact ⟨⟨by decide, .bin (by decide)⟩, ⟨by decide, .bin (by decide)⟩, nofun⟩
  have henvelope : doubledEnvelope.Fits 3 := by
    refine fits_ofRecord (by decide) ?_
    simp only [List.forall_mem_cons]
    exact ⟨⟨by decide, .array (by decide) (List.forall_mem_singleton.mpr hslot)⟩, ⟨by decide, .nat (by decide)⟩,
      ⟨by decide, .nat (by decide)⟩, nofun⟩
  have htxn : (Format.ofRecord [("type", Format.ofText "pay")] : Value).Fits 3 :=
    fits_ofRecord (by decide) (List.forall_mem_singleton.mpr ⟨by decide, .str (by decide)⟩)
  refine fits_ofRecord (by decide) ?_
  simp only [List.forall_mem_cons]
  exact ⟨⟨by decide, henvelope⟩, ⟨by decide, htxn⟩, nofun⟩

theorem fits_doubledFee : doubledFee.Fits Json.maxDepth := by
  have hnumber (n : Int) (depth : Nat) : (Format.ofInt n : Json).Fits depth := .number (Json.numeral_intText n)
  refine .object ?_
  simp only [List.forall_mem_cons]
  refine ⟨.object ?_, hnumber 1 _, hnumber 1000 _, .string _, nofun⟩
  simp only [List.forall_mem_cons]
  exact ⟨hnumber 6 _, hnumber 300 _, nofun⟩

/-- The creation in both forms and the payment in octets are read, and none of them is with an entry more. -/
theorem creation_admits_no_other_entry :
    Transaction.decode creation.encode = .ok creation ∧
    Transaction.decode strayCreation.encode = .error (.encoding .decode) ∧
    SignedTxn.decode unsigned.encode = .ok unsigned ∧
    SignedTxn.decode doubledPayment.encode = .error (.encoding .decode) ∧
    Transaction.msgpackOfJson creation.toJson = .ok creation.encode ∧
    Transaction.msgpackOfJson (String.ofList (doubledFee.chars .pretty 0)) = .error (.encoding .json) := by
  obtain ⟨htxn, hsigned, hjson⟩ := records_admit_no_other_entry
  have hform {depth : Nat} {v : Value} (h : v.Fits depth) : Spells Msgpack.Form depth v v.encode :=
    (Msgpack.spells_encode h).mono fun _ _ hshort => hshort.form
  have hpadded (text : List Char) : Json.Padded text text := ⟨[], [], rfl, rfl, (List.append_nil _).symm⟩
  have hcreation := Schema.spells_encode Transaction.lawful_schema Transaction.sized_schema
    (Transaction.depth_le (by decide)) short_creation
  have hunsigned := Schema.spells_encode SignedTxn.lawful_schema SignedTxn.sized_schema
    (SignedTxn.depth_le (by decide)) short_unsigned
  have hplain := Json.spells_chars Json.Layout.lawful_compact
    (Transaction.schema.json_fits_write creation Json.maxDepth (Transaction.depth_le (by decide))) 0
  have hfee := Json.spells_chars Json.Layout.lawful_pretty fits_doubledFee 0
  exact ⟨(htxn _ _).1 (hcreation.mono fun _ _ hshort => hshort.form),
    (htxn _ _).2 _ _ intruded_strayCreation (hform fits_strayCreation),
    (hsigned _ _).1 (hunsigned.mono fun _ _ hshort => hshort.form),
    (hsigned _ _).2 _ _ intruded_doubledPayment (hform fits_doubledPayment),
    (hjson _ _ _ (hpadded _)).1 hplain, (hjson _ _ _ (hpadded _)).2 _ intruded_doubledFee hfee⟩

end AtomicGroup
