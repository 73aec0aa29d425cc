import AtomicGroup.Proofs.Msgpack.Format
import AtomicGroup.Txn.Signed

/-!
# Encoded transactions are read back

The schemas of all records of a transaction are lawful, so that a transaction, signed or not, is what its canonical
octets decode to, as long as its texts, byte strings and lists are counted in 32 bits.
-/
namespace AtomicGroup

open Wire

@[simp] theorem Address.lawful_schema : Address.schema.Lawful := ⟨trivial, fun _ => rfl⟩
@[simp] theorem Digest.lawful_schema : Digest.schema.Lawful := ⟨trivial, fun _ => rfl⟩
@[simp] theorem Signature.lawful_schema : Signature.schema.Lawful := ⟨trivial, fun _ => rfl⟩

@[simp] theorem TxnKind.lawful_schema : TxnKind.schema.Lawful := by
  refine ⟨trivial, fun kind => ?_⟩
  cases kind <;> decide

@[simp] theorem OnCompletion.lawful_schema : OnCompletion.schema.Lawful := by
  refine ⟨trivial, fun action => ?_⟩
  cases action <;> decide

@[simp] theorem Address.present_schema : Address.schema.present := rfl
@[simp] theorem Signature.present_schema : Signature.schema.present := rfl
@[simp] theorem MultisigEnvelope.present_schema : MultisigEnvelope.schema.present := rfl
@[simp] theorem LogicSig.present_schema : LogicSig.schema.present := rfl

@[simp] theorem AssetParams.lawful_schema : AssetParams.schema.Lawful :=
  ⟨by simp, by decide, fun _ => rfl⟩

@[simp] theorem StateLimits.lawful_schema : StateLimits.schema.Lawful :=
  ⟨by simp, by decide, fun _ => rfl⟩

@[simp] theorem BoxReference.lawful_schema : BoxReference.schema.Lawful :=
  ⟨by simp, by decide, fun _ => rfl⟩

@[simp] theorem Transaction.lawful_schema : Transaction.schema.Lawful :=
  ⟨by simp, by decide, fun _ => rfl⟩

@[simp] theorem MultisigSlot.lawful_schema : MultisigSlot.schema.Lawful :=
  ⟨by simp, by decide, fun _ => rfl⟩

@[simp] theorem MultisigEnvelope.lawful_schema : MultisigEnvelope.schema.Lawful :=
  ⟨by simp, by decide, fun _ => rfl⟩

@[simp] theorem LogicSig.lawful_schema : LogicSig.schema.Lawful :=
  ⟨by simp, by decide, fun _ => rfl⟩

theorem SignedTxn.lawful_schema : SignedTxn.schema.Lawful :=
  ⟨by simp, by decide, fun _ => rfl⟩

theorem Transaction.sized_schema : Transaction.schema.sized := rfl

theorem Transaction.depth_le {bound : Nat} (h : 3 ≤ bound) : Transaction.schema.depth ≤ bound := by
  have hdepth : Transaction.schema.depth = 3 := by decide +kernel
  rwa [hdepth]

theorem SignedTxn.sized_schema : SignedTxn.schema.sized := rfl

theorem SignedTxn.depth_le {bound : Nat} (h : 5 ≤ bound) : SignedTxn.schema.depth ≤ bound := by
  have hdepth : SignedTxn.schema.depth = 5 := by decide +kernel
  rwa [hdepth]

/-- A signed transaction is short when the transaction and its authorisation are. -/
theorem SignedTxn.short_iff {s : SignedTxn} : SignedTxn.schema.Short s ↔
    (∀ l ∈ s.lsig, LogicSig.schema.Short l) ∧ (∀ e ∈ s.msig, MultisigEnvelope.schema.Short e) ∧
      Transaction.schema.Short s.txn := by
  simp [SignedTxn.schema, Address.schema, Signature.schema]

/-- An envelope is short when its slots are counted in 32 bits. -/
theorem MultisigEnvelope.short_iff {e : MultisigEnvelope} :
    MultisigEnvelope.schema.Short e ↔ e.slots.length < 0x100000000 := by
  simp [MultisigEnvelope.schema, MultisigSlot.schema, Address.schema, Signature.schema]

/-- A group stamp has a fixed length. -/
@[simp] theorem Transaction.short_withGroup {t : Transaction} {g : Digest} :
    Transaction.schema.Short (t.withGroup g) ↔ Transaction.schema.Short t := by
  simp [Transaction.schema, Digest.schema, withGroup]

theorem Transaction.short_default : Transaction.schema.Short {} := by
  simp [Transaction.schema, Address.schema, Digest.schema, TxnKind.schema, OnCompletion.schema, AssetParams.schema,
    StateLimits.schema]
  decide

theorem Transaction.decode_encode {t : Transaction} (h : Transaction.schema.Short t) :
    Transaction.decode t.encode = .ok t := by
  rw [decode, encode, Schema.decode_encode lawful_schema sized_schema (depth_le (by decide)) h]
  rfl

theorem SignedTxn.decode_encode {s : SignedTxn} (h : SignedTxn.schema.Short s) : SignedTxn.decode s.encode = .ok s := by
  rw [decode, encode, Schema.decode_encode lawful_schema sized_schema (depth_le (by decide)) h]
  rfl

theorem Transaction.encode_injective {t u : Transaction} (ht : Transaction.schema.Short t)
    (hu : Transaction.schema.Short u) (h : t.encode = u.encode) : t = u :=
  Schema.encode_injective lawful_schema sized_schema (depth_le (by decide)) ht hu h

theorem SignedTxn.encode_injective {s u : SignedTxn} (hs : SignedTxn.schema.Short s) (hu : SignedTxn.schema.Short u)
    (h : s.encode = u.encode) : s = u :=
  Schema.encode_injective lawful_schema sized_schema (depth_le (by decide)) hs hu h

/-- The tag in front of what is signed does not hide the transaction. -/
theorem Transaction.bytesToSign_injective {t u : Transaction} (ht : Transaction.schema.Short t)
    (hu : Transaction.schema.Short u) (h : t.bytesToSign = u.bytesToSign) : t = u :=
  Transaction.encode_injective ht hu (List.append_cancel_left h)

/-- Transactions, signed or not, are what their canonical octets decode to, so that two different ones share neither
these octets nor those that a signature covers. -/
theorem encoded_records_read_back :
    (∀ t, Transaction.schema.Short t → Transaction.decode t.encode = .ok t) ∧
    (∀ s, SignedTxn.schema.Short s → SignedTxn.decode s.encode = .ok s) ∧
    (∀ t u, Transaction.schema.Short t → Transaction.schema.Short u → t ≠ u →
      t.encode ≠ u.encode ∧ t.bytesToSign ≠ u.bytesToSign) ∧
    (∀ s u, SignedTxn.schema.Short s → SignedTxn.schema.Short u → s ≠ u → s.encode ≠ u.encode) := by
  refine ⟨fun t => Transaction.decode_encode, fun s => SignedTxn.decode_encode, ?_, ?_⟩
  · intro t u ht hu hne
    constructor
    · intro h
      exact hne (Transaction.encode_injective ht hu h)
    · intro h
      exact hne (Transaction.bytesToSign_injective ht hu h)
  · intro s u hs hu hne h
    exact hne (SignedTxn.encode_injective hs hu h)

def mixedCall : Transaction where
  kind := .appCall
  header := { fee := 1000, lastValid := 70000, genesisId := "testnet", note := [0, 0xff] }
  assetConfig := { params := { assetName := "café", decimals := 6, total := 18446744073709551615 } }
  appCall :=
    { app := 300, onCompletion := .deleteApplication, args := [[], [1, 2]], accounts := [.zero]
      foreignApps := [0, 65536], boxes := [{}, ⟨1, [0x80]⟩], globalState := ⟨0, 2⟩ }

def overSigned : SignedTxn where
  lsig := some { args := [[], [7]], program := [1, 0x20], msig := some {}, sig := some .zero }
  msig := some ⟨[⟨.zero, none⟩, ⟨.zero, some .zero⟩], 1, 1⟩
  signer := some .zero
  sig := some .zero
  txn := mixedCall

theorem overSigned_read_back : SignedTxn.schema.Short overSigned ∧ Transaction.decode mixedCall.encode = .ok mixedCall ∧
    SignedTxn.decode overSigned.encode = .ok overSigned ∧ mixedCall.encode ≠ Transaction.encode {} ∧
    mixedCall.bytesToSign ≠ Transaction.bytesToSign {} ∧ overSigned.encode ≠ SignedTxn.encode { txn := mixedCall } := by
  have hcall : Transaction.schema.Short mixedCall := by
    simp [mixedCall, Transaction.schema, Address.schema, Digest.schema, TxnKind.schema, OnCompletion.schema,
      AssetParams.schema, StateLimits.schema, BoxReference.schema]
    decide +kernel
  have hsigned : SignedTxn.schema.Short overSigned := by
    rw [SignedTxn.short_iff]
    simp [overSigned, hcall, LogicSig.schema, MultisigEnvelope.short_iff, Signature.schema]
  have hbare : SignedTxn.schema.Short { txn := mixedCall } := by
    rw [SignedTxn.short_iff]
    simp [hcall]
  obtain ⟨hread, hreadSigned, hdiffer, hdifferSigned⟩ := encoded_records_read_back
  have hne : mixedCall ≠ {} := by decide +kernel
  have hnes : overSigned ≠ { txn := mixedCall } := by decide +kernel
  obtain ⟨hencode, hsign⟩ := hdiffer _ _ hcall Transaction.short_default hne
  exact ⟨hsigned, hread _ hcall, hreadSigned _ hsigned, hencode, hsign, hdifferSigned _ _ hsigned hbare hnes⟩

end AtomicGroup
