import AtomicGroup.LogicSig.Account
import AtomicGroup.Proofs.Json.Format
import AtomicGroup.Proofs.Outcome
import AtomicGroup.Proofs.Txn.Codec

/-!
# The two forms of a record agree

The JSON text of a record reads as the record, whatever it holds. A transaction that came in one form is therefore
the same transaction in the other one, and turning it round once more changes nothing.
-/
namespace AtomicGroup

open Outcome

theorem Transaction.ofJson_toJson (t : Transaction) : Transaction.ofJson t.toJson = .ok t := by
  rw [ofJson, toJson, Wire.Schema.ofJson_toJson lawful_schema (depth_le (by decide))]
  rfl

theorem SignedTxn.ofJson_toJson (s : SignedTxn) : SignedTxn.schema.ofJson s.toJson = .ok s :=
  Wire.Schema.ofJson_toJson lawful_schema (depth_le (by decide)) s

theorem LogicSigAccount.lawful_schema : LogicSigAccount.schema.Lawful :=
  ⟨by simp, by decide, fun _ => rfl⟩

theorem LogicSigAccount.ofJson_toJson (a : LogicSigAccount) : LogicSigAccount.ofJson a.toJson = .ok a := by
  rw [ofJson, toJson, Wire.Schema.ofJson_toJson lawful_schema (by decide +kernel)]
  rfl

namespace Transaction

/-- What the octets of a transaction become as JSON. -/
theorem jsonOfMsgpack_eq_ok_iff {bs : Bytes} {text : String} :
    jsonOfMsgpack bs = .ok text ↔ ∃ t, decode bs = .ok t ∧ t.toJson = text := by
  simp only [jsonOfMsgpack, bind_eq_ok, pure_eq_ok]

/-- What the JSON text of a transaction becomes as octets. -/
theorem msgpackOfJson_eq_ok_iff {text : String} {bs : Bytes} :
    msgpackOfJson text = .ok bs ↔ ∃ t, ofJson text = .ok t ∧ t.encode = bs := by
  simp only [msgpackOfJson, bind_eq_ok, pure_eq_ok]

theorem msgpackOfJson_toJson (t : Transaction) : msgpackOfJson t.toJson = .ok t.encode :=
  msgpackOfJson_eq_ok_iff.mpr ⟨t, t.ofJson_toJson, rfl⟩

theorem jsonOfMsgpack_encode {t : Transaction} (h : Transaction.schema.Short t) :
    jsonOfMsgpack t.encode = .ok t.toJson :=
  jsonOfMsgpack_eq_ok_iff.mpr ⟨t, decode_encode h, rfl⟩

end Transaction

/-- Octets that read as a transaction have a JSON text, whose octets are the canonical ones of that transaction. A JSON
text that has octets reads as a transaction; if its texts, byte strings and lists are counted in 32 bits, then the
octets have its compact JSON, which has the same octets again. Signed transactions and accounts of logic signatures are
what their JSON texts read as. -/
theorem forms_agree :
    (∀ bs t, Transaction.decode bs = .ok t →
      ∃ text, Transaction.jsonOfMsgpack bs = .ok text ∧ Transaction.msgpackOfJson text = .ok t.encode) ∧
    (∀ text bs, Transaction.msgpackOfJson text = .ok bs →
      ∃ t, Transaction.ofJson text = .ok t ∧ (Transaction.schema.Short t →
        Transaction.jsonOfMsgpack bs = .ok t.toJson ∧ Transaction.msgpackOfJson t.toJson = .ok bs)) ∧
    (∀ s : SignedTxn, SignedTxn.schema.ofJson s.toJson = .ok s) ∧
    (∀ a : LogicSigAccount, LogicSigAccount.ofJson a.toJson = .ok a) := by
  refine ⟨?_, ?_, SignedTxn.ofJson_toJson, LogicSigAccount.ofJson_toJson⟩
  · intro bs t hread
    exact ⟨t.toJson, Transaction.jsonOfMsgpack_eq_ok_iff.mpr ⟨t, hread, rfl⟩, t.msgpackOfJson_toJson⟩
  · intro text bs hconvert
    obtain ⟨t, hread, rfl⟩ := Transaction.msgpackOfJson_eq_ok_iff.mp hconvert
    exact ⟨t, hread, fun hshort => ⟨Transaction.jsonOfMsgpack_encode hshort, t.msgpackOfJson_toJson⟩⟩

def escapedCall : Transaction where
  kind := .appCall
  header := { fee := 18446744073709551615, genesisId := "\"net\" \\ é\n", note := [0, 0xff, 7] }
  assetConfig := { params := { unitName := "\t", total := 18446744073709551615 } }
  appCall :=
    { app := 300, args := [[], [1, 2]], accounts := [.zero], foreignApps := [0, 65536], boxes := [{}, ⟨1, [0x80]⟩] }

theorem escapedCall_forms_agree : Transaction.schema.Short escapedCall ∧
    (∃ text, Transaction.jsonOfMsgpack escapedCall.encode = .ok text ∧
      Transaction.msgpackOfJson text = .ok escapedCall.encode) ∧
    Transaction.jsonOfMsgpack escapedCall.encode = .ok escapedCall.toJson ∧
    Transaction.msgpackOfJson escapedCall.toJson = .ok escapedCall.encode ∧
    SignedTxn.schema.ofJson overSigned.toJson = .ok overSigned ∧
    LogicSigAccount.ofJson (LogicSigAccount.mk { program := [1, 0x20] } (some .zero)).toJson =
      .ok ⟨{ program := [1, 0x20] }, some .zero⟩ := by
  have hshort : Transaction.schema.Short escapedCall := by
    simp [escapedCall, Transaction.schema, Address.schema, Digest.schema, TxnKind.schema, OnCompletion.schema,
      AssetParams.schema, StateLimits.schema, BoxReference.schema]
    decide +kernel
  obtain ⟨hread, hconvert, hsigned, haccount⟩ := forms_agree
  obtain ⟨t, ht, hagree⟩ := hconvert _ _ escapedCall.msgpackOfJson_toJson
  obtain rfl : t = escapedCall := by
    rw [Transaction.ofJson_toJson] at ht
    exact (Except.ok.inj ht).symm
  exact ⟨hshort, hread _ _ (Transaction.decode_encode hshort), (hagree hshort).1, (hagree hshort).2, hsigned _,
    haccount _⟩

end AtomicGroup
