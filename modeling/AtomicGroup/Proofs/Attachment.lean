import AtomicGroup.Proofs.Address
import AtomicGroup.Proofs.LogicSig.Authority

/-!
# Signatures made elsewhere

Whether a key is at hand or only its signature and its address are, the same is built: a signed transaction, a
contribution to a multisig transaction, or a delegation to a program. What is attached is a signature of 64 octets;
only a delegation verifies it.
-/
namespace AtomicGroup

open Outcome

theorem Signature.ofBytes_of_length_ne {bs : Bytes} (h : bs.length ≠ 64) :
    ofBytes bs = .error (.signatureLength bs.length) := by
  rw [ofBytes, Block.ofBytes?, dif_neg h]

namespace SignedTxn

theorem attachSignature_sign {key : KeyPair} {bs : Bytes} {t : Transaction} (h : Transaction.decode bs = .ok t) :
    attachSignature (key.sign t.bytesToSign).bytes bs key.address.text = .ok (sign key t).encode := by
  simp only [attachSignature, Signature.ofBytes_bytes, h, Address.ofText_text]
  rfl

theorem attachSignature_of_length_ne {sig : Bytes} (h : sig.length ≠ 64) (bs : Bytes) (signer : String) :
    attachSignature sig bs signer = .error (.key (.signatureLength sig.length)) := by
  rw [attachSignature, Signature.ofBytes_of_length_ne h]
  rfl

end SignedTxn

namespace MultisigAccount

variable {a : MultisigAccount} {t : Transaction}

theorem fill_blank_of_not_mem {key : Address} (h : key ∉ a.keys) (sig : Signature) :
    (MultisigEnvelope.blank a).fill key sig = .error (.keyNotInAccount key) := by
  have hany : ¬(MultisigEnvelope.blank a).slots.any (·.key == key) := by
    intro hany
    obtain ⟨slot, hslot, heq⟩ := List.any_eq_true.mp hany
    obtain ⟨k, hk, rfl⟩ := List.mem_map.mp hslot
    exact h (eq_of_beq heq ▸ hk)
  rw [MultisigEnvelope.fill, if_neg hany]

/-- A key that is no member is refused before it signs. -/
theorem signTransaction_of_not_mem {key : KeyPair} (h : key.address ∉ a.keys) :
    a.signTransaction key t = .error (.keyNotInAccount key.address) := by
  rw [signTransaction, if_pos (by simp [contains, h])]
  rfl

theorem attachSignature_bytes (signer : Address) (sig : Signature) :
    a.attachSignature signer sig.bytes t = do return a.enclose t (← (MultisigEnvelope.blank a).fill signer sig) := by
  rw [attachSignature, Signature.ofBytes_bytes]
  rfl

theorem attachSignature_sign (key : KeyPair) :
    a.attachSignature key.address (key.sign t.bytesToSign).bytes t = a.signTransaction key t := by
  rw [attachSignature_bytes]
  by_cases h : key.address ∈ a.keys
  · rw [signTransaction, if_neg (by simp [contains, h])]
  · rw [signTransaction_of_not_mem h, fill_blank_of_not_mem h]
    rfl

theorem attachSignature_of_length_ne {sig : Bytes} (h : sig.length ≠ 64) (signer : Address) :
    a.attachSignature signer sig t = .error (.key (.signatureLength sig.length)) := by
  rw [attachSignature, Signature.ofBytes_of_length_ne h]
  rfl

/-- A key signs for an account, or is no member of it. -/
theorem signTransaction_eq_error_iff {key : KeyPair} :
    a.signTransaction key t = .error (.keyNotInAccount key.address) ↔ key.address ∉ a.keys := by
  constructor
  · intro h hmem
    rw [signTransaction_eq_ok hmem] at h
    cases h
  · exact signTransaction_of_not_mem

end MultisigAccount

namespace LogicSigAccount

/-- The signature that a delegation attaches verifies if the key makes good ones. A program that is none is refused
either way. -/
theorem delegateAttach_sign {key : KeyPair} {program : Bytes} (args : List Bytes)
    (h : key.Attests (Program.bytesToSign program)) :
    delegateAttach program args key.address (key.sign (Program.bytesToSign program)).bytes =
      delegateSign program args key := by
  rw [delegateAttach, delegateSign, Signature.ofBytes_bytes]
  cases hcheck : Program.check program with
  | error e => rfl
  | ok u =>
    have hverify := (LogicSig.verify_of_key
      (l := { args, program, sig := some (key.sign (Program.bytesToSign program)) }) rfl rfl).mpr ⟨hcheck, h⟩
    simp only [Except.mapError, ok_bind, hverify]

theorem delegateAttach_of_length_ne {sig : Bytes} (h : sig.length ≠ 64) (program : Bytes) (args : List Bytes)
    (signer : Address) : delegateAttach program args signer sig = .error (.key (.signatureLength sig.length)) := by
  rw [delegateAttach, Signature.ofBytes_of_length_ne h]
  rfl

end LogicSigAccount

/-- To attach a key's signature together with its address is to sign with the key: for one signer of a transaction, for
a member of a multisig account, and for a delegation to a program. No other number of octets than 64 is attached. -/
theorem attaching_is_signing (key : KeyPair) :
    (∀ (bs : Bytes) (t : Transaction), Transaction.decode bs = .ok t →
      SignedTxn.attachSignature (key.sign t.bytesToSign).bytes bs key.address.text =
        .ok (SignedTxn.sign key t).encode) ∧
    (∀ (a : MultisigAccount) (t : Transaction),
      a.attachSignature key.address (key.sign t.bytesToSign).bytes t = a.signTransaction key t ∧
      (key.address ∈ a.keys → ∃ s, a.signTransaction key t = .ok s) ∧
      (a.signTransaction key t = .error (.keyNotInAccount key.address) ↔ key.address ∉ a.keys)) ∧
    (∀ (program : Bytes) (args : List Bytes), key.Attests (Program.bytesToSign program) →
      LogicSigAccount.delegateAttach program args key.address (key.sign (Program.bytesToSign program)).bytes =
        LogicSigAccount.delegateSign program args key) ∧
    (∀ sig : Bytes, sig.length ≠ 64 →
      (∀ bs signer, SignedTxn.attachSignature sig bs signer = .error (.key (.signatureLength sig.length))) ∧
      (∀ (a : MultisigAccount) signer t, a.attachSignature signer sig t = .error (.key (.signatureLength sig.length))) ∧
      (∀ program args signer,
        LogicSigAccount.delegateAttach program args signer sig = .error (.key (.signatureLength sig.length)))) := by
  refine ⟨fun bs t => SignedTxn.attachSignature_sign, fun a t => ?_, fun program args => ?_, fun sig h => ⟨?_, ?_, ?_⟩⟩
  · refine ⟨MultisigAccount.attachSignature_sign key, fun hmem => ?_, MultisigAccount.signTransaction_eq_error_iff⟩
    exact ⟨_, MultisigAccount.signTransaction_eq_ok hmem⟩
  · exact LogicSigAccount.delegateAttach_sign args
  · exact SignedTxn.attachSignature_of_length_ne h
  · exact fun a signer t => MultisigAccount.attachSignature_of_length_ne h signer
  · exact LogicSigAccount.delegateAttach_of_length_ne h

def zeroKey : KeyPair := ⟨.zero 32⟩

def eitherOf (first second : Address) : MultisigAccount := ⟨1, 1, [first, second]⟩

theorem zeroKey_attached :
    SignedTxn.attachSignature (zeroKey.sign (Transaction.bytesToSign {})).bytes (Transaction.encode {})
      zeroKey.address.text = .ok (SignedTxn.sign zeroKey {}).encode ∧
    (∃ s, (eitherOf .zero zeroKey.address).attachSignature zeroKey.address
      (zeroKey.sign (Transaction.bytesToSign {})).bytes {} = .ok s) ∧
    (eitherOf .zero .zero).attachSignature zeroKey.address (zeroKey.sign (Transaction.bytesToSign {})).bytes {} =
      .error (.keyNotInAccount zeroKey.address) ∧
    LogicSigAccount.delegateAttach LogicSigAccount.always [] zeroKey.address
      (zeroKey.sign (Program.bytesToSign LogicSigAccount.always)).bytes =
        LogicSigAccount.delegateSign LogicSigAccount.always [] zeroKey ∧
    SignedTxn.attachSignature [] [] "" = .error (.key (.signatureLength 0)) := by
  obtain ⟨hone, hmember, hdelegate, hlength⟩ := attaching_is_signing zeroKey
  have hattests : zeroKey.Attests (Program.bytesToSign LogicSigAccount.always) :=
    KeyPair.attests_of_isOk (by decide +kernel)
  have hforeign : zeroKey.address ∉ (eitherOf .zero .zero).keys := by decide +kernel
  obtain ⟨heq, hok, -⟩ := hmember (eitherOf .zero zeroKey.address) {}
  obtain ⟨heq', -, herr⟩ := hmember (eitherOf .zero .zero) {}
  refine ⟨hone _ _ (Transaction.decode_encode Transaction.short_default), ?_, ?_, hdelegate _ _ hattests, ?_⟩
  · rw [heq]
    exact hok (by simp [eitherOf])
  · rw [heq']
    exact herr.mpr hforeign
  · exact (hlength [] (by decide)).1 _ _

end AtomicGroup
