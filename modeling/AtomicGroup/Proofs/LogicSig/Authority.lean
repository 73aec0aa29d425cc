import AtomicGroup.Proofs.Signer

/-!
# The authority of logic signature accounts

A logic signature acts for an address by one proof: a key's signature of the program, a multisig envelope over it, or
the program itself. An account signs only for the address of its proof. This address is named by the signed transaction,
so that the account is recovered from whatever it has signed.
-/
namespace AtomicGroup

open Outcome

/-- The one proof by which a logic signature may act for an address. -/
inductive LogicSig.ActsFor (l : LogicSig) (address : Address) : Prop where
  | key (sig : Signature) (hsig : l.sig = some sig) (hmsig : l.msig = none)
      (valid : sig.verify address (Program.bytesToSign l.program) = .ok ())
  | members (envelope : MultisigEnvelope) (account : MultisigAccount) (hsig : l.sig = none)
      (hmsig : l.msig = some envelope) (haccount : envelope.account = .ok account)
      (haddress : account.address = address) (valid : envelope.verify (Program.bytesToSign l.program) = .ok ())
  | program (hsig : l.sig = none) (hmsig : l.msig = none) (haddress : Program.address l.program = address)

namespace LogicSig

variable {l : LogicSig} {address : Address} {sig : Signature} {envelope : MultisigEnvelope}

theorem verify_of_key (hsig : l.sig = some sig) (hmsig : l.msig = none) : l.verify address = .ok () ↔
    Program.check l.program = .ok () ∧ sig.verify address (Program.bytesToSign l.program) = .ok () := by
  simp only [verify, hsig, hmsig, bind_eq_ok, mapError_eq_ok, Unique.exists_iff, PUnit.default_eq_unit]

theorem verify_of_members (hsig : l.sig = none) (hmsig : l.msig = some envelope) : l.verify address = .ok () ↔
    Program.check l.program = .ok () ∧ ∃ account, envelope.account = .ok account ∧ account.address = address ∧
      envelope.verify (Program.bytesToSign l.program) = .ok () := by
  simp only [verify, hsig, hmsig, bind_eq_ok, mapError_eq_ok, Unique.exists_iff, PUnit.default_eq_unit,
    guard_bind_eq_ok, ne_eq, not_not]

theorem verify_of_program (hsig : l.sig = none) (hmsig : l.msig = none) : l.verify address = .ok () ↔
    Program.check l.program = .ok () ∧ Program.address l.program = address := by
  simp only [verify, hsig, hmsig, bind_eq_ok, guard_eq_ok, not_not, and_true, ne_eq, Unique.exists_iff,
    PUnit.default_eq_unit]

theorem not_verify_of_both (hsig : l.sig = some sig) (hmsig : l.msig = some envelope) :
    l.verify address ≠ .ok () := by
  simp [verify, hsig, hmsig]

theorem ActsFor.single (h : l.ActsFor address) : ¬(l.sig.isSome ∧ l.msig.isSome) := by
  cases h with
  | key sig hsig hmsig valid => simp [hmsig]
  | members envelope account hsig hmsig haccount haddress valid => simp [hsig]
  | program hsig hmsig haddress => simp [hsig]

/-- Verifying accepts a program that may be one, with a proof for the address. -/
theorem verify_eq_ok : l.verify address = .ok () ↔ Program.check l.program = .ok () ∧ l.ActsFor address := by
  constructor
  · intro h
    cases hsig : l.sig with
    | some sig =>
      cases hmsig : l.msig with
      | some envelope => exact absurd h (not_verify_of_both hsig hmsig)
      | none =>
        obtain ⟨hcheck, hvalid⟩ := (verify_of_key hsig hmsig).mp h
        exact ⟨hcheck, .key sig hsig hmsig hvalid⟩
    | none =>
      cases hmsig : l.msig with
      | some envelope =>
        obtain ⟨hcheck, account, haccount, haddress, hvalid⟩ := (verify_of_members hsig hmsig).mp h
        exact ⟨hcheck, .members envelope account hsig hmsig haccount haddress hvalid⟩
      | none =>
        obtain ⟨hcheck, haddress⟩ := (verify_of_program hsig hmsig).mp h
        exact ⟨hcheck, .program hsig hmsig haddress⟩
  · rintro ⟨hcheck, h⟩
    cases h with
    | key sig hsig hmsig valid => exact (verify_of_key hsig hmsig).mpr ⟨hcheck, valid⟩
    | members envelope account hsig hmsig haccount haddress valid =>
      exact (verify_of_members hsig hmsig).mpr ⟨hcheck, account, haccount, haddress, valid⟩
    | program hsig hmsig haddress => exact (verify_of_program hsig hmsig).mpr ⟨hcheck, haddress⟩

end LogicSig

namespace LogicSigAccount

variable {a : LogicSigAccount} {address : Address} {t : Transaction} {s : SignedTxn}

/-- An account signs what its own authority verifies for, as its address. -/
theorem signTransaction_eq_ok : a.signTransaction t = .ok s ↔
    ∃ address, a.address = .ok address ∧ a.lsig.verify address = .ok () ∧
      s = { txn := t, lsig := some a.lsig, signer := SignedTxn.signerFor t address } := by
  simp only [signTransaction, bind_eq_ok, pure_eq_ok, Unique.exists_iff, eq_comm (a := s)]

/-- Whether an account signs does not depend on the transaction. -/
theorem exists_signTransaction (t : Transaction) : (∃ s, a.signTransaction t = .ok s) ↔
    ∃ address, a.address = .ok address ∧ a.lsig.verify address = .ok () := by
  simp only [signTransaction_eq_ok]
  constructor
  · rintro ⟨s, address, haddress, hverify, rfl⟩
    exact ⟨address, haddress, hverify⟩
  · rintro ⟨address, haddress, hverify⟩
    exact ⟨_, address, haddress, hverify, rfl⟩

/-- The account that a logic signature shows when it acts for an address: the key is known for a key's signature. -/
def recovered (l : LogicSig) (address : Address) : LogicSigAccount :=
  ⟨l, if l.sig.isSome then some address else none⟩

theorem ofLogicSig_of_actsFor {l : LogicSig} (h : l.ActsFor address) :
    ofLogicSig l (some address) = .ok (recovered l address) := by
  cases h with
  | key sig hsig hmsig valid =>
    simp only [ofLogicSig, hsig, hmsig, valid, recovered, Option.isSome_some, if_true]
    rfl
  | members envelope account hsig hmsig haccount haddress valid =>
    simp only [ofLogicSig, hsig, recovered, Option.isSome_none, Bool.false_eq_true, if_false]
    rfl
  | program hsig hmsig haddress =>
    simp only [ofLogicSig, hsig, recovered, Option.isSome_none, Bool.false_eq_true, if_false]
    rfl

theorem address_recovered {l : LogicSig} (h : l.ActsFor address) : (recovered l address).address = .ok address := by
  cases h with
  | key sig hsig hmsig valid =>
    simp only [LogicSigAccount.address, recovered, hsig, hmsig, Option.isSome_some, if_true]
  | members envelope account hsig hmsig haccount haddress valid =>
    simp only [LogicSigAccount.address, recovered, hsig, hmsig, haccount, map_eq_ok, mapError_eq_ok]
    exact ⟨account, rfl, haddress⟩
  | program hsig hmsig haddress =>
    simp only [LogicSigAccount.address, recovered, hsig, hmsig, haddress]

theorem signingKey_of_address (h : a.address = .ok address) (hsig : a.lsig.sig.isSome) :
    a.signingKey = some address := by
  obtain ⟨sig, hsig⟩ := Option.isSome_iff_exists.mp hsig
  cases hmsig : a.lsig.msig with
  | some envelope => simp [LogicSigAccount.address, hsig, hmsig] at h
  | none => cases hkey : a.signingKey <;> simp_all [LogicSigAccount.address]

/-- The recovered account is the one of the same address that has a key exactly when a key's signature is its proof. -/
theorem recovered_eq_iff (h : a.address = .ok address) :
    recovered a.lsig address = a ↔ (a.signingKey.isSome ↔ a.lsig.sig.isSome) := by
  have hkey := signingKey_of_address h
  obtain ⟨l, key⟩ := a
  by_cases hsig : l.sig.isSome
  · obtain rfl := hkey hsig
    simp [recovered, hsig]
  · cases key <;> simp [recovered, hsig]

/-- What an account's signature of a transaction carries. -/
structure Authorises (a : LogicSigAccount) (t : Transaction) (s : SignedTxn) : Prop where
  txn : s.txn = t
  lsig : s.lsig = some a.lsig
  one_proof : ¬(a.lsig.sig.isSome ∧ a.lsig.msig.isSome)
  check_program : Program.check a.lsig.program = .ok ()
  address : a.address = .ok s.authorizer
  signer : s.signer = none ↔ t.header.sender = s.authorizer
  verify : a.lsig.verify s.authorizer = .ok ()

theorem authorises_of_sign (h : a.signTransaction t = .ok s) : a.Authorises t s := by
  obtain ⟨address, haddress, hverify, rfl⟩ := signTransaction_eq_ok.mp h
  obtain ⟨hcheck, hacts⟩ := LogicSig.verify_eq_ok.mp hverify
  have hauthorizer := SignedTxn.getD_signerFor t address
  refine ⟨rfl, rfl, hacts.single, hcheck, ?_, ?_, ?_⟩ <;> rw [SignedTxn.authorizer, hauthorizer]
  · exact haddress
  · rw [← Option.not_isSome_iff_eq_none, SignedTxn.isSome_signerFor, not_not, eq_comm]
  · exact hverify

/-- What an account that has signed a transaction is recovered as. -/
structure RecoveredFrom (a : LogicSigAccount) (t : Transaction) (s : SignedTxn) (b : LogicSigAccount) : Prop where
  extract : SignedTxn.logicSigAccount? s.encode = .ok (some b)
  lsig : b.lsig = a.lsig
  address : b.address = .ok s.authorizer
  sign : b.signTransaction t = .ok s
  same : b = a ↔ (a.signingKey.isSome ↔ a.lsig.sig.isSome)

theorem recoveredFrom_of_sign (ha : LogicSig.schema.Short a.lsig) (ht : Transaction.schema.Short t)
    (h : a.signTransaction t = .ok s) : a.RecoveredFrom t s (recovered a.lsig s.authorizer) := by
  have hauthorises := authorises_of_sign h
  have hacts := (LogicSig.verify_eq_ok.mp hauthorises.verify).2
  obtain ⟨address, haddress, -, hs⟩ := signTransaction_eq_ok.mp h
  obtain rfl : s.authorizer = address := Except.ok.inj (hauthorises.address.symm.trans haddress)
  refine ⟨?_, rfl, address_recovered hacts, ?_, recovered_eq_iff haddress⟩
  · have hshort : SignedTxn.schema.Short s := Signer.short_of_signs (s := .logicSig a) trivial ha h ht
    rw [SignedTxn.logicSigAccount?, SignedTxn.decode_encode hshort]
    simp [Except.mapError, ok_bind, hauthorises.lsig, ofLogicSig_of_actsFor hacts]
  · exact signTransaction_eq_ok.mpr ⟨_, address_recovered hacts, hauthorises.verify, hs⟩

/-- An account that signs, wherever it comes from, is checked and has one proof for the address that the signed
transaction names. From the encoded transaction it is recovered, with its key exactly when it needs one. -/
theorem sign_is_recoverable (h : a.signTransaction t = .ok s) : a.Authorises t s ∧
    (LogicSig.schema.Short a.lsig → Transaction.schema.Short t → ∃ b, a.RecoveredFrom t s b) :=
  ⟨authorises_of_sign h, fun ha ht => ⟨_, recoveredFrom_of_sign ha ht h⟩⟩

def always : Bytes := [1, 0x20, 1, 1, 0x22]

/-- A program under no key's signature, with a key that it does not need. -/
def strayKey : LogicSigAccount := ⟨{ program := always }, some .zero⟩

def keyed (key : KeyPair) : LogicSigAccount :=
  ⟨{ program := always, sig := some (key.sign (Program.bytesToSign always)) }, some key.address⟩

theorem keyed_and_strayKey_recoverable : ∃ s s' b b',
    strayKey.signTransaction {} = .ok s ∧ strayKey.Authorises {} s ∧ strayKey.RecoveredFrom {} s b ∧ b ≠ strayKey ∧
    (keyed ⟨.zero 32⟩).signTransaction {} = .ok s' ∧ (keyed ⟨.zero 32⟩).Authorises {} s' ∧
    (keyed ⟨.zero 32⟩).RecoveredFrom {} s' b' ∧ b' = keyed ⟨.zero 32⟩ := by
  have hstray : strayKey.lsig.ActsFor (Program.address always) := .program rfl rfl rfl
  have hattests : (KeyPair.mk (.zero 32)).Attests (Program.bytesToSign always) :=
    KeyPair.attests_of_isOk (by decide +kernel)
  have hkeyed : (keyed ⟨.zero 32⟩).lsig.ActsFor (KeyPair.address ⟨.zero 32⟩) := .key _ rfl rfl hattests
  have hcheck : Program.check always = .ok () := rfl
  obtain ⟨s, hs⟩ := (exists_signTransaction {}).mpr ⟨_, rfl, LogicSig.verify_eq_ok.mpr ⟨hcheck, hstray⟩⟩
  obtain ⟨s', hs'⟩ := (exists_signTransaction {}).mpr ⟨_, rfl, LogicSig.verify_eq_ok.mpr ⟨hcheck, hkeyed⟩⟩
  obtain ⟨hauthorises, hrecovered⟩ := sign_is_recoverable hs
  obtain ⟨hauthorises', hrecovered'⟩ := sign_is_recoverable hs'
  obtain ⟨b, hb⟩ := hrecovered (by simp [strayKey, always, LogicSig.schema]) Transaction.short_default
  obtain ⟨b', hb'⟩ := hrecovered' (by simp [keyed, always, LogicSig.schema, Signature.schema]) Transaction.short_default
  refine ⟨s, s', b, b', hs, hauthorises, hb, ?_, hs', hauthorises', hb', ?_⟩
  · intro h
    exact absurd (hb.same.mp h) (by simp [strayKey])
  · exact hb'.same.mpr (by simp [keyed])

end LogicSigAccount

end AtomicGroup
