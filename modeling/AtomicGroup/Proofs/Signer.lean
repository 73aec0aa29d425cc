import AtomicGroup.Proofs.Multisig.Contributions
import AtomicGroup.Proofs.Txn.Codec

/-!
# The authority of signed transactions

A signed transaction is `Authorised` when it carries one authorisation and this one holds for the address that it
names. What a signer of this library makes of a transaction is authorised by the signer's own address, as far as its
keys make good signatures.
-/
namespace AtomicGroup

open Outcome

inductive SignedTxn.Authorised (s : SignedTxn) : Prop where
  | sig (sig : Signature) (hsig : s.sig = some sig) (hmsig : s.msig = none) (hlsig : s.lsig = none)
      (valid : sig.verify s.authorizer s.txn.bytesToSign = .ok ())
  | msig (envelope : MultisigEnvelope) (account : MultisigAccount) (hsig : s.sig = none)
      (hmsig : s.msig = some envelope) (hlsig : s.lsig = none) (haccount : envelope.account = .ok account)
      (haddress : account.address = s.authorizer) (valid : envelope.verify s.txn.bytesToSign = .ok ())
  | lsig (lsig : LogicSig) (hsig : s.sig = none) (hmsig : s.msig = none) (hlsig : s.lsig = some lsig)
      (valid : lsig.verify s.authorizer = .ok ())

namespace SignedTxn

theorem isSome_signerFor {t : Transaction} {address : Address} :
    (signerFor t address).isSome ↔ address ≠ t.header.sender := by
  unfold signerFor
  split <;> simp_all

theorem getD_signerFor (t : Transaction) (address : Address) :
    (signerFor t address).getD t.header.sender = address := by
  unfold signerFor
  split
  · exact Eq.symm ‹_›
  · rfl

end SignedTxn

namespace MultisigAccount

variable {a : MultisigAccount} {keys : List KeyPair} {t : Transaction}

@[simp] theorem authorizer_signedBy : (a.signedBy keys t).authorizer = a.address :=
  SignedTxn.getD_signerFor t a.address

/-- An account has few enough keys to be counted in 32 bits. -/
theorem short_signedBy (ha : a.WellFormed) (ht : Transaction.schema.Short t) :
    SignedTxn.schema.Short (a.signedBy keys t) := by
  have hkeys : a.keys.length ≤ 255 := ha.keys_le
  rw [SignedTxn.short_iff]
  refine ⟨nofun, ?_, ht⟩
  rintro e ⟨⟩
  rw [MultisigEnvelope.short_iff, MultisigEnvelope.filled, List.length_map]
  omega

end MultisigAccount

namespace Signer

def keys : Signer → List KeyPair
  | .basic key => [key]
  | .multisig s => s.keys
  | _ => []

/-- The address that a signer of this library acts for. -/
def authority? : Signer → Option Address
  | .basic key => some key.address
  | .multisig s => some s.account.address
  | .logicSig a => a.address.toOption
  | .external _ => none

/-- A signer of this library, made as the library makes it. -/
def BuiltIn : Signer → Prop
  | .basic _ => True
  | .multisig s => ∃ version threshold members account,
    MultisigAccount.make version threshold members = .ok account ∧ MultisigSigner.make account s.keys = .ok s
  | .logicSig _ => True
  | .external _ => False

/-- A signer of this library, whatever account it holds. -/
def Internal : Signer → Prop
  | .external _ => False
  | _ => True

/-- A signer whose logic signature, if it has one, is counted in 32 bits. -/
def Short : Signer → Prop
  | .logicSig a => LogicSig.schema.Short a.lsig
  | _ => True

def Signs (s : Signer) (t : Transaction) (signed : SignedTxn) : Prop :=
  match s with
  | .basic key => signed = SignedTxn.sign key t
  | .multisig m => m.signTransaction t = .ok signed
  | .logicSig a => a.signTransaction t = .ok signed
  | .external _ => False

variable {s u : Signer}

theorem BuiltIn.internal (h : s.BuiltIn) : s.Internal := by
  cases s with
  | external e => exact h
  | _ => trivial

theorem wellFormed_of_builtIn {m : MultisigSigner} (h : (Signer.multisig m).BuiltIn) : m.WellFormed := by
  obtain ⟨version, threshold, members, account, ha, hm⟩ := h
  exact MultisigSigner.wellFormed_of_make (MultisigAccount.make_eq_ok.mp ha).2 hm

/-- A signer of this library holds one authority with no other signer. -/
theorem eq_of_same (hs : s.Internal) (h : s.same u) : s = u := by
  cases s <;> cases u <;> first | exact hs.elim | exact congrArg _ (eq_of_beq h) | cases h

/-- A signer that signs the transactions at some indexes as it signs each of them alone. -/
structure OneByOne (s : Signer) : Prop where
  /-- What it gives is what it gives for each index alone, in the order of the indexes. -/
  given : ∀ txns indexes payloads, s.sign txns indexes = .ok payloads ↔
    List.Forall₂ (fun i payload => s.sign txns [i] = .ok [payload]) indexes payloads
  /-- With all indexes in range it also fails as it fails for one of them alone, the first that it fails for. -/
  inRange : ∀ txns indexes, (∀ i ∈ indexes, i < txns.length) →
    s.sign txns indexes = (indexes.mapM fun i => s.sign txns [i]).map List.flatten
  /-- The first index out of range is told, whatever becomes of the transactions before it. -/
  outOfRange : ∀ txns front i back, (∀ j ∈ front, j < txns.length) → txns.length ≤ i →
    s.sign txns (front ++ i :: back) = .error (.indexOutOfRange i txns.length)

section Responses

variable {txns : List Transaction} {indexes : List Nat}

theorem select_eq_ok {selected : List Transaction} :
    select txns indexes = .ok selected ↔ List.Forall₂ (fun i t => txns[i]? = some t) indexes selected := by
  rw [select, mapM_eq_ok]
  constructor
  · intro h
    refine h.imp fun i t hi => ?_
    cases ht : txns[i]? with
    | none =>
      rw [ht] at hi
      cases hi
    | some u =>
      rw [ht] at hi
      exact congrArg some (Except.ok.inj hi)
  · intro h
    refine h.imp fun i t hi => ?_
    rw [hi]

/-- The first index that is out of range is told, whatever stands before and behind it. -/
theorem select_eq_error {front back : List Nat} {i : Nat} (hfront : ∀ j ∈ front, j < txns.length)
    (hi : txns.length ≤ i) : select txns (front ++ i :: back) = .error (.indexOutOfRange i txns.length) := by
  refine mapM_eq_error ?_ ?_
  · intro j hj
    refine ⟨txns.get ⟨j, hfront j hj⟩, ?_⟩
    rw [List.getElem?_eq_getElem (hfront j hj)]
    rfl
  · rw [List.getElem?_eq_none hi]

/-- A signer of this library goes through the transactions that it is asked for, and makes of each what it makes of
it alone. -/
theorem respond_eq_mapM (hs : s.Internal) : ∃ make : Transaction → Except SignerError Bytes,
    (∀ txns indexes, s.respond txns indexes = select txns indexes >>= (·.mapM make)) ∧
    ∀ t payload, make t = .ok payload ↔ ∃ signed, s.Signs t signed ∧ payload = signed.encode := by
  cases s with
  | basic key =>
    refine ⟨fun t => .ok (SignedTxn.sign key t).encode, ?_, ?_⟩
    · intro txns indexes
      have hpure : ∀ ts : List Transaction, ts.mapM (fun t => (.ok (SignedTxn.sign key t).encode : Except SignerError _)) =
          .ok (ts.map fun t => (SignedTxn.sign key t).encode) := fun ts => List.mapM_pure
      simp only [respond, hpure]
      rfl
    · intro t payload
      simp [Signs, eq_comm]
  | multisig m =>
    refine ⟨_, fun _ _ => rfl, ?_⟩
    intro t payload
    rw [mapError_eq_ok, map_eq_ok]
    exact exists_congr fun signed => and_congr_right fun _ => eq_comm
  | logicSig a =>
    refine ⟨_, fun _ _ => rfl, ?_⟩
    intro t payload
    rw [mapError_eq_ok, map_eq_ok]
    exact exists_congr fun signed => and_congr_right fun _ => eq_comm
  | external e => exact hs.elim

/-- A signer of this library answers with what it makes of each transaction that it is asked for, when it makes
something of each. -/
theorem respond_eq_ok (hs : s.Internal) {payloads : List Bytes} : s.respond txns indexes = .ok payloads ↔
    List.Forall₂ (fun i payload => ∃ t signed, txns[i]? = some t ∧ s.Signs t signed ∧ payload = signed.encode)
      indexes payloads := by
  obtain ⟨make, hrespond, hmake⟩ := respond_eq_mapM hs
  have hmade : ∀ (i : Nat) (payload : Bytes), (∃ t signed, txns[i]? = some t ∧ s.Signs t signed ∧ payload = signed.encode) ↔
      ∃ t, txns[i]? = some t ∧ make t = .ok payload := by
    intro i payload
    simp only [hmake, exists_and_left]
  simp only [hrespond, hmade, bind_eq_ok, select_eq_ok, mapM_eq_ok, forall₂_comp_iff]

theorem sign_eq_ok {payloads : List Bytes} :
    s.sign txns indexes = .ok payloads ↔ s.respond txns indexes = .ok payloads ∧ payloads.length = indexes.length := by
  unfold sign
  rw [bind_eq_ok]
  constructor
  · rintro ⟨found, hf, h⟩
    obtain ⟨hn, rfl⟩ := guard_eq_ok.mp h
    exact ⟨hf, not_not.mp hn⟩
  · rintro ⟨hf, hn⟩
    exact ⟨payloads, hf, guard_eq_ok.mpr ⟨not_not.mpr hn, rfl⟩⟩

theorem sign_eq_respond (hs : s.Internal) : s.sign txns indexes = s.respond txns indexes := by
  cases hr : s.respond txns indexes with
  | error e =>
    rw [sign, hr]
    rfl
  | ok payloads => exact sign_eq_ok.mpr ⟨hr, ((respond_eq_ok hs).mp hr).length_eq.symm⟩

/-- One transaction alone is signed when the signer makes something of it. -/
theorem sign_singleton (hs : s.Internal) {i : Nat} {payload : Bytes} : s.sign txns [i] = .ok [payload] ↔
    ∃ t signed, txns[i]? = some t ∧ s.Signs t signed ∧ payload = signed.encode := by
  rw [sign_eq_respond hs, respond_eq_ok hs]
  simp

theorem sign_eq_ok_iff_each (hs : s.Internal) {payloads : List Bytes} : s.sign txns indexes = .ok payloads ↔
    List.Forall₂ (fun i payload => s.sign txns [i] = .ok [payload]) indexes payloads := by
  simp only [sign_singleton hs]
  rw [sign_eq_respond hs, respond_eq_ok hs]

theorem exists_select (h : ∀ i ∈ indexes, i < txns.length) : ∃ selected, select txns indexes = .ok selected := by
  refine ⟨indexes.filterMap (txns[·]?), select_eq_ok.mpr ?_⟩
  induction indexes with
  | nil => exact .nil
  | cons i indexes ih =>
    obtain ⟨hi, hrest⟩ := List.forall_mem_cons.mp h
    have hget := List.getElem?_eq_getElem hi
    rw [List.filterMap_cons_some hget]
    exact .cons hget (ih hrest)

theorem sign_eq_mapM (hs : s.Internal) (h : ∀ i ∈ indexes, i < txns.length) :
    s.sign txns indexes = (indexes.mapM fun i => s.sign txns [i]).map List.flatten := by
  obtain ⟨make, hrespond, -⟩ := respond_eq_mapM hs
  obtain ⟨selected, hselected⟩ := exists_select h
  rw [sign_eq_respond hs, hrespond, hselected, ok_bind]
  replace hselected := select_eq_ok.mp hselected
  clear h
  induction hselected with
  | nil => rfl
  | @cons i t indexes selected ht _ ih =>
    have hi : s.sign txns [i] = (make t).map ([·]) := by
      rw [sign_eq_respond hs, hrespond, select_eq_ok.mpr (.cons ht .nil), ok_bind, List.mapM_cons, List.mapM_nil]
      cases make t <;> rfl
    rw [List.mapM_cons, List.mapM_cons, hi, ih]
    cases make t <;> cases indexes.mapM fun i => s.sign txns [i] <;> rfl

/-- Every signer of this library signs one by one, as far as can be told from what it gives. -/
theorem oneByOne (hs : s.Internal) : s.OneByOne where
  given _ _ _ := sign_eq_ok_iff_each hs
  inRange _ _ := sign_eq_mapM hs
  outOfRange txns front i back hfront hi := by
    obtain ⟨make, hrespond, -⟩ := respond_eq_mapM hs
    rw [sign_eq_respond hs, hrespond, select_eq_error hfront hi]
    rfl

/-- A signer that fails for some indexes in range fails for one of them alone. -/
theorem exists_sign_eq_error (hs : s.Internal) (h : ∀ i ∈ indexes, i < txns.length) {e : SignerError}
    (he : s.sign txns indexes = .error e) : ∃ i ∈ indexes, s.sign txns [i] = .error e := by
  rw [sign_eq_mapM hs h] at he
  cases hm : indexes.mapM fun i => s.sign txns [i] with
  | error e' =>
    rw [hm] at he
    cases he
    exact exists_of_mapM_eq_error hm
  | ok payloads =>
    rw [hm] at he
    cases he

end Responses

/-- What a signer of this library makes of a transaction carries the authority of the signer. -/
theorem authorised_of_signs (hs : s.BuiltIn) {t : Transaction} {signed : SignedTxn} (h : s.Signs t signed)
    (hgood : ∀ key ∈ s.keys, key.Attests t.bytesToSign) :
    signed.txn = t ∧ s.authority? = some signed.authorizer ∧
      (signed.signer.isSome ↔ signed.authorizer ≠ t.header.sender) ∧ signed.Authorised := by
  cases s with
  | basic key =>
    cases h
    have hauthorizer : (SignedTxn.sign key t).authorizer = key.address := SignedTxn.getD_signerFor t key.address
    refine ⟨rfl, congrArg some hauthorizer.symm, ?_, .sig _ rfl rfl rfl ?_⟩
    · rw [hauthorizer]
      exact SignedTxn.isSome_signerFor
    · rw [hauthorizer]
      exact hgood key List.mem_cons_self
  | multisig m =>
    have hm := wellFormed_of_builtIn hs
    rw [Signs, MultisigSigner.signTransaction_eq_ok hm t] at h
    cases h
    have hauthorizer : (m.account.signedBy m.keys t).authorizer = m.account.address :=
      MultisigAccount.authorizer_signedBy
    refine ⟨rfl, congrArg some hauthorizer.symm, ?_,
      .msig _ m.account rfl rfl rfl (MultisigEnvelope.account_filled hm.account) hauthorizer.symm ?_⟩
    · rw [hauthorizer]
      exact SignedTxn.isSome_signerFor
    · exact MultisigSigner.verify_signedBy hm hgood
  | logicSig a =>
    obtain ⟨address, ha, h⟩ := bind_eq_ok.mp h
    obtain ⟨_, hv, h⟩ := bind_eq_ok.mp h
    cases pure_eq_ok.mp h
    have hauthorizer := SignedTxn.getD_signerFor t address
    refine ⟨rfl, ?_, ?_, .lsig a.lsig rfl rfl rfl ?_⟩
    · rw [authority?, ha]
      exact congrArg some hauthorizer.symm
    · change _ ↔ (SignedTxn.signerFor t address).getD t.header.sender ≠ _
      rw [hauthorizer]
      exact SignedTxn.isSome_signerFor
    · change a.lsig.verify ((SignedTxn.signerFor t address).getD t.header.sender) = _
      rw [hauthorizer]
      exact hv
  | external e => exact h.elim

/-- What a signer of this library makes of a short transaction is short. -/
theorem short_of_signs (hs : s.BuiltIn) (hshort : s.Short) {t : Transaction} {signed : SignedTxn}
    (h : s.Signs t signed) (ht : Transaction.schema.Short t) : SignedTxn.schema.Short signed := by
  rw [SignedTxn.short_iff]
  cases s with
  | basic key =>
    cases h
    exact ⟨by simp [SignedTxn.sign, SignedTxn.withSignature], by simp [SignedTxn.sign, SignedTxn.withSignature], ht⟩
  | multisig m =>
    have hm := wellFormed_of_builtIn hs
    rw [Signs, MultisigSigner.signTransaction_eq_ok hm t] at h
    cases h
    exact SignedTxn.short_iff.mp (MultisigAccount.short_signedBy hm.account ht)
  | logicSig a =>
    obtain ⟨address, -, h⟩ := bind_eq_ok.mp h
    obtain ⟨_, -, h⟩ := bind_eq_ok.mp h
    cases pure_eq_ok.mp h
    refine ⟨?_, by simp, ht⟩
    rintro l ⟨⟩
    exact hshort
  | external e => exact h.elim

end Signer

end AtomicGroup
