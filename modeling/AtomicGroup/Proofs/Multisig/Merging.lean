import AtomicGroup.Proofs.Signer

/-!
# Merging contributions in any order

A `MergePlan` says in which order and under which brackets the contributions of some keys are merged. Whatever the
plan, the outcome is the one transaction that carries the signatures of all its keys, and depends on the set of keys
alone. Keys of one address have to sign alike for this, as a key does with itself; merging refuses anything else.
-/
namespace AtomicGroup

open Outcome

/-- The order and the brackets in which the contributions of keys are merged; a key may come more than once. -/
inductive MergePlan where
  | contribution (key : KeyPair)
  | merge (left right : MergePlan)
deriving Repr

namespace MergePlan

def keys : MergePlan → List KeyPair
  | .contribution key => [key]
  | .merge left right => left.keys ++ right.keys

def run (a : MultisigAccount) (t : Transaction) : MergePlan → Except MultisigError SignedTxn
  | .contribution key => a.signTransaction key t
  | .merge left right => do
    let ours ← left.run a t
    let theirs ← right.run a t
    ours.mergeMultisig theirs

theorem keys_ne_nil (plan : MergePlan) : plan.keys ≠ [] := by
  induction plan with
  | contribution key => exact List.cons_ne_nil _ _
  | merge left right ihl _ => exact List.append_ne_nil_of_left_ne_nil ihl _

end MergePlan

namespace MultisigEnvelope

def filledSlots (e : MultisigEnvelope) : List Nat := (e.slots.zipIdx.filter (·.1.sig.isSome)).map (·.2)

/-- Counting the filled slots is counting their positions. -/
theorem count_eq_length_filledSlots (e : MultisigEnvelope) : e.count = e.filledSlots.length := by
  have hfst : e.slots.zipIdx.map (·.1) = e.slots := List.zipIdx_map_fst 0 e.slots
  rw [filledSlots, List.length_map, ← List.countP_eq_length_filter, count]
  conv_lhs => rw [← hfst]
  rw [List.countP_map]
  rfl

theorem mem_filledSlots {e : MultisigEnvelope} {i : Nat} :
    i ∈ e.filledSlots ↔ ∃ slot, e.slots[i]? = some slot ∧ slot.sig.isSome := by
  simp only [filledSlots, List.mem_map, List.mem_filter, Prod.exists, List.mem_zipIdx_iff_getElem?]
  constructor
  · rintro ⟨slot, j, ⟨hj, hs⟩, rfl⟩
    exact ⟨slot, hj, hs⟩
  · rintro ⟨slot, hi, hs⟩
    exact ⟨slot, i, ⟨hi, hs⟩, rfl⟩

/-- Slots are filled exactly where an assignment gives a signature to their key. -/
theorem mem_filledSlots_filled {a : MultisigAccount} {f : Address → Option Signature} {i : Nat} :
    i ∈ (filled a f).filledSlots ↔ ∃ key, a.keys[i]? = some key ∧ (f key).isSome := by
  simp only [mem_filledSlots, filled, List.getElem?_map, Option.map_eq_some_iff]
  constructor
  · rintro ⟨slot, ⟨key, hkey, rfl⟩, hs⟩
    exact ⟨key, hkey, hs⟩
  · rintro ⟨key, hkey, hs⟩
    exact ⟨_, ⟨key, hkey, rfl⟩, hs⟩

/-- An envelope that verifies has enough filled slots. -/
theorem threshold_le_count_of_verify {e : MultisigEnvelope} {message : Bytes} (h : e.verify message = .ok ()) :
    e.threshold.toNat ≤ e.count := by
  unfold verify at h
  split at h
  · cases h
  · split at h
    · cases h
    · split at h
      · cases h
      · split at h
        · cases h
        · omega

/-- An envelope whose signatures are good ones verifies exactly when enough slots are filled. -/
theorem verify_iff_of_good {e : MultisigEnvelope} {a : MultisigAccount} (he : e.account = .ok a) {message : Bytes}
    (hgood : ∀ slot ∈ e.slots, ∀ s ∈ slot.sig, s.verify slot.key message = .ok ()) :
    e.verify message = .ok () ↔ a.threshold.toNat ≤ e.filledSlots.length := by
  rw [← count_eq_length_filledSlots]
  obtain ⟨rfl, -⟩ := MultisigAccount.make_eq_ok.mp he
  exact ⟨threshold_le_count_of_verify, verify_of_good he hgood⟩

variable {f g : Address → Option Signature}

/-- Two slots of one key that hold different signatures are refused, wherever they stand. -/
theorem mergeSlots_of_not_compatible {keys : List Address} (h : ¬Compatible keys f g) :
    mergeSlots (keys.map fun key => ⟨key, f key⟩) (keys.map fun key => ⟨key, g key⟩) = .error .signatureMismatch := by
  induction keys with
  | nil => exact absurd (fun _ hk => absurd hk List.not_mem_nil) h
  | cons key keys ih =>
    simp only [List.map_cons, mergeSlots]
    by_cases hkey : ∀ s ∈ f key, ∀ s' ∈ g key, s = s'
    · have htail : ¬Compatible keys f g := fun hc => h (List.forall_mem_cons.mpr ⟨hkey, hc⟩)
      rw [merge_slot hkey, ih htail]
      rfl
    · push Not at hkey
      obtain ⟨s, hs, s', hs', hne⟩ := hkey
      rw [Option.mem_def] at hs hs'
      simp only [MultisigSlot.merge, hs, hs', if_neg hne]
      rfl

theorem merge_filled_of_not_compatible {a : MultisigAccount} (ha : a.WellFormed) (h : ¬Compatible a.keys f g) :
    (filled a f).merge (filled a g) = .error .signatureMismatch := by
  have hslots : mergeSlots (filled a f).slots (filled a g).slots = _ := mergeSlots_of_not_compatible h
  simp only [merge, account_filled ha, ok_bind, ne_eq, not_true_eq_false, if_false, hslots]
  rfl

end MultisigEnvelope

theorem MultisigAccount.mem_slotsOf {a : MultisigAccount} {key : Address} {i : Nat} :
    i ∈ a.slotsOf key ↔ a.keys[i]? = some key := by
  simp only [slotsOf, List.mem_map, List.mem_filter, Prod.exists, List.mem_zipIdx_iff_getElem?, beq_iff_eq]
  constructor
  · rintro ⟨k, j, ⟨hj, rfl⟩, rfl⟩
    exact hj
  · intro h
    exact ⟨key, i, ⟨h, rfl⟩, rfl⟩

namespace MergePlan

variable {a : MultisigAccount} {t : Transaction}

/-- Members that sign alike have their signatures united by any plan, by induction on the plan. -/
theorem run_eq_ok (ha : a.WellFormed) (plan : MergePlan) (hmem : ∀ key ∈ plan.keys, key.address ∈ a.keys)
    (h : SignAlike plan.keys t.bytesToSign) : plan.run a t = .ok (a.signedBy plan.keys t) := by
  induction plan with
  | contribution key => exact MultisigAccount.signTransaction_eq_ok (hmem key List.mem_cons_self)
  | merge left right ihl ihr =>
    have hl := ihl (fun k hk => hmem k (List.mem_append_left _ hk)) (h.mono fun k hk => List.mem_append_left _ hk)
    have hr := ihr (fun k hk => hmem k (List.mem_append_right _ hk)) (h.mono fun k hk => List.mem_append_right _ hk)
    rw [run, hl, ok_bind, hr, ok_bind, MultisigAccount.mergeMultisig_signedBy ha h]
    rfl

/-- Keys that sign alike on either side but not together leave one address with two signatures. -/
theorem not_compatible_of_not_signAlike {left right : List KeyPair} {message : Bytes}
    (hmem : ∀ key ∈ left ++ right, key.address ∈ a.keys) (hl : SignAlike left message) (hr : SignAlike right message)
    (h : ¬SignAlike (left ++ right) message) :
    ¬MultisigEnvelope.Compatible a.keys (signatures left message) (signatures right message) := by
  intro hc
  -- A key on the left and one on the right of the same address make one signature.
  have hcross : ∀ k ∈ left, ∀ k' ∈ right, k.address = k'.address → k.sign message = k'.sign message := by
    intro k hk k' hk' haddress
    have hs' : signatures right message k.address = some (k'.sign message) := by
      rw [haddress]
      exact signatures_of_mem hr hk'
    exact hc k.address (hmem k (List.mem_append_left _ hk)) _ (signatures_of_mem hl hk) _ hs'
  refine h fun k hk k' hk' haddress => ?_
  rcases List.mem_append.mp hk with hk | hk <;> rcases List.mem_append.mp hk' with hk' | hk'
  · exact hl k hk k' hk' haddress
  · exact hcross k hk k' hk' haddress
  · exact (hcross k' hk' k hk haddress.symm).symm
  · exact hr k hk k' hk' haddress

/-- Members that do not sign alike are refused by any plan: some merge meets two signatures of one key. -/
theorem run_eq_error (ha : a.WellFormed) (plan : MergePlan) (hmem : ∀ key ∈ plan.keys, key.address ∈ a.keys)
    (h : ¬SignAlike plan.keys t.bytesToSign) : plan.run a t = .error .signatureMismatch := by
  induction plan with
  | contribution key =>
    refine absurd ?_ h
    intro k hk k' hk' _
    rw [List.mem_singleton.mp hk, List.mem_singleton.mp hk']
  | merge left right ihl ihr =>
    have hml : ∀ key ∈ left.keys, key.address ∈ a.keys := fun k hk => hmem k (List.mem_append_left _ hk)
    have hmr : ∀ key ∈ right.keys, key.address ∈ a.keys := fun k hk => hmem k (List.mem_append_right _ hk)
    by_cases hl : SignAlike left.keys t.bytesToSign
    · by_cases hr : SignAlike right.keys t.bytesToSign
      · have hmerge := MultisigEnvelope.merge_filled_of_not_compatible ha
          (not_compatible_of_not_signAlike hmem hl hr h)
        rw [run, run_eq_ok ha left hml hl, ok_bind, run_eq_ok ha right hmr hr, ok_bind]
        simp only [SignedTxn.mergeMultisig, MultisigAccount.signedBy, MultisigAccount.enclose, hmerge]
        rfl
      · rw [run, run_eq_ok ha left hml hl, ok_bind, ihr hmr hr]
        rfl
    · rw [run, ihl hml hl]
      rfl

end MergePlan

/-- What the contributions of some members of an account come to when they are merged: one signed transaction, whatever
the order, the brackets and the repetitions. -/
structure MergesTo (a : MultisigAccount) (t : Transaction) (keys : List KeyPair) (s : SignedTxn)
    (e : MultisigEnvelope) : Prop where
  plans : ∀ plan : MergePlan, (∀ key, key ∈ plan.keys ↔ key ∈ keys) → plan.run a t = .ok s
  mergeAll : ∀ order : List KeyPair, (∀ key, key ∈ order ↔ key ∈ keys) →
    (order.mapM fun key => a.signTransaction key t) >>= SignedTxn.mergeAll = .ok s
  txn : s.txn = t
  envelope : s.msig = some e
  filled : ∀ i, i ∈ e.filledSlots ↔ ∃ key ∈ keys, i ∈ a.slotsOf key.address
  verifies : e.verify t.bytesToSign = .ok () ↔ a.threshold.toNat ≤ e.filledSlots.length
  authorizer : s.authorizer = a.address
  account : SignedTxn.multisigAccount? s.encode = .ok (some a)

section MergesTo

variable {a : MultisigAccount} {t : Transaction} {keys : List KeyPair}

/-- With good signatures in all filled slots, verifying is counting. -/
theorem verify_filled_iff (ha : a.WellFormed) {message : Bytes} (hgood : ∀ key ∈ keys, key.Attests message) :
    (MultisigEnvelope.filled a (signatures keys message)).verify message = .ok () ↔
      a.threshold.toNat ≤ (MultisigEnvelope.filled a (signatures keys message)).filledSlots.length := by
  refine MultisigEnvelope.verify_iff_of_good (MultisigEnvelope.account_filled ha) ?_
  intro slot hslot s hs
  obtain ⟨address, -, rfl⟩ := List.mem_map.mp hslot
  obtain ⟨key, hkey, rfl, rfl⟩ := exists_of_signatures hs
  exact hgood key hkey

theorem multisigAccount?_signedBy (ha : a.WellFormed) (ht : Transaction.schema.Short t) :
    SignedTxn.multisigAccount? (a.signedBy keys t).encode = .ok (some a) := by
  have hdecode : SignedTxn.decode (a.signedBy keys t).encode = .ok (a.signedBy keys t) :=
    SignedTxn.decode_encode (MultisigAccount.short_signedBy ha ht)
  have haccount : (MultisigEnvelope.filled a (signatures keys t.bytesToSign)).account = .ok a :=
    MultisigEnvelope.account_filled ha
  rw [SignedTxn.multisigAccount?, hdecode]
  change (MultisigEnvelope.account _ >>= fun account => pure (some account)) = _
  rw [haccount]
  rfl

/-- Members' contributions to a transaction merge in any order to one signed transaction, as far as the keys of one
address sign alike; otherwise every order is refused. -/
theorem contributions_merge_in_any_order {version threshold : UInt8} {members : List Address}
    (ha : MultisigAccount.make version threshold members = .ok a) (ht : Transaction.schema.Short t) (hne : keys ≠ [])
    (hmem : ∀ key ∈ keys, key.address ∈ a.keys) (hgood : ∀ key ∈ keys, key.Attests t.bytesToSign) :
    (SignAlike keys t.bytesToSign → ∃ s e, MergesTo a t keys s e) ∧
    (¬SignAlike keys t.bytesToSign → ∀ plan : MergePlan, (∀ key, key ∈ plan.keys ↔ key ∈ keys) →
      plan.run a t = .error .signatureMismatch) := by
  have hwf : a.WellFormed := (MultisigAccount.make_eq_ok.mp ha).2
  constructor
  · intro halike
    refine ⟨a.signedBy keys t, .filled a (signatures keys t.bytesToSign), ?_, ?_, rfl, rfl, ?_,
      verify_filled_iff hwf hgood, MultisigAccount.authorizer_signedBy, multisigAccount?_signedBy hwf ht⟩
    · intro plan hplan
      rw [MergePlan.run_eq_ok hwf plan (fun key hkey => hmem key ((hplan key).mp hkey))
        (halike.mono fun key hkey => (hplan key).mp hkey), MultisigAccount.signedBy, signatures_congr halike hplan]
      rfl
    · intro order horder
      have horderNe : order ≠ [] := by
        obtain ⟨key, hkey⟩ := List.exists_mem_of_ne_nil keys hne
        exact List.ne_nil_of_mem ((horder key).mpr hkey)
      rw [MultisigAccount.mergeAll_eq_ok hwf horderNe (fun key hkey => hmem key ((horder key).mp hkey))
        (halike.mono fun key hkey => (horder key).mp hkey), MultisigAccount.signedBy, signatures_congr halike horder]
      rfl
    · intro i
      rw [MultisigEnvelope.mem_filledSlots_filled]
      constructor
      · rintro ⟨address, hi, hs⟩
        obtain ⟨key, hkey, rfl⟩ := List.mem_map.mp (isSome_signatures.mp hs)
        exact ⟨key, hkey, MultisigAccount.mem_slotsOf.mpr hi⟩
      · rintro ⟨key, hkey, hi⟩
        exact ⟨key.address, MultisigAccount.mem_slotsOf.mp hi,
          isSome_signatures.mpr (List.mem_map.mpr ⟨key, hkey, rfl⟩)⟩
  · intro hdiffer plan hplan
    refine MergePlan.run_eq_error hwf plan (fun key hkey => hmem key ((hplan key).mp hkey)) ?_
    exact fun halike => hdiffer (halike.mono fun key hkey => (hplan key).mpr hkey)

def firstHolder : KeyPair := ⟨.zero 32⟩

def secondHolder : KeyPair := ⟨⟨List.replicate 32 1, List.length_replicate⟩⟩

/-- An account that needs all its slots filled, of which the first key holds two. -/
def heldTwice : MultisigAccount := ⟨1, 3, [firstHolder.address, secondHolder.address, firstHolder.address]⟩

theorem heldTwice_merges : MultisigAccount.make 1 3 heldTwice.keys = .ok heldTwice ∧
    ∃ s e, MergesTo heldTwice {} [firstHolder, secondHolder] s e := by
  have hmake : MultisigAccount.make 1 3 heldTwice.keys = .ok heldTwice :=
    MultisigAccount.make_eq_ok.mpr ⟨rfl, rfl, by decide, by decide, by decide⟩
  have hmem : ∀ key ∈ [firstHolder, secondHolder], key.address ∈ heldTwice.keys := by
    simp [heldTwice]
  have hfirst : firstHolder.Attests (Transaction.bytesToSign {}) := KeyPair.attests_of_isOk (by decide +kernel)
  have hsecond : secondHolder.Attests (Transaction.bytesToSign {}) := KeyPair.attests_of_isOk (by decide +kernel)
  have hgood : ∀ key ∈ [firstHolder, secondHolder], key.Attests (Transaction.bytesToSign {}) := by
    simp [hfirst, hsecond]
  have hdistinct : firstHolder.address ≠ secondHolder.address := by decide +kernel
  have halike : SignAlike [firstHolder, secondHolder] (Transaction.bytesToSign {}) :=
    signAlike_of_distinct (by simp [hdistinct])
  have hmerge := contributions_merge_in_any_order hmake Transaction.short_default (List.cons_ne_nil _ _) hmem hgood
  exact ⟨hmake, hmerge.1 halike⟩

end MergesTo

end AtomicGroup
