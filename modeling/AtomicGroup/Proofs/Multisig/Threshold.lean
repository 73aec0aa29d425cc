import AtomicGroup.Proofs.Multisig.Merging

/-!
# Signers that meet their threshold

A signer of an account is accepted exactly with different members, as many as the threshold asks for. It claims the
first slot of each of its keys, and signs in all of them; this leaves no merge that could be refused and no envelope
with too few signatures, in whatever order the keys come.
-/
namespace AtomicGroup

open Outcome

namespace MultisigSigner

variable {a : MultisigAccount} {keys order : List KeyPair} {s : MultisigSigner}

theorem exists_slot_of_mem {address : Address} (h : address ∈ a.keys) :
    ∃ slot, (a.slotsOf address).head? = some slot := by
  obtain ⟨i, hi⟩ := List.mem_iff_getElem?.mp h
  exact Option.isSome_iff_exists.mp (List.isSome_head?.mpr (List.ne_nil_of_mem (MultisigAccount.mem_slotsOf.mpr hi)))

/-- A slot is claimed by one address alone. -/
theorem address_eq_of_slot {address address' : Address} {slot : Nat} (h : (a.slotsOf address).head? = some slot)
    (h' : (a.slotsOf address').head? = some slot) : address = address' := by
  have hkey := MultisigAccount.mem_slotsOf.mp (List.mem_of_mem_head? (Option.mem_def.mpr h))
  have hkey' := MultisigAccount.mem_slotsOf.mp (List.mem_of_mem_head? (Option.mem_def.mpr h'))
  exact Option.some.inj (hkey.symm.trans hkey')

/-- Different members claim different slots, by induction on the keys; what has been seen grows with them. -/
theorem exists_claimSlots {seen : List Nat} (hmem : ∀ key ∈ keys, key.address ∈ a.keys)
    (hdistinct : keys.Pairwise fun k k' => k.address ≠ k'.address)
    (hfresh : ∀ key ∈ keys, ∀ slot ∈ (a.slotsOf key.address).head?, slot ∉ seen) :
    ∃ slots, claimSlots a seen keys = .ok slots := by
  induction keys generalizing seen with
  | nil => exact ⟨seen, rfl⟩
  | cons key keys ih =>
    obtain ⟨hkey, hkeys⟩ := List.forall_mem_cons.mp hmem
    obtain ⟨hdiffer, hrest⟩ := List.pairwise_cons.mp hdistinct
    obtain ⟨hnew, hfresh⟩ := List.forall_mem_cons.mp hfresh
    obtain ⟨slot, hslot⟩ := exists_slot_of_mem hkey
    have hlater : ∀ k ∈ keys, ∀ slot' ∈ (a.slotsOf k.address).head?, slot' ∉ slot :: seen := by
      intro k hk slot' hslot' hseen
      rcases List.mem_cons.mp hseen with rfl | hseen
      · exact hdiffer k hk (address_eq_of_slot hslot hslot')
      · exact hfresh k hk slot' hslot' hseen
    obtain ⟨slots, hslots⟩ := ih hkeys hrest hlater
    refine ⟨slots, ?_⟩
    rw [claimSlots, hslot]
    dsimp only
    rw [if_neg (by simpa using hnew slot hslot), hslots]

/-- A signer is made of the keys exactly when they are different members, and as many as the threshold asks for. -/
theorem make_eq_ok : make a keys = .ok s ↔ s = ⟨a, keys⟩ ∧ (∀ key ∈ keys, key.address ∈ a.keys) ∧
    (keys.map (·.address)).Nodup ∧ a.threshold.toNat ≤ keys.length := by
  have hnodup : (keys.map (·.address)).Nodup ↔ keys.Pairwise fun k k' => k.address ≠ k'.address := List.pairwise_map
  rw [make, bind_eq_ok, hnodup]
  constructor
  · rintro ⟨slots, hslots, h⟩
    obtain ⟨hneed, rfl⟩ := guard_eq_ok.mp h
    obtain ⟨hkeys, hdistinct, hlen⟩ := claimSlots_eq_ok hslots
    rw [List.length_nil, Nat.zero_add] at hlen
    exact ⟨rfl, fun key hkey => (hkeys key hkey).1, hdistinct, hlen ▸ Nat.not_lt.mp hneed⟩
  · rintro ⟨rfl, hmem, hdistinct, henough⟩
    obtain ⟨slots, hslots⟩ := exists_claimSlots hmem hdistinct fun _ _ _ _ => List.not_mem_nil
    obtain ⟨-, -, hlen⟩ := claimSlots_eq_ok hslots
    rw [List.length_nil, Nat.zero_add] at hlen
    exact ⟨slots, hslots, guard_eq_ok.mpr ⟨hlen ▸ Nat.not_lt.mpr henough, rfl⟩⟩

theorem make_eq_error : (∃ e, make a keys = .error e) ↔ (∃ key ∈ keys, key.address ∉ a.keys) ∨
    ¬(keys.map (·.address)).Nodup ∨ keys.length < a.threshold.toNat := by
  constructor
  · rintro ⟨e, he⟩
    by_contra hnone
    obtain ⟨hforeign, hnone⟩ := not_or.mp hnone
    obtain ⟨hrepeated, hfew⟩ := not_or.mp hnone
    have hmem : ∀ key ∈ keys, key.address ∈ a.keys := by
      intro key hkey
      by_contra hnot
      exact hforeign ⟨key, hkey, hnot⟩
    cases he.symm.trans (make_eq_ok.mpr ⟨rfl, hmem, Classical.not_not.mp hrepeated, Nat.not_lt.mp hfew⟩)
  · intro hfault
    cases h : make a keys with
    | error e => exact ⟨e, rfl⟩
    | ok s =>
      obtain ⟨-, hmem, hnodup, henough⟩ := make_eq_ok.mp h
      obtain ⟨key, hkey, hforeign⟩ | hrepeated | hfew := hfault
      · exact absurd (hmem key hkey) hforeign
      · exact absurd hnodup hrepeated
      · omega

theorem make_perm (h : make a keys = .ok s) (horder : order.Perm keys) : make a order = .ok ⟨a, order⟩ := by
  obtain ⟨-, hmem, hnodup, henough⟩ := make_eq_ok.mp h
  refine make_eq_ok.mpr ⟨rfl, fun key hkey => hmem key (horder.mem_iff.mp hkey), ?_, ?_⟩
  · exact (horder.map _).nodup_iff.mpr hnodup
  · rwa [horder.length_eq]

/-- A well-formed signer signs all that it is asked for. -/
theorem sign_eq_ok (hs : s.WellFormed) {txns selected : List Transaction} {indexes : List Nat}
    (h : Signer.select txns indexes = .ok selected) : (Signer.multisig s).sign txns indexes =
      .ok (selected.map fun t => (s.account.signedBy s.keys t).encode) := by
  have hinternal : (Signer.multisig s).Internal := trivial
  rw [Signer.sign_eq_respond hinternal, Signer.respond_eq_ok hinternal, List.forall₂_map_right_iff]
  exact (Signer.select_eq_ok.mp h).imp fun i t ht => ⟨t, _, ht, signTransaction_eq_ok hs t, rfl⟩

end MultisigSigner

/-- The slots of an account that some keys fill. -/
theorem mem_filledSlots_signatures {a : MultisigAccount} {keys : List KeyPair} {message : Bytes} {i : Nat} :
    i ∈ (MultisigEnvelope.filled a (signatures keys message)).filledSlots ↔
      ∃ key ∈ keys, i ∈ a.slotsOf key.address := by
  rw [MultisigEnvelope.mem_filledSlots_filled]
  constructor
  · rintro ⟨address, hi, hs⟩
    obtain ⟨key, hkey, rfl⟩ := List.mem_map.mp (isSome_signatures.mp hs)
    exact ⟨key, hkey, MultisigAccount.mem_slotsOf.mpr hi⟩
  · rintro ⟨key, hkey, hi⟩
    exact ⟨key.address, MultisigAccount.mem_slotsOf.mp hi, isSome_signatures.mpr (List.mem_map.mpr ⟨key, hkey, rfl⟩)⟩

/-- What octets tell that carry a transaction under an envelope in which some keys of an account have signed. -/
structure Endorsed (a : MultisigAccount) (keys : List KeyPair) (t : Transaction) (payload : Bytes)
    (e : MultisigEnvelope) : Prop where
  decodes : Transaction.schema.Short t → SignedTxn.decode payload = .ok (a.enclose t e)
  account : e.account = .ok a
  filled : ∀ i, i ∈ e.filledSlots ↔ ∃ key ∈ keys, i ∈ a.slotsOf key.address
  verifies : (∀ key ∈ keys, key.Attests t.bytesToSign) → e.verify t.bytesToSign = .ok ()

theorem MultisigSigner.WellFormed.endorsed {s : MultisigSigner} (hs : s.WellFormed) (t : Transaction) :
    Endorsed s.account s.keys t (s.account.signedBy s.keys t).encode
      (.filled s.account (signatures s.keys t.bytesToSign)) where
  decodes ht := SignedTxn.decode_encode (MultisigAccount.short_signedBy hs.account ht)
  account := MultisigEnvelope.account_filled hs.account
  filled _ := mem_filledSlots_signatures
  verifies := MultisigSigner.verify_signedBy hs

/-- A signer that is accepted for an account never fails to sign, and each payload carries the transaction under an
envelope that verifies, filled in exactly the slots of its keys, whatever their order; only keys that are no members,
come twice or are too few are refused. -/
theorem accepted_signer_meets_threshold {version threshold : UInt8} {members : List Address} {a : MultisigAccount}
    (ha : MultisigAccount.make version threshold members = .ok a) (keys : List KeyPair) :
    ((∃ e, MultisigSigner.make a keys = .error e) ↔ (∃ key ∈ keys, key.address ∉ a.keys) ∨
      ¬(keys.map (·.address)).Nodup ∨ keys.length < a.threshold.toNat) ∧
    ∀ s, MultisigSigner.make a keys = .ok s → ∀ txns indexes, (∀ i ∈ indexes, i < txns.length) →
      ∃ payloads, (Signer.multisig s).sign txns indexes = .ok payloads ∧
        List.Forall₂ (fun i payload => ∃ t e, txns[i]? = some t ∧ Endorsed a keys t payload e) indexes payloads ∧
        ∀ order, order.Perm keys → ∃ s', MultisigSigner.make a order = .ok s' ∧
          (Signer.multisig s').sign txns indexes = .ok payloads := by
  have hwf : a.WellFormed := (MultisigAccount.make_eq_ok.mp ha).2
  refine ⟨MultisigSigner.make_eq_error, ?_⟩
  intro s hmake txns indexes hrange
  have hs := MultisigSigner.wellFormed_of_make hwf hmake
  obtain ⟨selected, hselected⟩ := Signer.exists_select hrange
  obtain ⟨rfl, -⟩ := MultisigSigner.make_eq_ok.mp hmake
  refine ⟨_, MultisigSigner.sign_eq_ok hs hselected, ?_, ?_⟩
  · rw [List.forall₂_map_right_iff]
    exact (Signer.select_eq_ok.mp hselected).imp fun i t ht => ⟨t, _, ht, hs.endorsed t⟩
  · intro order horder
    have hmake' := MultisigSigner.make_perm hmake horder
    refine ⟨_, hmake', ?_⟩
    rw [MultisigSigner.sign_eq_ok (MultisigSigner.wellFormed_of_make hwf hmake') hselected]
    refine congrArg Except.ok (List.map_congr_left fun t _ => ?_)
    rw [MultisigAccount.signedBy, MultisigAccount.signedBy,
      signatures_congr (signAlike_of_distinct hs.distinct) fun _ => horder.mem_iff]

/-- An account of which the first key holds two slots, though one of them is enough for the threshold. -/
def twoOfThree : MultisigAccount := { heldTwice with threshold := 2 }

theorem twoOfThree_endorsed : MultisigAccount.make 1 2 twoOfThree.keys = .ok twoOfThree ∧
    (∃ e, MultisigSigner.make twoOfThree [firstHolder, firstHolder] = .error e) ∧
    ∃ payload e, (Signer.multisig ⟨twoOfThree, [secondHolder, firstHolder]⟩).sign [{}] [0] = .ok [payload] ∧
      (Signer.multisig ⟨twoOfThree, [firstHolder, secondHolder]⟩).sign [{}] [0] = .ok [payload] ∧
      SignedTxn.decode payload = .ok (twoOfThree.enclose {} e) ∧ 2 ∈ e.filledSlots ∧
      e.verify (Transaction.bytesToSign {}) = .ok () := by
  have hmake : MultisigAccount.make 1 2 twoOfThree.keys = .ok twoOfThree :=
    MultisigAccount.make_eq_ok.mpr ⟨rfl, rfl, by decide, by decide, by decide⟩
  have hdistinct : secondHolder.address ≠ firstHolder.address := by decide +kernel
  have hfirst : firstHolder.Attests (Transaction.bytesToSign {}) := KeyPair.attests_of_isOk (by decide +kernel)
  have hsecond : secondHolder.Attests (Transaction.bytesToSign {}) := KeyPair.attests_of_isOk (by decide +kernel)
  have hgood : ∀ key ∈ [secondHolder, firstHolder], key.Attests (Transaction.bytesToSign {}) := by
    simp [hfirst, hsecond]
  obtain ⟨hrefused, -⟩ := accepted_signer_meets_threshold hmake [firstHolder, firstHolder]
  obtain ⟨-, hsign⟩ := accepted_signer_meets_threshold hmake [secondHolder, firstHolder]
  have hsigner : MultisigSigner.make twoOfThree [secondHolder, firstHolder] =
      .ok ⟨twoOfThree, [secondHolder, firstHolder]⟩ := by
    refine MultisigSigner.make_eq_ok.mpr ⟨rfl, ?_, ?_, by decide⟩
    · simp [twoOfThree, heldTwice]
    · simp [hdistinct]
  obtain ⟨payloads, hpayloads, hendorsed, horders⟩ := hsign _ hsigner [{}] [0] (by decide)
  obtain ⟨payload, rest, ⟨t, e, ht, he⟩, hrest, rfl⟩ := List.forall₂_cons_left_iff.mp hendorsed
  cases hrest
  cases ht
  obtain ⟨s', hs', horder⟩ := horders [firstHolder, secondHolder] (.swap _ _ _)
  obtain ⟨rfl, -⟩ := MultisigSigner.make_eq_ok.mp hs'
  refine ⟨hmake, hrefused.mpr (.inr (.inl (by simp))), payload, e, hpayloads, horder,
    he.decodes Transaction.short_default, ?_, he.verifies hgood⟩
  exact (he.filled 2).mpr ⟨firstHolder, by simp, MultisigAccount.mem_slotsOf.mpr rfl⟩

end AtomicGroup
