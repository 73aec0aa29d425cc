import AtomicGroup.Multisig.Signing
import AtomicGroup.Proofs.Outcome
import AtomicGroup.Signer
import Mathlib.Data.List.Nodup

/-!
# Contributions to a multisig envelope

An envelope of an account is known by which signature, if any, stands in the slots of each key. Filling and merging
envelopes are then operations on such assignments, so that what a signer of several keys makes of a transaction is the
envelope in which exactly its own keys have signed.
-/
namespace AtomicGroup

open Outcome

namespace MultisigAccount

/-- What the parameters of an account keep to. -/
structure WellFormed (a : MultisigAccount) : Prop where
  version_eq : a.version = currentVersion
  keys_le : a.keys.length ≤ maxKeys
  threshold_ne_zero : a.threshold ≠ 0
  threshold_le : a.threshold.toNat ≤ a.keys.length

theorem WellFormed.threshold_pos {a : MultisigAccount} (h : a.WellFormed) : 0 < a.threshold.toNat := by
  have hne : a.threshold.toNat ≠ 0 := fun h0 => h.threshold_ne_zero (UInt8.toNat_inj.mp h0)
  omega

theorem WellFormed.keys_ne_nil {a : MultisigAccount} (h : a.WellFormed) : a.keys ≠ [] := by
  intro hnil
  have hpos := h.threshold_pos
  have hle := h.threshold_le
  rw [hnil, List.length_nil] at hle
  omega

theorem make_eq_ok {version threshold : UInt8} {keys : List Address} {a : MultisigAccount} :
    make version threshold keys = .ok a ↔ a = ⟨version, threshold, keys⟩ ∧ a.WellFormed := by
  constructor
  · intro h
    unfold make at h
    split at h
    · cases h
    · split at h
      · cases h
      · split at h
        · cases h
        · split at h
          · cases h
          · split at h
            · cases h
            · cases h
              exact ⟨rfl, not_not.mp ‹_›, Nat.not_lt.mp ‹_›, ‹_›, Nat.not_lt.mp ‹_›⟩
  · rintro ⟨rfl, h⟩
    have hkeys : keys ≠ [] := h.keys_ne_nil
    rw [make, if_neg (not_not.mpr h.version_eq), if_neg (Nat.not_lt.mpr h.keys_le), if_neg hkeys,
      if_neg h.threshold_ne_zero, if_neg (Nat.not_lt.mpr h.threshold_le)]

end MultisigAccount

namespace MultisigEnvelope

/-- The envelope of an account with the signatures that an assignment gives to the keys. -/
def filled (a : MultisigAccount) (f : Address → Option Signature) : MultisigEnvelope :=
  ⟨a.keys.map fun key => ⟨key, f key⟩, a.threshold, a.version⟩

variable {a : MultisigAccount} {f g : Address → Option Signature}

theorem blank_eq_filled (a : MultisigAccount) : blank a = filled a fun _ => none := rfl

theorem account_filled (h : a.WellFormed) : (filled a f).account = .ok a := by
  have hkeys : (filled a f).slots.map (·.key) = a.keys := by simp [filled, Function.comp_def]
  rw [account, hkeys]
  exact MultisigAccount.make_eq_ok.mpr ⟨rfl, h⟩

/-- Filling the slots of a member changes its signature. -/
theorem fill_filled {key : Address} (h : key ∈ a.keys) (sig : Signature) :
    (filled a f).fill key sig = .ok (filled a fun k => if k = key then some sig else f k) := by
  have hany : (filled a f).slots.any (·.key == key) = true := by
    rw [List.any_eq_true]
    exact ⟨⟨key, f key⟩, List.mem_map.mpr ⟨key, h, rfl⟩, beq_self_eq_true key⟩
  rw [fill, if_pos hany]
  simp only [filled, List.map_map, Function.comp_def]
  congr 3
  funext k
  by_cases hk : k = key <;> simp [hk]

/-- Two assignments that do not give different signatures to one key. -/
def Compatible (keys : List Address) (f g : Address → Option Signature) : Prop :=
  ∀ key ∈ keys, ∀ s ∈ f key, ∀ s' ∈ g key, s = s'

theorem merge_slot {key : Address} (h : ∀ s ∈ f key, ∀ s' ∈ g key, s = s') :
    MultisigSlot.merge ⟨key, f key⟩ ⟨key, g key⟩ = .ok ⟨key, (f key).or (g key)⟩ := by
  cases hf : f key with
  | none => rfl
  | some s =>
    cases hg : g key with
    | none => rfl
    | some s' =>
      have hs : s = s' := h s hf s' hg
      simp only [MultisigSlot.merge, hs, if_true, Option.or]

theorem mergeSlots_filled {keys : List Address} (h : Compatible keys f g) :
    mergeSlots (keys.map fun key => ⟨key, f key⟩) (keys.map fun key => ⟨key, g key⟩) =
      .ok (keys.map fun key => ⟨key, (f key).or (g key)⟩) := by
  induction keys with
  | nil => rfl
  | cons key keys ih =>
    have hslot := merge_slot (h key List.mem_cons_self)
    have hslots := ih fun k hk => h k (List.mem_cons_of_mem _ hk)
    simp only [List.map_cons, mergeSlots, hslot, hslots]
    rfl

/-- Merging envelopes of one account unites their signatures. -/
theorem merge_filled (ha : a.WellFormed) (h : Compatible a.keys f g) :
    (filled a f).merge (filled a g) = .ok (filled a fun key => (f key).or (g key)) := by
  have hslots : mergeSlots (filled a f).slots (filled a g).slots = _ := mergeSlots_filled h
  simp only [merge, account_filled ha, ok_bind, ne_eq, not_true_eq_false, if_false, hslots]
  rfl

/-- Slots whose signatures are good ones verify. -/
theorem verifySlots_of_good {slots : List MultisigSlot} {message : Bytes}
    (hgood : ∀ slot ∈ slots, ∀ s ∈ slot.sig, s.verify slot.key message = .ok ()) :
    verifySlots message slots = .ok () := by
  induction slots with
  | nil => rfl
  | cons slot slots ih =>
    obtain ⟨hslot, hslots⟩ := List.forall_mem_cons.mp hgood
    rw [verifySlots]
    cases hsig : slot.sig with
    | none => exact ih hslots
    | some s =>
      dsimp only
      rw [hslot s hsig]
      exact ih hslots

/-- An envelope whose signatures are good ones verifies when enough slots are filled. -/
theorem verify_of_good {e : MultisigEnvelope} (he : e.account = .ok a) {message : Bytes}
    (hgood : ∀ slot ∈ e.slots, ∀ s ∈ slot.sig, s.verify slot.key message = .ok ())
    (hcount : a.threshold.toNat ≤ e.count) : e.verify message = .ok () := by
  obtain ⟨rfl, ha⟩ := MultisigAccount.make_eq_ok.mp he
  have hnil : ¬(e.slots = [] ∨ e.threshold = 0) := by
    rintro (h | h)
    · exact ha.keys_ne_nil (List.map_eq_nil_iff.mpr h)
    · exact ha.threshold_ne_zero h
  have hle : ¬e.slots.length < e.threshold.toNat := by simpa using ha.threshold_le
  have hversion : ¬e.version ≠ MultisigAccount.currentVersion := not_not.mpr ha.version_eq
  rw [verify, if_neg hversion, if_neg hnil, if_neg hle, if_neg (Nat.not_lt.mpr hcount)]
  exact verifySlots_of_good hgood

/-- An envelope whose signatures are good ones verifies when enough keys have signed. -/
theorem verify_filled (ha : a.WellFormed) {message : Bytes}
    (hgood : ∀ key ∈ a.keys, ∀ s ∈ f key, s.verify key message = .ok ())
    (hcount : a.threshold.toNat ≤ a.keys.countP fun key => (f key).isSome) :
    (filled a f).verify message = .ok () := by
  refine verify_of_good (account_filled ha) ?_ ?_
  · intro slot hslot s hs
    obtain ⟨key, hkey, rfl⟩ := List.mem_map.mp hslot
    exact hgood key hkey s hs
  · simpa [count, filled, List.countP_map, Function.comp_def] using hcount

end MultisigEnvelope

/-- A key whose signature of a message is a good one. -/
def KeyPair.Attests (key : KeyPair) (message : Bytes) : Prop :=
  (key.sign message).verify key.address message = .ok ()

theorem KeyPair.attests_of_isOk {key : KeyPair} {message : Bytes}
    (h : ((key.sign message).verify key.address message).isOk) : key.Attests message := by
  unfold Attests
  generalize (key.sign message).verify key.address message = r at h ⊢
  cases r with
  | ok u => rfl
  | error e => cases h

/-- The signature of a message that some keys give for an address. -/
def signatures (keys : List KeyPair) (message : Bytes) (address : Address) : Option Signature :=
  keys.findSome? fun key => if key.address = address then some (key.sign message) else none

theorem signatures_append (keys more : List KeyPair) (message : Bytes) (address : Address) :
    signatures (keys ++ more) message address =
      (signatures keys message address).or (signatures more message address) :=
  List.findSome?_append

theorem signatures_singleton (key : KeyPair) (message : Bytes) (address : Address) :
    signatures [key] message address = if address = key.address then some (key.sign message) else none := by
  by_cases h : address = key.address
  · simp [signatures, h]
  · simp [signatures, h, Ne.symm h]

/-- A signature that keys give is one that a key of this address made. -/
theorem exists_of_signatures {keys : List KeyPair} {message : Bytes} {address : Address} {s : Signature}
    (h : s ∈ signatures keys message address) : ∃ key ∈ keys, key.address = address ∧ s = key.sign message := by
  obtain ⟨key, hkey, hs⟩ := List.exists_of_findSome?_eq_some h
  split at hs
  · exact ⟨key, hkey, ‹_›, (Option.some_inj.mp hs).symm⟩
  · cases hs

theorem isSome_signatures {keys : List KeyPair} {message : Bytes} {address : Address} :
    (signatures keys message address).isSome ↔ address ∈ keys.map (·.address) := by
  simp [signatures, List.findSome?_isSome_iff]

/-- Keys of one address make one signature of a message. An address is a public key, which belongs to one seed as far as
anybody knows. -/
def SignAlike (keys : List KeyPair) (message : Bytes) : Prop :=
  ∀ k ∈ keys, ∀ k' ∈ keys, k.address = k'.address → k.sign message = k'.sign message

section SignAlike

variable {keys more : List KeyPair} {message : Bytes}

theorem SignAlike.mono (h : SignAlike keys message) (hsub : ∀ k ∈ more, k ∈ keys) : SignAlike more message :=
  fun k hk k' hk' => h k (hsub k hk) k' (hsub k' hk')

theorem signAlike_of_distinct (h : keys.Pairwise fun k k' => k.address ≠ k'.address) : SignAlike keys message := by
  intro k hk k' hk' haddress
  have hnodup : (keys.map (·.address)).Nodup := List.pairwise_map.mpr h
  rw [List.inj_on_of_nodup_map hnodup hk hk' haddress]

/-- The signature for a key's address is the one that the key makes. -/
theorem signatures_of_mem (h : SignAlike keys message) {key : KeyPair} (hk : key ∈ keys) :
    signatures keys message key.address = some (key.sign message) := by
  have hsome : (signatures keys message key.address).isSome :=
    isSome_signatures.mpr (List.mem_map.mpr ⟨key, hk, rfl⟩)
  obtain ⟨s, hs⟩ := Option.isSome_iff_exists.mp hsome
  obtain ⟨k, hmem, haddress, rfl⟩ := exists_of_signatures hs
  rw [hs, h k hmem key hk haddress]

/-- The signatures depend on the set of keys alone. -/
theorem signatures_congr (h : SignAlike keys message) (hmem : ∀ k, k ∈ more ↔ k ∈ keys) :
    signatures more message = signatures keys message := by
  have hmore : SignAlike more message := h.mono fun k hk => (hmem k).mp hk
  funext address
  by_cases ha : address ∈ keys.map (·.address)
  · obtain ⟨key, hkey, rfl⟩ := List.mem_map.mp ha
    rw [signatures_of_mem h hkey, signatures_of_mem hmore ((hmem key).mpr hkey)]
  · have hb : address ∉ more.map (·.address) := by
      intro hb
      obtain ⟨key, hkey, rfl⟩ := List.mem_map.mp hb
      exact ha (List.mem_map.mpr ⟨key, (hmem key).mp hkey, rfl⟩)
    rw [Option.not_isSome_iff_eq_none.mp (mt isSome_signatures.mp ha),
      Option.not_isSome_iff_eq_none.mp (mt isSome_signatures.mp hb)]

end SignAlike

namespace MultisigAccount

variable {a : MultisigAccount} {t : Transaction}

/-- A transaction under the signatures that some keys of an account give. -/
def signedBy (a : MultisigAccount) (keys : List KeyPair) (t : Transaction) : SignedTxn :=
  a.enclose t (.filled a (signatures keys t.bytesToSign))

/-- A member contributes its own signature. -/
theorem signTransaction_eq_ok {key : KeyPair} (h : key.address ∈ a.keys) :
    a.signTransaction key t = .ok (a.signedBy [key] t) := by
  have hfill := MultisigEnvelope.fill_filled (f := fun _ => none) h (key.sign t.bytesToSign)
  have hsigs : signatures [key] t.bytesToSign =
      fun k => if k = key.address then some (key.sign t.bytesToSign) else none := by
    funext k
    exact signatures_singleton key t.bytesToSign k
  rw [signTransaction, if_neg (by simp [contains, h]), MultisigEnvelope.blank_eq_filled, hfill, ok_bind, signedBy, hsigs]
  rfl

theorem compatible_of_signAlike {keys more : List KeyPair} {message : Bytes} (h : SignAlike (keys ++ more) message) :
    MultisigEnvelope.Compatible a.keys (signatures keys message) (signatures more message) := by
  intro address _ s hs s' hs'
  obtain ⟨k, hk, haddress, rfl⟩ := exists_of_signatures hs
  obtain ⟨k', hk', haddress', rfl⟩ := exists_of_signatures hs'
  exact h k (List.mem_append_left _ hk) k' (List.mem_append_right _ hk') (haddress.trans haddress'.symm)

/-- The contributions of keys that sign alike unite. -/
theorem mergeMultisig_signedBy (ha : a.WellFormed) {keys more : List KeyPair}
    (h : SignAlike (keys ++ more) t.bytesToSign) :
    (a.signedBy keys t).mergeMultisig (a.signedBy more t) = .ok (a.signedBy (keys ++ more) t) := by
  have hmerge := MultisigEnvelope.merge_filled ha (compatible_of_signAlike (a := a) h)
  have hunion : (fun k => (signatures keys t.bytesToSign k).or (signatures more t.bytesToSign k)) =
      signatures (keys ++ more) t.bytesToSign := by
    funext k
    exact (signatures_append keys more t.bytesToSign k).symm
  rw [hunion] at hmerge
  simp only [SignedTxn.mergeMultisig, signedBy, enclose, hmerge, ok_bind, ne_eq, not_true_eq_false, if_false]
  rfl

/-- Merging from left to right gathers the signatures of all keys. -/
theorem foldlM_mergeMultisig (ha : a.WellFormed) (done rest : List KeyPair)
    (h : SignAlike (done ++ rest) t.bytesToSign) :
    (rest.map fun key => a.signedBy [key] t).foldlM SignedTxn.mergeMultisig (a.signedBy done t) =
      .ok (a.signedBy (done ++ rest) t) := by
  induction rest generalizing done with
  | nil =>
    rw [List.append_nil]
    rfl
  | cons key rest ih =>
    have hassoc : done ++ key :: rest = (done ++ [key]) ++ rest := by simp
    rw [hassoc] at h ⊢
    have hfirst : SignAlike (done ++ [key]) t.bytesToSign := h.mono fun k hk => List.mem_append_left _ hk
    rw [List.map_cons, List.foldlM_cons, mergeMultisig_signedBy ha hfirst, ok_bind, ih (done ++ [key]) h]

/-- The contributions of members that sign alike are merged into one transaction with all their signatures. -/
theorem mergeAll_eq_ok (ha : a.WellFormed) {keys : List KeyPair} (hne : keys ≠ [])
    (hmem : ∀ key ∈ keys, key.address ∈ a.keys) (h : SignAlike keys t.bytesToSign) :
    (keys.mapM fun key => a.signTransaction key t) >>= SignedTxn.mergeAll = .ok (a.signedBy keys t) := by
  have hparts : keys.mapM (fun key => a.signTransaction key t) = .ok (keys.map fun key => a.signedBy [key] t) := by
    rw [mapM_eq_ok, List.forall₂_map_right_iff, List.forall₂_same]
    exact fun key hkey => signTransaction_eq_ok (hmem key hkey)
  rw [hparts, ok_bind]
  cases keys with
  | nil => exact absurd rfl hne
  | cons key rest => exact foldlM_mergeMultisig ha [key] rest h

end MultisigAccount

namespace MultisigSigner

open MultisigAccount

structure WellFormed (s : MultisigSigner) : Prop where
  account : s.account.WellFormed
  members : ∀ key ∈ s.keys, key.address ∈ s.account.keys
  distinct : s.keys.Pairwise fun k k' => k.address ≠ k'.address
  enough : s.account.threshold.toNat ≤ s.keys.length

theorem mem_keys_of_slot {a : MultisigAccount} {address : Address} {slot : Nat}
    (h : (a.slotsOf address).head? = some slot) : address ∈ a.keys := by
  have hmem := List.mem_of_mem_head? (Option.mem_def.mpr h)
  obtain ⟨⟨k, i⟩, hki, -⟩ := List.mem_map.mp hmem
  obtain ⟨hk, heq⟩ := List.mem_filter.mp hki
  rw [← eq_of_beq heq]
  exact List.fst_mem_of_mem_zipIdx hk

/-- Claimed slots are new ones of members, so that keys that claim them have different addresses. -/
theorem claimSlots_eq_ok {a : MultisigAccount} {seen slots : List Nat} {keys : List KeyPair}
    (h : claimSlots a seen keys = .ok slots) :
    (∀ key ∈ keys, key.address ∈ a.keys ∧ ∀ slot ∈ (a.slotsOf key.address).head?, slot ∉ seen) ∧
    keys.Pairwise (fun k k' => k.address ≠ k'.address) ∧ slots.length = seen.length + keys.length := by
  induction keys generalizing seen with
  | nil =>
    cases h
    exact ⟨nofun, .nil, rfl⟩
  | cons key keys ih =>
    rw [claimSlots] at h
    cases hslot : (a.slotsOf key.address).head? with
    | none =>
      rw [hslot] at h
      cases h
    | some slot =>
      rw [hslot] at h
      dsimp only at h
      by_cases hseen : seen.contains slot
      · rw [if_pos hseen] at h
        cases h
      · rw [if_neg hseen] at h
        obtain ⟨hkeys, hdistinct, hlen⟩ := ih h
        have hfresh : slot ∉ seen := by simpa using hseen
        refine ⟨List.forall_mem_cons.mpr ⟨⟨mem_keys_of_slot hslot, ?_⟩, ?_⟩, List.pairwise_cons.mpr ⟨?_, hdistinct⟩, ?_⟩
        · intro slot' hslot'
          rw [hslot] at hslot'
          cases hslot'
          exact hfresh
        · intro k hk
          exact ⟨(hkeys k hk).1, fun slot' hslot' hmem => (hkeys k hk).2 slot' hslot' (List.mem_cons_of_mem _ hmem)⟩
        · -- A later key of this address would claim the same slot.
          intro k hk heq
          exact (hkeys k hk).2 slot (heq ▸ hslot) List.mem_cons_self
        · rw [hlen, List.length_cons, List.length_cons]
          omega

/-- A signer that is made of a well-formed account is well-formed. -/
theorem wellFormed_of_make {a : MultisigAccount} {keys : List KeyPair} {s : MultisigSigner} (ha : a.WellFormed)
    (h : make a keys = .ok s) : s.WellFormed := by
  obtain ⟨slots, hslots, h⟩ := bind_eq_ok.mp h
  obtain ⟨hneed, rfl⟩ := guard_eq_ok.mp h
  obtain ⟨hkeys, hdistinct, hlen⟩ := claimSlots_eq_ok hslots
  refine ⟨ha, fun key hkey => (hkeys key hkey).1, hdistinct, ?_⟩
  rw [List.length_nil, Nat.zero_add] at hlen
  exact hlen ▸ Nat.not_lt.mp hneed

/-- A well-formed signer gives a transaction the signatures of all its keys. -/
theorem signTransaction_eq_ok {s : MultisigSigner} (h : s.WellFormed) (t : Transaction) :
    s.signTransaction t = .ok (s.account.signedBy s.keys t) := by
  have hne : s.keys ≠ [] := by
    intro hnil
    have hpos := h.account.threshold_pos
    have henough := h.enough
    rw [hnil, List.length_nil] at henough
    omega
  exact MultisigAccount.mergeAll_eq_ok h.account hne h.members (signAlike_of_distinct h.distinct)

/-- The envelope that a well-formed signer makes verifies when its keys make good signatures. -/
theorem verify_signedBy {s : MultisigSigner} (h : s.WellFormed) {message : Bytes}
    (hgood : ∀ key ∈ s.keys, key.Attests message) :
    (MultisigEnvelope.filled s.account (signatures s.keys message)).verify message = .ok () := by
  refine MultisigEnvelope.verify_filled h.account ?_ ?_
  · intro address _ sig hsig
    obtain ⟨key, hkey, rfl, rfl⟩ := exists_of_signatures hsig
    exact hgood key hkey
  · have hnodup : (s.keys.map (·.address)).Nodup := List.pairwise_map.mpr h.distinct
    have hsub : s.keys.map (·.address) ⊆ s.account.keys.filter fun k => (signatures s.keys message k).isSome := by
      intro address hmem
      obtain ⟨key, hkey, rfl⟩ := List.mem_map.mp hmem
      exact List.mem_filter.mpr ⟨h.members key hkey, isSome_signatures.mpr hmem⟩
    have hle := hnodup.length_le_of_subset hsub
    rw [List.length_map] at hle
    rw [List.countP_eq_length_filter]
    exact Nat.le_trans h.enough hle

end MultisigSigner

end AtomicGroup
