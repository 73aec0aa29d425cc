import AtomicGroup.Proofs.LogicSig.Authority
import AtomicGroup.Proofs.Multisig.Merging
import AtomicGroup.Proofs.Multisig.Union

/-!
# Delegation by the members of a multisig account

Members append their signatures of a program one after the other. An appended signature goes to the first slot of its
key, while filling an envelope gives it to every slot of the key. The two come to the same exactly when every key that
signs holds one slot; a key that holds several counts only once in a delegation, which may then never reach the
threshold.
-/
namespace AtomicGroup

open Outcome MultisigSlot

namespace MultisigAccount

variable {a : MultisigAccount} {key : Address}

theorem head?_slotsFrom {keys : List Address} {n i : Nat} :
    (((keys.zipIdx n).filter (·.1 == key)).map (·.2)).head? = some i ↔
      ∃ j, keys[j]? = some key ∧ keys.idxOf key = j ∧ i = n + j := by
  induction keys generalizing n with
  | nil => simp
  | cons k keys ih =>
    rw [List.zipIdx_cons, List.filter_cons]
    by_cases hk : k = key
    · subst hk
      simp [eq_comm]
    · rw [if_neg (by simpa using hk), ih, List.idxOf_cons_ne keys hk]
      constructor
      · rintro ⟨j, hj, hfirst, rfl⟩
        exact ⟨j + 1, hj, congrArg Nat.succ hfirst, by omega⟩
      · rintro ⟨j, hj, rfl, rfl⟩
        exact ⟨_, hj, rfl, by omega⟩

/-- The first slot of a key is its first place among the keys. -/
theorem head?_slotsOf {i : Nat} : (a.slotsOf key).head? = some i ↔ a.keys[i]? = some key ∧ a.keys.idxOf key = i := by
  rw [slotsOf, head?_slotsFrom]
  constructor
  · rintro ⟨j, hj, hfirst, rfl⟩
    rw [Nat.zero_add]
    exact ⟨hj, hfirst⟩
  · rintro ⟨hi, hfirst⟩
    exact ⟨i, hi, hfirst, (Nat.zero_add i).symm⟩

theorem nodup_slotsOf : (a.slotsOf key).Nodup := by
  have hsub : (a.slotsOf key).Sublist (a.keys.zipIdx.map (·.2)) := List.filter_sublist.map _
  rw [List.zipIdx_map_snd] at hsub
  exact hsub.nodup List.nodup_range'

/-- A member holds one slot when its slots are all the first one. -/
theorem length_slotsOf_eq_one_iff (h : key ∈ a.keys) :
    (a.slotsOf key).length = 1 ↔ ∀ i ∈ a.slotsOf key, (a.slotsOf key).head? = some i := by
  obtain ⟨i, hi⟩ := List.mem_iff_getElem?.mp h
  have hmem : i ∈ a.slotsOf key := mem_slotsOf.mpr hi
  have hnodup : (a.slotsOf key).Nodup := nodup_slotsOf
  generalize a.slotsOf key = slots at hmem hnodup ⊢
  constructor
  · intro hlen
    obtain ⟨j, rfl⟩ := List.length_eq_one_iff.mp hlen
    intro k hk
    rw [List.mem_singleton.mp hk]
    rfl
  · intro hfirst
    cases slots with
    | nil => cases hmem
    | cons j slots =>
      have hrest : slots = [] := by
        rw [List.eq_nil_iff_forall_not_mem]
        intro k hk
        obtain rfl : j = k := Option.some.inj (hfirst k (List.mem_cons_of_mem _ hk))
        exact (List.nodup_cons.mp hnodup).1 hk
      rw [hrest]
      rfl

/-- Each of some keys holds one slot. -/
def HoldOnce (a : MultisigAccount) (keys : List KeyPair) : Prop := ∀ key ∈ keys, (a.slotsOf key.address).length = 1

end MultisigAccount

/-- The signature of a message that the last one of some keys gives for an address. -/
def lastSignatures (keys : List KeyPair) (message : Bytes) : Address → Option Signature :=
  signatures keys.reverse message

section lastSignatures

variable {keys : List KeyPair} {message : Bytes} {address : Address}

theorem lastSignatures_append_singleton (keys : List KeyPair) (key : KeyPair) (message : Bytes) :
    lastSignatures (keys ++ [key]) message = fun address =>
      if address = key.address then some (key.sign message) else lastSignatures keys message address := by
  funext address
  have hreverse : (keys ++ [key]).reverse = [key] ++ keys.reverse := by simp
  rw [lastSignatures, hreverse, signatures_append, signatures_singleton]
  by_cases h : address = key.address
  · rw [if_pos h, if_pos h, Option.some_or]
  · rw [if_neg h, if_neg h, Option.none_or]
    rfl

theorem isSome_lastSignatures : (lastSignatures keys message address).isSome ↔ ∃ key ∈ keys, key.address = address := by
  rw [lastSignatures, isSome_signatures]
  simp

theorem attested_lastSignatures (hgood : ∀ key ∈ keys, key.Attests message) {s : Signature}
    (h : s ∈ lastSignatures keys message address) : s.verify address message = .ok () := by
  obtain ⟨key, hkey, rfl, rfl⟩ := exists_of_signatures h
  exact hgood key (List.mem_reverse.mp hkey)

theorem lastSignatures_congr (h : SignAlike keys message) {order : List KeyPair}
    (hmem : ∀ key, key ∈ order ↔ key ∈ keys) : lastSignatures order message = lastSignatures keys message := by
  have halike : SignAlike keys.reverse message := h.mono fun key hkey => List.mem_reverse.mp hkey
  exact signatures_congr halike fun key => by simp [hmem]

end lastSignatures

namespace MultisigEnvelope

/-- The envelope of an account with the signatures that an assignment gives to the keys, each in the first slot of its
key. -/
def filledFirst (a : MultisigAccount) (f : Address → Option Signature) : MultisigEnvelope :=
  ⟨a.keys.mapIdx fun i key => ⟨key, if a.keys.idxOf key = i then f key else none⟩, a.threshold, a.version⟩

/-- The envelope with the signatures of keys, one after the other, each in every slot of its key. -/
def fillAll (e : MultisigEnvelope) (message : Bytes) (keys : List KeyPair) : Except MultisigError MultisigEnvelope :=
  keys.foldlM (fun e key => e.fill key.address (key.sign message)) e

variable {a : MultisigAccount} {f : Address → Option Signature} {keys : List KeyPair} {message : Bytes}

theorem getElem?_filledFirst {i : Nat} : (filledFirst a f).slots[i]? =
    a.keys[i]?.map fun key => ⟨key, if a.keys.idxOf key = i then f key else none⟩ := by
  simp only [filledFirst, List.getElem?_mapIdx]

theorem keys_filledFirst : (filledFirst a f).slots.map (·.key) = a.keys := by
  apply List.ext_getElem?
  intro i
  rw [List.getElem?_map, getElem?_filledFirst, Option.map_map]
  exact Option.map_id'

theorem account_filledFirst (h : a.WellFormed) : (filledFirst a f).account = .ok a := by
  rw [account, keys_filledFirst]
  exact MultisigAccount.make_eq_ok.mpr ⟨rfl, h⟩

theorem sigAt_filledFirst {i : Nat} : sigAt (filledFirst a f).slots i =
    a.keys[i]?.bind fun key => if a.keys.idxOf key = i then f key else none := by
  rw [sigAt, getElem?_filledFirst, Option.bind_map]
  rfl

/-- Slots of the account's keys with the same signatures are the same. -/
theorem eq_slots_filledFirst {slots : List MultisigSlot} (hkeys : slots.map (·.key) = a.keys)
    (hsigs : ∀ i, sigAt slots i = a.keys[i]?.bind fun key => if a.keys.idxOf key = i then f key else none) :
    slots = (filledFirst a f).slots :=
  slots_ext (hkeys.trans keys_filledFirst.symm) fun i => (hsigs i).trans sigAt_filledFirst.symm

/-- Where an assignment is empty at keys of several slots, it does not matter whether the first or all are filled. -/
theorem filled_eq_filledFirst (h : ∀ i key, a.keys[i]? = some key → (f key).isSome → a.keys.idxOf key = i) :
    filled a f = filledFirst a f := by
  have hslots : (filled a f).slots = (filledFirst a f).slots := by
    apply eq_slots_filledFirst
    · simp [filled, Function.comp_def]
    · intro i
      cases hi : a.keys[i]? with
      | none => simp [sigAt, filled, hi]
      | some key =>
        cases hf : f key with
        | none => simp [sigAt, filled, hi, hf]
        | some s => simp [sigAt, filled, hi, hf, h i key hi]
  exact congrArg (MultisigEnvelope.mk · a.threshold a.version) hslots

theorem blank_eq_filledFirst (a : MultisigAccount) : blank a = filledFirst a fun _ => none :=
  (blank_eq_filled a).trans (filled_eq_filledFirst nofun)

/-- Filling gives every slot of a key its last signature, by induction on the keys. -/
theorem fillAll_filled (done : List KeyPair) (h : ∀ key ∈ keys, key.address ∈ a.keys) :
    (filled a (lastSignatures done message)).fillAll message keys =
      .ok (filled a (lastSignatures (done ++ keys) message)) := by
  induction keys generalizing done with
  | nil =>
    rw [List.append_nil]
    rfl
  | cons key keys ih =>
    obtain ⟨hkey, hkeys⟩ := List.forall_mem_cons.mp h
    have hassoc : done ++ key :: keys = (done ++ [key]) ++ keys := by simp
    rw [fillAll, List.foldlM_cons, fill_filled hkey, ok_bind, ← lastSignatures_append_singleton, hassoc]
    exact ih (done ++ [key]) hkeys

section filledSlots

variable {i : Nat}

theorem mem_filledSlots_fillAll : i ∈ (filled a (lastSignatures keys message)).filledSlots ↔
    ∃ key ∈ keys, i ∈ a.slotsOf key.address := by
  rw [mem_filledSlots_filled]
  simp only [isSome_lastSignatures, MultisigAccount.mem_slotsOf]
  constructor
  · rintro ⟨_, hi, key, hkey, rfl⟩
    exact ⟨key, hkey, hi⟩
  · rintro ⟨key, hkey, hi⟩
    exact ⟨_, hi, key, hkey, rfl⟩

theorem mem_filledSlots_filledFirst : i ∈ (filledFirst a (lastSignatures keys message)).filledSlots ↔
    ∃ key ∈ keys, (a.slotsOf key.address).head? = some i := by
  simp only [mem_filledSlots, getElem?_filledFirst, Option.map_eq_some_iff, MultisigAccount.head?_slotsOf]
  constructor
  · rintro ⟨_, ⟨address, hi, rfl⟩, hs⟩
    split at hs
    · obtain ⟨key, hkey, rfl⟩ := isSome_lastSignatures.mp hs
      exact ⟨key, hkey, hi, ‹_›⟩
    · cases hs
  · rintro ⟨key, hkey, hi, hfirst⟩
    refine ⟨_, ⟨_, hi, rfl⟩, ?_⟩
    rw [if_pos hfirst]
    exact isSome_lastSignatures.mpr ⟨key, hkey, rfl⟩

/-- All slots of the keys are first ones exactly when each key holds one. -/
theorem filledSlots_eq_iff (h : ∀ key ∈ keys, key.address ∈ a.keys) :
    (∀ i, i ∈ (filledFirst a (lastSignatures keys message)).filledSlots ↔
      i ∈ (filled a (lastSignatures keys message)).filledSlots) ↔ a.HoldOnce keys := by
  simp only [mem_filledSlots_fillAll, mem_filledSlots_filledFirst]
  constructor
  · intro heq key hkey
    rw [MultisigAccount.length_slotsOf_eq_one_iff (h key hkey)]
    intro i hi
    obtain ⟨k, -, hfirst⟩ := (heq i).mpr ⟨key, hkey, hi⟩
    have hk := (MultisigAccount.head?_slotsOf.mp hfirst).1
    rw [MultisigAccount.mem_slotsOf, hk] at hi
    rw [← Option.some.inj hi]
    exact hfirst
  · intro honce i
    constructor
    · rintro ⟨key, hkey, hfirst⟩
      exact ⟨key, hkey, List.mem_of_mem_head? hfirst⟩
    · rintro ⟨key, hkey, hi⟩
      exact ⟨key, hkey, (MultisigAccount.length_slotsOf_eq_one_iff (h key hkey)).mp (honce key hkey) i hi⟩

end filledSlots

/-- With one slot for each key that signs, the envelope is the one that filling gives. -/
theorem filled_eq_filledFirst_of_holdOnce (h : ∀ key ∈ keys, key.address ∈ a.keys) (honce : a.HoldOnce keys) :
    filled a (lastSignatures keys message) = filledFirst a (lastSignatures keys message) := by
  apply filled_eq_filledFirst
  intro i address hi hs
  obtain ⟨key, hkey, rfl⟩ := isSome_lastSignatures.mp hs
  have hall := (MultisigAccount.length_slotsOf_eq_one_iff (h key hkey)).mp (honce key hkey)
  exact (MultisigAccount.head?_slotsOf.mp (hall i (MultisigAccount.mem_slotsOf.mpr hi))).2

/-- With good signatures in the first slots of the keys, verifying is counting. -/
theorem verify_filledFirst_iff (ha : a.WellFormed) (hgood : ∀ key ∈ keys, key.Attests message) :
    (filledFirst a (lastSignatures keys message)).verify message = .ok () ↔
      a.threshold.toNat ≤ (filledFirst a (lastSignatures keys message)).filledSlots.length := by
  refine verify_iff_of_good (account_filledFirst ha) ?_
  intro slot hslot s hs
  obtain ⟨i, hi⟩ := List.mem_iff_getElem?.mp hslot
  rw [getElem?_filledFirst] at hi
  obtain ⟨address, -, rfl⟩ := Option.map_eq_some_iff.mp hi
  dsimp only at hs
  split at hs
  · exact attested_lastSignatures hgood hs
  · cases hs

end MultisigEnvelope

namespace LogicSigAccount

/-- A signature that is appended for a key with slots goes to the first of them. -/
theorem fillFirst_spec {key : Address} (sig : Signature) {slots : List MultisigSlot} (h : key ∈ slots.map (·.key)) :
    ∃ filled, fillFirst key sig slots = some filled ∧ filled.map (·.key) = slots.map (·.key) ∧
      ∀ i, sigAt filled i = if (slots.map (·.key)).idxOf key = i then some sig else sigAt slots i := by
  induction slots with
  | nil => cases h
  | cons slot slots ih =>
    by_cases hkey : slot.key = key
    · refine ⟨{ slot with sig := some sig } :: slots, by rw [fillFirst, if_pos hkey], rfl, fun i => ?_⟩
      rw [List.map_cons, List.idxOf_cons_eq _ hkey]
      cases i with
      | zero => rfl
      | succ i => rfl
    · have hrest : key ∈ slots.map (·.key) := (List.mem_cons.mp h).resolve_left (Ne.symm hkey)
      obtain ⟨filled, hfilled, hkeys, hsigs⟩ := ih hrest
      refine ⟨slot :: filled, by rw [fillFirst, if_neg hkey, hfilled]; rfl, congrArg (slot.key :: ·) hkeys, fun i => ?_⟩
      rw [List.map_cons, List.idxOf_cons_ne _ hkey]
      cases i with
      | zero => rfl
      | succ i => simpa using hsigs i

variable {a : MultisigAccount} {f : Address → Option Signature}

/-- Appending a member's signature changes the assignment at that member. -/
theorem fillFirst_filledFirst {key : Address} (h : key ∈ a.keys) (sig : Signature) :
    fillFirst key sig (MultisigEnvelope.filledFirst a f).slots =
      some (MultisigEnvelope.filledFirst a fun k => if k = key then some sig else f k).slots := by
  have hmem : key ∈ (MultisigEnvelope.filledFirst a f).slots.map (·.key) := by
    rw [MultisigEnvelope.keys_filledFirst]
    exact h
  obtain ⟨filled, hfilled, hkeys, hsigs⟩ := fillFirst_spec sig hmem
  rw [MultisigEnvelope.keys_filledFirst] at hkeys hsigs
  rw [hfilled, MultisigEnvelope.eq_slots_filledFirst hkeys]
  intro i
  rw [hsigs, MultisigEnvelope.sigAt_filledFirst]
  by_cases hfirst : a.keys.idxOf key = i
  · have hi : a.keys[i]? = some key := hfirst ▸ List.getElem?_idxOf h
    rw [if_pos hfirst, hi, Option.bind_some, if_pos hfirst, if_pos rfl]
  · rw [if_neg hfirst]
    cases hi : a.keys[i]? with
    | none => rfl
    | some k =>
      -- A slot that is the first one of its key is none of this key's.
      have hne : a.keys.idxOf k = i → k ≠ key := fun hk heq => hfirst (heq ▸ hk)
      by_cases hk : a.keys.idxOf k = i
      · rw [Option.bind_some, Option.bind_some, if_pos hk, if_pos hk, if_neg (hne hk)]
      · rw [Option.bind_some, Option.bind_some, if_neg hk, if_neg hk]

/-- A program to which an account delegates, with the signatures that an assignment gives to the keys. -/
def delegation (a : MultisigAccount) (program : Bytes) (args : List Bytes) (f : Address → Option Signature) :
    LogicSigAccount :=
  ⟨{ args, program, msig := some (.filledFirst a f) }, none⟩

def appendAll (d : LogicSigAccount) (keys : List KeyPair) : Except LogicSigError LogicSigAccount :=
  keys.foldlM appendSign d

def delegateBy (a : MultisigAccount) (program : Bytes) (args : List Bytes) (keys : List KeyPair) :
    Except LogicSigError LogicSigAccount := do
  (← delegateMultisig program args a).appendAll keys

variable {program : Bytes} {args : List Bytes} {keys : List KeyPair}

theorem delegateMultisig_eq_ok (hp : Program.check program = .ok ()) :
    delegateMultisig program args a = .ok (delegation a program args fun _ => none) := by
  rw [delegateMultisig, hp, MultisigEnvelope.blank_eq_filledFirst]
  rfl

theorem appendSign_delegation {key : KeyPair} (h : key.address ∈ a.keys) :
    (delegation a program args f).appendSign key = .ok (delegation a program args fun k =>
      if k = key.address then some (key.sign (Program.bytesToSign program)) else f k) := by
  have hfill := fillFirst_filledFirst (f := f) h (key.sign (Program.bytesToSign program))
  simp only [appendSign, appendAttach, delegation, Signature.ofBytes_bytes, Except.mapError, ok_bind, hfill]
  rfl

/-- Appending leaves the first slot of every key with its last signature, by induction on the keys. -/
theorem appendAll_delegation (done : List KeyPair) (h : ∀ key ∈ keys, key.address ∈ a.keys) :
    (delegation a program args (lastSignatures done (Program.bytesToSign program))).appendAll keys =
      .ok (delegation a program args (lastSignatures (done ++ keys) (Program.bytesToSign program))) := by
  induction keys generalizing done with
  | nil =>
    rw [List.append_nil]
    rfl
  | cons key keys ih =>
    obtain ⟨hkey, hkeys⟩ := List.forall_mem_cons.mp h
    have hassoc : done ++ key :: keys = (done ++ [key]) ++ keys := by simp
    rw [appendAll, List.foldlM_cons, appendSign_delegation hkey, ok_bind, ← lastSignatures_append_singleton, hassoc]
    exact ih (done ++ [key]) hkeys

theorem delegateBy_eq_ok (args : List Bytes) (hp : Program.check program = .ok ())
    (h : ∀ key ∈ keys, key.address ∈ a.keys) :
    delegateBy a program args keys =
      .ok (delegation a program args (lastSignatures keys (Program.bytesToSign program))) := by
  rw [delegateBy, delegateMultisig_eq_ok hp]
  exact appendAll_delegation [] h

/-- A delegated program signs exactly when its envelope verifies. -/
theorem exists_signTransaction_delegation (ha : a.WellFormed) (hp : Program.check program = .ok ()) {t : Transaction} :
    (∃ s, (delegation a program args f).signTransaction t = .ok s) ↔
      (MultisigEnvelope.filledFirst a f).verify (Program.bytesToSign program) = .ok () := by
  have haccount := MultisigEnvelope.account_filledFirst (f := f) ha
  have haddress : (delegation a program args f).address = .ok a.address := by
    simp only [address, delegation, map_eq_ok, mapError_eq_ok]
    exact ⟨a, haccount, rfl⟩
  rw [exists_signTransaction]
  constructor
  · rintro ⟨address, -, hverify⟩
    obtain ⟨-, account, -, -, hvalid⟩ := (LogicSig.verify_of_members rfl rfl).mp hverify
    exact hvalid
  · intro hvalid
    exact ⟨_, haddress, (LogicSig.verify_of_members rfl rfl).mpr ⟨hp, a, haccount, rfl, hvalid⟩⟩

end LogicSigAccount

/-- What the members of an account make of a program when each of some keys appends its signature, beside the envelope
`f` that filling gives: the first slot of each key is filled, instead of every slot of it. -/
structure DelegatedBy (a : MultisigAccount) (program : Bytes) (args : List Bytes) (keys : List KeyPair)
    (e f : MultisigEnvelope) : Prop where
  delegate : LogicSigAccount.delegateBy a program args keys = .ok ⟨{ args, program, msig := some e }, none⟩
  filled : ∀ i, i ∈ e.filledSlots ↔ ∃ key ∈ keys, (a.slotsOf key.address).head? = some i
  in_any_order : SignAlike keys (Program.bytesToSign program) → ∀ order : List KeyPair,
    (∀ key, key ∈ order ↔ key ∈ keys) →
    LogicSigAccount.delegateBy a program args order = LogicSigAccount.delegateBy a program args keys
  signs : ∀ t, (∃ s, (LogicSigAccount.mk { args, program, msig := some e } none).signTransaction t = .ok s) ↔
    a.threshold.toNat ≤ e.filledSlots.length
  fill : (MultisigEnvelope.blank a).fillAll (Program.bytesToSign program) keys = .ok f
  filled_by_fill : ∀ i, i ∈ f.filledSlots ↔ ∃ key ∈ keys, i ∈ a.slotsOf key.address
  agrees : (∀ i, i ∈ e.filledSlots ↔ i ∈ f.filledSlots) ↔ a.HoldOnce keys
  same : a.HoldOnce keys → e = f

section DelegatedBy

variable {a : MultisigAccount} {program : Bytes} {args : List Bytes} {keys : List KeyPair}

/-- Appended signatures go to the first slots of their keys, in any order, and the delegation signs once these are
enough. It agrees with filling exactly when each key that signs holds one slot. -/
theorem delegation_fills_first_slots {version threshold : UInt8} {members : List Address}
    (ha : MultisigAccount.make version threshold members = .ok a) (hp : Program.check program = .ok ())
    (hmem : ∀ key ∈ keys, key.address ∈ a.keys) (hgood : ∀ key ∈ keys, key.Attests (Program.bytesToSign program)) :
    ∃ e f, DelegatedBy a program args keys e f := by
  have hwf : a.WellFormed := (MultisigAccount.make_eq_ok.mp ha).2
  have hdelegate := LogicSigAccount.delegateBy_eq_ok args hp hmem
  refine ⟨_, _, hdelegate, fun i => MultisigEnvelope.mem_filledSlots_filledFirst, ?_, ?_, ?_,
    fun i => MultisigEnvelope.mem_filledSlots_fillAll, MultisigEnvelope.filledSlots_eq_iff hmem, ?_⟩
  · intro halike order horder
    rw [hdelegate, LogicSigAccount.delegateBy_eq_ok args hp fun key hkey => hmem key ((horder key).mp hkey),
      lastSignatures_congr halike horder]
  · intro t
    rw [← MultisigEnvelope.verify_filledFirst_iff hwf hgood]
    exact LogicSigAccount.exists_signTransaction_delegation hwf hp
  · rw [MultisigEnvelope.blank_eq_filled]
    exact MultisigEnvelope.fillAll_filled [] hmem
  · intro honce
    exact (MultisigEnvelope.filled_eq_filledFirst_of_holdOnce hmem honce).symm

theorem heldTwice_delegates : MultisigAccount.make 1 3 heldTwice.keys = .ok heldTwice ∧
    ∃ e f, DelegatedBy heldTwice LogicSigAccount.always [] [secondHolder] e f ∧ e = f := by
  have hmake : MultisigAccount.make 1 3 heldTwice.keys = .ok heldTwice :=
    MultisigAccount.make_eq_ok.mpr ⟨rfl, rfl, by decide, by decide, by decide⟩
  have hmem : ∀ key ∈ [secondHolder], key.address ∈ heldTwice.keys := by
    simp [heldTwice]
  have hattests : secondHolder.Attests (Program.bytesToSign LogicSigAccount.always) :=
    KeyPair.attests_of_isOk (by decide +kernel)
  have hgood : ∀ key ∈ [secondHolder], key.Attests (Program.bytesToSign LogicSigAccount.always) := by
    simp [hattests]
  have honce : heldTwice.HoldOnce [secondHolder] := by
    have hslots : (heldTwice.slotsOf secondHolder.address).length = 1 := by decide +kernel
    simp [MultisigAccount.HoldOnce, hslots]
  obtain ⟨e, f, h⟩ := delegation_fills_first_slots hmake rfl hmem hgood
  exact ⟨hmake, e, f, h, h.same honce⟩

def heldAlone : MultisigAccount := ⟨1, 2, [firstHolder.address, firstHolder.address]⟩

/-- The one key of an account fills one of its two slots, and the program never signs. -/
theorem heldAlone_falls_short : MultisigAccount.make 1 2 heldAlone.keys = .ok heldAlone ∧
    firstHolder.Attests (Program.bytesToSign LogicSigAccount.always) ∧
    ∃ e, LogicSigAccount.delegateBy heldAlone LogicSigAccount.always [] [firstHolder] =
        .ok ⟨{ program := LogicSigAccount.always, msig := some e }, none⟩ ∧
      e.filledSlots = [0] ∧ heldAlone.slotsOf firstHolder.address = [0, 1] ∧
      ∀ t s, (LogicSigAccount.mk { program := LogicSigAccount.always, msig := some e } none).signTransaction t ≠
        .ok s := by
  have hmake : MultisigAccount.make 1 2 heldAlone.keys = .ok heldAlone :=
    MultisigAccount.make_eq_ok.mpr ⟨rfl, rfl, by decide, by decide, by decide⟩
  have hwf := (MultisigAccount.make_eq_ok.mp hmake).2
  have hmem : ∀ key ∈ [firstHolder], key.address ∈ heldAlone.keys := by
    simp [heldAlone]
  have hattests : firstHolder.Attests (Program.bytesToSign LogicSigAccount.always) :=
    KeyPair.attests_of_isOk (by decide +kernel)
  have hfilled : (MultisigEnvelope.filledFirst heldAlone
      (lastSignatures [firstHolder] (Program.bytesToSign LogicSigAccount.always))).filledSlots = [0] := by
    simp [MultisigEnvelope.filledSlots, MultisigEnvelope.filledFirst, heldAlone, lastSignatures, signatures]
  have hslots : heldAlone.slotsOf firstHolder.address = [0, 1] := by
    simp [MultisigAccount.slotsOf, heldAlone]
  refine ⟨hmake, hattests, _, LogicSigAccount.delegateBy_eq_ok [] rfl hmem, hfilled, hslots, fun t s hs => ?_⟩
  have hverify := (LogicSigAccount.exists_signTransaction_delegation hwf rfl).mp ⟨s, hs⟩
  rw [MultisigEnvelope.verify_filledFirst_iff hwf (by simp [hattests]), hfilled] at hverify
  exact absurd hverify (by decide)

end DelegatedBy

end AtomicGroup
