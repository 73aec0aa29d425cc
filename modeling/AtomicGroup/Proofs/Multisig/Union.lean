import AtomicGroup.Proofs.Multisig.Contributions

/-!
# Merging as a partial union

What merging reads of an envelope is the account it names and the signature, if any, in each of its slots. Parts of any
origin are merged exactly when they name one account that makes sense, are about one transaction and one signer, and
agree on every slot that several of them fill. What comes out is their union, which is determined by the set of the
parts, so that order, repetitions and brackets do not matter.
-/
namespace AtomicGroup

open Outcome

/-- Two slots are not filled with different signatures. -/
def Agree (x y : Option Signature) : Prop := ∀ s ∈ x, ∀ s' ∈ y, s = s'

theorem Agree.or_eq_some_iff {x y : Option Signature} (h : Agree x y) {s : Signature} :
    x.or y = some s ↔ x = some s ∨ y = some s := by
  cases x with
  | none => simp
  | some s' =>
    constructor
    · intro hs
      exact .inl hs
    · rintro (hs | hs)
      · exact hs
      · rw [h s' rfl s hs, Option.some_or]

namespace MultisigSlot

def sigAt (slots : List MultisigSlot) (i : Nat) : Option Signature := slots[i]?.bind (·.sig)

@[simp] theorem sigAt_cons_zero (slot : MultisigSlot) (slots : List MultisigSlot) :
    sigAt (slot :: slots) 0 = slot.sig := rfl

@[simp] theorem sigAt_cons_succ (slot : MultisigSlot) (slots : List MultisigSlot) (i : Nat) :
    sigAt (slot :: slots) (i + 1) = sigAt slots i := rfl

/-- Slots are known by their keys and signatures. -/
theorem slots_ext {as bs : List MultisigSlot} (hkeys : as.map (·.key) = bs.map (·.key))
    (hsigs : ∀ i, sigAt as i = sigAt bs i) : as = bs := by
  induction as generalizing bs with
  | nil => exact (List.map_eq_nil_iff.mp hkeys.symm).symm
  | cons a as ih =>
    cases bs with
    | nil => cases hkeys
    | cons b bs =>
      obtain ⟨hkey, hrest⟩ := List.cons.inj hkeys
      have hslot : a = b := by
        cases a
        cases b
        exact congrArg₂ MultisigSlot.mk hkey (hsigs 0)
      rw [hslot, ih hrest fun i => hsigs (i + 1)]

def unite (a b : MultisigSlot) : MultisigSlot := ⟨a.key, a.sig.or b.sig⟩

theorem merge_eq_ok {a b c : MultisigSlot} : a.merge b = .ok c ↔ Agree a.sig b.sig ∧ a.unite b = c := by
  obtain ⟨key, ours⟩ := a
  obtain ⟨key', theirs⟩ := b
  cases ours with
  | none => simp [merge, Agree, unite]
  | some s =>
    cases theirs with
    | none => simp [merge, Agree, unite]
    | some s' => by_cases h : s = s' <;> simp [merge, Agree, unite, h]

section unite

variable {as bs : List MultisigSlot} (hlen : as.length = bs.length)
include hlen

theorem sigAt_zipWith_unite (i : Nat) : sigAt (List.zipWith unite as bs) i = (sigAt as i).or (sigAt bs i) := by
  induction as generalizing bs i with
  | nil =>
    obtain rfl := List.length_eq_zero_iff.mp hlen.symm
    rfl
  | cons a as ih =>
    cases bs with
    | nil => cases hlen
    | cons b bs =>
      cases i with
      | zero => rfl
      | succ i => exact ih (Nat.succ.inj hlen) i

theorem keys_zipWith_unite : (List.zipWith unite as bs).map (·.key) = as.map (·.key) := by
  induction as generalizing bs with
  | nil => rfl
  | cons a as ih =>
    cases bs with
    | nil => cases hlen
    | cons b bs => exact congrArg (a.key :: ·) (ih (Nat.succ.inj hlen))

end unite

end MultisigSlot

namespace MultisigEnvelope

open MultisigSlot

variable {e f g : MultisigEnvelope} {as bs cs : List MultisigSlot}

/-- Slots of the same number are united unless two at one position disagree. -/
theorem mergeSlots_eq_ok (hlen : as.length = bs.length) :
    mergeSlots as bs = .ok cs ↔ (∀ i, Agree (sigAt as i) (sigAt bs i)) ∧ List.zipWith unite as bs = cs := by
  induction as generalizing bs cs with
  | nil =>
    obtain rfl := List.length_eq_zero_iff.mp hlen.symm
    simp [mergeSlots, sigAt, Agree]
  | cons a as ih =>
    cases bs with
    | nil => cases hlen
    | cons b bs =>
      simp only [mergeSlots, bind_eq_ok, pure_eq_ok, merge_eq_ok, ih (Nat.succ.inj hlen), List.zipWith_cons_cons,
        ← Nat.and_forall_add_one (p := fun i => Agree (sigAt (a :: as) i) (sigAt (b :: bs) i)), sigAt_cons_zero,
        sigAt_cons_succ]
      constructor
      · rintro ⟨slot, ⟨hagree, rfl⟩, slots, ⟨hall, rfl⟩, rfl⟩
        exact ⟨⟨hagree, hall⟩, rfl⟩
      · rintro ⟨⟨hagree, hall⟩, rfl⟩
        exact ⟨_, ⟨hagree, rfl⟩, _, ⟨hall, rfl⟩, rfl⟩

/-- The account whose parameters an envelope carries, whether they make sense or not. -/
def named (e : MultisigEnvelope) : MultisigAccount := ⟨e.version, e.threshold, e.slots.map (·.key)⟩

theorem account_eq_ok {a : MultisigAccount} : e.account = .ok a ↔ e.named = a ∧ a.WellFormed := by
  rw [account, MultisigAccount.make_eq_ok, eq_comm]
  rfl

theorem length_of_named (h : f.named = e.named) : e.slots.length = f.slots.length := by
  have hkeys : f.slots.map (·.key) = e.slots.map (·.key) := congrArg MultisigAccount.keys h
  simpa using (congrArg List.length hkeys).symm

theorem ext_of_named (hnamed : e.named = f.named) (hsigs : ∀ i, sigAt e.slots i = sigAt f.slots i) : e = f := by
  obtain ⟨hversion, hthreshold, hkeys⟩ := MultisigAccount.mk.inj hnamed
  have hslots : e.slots = f.slots := slots_ext hkeys hsigs
  cases e
  cases f
  exact congr (congrArg₂ mk hslots hthreshold) hversion

theorem merge_eq_ok :
    e.merge f = .ok g ↔ e.named.WellFormed ∧ f.named = e.named ∧
      (∀ i, Agree (sigAt e.slots i) (sigAt f.slots i)) ∧
      { e with slots := List.zipWith unite e.slots f.slots } = g := by
  constructor
  · intro h
    obtain ⟨a, ha, h⟩ := bind_eq_ok.mp h
    obtain ⟨b, hb, h⟩ := bind_eq_ok.mp h
    obtain ⟨rfl, hwf⟩ := account_eq_ok.mp ha
    obtain ⟨rfl, -⟩ := account_eq_ok.mp hb
    by_cases hnamed : e.named = f.named
    · rw [if_neg (not_not.mpr hnamed)] at h
      obtain ⟨slots, hslots, h⟩ := bind_eq_ok.mp h
      obtain ⟨hagree, rfl⟩ := (mergeSlots_eq_ok (length_of_named hnamed.symm)).mp hslots
      exact ⟨hwf, hnamed.symm, hagree, pure_eq_ok.mp h⟩
    · rw [if_pos hnamed] at h
      cases h
  · rintro ⟨hwf, hnamed, hagree, rfl⟩
    have hslots := (mergeSlots_eq_ok (length_of_named hnamed)).mpr ⟨hagree, rfl⟩
    simp only [merge, account_eq_ok.mpr ⟨rfl, hwf⟩, account_eq_ok.mpr ⟨hnamed, hwf⟩, ok_bind, ne_eq, not_true_eq_false,
      if_false, hslots]
    rfl

/-- A merged envelope names the same account and has the signatures of both. -/
theorem union_of_merge (h : e.merge f = .ok g) :
    g.named = e.named ∧ ∀ i s, sigAt g.slots i = some s ↔ sigAt e.slots i = some s ∨ sigAt f.slots i = some s := by
  obtain ⟨-, hnamed, hagree, rfl⟩ := merge_eq_ok.mp h
  have hlen := length_of_named hnamed
  constructor
  · rw [named, keys_zipWith_unite hlen]
    rfl
  · intro i s
    rw [sigAt_zipWith_unite hlen, (hagree i).or_eq_some_iff]

theorem merge_self (h : e.named.WellFormed) : e.merge e = .ok e := by
  refine merge_eq_ok.mpr ⟨h, rfl, fun i s hs s' hs' => Option.some.inj (hs.symm.trans hs'), ?_⟩
  apply ext_of_named
  · rw [named, keys_zipWith_unite rfl]
    rfl
  · intro i
    rw [sigAt_zipWith_unite rfl, Option.or_self]

end MultisigEnvelope

namespace SignedTxn

variable {parts qs : List SignedTxn} {p q r : SignedTxn}

/-- A transaction under an envelope and under no other authorisation. -/
structure IsPart (p : SignedTxn) : Prop where
  msig : p.msig.isSome
  sig : p.sig = none
  lsig : p.lsig = none

def named (p : SignedTxn) : Option MultisigAccount := p.msig.map (·.named)

def sigAt (p : SignedTxn) (i : Nat) : Option Signature := p.msig.bind fun e => MultisigSlot.sigAt e.slots i

/-- What parts have in common when they can be merged: they name one account that makes sense, one signer and one
transaction, and no slot is filled with different signatures in two of them. -/
structure Mergeable (parts : List SignedTxn) : Prop where
  account : ∃ a : MultisigAccount, a.WellFormed ∧ ∀ p ∈ parts, p.named = some a
  signer : ∀ p ∈ parts, ∀ q ∈ parts, p.signer = q.signer
  txn : ∀ p ∈ parts, ∀ q ∈ parts, p.txn = q.txn
  agree : ∀ p ∈ parts, ∀ q ∈ parts, ∀ i, ∀ s ∈ p.sigAt i, ∀ s' ∈ q.sigAt i, s = s'

/-- A part with all the signatures of some parts, each in its slot, and no other. -/
structure IsUnion (parts : List SignedTxn) (r : SignedTxn) : Prop where
  isPart : r.IsPart
  named_eq : ∀ p ∈ parts, p.named = r.named
  signer_eq : ∀ p ∈ parts, p.signer = r.signer
  txn_eq : ∀ p ∈ parts, p.txn = r.txn
  sigAt_iff : ∀ i s, r.sigAt i = some s ↔ ∃ p ∈ parts, p.sigAt i = some s

theorem Mergeable.mono (h : Mergeable parts) (hsub : ∀ p ∈ qs, p ∈ parts) : Mergeable qs := by
  obtain ⟨⟨a, ha, hnamed⟩, hsigner, htxn, hagree⟩ := h
  exact ⟨⟨a, ha, fun p hp => hnamed p (hsub p hp)⟩, fun p hp q hq => hsigner p (hsub p hp) q (hsub q hq),
    fun p hp q hq => htxn p (hsub p hp) q (hsub q hq), fun p hp q hq => hagree p (hsub p hp) q (hsub q hq)⟩

theorem IsUnion.congr (h : IsUnion parts r) (hmem : ∀ p, p ∈ qs ↔ p ∈ parts) : IsUnion qs r := by
  refine ⟨h.isPart, fun p hp => h.named_eq p ((hmem p).mp hp), fun p hp => h.signer_eq p ((hmem p).mp hp),
    fun p hp => h.txn_eq p ((hmem p).mp hp), fun i s => ?_⟩
  simp only [h.sigAt_iff, hmem]

theorem IsPart.isUnion (h : p.IsPart) : IsUnion [p] p := by
  refine ⟨h, ?_, ?_, ?_, fun i s => ?_⟩ <;> simp

/-- Parts are known by the account, the signer and the transaction they name and by their signatures. -/
theorem IsPart.ext (hp : p.IsPart) (hq : q.IsPart) (hnamed : p.named = q.named) (hsigner : p.signer = q.signer)
    (htxn : p.txn = q.txn) (hsigs : ∀ i, p.sigAt i = q.sigAt i) : p = q := by
  obtain ⟨e, he⟩ := Option.isSome_iff_exists.mp hp.msig
  obtain ⟨f, hf⟩ := Option.isSome_iff_exists.mp hq.msig
  have hef : e = f := by
    apply MultisigEnvelope.ext_of_named
    · simpa [named, he, hf] using hnamed
    · simpa [sigAt, he, hf] using hsigs
  have hmsig : p.msig = q.msig := by rw [he, hf, hef]
  have hlsig : p.lsig = q.lsig := hp.lsig.trans hq.lsig.symm
  have hsig : p.sig = q.sig := hp.sig.trans hq.sig.symm
  cases p
  cases q
  simp only [mk.injEq]
  exact ⟨hlsig, hmsig, hsigner, hsig, htxn⟩

/-- Parts have one union at most. -/
theorem IsUnion.unique (hne : parts ≠ []) (hq : IsUnion parts q) (hr : IsUnion parts r) : q = r := by
  obtain ⟨p, hp⟩ := List.exists_mem_of_ne_nil parts hne
  apply hq.isPart.ext hr.isPart
  · exact (hq.named_eq p hp).symm.trans (hr.named_eq p hp)
  · exact (hq.signer_eq p hp).symm.trans (hr.signer_eq p hp)
  · exact (hq.txn_eq p hp).symm.trans (hr.txn_eq p hp)
  · intro i
    apply Option.ext
    intro s
    rw [hq.sigAt_iff, hr.sigAt_iff]

/-- No slot is filled with different signatures in two parts that have a union. -/
theorem IsUnion.agree (h : IsUnion parts r) :
    ∀ p ∈ parts, ∀ q ∈ parts, ∀ i, ∀ s ∈ p.sigAt i, ∀ s' ∈ q.sigAt i, s = s' := by
  intro p hp q hq i s hs s' hs'
  have hr : r.sigAt i = some s := (h.sigAt_iff i s).mpr ⟨p, hp, hs⟩
  have hr' : r.sigAt i = some s' := (h.sigAt_iff i s').mpr ⟨q, hq, hs'⟩
  exact Option.some.inj (hr.symm.trans hr')

theorem mergeMultisig_eq_ok :
    p.mergeMultisig q = .ok r ↔ ∃ e f g, p.msig = some e ∧ q.msig = some f ∧ e.merge f = .ok g ∧
      p.signer = q.signer ∧ p.txn = q.txn ∧ { p with msig := some g } = r := by
  constructor
  · intro h
    unfold mergeMultisig at h
    split at h
    · rename_i e f he hf
      obtain ⟨g, hg, h⟩ := bind_eq_ok.mp h
      by_cases hsigner : p.signer = q.signer
      · rw [if_neg (not_not.mpr hsigner)] at h
        by_cases htxn : p.txn = q.txn
        · rw [if_neg (not_not.mpr htxn)] at h
          exact ⟨e, f, g, he, hf, hg, hsigner, htxn, pure_eq_ok.mp h⟩
        · rw [if_pos htxn] at h
          cases h
      · rw [if_pos hsigner] at h
        cases h
    · cases h
  · rintro ⟨e, f, g, he, hf, hg, hsigner, htxn, rfl⟩
    simp only [mergeMultisig, he, hf, hg, ok_bind, hsigner, htxn, ne_eq, not_true_eq_false, if_false]
    rfl

theorem mergeMultisig_self {a : MultisigAccount} (hnamed : p.named = some a) (ha : a.WellFormed) :
    p.mergeMultisig p = .ok p := by
  obtain ⟨e, he, rfl⟩ := Option.map_eq_some_iff.mp hnamed
  refine mergeMultisig_eq_ok.mpr ⟨e, e, e, he, he, MultisigEnvelope.merge_self ha, rfl, rfl, ?_⟩
  rw [← he]

section merge

variable {ps qs : List SignedTxn} (hp : IsUnion ps p) (hq : IsUnion qs q)
include hp hq

/-- Merging unions gives the union of all their parts, which can be merged then. -/
theorem IsUnion.merge (h : p.mergeMultisig q = .ok r) : Mergeable (ps ++ qs) ∧ IsUnion (ps ++ qs) r := by
  obtain ⟨e, f, g, he, hf, hg, hsigner, htxn, rfl⟩ := mergeMultisig_eq_ok.mp h
  obtain ⟨hwf, hef, -, -⟩ := MultisigEnvelope.merge_eq_ok.mp hg
  obtain ⟨hge, hsigs⟩ := MultisigEnvelope.union_of_merge hg
  have hpnamed : p.named = some e.named := by rw [named, he, Option.map_some]
  have hqnamed : q.named = some e.named := by rw [named, hf, Option.map_some, hef]
  have hnamed : ∀ x ∈ ps ++ qs, x.named = some e.named := List.forall_mem_append.mpr
    ⟨fun x hx => (hp.named_eq x hx).trans hpnamed, fun x hx => (hq.named_eq x hx).trans hqnamed⟩
  have hsigners : ∀ x ∈ ps ++ qs, x.signer = p.signer :=
    List.forall_mem_append.mpr ⟨hp.signer_eq, fun x hx => (hq.signer_eq x hx).trans hsigner.symm⟩
  have htxns : ∀ x ∈ ps ++ qs, x.txn = p.txn :=
    List.forall_mem_append.mpr ⟨hp.txn_eq, fun x hx => (hq.txn_eq x hx).trans htxn.symm⟩
  have hunion : IsUnion (ps ++ qs) { p with msig := some g } := by
    refine ⟨⟨rfl, hp.isPart.sig, hp.isPart.lsig⟩, fun x hx => ?_, hsigners, htxns, fun i s => ?_⟩
    · exact (hnamed x hx).trans (congrArg some hge.symm)
    · have hpq : sigAt { p with msig := some g } i = some s ↔ p.sigAt i = some s ∨ q.sigAt i = some s := by
        simp only [sigAt, he, hf, Option.bind_some, hsigs]
      rw [hpq, hp.sigAt_iff, hq.sigAt_iff]
      simp only [List.mem_append, or_and_right, exists_or]
  have hmergeable : Mergeable (ps ++ qs) := ⟨⟨e.named, hwf, hnamed⟩,
    fun x hx y hy => (hsigners x hx).trans (hsigners y hy).symm,
    fun x hx y hy => (htxns x hx).trans (htxns y hy).symm, hunion.agree⟩
  exact ⟨hmergeable, hunion⟩

/-- Unions of parts that can be merged can be merged. -/
theorem IsUnion.exists_merge (hps : ps ≠ []) (hqs : qs ≠ []) (h : Mergeable (ps ++ qs)) :
    ∃ r, p.mergeMultisig q = .ok r := by
  obtain ⟨x, hx⟩ := List.exists_mem_of_ne_nil ps hps
  obtain ⟨y, hy⟩ := List.exists_mem_of_ne_nil qs hqs
  have hleft : ∀ z ∈ ps, z ∈ ps ++ qs := fun z hz => List.mem_append_left _ hz
  have hright : ∀ z ∈ qs, z ∈ ps ++ qs := fun z hz => List.mem_append_right _ hz
  obtain ⟨e, he⟩ := Option.isSome_iff_exists.mp hp.isPart.msig
  obtain ⟨f, hf⟩ := Option.isSome_iff_exists.mp hq.isPart.msig
  obtain ⟨a, ha, hnamed⟩ := h.account
  have hea : e.named = a := by
    have hpa : p.named = some a := (hp.named_eq x hx).symm.trans (hnamed x (hleft x hx))
    simpa [named, he] using hpa
  have hfa : f.named = a := by
    have hqa : q.named = some a := (hq.named_eq y hy).symm.trans (hnamed y (hright y hy))
    simpa [named, hf] using hqa
  have hagree : ∀ i, Agree (MultisigSlot.sigAt e.slots i) (MultisigSlot.sigAt f.slots i) := by
    intro i s hs s' hs'
    obtain ⟨z, hz, hzs⟩ := (hp.sigAt_iff i s).mp (by simpa [sigAt, he] using hs)
    obtain ⟨w, hw, hws⟩ := (hq.sigAt_iff i s').mp (by simpa [sigAt, hf] using hs')
    exact h.agree z (hleft z hz) w (hright w hw) i s hzs s' hws
  have hsigner : p.signer = q.signer := by
    rw [← hp.signer_eq x hx, ← hq.signer_eq y hy, h.signer x (hleft x hx) y (hright y hy)]
  have htxn : p.txn = q.txn := by
    rw [← hp.txn_eq x hx, ← hq.txn_eq y hy, h.txn x (hleft x hx) y (hright y hy)]
  have hmerge := MultisigEnvelope.merge_eq_ok.mpr ⟨hea ▸ ha, hfa.trans hea.symm, hagree, rfl⟩
  exact ⟨_, mergeMultisig_eq_ok.mpr ⟨e, f, _, he, hf, hmerge, hsigner, htxn, rfl⟩⟩

end merge

end SignedTxn

inductive MergeOrder where
  | part (p : SignedTxn)
  | merge (left right : MergeOrder)
deriving Repr

namespace MergeOrder

open SignedTxn

variable {order : MergeOrder} {r : SignedTxn}

def parts : MergeOrder → List SignedTxn
  | .part p => [p]
  | .merge left right => left.parts ++ right.parts

def run : MergeOrder → Except MultisigError SignedTxn
  | .part p => .ok p
  | .merge left right => do
    let ours ← left.run
    let theirs ← right.run
    ours.mergeMultisig theirs

theorem parts_ne_nil (order : MergeOrder) : order.parts ≠ [] := by
  induction order with
  | part p => exact List.cons_ne_nil _ _
  | merge left right ihl _ => exact List.append_ne_nil_of_left_ne_nil ihl _

/-- Merges that succeed give the union of the parts; a merge at least shows that these can be merged. -/
theorem isUnion_of_run (hparts : ∀ p ∈ order.parts, p.IsPart) (h : order.run = .ok r) :
    IsUnion order.parts r ∧ (2 ≤ order.parts.length → Mergeable order.parts) := by
  induction order generalizing r with
  | part p =>
    obtain rfl := Except.ok.inj h
    exact ⟨(hparts p List.mem_cons_self).isUnion, fun htwo => absurd htwo (by simp [parts])⟩
  | merge left right ihl ihr =>
    obtain ⟨hleft, hright⟩ := List.forall_mem_append.mp hparts
    simp only [run, bind_eq_ok] at h
    obtain ⟨p, hp, q, hq, h⟩ := h
    obtain ⟨hmergeable, hunion⟩ := (ihl hleft hp).1.merge (ihr hright hq).1 h
    exact ⟨hunion, fun _ => hmergeable⟩

theorem exists_run (hparts : ∀ p ∈ order.parts, p.IsPart) (h : Mergeable order.parts) : ∃ r, order.run = .ok r := by
  induction order with
  | part p => exact ⟨p, rfl⟩
  | merge left right ihl ihr =>
    obtain ⟨hleft, hright⟩ := List.forall_mem_append.mp hparts
    obtain ⟨p, hp⟩ := ihl hleft (h.mono fun x hx => List.mem_append_left _ hx)
    obtain ⟨q, hq⟩ := ihr hright (h.mono fun x hx => List.mem_append_right _ hx)
    simp only [run, hp, hq, ok_bind]
    exact (isUnion_of_run hleft hp).1.exists_merge (isUnion_of_run hright hq).1 left.parts_ne_nil right.parts_ne_nil h

/-- Merges of two parts at least are decided by the set of the parts. -/
theorem run_eq_ok (hparts : ∀ p ∈ order.parts, p.IsPart) (htwo : 2 ≤ order.parts.length) :
    order.run = .ok r ↔ Mergeable order.parts ∧ IsUnion order.parts r := by
  constructor
  · intro h
    obtain ⟨hunion, hmergeable⟩ := isUnion_of_run hparts h
    exact ⟨hmergeable htwo, hunion⟩
  · rintro ⟨hmergeable, hunion⟩
    obtain ⟨r', hr'⟩ := exists_run hparts hmergeable
    rw [hr', (isUnion_of_run hparts hr').1.unique order.parts_ne_nil hunion]

/-- More parts, merged one after the other. -/
def extend (order : MergeOrder) (rest : List SignedTxn) : MergeOrder :=
  rest.foldl (fun order p => .merge order (.part p)) order

theorem parts_extend (rest : List SignedTxn) : (order.extend rest).parts = order.parts ++ rest := by
  induction rest generalizing order with
  | nil => exact (List.append_nil _).symm
  | cons p rest ih =>
    rw [extend, List.foldl_cons, ← extend, ih, parts, parts, List.append_assoc]
    rfl

theorem run_extend (rest : List SignedTxn) :
    (order.extend rest).run = order.run >>= fun p => rest.foldlM mergeMultisig p := by
  induction rest generalizing order with
  | nil => exact (bind_pure order.run).symm
  | cons p rest ih =>
    rw [extend, List.foldl_cons, ← extend, ih]
    cases h : order.run <;> simp [run, h, bind, Except.bind]

end MergeOrder

namespace SignedTxn

variable {parts : List SignedTxn}

/-- Merging a list is merging its parts one after the other. -/
theorem exists_order (hparts : ∀ p ∈ parts, p.IsPart) (hne : parts ≠ []) :
    ∃ order : MergeOrder, order.parts = parts ∧ order.run = mergeAll parts := by
  cases parts with
  | nil => exact absurd rfl hne
  | cons first rest =>
    have hfirst : ¬first.msig.isNone := by
      rw [Option.isNone_iff_eq_none, ← ne_eq, Option.ne_none_iff_isSome]
      exact (hparts first List.mem_cons_self).msig
    refine ⟨(MergeOrder.part first).extend rest, MergeOrder.parts_extend rest, ?_⟩
    rw [MergeOrder.run_extend, mergeAll, if_neg hfirst, MergeOrder.run, ok_bind]

theorem mergeAll_eq_ok {r : SignedTxn} (hparts : ∀ p ∈ parts, p.IsPart) (htwo : 2 ≤ parts.length) :
    mergeAll parts = .ok r ↔ Mergeable parts ∧ IsUnion parts r := by
  obtain ⟨order, rfl, hrun⟩ := exists_order hparts (List.length_pos_iff.mp (by omega))
  rw [← hrun, MergeOrder.run_eq_ok hparts htwo]

/-- Lists of the same parts can be merged alike and have the same union. -/
theorem mergeable_and_isUnion_congr {more : List SignedTxn} {r : SignedTxn} (h : ∀ p, p ∈ more ↔ p ∈ parts) :
    Mergeable more ∧ IsUnion more r ↔ Mergeable parts ∧ IsUnion parts r := by
  constructor
  · rintro ⟨hmergeable, hunion⟩
    exact ⟨hmergeable.mono fun p hp => (h p).mpr hp, hunion.congr fun p => (h p).symm⟩
  · rintro ⟨hmergeable, hunion⟩
    exact ⟨hmergeable.mono fun p hp => (h p).mp hp, hunion.congr h⟩

/-- Merging is a partial union, slot by slot. It succeeds exactly for parts that can be merged, loses, moves and invents
no signature, and does not depend on the order, the repetitions and the brackets. -/
theorem merge_is_slotwise_union (hparts : ∀ p ∈ parts, p.IsPart) (htwo : 2 ≤ parts.length) :
    ((∃ r, mergeAll parts = .ok r) ↔ Mergeable parts) ∧
    (∀ r, mergeAll parts = .ok r → IsUnion parts r) ∧
    (∀ more : List SignedTxn, 2 ≤ more.length → (∀ p, p ∈ more ↔ p ∈ parts) →
      ∀ r, mergeAll more = .ok r ↔ mergeAll parts = .ok r) ∧
    (∀ order : MergeOrder, 2 ≤ order.parts.length → (∀ p, p ∈ order.parts ↔ p ∈ parts) →
      ∀ r, order.run = .ok r ↔ mergeAll parts = .ok r) ∧
    (∀ (p : SignedTxn) (a : MultisigAccount), p.named = some a → a.WellFormed → p.mergeMultisig p = .ok p) := by
  have hmerge {r : SignedTxn} : mergeAll parts = .ok r ↔ Mergeable parts ∧ IsUnion parts r :=
    mergeAll_eq_ok hparts htwo
  refine ⟨⟨?_, ?_⟩, ?_, ?_, ?_, ?_⟩
  · rintro ⟨r, hr⟩
    exact (hmerge.mp hr).1
  · intro hmergeable
    obtain ⟨order, rfl, hrun⟩ := exists_order hparts (List.length_pos_iff.mp (by omega))
    rw [← hrun]
    exact MergeOrder.exists_run hparts hmergeable
  · intro r hr
    exact (hmerge.mp hr).2
  · intro more hmore hmem r
    rw [mergeAll_eq_ok (fun p hp => hparts p ((hmem p).mp hp)) hmore, mergeable_and_isUnion_congr hmem, hmerge]
  · intro order horder hmem r
    rw [MergeOrder.run_eq_ok (fun p hp => hparts p ((hmem p).mp hp)) horder, mergeable_and_isUnion_congr hmem, hmerge]
  · intro p a hnamed ha
    exact mergeMultisig_self hnamed ha

def partOf (first second third : Option Signature) : SignedTxn where
  msig := some ⟨[⟨.zero, first⟩, ⟨.zero, second⟩, ⟨.zero, third⟩], 2, 1⟩
  txn := {}

theorem parts_united : Mergeable [partOf (some .zero) none none, partOf none none (some .zero)] ∧
    mergeAll [partOf none none (some .zero), partOf (some .zero) none none, partOf none none (some .zero)] =
      .ok (partOf (some .zero) none (some .zero)) ∧
    (MergeOrder.merge (.part (partOf none none (some .zero)))
      (.merge (.part (partOf (some .zero) none none)) (.part (partOf (some .zero) none none)))).run =
      .ok (partOf (some .zero) none (some .zero)) ∧
    (partOf none none (some .zero)).mergeMultisig (partOf none none (some .zero)) =
      .ok (partOf none none (some .zero)) := by
  have hparts : ∀ p ∈ [partOf (some .zero) none none, partOf none none (some .zero)], p.IsPart :=
    List.forall_mem_cons.mpr ⟨⟨rfl, rfl, rfl⟩, List.forall_mem_singleton.mpr ⟨rfl, rfl, rfl⟩⟩
  obtain ⟨hiff, -, hmore, horder, hself⟩ := merge_is_slotwise_union hparts (by decide)
  have hmerge : mergeAll [partOf (some .zero) none none, partOf none none (some .zero)] =
      .ok (partOf (some .zero) none (some .zero)) := by decide +kernel
  refine ⟨hiff.mp ⟨_, hmerge⟩, (hmore _ (by decide) ?_ _).mpr hmerge, (horder _ (by decide) ?_ _).mpr hmerge,
    hself _ _ rfl ⟨rfl, by decide, by decide, by decide⟩⟩
  · intro p
    simp only [List.mem_cons, List.not_mem_nil, or_false]
    tauto
  · intro p
    simp only [MergeOrder.parts, List.mem_append, List.mem_cons, List.not_mem_nil, or_false]
    tauto

end SignedTxn

end AtomicGroup
