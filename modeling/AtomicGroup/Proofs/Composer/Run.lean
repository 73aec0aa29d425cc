import AtomicGroup.Composer.Basic
import AtomicGroup.Proofs.Outcome
import AtomicGroup.Proofs.Txn.Group

/-!
# Runs of a composer

A composer is driven by operations in any order, each of which may fail; what a failure leaves behind is part of the
step. Between operations the signers outside may come to answer differently, so no run relies on how they behave.
A composer is `Reachable` when such a run, or a reopened copy of a reachable composer, leads to it.
-/
namespace AtomicGroup

/-- What the signers outside, each told by its name, answer at some time, and whose authority they hold. -/
structure Behaviour where
  respond : String → List Transaction → List Nat → Except SignerError (List Bytes)
  equals : String → SignerHandle → Bool

def Behaviour.silent : Behaviour := ⟨fun _ _ _ => .ok [], fun _ _ => false⟩

def Signer.answering (b : Behaviour) : Signer → Signer
  | .external s => .external { s with respond := b.respond s.name, equals := b.equals s.name }
  | s => s

@[simp] theorem Signer.answering_answering (b b' : Behaviour) (s : Signer) :
    (s.answering b').answering b = s.answering b := by
  cases s <;> rfl

namespace ComposerEntry

def answering (b : Behaviour) (e : ComposerEntry) : ComposerEntry := { e with signer := e.signer.answering b }

/-- What stays of an entry for good: all but the group stamp and what a signer outside answers at the time. -/
def bare (e : ComposerEntry) : ComposerEntry := (e.stamp .zero).answering .silent

@[simp] theorem txn_answering (b : Behaviour) (e : ComposerEntry) : (e.answering b).txn = e.txn := rfl
@[simp] theorem txn_stamp (id : Digest) (e : ComposerEntry) : (e.stamp id).txn = e.txn.withGroup id := rfl
@[simp] theorem signer_stamp (id : Digest) (e : ComposerEntry) : (e.stamp id).signer = e.signer := rfl
@[simp] theorem bare_stamp (id : Digest) (e : ComposerEntry) : (e.stamp id).bare = e.bare := rfl
@[simp] theorem bare_answering (b : Behaviour) (e : ComposerEntry) : (e.answering b).bare = e.bare := by
  simp [bare, stamp, answering]

end ComposerEntry

namespace Composer

open Outcome

def answering (b : Behaviour) (c : Composer) : Composer := { c with entries := c.entries.map (·.answering b) }

inductive Event where
  | addTransaction (entry : TxnEntry)
  | addMethodCall (call : MethodCall)
  | build
  | gather
  /-- The signers outside come to behave in some way. -/
  | outside (behaviour : Behaviour)

def failure? {α : Type} : Except ComposerError α → Option ComposerError
  | .ok _ => none
  | .error e => some e

/-- The composer after an event, and the failure of the operation, if it failed. -/
def step (c : Composer) : Event → Composer × Option ComposerError
  | .addTransaction entry => after (addTransaction entry) c
  | .addMethodCall call => after (addMethodCall call) c
  | .build => after build c
  | .gather => (c.gather.composer, failure? c.gather.result)
  | .outside b => (c.answering b, none)

def run (c : Composer) : List Event → Composer
  | [] => c
  | event :: events => (c.step event).1.run events

/-- The composers that runs from a new one and from reopened copies lead to. -/
inductive Reachable : Composer → Prop where
  | new : Reachable {}
  | step {c : Composer} (event : Event) (h : Reachable c) : Reachable (c.step event).1
  | reopen {c : Composer} (h : Reachable c) : Reachable c.reopen

theorem Reachable.run {c : Composer} (h : Reachable c) (events : List Event) : Reachable (c.run events) := by
  induction events generalizing c with
  | nil => exact h
  | cons event events ih => exact ih (h.step event)

/-- A relation that every step keeps to holds from the beginning of a run to its end. -/
theorem run_induction {R : Composer → Composer → Prop} (refl : ∀ c, R c c)
    (trans : ∀ a b c, R a b → R b c → R a c) (step : ∀ c event, R c (c.step event).1) (c : Composer)
    (events : List Event) : R c (c.run events) := by
  induction events generalizing c with
  | nil => exact refl c
  | cons event events ih => exact trans _ _ _ (step c event) (ih (c.step event).1)

section Operations

variable {c d : Composer}

@[simp] theorem length_txns (c : Composer) : c.txns.length = c.count := by simp [txns, count]

theorem run_ensureBuilding (c : Composer) :
    ensureBuilding.run c = if c.status = .building then .ok () c else .error .notBuilding c := by
  simp only [ensureBuilding, EStateM.run_bind, EStateM.run_get]
  by_cases h : c.status = .building <;> simp [h]

/-- A transaction is added while building, when there is room and it carries no group id. -/
theorem addTransaction_cases (c : Composer) (entry : TxnEntry) :
    (∃ e, (addTransaction entry).run c = .error e c) ∨
    (c.status = .building ∧ c.count ≠ maxGroupSize ∧ entry.txn.hasGroup = false ∧
      (addTransaction entry).run c = .ok () { c with entries := c.entries ++ [⟨entry, none⟩] }) := by
  simp only [addTransaction, EStateM.run_bind, run_ensureBuilding, EStateM.run_get]
  by_cases hs : c.status = .building
  · simp only [if_pos hs]
    by_cases hfull : c.count = maxGroupSize
    · exact .inl ⟨.groupFull, by rw [if_pos hfull]; rfl⟩
    · by_cases hg : entry.txn.hasGroup
      · exact .inl ⟨.nonZeroGroup, by rw [if_neg hfull, if_pos hg]; rfl⟩
      · exact .inr ⟨hs, hfull, by simpa using hg, by rw [if_neg hfull, if_neg hg]; rfl⟩
  · exact .inl ⟨.notBuilding, by simp only [if_neg hs]⟩

theorem run_push (entry : TxnEntry) (method : Option Abi.Method) (c : Composer) :
    (push entry method).run c = .ok () { c with entries := c.entries ++ [⟨entry, method⟩] } := rfl

/-- Entries are put behind the others one by one. -/
theorem run_forM_push (entries : List TxnEntry) (c : Composer) :
    (entries.forM fun entry => push entry none).run c =
      .ok () { c with entries := c.entries ++ entries.map (⟨·, none⟩) } := by
  induction entries generalizing c with
  | nil => simp [List.forM]
  | cons entry entries ih =>
    change ((push entry none >>= fun _ => entries.forM fun entry => push entry none).run c) = _
    simp only [EStateM.run_bind, run_push, ih, List.map_cons, List.append_assoc, List.singleton_append]

/-- A call is added while building, when there is room for all transactions that its method counts. -/
theorem addMethodCall_cases (c : Composer) (call : MethodCall) :
    (∃ e, (addMethodCall call).run c = .error e c) ∨
    (c.status = .building ∧ c.count + call.method.txnCount ≤ maxGroupSize ∧ ∃ args entry,
      call.expand = .ok (args, entry) ∧ (addMethodCall call).run c =
        .ok () { c with entries := c.entries ++ args.map (⟨·, none⟩) ++ [⟨entry, some call.method⟩] }) := by
  simp only [addMethodCall, EStateM.run_bind, run_ensureBuilding, EStateM.run_get]
  by_cases hs : c.status = .building
  · simp only [if_pos hs]
    by_cases hfull : maxGroupSize < c.count + call.method.txnCount
    · exact .inl ⟨.groupFull, by rw [if_pos hfull]; rfl⟩
    · simp only [if_neg hfull, EStateM.run_bind, run_ofExcept]
      cases hx : call.expand with
      | error e => exact .inl ⟨e, rfl⟩
      | ok expanded =>
        obtain ⟨args, entry⟩ := expanded
        refine .inr ⟨hs, Nat.not_lt.mp hfull, args, entry, rfl, ?_⟩
        simp only [run_forM_push]
        rfl
  · exact .inl ⟨.notBuilding, by simp only [if_neg hs]⟩

theorem stamp_cases (c : Composer) :
    (∃ e, stamp.run c = .error e c) ∨ (c.count ≤ maxGroupSize ∧
      stamp.run c = .ok () { c with entries := c.entries.map (·.stamp (Group.digest c.txns)) }) := by
  simp only [stamp, EStateM.run_bind, EStateM.run_get, run_ofExcept]
  cases hid : Group.id c.txns with
  | error e => exact .inl ⟨.group e, rfl⟩
  | ok gid =>
    obtain ⟨-, hn, rfl⟩ := Group.id_eq_ok.mp hid
    exact .inr ⟨by rwa [length_txns] at hn, rfl⟩

/-- What building makes of a composer: a built one stays as it is, a lone transaction is kept, and more than one are
stamped. -/
inductive BuildsTo (c : Composer) : Composer → Prop where
  | same (hs : c.status ≠ .building) : BuildsTo c c
  | lone (hs : c.status = .building) (e : ComposerEntry) (he : c.entries = [e]) :
      BuildsTo c { c with status := .built }
  | stamped (hs : c.status = .building) (hmany : 2 ≤ c.count) (hn : c.count ≤ maxGroupSize) :
      BuildsTo c { c with status := .built, entries := c.entries.map (·.stamp (Group.digest c.txns)) }

/-- Building is done once. -/
theorem run_build_of_built (hs : c.status ≠ .building) : build.run c = .ok c.transactions c := by
  simp only [build, EStateM.run_bind, EStateM.run_get, if_neg hs]
  rfl

theorem build_cases (c : Composer) :
    (∃ e, build.run c = .error e c) ∨ ∃ d, build.run c = .ok d.transactions d ∧ BuildsTo c d := by
  by_cases hs : c.status = .building
  · simp only [build, EStateM.run_bind, EStateM.run_get, if_pos hs]
    match he : c.entries with
    | [] => exact .inl ⟨.empty, rfl⟩
    | [e] =>
      have hone : ¬1 < c.count := by simp [count, he]
      refine .inr ⟨_, ?_, .lone hs e he⟩
      simp only [EStateM.run_bind, EStateM.run_get, List.isEmpty_cons, Bool.false_eq_true, if_false, if_neg hone]
      rfl
    | e :: e' :: es =>
      have hmany : 1 < c.count := by simp [count, he]
      simp only [EStateM.run_bind, EStateM.run_get, List.isEmpty_cons, Bool.false_eq_true, if_false, if_pos hmany]
      obtain ⟨err, hstamp⟩ | ⟨hn, hstamp⟩ := stamp_cases c
      · exact .inl ⟨err, by rw [hstamp]⟩
      · exact .inr ⟨_, by rw [hstamp]; rfl, .stamped hs hmany hn⟩
  · exact .inr ⟨c, run_build_of_built hs, .same hs⟩

theorem addTransaction_eq_ok {entry : TxnEntry} {u : Unit} (h : (addTransaction entry).run c = .ok u d) :
    c.status = .building ∧ c.count ≠ maxGroupSize ∧ entry.txn.hasGroup = false ∧
      d = { c with entries := c.entries ++ [⟨entry, none⟩] } := by
  obtain ⟨e, hr⟩ | ⟨hs, hn, hg, hr⟩ := addTransaction_cases c entry
  · cases hr.symm.trans h
  · cases hr.symm.trans h
    exact ⟨hs, hn, hg, rfl⟩

theorem addMethodCall_eq_ok {call : MethodCall} {u : Unit} (h : (addMethodCall call).run c = .ok u d) :
    c.status = .building ∧ c.count + call.method.txnCount ≤ maxGroupSize ∧ ∃ args entry,
      call.expand = .ok (args, entry) ∧
      d = { c with entries := c.entries ++ args.map (⟨·, none⟩) ++ [⟨entry, some call.method⟩] } := by
  obtain ⟨e, hr⟩ | ⟨hs, hn, args, entry, hx, hr⟩ := addMethodCall_cases c call
  · cases hr.symm.trans h
  · cases hr.symm.trans h
    exact ⟨hs, hn, args, entry, hx, rfl⟩

theorem build_eq_ok {entries : List TxnEntry} (h : build.run c = .ok entries d) :
    entries = d.transactions ∧ BuildsTo c d := by
  obtain ⟨e, hr⟩ | ⟨d', hr, hd⟩ := build_cases c
  · cases hr.symm.trans h
  · cases hr.symm.trans h
    exact ⟨rfl, hd⟩

theorem atomic_addTransaction (entry : TxnEntry) : Atomic (addTransaction entry) :=
  .of_cases fun c => (addTransaction_cases c entry).imp_right fun ⟨_, _, _, h⟩ => ⟨_, _, h⟩

theorem atomic_addMethodCall (call : MethodCall) : Atomic (addMethodCall call) :=
  .of_cases fun c => (addMethodCall_cases c call).imp_right fun ⟨_, _, _, _, _, h⟩ => ⟨_, _, h⟩

theorem atomic_build : Atomic build := .of_cases fun c => (build_cases c).imp_right fun ⟨_, h, _⟩ => ⟨_, _, h⟩

/-- Only a signed composer is still signed after building. -/
theorem BuildsTo.status_eq (h : BuildsTo c d) (hs : c.status ≠ .signed) : d.status = .built := by
  cases h with
  | same hb =>
    cases hd : c.status with
    | building => exact absurd hd hb
    | built => rfl
    | signed => exact absurd hd hs
  | lone | stamped => rfl

end Operations

end Composer

end AtomicGroup
