import AtomicGroup.Composer.MethodCall
import AtomicGroup.Proofs.Abi.CanonicalJson

/-!
# Filling the places of a call's arguments

Arguments are supplied one after the other, as JSON, as values or as transactions, and each is checked against the
place that it fills. A place admits only what can later stand there: a transaction where one is declared, and otherwise
a value whose encoding can fail for no other reason than its length. What a call has admitted stays admitted, whatever
else is set on it.
-/
namespace AtomicGroup

open Outcome

/-- The type in which a caller gives an argument, unless it is a transaction. -/
def Abi.ArgKind.givenType? : Abi.ArgKind → Option Abi.Ty
  | .value t => some t
  | .reference r => some r.valueType
  | .transaction _ => none

/-- The type of a declared argument keeps to the bounds of the language. -/
theorem Abi.MethodArg.withinBounds_of_kind {a : Abi.MethodArg} {kind : Abi.ArgKind} {t : Abi.Ty}
    (h : a.kind = .ok kind) (ht : kind.givenType? = some t) : t.WithinBounds := by
  cases kind with
  | value u =>
    cases ht
    unfold MethodArg.kind ArgKind.parse at h
    split at h
    · cases h
    · split at h
      · cases h
      · split at h
        · cases h
        · obtain ⟨u, hu, hp⟩ := bind_eq_ok.mp h
          cases pure_eq_ok.mp hp
          exact (Ty.name_of_parse hu).1
  | reference r =>
    cases ht
    cases r with
    | account => trivial
    | asset => exact ⟨by decide, by decide, by decide⟩
    | application => exact ⟨by decide, by decide, by decide⟩
  | transaction expected => cases ht

namespace MethodCall

/-- What the place of an argument accepts, and the argument that it becomes. -/
inductive Accepts : Abi.ArgKind → Supply → ArgValue → Prop where
  | json {kind : Abi.ArgKind} {t : Abi.Ty} {text : String} {v : Abi.Value} (ht : kind.givenType? = some t)
      (h : t.ofJson text = .ok v) : Accepts kind (.json text) (.value v)
  | value {kind : Abi.ArgKind} {t : Abi.Ty} {v : Abi.Value} {bs : Bytes} (ht : kind.givenType? = some t)
      (h : t.encode v = .ok bs) : Accepts kind (.value v) (.value v)
  | transaction (expected : Option TxnKind) (entry : TxnEntry) :
      Accepts (.transaction expected) (.transaction entry) (.transaction entry)

/-- What may fill the place of an argument: a value which is encoded unless it is too long, or a transaction. -/
inductive Admits : Abi.ArgKind → ArgValue → Prop where
  | value {kind : Abi.ArgKind} {t : Abi.Ty} {v : Abi.Value} (ht : kind.givenType? = some t)
      (h : Abi.OnlyTooLong (t.encode v)) : Admits kind (.value v)
  | transaction (expected : Option TxnKind) (entry : TxnEntry) : Admits (.transaction expected) (.transaction entry)

variable {c d : MethodCall} {kind : Abi.ArgKind} {kinds : List Abi.ArgKind}

/-- What is accepted is admitted: JSON because of what it can be read as, a value because it has been encoded. -/
theorem Accepts.admits {s : Supply} {arg : ArgValue} (h : Accepts kind s arg)
    (hin : ∀ t, kind.givenType? = some t → t.WithinBounds) : Admits kind arg := by
  cases h with
  | @json _ t text v ht h => exact .value ht (Abi.onlyTooLong_of_ofJson (hin t ht) h)
  | @value _ t v bs ht h =>
    refine .value ht ?_
    rw [h]
    exact Abi.onlyTooLong_ok bs
  | transaction expected entry => exact .transaction expected entry

/-- The next place is the one after those filled. -/
theorem nextArg_eq_ok (hkinds : c.method.argKinds = .ok kinds) {index : Nat} {name : String}
    (h : c.nextArg = .ok (index, kind, name)) :
    kinds[c.args.length]? = some kind ∧ ∀ t, kind.givenType? = some t → t.WithinBounds := by
  unfold nextArg at h
  cases harg : c.method.args[c.args.length]? with
  | none =>
    rw [harg] at h
    cases h
  | some arg =>
    rw [harg] at h
    obtain ⟨k, hk, hp⟩ := bind_eq_ok.mp h
    cases pure_eq_ok.mp hp
    rw [mapError_eq_ok] at hk
    refine ⟨?_, fun t ht => Abi.MethodArg.withinBounds_of_kind hk ht⟩
    obtain ⟨k', hk', hkind⟩ := exists_of_getElem?_left (mapM_eq_ok.mp hkinds) harg
    rw [hk', Except.ok.inj (hkind.symm.trans hk)]

/-- What is supplied is refused, or makes an argument that the next place accepts, which is put behind the others. -/
theorem supply_cases (s : Supply) (c : MethodCall) :
    (∃ e, (supply s).run c = .error e c) ∨ ∃ index kind type arg, c.nextArg = .ok (index, kind, type) ∧
      s.argFor index kind type = .ok arg ∧ (supply s).run c = .ok () (c.push arg) := by
  simp only [supply, EStateM.run_bind, EStateM.run_get, run_ofExcept]
  cases hnext : c.nextArg with
  | error e => exact .inl ⟨e, rfl⟩
  | ok next =>
    obtain ⟨index, kind, type⟩ := next
    dsimp only
    cases harg : s.argFor index kind type with
    | error e => exact .inl ⟨e, rfl⟩
    | ok arg => exact .inr ⟨index, kind, type, arg, rfl, harg, rfl⟩

theorem atomic_supply (s : Supply) : Atomic (supply s) :=
  .of_cases fun c => (supply_cases s c).imp_right fun ⟨_, _, _, _, _, _, h⟩ => ⟨_, _, h⟩

/-- An argument is made only of what its place accepts. -/
theorem Supply.accepts_of_argFor {s : Supply} {index : Nat} {type : String} {arg : ArgValue}
    (h : s.argFor index kind type = .ok arg) : Accepts kind s arg := by
  cases s with
  | json text =>
    cases kind with
    | value t =>
      obtain ⟨v, hv, rfl⟩ := map_eq_ok.mp (mapError_eq_ok.mp h)
      exact .json rfl hv
    | reference r =>
      obtain ⟨v, hv, rfl⟩ := map_eq_ok.mp (mapError_eq_ok.mp h)
      exact .json rfl hv
    | transaction expected => cases h
  | value v =>
    cases kind with
    | value t =>
      obtain ⟨bs, hbs, rfl⟩ := map_eq_ok.mp (mapError_eq_ok.mp h)
      exact .value rfl hbs
    | reference r =>
      obtain ⟨bs, hbs, rfl⟩ := map_eq_ok.mp (mapError_eq_ok.mp h)
      exact .value rfl hbs
    | transaction expected => cases h
  | transaction entry =>
    cases kind with
    | value t => cases h
    | reference r => cases h
    | transaction expected =>
      cases h
      exact .transaction expected entry

/-- Supplying an argument appends one that the next place accepts, and changes nothing else. -/
theorem supply_eq_ok (hkinds : c.method.argKinds = .ok kinds) {s : Supply} {u : Unit} (h : (supply s).run c = .ok u d) :
    ∃ kind arg, kinds[c.args.length]? = some kind ∧ Accepts kind s arg ∧ Admits kind arg ∧ d = c.push arg := by
  obtain ⟨e, hr⟩ | ⟨index, kind, type, arg, hnext, harg, hr⟩ := supply_cases s c
  · cases hr.symm.trans h
  · cases hr.symm.trans h
    obtain ⟨hkind, hin⟩ := nextArg_eq_ok hkinds hnext
    have haccepts := Supply.accepts_of_argFor harg
    exact ⟨kind, arg, hkind, haccepts, haccepts.admits hin, rfl⟩

/-- What happens to a call before it is expanded: an argument is supplied, or it is set up like another call in all but
its method and its arguments. -/
inductive CallEvent where
  | supply (s : Supply)
  | configure (other : MethodCall)

/-- The call after an event, and the failure, if an argument is refused. -/
def step (c : MethodCall) : CallEvent → MethodCall × Option ComposerError
  | .supply s => after (supply s) c
  | .configure other => ({ other with method := c.method, args := c.args }, none)

def run (c : MethodCall) : List CallEvent → MethodCall
  | [] => c
  | event :: events => (c.step event).1.run events

/-- A call whose arguments are admitted by the first places of its method. -/
structure Filled (c : MethodCall) (kinds : List Abi.ArgKind) : Prop where
  argKinds : c.method.argKinds = .ok kinds
  admits : List.Forall₂ Admits (kinds.take c.args.length) c.args

theorem Filled.length_le (h : c.Filled kinds) : c.args.length ≤ kinds.length := by
  have hlen := h.admits.length_eq
  rw [List.length_take] at hlen
  omega

/-- An argument that the next place admits fills it. -/
theorem Filled.push (h : c.Filled kinds) {arg : ArgValue} (hkind : kinds[c.args.length]? = some kind)
    (harg : Admits kind arg) : (c.push arg).Filled kinds := by
  refine ⟨h.argKinds, ?_⟩
  rw [MethodCall.push, List.length_append, List.length_singleton, List.take_add_one, hkind]
  exact List.rel_append h.admits (.cons harg .nil)

theorem Filled.step (h : c.Filled kinds) (event : CallEvent) : (c.step event).1.Filled kinds := by
  cases event with
  | supply s =>
    refine (atomic_supply s).after (P := fun d => d.Filled kinds) h fun u d hs => ?_
    obtain ⟨kind, arg, hkind, -, hadmits, rfl⟩ := supply_eq_ok h.argKinds hs
    exact h.push hkind hadmits
  | configure other => exact ⟨h.argKinds, h.admits⟩

/-- Places stay filled with what they admit, by induction on the events. -/
theorem Filled.run (h : c.Filled kinds) (events : List CallEvent) : (c.run events).Filled kinds := by
  induction events generalizing c with
  | nil => exact h
  | cons event events ih => exact ih (h.step event)

theorem filled_of_fresh (hkinds : c.method.argKinds = .ok kinds) (hargs : c.args = []) : c.Filled kinds := by
  refine ⟨hkinds, ?_⟩
  rw [hargs]
  exact .nil

end MethodCall

end AtomicGroup
