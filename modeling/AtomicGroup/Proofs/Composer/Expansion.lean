import AtomicGroup.Composer.MethodCall
import AtomicGroup.Proofs.Outcome
import AtomicGroup.Proofs.Txn.Group

/-!
# The transactions of a method call

A call expands to as many transactions as its method says it takes, and none of them carries a group id.
-/
namespace AtomicGroup

open Outcome

namespace Abi.Method

/-- The transactions of a call are counted by the sorts of its arguments. -/
theorem txnCount_eq {m : Method} {kinds : List ArgKind} (h : m.argKinds = .ok kinds) :
    m.txnCount = 1 + kinds.countP ArgKind.isTransaction := by
  replace h : List.Forall₂ (fun a kind => MethodArg.kind a = .ok kind) m.args kinds := mapM_eq_ok.mp h
  unfold txnCount
  congr 1
  generalize m.args = args at h
  induction h with
  | nil => rfl
  | cons ha _ ih =>
    rw [List.countP_cons, List.countP_cons, ha, ih]

end Abi.Method

def ArgValue.entry? : ArgValue → Option TxnEntry
  | .value _ => none
  | .transaction entry => some entry

namespace MethodCall

theorem group_of_checkTransaction {index : Nat} {expected : Option TxnKind} {t : Transaction} {u : Unit}
    (h : checkTransaction index expected t = .ok u) : t.header.group = .zero := by
  by_cases hg : t.hasGroup
  · cases expected with
    | none =>
      simp only [checkTransaction, if_pos hg] at h
      cases h
    | some kind =>
      simp only [checkTransaction, if_pos hg] at h
      split at h <;> cases h
  · exact Transaction.hasGroup_eq_false_iff.mp (by simpa using hg)

/-- Every transaction argument becomes one transaction as it is supplied, and none has a group id. -/
theorem entries_of_expandArgs {sender : Address} {app : UInt64} {kinds : List (String × Abi.ArgKind)}
    {args : List ArgValue} {index : Nat} {lists : ForeignLists} {x : Expansion} (hlen : args.length = kinds.length)
    (h : expandArgs sender app index lists kinds args = .ok x) :
    x.entries = args.filterMap ArgValue.entry? ∧ x.entries.length = kinds.countP (·.2.isTransaction) ∧
      ∀ e ∈ x.entries, e.txn.header.group = .zero := by
  induction kinds generalizing args index lists x with
  | nil =>
    obtain rfl := List.eq_nil_of_length_eq_zero hlen
    cases h
    simp
  | cons k kinds ih =>
    obtain ⟨type, kind⟩ := k
    cases args with
    | nil => simp at hlen
    | cons arg args =>
      have hrestlen : args.length = kinds.length := by simpa using hlen
      cases kind with
      | transaction expected =>
        cases arg with
        | value v => cases h
        | transaction entry =>
          obtain ⟨u, hu, h⟩ := bind_eq_ok.mp h
          obtain ⟨rest, hrest, h⟩ := bind_eq_ok.mp h
          obtain rfl := pure_eq_ok.mp h
          obtain ⟨heq, hn, hz⟩ := ih hrestlen hrest
          refine ⟨congrArg (entry :: ·) heq, by simp [hn, Abi.ArgKind.isTransaction], ?_⟩
          intro e he
          cases he with
          | head => exact group_of_checkTransaction hu
          | tail _ he => exact hz e he
      | reference r =>
        cases arg with
        | transaction entry => cases h
        | value v =>
          simp only [expandArgs] at h
          cases hr : lists.refer sender app r v with
          | none => rw [hr] at h; cases h
          | some found =>
            rw [hr] at h
            obtain ⟨rest, hrest, h⟩ := bind_eq_ok.mp h
            obtain rfl := pure_eq_ok.mp h
            obtain ⟨heq, hn, hz⟩ := ih hrestlen hrest
            exact ⟨heq, by simp [hn, Abi.ArgKind.isTransaction], hz⟩
      | value t =>
        cases arg with
        | transaction entry => cases h
        | value v =>
          obtain ⟨rest, hrest, h⟩ := bind_eq_ok.mp h
          obtain rfl := pure_eq_ok.mp h
          obtain ⟨heq, hn, hz⟩ := ih hrestlen hrest
          exact ⟨heq, by simp [hn, Abi.ArgKind.isTransaction], hz⟩

/-- What the arguments of a call come to, if they are those of the method. -/
def expansion (c : MethodCall) : Except ComposerError Expansion := do
  let kinds ← c.method.argKinds.mapError .abi
  if c.args.length ≠ kinds.length then throw (.argCount kinds.length c.args.length)
  c.checkPrograms
  expandArgs c.sender c.app 0 ⟨c.accounts, c.foreignApps, c.foreignAssets⟩
    ((c.method.args.map (·.type)).zip kinds) c.args

def ofExpansion (c : MethodCall) (x : Expansion) : Except ComposerError (List TxnEntry × TxnEntry) := do
  let args ← c.appArgs x.values
  let draft ← (TxnDraft.callApp c.sender (c.appCall x.lists args)).mapError .transaction
  let draft := ((draft.withNote c.note).withLease c.lease).withRekey c.rekeyTo
  let txn ← (draft.build c.params).mapError .transaction
  return (x.entries, ⟨txn, c.signer⟩)

theorem expand_eq (c : MethodCall) : c.expand = c.expansion >>= c.ofExpansion := by
  rw [expand, expansion]
  cases c.method.argKinds with
  | error e => rfl
  | ok kinds =>
    by_cases hlen : c.args.length ≠ kinds.length
    · simp only [Except.mapError, ok_bind, if_pos hlen]
      rfl
    · simp only [Except.mapError, ok_bind, if_neg hlen]
      cases c.checkPrograms with
      | error e => rfl
      | ok u => rfl

/-- The arguments of a call are as many as those of its method, and are expanded with their sorts. -/
theorem expansion_eq_ok {c : MethodCall} {x : Expansion} (h : c.expansion = .ok x) :
    ∃ named, c.method.argKinds = .ok (named.map (·.2)) ∧ c.args.length = named.length ∧
      expandArgs c.sender c.app 0 ⟨c.accounts, c.foreignApps, c.foreignAssets⟩ named c.args = .ok x := by
  obtain ⟨kinds, hkinds, h⟩ := bind_eq_ok.mp h
  rw [mapError_eq_ok] at hkinds
  by_cases hlen : c.args.length ≠ kinds.length
  · simp only [if_pos hlen] at h
    cases h
  · simp only [if_neg hlen] at h
    obtain ⟨_, -, h⟩ := bind_eq_ok.mp h
    have hargs : (c.method.args.map (·.type)).length = kinds.length := by
      rw [List.length_map]
      exact (mapM_eq_ok.mp hkinds).length_eq
    refine ⟨(c.method.args.map (·.type)).zip kinds, ?_, ?_, h⟩
    · rw [hkinds, List.map_snd_zip (Nat.le_of_eq hargs.symm)]
    · rw [List.length_zip, hargs, Nat.min_self]
      exact not_not.mp hlen

/-- The application call of a method call: it has the lists that the arguments came to, the selector with the encoded
values, and the boxes by position. -/
theorem ofExpansion_eq_ok {c : MethodCall} {x : Expansion} {before : List TxnEntry} {last : TxnEntry}
    (h : c.ofExpansion x = .ok (before, last)) :
    before = x.entries ∧ last.signer = c.signer ∧ last.txn.kind = .appCall ∧ last.txn.header.sender = c.sender ∧
      last.txn.header.group = .zero ∧ ∃ args boxes, c.appArgs x.values = .ok args ∧
        c.boxes.mapM (AppBox.resolve x.lists.apps c.app) = .ok boxes ∧
        last.txn.appCall = { c.appCall x.lists args with boxes } := by
  obtain ⟨args, hargs, h⟩ := bind_eq_ok.mp h
  obtain ⟨draft, hdraft, h⟩ := bind_eq_ok.mp h
  obtain ⟨t, ht, h⟩ := bind_eq_ok.mp h
  obtain ⟨rfl, rfl⟩ := Prod.mk.inj (pure_eq_ok.mp h)
  obtain ⟨boxes, hboxes, hdraft⟩ := bind_eq_ok.mp (mapError_eq_ok.mp hdraft)
  obtain rfl := pure_eq_ok.mp hdraft
  obtain ⟨hkind, hsender, hgroup, hcall⟩ := TxnDraft.kept_by_build (mapError_eq_ok.mp ht)
  exact ⟨rfl, rfl, hkind, hsender, hgroup, args, boxes, hargs, hboxes, hcall⟩

/-- A call adds the transactions that its method counts, all without a group id. -/
theorem expand_spec {c : MethodCall} {args : List TxnEntry} {entry : TxnEntry} (h : c.expand = .ok (args, entry)) :
    args.length + 1 = c.method.txnCount ∧ (∀ e ∈ args, e.txn.header.group = .zero) ∧
      entry.txn.header.group = .zero := by
  rw [expand_eq] at h
  obtain ⟨x, hx, h⟩ := bind_eq_ok.mp h
  obtain ⟨named, hkinds, hlen, hx⟩ := expansion_eq_ok hx
  obtain ⟨rfl, -, -, -, hgroup, -⟩ := ofExpansion_eq_ok h
  obtain ⟨-, hn, hz⟩ := entries_of_expandArgs hlen hx
  have hcount : (named.map (·.2)).countP Abi.ArgKind.isTransaction = named.countP (·.2.isTransaction) :=
    List.countP_map
  exact ⟨by rw [hn, Abi.Method.txnCount_eq hkinds, hcount, Nat.add_comm], hz, hgroup⟩

end MethodCall

end AtomicGroup
