import AtomicGroup.Proofs.Composer.References
import AtomicGroup.Proofs.Composer.Slots

/-!
# What the expansion of a call may still refuse

The arguments of a call are checked against their places as they are supplied, and never again. What is left for the
expansion to refuse is what no single argument shows: places that are still empty, programs that do not belong to the
call, transactions that cannot stand before it, numbers of references and lengths that have become too large, boxes of
unknown applications, and the parameters of the network.
-/
namespace AtomicGroup

open Outcome

namespace Abi

theorem exists_of_encodeMembers_eq_error {values : List (Ty × Value)} {e : Error}
    (h : encodeMembers (values.map (·.1)) (values.map (·.2)) = .error e) : ∃ p ∈ values, p.1.encode p.2 = .error e := by
  induction values with
  | nil => cases h
  | cons p values ih =>
    obtain hp | ⟨_, -, h⟩ := bind_eq_error.mp h
    · exact ⟨p, List.mem_cons_self, hp⟩
    · obtain hrest | ⟨_, -, h⟩ := bind_eq_error.mp h
      · obtain ⟨q, hq, he⟩ := ih hrest
        exact ⟨q, List.mem_cons_of_mem p hq, he⟩
      · cases h

/-- A tuple fails as one of its members does, or for its length. -/
theorem encode_tuple_eq_error {values : List (Ty × Value)} {e : Error}
    (h : (Ty.tuple (values.map (·.1))).encode (.tuple (values.map (·.2))) = .error e) :
    (∃ p ∈ values, p.1.encode p.2 = .error e) ∨ ∃ n, UInt16.size ≤ n ∧ e = .tooLong n := by
  have hcount : expectLength (.tuple (values.map (·.1))) (values.map (·.1)).length (values.map (·.2)).length = .ok () :=
    expectLength_eq_ok.mpr (by rw [List.length_map, List.length_map])
  simp only [Ty.encode, itemsOf, Value.items?, ok_bind, hcount] at h
  obtain hmembers | ⟨parts, -, hlayout⟩ := bind_eq_error.mp h
  · exact .inl (exists_of_encodeMembers_eq_error hmembers)
  · exact .inr (onlyTooLong_layout parts e hlayout)

/-- What can be encoded as an address is one. -/
theorem exists_address?_of_onlyTooLong {v : Value} (h : OnlyTooLong (Ty.address.encode v)) :
    ∃ a, v.address? = some a := by
  cases ha : v.address? with
  | some a => exact ⟨a, rfl⟩
  | none =>
    rw [Ty.encode, ha] at h
    obtain ⟨_, -, he⟩ := h _ rfl
    cases he

/-- What can be encoded as a number of 64 bits is one. -/
theorem exists_uint64?_of_onlyTooLong {v : Value} (h : OnlyTooLong ((Ty.uint 64).encode v)) :
    ∃ n, v.uint64? = some n := by
  cases v with
  | uint n =>
    by_cases hn : n < UInt64.size
    · exact ⟨_, if_pos hn⟩
    · have herror : (Ty.uint 64).encode (.uint n) = .error (.outOfRange (.uint 64) n) := if_neg hn
      obtain ⟨_, -, he⟩ := h _ herror
      cases he
  | byte b => exact ⟨_, rfl⟩
  | _ =>
    obtain ⟨_, -, he⟩ := h _ rfl
    cases he

end Abi

theorem AppBox.resolve_eq_error {apps : List UInt64} {called : UInt64} {box : AppBox} {e : TransactionError}
    (h : box.resolve apps called = .error e) :
    box.app ≠ 0 ∧ box.app ≠ called ∧ box.app ∉ apps ∧ e = .unknownBoxApp box.app := by
  unfold resolve at h
  split at h
  · cases h
  · rename_i hother
    split at h
    · cases h
    · rename_i hfind
      cases h
      obtain ⟨hzero, hcalled⟩ := not_or.mp hother
      refine ⟨hzero, hcalled, fun hmem => ?_, rfl⟩
      have hne := List.findIdx?_eq_none_iff.mp hfind box.app hmem
      rw [beq_self_eq_true] at hne
      cases hne

/-- Building is refused for the window of rounds or for the fee. -/
theorem TxnDraft.build_eq_error {d : TxnDraft} {params : SuggestedParams} {e : TransactionError}
    (h : d.build params = .error e) :
    (params.lastValid < params.firstValid ∧ e = .window params.firstValid params.lastValid) ∨
    (params.flatFee = false ∧ (∃ t : Transaction, UInt64.size ≤ t.signedSize * params.fee.toNat) ∧
      e = .feeOverflow) := by
  by_cases hw : params.lastValid < params.firstValid
  · simp only [build, if_pos hw] at h
    cases h
    exact .inl ⟨hw, rfl⟩
  · simp only [build, if_neg hw] at h
    cases hfee : (Transaction.applyFee params).run (d.inNetwork params) with
    | error e' u =>
      rw [hfee] at h
      cases h
      obtain ⟨hrate, hlarge, rfl, -⟩ := Transaction.applyFee_eq_error.mp hfee
      rw [← Transaction.signedSize_mul] at hlarge
      exact .inr ⟨hrate, ⟨_, hlarge⟩, rfl⟩
    | ok _ u =>
      simp only [hfee] at h
      split at h <;> cases h

namespace MethodCall

variable {c : MethodCall} {kinds : List Abi.ArgKind} {args : List ArgValue}

/-- Arguments fail as one of the values does, alone or in the tuple, or for the length of the tuple. -/
theorem appArgs_refusal {values : List (Abi.Ty × Abi.Value)} {e : ComposerError} (h : c.appArgs values = .error e) :
    ∃ e', e = .abi e' ∧ ((∃ p ∈ values, p.1.encode p.2 = .error e') ∨ ∃ n, UInt16.size ≤ n ∧ e' = .tooLong n) := by
  obtain hencoded | ⟨_, -, h⟩ := bind_eq_error.mp h
  · obtain ⟨q, hq, he⟩ := exists_of_mapM_eq_error hencoded
    obtain ⟨e', he', rfl⟩ := mapError_eq_error.mp he
    refine ⟨e', rfl, ?_⟩
    by_cases hlen : values.length ≤ maxAppArgs - 1
    · rw [packValues_of_le hlen] at hq
      exact .inl ⟨q, hq, he'⟩
    · rw [packValues_of_lt (Nat.not_le.mp hlen)] at hq
      obtain hq | hq := List.mem_append.mp hq
      · exact .inl ⟨q, List.mem_of_mem_take hq, he'⟩
      · obtain rfl := List.mem_singleton.mp hq
        refine (Abi.encode_tuple_eq_error he').imp_left ?_
        rintro ⟨p, hp, hpe⟩
        exact ⟨p, List.mem_of_mem_drop hp, hpe⟩
  · cases h

/-- A transaction that cannot stand where it is supplied: it is of another kind, or has a group id already. Positions
are counted from an index. -/
inductive Misplaced (kinds : List Abi.ArgKind) (args : List ArgValue) (index : Nat) : ComposerError → Prop where
  | kind {i : Nat} {kind : TxnKind} {entry : TxnEntry} (hkind : kinds[i]? = some (.transaction (some kind)))
      (harg : args[i]? = some (.transaction entry)) (hne : entry.txn.kind ≠ kind) :
      Misplaced kinds args index (.transactionKind (index + i) kind entry.txn.kind)
  | group {i : Nat} {entry : TxnEntry} (harg : args[i]? = some (.transaction entry)) (hgroup : entry.txn.hasGroup) :
      Misplaced kinds args index .nonZeroGroup

theorem Misplaced.cons {index : Nat} {e : ComposerError} (h : Misplaced kinds args (index + 1) e) (kind : Abi.ArgKind)
    (arg : ArgValue) : Misplaced (kind :: kinds) (arg :: args) index e := by
  cases h with
  | @kind i k entry hkind harg hne =>
    have hindex : index + 1 + i = index + (i + 1) := by omega
    rw [hindex]
    exact .kind (by rwa [List.getElem?_cons_succ]) (by rwa [List.getElem?_cons_succ]) hne
  | @group i entry harg hgroup =>
    exact .group (i := i + 1) (by rwa [List.getElem?_cons_succ]) hgroup

theorem misplaced_of_checkTransaction {index : Nat} {expected : Option TxnKind} {entry : TxnEntry} {e : ComposerError}
    (h : checkTransaction index expected entry.txn = .error e) :
    Misplaced (.transaction expected :: kinds) (.transaction entry :: args) index e := by
  have hgroup {e' : ComposerError}
      (hg : (if entry.txn.hasGroup then throw .nonZeroGroup else pure () : Except ComposerError Unit) = .error e') :
      Misplaced (.transaction expected :: kinds) (.transaction entry :: args) index e' := by
    split at hg
    · cases hg
      exact .group (i := 0) rfl ‹_›
    · cases hg
  cases expected with
  | none => exact hgroup h
  | some kind =>
    simp only [checkTransaction] at h
    split at h
    · rename_i hne
      cases h
      exact .kind (i := 0) rfl rfl hne
    · exact hgroup h

/-- What the place of a reference admits is found in any lists, or added to them. -/
theorem exists_refer {r : Abi.Reference} {v : Abi.Value} (h : Admits (.reference r) (.value v)) (lists : ForeignLists)
    (sender : Address) (app : UInt64) : ∃ found, lists.refer sender app r v = some found := by
  cases h with
  | value ht h =>
    cases ht
    cases r with
    | account =>
      obtain ⟨a, ha⟩ := Abi.exists_address?_of_onlyTooLong h
      simp only [ForeignLists.refer, ha, Option.bind_eq_bind, Option.bind_some]
      split
      · exact ⟨_, rfl⟩
      · exact ⟨_, rfl⟩
    | application =>
      obtain ⟨n, hn⟩ := Abi.exists_uint64?_of_onlyTooLong h
      simp only [ForeignLists.refer, hn, Option.bind_eq_bind, Option.bind_some]
      split
      · exact ⟨_, rfl⟩
      · exact ⟨_, rfl⟩
    | asset =>
      obtain ⟨n, hn⟩ := Abi.exists_uint64?_of_onlyTooLong h
      simp only [ForeignLists.refer, hn, Option.bind_eq_bind, Option.bind_some]
      exact ⟨_, rfl⟩

/-- Admitted arguments are expanded unless a transaction is misplaced, by induction on the arguments. -/
theorem misplaced_of_expandArgs {sender : Address} {app : UInt64} {named : List (String × Abi.ArgKind)} {index : Nat}
    {lists : ForeignLists} {e : ComposerError} (hargs : List.Forall₂ Admits (named.map (·.2)) args)
    (h : expandArgs sender app index lists named args = .error e) : Misplaced (named.map (·.2)) args index e := by
  induction named generalizing args index lists with
  | nil => cases h
  | cons k named ih =>
    obtain ⟨type, kind⟩ := k
    rw [List.map_cons] at hargs ⊢
    cases hargs with
    | @cons _ arg _ args hadmits hrest =>
    have hlater {lists' : ForeignLists} {f : Expansion → Expansion}
        (he : (expandArgs sender app (index + 1) lists' named args >>= fun rest => pure (f rest)) = .error e) :
        Misplaced (kind :: named.map (·.2)) (arg :: args) index e := by
      obtain hmisplaced | ⟨_, -, he⟩ := bind_eq_error.mp he
      · exact (ih hrest hmisplaced).cons kind arg
      · cases he
    cases hadmits with
    | transaction expected entry =>
      obtain hcheck | ⟨_, -, h⟩ := bind_eq_error.mp h
      · exact misplaced_of_checkTransaction hcheck
      · exact hlater h
    | @value _ t v ht hv =>
      cases kind with
      | value u => exact hlater h
      | reference r =>
        obtain ⟨⟨i, grown⟩, hfound⟩ := exists_refer (.value ht hv) lists sender app
        simp only [expandArgs, hfound] at h
        exact hlater h
      | transaction expected => cases ht

/-- What a call carries for an argument fails to be encoded only for its length, or as the number of a reference. -/
theorem CarriedAs.refusal {lists : ForeignLists} {sender : Address} {app : UInt64} {a : Abi.ArgKind × Abi.Value}
    {p : Abi.Ty × Abi.Value} {e : Abi.Error} (h : CarriedAs lists sender app a p) (ha : Admits a.1 (.value a.2))
    (he : p.1.encode p.2 = .error e) : (∃ n, UInt16.size ≤ n ∧ e = .tooLong n) ∨
      ∃ r v k, a = (.reference r, v) ∧ p = (.uint 8, .uint k) ∧ 255 < k ∧ e = .outOfRange (.uint 8) k := by
  cases h with
  | value t v =>
    cases ha with
    | value ht h =>
      cases ht
      exact .inl (h e he)
  | @reference r v k hdenotes =>
    by_cases hk : 255 < k
    · exact .inr ⟨r, v, k, rfl, rfl, hk, Except.error.inj (he.symm.trans (encode_of_large hk))⟩
    · have hsmall : (Abi.Ty.uint 8).encode (.uint k) = .ok _ := if_pos (Nat.lt_succ_of_le (Nat.not_lt.mp hk))
      cases he.symm.trans hsmall

theorem admits_of_mem_carried (h : List.Forall₂ Admits kinds args) :
    ∀ a ∈ carried kinds args, Admits a.1 (.value a.2) := by
  induction h with
  | nil => nofun
  | cons hadmits _ ih =>
    cases hadmits with
    | value ht hv => exact List.forall_mem_cons.mpr ⟨.value ht hv, ih⟩
    | transaction expected entry => exact ih

/-- What may still make the expansion of a call fail, when its arguments fill the places of its method one by one. -/
inductive Refusal (c : MethodCall) (kinds : List Abi.ArgKind) : ComposerError → Prop where
  | argCount (h : c.args.length < kinds.length) : Refusal c kinds (.argCount kinds.length c.args.length)
  | programs (rule : ProgramRule) (h : c.checkPrograms = .error (.programRule rule)) :
      Refusal c kinds (.programRule rule)
  | transactionKind {i : Nat} {kind : TxnKind} {entry : TxnEntry} (hkind : kinds[i]? = some (.transaction (some kind)))
      (harg : c.args[i]? = some (.transaction entry)) (hne : entry.txn.kind ≠ kind) :
      Refusal c kinds (.transactionKind i kind entry.txn.kind)
  | groupedTransaction {i : Nat} {entry : TxnEntry} (harg : c.args[i]? = some (.transaction entry))
      (hgroup : entry.txn.hasGroup) : Refusal c kinds .nonZeroGroup
  /-- The number of a reference does not fit its octet. -/
  | largeReference {x : Expansion} {i k : Nat} {r : Abi.Reference} {v : Abi.Value} (hx : c.expansion = .ok x)
      (harg : (carried kinds c.args)[i]? = some (.reference r, v)) (hvalue : x.values[i]? = some (.uint 8, .uint k))
      (hk : 255 < k) : Refusal c kinds (.abi (.outOfRange (.uint 8) k))
  | tooLong {n : Nat} (hn : UInt16.size ≤ n) : Refusal c kinds (.abi (.tooLong n))
  | unknownBox {x : Expansion} {box : AppBox} (hx : c.expansion = .ok x) (hbox : box ∈ c.boxes) (hzero : box.app ≠ 0)
      (hcalled : box.app ≠ c.app) (hforeign : box.app ∉ x.lists.apps) :
      Refusal c kinds (.transaction (.unknownBoxApp box.app))
  | window (h : c.params.lastValid < c.params.firstValid) :
      Refusal c kinds (.transaction (.window c.params.firstValid c.params.lastValid))
  | feeOverflow (hrate : c.params.flatFee = false) {t : Transaction}
      (ht : UInt64.size ≤ t.signedSize * c.params.fee.toNat) : Refusal c kinds (.transaction .feeOverflow)

theorem checkPrograms_eq_error {e : ComposerError} (h : c.checkPrograms = .error e) :
    ∃ rule, e = .programRule rule := by
  simp only [checkPrograms] at h
  split at h
  · -- A creation.
    split at h
    · cases h
    · exact ⟨_, (Except.error.inj h).symm⟩
  · split at h
    · -- An update.
      split at h
      · exact ⟨_, (Except.error.inj h).symm⟩
      · split at h
        · exact ⟨_, (Except.error.inj h).symm⟩
        · cases h
    · split at h
      · exact ⟨_, (Except.error.inj h).symm⟩
      · cases h

theorem Filled.admits_all (h : c.Filled kinds) (hlen : c.args.length = kinds.length) :
    List.Forall₂ Admits kinds c.args := by
  have hadmits := h.admits
  rwa [hlen, List.take_length] at hadmits

/-- The arguments of a call are refused when some are missing, for the programs, or for a misplaced transaction. -/
theorem Filled.refusal_of_expansion (h : c.Filled kinds) {e : ComposerError} (he : c.expansion = .error e) :
    Refusal c kinds e := by
  have hkinds := h.argKinds
  obtain he | ⟨kinds', hkinds', he⟩ := bind_eq_error.mp he
  · obtain ⟨e', he', -⟩ := mapError_eq_error.mp he
    cases he'.symm.trans hkinds
  · obtain rfl : kinds' = kinds := Except.ok.inj ((mapError_eq_ok.mp hkinds').symm.trans hkinds)
    by_cases hlen : c.args.length ≠ kinds'.length
    · simp only [if_pos hlen] at he
      cases he
      exact .argCount (Nat.lt_of_le_of_ne h.length_le hlen)
    · simp only [if_neg hlen] at he
      obtain hprograms | ⟨_, -, he⟩ := bind_eq_error.mp he
      · obtain ⟨rule, rfl⟩ := checkPrograms_eq_error hprograms
        exact .programs rule hprograms
      · have hcount : (c.method.args.map (·.type)).length = kinds'.length := by
          rw [List.length_map]
          exact (mapM_eq_ok.mp hkinds).length_eq
        have hnamed : ((c.method.args.map (·.type)).zip kinds').map (·.2) = kinds' :=
          List.map_snd_zip (Nat.le_of_eq hcount.symm)
        have hadmits : List.Forall₂ Admits (((c.method.args.map (·.type)).zip kinds').map (·.2)) c.args := by
          rw [hnamed]
          exact h.admits_all (not_not.mp hlen)
        have hmisplaced := misplaced_of_expandArgs hadmits he
        rw [hnamed] at hmisplaced
        cases hmisplaced with
        | @kind i _ _ hkind harg hne =>
          rw [Nat.zero_add]
          exact .transactionKind hkind harg hne
        | group harg hgroup => exact .groupedTransaction harg hgroup

/-- What the arguments have come to is refused for a number or a length, or for what the call is beside them. -/
theorem Filled.refusal_of_ofExpansion (h : c.Filled kinds) {x : Expansion} (hx : c.expansion = .ok x)
    {e : ComposerError} (he : c.ofExpansion x = .error e) : Refusal c kinds e := by
  obtain hargs | ⟨args, -, he⟩ := bind_eq_error.mp he
  · obtain ⟨e', rfl, ⟨p, hp, hencode⟩ | ⟨n, hn, rfl⟩⟩ := appArgs_refusal hargs
    · obtain ⟨named, hnamed, hlen, hexpand⟩ := expansion_eq_ok hx
      obtain rfl : named.map (·.2) = kinds := Except.ok.inj (hnamed.symm.trans h.argKinds)
      obtain ⟨-, hcarried, -⟩ := expandArgs_spec hlen hexpand
      obtain ⟨i, hi⟩ := List.mem_iff_getElem?.mp hp
      obtain ⟨a, ha, hcarry⟩ := exists_of_getElem?_left hcarried.flip hi
      have hadmits := admits_of_mem_carried (h.admits_all (by rw [hlen, List.length_map])) a (List.mem_of_getElem? ha)
      obtain ⟨n, hn, rfl⟩ | ⟨r, v, k, rfl, rfl, hk, rfl⟩ := hcarry.refusal hadmits hencode
      · exact .tooLong hn
      · exact .largeReference hx ha hi hk
    · exact .tooLong hn
  · obtain hdraft | ⟨draft, -, he⟩ := bind_eq_error.mp he
    · obtain ⟨e', hboxes, rfl⟩ := mapError_eq_error.mp hdraft
      obtain hboxes | ⟨_, -, hboxes⟩ := bind_eq_error.mp hboxes
      · obtain ⟨box, hbox, hresolve⟩ := exists_of_mapM_eq_error hboxes
        obtain ⟨hzero, hcalled, hforeign, rfl⟩ := AppBox.resolve_eq_error hresolve
        exact .unknownBox hx hbox hzero hcalled hforeign
      · cases hboxes
    · obtain hbuild | ⟨t, -, he⟩ := bind_eq_error.mp he
      · obtain ⟨e', hfailed, rfl⟩ := mapError_eq_error.mp hbuild
        obtain ⟨hwindow, rfl⟩ | ⟨hrate, ⟨t, ht⟩, rfl⟩ := TxnDraft.build_eq_error hfailed
        · exact .window hwindow
        · exact .feeOverflow hrate ht
      · cases he

theorem Filled.refusal_of_expand (h : c.Filled kinds) {e : ComposerError} (he : c.expand = .error e) :
    Refusal c kinds e := by
  rw [expand_eq] at he
  obtain he | ⟨x, hx, he⟩ := bind_eq_error.mp he
  · exact h.refusal_of_expansion he
  · exact h.refusal_of_ofExpansion hx he

/-- What is checked when an argument is supplied, and what is left to be refused afterwards. -/
structure CheckedOnce (c : MethodCall) (kinds : List Abi.ArgKind) : Prop where
  supply : ∀ s d, c.step (.supply s) = (d, none) → ∃ kind arg, kinds[c.args.length]? = some kind ∧ Accepts kind s arg ∧
    d = { c with args := c.args ++ [arg] }
  refuse : ∀ s d e, c.step (.supply s) = (d, some e) → d = c
  count : c.args.length ≤ kinds.length
  admitted : ∀ (i : Nat) (arg : ArgValue), c.args[i]? = some arg → ∃ kind, kinds[i]? = some kind ∧ Admits kind arg
  refusal : ∀ e, c.expand = .error e → Refusal c kinds e

theorem Filled.checkedOnce (h : c.Filled kinds) : CheckedOnce c kinds := by
  refine ⟨?_, ?_, h.length_le, ?_, fun e he => h.refusal_of_expand he⟩
  · intro s d hd
    obtain ⟨u, hs⟩ := after_eq_none.mp hd
    obtain ⟨kind, arg, hkind, haccepts, -, rfl⟩ := supply_eq_ok h.argKinds hs
    exact ⟨kind, arg, hkind, haccepts, rfl⟩
  · intro s d e hd
    exact atomic_supply s _ _ _ (after_eq_some.mp hd)
  · intro i arg harg
    obtain ⟨kind, hkind, hadmits⟩ := exists_of_getElem?_left h.admits.flip harg
    obtain ⟨hi, -⟩ := List.getElem?_eq_some_iff.mp harg
    rw [List.getElem?_take_of_lt hi] at hkind
    exact ⟨kind, hkind, hadmits⟩

/-- Arguments are checked once and for all. In whatever way they are supplied, accepted or refused, and whatever is set
beside them, the expansion of the call does not refuse a value for its place again. -/
theorem arguments_are_checked_once (hkinds : c.method.argKinds = .ok kinds) (hargs : c.args = [])
    (events : List CallEvent) : CheckedOnce (c.run events) kinds :=
  ((filled_of_fresh hkinds hargs).run events).checkedOnce

def paying : MethodCall where
  app := 7
  method := { name := "f", args := [{ type := "pay" }, { type := "asset" }, { type := "uint8" }] }
  sender := shortAddress 1
  params := { flatFee := true }
  signer := .logicSig { lsig := {} }

/-- Arguments for the call, three of which it refuses, and a note in between. -/
def payingEvents : List CallEvent :=
  [.supply (.value (.uint 1)), .supply (.transaction ⟨{ kind := .appCall }, paying.signer⟩), .supply (.json "6"),
    .configure { paying with note := [1] }, .supply (.value (.uint 300)), .supply (.value (.byte 3)),
    .supply (.json "true")]

theorem paying_checked_once :
    CheckedOnce (paying.run payingEvents) [.transaction (some .payment), .reference .asset, .value (.uint 8)] ∧
      (paying.run payingEvents).args.length = 3 ∧ (paying.run payingEvents).note = [1] ∧
      (paying.run payingEvents).expand = .error (.transactionKind 0 .payment .appCall) := by
  exact ⟨arguments_are_checked_once (by rfl) rfl payingEvents, by rfl, by rfl, by rfl⟩

end MethodCall

end AtomicGroup
