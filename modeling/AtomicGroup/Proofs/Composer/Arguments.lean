import AtomicGroup.Proofs.Composer.References

/-!
# A call carries all its arguments

The arguments of a method call part in two. Transactions go before the application call, as they are supplied; values
and references go into its arguments, each by itself while there is room, and otherwise the later ones in one tuple.
The called program, which knows the types, reads all of them again.
-/
namespace AtomicGroup.MethodCall

open Outcome

def EncodesTo (p : Abi.Ty × Abi.Value) (bs : Bytes) : Prop := p.1.encode p.2 = .ok bs

/-- The octets that values are carried in: up to fifteen stand alone, and of more than fifteen the first fourteen do,
with one tuple of the others behind them. What is read from the octets is what was carried. -/
structure CarriedIn (values : List (Abi.Ty × Abi.Value)) (encoded : List Bytes) : Prop where
  count : encoded.length = min values.length 15
  alone : values.length ≤ 15 → List.Forall₂ EncodesTo values encoded
  packed : 15 < values.length → ∃ front bs, encoded = front ++ [bs] ∧ List.Forall₂ EncodesTo (values.take 14) front ∧
    EncodesTo (.tuple ((values.drop 14).map (·.1)), .tuple ((values.drop 14).map (·.2))) bs
  read : readArgs (values.map (·.1)) encoded = .ok (values.map fun p => p.1.normalize p.2)

theorem carriedIn_of_packed {values : List (Abi.Ty × Abi.Value)} {encoded : List Bytes}
    (h : List.Forall₂ EncodesTo (packValues values) encoded) : CarriedIn values encoded := by
  have hread := readArgs_of_packed h
  by_cases hlen : values.length ≤ 15
  · rw [packValues_of_le hlen] at h
    refine ⟨?_, fun _ => h, fun hlt => absurd hlen (Nat.not_le.mpr hlt), hread⟩
    rw [← h.length_eq, Nat.min_eq_left hlen]
  · have hlt : 15 < values.length := Nat.not_le.mp hlen
    rw [packValues_of_lt hlt] at h
    have hfront := (List.forall₂_take_append _ _ _ h.flip).flip
    have hback := (List.forall₂_drop_append _ _ _ h.flip).flip
    obtain ⟨bs, rest, hbs, hrest, hdrop⟩ := List.forall₂_cons_left_iff.mp hback
    obtain rfl := List.forall₂_nil_left_iff.mp hrest
    refine ⟨?_, fun hle => absurd hle hlen, fun _ => ⟨_, bs, ?_, hfront, hbs⟩, hread⟩
    · have hcount := h.length_eq
      rw [List.length_append, List.length_take] at hcount
      simp only [maxAppArgs, List.length_singleton] at hcount
      omega
    · rw [← hdrop, List.take_append_drop]

/-- What a method call expands to: its transactions as they are supplied, and one application call that carries all its
other arguments behind the selector, each value as itself and each reference as a number that denotes it. -/
structure ExpandsTo (c : MethodCall) (before : List TxnEntry) (last : TxnEntry) : Prop where
  entries : before = c.args.filterMap ArgValue.entry?
  count : before.length + 1 = c.method.txnCount
  kind : last.txn.kind = .appCall
  signer : last.signer = c.signer
  args : ∃ kinds values encoded, c.method.argKinds = .ok kinds ∧ c.args.length = kinds.length ∧
    values.map (·.1) = kinds.filterMap Abi.ArgKind.carriedType? ∧
    List.Forall₂ (CarriedAs last.txn.foreignLists c.sender c.app) (carried kinds c.args) values ∧
    last.txn.appCall.args = c.method.selector :: encoded ∧ last.txn.appCall.args.length ≤ 16 ∧ CarriedIn values encoded

/-- A method call that expands has its transactions before one application call, which carries every other argument. -/
theorem expand_carries_every_argument {c : MethodCall} {before : List TxnEntry} {last : TxnEntry}
    (h : c.expand = .ok (before, last)) : ExpandsTo c before last := by
  have hcount := (expand_spec h).1
  rw [expand_eq] at h
  obtain ⟨x, hx, h⟩ := bind_eq_ok.mp h
  obtain ⟨named, hkinds, hlen, hexpand⟩ := expansion_eq_ok hx
  obtain ⟨-, hcarried, htypes⟩ := expandArgs_spec hlen hexpand
  obtain ⟨rfl, hsigner, hkind, -, -, args, boxes, hargs, -, hcall⟩ := ofExpansion_eq_ok h
  obtain ⟨encoded, rfl, hencoded⟩ := appArgs_eq_ok hargs
  have hlists : last.txn.foreignLists = x.lists := by
    rw [Transaction.foreignLists, hcall]
    rfl
  have hcallArgs : last.txn.appCall.args = c.method.selector :: encoded := congrArg (·.args) hcall
  have hcarriedIn := carriedIn_of_packed hencoded
  refine ⟨(entries_of_expandArgs hlen hexpand).1, hcount, hkind, hsigner, _, x.values, encoded, hkinds, ?_, htypes, ?_,
    hcallArgs, ?_, hcarriedIn⟩
  · rw [hlen, List.length_map]
  · rw [hlists]
    exact hcarried
  · rw [hcallArgs, List.length_cons, hcarriedIn.count]
    omega

/-- A call with a transaction, fourteen numbers and three arguments that share a tuple. -/
def crowded : MethodCall where
  app := 7
  method :=
    { name := "f"
      args := { type := "txn" } :: List.replicate 14 { type := "uint8" } ++
        [{ type := "account" }, { type := "bool" }, { type := "bool" }] }
  sender := shortAddress 1
  params := { flatFee := true }
  signer := .logicSig { lsig := {} }
  args := .transaction ⟨{}, .basic ⟨.zero 32⟩⟩ :: (List.range 14).map (fun i => .value (.uint i)) ++
    [.value (.address (shortAddress 2)), .value (.bool true), .value (.bool true)]

theorem crowded_carries : ∃ last, crowded.expand = .ok ([⟨{}, .basic ⟨.zero 32⟩⟩], last) ∧
    ExpandsTo crowded [⟨{}, .basic ⟨.zero 32⟩⟩] last ∧
    last.txn.appCall.args.tail =
      [[0], [1], [2], [3], [4], [5], [6], [7], [8], [9], [10], [11], [12], [13], [1, 192]] := by
  exact ⟨_, by rfl, expand_carries_every_argument (by rfl), by rfl⟩

end AtomicGroup.MethodCall
