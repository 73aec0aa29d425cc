import AtomicGroup.Proofs.Composer.Expansion
import AtomicGroup.Proofs.Composer.ForeignLists
import AtomicGroup.Proofs.Composer.Packing

/-!
# References name what the caller meant

A method call becomes an application call in which every reference is a number. Read against the lists that the call
ends up with, every number denotes what the caller referred to, and so does the position of every box; the caller's own
entries stay where they were. A number that does not fit its octet is an error.
-/
namespace AtomicGroup

open Outcome

def Transaction.foreignLists (t : Transaction) : ForeignLists :=
  ⟨t.appCall.accounts, t.appCall.foreignApps, t.appCall.foreignAssets⟩

/-- Whether a box of a call is a box that is named by its application: position zero stands for the called application,
which a box may also name by zero, and the others are counted from one. -/
structure BoxReference.Names (t : Transaction) (box : AppBox) (ref : BoxReference) : Prop where
  name : ref.name = box.name
  own : ref.app = 0 ↔ box.app = 0 ∨ box.app = t.appCall.app
  other : ref.app ≠ 0 → t.appCall.foreignApps[ref.app.toNat - 1]? = some box.app

theorem AppBox.names_of_resolve {t : Transaction} {box : AppBox} {ref : BoxReference}
    (hsize : t.appCall.foreignApps.length < UInt64.size)
    (h : box.resolve t.appCall.foreignApps t.appCall.app = .ok ref) : ref.Names t box := by
  rw [resolve] at h
  by_cases hown : box.app = 0 ∨ box.app = t.appCall.app
  · rw [if_pos hown] at h
    cases h
    exact ⟨rfl, by simp [hown], fun hne => absurd rfl hne⟩
  · rw [if_neg hown] at h
    cases hfind : t.appCall.foreignApps.findIdx? (· == box.app) with
    | none => rw [hfind] at h; cases h
    | some i =>
      rw [hfind] at h
      cases h
      obtain ⟨hi, heq, -⟩ := List.findIdx?_eq_some_iff_getElem.mp hfind
      have hnat : (UInt64.ofNat (i + 1)).toNat = i + 1 := UInt64.toNat_ofNat_of_lt' (by omega)
      have hne : UInt64.ofNat (i + 1) ≠ 0 := by
        intro hzero
        rw [hzero] at hnat
        cases hnat
      refine ⟨rfl, iff_of_false hne hown, fun _ => ?_⟩
      rw [hnat, Nat.add_sub_cancel]
      exact List.getElem?_eq_some_iff.mpr ⟨hi, eq_of_beq heq⟩

namespace MethodCall

/-- The lists that a call comes to hold the caller's entries at their places, and every reference is carried as a
number that denotes what it refers to. -/
theorem expansion_spec {c : MethodCall} {x : Expansion} (h : c.expansion = .ok x) :
    ∃ kinds, c.method.argKinds = .ok kinds ∧
      ForeignLists.Grown c.sender c.app ⟨c.accounts, c.foreignApps, c.foreignAssets⟩ x.lists ∧
      List.Forall₂ (CarriedAs x.lists c.sender c.app) (carried kinds c.args) x.values ∧
      x.values.map (·.1) = kinds.filterMap Abi.ArgKind.carriedType? := by
  obtain ⟨named, hkinds, hlen, h⟩ := expansion_eq_ok h
  exact ⟨_, hkinds, expandArgs_spec hlen h⟩

/-- What the called program reads for a carried argument: the value itself, or a number that denotes in the call what
the caller referred to. -/
inductive ReadAs (t : Transaction) : Abi.ArgKind × Abi.Value → Abi.Value → Prop where
  | value (ty : Abi.Ty) (v : Abi.Value) : ReadAs t (.value ty, v) (ty.normalize v)
  | reference {r : Abi.Reference} {v : Abi.Value} {k : Nat} (hk : k < 256)
      (h : t.foreignLists.Denotes t.header.sender t.appCall.app r k v) : ReadAs t (.reference r, v) (.uint k)

/-- What makes an application call carry what a method call asks for. -/
structure Conveys (c : MethodCall) (kinds : List Abi.ArgKind) (t : Transaction) : Prop where
  sender : t.header.sender = c.sender
  app : t.appCall.app = c.app
  args : ∃ encoded values, t.appCall.args = c.method.selector :: encoded ∧
    readArgs (kinds.filterMap Abi.ArgKind.carriedType?) encoded = .ok values ∧
    List.Forall₂ (ReadAs t) (carried kinds c.args) values
  boxes : t.appCall.foreignApps.length < UInt64.size →
    List.Forall₂ (fun box ref => BoxReference.Names t box ref) c.boxes t.appCall.boxes
  accounts : Grown (some c.sender) c.accounts t.appCall.accounts
  apps : Grown (some c.app) c.foreignApps t.appCall.foreignApps
  assets : Grown none c.foreignAssets t.appCall.foreignAssets

theorem encode_of_large {k : Nat} (hk : 255 < k) :
    (Abi.Ty.uint 8).encode (.uint k) = .error (.outOfRange (.uint 8) k) :=
  if_neg (Nat.not_lt.mpr hk)

/-- A carried argument that has an encoding is read back; a number that has one fits its octet. -/
theorem CarriedAs.readAs {t : Transaction} {a : Abi.ArgKind × Abi.Value} {p : Abi.Ty × Abi.Value}
    (h : CarriedAs t.foreignLists t.header.sender t.appCall.app a p) (he : HasEncoding p) :
    ReadAs t a (p.1.normalize p.2) := by
  cases h with
  | value ty v => exact .value ty v
  | @reference r v k hdenotes =>
    refine .reference ?_ hdenotes
    by_contra hk
    obtain ⟨bs, hbs⟩ := he
    cases (encode_of_large (Nat.not_lt.mp hk)).symm.trans hbs

theorem conveys_of_expand {c : MethodCall} {before : List TxnEntry} {last : TxnEntry}
    (h : c.expand = .ok (before, last)) : ∃ kinds, c.method.argKinds = .ok kinds ∧ Conveys c kinds last.txn := by
  rw [expand_eq] at h
  obtain ⟨x, hx, h⟩ := bind_eq_ok.mp h
  obtain ⟨kinds, hkinds, hgrown, hcarried, htypes⟩ := expansion_spec hx
  obtain ⟨-, -, -, hsender, -, args, boxes, hargs, hboxes, hcall⟩ := ofExpansion_eq_ok h
  obtain ⟨encoded, rfl, hencoded⟩ := appArgs_eq_ok hargs
  have happ : last.txn.appCall.app = c.app := congrArg (·.app) hcall
  have hlists : last.txn.foreignLists = x.lists := by
    rw [Transaction.foreignLists, hcall]
    rfl
  have hresolved : List.Forall₂ (fun box ref => box.resolve last.txn.appCall.foreignApps last.txn.appCall.app = .ok ref)
      c.boxes last.txn.appCall.boxes := by
    rw [hcall]
    exact mapM_eq_ok.mp hboxes
  have hall := hasEncoding_of_packed hencoded
  have hread := readArgs_of_packed hencoded
  rw [← hlists] at hgrown hcarried
  rw [← hsender, ← happ] at hcarried
  rw [htypes] at hread
  have hcallArgs : last.txn.appCall.args = c.method.selector :: encoded := congrArg (·.args) hcall
  refine ⟨kinds, hkinds, hsender, happ, ⟨encoded, _, hcallArgs, hread, ?_⟩, ?_, hgrown.accounts, hgrown.apps,
    hgrown.assets⟩
  · rw [List.forall₂_map_right_iff]
    have hboth := (List.forall₂_and_left _ _).mpr ⟨hall, hcarried.flip⟩
    exact hboth.flip.imp fun _ _ h => CarriedAs.readAs h.2 h.1
  · exact fun hsize => hresolved.imp fun _ _ hbox => AppBox.names_of_resolve hsize hbox

/-- A number that does not fit its octet is an error: that of the number, unless an argument before it fails. -/
theorem expand_of_large {c : MethodCall} {x : Expansion} {front back : List (Abi.Ty × Abi.Value)} {k : Nat}
    (hx : c.expansion = .ok x) (hvalues : x.values = front ++ (.uint 8, .uint k) :: back) (hk : 255 < k) :
    (∃ e, c.expand = .error e) ∧
      ((∀ p ∈ front, HasEncoding p) → c.expand = .error (.abi (.outOfRange (.uint 8) k))) := by
  constructor
  · cases hexpand : c.expand with
    | error e => exact ⟨e, rfl⟩
    | ok entries =>
      obtain ⟨before, last⟩ := entries
      rw [expand_eq, hx, ok_bind] at hexpand
      obtain ⟨-, -, -, -, -, args, -, hargs, -⟩ := ofExpansion_eq_ok hexpand
      obtain ⟨encoded, -, hencoded⟩ := appArgs_eq_ok hargs
      have hmem : (.uint 8, .uint k) ∈ x.values := hvalues ▸ List.mem_append_right _ List.mem_cons_self
      obtain ⟨bs, hbs⟩ := hasEncoding_of_packed hencoded _ hmem
      cases (encode_of_large hk).symm.trans hbs
  · intro hfront
    rw [expand_eq, hx, ok_bind, ofExpansion, hvalues, appArgs_eq_error hfront (encode_of_large hk)]
    rfl

/-- References name what the caller meant. A method call that expands becomes an application call which conveys it.
Whatever its arguments come to, each reference is carried as a number that denotes what it refers to in the lists of the
call, and where such a number exceeds an octet, the call does not expand. -/
theorem references_name_what_was_meant (c : MethodCall) :
    (∀ before last, c.expand = .ok (before, last) →
      ∃ kinds, c.method.argKinds = .ok kinds ∧ Conveys c kinds last.txn) ∧
    (∀ x, c.expansion = .ok x →
      (∃ kinds, c.method.argKinds = .ok kinds ∧
        List.Forall₂ (CarriedAs x.lists c.sender c.app) (carried kinds c.args) x.values) ∧
      ∀ front k back, x.values = front ++ (.uint 8, .uint k) :: back → 255 < k →
        (∃ e, c.expand = .error e) ∧
          ((∀ p ∈ front, HasEncoding p) → c.expand = .error (.abi (.outOfRange (.uint 8) k)))) := by
  refine ⟨fun before last => conveys_of_expand, fun x hx => ⟨?_, fun front k back => expand_of_large hx⟩⟩
  obtain ⟨kinds, hkinds, -, hcarried, -⟩ := expansion_spec hx
  exact ⟨kinds, hkinds, hcarried⟩

def shortAddress (n : UInt8) : Address := ⟨⟨n :: List.replicate 31 0, rfl⟩⟩

/-- A call with references of all sorts: to what it has, to what it lacks, and to its own sender and application. -/
def referring : MethodCall where
  app := 7
  method :=
    { name := "f"
      args := [{ type := "account" }, { type := "application" }, { type := "uint16" }, { type := "asset" },
        { type := "account" }, { type := "application" }, { type := "account" }] }
  sender := shortAddress 1
  params := { flatFee := true }
  signer := .logicSig { lsig := {} }
  accounts := [shortAddress 2, shortAddress 2]
  foreignApps := [9]
  foreignAssets := [5, 6]
  boxes := [⟨0, [1]⟩, ⟨11, [2]⟩, ⟨7, []⟩]
  args := [.value (.address (shortAddress 3)), .value (.uint 11), .value (.uint 300), .value (.uint 6),
    .value (.address (shortAddress 1)), .value (.uint 7), .value (.address (shortAddress 2))]

def referringBeside (assets : List UInt64) : MethodCall :=
  { referring with
    method := { name := "f", args := [{ type := "asset" }] }
    foreignAssets := assets
    args := [.value (.uint 6)] }

theorem expansion_referringBeside (assets : List UInt64) : (referringBeside assets).expansion =
    .ok ⟨⟨referring.accounts, referring.foreignApps, (positionOf 6 assets).2⟩, [],
      [(.uint 8, .uint (positionOf 6 assets).1)]⟩ := by
  rfl

theorem referring_named : ∃ last, referring.expand = .ok ([], last) ∧
    (∃ kinds, referring.method.argKinds = .ok kinds ∧ Conveys referring kinds last.txn) ∧
    last.txn.appCall.args.tail = [[3], [2], [1, 44], [1], [0], [0], [1]] ∧
    last.txn.foreignLists = ⟨[shortAddress 2, shortAddress 2, shortAddress 3], [9, 11], [5, 6]⟩ ∧
    last.txn.appCall.boxes = [⟨0, [1]⟩, ⟨2, [2]⟩, ⟨0, []⟩] ∧
    (referringBeside (List.replicate 256 5)).expand = .error (.abi (.outOfRange (.uint 8) 256)) := by
  refine ⟨_, by rfl, (references_name_what_was_meant referring).1 _ _ (by rfl), by rfl, by rfl, by rfl, ?_⟩
  have hposition : (positionOf 6 (List.replicate 256 (5 : UInt64))).1 = 256 := by decide +kernel
  have hexpansion := expansion_referringBeside (List.replicate 256 5)
  rw [hposition] at hexpansion
  obtain ⟨-, hlarge⟩ := (references_name_what_was_meant _).2 _ hexpansion
  exact (hlarge [] 256 [] rfl (by decide)).2 nofun

end MethodCall

end AtomicGroup
