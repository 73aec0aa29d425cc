import AtomicGroup.Composer.MethodCall
import AtomicGroup.Proofs.Outcome

/-!
# The lists that references point into

Referring to something appends it to a list of the call only where it is missing, and changes nothing else. What a
number denotes is therefore denoted by it for good: a number that was given out while the lists were still growing
means the same in the final lists.
-/
namespace AtomicGroup

open Outcome

/-- A list that has grown at its end, by distinct entries that it did not have. One value may be excluded from them. -/
def Grown {α : Type} (excluded : Option α) (old new : List α) : Prop :=
  ∃ more, new = old ++ more ∧ more.Nodup ∧ ∀ x ∈ more, x ∉ old ∧ excluded ≠ some x

section Grown

variable {α : Type} {excluded : Option α} {old mid new : List α}

theorem Grown.refl (excluded : Option α) (items : List α) : Grown excluded items items :=
  ⟨[], (List.append_nil items).symm, List.nodup_nil, nofun⟩

theorem Grown.trans (h : Grown excluded old mid) (h' : Grown excluded mid new) : Grown excluded old new := by
  obtain ⟨front, rfl, hfront, hnew⟩ := h
  obtain ⟨back, rfl, hback, hnew'⟩ := h'
  refine ⟨front ++ back, List.append_assoc _ _ _, ?_, ?_⟩
  · refine List.nodup_append.mpr ⟨hfront, hback, ?_⟩
    rintro x hx _ hy rfl
    exact (hnew' x hy).1 (List.mem_append_right _ hx)
  · intro x hx
    obtain hx | hx := List.mem_append.mp hx
    · exact hnew x hx
    · exact ⟨fun hold => (hnew' x hx).1 (List.mem_append_left _ hold), (hnew' x hx).2⟩

theorem Grown.getElem? (h : Grown excluded old new) {i : Nat} {x : α} (hi : old[i]? = some x) : new[i]? = some x := by
  obtain ⟨more, rfl, -, -⟩ := h
  rw [List.getElem?_append_left (List.getElem?_eq_some_iff.mp hi).1, hi]

variable [BEq α] [LawfulBEq α]

theorem getElem?_positionOf (item : α) (items : List α) :
    (positionOf item items).2[(positionOf item items).1]? = some item := by
  rw [positionOf]
  cases h : items.findIdx? (· == item) with
  | none => exact List.getElem?_concat_length
  | some i =>
    obtain ⟨hi, heq, -⟩ := List.findIdx?_eq_some_iff_getElem.mp h
    exact List.getElem?_eq_some_iff.mpr ⟨hi, eq_of_beq heq⟩

theorem grown_positionOf {item : α} (h : excluded ≠ some item) (items : List α) :
    Grown excluded items (positionOf item items).2 := by
  rw [positionOf]
  cases hfind : items.findIdx? (· == item) with
  | some i => exact .refl excluded items
  | none =>
    have hmissing : item ∉ items := by
      intro hmem
      have hne := List.findIdx?_eq_none_iff.mp hfind item hmem
      rw [beq_self_eq_true] at hne
      cases hne
    refine ⟨[item], rfl, by simp, ?_⟩
    intro x hx
    obtain rfl := List.mem_singleton.mp hx
    exact ⟨hmissing, h⟩

end Grown

namespace ForeignLists

/-- Lists that have grown. The sender needs no entry of its own, and neither does the called application. -/
structure Grown (sender : Address) (app : UInt64) (l l' : ForeignLists) : Prop where
  accounts : AtomicGroup.Grown (some sender) l.accounts l'.accounts
  apps : AtomicGroup.Grown (some app) l.apps l'.apps
  assets : AtomicGroup.Grown none l.assets l'.assets

/-- Whether a number stands for a value in the lists of a call. Accounts and applications are counted from one, number
zero being the sender and the called application; assets are counted from zero. -/
def Denotes (l : ForeignLists) (sender : Address) (app : UInt64) : Abi.Reference → Nat → Abi.Value → Prop
  | .account, k, v => ∃ account, v.address? = some account ∧ (k = 0 ↔ account = sender) ∧
      (k ≠ 0 → l.accounts[k - 1]? = some account)
  | .application, k, v => ∃ id, v.uint64? = some id ∧ (k = 0 ↔ id = app) ∧ (k ≠ 0 → l.apps[k - 1]? = some id)
  | .asset, k, v => ∃ id, v.uint64? = some id ∧ l.assets[k]? = some id

variable {sender : Address} {app : UInt64} {l l' l'' : ForeignLists} {r : Abi.Reference} {k : Nat} {v : Abi.Value}

theorem Grown.refl (sender : Address) (app : UInt64) (l : ForeignLists) : l.Grown sender app l :=
  ⟨.refl _ _, .refl _ _, .refl _ _⟩

theorem Grown.trans (h : l.Grown sender app l') (h' : l'.Grown sender app l'') : l.Grown sender app l'' :=
  ⟨h.accounts.trans h'.accounts, h.apps.trans h'.apps, h.assets.trans h'.assets⟩

/-- What a number denotes, it denotes in the grown lists. -/
theorem Denotes.mono (h : l.Denotes sender app r k v) (hl : l.Grown sender app l') : l'.Denotes sender app r k v := by
  cases r with
  | account =>
    obtain ⟨account, hv, hown, hother⟩ := h
    exact ⟨account, hv, hown, fun hk => hl.accounts.getElem? (hother hk)⟩
  | application =>
    obtain ⟨id, hv, hown, hother⟩ := h
    exact ⟨id, hv, hown, fun hk => hl.apps.getElem? (hother hk)⟩
  | asset =>
    obtain ⟨id, hv, hat⟩ := h
    exact ⟨id, hv, hl.assets.getElem? hat⟩

/-- One reference: the lists grow, and the number denotes what was referred to. -/
theorem refer_spec (h : l.refer sender app r v = some (k, l')) :
    l.Grown sender app l' ∧ l'.Denotes sender app r k v := by
  cases r with
  | account =>
    obtain ⟨account, hv, h⟩ := Option.bind_eq_some_iff.mp h
    by_cases hown : account = sender
    · rw [if_pos hown] at h
      cases h
      exact ⟨.refl sender app l, account, hv, by simp [hown], fun hk => absurd rfl hk⟩
    · rw [if_neg hown] at h
      cases h
      have hother : some sender ≠ some account := fun he => hown (Option.some.inj he).symm
      refine ⟨⟨grown_positionOf hother _, .refl _ _, .refl _ _⟩, account, hv, ?_, ?_⟩
      · simp [hown]
      · intro _
        rw [Nat.add_sub_cancel_left]
        exact getElem?_positionOf account l.accounts
  | application =>
    obtain ⟨id, hv, h⟩ := Option.bind_eq_some_iff.mp h
    by_cases hown : id = app
    · rw [if_pos hown] at h
      cases h
      exact ⟨.refl sender app l, id, hv, by simp [hown], fun hk => absurd rfl hk⟩
    · rw [if_neg hown] at h
      cases h
      have hother : some app ≠ some id := fun he => hown (Option.some.inj he).symm
      refine ⟨⟨.refl _ _, grown_positionOf hother _, .refl _ _⟩, id, hv, ?_, ?_⟩
      · simp [hown]
      · intro _
        rw [Nat.add_sub_cancel_left]
        exact getElem?_positionOf id l.apps
  | asset =>
    obtain ⟨id, hv, h⟩ := Option.bind_eq_some_iff.mp h
    have hgrown : AtomicGroup.Grown none l.assets (positionOf id l.assets).2 :=
      grown_positionOf (Option.some_ne_none id).symm _
    cases h
    exact ⟨⟨.refl _ _, .refl _ _, hgrown⟩, id, hv, getElem?_positionOf id l.assets⟩

end ForeignLists

/-- The type in which an argument is carried by the application call, if it is: a reference as the octet of a number. -/
def Abi.ArgKind.carriedType? : Abi.ArgKind → Option Abi.Ty
  | .value t => some t
  | .reference _ => some (.uint 8)
  | .transaction _ => none

namespace MethodCall

/-- The arguments that the application call itself carries, with their sorts. -/
def carried : List Abi.ArgKind → List ArgValue → List (Abi.ArgKind × Abi.Value)
  | kind :: kinds, .value v :: args => (kind, v) :: carried kinds args
  | _ :: kinds, .transaction _ :: args => carried kinds args
  | _, _ => []

/-- What an argument is carried as: a value as itself, a reference as a number that denotes what is referred to. -/
inductive CarriedAs (l : ForeignLists) (sender : Address) (app : UInt64) :
    Abi.ArgKind × Abi.Value → Abi.Ty × Abi.Value → Prop where
  | value (t : Abi.Ty) (v : Abi.Value) : CarriedAs l sender app (.value t, v) (t, v)
  | reference {r : Abi.Reference} {v : Abi.Value} {k : Nat} (h : l.Denotes sender app r k v) :
      CarriedAs l sender app (.reference r, v) (.uint 8, .uint k)

/-- All arguments, by induction on them: the lists grow, and in the final lists every number denotes what it was given
out for. -/
theorem expandArgs_spec {sender : Address} {app : UInt64} {kinds : List (String × Abi.ArgKind)} {args : List ArgValue}
    {index : Nat} {lists : ForeignLists} {x : Expansion} (hlen : args.length = kinds.length)
    (h : expandArgs sender app index lists kinds args = .ok x) :
    lists.Grown sender app x.lists ∧
      List.Forall₂ (CarriedAs x.lists sender app) (carried (kinds.map (·.2)) args) x.values ∧
      x.values.map (·.1) = (kinds.map (·.2)).filterMap Abi.ArgKind.carriedType? := by
  induction kinds generalizing args index lists x with
  | nil =>
    cases h
    exact ⟨.refl sender app lists, .nil, rfl⟩
  | cons k kinds ih =>
    obtain ⟨type, kind⟩ := k
    cases args with
    | nil => cases hlen
    | cons arg args =>
      have hrestlen : args.length = kinds.length := Nat.succ.inj hlen
      cases kind with
      | transaction expected =>
        cases arg with
        | value v => cases h
        | transaction entry =>
          obtain ⟨_, -, h⟩ := bind_eq_ok.mp h
          obtain ⟨rest, hrest, h⟩ := bind_eq_ok.mp h
          obtain rfl := pure_eq_ok.mp h
          obtain ⟨hmore, hcarried, htypes⟩ := ih hrestlen hrest
          exact ⟨hmore, hcarried, htypes⟩
      | reference r =>
        cases arg with
        | transaction entry => cases h
        | value v =>
          simp only [expandArgs] at h
          cases hr : lists.refer sender app r v with
          | none => rw [hr] at h; cases h
          | some found =>
            obtain ⟨k, grown⟩ := found
            rw [hr] at h
            obtain ⟨rest, hrest, h⟩ := bind_eq_ok.mp h
            obtain rfl := pure_eq_ok.mp h
            obtain ⟨hgrown, hdenotes⟩ := ForeignLists.refer_spec hr
            obtain ⟨hmore, hcarried, htypes⟩ := ih hrestlen hrest
            exact ⟨hgrown.trans hmore, .cons (.reference (hdenotes.mono hmore)) hcarried, congrArg (_ :: ·) htypes⟩
      | value t =>
        cases arg with
        | transaction entry => cases h
        | value v =>
          obtain ⟨rest, hrest, h⟩ := bind_eq_ok.mp h
          obtain rfl := pure_eq_ok.mp h
          obtain ⟨hmore, hcarried, htypes⟩ := ih hrestlen hrest
          exact ⟨hmore, .cons (.value t v) hcarried, congrArg (_ :: ·) htypes⟩

end MethodCall

end AtomicGroup
