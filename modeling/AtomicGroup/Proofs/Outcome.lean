import Mathlib.Data.List.Forall2

/-!
# Computations that may fail

What it takes for a computation to succeed, read off its shape: a sequence succeeds exactly when each of its
steps does, and `mapM` exactly when it succeeds on every item, which `List.Forall₂` says of the two lists. A list that is
read item by item fails as its first bad item does, which `FirstAt` names together with its position. A computation
with a state leaves one behind when it fails, too, and is `Atomic` when that is the one it began with.
-/
namespace AtomicGroup.Outcome

variable {ε ε' α β : Type}

@[simp] theorem bind_eq_ok {x : Except ε α} {f : α → Except ε β} {b : β} :
    x >>= f = .ok b ↔ ∃ a, x = .ok a ∧ f a = .ok b := by
  cases x <;> simp [bind, Except.bind]

@[simp] theorem pure_eq_ok {a b : α} : (pure a : Except ε α) = .ok b ↔ a = b := by
  simp [pure, Except.pure]

@[simp] theorem throw_ne_ok {e : ε} {a : α} : (throw e : Except ε α) ≠ .ok a := by
  simp [throw, throwThe, MonadExceptOf.throw]

@[simp] theorem map_eq_ok {x : Except ε α} {f : α → β} {b : β} :
    x.map f = .ok b ↔ ∃ a, x = .ok a ∧ f a = b := by
  cases x <;> simp [Except.map]

@[simp] theorem mapError_eq_ok {x : Except ε α} {f : ε → ε'} {a : α} :
    x.mapError f = .ok a ↔ x = .ok a := by
  cases x <;> simp [Except.mapError]

/-- A guarded computation succeeds exactly when the guard does not hold and the computation succeeds. -/
@[simp] theorem guard_eq_ok {p : Prop} [Decidable p] {e : ε} {a b : α} :
    (if p then throw e else pure a : Except ε α) = .ok b ↔ ¬p ∧ a = b := by
  by_cases h : p <;> simp [h]

theorem guard_bind_eq_ok {p : Prop} [Decidable p] {e : ε} {f : α → Except ε β} {x : Except ε β} {b : β} :
    (if p then throw e >>= f else x) = .ok b ↔ ¬p ∧ x = .ok b := by
  by_cases h : p <;> simp [h]

/-- A sequence fails as its first step does, or as the rest does after it. -/
theorem bind_eq_error {x : Except ε α} {f : α → Except ε β} {e : ε} :
    x >>= f = .error e ↔ x = .error e ∨ ∃ a, x = .ok a ∧ f a = .error e := by
  cases x <;> simp [bind, Except.bind]

theorem mapError_eq_error {x : Except ε α} {f : ε → ε'} {e : ε'} :
    x.mapError f = .error e ↔ ∃ e', x = .error e' ∧ f e' = e := by
  cases x <;> simp [Except.mapError]

theorem ok_bind (a : α) (f : α → Except ε β) : (Except.ok a >>= f) = f a := rfl

/-- Every item succeeds, and the results come in the order of the items. -/
theorem mapM_eq_ok {f : α → Except ε β} {xs : List α} {ys : List β} :
    xs.mapM f = .ok ys ↔ List.Forall₂ (fun x y => f x = .ok y) xs ys := by
  induction xs generalizing ys with
  | nil => cases ys <;> simp [List.mapM_nil]
  | cons x xs ih =>
    rw [List.mapM_cons, bind_eq_ok, List.forall₂_cons_left_iff]
    constructor
    · rintro ⟨y, hy, h⟩
      obtain ⟨zs, hzs, hp⟩ := bind_eq_ok.mp h
      exact ⟨y, zs, hy, ih.mp hzs, (pure_eq_ok.mp hp).symm⟩
    · rintro ⟨y, zs, hy, hzs, rfl⟩
      exact ⟨y, hy, bind_eq_ok.mpr ⟨zs, ih.mpr hzs, rfl⟩⟩

/-- The first item that fails decides how a list fails. -/
theorem mapM_eq_error {f : α → Except ε β} {front back : List α} {x : α} {e : ε}
    (hfront : ∀ y ∈ front, ∃ z, f y = .ok z) (hx : f x = .error e) : (front ++ x :: back).mapM f = .error e := by
  induction front with
  | nil =>
    rw [List.nil_append, List.mapM_cons, hx]
    rfl
  | cons y front ih =>
    obtain ⟨⟨z, hz⟩, hrest⟩ := List.forall_mem_cons.mp hfront
    rw [List.cons_append, List.mapM_cons, hz, ok_bind, ih hrest]
    rfl

/-- A list fails as one of its items does. -/
theorem exists_of_mapM_eq_error {f : α → Except ε β} {xs : List α} {e : ε} (h : xs.mapM f = .error e) :
    ∃ x ∈ xs, f x = .error e := by
  induction xs with
  | nil => cases h
  | cons x xs ih =>
    rw [List.mapM_cons] at h
    obtain hx | ⟨_, -, h⟩ := bind_eq_error.mp h
    · exact ⟨x, List.mem_cons_self, hx⟩
    · obtain hrest | ⟨_, -, h⟩ := bind_eq_error.mp h
      · obtain ⟨y, hy, he⟩ := ih hrest
        exact ⟨y, List.mem_cons_of_mem x hy, he⟩
      · cases h

/-- All items succeed exactly when each of them does. -/
theorem exists_mapM_eq_ok_iff {f : α → Except ε β} {xs : List α} :
    (∃ ys, xs.mapM f = .ok ys) ↔ ∀ x ∈ xs, ∃ y, f x = .ok y := by
  induction xs with
  | nil => simp [List.mapM_nil]
  | cons x xs ih =>
    simp only [List.mapM_cons, bind_eq_ok, pure_eq_ok, List.forall_mem_cons, ← ih]
    constructor
    · rintro ⟨_, y, hy, ys, hys, -⟩
      exact ⟨⟨y, hy⟩, ys, hys⟩
    · rintro ⟨⟨y, hy⟩, ys, hys⟩
      exact ⟨_, y, hy, ys, hys, rfl⟩

theorem exists_of_mem_right {R : α → β → Prop} {xs : List α} {ys : List β} (h : List.Forall₂ R xs ys) {y : β}
    (hy : y ∈ ys) : ∃ x ∈ xs, R x y := by
  obtain ⟨i, hi, rfl⟩ := List.getElem_of_mem hy
  have hlen := h.length_eq
  exact ⟨xs[i], List.getElem_mem _, h.get (by omega) hi⟩

theorem exists_of_getElem?_left {R : α → β → Prop} {xs : List α} {ys : List β} (h : List.Forall₂ R xs ys) {i : Nat}
    {x : α} (hx : xs[i]? = some x) : ∃ y, ys[i]? = some y ∧ R x y := by
  obtain ⟨hi, rfl⟩ := List.getElem?_eq_some_iff.mp hx
  have hlen := h.length_eq
  exact ⟨ys[i], List.getElem?_eq_getElem (by omega), h.get hi (by omega)⟩

/-- Two relations one after the other hold of two lists when there is a list in between. -/
theorem forall₂_comp_iff {γ : Type} {R : α → β → Prop} {S : β → γ → Prop} {xs : List α} {zs : List γ} :
    List.Forall₂ (fun x z => ∃ y, R x y ∧ S y z) xs zs ↔ ∃ ys, List.Forall₂ R xs ys ∧ List.Forall₂ S ys zs := by
  constructor
  · intro h
    induction h with
    | nil => exact ⟨[], .nil, .nil⟩
    | cons hxz _ ih =>
      obtain ⟨y, hxy, hyz⟩ := hxz
      obtain ⟨ys, hxs, hzs⟩ := ih
      exact ⟨y :: ys, .cons hxy hxs, .cons hyz hzs⟩
  · rintro ⟨ys, hxs, hzs⟩
    induction hxs generalizing zs with
    | nil =>
      cases hzs
      exact .nil
    | cons hxy _ ih =>
      cases hzs with
      | cons hyz htail => exact .cons ⟨_, hxy, hyz⟩ (ih htail)

section State

variable {σ : Type}

/-- The state that a computation leaves, and its failure, if it fails. -/
def after (x : EStateM ε σ α) (s : σ) : σ × Option ε :=
  match x.run s with
  | .ok _ t => (t, none)
  | .error e t => (t, some e)

theorem after_eq_none {x : EStateM ε σ α} {s t : σ} : after x s = (t, none) ↔ ∃ a, x.run s = .ok a t := by
  unfold after
  cases x.run s <;> simp

theorem after_eq_some {x : EStateM ε σ α} {s t : σ} {e : ε} : after x s = (t, some e) ↔ x.run s = .error e t := by
  unfold after
  cases x.run s <;> simp [and_comm]

/-- A computation that leaves the state as it was when it fails. -/
def Atomic (x : EStateM ε σ α) : Prop := ∀ s e t, x.run s = .error e t → t = s

theorem run_ofExcept (r : Except ε α) (s : σ) : (MonadExcept.ofExcept r : EStateM ε σ α).run s =
    match r with
    | .ok a => .ok a s
    | .error e => .error e s := by
  cases r <;> rfl

theorem Atomic.of_cases {x : EStateM ε σ α}
    (h : ∀ s, (∃ e, x.run s = .error e s) ∨ ∃ a t, x.run s = .ok a t) : Atomic x := by
  intro s e t ht
  obtain ⟨e', hs⟩ | ⟨a, s', hs⟩ := h s
  · cases hs.symm.trans ht
    rfl
  · cases hs.symm.trans ht

/-- What holds before an atomic computation and after each success holds of the state that is left. -/
theorem Atomic.after {x : EStateM ε σ α} (hx : Atomic x) {P : σ → Prop} {s : σ} (same : P s)
    (ok : ∀ a t, x.run s = .ok a t → P t) : P (Outcome.after x s).1 := by
  unfold Outcome.after
  cases h : x.run s with
  | ok a t => exact ok a t h
  | error e t => rwa [hx s e t h]

end State

structure FirstAt (p : α → Prop) (xs : List α) (i : Nat) (x : α) : Prop where
  getElem?_eq : xs[i]? = some x
  holds : p x
  not_before : ∀ j y, j < i → xs[j]? = some y → ¬p y

section FirstAt

variable {p : α → Prop} {x y : α} {xs : List α} {i : Nat}

theorem not_firstAt_nil : ¬FirstAt p [] i y := fun h => by simpa using h.getElem?_eq

theorem firstAt_cons_of_pos (hx : p x) : FirstAt p (x :: xs) i y ↔ i = 0 ∧ y = x := by
  constructor
  · intro h
    cases i with
    | zero => exact ⟨rfl, (Option.some.inj h.getElem?_eq).symm⟩
    | succ i => exact absurd hx (h.not_before 0 x (Nat.succ_pos i) rfl)
  · rintro ⟨rfl, rfl⟩
    exact ⟨rfl, hx, fun _ _ hj => absurd hj (Nat.not_lt_zero _)⟩

theorem firstAt_cons_of_neg (hx : ¬p x) : FirstAt p (x :: xs) i y ↔ ∃ j, i = j + 1 ∧ FirstAt p xs j y := by
  constructor
  · intro h
    cases i with
    | zero =>
      obtain rfl := Option.some.inj h.getElem?_eq
      exact absurd h.holds hx
    | succ i => exact ⟨i, rfl, h.getElem?_eq, h.holds, fun j z hj => h.not_before (j + 1) z (Nat.succ_lt_succ hj)⟩
  · rintro ⟨j, rfl, hget, hy, hbefore⟩
    refine ⟨hget, hy, fun k z hk hz => ?_⟩
    cases k with
    | zero => rwa [← Option.some.inj hz]
    | succ k => exact hbefore k z (Nat.lt_of_succ_lt_succ hk) hz

theorem exists_firstAt (hmem : x ∈ xs) (hx : p x) : ∃ i y, FirstAt p xs i y := by
  induction xs with
  | nil => cases hmem
  | cons z xs ih =>
    by_cases hz : p z
    · exact ⟨0, z, (firstAt_cons_of_pos hz).mpr ⟨rfl, rfl⟩⟩
    · have hrest : x ∈ xs := (List.mem_cons.mp hmem).resolve_left fun h => hz (h ▸ hx)
      obtain ⟨i, y, hfirst⟩ := ih hrest
      exact ⟨i + 1, y, (firstAt_cons_of_neg hz).mpr ⟨i, rfl, hfirst⟩⟩

end FirstAt

end AtomicGroup.Outcome
