import AtomicGroup.Composer.Basic
import Mathlib.Data.List.Basic
import Mathlib.Data.List.Induction

/-!
# The requests of a group

`Asks` says what the requests for a list of signers are: one for each authority, made to the signer that comes first,
in the order of these first places, and for all places of the authority in ascending order. The induction is on the
list of signers from its end, as `Composer.requests` goes through it.
-/
namespace AtomicGroup

namespace Signer

@[simp] theorem same_refl (s : Signer) : s.same s = true := by
  cases s <;> simp [same, ExternalSigner.same]

/-- Signers among which to hold one authority is mutual, and carries over from signer to signer. What signers outside
make of one another need be neither. -/
structure Coherent (signers : List Signer) : Prop where
  symm : ∀ a ∈ signers, ∀ b ∈ signers, a.same b → b.same a
  trans : ∀ a ∈ signers, ∀ b ∈ signers, ∀ d ∈ signers, a.same b → b.same d → a.same d

theorem Coherent.of_append {signers more : List Signer} (h : Coherent (signers ++ more)) : Coherent signers where
  symm a ha b hb := h.symm a (List.mem_append_left _ ha) b (List.mem_append_left _ hb)
  trans a ha b hb d hd :=
    h.trans a (List.mem_append_left _ ha) b (List.mem_append_left _ hb) d (List.mem_append_left _ hd)

end Signer

namespace Composer

structure Asks (signers : List Signer) (all : List SignRequest) : Prop where
  /-- A request is for the places of its own authority. -/
  own : ∀ r ∈ all, ∀ i, i ∈ r.indexes ↔ ∃ s, signers[i]? = some s ∧ r.signer.same s
  ascending : ∀ r ∈ all, r.indexes.Pairwise (· < ·)
  /-- A request goes to the signer at its first place. -/
  first : ∀ r ∈ all, ∃ i, r.indexes.head? = some i ∧ signers[i]? = some r.signer
  distinct : all.Pairwise fun a b => a.signer.same b.signer = false
  order : all.Pairwise fun a b => ∀ i ∈ a.indexes.head?, ∀ j ∈ b.indexes.head?, i < j
  /-- Every place is in one request, once. -/
  once : (all.flatMap (·.indexes)).Perm (List.range signers.length)

theorem requests_append (signers : List Signer) (s : Signer) :
    requests (signers ++ [s]) = addRequest s signers.length (requests signers) := by
  simp [requests, List.zipIdx_append]

theorem perm_addRequest (s : Signer) (n : Nat) (rs : List SignRequest) :
    ((addRequest s n rs).flatMap (·.indexes)).Perm (rs.flatMap (·.indexes) ++ [n]) := by
  induction rs with
  | nil => simp [addRequest]
  | cons r rs ih =>
    unfold addRequest
    split
    · simp only [List.flatMap_cons, List.append_assoc]
      exact List.Perm.append_left _ List.perm_append_comm
    · simp only [List.flatMap_cons, List.append_assoc]
      exact List.Perm.append_left _ ih

/-- The requests for any signers partition their places. -/
theorem perm_requests (signers : List Signer) :
    ((requests signers).flatMap (·.indexes)).Perm (List.range signers.length) := by
  induction signers using List.reverseRecOn with
  | nil => simp [requests]
  | append_singleton signers s ih =>
    rw [requests_append, List.length_append, List.length_singleton, List.range_succ]
    exact (perm_addRequest s signers.length _).trans (ih.append_right _)

/-- A request with a place added if it is one of the same authority. -/
def extendFor (s : Signer) (n : Nat) (r : SignRequest) : SignRequest :=
  if r.signer.same s then { r with indexes := r.indexes ++ [n] } else r

@[simp] theorem signer_extendFor (s : Signer) (n : Nat) (r : SignRequest) :
    (extendFor s n r).signer = r.signer := by
  unfold extendFor
  split <;> rfl

theorem indexes_extendFor_of_same {s : Signer} {n : Nat} {r : SignRequest} (h : r.signer.same s) :
    (extendFor s n r).indexes = r.indexes ++ [n] := by
  simp [extendFor, h]

theorem extendFor_of_not_same {s : Signer} {n : Nat} {r : SignRequest} (h : r.signer.same s = false) :
    extendFor s n r = r := by
  simp [extendFor, h]

theorem head?_extendFor {s : Signer} {n i : Nat} {r : SignRequest} (h : r.indexes.head? = some i) :
    (extendFor s n r).indexes.head? = some i := by
  unfold extendFor
  split
  · simp [h]
  · exact h

/-- A signer of a new authority is asked last. -/
theorem addRequest_of_new {s : Signer} {n : Nat} {rs : List SignRequest}
    (h : ∀ r ∈ rs, r.signer.same s = false) : addRequest s n rs = rs ++ [⟨s, [n]⟩] := by
  induction rs with
  | nil => rfl
  | cons r rs ih =>
    have hr := h r List.mem_cons_self
    simp only [addRequest, hr, Bool.false_eq_true, if_false, List.cons_append,
      ih fun q hq => h q (List.mem_cons_of_mem _ hq)]

/-- When no two requests are of one authority with the signer, the one of its authority takes its place. -/
theorem addRequest_of_known {s : Signer} {n : Nat} {rs : List SignRequest} (hs : ∃ r ∈ rs, r.signer.same s)
    (one : rs.Pairwise fun a b => a.signer.same s → b.signer.same s = false) :
    addRequest s n rs = rs.map (extendFor s n) := by
  induction rs with
  | nil => simp at hs
  | cons r rs ih =>
    obtain ⟨hr, hrest⟩ := List.pairwise_cons.mp one
    by_cases h : r.signer.same s
    · have hsame : rs.map (extendFor s n) = rs := by
        conv_rhs => rw [← List.map_id rs]
        exact List.map_congr_left fun q hq => extendFor_of_not_same (hr q hq h)
      simp only [addRequest, h, if_true, List.map_cons, hsame]
      simp [extendFor, h]
    · obtain ⟨q, hq, hqs⟩ := hs
      rcases List.mem_cons.mp hq with rfl | hq
      · exact absurd hqs h
      · rw [List.map_cons, extendFor_of_not_same (by simpa using h), ← ih ⟨q, hq, hqs⟩ hrest]
        simp only [addRequest, h, Bool.false_eq_true, if_false]

section Steps

variable {signers : List Signer} {s : Signer} {all : List SignRequest}

theorem Asks.signer_mem (h : Asks signers all) {r : SignRequest} (hr : r ∈ all) : r.signer ∈ signers := by
  obtain ⟨i, -, hi⟩ := h.first r hr
  exact List.mem_of_getElem? hi

/-- Every place is of the authority of some request. -/
theorem Asks.covers (h : Asks signers all) {i : Nat} {u : Signer} (hu : signers[i]? = some u) :
    ∃ r ∈ all, r.signer.same u := by
  have hi : i < signers.length := by
    by_contra hn
    rw [List.getElem?_eq_none (Nat.not_lt.mp hn)] at hu
    cases hu
  have hmem : i ∈ all.flatMap (·.indexes) := h.once.mem_iff.mpr (List.mem_range.mpr hi)
  obtain ⟨r, hr, hir⟩ := List.mem_flatMap.mp hmem
  obtain ⟨u', hu', hs⟩ := (h.own r hr i).mp hir
  rw [hu] at hu'
  cases hu'
  exact ⟨r, hr, hs⟩

theorem Asks.lt_length (h : Asks signers all) {r : SignRequest} (hr : r ∈ all) {i : Nat} (hi : i ∈ r.indexes) :
    i < signers.length :=
  List.mem_range.mp (h.once.mem_iff.mp (List.mem_flatMap.mpr ⟨r, hr, hi⟩))

/-- What the place past the end of a list of signers adds to a request. -/
theorem mem_append_iff {r : SignRequest} {i : Nat}
    (h : ∀ i, i ∈ r.indexes ↔ ∃ u, signers[i]? = some u ∧ r.signer.same u) :
    (∃ u, (signers ++ [s])[i]? = some u ∧ r.signer.same u) ↔
      i ∈ r.indexes ∨ (i = signers.length ∧ r.signer.same s) := by
  rw [h]
  rcases Nat.lt_trichotomy i signers.length with hi | rfl | hi
  · rw [List.getElem?_append_left hi]
    simp [Nat.ne_of_lt hi]
  · simp
  · rw [List.getElem?_eq_none (by simp; omega), List.getElem?_eq_none (Nat.le_of_lt hi)]
    simp
    omega

theorem asks_nil : Asks [] [] := by
  refine ⟨?_, ?_, ?_, .nil, .nil, .refl _⟩ <;> intro r hr <;> cases hr

/-- A request that keeps its place in front of the new end of the list. -/
theorem Asks.first_append (h : Asks signers all) {r : SignRequest} (hr : r ∈ all) :
    ∃ i, r.indexes.head? = some i ∧ (signers ++ [s])[i]? = some r.signer := by
  obtain ⟨i, hi, hs⟩ := h.first r hr
  refine ⟨i, hi, ?_⟩
  rw [List.getElem?_append_left (h.lt_length hr (List.mem_of_mem_head? (by simp [hi])))]
  exact hs

/-- A signer of an authority that no request is of yet has a request of its own. -/
theorem asks_append_new (h : Asks signers all) (hc : Signer.Coherent (signers ++ [s]))
    (hnew : ∀ r ∈ all, r.signer.same s = false) :
    Asks (signers ++ [s]) (all ++ [⟨s, [signers.length]⟩]) := by
  have hs : s ∈ signers ++ [s] := List.mem_append_right _ (List.mem_singleton.mpr rfl)
  -- An earlier place of this authority is in a request, which would then be of this authority too.
  have hown : ∀ i, i ∈ ([] : List Nat) ↔ ∃ u, signers[i]? = some u ∧ s.same u := by
    intro i
    refine ⟨nofun, ?_⟩
    rintro ⟨u, hu, hsu⟩
    obtain ⟨r, hr, hru⟩ := h.covers hu
    have hum : u ∈ signers ++ [s] := List.mem_append_left _ (List.mem_of_getElem? hu)
    have hrs := hc.trans r.signer (List.mem_append_left _ (h.signer_mem hr)) u hum s hs hru (hc.symm s hs u hum hsu)
    rw [hnew r hr] at hrs
    cases hrs
  refine ⟨?_, ?_, ?_, ?_, ?_, ?_⟩
  · intro r hr i
    rcases List.mem_append.mp hr with hr | hr
    · rw [mem_append_iff (h.own r hr), hnew r hr]
      simp
    · rw [List.mem_singleton.mp hr, mem_append_iff (r := ⟨s, []⟩) hown]
      simp
  · intro r hr
    rcases List.mem_append.mp hr with hr | hr
    · exact h.ascending r hr
    · rw [List.mem_singleton.mp hr]
      exact List.pairwise_singleton _ _
  · intro r hr
    rcases List.mem_append.mp hr with hr | hr
    · exact h.first_append hr
    · rw [List.mem_singleton.mp hr]
      exact ⟨signers.length, rfl, by simp⟩
  · refine List.pairwise_append.mpr ⟨h.distinct, List.pairwise_singleton _ _, ?_⟩
    intro r hr q hq
    rw [List.mem_singleton.mp hq]
    exact hnew r hr
  · refine List.pairwise_append.mpr ⟨h.order, List.pairwise_singleton _ _, ?_⟩
    intro r hr q hq i hi j hj
    rw [List.mem_singleton.mp hq] at hj
    cases Option.mem_some.mp hj
    exact h.lt_length hr (List.mem_of_mem_head? hi)
  · rw [List.flatMap_append, List.length_append, List.length_singleton, List.range_succ]
    exact h.once.append_right _

/-- A signer of an authority that a request is of joins this request. -/
theorem asks_append_known (h : Asks signers all) (hs : ∃ r ∈ all, r.signer.same s)
    (one : all.Pairwise fun a b => a.signer.same s → b.signer.same s = false) :
    Asks (signers ++ [s]) (all.map (extendFor s signers.length)) := by
  have hmem : ∀ q ∈ all.map (extendFor s signers.length), ∃ r ∈ all, extendFor s signers.length r = q :=
    fun q hq => List.mem_map.mp hq
  refine ⟨?_, ?_, ?_, ?_, ?_, ?_⟩
  · intro q hq i
    obtain ⟨r, hr, rfl⟩ := hmem q hq
    rw [signer_extendFor, mem_append_iff (h.own r hr)]
    by_cases hrs : r.signer.same s
    · simp [indexes_extendFor_of_same hrs, hrs]
    · rw [extendFor_of_not_same (by simpa using hrs)]
      simp [hrs]
  · intro q hq
    obtain ⟨r, hr, rfl⟩ := hmem q hq
    by_cases hrs : r.signer.same s
    · rw [indexes_extendFor_of_same hrs]
      refine List.pairwise_append.mpr ⟨h.ascending r hr, List.pairwise_singleton _ _, ?_⟩
      intro i hi j hj
      rw [List.mem_singleton.mp hj]
      exact h.lt_length hr hi
    · rw [extendFor_of_not_same (by simpa using hrs)]
      exact h.ascending r hr
  · intro q hq
    obtain ⟨r, hr, rfl⟩ := hmem q hq
    obtain ⟨i, hi, his⟩ := h.first_append (s := s) hr
    exact ⟨i, head?_extendFor hi, by rwa [signer_extendFor]⟩
  · refine List.pairwise_map.mpr (h.distinct.imp ?_)
    intro a b hab
    rwa [signer_extendFor, signer_extendFor]
  · refine List.pairwise_map.mpr (h.order.imp_of_mem ?_)
    intro a b ha hb hab i hi j hj
    obtain ⟨i', hi', -⟩ := h.first a ha
    obtain ⟨j', hj', -⟩ := h.first b hb
    rw [head?_extendFor hi'] at hi
    rw [head?_extendFor hj'] at hj
    exact hab i (hi'.trans hi) j (hj'.trans hj)
  · rw [← addRequest_of_known hs one, List.length_append, List.length_singleton, List.range_succ]
    exact (perm_addRequest s signers.length all).trans (h.once.append_right _)

/-- The requests of a group are what its signers ask for. -/
theorem asks_requests {signers : List Signer} (hc : Signer.Coherent signers) : Asks signers (requests signers) := by
  induction signers using List.reverseRecOn with
  | nil => exact asks_nil
  | append_singleton signers s ih =>
    have h := ih hc.of_append
    rw [requests_append]
    by_cases hs : ∃ r ∈ requests signers, r.signer.same s
    · have hone : (requests signers).Pairwise fun a b => a.signer.same s → b.signer.same s = false := by
        refine h.distinct.imp_of_mem ?_
        intro a b ha hb hab has
        by_contra hbs
        have hsm : s ∈ signers ++ [s] := List.mem_append_right _ (List.mem_singleton.mpr rfl)
        have hbm := List.mem_append_left [s] (h.signer_mem hb)
        -- Two requests of the authority of one signer would be of one authority.
        have hsame := hc.trans a.signer (List.mem_append_left _ (h.signer_mem ha)) s hsm b.signer hbm has
          (hc.symm b.signer hbm s hsm (by simpa using hbs))
        rw [hab] at hsame
        cases hsame
      rw [addRequest_of_known hs hone]
      exact asks_append_known h hs hone
    · have hnew : ∀ r ∈ requests signers, r.signer.same s = false := by
        intro r hr
        by_contra hrs
        exact hs ⟨r, hr, by simpa using hrs⟩
      rw [addRequest_of_new hnew]
      exact asks_append_new h hc hnew

end Steps

end Composer

end AtomicGroup
