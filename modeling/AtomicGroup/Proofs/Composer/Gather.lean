import AtomicGroup.Proofs.Composer.Requests
import AtomicGroup.Proofs.Composer.Run
import AtomicGroup.Proofs.Signer
import Mathlib.Data.List.Nodup

/-!
# What gathering comes to

A request is answered when its signer gives one payload for each index, and refused otherwise. The requests are made
up to the first one that is refused; `Gathers` says what is left behind and given in each case, and `gathers_requests`
that gathering over the requests of a group always comes to one of these.
-/
namespace AtomicGroup

open Outcome

namespace SignRequest

/-- A request whose signer gives one payload for each index. -/
def Answered (txns : List Transaction) (r : SignRequest) (payloads : List Bytes) : Prop :=
  r.signer.respond txns r.indexes = .ok payloads ∧ payloads.length = r.indexes.length

/-- A request whose signer fails, or gives another number of payloads than there are indexes. -/
def Refused (txns : List Transaction) (r : SignRequest) (e : SignerError) : Prop :=
  r.signer.respond txns r.indexes = .error e ∨ ∃ payloads, r.signer.respond txns r.indexes = .ok payloads ∧
    payloads.length ≠ r.indexes.length ∧ e = .payloadCount r.indexes.length payloads.length

/-- Some requests of which the signer of one gives a payload for an index. -/
def Gives (txns : List Transaction) (all : List SignRequest) (i : Nat) (payload : Bytes) : Prop :=
  ∃ r ∈ all, ∃ payloads, r.Answered txns payloads ∧ (i, payload) ∈ r.indexes.zip payloads

theorem sign_cases (txns : List Transaction) (r : SignRequest) :
    (∃ payloads, r.Answered txns payloads ∧ r.signer.sign txns r.indexes = .ok payloads) ∨
    (∃ e, r.Refused txns e ∧ r.signer.sign txns r.indexes = .error e) := by
  cases hr : r.signer.respond txns r.indexes with
  | error e => exact .inr ⟨e, .inl hr, by simp [Signer.sign, hr, bind, Except.bind]⟩
  | ok payloads =>
    by_cases hn : payloads.length = r.indexes.length
    · exact .inl ⟨payloads, ⟨hr, hn⟩, Signer.sign_eq_ok.mpr ⟨hr, hn⟩⟩
    · refine .inr ⟨_, .inr ⟨payloads, hr, hn, rfl⟩, ?_⟩
      simp only [Signer.sign, hr, ok_bind, ne_eq, hn, not_false_eq_true, if_true]
      rfl

end SignRequest

namespace Composer

open SignRequest

/-- What gathering over all requests of a built composer comes to. -/
inductive Gathers (built : Composer) (all : List SignRequest) : Gathering → Prop where
  /-- A signer refuses after those before it answered; no later one is asked. -/
  | refused (done : List SignRequest) (r : SignRequest) (later : List SignRequest) (e : SignerError)
      (split : all = done ++ r :: later) (answered : ∀ q ∈ done, ∃ payloads, q.Answered built.txns payloads)
      (refused : r.Refused built.txns e) : Gathers built all ⟨built, done ++ [r], .error (.signer e)⟩
  /-- All signers answer, and this is the first empty payload. -/
  | missing (i : Nat) (answered : ∀ q ∈ all, ∃ payloads, q.Answered built.txns payloads)
      (empty : Gives built.txns all i []) (least : ∀ j < i, ¬ Gives built.txns all j []) :
      Gathers built all ⟨built, all, .error (.missingSignature i)⟩
  /-- All signers answer, and no payload is empty. -/
  | signed (payloads : List Bytes) (answered : ∀ q ∈ all, ∃ payloads, q.Answered built.txns payloads)
      (length : payloads.length = built.count) (nonempty : ∀ payload ∈ payloads, payload ≠ [])
      (given : ∀ i payload, payloads[i]? = some payload ↔ Gives built.txns all i payload) :
      Gathers built all ⟨{ built with status := .signed, cache := payloads }, all, .ok payloads⟩

/-- The requests are made up to the first that is refused, or all are answered and every payload is found. -/
theorem runRequests_cases (txns : List Transaction) (all : List SignRequest) :
    (∃ done r later e, all = done ++ r :: later ∧ (∀ q ∈ done, ∃ payloads, q.Answered txns payloads) ∧
      r.Refused txns e ∧ runRequests txns all = (done ++ [r], .error e)) ∨
    (∃ found, (∀ q ∈ all, ∃ payloads, q.Answered txns payloads) ∧ runRequests txns all = (all, .ok found) ∧
      found.map (·.1) = all.flatMap (·.indexes) ∧
      ∀ i payload, (i, payload) ∈ found ↔ Gives txns all i payload) := by
  induction all with
  | nil =>
    refine .inr ⟨[], nofun, rfl, rfl, ?_⟩
    simp [Gives]
  | cons r rs ih =>
    obtain ⟨payloads, hr, hs⟩ | ⟨e, hr, hs⟩ := r.sign_cases txns
    · obtain ⟨done, q, later, e, rfl, hd, hq, hrun⟩ | ⟨found, hd, hrun, hkeys, hfound⟩ := ih
      · refine .inl ⟨r :: done, q, later, e, rfl, ?_, hq, ?_⟩
        · exact List.forall_mem_cons.mpr ⟨⟨payloads, hr⟩, hd⟩
        · simp only [runRequests, hs, hrun]
          rfl
      · refine .inr ⟨r.indexes.zip payloads ++ found, ?_, ?_, ?_, ?_⟩
        · exact List.forall_mem_cons.mpr ⟨⟨payloads, hr⟩, hd⟩
        · simp only [runRequests, hs, hrun]
          rfl
        · rw [List.map_append, hkeys, List.flatMap_cons, List.map_fst_zip (Nat.le_of_eq hr.2.symm)]
        · intro i payload
          rw [List.mem_append, hfound]
          constructor
          · rintro (hp | ⟨q, hq, hp⟩)
            · exact ⟨r, List.mem_cons_self, payloads, hr, hp⟩
            · exact ⟨q, List.mem_cons_of_mem _ hq, hp⟩
          · rintro ⟨q, hq, payloads', hq', hp⟩
            rcases List.mem_cons.mp hq with rfl | hq
            · have hsame : payloads' = payloads := Except.ok.inj (hq'.1.symm.trans hr.1)
              exact .inl (hsame ▸ hp)
            · exact .inr ⟨q, hq, payloads', hq', hp⟩
    · exact .inl ⟨[], r, rs, e, rfl, nofun, hr, by simp only [runRequests, hs]; rfl⟩

/-- All payloads are there from a position on, or the first that is missing or empty is told. -/
theorem collect_cases (found : List (Nat × Bytes)) (index count : Nat) :
    (∃ payloads, collect found index count = .ok payloads ∧ payloads.length = count ∧
      (∀ payload ∈ payloads, payload ≠ []) ∧
      ∀ k payload, payloads[k]? = some payload → found.lookup (index + k) = some payload) ∨
    (∃ k < count, collect found index count = .error (.missingSignature (index + k)) ∧
      (found.lookup (index + k) = none ∨ found.lookup (index + k) = some []) ∧
      ∀ j < k, found.lookup (index + j) ≠ some []) := by
  induction count generalizing index with
  | zero => exact .inl ⟨[], rfl, rfl, nofun, nofun⟩
  | succ count ih =>
    match hl : found.lookup index with
    | none =>
      refine .inr ⟨0, Nat.zero_lt_succ _, ?_, .inl hl, nofun⟩
      simp only [collect, hl, Nat.add_zero]
    | some [] =>
      refine .inr ⟨0, Nat.zero_lt_succ _, ?_, .inr hl, nofun⟩
      simp only [collect, hl, Nat.add_zero]
    | some (b :: bs) =>
      obtain ⟨payloads, hc, hn, hne, hg⟩ | ⟨k, hk, hc, hl', hlt⟩ := ih (index + 1)
      · refine .inl ⟨(b :: bs) :: payloads, ?_, by simp [hn], ?_, ?_⟩
        · simp only [collect, hl, hc]
          rfl
        · exact List.forall_mem_cons.mpr ⟨nofun, hne⟩
        · intro k payload hp
          cases k with
          | zero => rw [Nat.add_zero, hl]; simpa using hp
          | succ k =>
            have h := hg k payload (by simpa using hp)
            rwa [Nat.add_assoc, Nat.add_comm 1 k] at h
      · have hshift : ∀ j, index + 1 + j = index + (j + 1) := fun j => by omega
        refine .inr ⟨k + 1, Nat.succ_lt_succ hk, ?_, ?_, ?_⟩
        · rw [← hshift k]
          simp only [collect, hl, hc]
          rfl
        · rwa [← hshift k]
        · intro j hj
          cases j with
          | zero => simp [hl]
          | succ j =>
            rw [← hshift j]
            exact hlt j (Nat.lt_of_succ_lt_succ hj)

/-- An index has one payload among the requests of a partition. -/
theorem gives_unique {txns : List Transaction} {all : List SignRequest} {found : List (Nat × Bytes)}
    (hf : ∀ i payload, (i, payload) ∈ found ↔ Gives txns all i payload) (hn : (found.map (·.1)).Nodup)
    (i : Nat) (payload : Bytes) : found.lookup i = some payload ↔ Gives txns all i payload := by
  rw [← hf]
  clear hf
  induction found with
  | nil => simp
  | cons entry found ih =>
    obtain ⟨j, other⟩ := entry
    obtain ⟨hj, hn⟩ := List.nodup_cons.mp hn
    by_cases hij : i = j
    · subst hij
      have hnot : (i, payload) ∉ found := fun h => hj (List.mem_map.mpr ⟨_, h, rfl⟩)
      rw [List.lookup_cons_self, List.mem_cons, or_iff_left hnot, Option.some_inj, Prod.mk.injEq, and_iff_right rfl,
        eq_comm]
    · rw [List.lookup_cons, beq_false_of_ne hij, List.mem_cons, or_iff_right (by simp [hij])]
      exact ih hn

/-- Gathering asks the signers of a built composer and comes to one of three ends. -/
theorem gathers_requests (c : Composer) : Gathers c (requests (c.entries.map (·.signer))) c.gatherBuilt := by
  set all := requests (c.entries.map (·.signer)) with hall
  have hperm : (all.flatMap (·.indexes)).Perm (List.range c.count) := by
    have h := perm_requests (c.entries.map (·.signer))
    rwa [List.length_map] at h
  obtain ⟨done, r, later, e, hsplit, hd, hr, hrun⟩ | ⟨found, hd, hrun, hkeys, hfound⟩ := runRequests_cases c.txns all
  · have hg : c.gatherBuilt = ⟨c, done ++ [r], .error (.signer e)⟩ := by
      simp only [gatherBuilt, ← hall, hrun]
      rfl
    rw [hg]
    exact .refused done r later e hsplit hd hr
  · -- The requests partition the places, so that each place is found, and found once.
    have hnodup : (found.map (·.1)).Nodup := hkeys ▸ hperm.symm.nodup List.nodup_range
    have hlookup := gives_unique hfound hnodup
    have hsome : ∀ i < c.count, found.lookup i ≠ none := by
      intro i hi hl
      have hmem : i ∈ found.map (·.1) := hkeys ▸ hperm.mem_iff.mpr (List.mem_range.mpr hi)
      obtain ⟨⟨_, payload⟩, hp, rfl⟩ := List.mem_map.mp hmem
      have hg := (hlookup _ payload).mpr ((hfound _ _).mp hp)
      rw [hl] at hg
      cases hg
    obtain ⟨payloads, hc, hn, hne, hget⟩ | ⟨i, hi, hc, hl, hlt⟩ := collect_cases found 0 c.count
    · have hg : c.gatherBuilt = ⟨{ c with status := .signed, cache := payloads }, all, .ok payloads⟩ := by
        simp only [gatherBuilt, ← hall, hrun, Except.mapError, Except.bind, hc]
      rw [hg]
      refine .signed payloads hd hn hne ?_
      intro i payload
      rw [← hlookup]
      have hfrom : ∀ q, payloads[i]? = some q → found.lookup i = some q := fun q hq => by
        have h := hget i q hq
        rwa [Nat.zero_add] at h
      refine ⟨hfrom payload, ?_⟩
      intro hl
      have hi : i < payloads.length := by
        rw [hn, ← List.mem_range, ← hperm.mem_iff, ← hkeys]
        exact List.mem_map.mpr ⟨(i, payload), (hfound i payload).mpr ((hlookup i payload).mp hl), rfl⟩
      have hq := hfrom _ (List.getElem?_eq_getElem hi)
      rw [List.getElem?_eq_getElem hi, ← hq, hl]
    · have hg : c.gatherBuilt = ⟨c, all, .error (.missingSignature i)⟩ := by
        rw [Nat.zero_add] at hc
        simp only [gatherBuilt, ← hall, hrun, Except.mapError, Except.bind, hc]
      rw [hg]
      simp only [Nat.zero_add] at hl hlt
      have hempty := hl.resolve_left (hsome i hi)
      refine .missing i hd ((hlookup i []).mp hempty) ?_
      intro j hj hgives
      exact hlt j hj ((hlookup j []).mpr hgives)

theorem gather_of_signed {c : Composer} (h : c.status = .signed) : c.gather = ⟨c, [], .ok c.cache⟩ := by
  simp only [gather, if_pos h]

/-- A composer that is not signed is built first, if need be. -/
theorem gather_of_unsigned {c : Composer} (h : c.status ≠ .signed) :
    (∃ e, build.run c = .error e c ∧ c.gather = ⟨c, [], .error e⟩) ∨
    (∃ built, build.run c = .ok built.transactions built ∧ BuildsTo c built ∧ c.gather = built.gatherBuilt) := by
  obtain ⟨e, hb⟩ | ⟨built, hb, hto⟩ := build_cases c
  · exact .inl ⟨e, hb, by simp only [gather, if_neg h, hb]⟩
  · exact .inr ⟨built, hb, hto, by simp only [gather, if_neg h, hb]⟩

theorem gather_cases (c : Composer) :
    (c.status = .signed ∧ c.gather = ⟨c, [], .ok c.cache⟩) ∨
    (∃ e, build.run c = .error e c ∧ c.gather = ⟨c, [], .error e⟩) ∨
    (∃ built, build.run c = .ok built.transactions built ∧ BuildsTo c built ∧ built.status = .built ∧
      c.gather = built.gatherBuilt) := by
  by_cases hs : c.status = .signed
  · exact .inl ⟨hs, gather_of_signed hs⟩
  · obtain h | ⟨built, hb, hto, hg⟩ := gather_of_unsigned hs
    · exact .inr (.inl h)
    · exact .inr (.inr ⟨built, hb, hto, hto.status_eq hs, hg⟩)

/-- What holds of a composer, and of what gathering leaves of it once it is built, holds after gathering. -/
theorem gather_induction {c : Composer} {P : Composer → Prop} (same : P c)
    (built : ∀ d, BuildsTo c d → d.status = .built → P d.gatherBuilt.composer) : P c.gather.composer := by
  obtain ⟨-, hg⟩ | ⟨e, -, hg⟩ | ⟨d, -, hto, hs, hg⟩ := gather_cases c
  · rw [hg]
    exact same
  · rw [hg]
    exact same
  · rw [hg]
    exact built d hto hs

/-- Gathering over a built composer either fails and leaves it as it is, or signs it with what the signers gave. -/
theorem gatherBuilt_cases (c : Composer) :
    (∃ made e, c.gatherBuilt = ⟨c, made, .error e⟩ ∧
      ((∃ refusal, e = .signer refusal) ∨ ∃ i, e = .missingSignature i)) ∨
    (∃ payloads, c.gatherBuilt = ⟨{ c with status := .signed, cache := payloads },
        requests (c.entries.map (·.signer)), .ok payloads⟩ ∧ payloads.length = c.count ∧
      (∀ payload ∈ payloads, payload ≠ []) ∧
      ∀ i payload, payloads[i]? = some payload → Gives c.txns (requests (c.entries.map (·.signer))) i payload) := by
  have hg := gathers_requests c
  generalize c.gatherBuilt = g at hg ⊢
  cases hg with
  | refused done r later e => exact .inl ⟨_, _, rfl, .inl ⟨e, rfl⟩⟩
  | missing i => exact .inl ⟨_, _, rfl, .inr ⟨i, rfl⟩⟩
  | signed payloads answered length nonempty given =>
    exact .inr ⟨payloads, rfl, length, nonempty, fun i payload hp => (given i payload).mp hp⟩

def Keeps (c : Composer) (payloads : List Bytes) : Prop := c.status = .signed ∧ c.cache = payloads

/-- Signed payloads are kept whatever happens. -/
theorem Keeps.step {c : Composer} {payloads : List Bytes} (h : c.Keeps payloads) (event : Event) :
    (c.step event).1.Keeps payloads := by
  have hnot : c.status ≠ .building := by simp [h.1]
  cases event with
  | addTransaction entry =>
    exact (atomic_addTransaction entry).after (P := (·.Keeps payloads)) h fun u d hd =>
      absurd (addTransaction_eq_ok hd).1 hnot
  | addMethodCall call =>
    exact (atomic_addMethodCall call).after (P := (·.Keeps payloads)) h fun u d hd =>
      absurd (addMethodCall_eq_ok hd).1 hnot
  | build =>
    refine atomic_build.after (P := (·.Keeps payloads)) h fun entries d hd => ?_
    obtain ⟨-, hto⟩ := build_eq_ok hd
    cases hto with
    | same => exact h
    | lone hs | stamped hs => exact absurd hs hnot
  | gather =>
    change c.gather.composer.Keeps payloads
    rw [gather_of_signed h.1]
    exact h
  | outside b => exact h

theorem Keeps.run {c : Composer} {payloads : List Bytes} (h : c.Keeps payloads) (events : List Event) :
    (c.run events).Keeps payloads := by
  induction events generalizing c with
  | nil => exact h
  | cons event events ih => exact ih (h.step event)

theorem Keeps.gather {c : Composer} {payloads : List Bytes} (h : c.Keeps payloads) :
    c.gather = ⟨c, [], .ok payloads⟩ := by
  rw [gather_of_signed h.1, h.2]

theorem signers_of_build {c built : Composer} (h : BuildsTo c built) :
    built.entries.map (·.signer) = c.entries.map (·.signer) := by
  cases h with
  | same | lone => rfl
  | stamped => simp [Function.comp_def]

/-- The composer that gathering leaves keeps what was gathered. -/
theorem Gathers.keeps {built : Composer} {all : List SignRequest} {g : Gathering} {payloads : List Bytes}
    (h : Gathers built all g) (hg : g.result = .ok payloads) : g.composer.Keeps payloads := by
  cases h with
  | refused => cases hg
  | missing => cases hg
  | signed =>
    cases hg
    exact ⟨rfl, rfl⟩

/-- Gathering asks one signer of each authority, for exactly the places of this authority, and what it comes to is
settled by their answers; what is gathered is kept, and nobody is asked for it again. -/
theorem gather_asks_once {c : Composer} (hs : c.status ≠ .signed)
    (hc : Signer.Coherent (c.entries.map (·.signer))) :
    (∀ e d, build.run c = .error e d → c.gather = ⟨c, [], .error e⟩) ∧
    ∀ entries built, build.run c = .ok entries built → ∃ all, Asks (c.entries.map (·.signer)) all ∧
      Gathers built all c.gather ∧ ∀ payloads, c.gather.result = .ok payloads → ∀ events,
        (c.gather.composer.run events).gather = ⟨c.gather.composer.run events, [], .ok payloads⟩ := by
  obtain ⟨e, he, hg⟩ | ⟨built, hb, hto, hg⟩ := gather_of_unsigned hs
  · refine ⟨?_, ?_⟩
    · intro e' d he'
      cases he.symm.trans he'
      exact hg
    · intro entries built hb
      cases he.symm.trans hb
  · refine ⟨?_, ?_⟩
    · intro e d he
      cases hb.symm.trans he
    · intro entries built' hb'
      cases hb.symm.trans hb'
      have hgathers := gathers_requests built
      rw [signers_of_build hto, ← hg] at hgathers
      refine ⟨_, asks_requests hc, hgathers, ?_⟩
      intro payloads hp events
      exact ((hgathers.keeps hp).run events).gather

/-- A signer outside that answers each index with the index. Its authority is that of its label, if it has one. -/
def echo (name : String) (label : Option String) : Signer :=
  .external
    { name, label
      respond := fun _ indexes => .ok (indexes.map fun i => [UInt8.ofNat i])
      equals := fun other => label.isSome && other.label == label }

/-- Three transactions, of which the first and the last are of one authority. -/
def interleaved : Composer :=
  { entries := [⟨⟨{}, echo "a" (some "bank")⟩, none⟩, ⟨⟨{}, echo "b" none⟩, none⟩,
      ⟨⟨{}, echo "c" (some "bank")⟩, none⟩] }

theorem gather_interleaved :
    interleaved.gather.result = .ok [[0], [1], [2]] ∧
    interleaved.gather.requests.map (·.indexes) = [[0, 2], [1]] ∧
    ∃ entries built, build.run interleaved = .ok entries built ∧ ∃ all,
      Asks (interleaved.entries.map (·.signer)) all ∧ Gathers built all interleaved.gather := by
  have hc : Signer.Coherent (interleaved.entries.map (·.signer)) := ⟨by decide, by decide⟩
  obtain ⟨-, h⟩ := gather_asks_once (c := interleaved) nofun hc
  obtain ⟨all, ha, hg, -⟩ := h _ _ rfl
  exact ⟨rfl, rfl, _, _, rfl, all, ha, hg⟩

end Composer

end AtomicGroup
