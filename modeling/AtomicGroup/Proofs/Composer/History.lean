import AtomicGroup.Proofs.Composer.Gather
import AtomicGroup.Proofs.Composer.Invariant

/-!
# The history of a composer

Every operation keeps a composer sound and only ever adds to it, and one that fails changes nothing, but for a
gathering that has built the group before a signer fails. `reachable_sound` puts these together over whole runs.
-/
namespace AtomicGroup.Composer

open Outcome

section Build

variable {c d : Composer}

/-- Signed payloads make a sound built composer a sound signed one. -/
theorem sound_signed (h : c.Sound) (hs : c.status = .built) {payloads : List Bytes}
    (hn : payloads.length = c.count) (hne : ∀ payload ∈ payloads, payload ≠ []) :
    ({ c with status := .signed, cache := payloads } : Composer).Sound := by
  have hg : Grouped c.txns := h.grouped (by simp [hs])
  have hpos : 1 ≤ c.count := by
    have h1 := hg.nonempty
    rwa [length_txns] at h1
  have hpayloads : payloads ≠ [] := by
    rintro rfl
    simp at hn
    omega
  exact ⟨h.count_le, nofun, fun _ => hg, iff_of_true hpayloads rfl, fun _ => ⟨hn, hne⟩⟩

theorem sound_gatherBuilt (h : c.Sound) (hs : c.status = .built) : c.gatherBuilt.composer.Sound := by
  obtain ⟨made, e, hg, -⟩ | ⟨payloads, hg, hn, hne, -⟩ := gatherBuilt_cases c
  · rw [hg]
    exact h
  · rw [hg]
    exact sound_signed h hs hn hne

theorem sound_gather (h : c.Sound) : c.gather.composer.Sound :=
  gather_induction h fun _ hb hs => sound_gatherBuilt (sound_build h hb) hs

end Build

/-- Every event keeps a composer sound. -/
theorem sound_step {c : Composer} (h : c.Sound) (event : Event) : (c.step event).1.Sound := by
  cases event with
  | addTransaction entry => exact (atomic_addTransaction entry).after h fun u d hd => sound_addTransaction h hd
  | addMethodCall call => exact (atomic_addMethodCall call).after h fun u d hd => sound_addMethodCall h hd
  | build => exact atomic_build.after h fun entries d hd => sound_build h (build_eq_ok hd).2
  | gather => exact sound_gather h
  | outside b => exact h.congr rfl (txns_answering b c) rfl

/-- A reopened composer is sound since its group ids are cleared. -/
theorem sound_reopen {c : Composer} (h : c.Sound) : c.reopen.Sound := by
  refine sound_of_unsigned ?_ nofun rfl ?_ (fun hn => absurd rfl hn)
  · have hn := h.count_le
    simpa [reopen, count] using hn
  · intro _ t ht
    obtain ⟨e, he, rfl⟩ := List.mem_map.mp ht
    obtain ⟨e', -, rfl⟩ := List.mem_map.mp he
    exact Transaction.group_withGroup _ _

/-- A new composer holds nothing. -/
theorem sound_new : Composer.Sound {} := by
  have hnone : (Composer.txns {}) = [] := rfl
  refine sound_of_unsigned (Nat.zero_le _) nofun rfl ?_ (fun hn => absurd rfl hn)
  simp [hnone]

theorem sound_of_reachable {c : Composer} (h : Reachable c) : c.Sound := by
  induction h with
  | new => exact sound_new
  | step event _ ih => exact sound_step ih event
  | reopen _ ih => exact sound_reopen ih

section Extension

variable {a b c d : Composer}

theorem Extends.refl (c : Composer) : Extends c c :=
  ⟨Nat.le_refl _, Nat.le_refl _, ⟨[], (List.append_nil _).symm⟩, fun _ => ⟨rfl, rfl⟩, fun h => ⟨h, rfl⟩⟩

theorem rank_pos_iff : 0 < c.rank ↔ c.status ≠ .building := by
  unfold rank
  cases c.status <;> simp

theorem Extends.trans (h : Extends a b) (h' : Extends b c) : Extends a c := by
  refine ⟨Nat.le_trans h.rank_le h'.rank_le, Nat.le_trans h.count_le h'.count_le, ?_, ?_, ?_⟩
  · obtain ⟨added, ha⟩ := h.appended
    obtain ⟨more, hm⟩ := h'.appended
    exact ⟨added ++ more, by rw [hm, ha, List.append_assoc]⟩
  · intro hs
    obtain ⟨hbare, htxns⟩ := h.frozen hs
    obtain ⟨hbare', htxns'⟩ := h'.frozen (rank_pos_iff.mp (Nat.lt_of_lt_of_le (rank_pos_iff.mpr hs) h.rank_le))
    exact ⟨hbare'.trans hbare, htxns'.trans htxns⟩
  · intro hs
    obtain ⟨hsigned, hcache⟩ := h.kept hs
    obtain ⟨hsigned', hcache'⟩ := h'.kept hsigned
    exact ⟨hsigned', hcache'.trans hcache⟩

/-- A building composer may take any further status and entries. -/
theorem extends_of_building (hs : c.status = .building) (added : List ComposerEntry)
    (h : d.entries.map (·.bare) = c.entries.map (·.bare) ++ added) : Extends c d := by
  have hlen := congrArg List.length h
  simp only [List.length_map, List.length_append] at hlen
  have hn : c.count ≤ d.count := by
    unfold count
    omega
  refine ⟨?_, hn, ⟨added, h⟩, fun hnot => absurd hs hnot, fun hsigned => absurd hsigned (by simp [hs])⟩
  simp [rank, hs]

theorem extends_addTransaction {entry : TxnEntry} {u : Unit} (h : (addTransaction entry).run c = .ok u d) :
    Extends c d := by
  obtain ⟨hs, -, -, rfl⟩ := addTransaction_eq_ok h
  exact extends_of_building hs _ (List.map_append ..)

theorem extends_addMethodCall {call : MethodCall} {u : Unit} (h : (addMethodCall call).run c = .ok u d) :
    Extends c d := by
  obtain ⟨hs, -, args, entry, -, rfl⟩ := addMethodCall_eq_ok h
  rw [List.append_assoc]
  exact extends_of_building hs _ (List.map_append ..)

theorem extends_build (h : BuildsTo c d) : Extends c d := by
  cases h with
  | same => exact .refl c
  | lone hs => exact extends_of_building hs [] (List.append_nil _).symm
  | stamped hs =>
    refine extends_of_building hs [] ?_
    simp [Function.comp_def]

/-- Signing adds to a built composer what it keeps, and changes nothing else. -/
theorem extends_gatherBuilt (hs : c.status = .built) : Extends c c.gatherBuilt.composer := by
  obtain ⟨made, e, hg, -⟩ | ⟨payloads, hg, -⟩ := gatherBuilt_cases c
  · rw [hg]
    exact .refl c
  · rw [hg]
    exact ⟨by simp [rank, hs], Nat.le_refl _, ⟨[], (List.append_nil _).symm⟩, fun _ => ⟨rfl, rfl⟩,
      fun hsigned => absurd hsigned (by simp [hs])⟩

theorem extends_gather : Extends c c.gather.composer :=
  gather_induction (.refl c) fun _ hb hs => (extends_build hb).trans (extends_gatherBuilt hs)

/-- What signers outside come to answer is no part of a composer's entries. -/
theorem extends_answering (b : Behaviour) : Extends c (c.answering b) := by
  have hbare : (c.answering b).entries.map (·.bare) = c.entries.map (·.bare) := by
    simp [answering, Function.comp_def]
  refine ⟨Nat.le_refl _, Nat.le_of_eq (count_answering b c).symm, ⟨[], ?_⟩, ?_, fun h => ⟨h, rfl⟩⟩
  · rw [hbare, List.append_nil]
  · exact fun _ => ⟨hbare, txns_answering b c⟩

/-- No event takes anything back. -/
theorem extends_step (c : Composer) (event : Event) : Extends c (c.step event).1 := by
  cases event with
  | addTransaction entry =>
    exact (atomic_addTransaction entry).after (.refl c) fun u d hd => extends_addTransaction hd
  | addMethodCall call => exact (atomic_addMethodCall call).after (.refl c) fun u d hd => extends_addMethodCall hd
  | build => exact atomic_build.after (.refl c) fun entries d hd => extends_build (build_eq_ok hd).2
  | gather => exact extends_gather
  | outside b => exact extends_answering b

theorem extends_run (c : Composer) (events : List Event) : Extends c (c.run events) :=
  run_induction Extends.refl (fun _ _ _ => Extends.trans) extends_step c events

end Extension

inductive Leaves (c : Composer) : Event → ComposerError → Composer → Prop where
  /-- It leaves everything as it was. -/
  | same (event : Event) (e : ComposerError) (h : event ≠ .gather ∨ build.run c = .error e c) : Leaves c event e c
  /-- It was to gather, the group was built, and then not all transactions were signed. -/
  | built (e : ComposerError) (built : Composer) (hb : build.run c = .ok built.transactions built)
      (hs : built.status = .built) (hc : built.cache = []) (he : (∃ refusal, e = .signer refusal) ∨
        ∃ i, e = .missingSignature i) : Leaves c .gather e built

/-- An operation that leaves the composer as it was when it fails. -/
theorem leaves_after {α : Type} {x : Operation Composer α} (hx : Atomic x) (event : Event) (hg : event ≠ .gather)
    {c : Composer} {e : ComposerError} (h : (after x c).2 = some e) : Leaves c event e (after x c).1 := by
  have hrun : x.run c = .error e (after x c).1 := after_eq_some.mp (Prod.ext rfl h)
  rw [hx _ _ _ hrun]
  exact .same event e (.inl hg)

theorem leaves_gather {c : Composer} (hsound : c.Sound) {e : ComposerError} (h : failure? c.gather.result = some e) :
    Leaves c .gather e c.gather.composer := by
  obtain ⟨-, hg⟩ | ⟨e', hb, hg⟩ | ⟨built, hb, hto, hs, hg⟩ := gather_cases c
  · rw [hg] at h
    cases h
  · rw [hg] at h ⊢
    cases h
    exact .same _ _ (.inr hb)
  · have hc : built.cache = [] := (sound_build hsound hto).cache_eq_nil (by simp [hs])
    rw [hg] at h ⊢
    obtain ⟨made, e', hgb, he⟩ | ⟨payloads, hgb, -⟩ := gatherBuilt_cases built
    · rw [hgb] at h ⊢
      cases h
      exact .built _ _ hb hs hc he
    · rw [hgb] at h
      cases h

theorem leaves_step {c : Composer} (hsound : c.Sound) (event : Event) (e : ComposerError)
    (h : (c.step event).2 = some e) : Leaves c event e (c.step event).1 := by
  cases event with
  | addTransaction entry => exact leaves_after (atomic_addTransaction entry) (.addTransaction entry) nofun h
  | addMethodCall call => exact leaves_after (atomic_addMethodCall call) (.addMethodCall call) nofun h
  | build => exact leaves_after atomic_build .build nofun h
  | gather => exact leaves_gather hsound h
  | outside b => cases h

/-- A composer that is reached in any way is sound, only ever adds to what it is, and keeps to what it is when an
operation fails. -/
theorem reachable_sound {c : Composer} (h : Reachable c) :
    c.Sound ∧ (∀ events, Extends c (c.run events)) ∧
      ∀ event e, (c.step event).2 = some e → Leaves c event e (c.step event).1 :=
  ⟨sound_of_reachable h, extends_run c, leaves_step (sound_of_reachable h)⟩

def signedPair : Composer :=
  ({} : Composer).run [.addTransaction ⟨{}, echo "a" none⟩, .addTransaction ⟨{}, echo "b" none⟩, .gather]

theorem signedPair_sound : Reachable signedPair ∧ signedPair.status = .signed ∧ signedPair.cache = [[0], [1]] ∧
    signedPair.Sound := by
  have hr : Reachable signedPair := Reachable.new.run _
  obtain ⟨hs, -, -⟩ := reachable_sound hr
  exact ⟨hr, by decide +kernel, by decide +kernel, hs⟩

end AtomicGroup.Composer
