import AtomicGroup.Proofs.Composer.Authority

/-!
# Signing in requests and signing one by one

A composer asks each signer once, for all of its transactions. With signers of this library this comes to the same as
asking the signer of each entry for this entry alone: such a signer goes through the transactions that it is asked for
in the order asked, and one that is asked in place of another is this other one.
-/
namespace AtomicGroup

open Outcome

/-- The octets of a record begin with the header of a map. -/
theorem SignedTxn.encode_ne_nil (s : SignedTxn) : s.encode ≠ [] := by
  change Msgpack.mapHeader _ ++ _ ≠ []
  rw [Msgpack.mapHeader]
  split
  · exact List.cons_ne_nil _ _
  · split <;> exact List.cons_ne_nil _ _

/-- A refused request fails when it is made. -/
theorem SignRequest.Refused.sign_eq {txns : List Transaction} {r : SignRequest} {e : SignerError}
    (h : r.Refused txns e) : r.signer.sign txns r.indexes = .error e := by
  obtain hr | ⟨payloads, hr, hn, rfl⟩ := h
  · rw [Signer.sign, hr]
    rfl
  · simp only [Signer.sign, hr, ok_bind, if_pos hn]
    rfl

namespace Composer

/-- Payloads that the signers of the entries give, each for its own entry alone. -/
def SignedEach (c : Composer) (payloads : List Bytes) : Prop :=
  List.Forall₂ (fun (e : ComposerEntry × Nat) payload => e.1.signer.sign c.txns [e.2] = .ok [payload])
    c.entries.zipIdx payloads

section Built

variable {built : Composer} {payloads : List Bytes}

theorem SignedEach.unique (h : built.SignedEach payloads) {payloads' : List Bytes} (h' : built.SignedEach payloads') :
    payloads = payloads' := by
  refine Relator.RightUnique.forall₂ ?_ h h'
  intro e payload payload' hp hp'
  cases hp.symm.trans hp'
  rfl

/-- What the signer of an entry gives for it alone is what it makes of its transaction. -/
theorem signedEach_iff (hb : ∀ e ∈ built.entries, e.signer.Internal) : built.SignedEach payloads ↔
    List.Forall₂ (fun (e : ComposerEntry) payload => ∃ signed, e.signer.Signs e.txn signed ∧ payload = signed.encode)
      built.entries payloads := by
  conv_rhs => rw [← List.zipIdx_map_fst 0 built.entries, List.forall₂_map_left_iff]
  rw [SignedEach, List.forall₂_iff_zip, List.forall₂_iff_zip]
  refine and_congr_right fun _ => forall_congr' fun e => forall_congr' fun payload => forall_congr' fun hzip => ?_
  obtain ⟨e, i⟩ := e
  have he : built.entries[i]? = some e := List.mk_mem_zipIdx_iff_getElem?.mp (List.of_mem_zip hzip).1
  have ht : built.txns[i]? = some e.txn := by
    rw [txns, List.getElem?_map, he]
    rfl
  rw [Signer.sign_singleton (hb e (List.mem_of_getElem? he))]
  simp only [ht, Option.some.injEq, exists_and_left, exists_eq_left']

/-- Entries that are each signed alone are signed when the requests for them are made. -/
theorem SignedEach.gathers (hb : ∀ e ∈ built.entries, e.signer.Internal) (h : built.SignedEach payloads) :
    ∃ payloads', built.gatherBuilt.result = .ok payloads' := by
  have hsigners : ∀ s ∈ built.entries.map (·.signer), s.Internal := by
    intro s hs
    obtain ⟨e, he, rfl⟩ := List.mem_map.mp hs
    exact hb e he
  have hasks := asks_requests (coherent_of_internal hsigners)
  have hgathers := gathers_requests built
  generalize built.gatherBuilt = g at hgathers ⊢
  cases hgathers with
  | signed payloads' => exact ⟨payloads', rfl⟩
  | refused done r later e split answered refused =>
    have hr : r ∈ requests (built.entries.map (·.signer)) := by
      rw [split]
      exact List.mem_append_right _ List.mem_cons_self
    have hinternal := hsigners r.signer (hasks.signer_mem hr)
    have hrange : ∀ i ∈ r.indexes, i < built.txns.length := by
      intro i hi
      have hlt := hasks.lt_length hr hi
      rwa [List.length_map, ← List.length_map (f := fun e : ComposerEntry => e.txn)] at hlt
    obtain ⟨i, hi, hfails⟩ := Signer.exists_sign_eq_error hinternal hrange refused.sign_eq
    -- The signer that fails for the place is the one of the entry there, which does not.
    obtain ⟨s, hs, hsame⟩ := (hasks.own r hr i).mp hi
    rw [List.getElem?_map] at hs
    obtain ⟨e', he', rfl⟩ := Option.map_eq_some_iff.mp hs
    have hplace : built.entries.zipIdx[i]? = some (e', i) := by
      rw [List.getElem?_zipIdx, he', Option.map_some, Nat.zero_add]
    obtain ⟨payload, -, hsigned⟩ := exists_of_getElem?_left h hplace
    rw [← Signer.eq_of_same hinternal hsame, hfails] at hsigned
    cases hsigned
  | missing i answered empty least =>
    obtain ⟨r, hr, answers, hanswered, hzip⟩ := empty
    have hmade := (Signer.respond_eq_ok (hsigners r.signer (hasks.signer_mem hr))).mp hanswered.1
    obtain ⟨t, signed, -, -, hnil⟩ := (List.forall₂_iff_zip.mp hmade).2 hzip
    exact absurd hnil.symm signed.encode_ne_nil

end Built

/-- What a composer gathers from signers of this library. -/
theorem gather_eq_ok_iff_each {c : Composer} (hr : Reachable c) (hb : ∀ e ∈ c.entries, e.signer.Internal)
    {payloads : List Bytes} :
    c.gather.result = .ok payloads ↔
      ∃ entries built, build.run c = .ok entries built ∧ built.SignedEach payloads := by
  have hsound : ∀ payloads, c.gather.result = .ok payloads →
      ∃ entries built, build.run c = .ok entries built ∧ built.SignedEach payloads := by
    intro payloads h
    obtain ⟨built, hbuild, -, hcollected⟩ := collected_of_gather hr hb h
    have hbuilt := forall_signer_of_build (build_eq_ok hbuild).2 hb
    exact ⟨_, built, hbuild, (signedEach_iff hbuilt).mpr (signs_of_collected hbuilt hcollected)⟩
  refine ⟨hsound payloads, ?_⟩
  rintro ⟨entries, built, hbuild, heach⟩
  -- Something is gathered, and no other payloads are given one by one.
  obtain ⟨gathered, hgathered⟩ : ∃ gathered, c.gather.result = .ok gathered := by
    obtain ⟨-, hg⟩ | ⟨e, he, -⟩ | ⟨built', hbuild', hto, -, hg⟩ := gather_cases c
    · exact ⟨c.cache, by rw [hg]⟩
    · cases hbuild.symm.trans he
    · cases hbuild.symm.trans hbuild'
      rw [hg]
      exact heach.gathers (forall_signer_of_build hto hb)
  obtain ⟨entries', built', hbuild', heach'⟩ := hsound gathered hgathered
  cases hbuild.symm.trans hbuild'
  rw [heach.unique heach', hgathered]

/-- Asking each signer once for all of its transactions comes to asking the signer of each entry for the entry alone,
since a signer of this library signs any indexes one by one. -/
theorem requests_sign_one_by_one :
    (∀ c, Reachable c → (∀ e ∈ c.entries, e.signer.Internal) → ∀ payloads,
      c.gather.result = .ok payloads ↔ ∃ entries built, build.run c = .ok entries built ∧
        built.SignedEach payloads) ∧
    ∀ s : Signer, s.Internal → s.OneByOne :=
  ⟨fun _ hr hb _ => gather_eq_ok_iff_each hr hb, fun _ hs => Signer.oneByOne hs⟩

/-- A key's transactions on both sides of one under a program's own authority. -/
def keyAroundProgram : Composer :=
  ({} : Composer).run [.addTransaction ⟨{}, .basic ⟨.zero 32⟩⟩,
    .addTransaction ⟨{}, .logicSig ⟨{ program := [0x01, 0x20] }, none⟩⟩, .addTransaction ⟨{}, .basic ⟨.zero 32⟩⟩]

theorem keyAroundProgram_signed_each :
    (∃ payloads entries built, keyAroundProgram.gather.result = .ok payloads ∧
      build.run keyAroundProgram = .ok entries built ∧ built.SignedEach payloads) ∧
    (Signer.basic ⟨.zero 32⟩).sign keyAroundProgram.txns [2, 0, 3, 7] = .error (.indexOutOfRange 3 3) := by
  obtain ⟨hgather, hsigner⟩ := requests_sign_one_by_one
  have hr : Reachable keyAroundProgram := Reachable.new.run _
  have hb : ∀ e ∈ keyAroundProgram.entries, e.signer.Internal := by
    change ∀ e ∈ [_, _, _], _
    simp [Signer.Internal]
  have hok : keyAroundProgram.gather.result.isOk := by decide +kernel
  have hout := (hsigner (.basic ⟨.zero 32⟩) trivial).outOfRange keyAroundProgram.txns [2, 0] 3 [7] (by decide) (by decide)
  refine ⟨?_, hout⟩
  cases hg : keyAroundProgram.gather.result with
  | error e =>
    rw [hg] at hok
    cases hok
  | ok payloads =>
    obtain ⟨entries, built, hbuild, heach⟩ := (hgather keyAroundProgram hr hb payloads).mp hg
    exact ⟨payloads, entries, built, rfl, hbuild, heach⟩

end Composer

end AtomicGroup
