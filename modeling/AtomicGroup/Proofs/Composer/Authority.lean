import AtomicGroup.Proofs.Composer.History
import AtomicGroup.Proofs.Signer

/-!
# Everything a composer signs is authorised

The payloads of a signed composer are what its signers gave when it was signed, however long ago that was: signers of
this library do not come to answer otherwise. Since each of them gives what carries its own authority, and msgpack is
read back, the payloads decode to the built transactions, each authorised by the signer of its entry.
-/
namespace AtomicGroup.Composer

open Outcome

/-- Payloads that the signers of some entries gave, one for each entry. -/
structure Collected (entries : List ComposerEntry) (payloads : List Bytes) : Prop where
  length : payloads.length = entries.length
  given : ∀ i payload, payloads[i]? = some payload →
    SignRequest.Gives (entries.map (·.txn)) (requests (entries.map (·.signer))) i payload

/-- A composer whose payloads, if it has any, were collected from its entries, as the signers outside behaved then. -/
def Traceable (c : Composer) : Prop :=
  c.status = .signed → ∃ entries : List ComposerEntry,
    (∀ b, entries.map (·.answering b) = c.entries.map (·.answering b)) ∧ Collected entries c.cache

theorem traceable_of_unsigned {c : Composer} (h : c.status ≠ .signed) : Traceable c := fun hs => absurd hs h

theorem traceable_gatherBuilt {c : Composer} (hs : c.status = .built) : Traceable c.gatherBuilt.composer := by
  obtain ⟨made, e, hg, -⟩ | ⟨payloads, hg, hn, -, hgiven⟩ := gatherBuilt_cases c
  · rw [hg]
    exact traceable_of_unsigned (by simp [hs])
  · rw [hg]
    exact fun _ => ⟨c.entries, fun _ => rfl, hn, hgiven⟩

theorem traceable_gather {c : Composer} (h : Traceable c) : Traceable c.gather.composer :=
  gather_induction h fun _ _ hs => traceable_gatherBuilt hs

theorem traceable_answering {c : Composer} (h : Traceable c) (b : Behaviour) : Traceable (c.answering b) := by
  intro hs
  obtain ⟨entries, hentries, hc⟩ := h hs
  refine ⟨entries, ?_, hc⟩
  intro b'
  rw [hentries b', answering, List.map_map]
  exact List.map_congr_left fun e _ => by simp [ComposerEntry.answering]

/-- Every event keeps payloads traceable. -/
theorem traceable_step {c : Composer} (h : Traceable c) (event : Event) : Traceable (c.step event).1 := by
  cases event with
  | addTransaction entry =>
    refine (atomic_addTransaction entry).after h fun u d hd => ?_
    obtain ⟨hs, -, -, rfl⟩ := addTransaction_eq_ok hd
    exact traceable_of_unsigned (by simp [hs])
  | addMethodCall call =>
    refine (atomic_addMethodCall call).after h fun u d hd => ?_
    obtain ⟨hs, -, _, _, -, rfl⟩ := addMethodCall_eq_ok hd
    exact traceable_of_unsigned (by simp [hs])
  | build =>
    refine atomic_build.after h fun entries d hd => ?_
    cases (build_eq_ok hd).2 with
    | same => exact h
    | lone | stamped => exact traceable_of_unsigned nofun
  | gather => exact traceable_gather h
  | outside b => exact traceable_answering h b

theorem traceable_of_reachable {c : Composer} (h : Reachable c) : Traceable c := by
  induction h with
  | new => exact traceable_of_unsigned nofun
  | step event _ ih => exact traceable_step ih event
  | reopen _ _ => exact traceable_of_unsigned nofun

section Internal

variable {c : Composer} {entries : List ComposerEntry} {payloads : List Bytes}

/-- No signer but a signer of this library comes to be it. -/
theorem signer_eq_of_answering {s u : Signer} (b : Behaviour) (h : s.answering b = u.answering b) (hu : u.Internal) :
    s = u := by
  have hsame : u.answering b = u := by
    cases u with
    | external e => exact hu.elim
    | _ => rfl
  rw [hsame] at h
  cases s with
  | external e =>
    subst h
    exact hu.elim
  | _ => exact h

theorem entry_eq_of_answering {e e' : ComposerEntry} (b : Behaviour) (h : e.answering b = e'.answering b)
    (hb : e'.signer.Internal) : e = e' := by
  obtain ⟨⟨txn, signer⟩, method⟩ := e
  obtain ⟨⟨txn', signer'⟩, method'⟩ := e'
  simp only [ComposerEntry.answering, ComposerEntry.mk.injEq, TxnEntry.mk.injEq] at h
  obtain ⟨⟨rfl, hsigner⟩, rfl⟩ := h
  rw [signer_eq_of_answering b hsigner hb]

theorem entries_eq_of_answering {entries' : List ComposerEntry}
    (h : ∀ b, entries.map (·.answering b) = entries'.map (·.answering b)) (hb : ∀ e ∈ entries', e.signer.Internal) :
    entries = entries' := by
  have hsame := h .silent
  clear h
  induction entries generalizing entries' with
  | nil =>
    cases entries' with
    | nil => rfl
    | cons => cases hsame
  | cons e entries ih =>
    cases entries' with
    | nil => cases hsame
    | cons e' entries' =>
      obtain ⟨hhead, htail⟩ := List.cons.inj hsame
      obtain ⟨he', hentries'⟩ := List.forall_mem_cons.mp hb
      rw [entry_eq_of_answering _ hhead he', ih hentries' htail]

theorem coherent_of_internal {signers : List Signer} (h : ∀ s ∈ signers, s.Internal) : Signer.Coherent signers where
  symm a ha b _ hab := by
    rw [Signer.eq_of_same (h a ha) hab]
    exact Signer.same_refl b
  trans a ha b hb d _ hab hbd := by
    rw [Signer.eq_of_same (h a ha) hab, Signer.eq_of_same (h b hb) hbd]
    exact Signer.same_refl d

/-- Collected payloads are what each entry's own signer makes of its transaction. -/
theorem signs_of_collected (hb : ∀ e ∈ entries, e.signer.Internal) (h : Collected entries payloads) :
    List.Forall₂ (fun (e : ComposerEntry) payload => ∃ signed, e.signer.Signs e.txn signed ∧ payload = signed.encode)
      entries payloads := by
  have hsigners : ∀ s ∈ entries.map (·.signer), s.Internal := by
    intro s hs
    obtain ⟨e, he, rfl⟩ := List.mem_map.mp hs
    exact hb e he
  have hasks := asks_requests (coherent_of_internal hsigners)
  rw [List.forall₂_iff_get]
  refine ⟨h.length.symm, ?_⟩
  intro i hi hi'
  obtain ⟨r, hr, answers, hanswered, hzip⟩ := h.given i payloads[i] (List.getElem?_eq_getElem hi')
  have hinternal := hsigners r.signer (hasks.signer_mem hr)
  obtain ⟨s, hs, hsame⟩ := (hasks.own r hr i).mp (List.of_mem_zip hzip).1
  obtain ⟨-, hrespond⟩ := List.forall₂_iff_zip.mp ((Signer.respond_eq_ok hinternal).mp hanswered.1)
  obtain ⟨t, signed, ht, hsigns, hpayload⟩ := hrespond hzip
  rw [List.getElem?_map, List.getElem?_eq_getElem hi] at hs ht
  cases hs
  cases ht
  rw [Signer.eq_of_same hinternal hsame] at hsigns
  exact ⟨signed, hsigns, hpayload⟩

/-- What a reachable composer gathers was collected from the entries of the built composer. -/
theorem collected_of_gather (hr : Reachable c) (hb : ∀ e ∈ c.entries, e.signer.Internal)
    (h : c.gather.result = .ok payloads) :
    ∃ built, build.run c = .ok built.transactions built ∧ built.status ≠ .building ∧
      Collected built.entries payloads := by
  obtain ⟨hs, hg⟩ | ⟨e, -, hg⟩ | ⟨built, hbuild, -, hs, hg⟩ := gather_cases c
  · rw [hg] at h
    cases h
    obtain ⟨entries, hentries, hc⟩ := traceable_of_reachable hr hs
    rw [entries_eq_of_answering hentries hb] at hc
    exact ⟨c, run_build_of_built (by simp [hs]), by simp [hs], hc⟩
  · rw [hg] at h
    cases h
  · rw [hg] at h
    obtain ⟨made, e, hgb, -⟩ | ⟨payloads', hgb, hn, -, hgiven⟩ := gatherBuilt_cases built
    · rw [hgb] at h
      cases h
    · rw [hgb] at h
      cases h
      exact ⟨built, hbuild, by simp [hs], hn, hgiven⟩

end Internal

/-- What a signed transaction has to do with its entry in the group: it is the entry's transaction, authorised by
the entry's signer, whose address is written down when it is not the sender's. -/
structure Fulfils (e : ComposerEntry) (signed : SignedTxn) : Prop where
  txn : signed.txn = e.txn
  authorizer : e.signer.authority? = some signed.authorizer
  signer : signed.signer.isSome ↔ signed.authorizer ≠ e.txn.header.sender
  authorised : signed.Authorised

/-- Building leaves the signers as they are. -/
theorem forall_signer_of_build {p : Signer → Prop} {c built : Composer} (h : BuildsTo c built)
    (hp : ∀ e ∈ c.entries, p e.signer) : ∀ e ∈ built.entries, p e.signer := by
  intro e he
  have hmem : e.signer ∈ c.entries.map (·.signer) := signers_of_build h ▸ List.mem_map.mpr ⟨e, he, rfl⟩
  obtain ⟨e', he', hs⟩ := List.mem_map.mp hmem
  rw [← hs]
  exact hp e' he'

/-- Stamping a group leaves its texts, byte strings and lists as they are. -/
theorem short_of_build {c built : Composer} (h : BuildsTo c built)
    (hs : ∀ e ∈ c.entries, Transaction.schema.Short e.txn ∧ e.signer.Short) :
    ∀ e ∈ built.entries, Transaction.schema.Short e.txn ∧ e.signer.Short := by
  cases h with
  | same | lone => exact hs
  | stamped =>
    intro e he
    obtain ⟨e', he', rfl⟩ := List.mem_map.mp he
    exact ⟨Transaction.short_withGroup.mpr (hs e' he').1, (hs e' he').2⟩

/-- All that a composer gathers from signers of this library decodes to the built group, each transaction of which is
authorised by the signer of its entry, as far as the keys make good signatures of what they sign. -/
theorem gathered_authorised {c : Composer} (hr : Reachable c) (hb : ∀ e ∈ c.entries, e.signer.BuiltIn)
    (hshort : ∀ e ∈ c.entries, Transaction.schema.Short e.txn ∧ e.signer.Short)
    (hgood : ∀ entries built, build.run c = .ok entries built → ∀ e ∈ built.entries, ∀ key ∈ e.signer.keys,
      key.Attests e.txn.bytesToSign)
    {payloads : List Bytes} (h : c.gather.result = .ok payloads) :
    ∃ built signed, build.run c = .ok built.transactions built ∧
      List.Forall₂ (fun payload s => SignedTxn.decode payload = .ok s) payloads signed ∧
      List.Forall₂ Fulfils built.entries signed ∧ Group.verify (signed.map (·.txn)) = .ok true := by
  obtain ⟨built, hbuild, hstatus, hcollected⟩ := collected_of_gather hr (fun e he => (hb e he).internal) h
  have hto : BuildsTo c built := (build_eq_ok hbuild).2
  have hgrouped : Grouped built.txns := (sound_build (sound_of_reachable hr) hto).grouped hstatus
  have hbuiltIn := forall_signer_of_build hto hb
  have hsigns := signs_of_collected (fun e he => (hbuiltIn e he).internal) hcollected
  -- Stamping keeps to all that is asked of the entries; only the messages that are signed are the built ones.
  have hentries : ∀ e ∈ built.entries, e.signer.BuiltIn ∧ (Transaction.schema.Short e.txn ∧ e.signer.Short) ∧
      ∀ key ∈ e.signer.keys, key.Attests e.txn.bytesToSign :=
    fun e he => ⟨hbuiltIn e he, short_of_build hto hshort e he, hgood _ built hbuild e he⟩
  have hdecode : List.Forall₂ (fun e payload => ∃ s, Fulfils e s ∧ SignedTxn.decode payload = .ok s)
      built.entries payloads := by
    refine ((List.forall₂_and_left _ _).mpr ⟨hentries, hsigns⟩).imp ?_
    rintro e payload ⟨⟨hbe, ⟨htxn, hsigner⟩, hkeys⟩, s, hs, rfl⟩
    obtain ⟨ht, ha, hw, hv⟩ := Signer.authorised_of_signs hbe hs hkeys
    exact ⟨s, ⟨ht, ha, hw, hv⟩, SignedTxn.decode_encode (Signer.short_of_signs hbe hsigner hs htxn)⟩
  obtain ⟨signed, hfulfils, hpayloads⟩ := forall₂_comp_iff.mp hdecode
  have htxns : signed.map (·.txn) = built.txns := by
    rw [← List.forall₂_eq_eq_eq, txns, List.forall₂_map_left_iff, List.forall₂_map_right_iff]
    exact hfulfils.flip.imp fun s e hse => hse.txn
  refine ⟨built, signed, hbuild, hpayloads.flip, hfulfils, ?_⟩
  rw [htxns]
  exact hgrouped.verifies

/-- A key's transaction and one under a program's own authority, added to a new composer. -/
def keyAndProgram : Composer :=
  ({} : Composer).run [.addTransaction ⟨{}, .basic ⟨.zero 32⟩⟩,
    .addTransaction ⟨{}, .logicSig ⟨{ program := [0x01, 0x20] }, none⟩⟩]

theorem keyAndProgram_authorised : ∃ payloads built signed, keyAndProgram.gather.result = .ok payloads ∧
    build.run keyAndProgram = .ok built.transactions built ∧
    List.Forall₂ (fun payload s => SignedTxn.decode payload = .ok s) payloads signed ∧
    List.Forall₂ Fulfils built.entries signed ∧ Group.verify (signed.map (·.txn)) = .ok true := by
  have hr : Reachable keyAndProgram := Reachable.new.run _
  have hentries : keyAndProgram.entries = [⟨⟨{}, .basic ⟨.zero 32⟩⟩, none⟩,
    ⟨⟨{}, .logicSig ⟨{ program := [0x01, 0x20] }, none⟩⟩, none⟩] := rfl
  have hb : ∀ e ∈ keyAndProgram.entries, e.signer.BuiltIn := by
    simp [hentries, Signer.BuiltIn]
  have hshort : ∀ e ∈ keyAndProgram.entries, Transaction.schema.Short e.txn ∧ e.signer.Short := by
    simp [hentries, Transaction.short_default, Signer.Short, LogicSig.schema]
  have hbuild : ∃ entries, build.run keyAndProgram = .ok entries { keyAndProgram with
      status := .built, entries := keyAndProgram.entries.map (·.stamp (Group.digest keyAndProgram.txns)) } := ⟨_, rfl⟩
  have hkey : (KeyPair.mk (.zero 32)).Attests
      (Transaction.withGroup {} (Group.digest keyAndProgram.txns)).bytesToSign :=
    KeyPair.attests_of_isOk (by decide +kernel)
  have hgood : ∀ entries built, build.run keyAndProgram = .ok entries built → ∀ e ∈ built.entries,
      ∀ key ∈ e.signer.keys, key.Attests e.txn.bytesToSign := by
    intro entries built hbuilt
    obtain ⟨_, hbuild⟩ := hbuild
    cases hbuild.symm.trans hbuilt
    simp [hentries, Signer.keys, hkey]
  have hok : keyAndProgram.gather.result.isOk := by decide +kernel
  cases hgather : keyAndProgram.gather.result with
  | error e =>
    rw [hgather] at hok
    cases hok
  | ok payloads =>
    obtain ⟨built, signed, h⟩ := gathered_authorised hr hb hshort hgood hgather
    exact ⟨payloads, built, signed, rfl, h⟩

end AtomicGroup.Composer
