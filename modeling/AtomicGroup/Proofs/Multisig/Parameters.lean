import AtomicGroup.Proofs.Address
import AtomicGroup.Proofs.Multisig.Union
import AtomicGroup.Proofs.Txn.Forms

/-!
# Where the parameters of a multisig account are checked

The version, the threshold and the number of keys are checked in one place, which making an account goes through, be it
of keys, of their texts or of an envelope. Reading an account as a record goes round it: `parameters_hold_unless_read`
says that every account whatsoever comes out of a JSON text and of octets. Envelopes of one that is not well formed are
refused wherever they are merged.
-/
namespace AtomicGroup

open Outcome

namespace MultisigAccount

variable {a : MultisigAccount}

/-- The bounds of the parameters, in numbers. -/
theorem wellFormed_iff : a.WellFormed ↔
    a.version = 1 ∧ 1 ≤ a.threshold.toNat ∧ a.threshold.toNat ≤ a.keys.length ∧ a.keys.length ≤ 255 := by
  constructor
  · intro h
    exact ⟨h.version_eq, h.threshold_pos, h.threshold_le, h.keys_le⟩
  · rintro ⟨hversion, hpos, hle, hmax⟩
    refine ⟨hversion, hmax, ?_, hle⟩
    intro hzero
    rw [hzero] at hpos
    exact absurd hpos (by decide)

/-- The texts of an account's keys are the only ones that name it. -/
theorem ofTexts_eq_ok {version threshold : UInt8} {texts : List String} : ofTexts version threshold texts = .ok a ↔
    version = a.version ∧ threshold = a.threshold ∧ texts = a.keys.map Address.text ∧ a.WellFormed := by
  have htexts {keys : List Address} : texts.mapM Address.ofText = .ok keys ↔ texts = keys.map Address.text := by
    have hmap : List.Forall₂ Eq texts (keys.map Address.text) ↔ _ := List.forall₂_map_right_iff
    rw [List.forall₂_eq_eq_eq] at hmap
    simp only [mapM_eq_ok, Address.ofText_eq_ok_iff, hmap]
  simp only [ofTexts, bind_eq_ok, mapError_eq_ok, htexts, make_eq_ok]
  constructor
  · rintro ⟨keys, rfl, rfl, h⟩
    exact ⟨rfl, rfl, rfl, h⟩
  · rintro ⟨rfl, rfl, rfl, h⟩
    exact ⟨a.keys, rfl, rfl, h⟩

theorem lawful_schema : schema.Lawful := ⟨by simp, by decide, fun _ => rfl⟩

/-- An account of any parameters reads back from its JSON text. -/
theorem ofJson_toJson (a : MultisigAccount) : schema.ofJson (schema.toJson a) = .ok a :=
  Wire.Schema.ofJson_toJson lawful_schema (by decide +kernel) a

theorem short_iff : schema.Short a ↔ a.keys.length < 0x100000000 := by
  simp [schema, Address.schema]

/-- An account of any parameters reads back from its octets. -/
theorem decode_encode (h : a.keys.length < 0x100000000) : schema.decode (schema.encode a) = .ok a :=
  Wire.Schema.decode_encode lawful_schema rfl (by decide +kernel) (short_iff.mpr h)

end MultisigAccount

/-- A signed transaction has an account when its envelope names one that is well formed. -/
theorem SignedTxn.multisigAccount?_eq_ok {bs : Bytes} {a : MultisigAccount} : multisigAccount? bs = .ok (some a) ↔
    ∃ s, decode bs = .ok s ∧ s.named = some a ∧ a.WellFormed := by
  have haccount {s : SignedTxn} : s.msig.mapM (·.account) = .ok (some a) ↔ s.named = some a ∧ a.WellFormed := by
    rw [named]
    cases s.msig with
    | none =>
      constructor
      · intro h
        cases h
      · rintro ⟨h, -⟩
        cases h
    | some e =>
      have hmap : (some e).mapM (·.account) = e.account >>= fun b => pure (some b) := rfl
      rw [hmap]
      simp only [bind_eq_ok, pure_eq_ok, MultisigEnvelope.account_eq_ok, Option.some_inj, exists_eq_right,
        Option.map_some]
  simp only [multisigAccount?, bind_eq_ok, mapError_eq_ok, haccount]

/-- Envelopes of an account that is not well formed are merged with none, on neither side. -/
theorem MultisigEnvelope.merge_of_not_wellFormed {e : MultisigEnvelope} (h : ¬e.named.WellFormed)
    (f : MultisigEnvelope) : (∃ err, e.merge f = .error err) ∧ ∃ err, f.merge e = .error err := by
  constructor
  · cases hmerge : e.merge f with
    | error err => exact ⟨err, rfl⟩
    | ok g => exact absurd (merge_eq_ok.mp hmerge).1 h
  · cases hmerge : f.merge e with
    | error err => exact ⟨err, rfl⟩
    | ok g =>
      obtain ⟨hwf, hnamed, -⟩ := merge_eq_ok.mp hmerge
      rw [← hnamed] at hwf
      exact absurd hwf h

namespace MultisigAccount

/-- An account that is made of its parameters, of the texts of its keys or of an envelope, encoded or not, is well
formed, and every such account is made so. Any account at all is read from JSON, and from octets if its keys are counted
in 32 bits; if it is not well formed, its envelopes never merge. -/
theorem parameters_hold_unless_read (a : MultisigAccount) :
    (a.WellFormed ↔
      a.version = 1 ∧ 1 ≤ a.threshold.toNat ∧ a.threshold.toNat ≤ a.keys.length ∧ a.keys.length ≤ 255) ∧
    (∀ version threshold keys, make version threshold keys = .ok a ↔ a = ⟨version, threshold, keys⟩ ∧ a.WellFormed) ∧
    (∀ version threshold texts, ofTexts version threshold texts = .ok a ↔
      version = a.version ∧ threshold = a.threshold ∧ texts = a.keys.map Address.text ∧ a.WellFormed) ∧
    (∀ e : MultisigEnvelope, e.account = .ok a ↔ e.named = a ∧ a.WellFormed) ∧
    (∀ bs, SignedTxn.multisigAccount? bs = .ok (some a) ↔
      ∃ s, SignedTxn.decode bs = .ok s ∧ s.named = some a ∧ a.WellFormed) ∧
    schema.ofJson (schema.toJson a) = .ok a ∧
    (a.keys.length < 0x100000000 → schema.decode (schema.encode a) = .ok a) ∧
    (¬a.WellFormed → ∀ e f : MultisigEnvelope, e.named = a →
      (∃ err, e.merge f = .error err) ∧ ∃ err, f.merge e = .error err) := by
  refine ⟨wellFormed_iff, fun _ _ _ => make_eq_ok, fun _ _ _ => ofTexts_eq_ok, fun _ => MultisigEnvelope.account_eq_ok,
    fun _ => SignedTxn.multisigAccount?_eq_ok, ofJson_toJson a, decode_encode, ?_⟩
  rintro h e f rfl
  exact MultisigEnvelope.merge_of_not_wellFormed h f

def outOfBounds : MultisigAccount := ⟨2, 3, [.zero]⟩

/-- It is read in both forms; no key text makes it, and its blank envelope does not even merge with itself. -/
theorem outOfBounds_read : schema.ofJson (schema.toJson outOfBounds) = .ok outOfBounds ∧
    schema.decode (schema.encode outOfBounds) = .ok outOfBounds ∧
    ofTexts 2 3 [Address.zero.text] ≠ .ok outOfBounds ∧
    ¬outOfBounds.WellFormed ∧
    ∃ err, (MultisigEnvelope.blank outOfBounds).merge (.blank outOfBounds) = .error err := by
  obtain ⟨hbounds, -, htexts, -, -, hjson, hoctets, hmerge⟩ := parameters_hold_unless_read outOfBounds
  have hnot : ¬outOfBounds.WellFormed := fun h => absurd (hbounds.mp h).1 (by decide)
  exact ⟨hjson, hoctets (by decide), fun h => hnot ((htexts _ _ _).mp h).2.2.2, hnot, (hmerge hnot _ _ rfl).1⟩

def keyless : MultisigAccount := ⟨1, 0, []⟩

/-- It cannot be made, and yet a text and octets read as it; then it is taken for a signer, which signs nothing. -/
theorem keyless_read : make 1 0 [] = .error (.threshold .noKeys) ∧ ¬keyless.WellFormed ∧
    schema.ofJson "\x7b\"version\":1,\"threshold\":0,\"public_keys\":[]\x7d" = .ok keyless ∧
    schema.decode ([0x83, 0xa7] ++ Utf8.encode "version" ++ [1, 0xa9] ++ Utf8.encode "threshold" ++ [0, 0xab] ++
      Utf8.encode "public_keys" ++ [0x90]) = .ok keyless ∧
    MultisigSigner.make keyless [] = .ok ⟨keyless, []⟩ ∧
    ∀ t, MultisigSigner.signTransaction ⟨keyless, []⟩ t = .error .nothingToMerge := by
  have hjson : schema.toJson keyless = "\x7b\"version\":1,\"threshold\":0,\"public_keys\":[]\x7d" := by decide +kernel
  have hoctets : schema.encode keyless = [0x83, 0xa7] ++ Utf8.encode "version" ++ [1, 0xa9] ++
      Utf8.encode "threshold" ++ [0, 0xab] ++ Utf8.encode "public_keys" ++ [0x90] := by decide +kernel
  refine ⟨rfl, fun h => h.threshold_ne_zero rfl, ?_, ?_, rfl, fun _ => rfl⟩
  · rw [← hjson]
    exact ofJson_toJson keyless
  · rw [← hoctets]
    exact decode_encode (by decide)

end MultisigAccount

end AtomicGroup
