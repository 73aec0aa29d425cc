import AtomicGroup.Params
import AtomicGroup.Proofs.Json.Format
import AtomicGroup.Proofs.Outcome

/-!
# Parameters and their files

`Keeps` says that a file keeps some parameters: its numbers are the same integers and its genesis hash is the text of
theirs. Converting in either direction means just that, so that the two directions undo each other as long as the
numbers are within the signed range. `Refused` says which files keep no parameters.
-/
namespace AtomicGroup

open Outcome

structure SuggestedParams.InRange (p : SuggestedParams) : Prop where
  fee_lt : p.fee.toNat < 0x8000000000000000
  firstValid_lt : p.firstValid.toNat < 0x8000000000000000
  lastValid_lt : p.lastValid.toNat < 0x8000000000000000

namespace ParamsFile

variable {f : ParamsFile} {p : SuggestedParams}

structure Keeps (f : ParamsFile) (p : SuggestedParams) : Prop where
  fee_eq : f.fee.toInt = p.fee.toNat
  genesisId_eq : f.genesisId = p.genesisId
  genesisHash_eq : f.genesisHash = p.genesisHash.text
  firstValid_eq : f.firstValid.toInt = p.firstValid.toNat
  lastValid_eq : f.lastValid.toInt = p.lastValid.toNat
  flatFee_eq : f.flatFee = p.flatFee

/-- The numbers of a file under their names, in the order in which they are checked. -/
def numbers (f : ParamsFile) : List (String × Int64) :=
  [("fee", f.fee), ("first_valid", f.firstValid), ("last_valid", f.lastValid)]

/-- The files that keep no parameters. The genesis hash is looked at before the numbers. -/
inductive Refused (f : ParamsFile) : ConfigError → Prop where
  | base64 (h : ∀ bs, f.genesisHash ≠ Base64.encode bs) :
    Refused f (.genesisHash (.base64 (.ofBytes (Utf8.encode f.genesisHash))))
  | length {bs : Bytes} (h : f.genesisHash = Base64.encode bs) (hlen : bs.length ≠ 32) :
    Refused f (.genesisHash (.length bs.length))
  | negative {d : Digest} {i : Nat} {field : String} {value : Int64} (h : f.genesisHash = d.text)
    (hfirst : FirstAt (fun n => n.2.toInt < 0) f.numbers i (field, value)) : Refused f (.negative field value)

section Numbers

variable {field : String} {value : Int64} {n : UInt64}

/-- A number that is not refused is the same integer. -/
theorem nonNegative_eq_ok : nonNegative field value = .ok n ↔ value.toInt = n.toNat := by
  rw [nonNegative]
  split
  case isTrue hneg =>
    have hneg : value.toInt < 0 := Int64.lt_iff_toInt_lt.mp hneg
    exact ⟨nofun, fun h => by omega⟩
  case isFalse hnonneg =>
    have hpos : 0 ≤ value := Int64.not_lt.mp hnonneg
    have hint : value.toInt = value.toUInt64.toNat := by
      have hclamp := Int64.toNat_toUInt64_of_le hpos
      have hle : 0 ≤ value.toInt := Int64.le_iff_toInt_le.mp hpos
      rw [Int64.toNatClampNeg] at hclamp
      omega
    rw [Except.ok.injEq, hint, Int.ofNat_inj, UInt64.toNat_inj]

/-- A number that is not negative is some unsigned one. -/
theorem exists_toNat_eq (h : ¬value.toInt < 0) : ∃ n : UInt64, value.toInt = n.toNat := by
  have hok : nonNegative "" value = .ok value.toUInt64 := if_neg fun hneg => h (Int64.lt_iff_toInt_lt.mp hneg)
  exact ⟨value.toUInt64, nonNegative_eq_ok.mp hok⟩

theorem nonNegative_eq_error {e : ConfigError} :
    nonNegative field value = .error e ↔ value.toInt < 0 ∧ e = .negative field value := by
  have hneg : value < 0 ↔ value.toInt < 0 := Int64.lt_iff_toInt_lt
  rw [nonNegative, ← hneg]
  split
  case isTrue h => simp [h, eq_comm]
  case isFalse h => simp [h]

/-- A number is cut to the largest signed one. -/
theorem toInt_clamp (n : UInt64) : (clamp n).toInt = min (n.toNat : Int) 0x7fffffffffffffff := by
  have hmax : Int64.maxValue.toUInt64.toNat = 0x7fffffffffffffff := by decide
  have hle : n ≤ Int64.maxValue.toUInt64 ↔ n.toNat < 0x8000000000000000 := by
    rw [UInt64.le_iff_toNat_le]
    omega
  rw [clamp, if_congr hle rfl rfl]
  split
  case isTrue h =>
    have hint : n.toInt64.toInt = n.toNat := by
      rw [← Int64.toInt_ofNat_of_lt h, ← UInt64.toInt64_ofNat', UInt64.ofNat_toNat]
    omega
  case isFalse h =>
    have hint : Int64.maxValue.toInt = 0x7fffffffffffffff := by decide
    omega

theorem clamp_eq_iff (h : n.toNat < 0x8000000000000000) : clamp n = value ↔ value.toInt = n.toNat := by
  have hclamp := toInt_clamp n
  rw [← Int64.toInt_inj]
  omega

end Numbers

section GenesisHash

variable {text : String}

theorem readGenesisHash_eq_ok {d : Digest} : readGenesisHash text = .ok d ↔ text = d.text := by
  rw [Digest.text, ← Base64.decode_eq_ok, readGenesisHash]
  cases Base64.decode text with
  | error fault => simp
  | ok bs =>
    have hdigest : Digest.ofBytes? bs = some d ↔ bs = d.bytes := Digest.ofBytes?_eq_some_iff.trans eq_comm
    simp only [Except.ok.injEq]
    rw [← hdigest]
    split <;> simp [*]

/-- A genesis hash that is refused is no text of base 64, or one of another number of octets. -/
theorem readGenesisHash_eq_error {e : ConfigError} : readGenesisHash text = .error e ↔
    ((∀ bs, text ≠ Base64.encode bs) ∧ e = .genesisHash (.base64 (.ofBytes (Utf8.encode text)))) ∨
      ∃ bs, text = Base64.encode bs ∧ bs.length ≠ 32 ∧ e = .genesisHash (.length bs.length) := by
  simp only [ne_eq, ← Base64.decode_eq_ok]
  rw [readGenesisHash]
  cases hread : Base64.decode text with
  | error fault =>
    obtain ⟨-, rfl⟩ := Base64.decode_eq_error.mp hread
    simp [eq_comm]
  | ok bs =>
    cases hdigest : Digest.ofBytes? bs with
    | none =>
      have hlen := Digest.ofBytes?_eq_none_iff.mp hdigest
      simp [hdigest, hlen, eq_comm]
    | some d =>
      obtain rfl := Digest.ofBytes?_eq_some_iff.mp hdigest
      simp [hdigest]

end GenesisHash

/-- Converting a file gives the parameters that it keeps. -/
theorem toParams_eq_ok : f.toParams = .ok p ↔ f.Keeps p := by
  simp only [toParams, bind_eq_ok, readGenesisHash_eq_ok, nonNegative_eq_ok, pure_eq_ok]
  constructor
  · rintro ⟨genesisHash, hhash, fee, hfee, firstValid, hfirst, lastValid, hlast, rfl⟩
    exact ⟨hfee, rfl, hhash, hfirst, hlast, rfl⟩
  · intro h
    refine ⟨p.genesisHash, h.genesisHash_eq, p.fee, h.fee_eq, p.firstValid, h.firstValid_eq, p.lastValid,
      h.lastValid_eq, ?_⟩
    rw [h.genesisId_eq, h.flatFee_eq]

/-- A number after others that are not refused. -/
theorem refused_negative {d : Digest} (front : List (String × Int64)) {back : List (String × Int64)}
    {field : String} {value : Int64} (hhash : f.genesisHash = d.text)
    (hnumbers : f.numbers = front ++ (field, value) :: back) (hfront : ∀ n ∈ front, 0 ≤ n.2.toInt)
    (hneg : value.toInt < 0) : f.Refused (.negative field value) := by
  refine .negative hhash (i := front.length) ⟨?_, hneg, fun j n hj hn => ?_⟩
  · rw [hnumbers, List.getElem?_append_right (Nat.le_refl _), Nat.sub_self, List.getElem?_cons_zero]
  · rw [hnumbers, List.getElem?_append_left hj] at hn
    exact Int.not_lt.mpr (hfront n (List.mem_of_getElem? hn))

/-- Converting a file fails as it is refused. -/
theorem toParams_eq_error {e : ConfigError} : f.toParams = .error e ↔ f.Refused e := by
  simp only [toParams, bind_eq_error, readGenesisHash_eq_error, readGenesisHash_eq_ok, nonNegative_eq_error,
    nonNegative_eq_ok]
  constructor
  · rintro ((⟨hhash, rfl⟩ | ⟨bs, hhash, hlen, rfl⟩) | ⟨d, hhash, h⟩)
    · exact .base64 hhash
    · exact .length hhash hlen
    · rcases h with ⟨hneg, rfl⟩ | ⟨fee, hfee, ⟨hneg, rfl⟩ | ⟨firstValid, hfirst, ⟨hneg, rfl⟩ | ⟨_, _, h⟩⟩⟩
      · exact refused_negative [] hhash rfl nofun hneg
      · exact refused_negative [("fee", f.fee)] hhash rfl (by simp [hfee]) hneg
      · exact refused_negative [("fee", f.fee), ("first_valid", f.firstValid)] hhash rfl (by simp [hfee, hfirst]) hneg
      · cases h
  · intro h
    cases h with
    | base64 hhash => exact .inl (.inl ⟨hhash, rfl⟩)
    | length hhash hlen => exact .inl (.inr ⟨_, hhash, hlen, rfl⟩)
    | @negative d i field value hhash hfirst =>
      refine .inr ⟨d, hhash, ?_⟩
      obtain ⟨hget, hneg, hbefore⟩ := hfirst
      match i with
      | 0 =>
        cases hget
        exact .inl ⟨hneg, rfl⟩
      | 1 =>
        cases hget
        obtain ⟨fee, hfee⟩ := exists_toNat_eq (hbefore 0 _ (by decide) rfl)
        exact .inr ⟨fee, hfee, .inl ⟨hneg, rfl⟩⟩
      | 2 =>
        cases hget
        obtain ⟨fee, hfee⟩ := exists_toNat_eq (hbefore 0 _ (by decide) rfl)
        obtain ⟨firstValid, hfirst⟩ := exists_toNat_eq (hbefore 1 _ (by decide) rfl)
        exact .inr ⟨fee, hfee, .inr ⟨firstValid, hfirst, .inl ⟨hneg, rfl⟩⟩⟩
      | _ + 3 => cases hget

/-- What a file keeps is within the signed range. -/
theorem Keeps.inRange (h : f.Keeps p) : p.InRange := by
  obtain ⟨hfee, -, -, hfirst, hlast, -⟩ := h
  have hbound : ∀ value : Int64, value.toInt < 0x8000000000000000 := fun value => value.toInt_lt
  have := hbound f.fee
  have := hbound f.firstValid
  have := hbound f.lastValid
  constructor <;> omega

/-- One file keeps parameters in the signed range, and it is what they are converted to. -/
theorem ofParams_eq_iff (h : p.InRange) : ofParams p = f ↔ f.Keeps p := by
  obtain ⟨fee, genesisId, genesisHash, firstValid, lastValid, flatFee⟩ := f
  rw [ofParams, ParamsFile.mk.injEq, clamp_eq_iff h.fee_lt, clamp_eq_iff h.firstValid_lt, clamp_eq_iff h.lastValid_lt]
  constructor
  · rintro ⟨hfee, rfl, rfl, hfirst, hlast, rfl⟩
    exact ⟨hfee, rfl, rfl, hfirst, hlast, rfl⟩
  · rintro ⟨hfee, rfl, rfl, hfirst, hlast, rfl⟩
    exact ⟨hfee, rfl, rfl, hfirst, hlast, rfl⟩

theorem lawful_schema : schema.Lawful := ⟨by simp, by decide, fun _ => rfl⟩

/-- A file is loaded as it was saved. -/
theorem load_save (f : ParamsFile) : load (some f.save) = .ok f := by
  rw [load, save, Wire.Schema.ofJson_pretty lawful_schema (by decide +kernel)]
  rfl

/-- The files that are refused in one way or another. -/
theorem exists_toParams_eq_error_iff : (∃ e, f.toParams = .error e) ↔
    (∀ bs, bs.length = 32 → f.genesisHash ≠ Base64.encode bs) ∨ ∃ n ∈ f.numbers, n.2.toInt < 0 := by
  constructor
  · rintro ⟨e, he⟩
    cases toParams_eq_error.mp he with
    | base64 hhash => exact .inl fun bs _ => hhash bs
    | @length bs hhash hlen =>
      refine .inl fun bs' hlen' htext => hlen ?_
      rw [Base64.encode_injective (hhash.symm.trans htext), hlen']
    | negative hhash hfirst => exact .inr ⟨_, List.mem_of_getElem? hfirst.getElem?_eq, hfirst.holds⟩
  · intro h
    cases hconvert : f.toParams with
    | error e => exact ⟨e, rfl⟩
    | ok p =>
      obtain ⟨hfee, -, hhash, hfirst, hlast, -⟩ := toParams_eq_ok.mp hconvert
      rcases h with hnone | hneg
      · exact absurd hhash (hnone _ p.genesisHash.length_bytes)
      · have hneg : f.fee.toInt < 0 ∨ f.firstValid.toInt < 0 ∨ f.lastValid.toInt < 0 := by
          simpa [numbers] using hneg
        omega

/-- A file from which parameters come keeps them, each number being the same integer, and is what they go back to.
Parameters in the signed range come back from the text that their file is saved as. A file is refused for its genesis
hash, unless that is the base 64 text of 32 octets, and else for the first of its numbers that is negative. -/
theorem conversions_lossless :
    (∀ (f : ParamsFile) p, f.toParams = .ok p → f.Keeps p ∧ ofParams p = f) ∧
    (∀ p : SuggestedParams, p.InRange → (load (some (ofParams p).save) >>= toParams) = .ok p) ∧
    (∀ (f : ParamsFile) e, f.toParams = .error e ↔ f.Refused e) ∧
    ∀ f : ParamsFile, (∃ e, f.toParams = .error e) ↔
      (∀ bs, bs.length = 32 → f.genesisHash ≠ Base64.encode bs) ∨ ∃ n ∈ f.numbers, n.2.toInt < 0 := by
  refine ⟨fun f p h => ?_, fun p h => ?_, fun f e => toParams_eq_error, fun f => exists_toParams_eq_error_iff⟩
  · have hkeeps := toParams_eq_ok.mp h
    exact ⟨hkeeps, (ofParams_eq_iff hkeeps.inRange).mpr hkeeps⟩
  · rw [load_save, ok_bind, toParams_eq_ok]
    exact (ofParams_eq_iff h).mp rfl

def largest : SuggestedParams where
  fee := 0x7fffffffffffffff
  genesisId := "a \"net\"\n\\"
  firstValid := 0x7fffffffffffffff
  lastValid := 0x7fffffffffffffff
  flatFee := true

/-- They come back; with three octets for a hash they are refused before the fee is looked at, and of two negative
numbers the fee is named. -/
theorem largest_kept : (load (some (ofParams largest).save) >>= toParams) = .ok largest ∧
    ParamsFile.toParams { ofParams largest with genesisHash := "AAAA", fee := -1 } =
      .error (.genesisHash (.length 3)) ∧
    ParamsFile.toParams { ofParams largest with lastValid := Int64.minValue, fee := -1 } =
      .error (.negative "fee" (-1)) := by
  obtain ⟨-, hback, hrefused, -⟩ := conversions_lossless
  refine ⟨hback largest ⟨by decide, by decide, by decide⟩, (hrefused _ _).mpr ?_, (hrefused _ _).mpr ?_⟩
  · exact @Refused.length _ [0, 0, 0] (by decide) (by decide)
  · exact refused_negative [] (d := .zero) rfl rfl nofun (by decide)

end ParamsFile

end AtomicGroup
