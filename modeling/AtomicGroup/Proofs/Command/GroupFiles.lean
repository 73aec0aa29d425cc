import AtomicGroup.Command.Report
import AtomicGroup.Proofs.Text.Lines
import AtomicGroup.Proofs.Txn.Encoded

/-!
# Files of encoded transactions

What the command that stamps a group prints is a file again: its lines are read back as the byte strings that were
printed. Reading fails at the first line that is neither blank nor base 64 text.
-/
namespace AtomicGroup

open Outcome

namespace Report

/-- A line that is neither blank nor base 64 text. -/
def Unreadable (line : String) : Prop := Lines.trim line ≠ "" ∧ Base64.decode? (Lines.trim line) = none

instance : DecidablePred Unreadable := fun line =>
  inferInstanceAs (Decidable (Lines.trim line ≠ "" ∧ Base64.decode? (Lines.trim line) = none))

theorem Unreadable.exists_fault {line : String} (h : Unreadable line) :
    ∃ fault, Base64.decode (Lines.trim line) = .error fault := ⟨_, Base64.decode_eq_error.mpr ⟨h.2, rfl⟩⟩

/-- A line that is blank or base 64 text lets the lines behind it fail as they do. -/
theorem decodeLines_cons_of_readable {number : Nat} {line : String} {rest : List String} (h : ¬Unreadable line)
    {err : CommandError} : decodeLines number (line :: rest) = .error err ↔
      decodeLines (number + 1) rest = .error err := by
  by_cases hblank : Lines.trim line = ""
  · simp only [decodeLines, if_pos hblank]
  · obtain ⟨bs, hbs⟩ := Option.ne_none_iff_exists'.mp fun hnone => h ⟨hblank, hnone⟩
    have hdecode : Base64.decode (Lines.trim line) = .ok bs := by
      rw [Base64.decode, hbs]
    simp only [decodeLines, if_neg hblank, hdecode]
    cases decodeLines (number + 1) rest <;> simp [bind, Except.bind, pure, Except.pure]

theorem decodeLines_eq_error {number : Nat} {lines : List String} {err : CommandError} :
    decodeLines number lines = .error err ↔ ∃ i line fault, FirstAt Unreadable lines i line ∧
      Base64.decode (Lines.trim line) = .error fault ∧ err = .line (number + i) fault := by
  induction lines generalizing number with
  | nil => exact iff_of_false (by simp [decodeLines]) fun ⟨_, _, _, hfirst, _⟩ => not_firstAt_nil hfirst
  | cons line rest ih =>
    by_cases hbad : Unreadable line
    · obtain ⟨fault, hfault⟩ := hbad.exists_fault
      simp only [decodeLines, if_neg hbad.1, hfault, firstAt_cons_of_pos hbad]
      constructor
      · intro h
        exact ⟨0, line, fault, ⟨rfl, rfl⟩, hfault, (Except.error.inj h).symm⟩
      · rintro ⟨i, line', fault', ⟨rfl, rfl⟩, hfault', rfl⟩
        cases hfault.symm.trans hfault'
        rfl
    · rw [decodeLines_cons_of_readable hbad, ih]
      simp only [firstAt_cons_of_neg hbad]
      constructor
      · rintro ⟨i, line', fault, hfirst, hfault, rfl⟩
        exact ⟨i + 1, line', fault, ⟨i, rfl, hfirst⟩, hfault, by rw [Nat.add_right_comm, Nat.add_assoc]⟩
      · rintro ⟨i, line', fault, ⟨j, rfl, hfirst⟩, hfault, rfl⟩
        exact ⟨j, line', fault, hfirst, hfault, by rw [Nat.add_right_comm, Nat.add_assoc]⟩

theorem encodedLines_eq_error {text : String} {err : CommandError} :
    encodedLines (some text) = .error err ↔ ∃ i line fault, FirstAt Unreadable (Lines.lines text) i line ∧
      Base64.decode (Lines.trim line) = .error fault ∧ err = .line (i + 1) fault := by
  simp only [encodedLines, decodeLines_eq_error, Nat.add_comm]

/-- The text of byte strings in base 64, one on each line. -/
def ofEncoded (encoded : List Bytes) : String := ofLines (encoded.map Base64.encode)

theorem decodeLines_map_encode (number : Nat) {encoded : List Bytes} (h : ∀ bs ∈ encoded, bs ≠ []) :
    decodeLines number (encoded.map Base64.encode) = .ok encoded := by
  induction encoded generalizing number with
  | nil => rfl
  | cons bs rest ih =>
    obtain ⟨hbs, hrest⟩ := List.forall_mem_cons.mp h
    simp only [List.map_cons, decodeLines, Base64.trim_encode, if_neg (Base64.encode_ne_empty hbs),
      Base64.decode_eq_ok.mpr rfl, ih (number + 1) hrest]
    rfl

theorem encodedLines_ofEncoded {encoded : List Bytes} (h : ∀ bs ∈ encoded, bs ≠ []) :
    encodedLines (some (ofEncoded encoded)) = .ok encoded := by
  have hlines : Lines.lines (ofEncoded encoded) = encoded.map Base64.encode := by
    apply Lines.lines_join
    · intro text htext
      obtain ⟨bs, -, rfl⟩ := List.mem_map.mp htext
      exact Base64.not_mem_encode_of_isBlank rfl
    · intro text htext
      obtain ⟨bs, -, rfl⟩ := List.mem_map.mp htext
      exact Base64.not_mem_encode_of_isBlank rfl
  rw [encodedLines, hlines, decodeLines_map_encode 1 h]

theorem groupAssign_eq_ok {text : String} {encoded : List Bytes} {txns : List Transaction} {gid : Digest}
    (hlines : encodedLines (some text) = .ok encoded) (hdecode : Group.decode encoded = .ok txns)
    (hid : Group.id txns = .ok gid) : groupAssign (some text) = .ok (ofEncoded (Group.stamped gid txns)) := by
  simp only [groupAssign, hlines, ok_bind, Group.assignEncoded_eq_ok hdecode hid]
  rfl

/-- A line that cannot be read is what every command on a group reports. -/
theorem group_eq_error {text : String} {err : CommandError} (h : encodedLines (some text) = .error err) :
    groupAssign (some text) = .error err ∧ groupVerify (some text) = .error err ∧
      groupFind (some text) = .error err := by
  simp only [groupAssign, groupVerify, groupFind, h]
  exact ⟨rfl, rfl, rfl⟩

/-- Grouping through files is coherent. Whatever a file of at most sixteen transactions looks like, stamping it prints a
file of the same transactions that is one valid group and is reproduced when it is stamped again. What cannot be read is
named by its position, a byte string that is no transaction by its index and a line by its number, with what is wrong
with it. -/
theorem group_files_coherent (text : String) :
    (∀ encoded txns, encodedLines (some text) = .ok encoded → 1 ≤ encoded.length → encoded.length ≤ maxGroupSize →
      Group.decode encoded = .ok txns → (∀ t ∈ txns, Transaction.schema.Short t) →
      ∃ gid stamped printed, Group.id txns = .ok gid ∧ Group.assignEncoded encoded = .ok stamped ∧
        Group.decode stamped = .ok (txns.map (·.withGroup gid)) ∧ groupAssign (some text) = .ok printed ∧
        encodedLines (some printed) = .ok stamped ∧ Group.verifyEncoded stamped = .ok true ∧
        (gid ≠ .zero → Group.segmentEncoded stamped = .ok (List.replicate encoded.length 0)) ∧
        groupAssign (some printed) = .ok printed) ∧
    (∀ encoded : List Bytes, (∃ bs ∈ encoded, Undecodable bs) →
      ∃ i bs e, FirstAt Undecodable encoded i bs ∧ Transaction.decode bs = .error e ∧
        Group.assignEncoded encoded = .error (.decode i e) ∧ Group.verifyEncoded encoded = .error (.decode i e) ∧
        Group.segmentEncoded encoded = .error (.decode i e)) ∧
    ((∃ line ∈ Lines.lines text, Unreadable line) →
      ∃ i line fault, FirstAt Unreadable (Lines.lines text) i line ∧ Base64.decode (Lines.trim line) = .error fault ∧
        encodedLines (some text) = .error (.line (i + 1) fault) ∧
        groupAssign (some text) = .error (.line (i + 1) fault) ∧
        groupVerify (some text) = .error (.line (i + 1) fault) ∧
        groupFind (some text) = .error (.line (i + 1) fault)) := by
  refine ⟨?_, ?_, ?_⟩
  · intro encoded txns hlines hpos hmany hdecode hshort
    have hlength : txns.length = encoded.length := Group.length_of_decodeFrom hdecode
    have hid : Group.id txns = .ok (Group.digest txns) :=
      Group.id_eq_ok.mpr ⟨List.length_pos_iff.mp (by omega), by omega, rfl⟩
    generalize Group.digest txns = gid at hid
    have hdecoded : Group.decode (Group.stamped gid txns) = .ok (txns.map (·.withGroup gid)) :=
      Group.decode_stamped hshort
    have hread : encodedLines (some (ofEncoded (Group.stamped gid txns))) = .ok (Group.stamped gid txns) :=
      encodedLines_ofEncoded (Group.ne_nil_of_mem_stamped hshort)
    -- The second time, the id of the stamped transactions is the one they carry.
    have hagain := groupAssign_eq_ok hread hdecoded (Group.id_map_withGroup hid)
    rw [Group.stamped_map_withGroup] at hagain
    refine ⟨gid, _, _, hid, Group.assignEncoded_eq_ok hdecode hid, hdecoded, groupAssign_eq_ok hlines hdecode hid,
      hread, Group.verifyEncoded_stamped hshort hid, ?_, hagain⟩
    intro hgid
    rw [Group.segmentEncoded_stamped hshort hid hgid, hlength]
  · rintro encoded ⟨bs, hmem, hbad⟩
    obtain ⟨i, bs', hfirst⟩ := exists_firstAt hmem hbad
    obtain ⟨e, he⟩ := Undecodable.exists_error hfirst.holds
    have hdecode : Group.decode encoded = .error (.decode i e) := by
      rw [Group.decode, Group.decodeFrom_eq_error]
      exact ⟨i, bs', e, hfirst, he, by rw [Nat.zero_add]⟩
    exact ⟨i, bs', e, hfirst, he, Group.encoded_eq_error hdecode⟩
  · rintro ⟨line, hmem, hbad⟩
    obtain ⟨i, line', hfirst⟩ := exists_firstAt hmem hbad
    obtain ⟨fault, hfault⟩ := hfirst.holds.exists_fault
    have herror := encodedLines_eq_error.mpr ⟨i, line', fault, hfirst, hfault, rfl⟩
    exact ⟨i, line', fault, hfirst, hfault, herror, group_eq_error herror⟩

/-- A transaction of which neither the order of the fields nor the width of the fee is canonical. -/
def foreignPayment : Bytes :=
  [0x82, 0xa4, 0x74, 0x79, 0x70, 0x65, 0xa3, 0x70, 0x61, 0x79, 0xa3, 0x66, 0x65, 0x65, 0xce, 0, 0, 3, 0xe8]

def formerCall : Transaction := Transaction.withGroup { kind := .appCall } Group.strayId

/-- The two with blanks around one and empty lines between them. -/
def looseFile : String :=
  "\n  " ++ Base64.encode foreignPayment ++ " \r\n\n" ++ Base64.encode formerCall.encode ++ "\n"

theorem looseFile_stamped :
    encodedLines (some looseFile) = .ok [foreignPayment, formerCall.encode] ∧
    (∃ gid printed, Group.id [{ kind := .payment, header := { fee := 1000 } }, formerCall] = .ok gid ∧
      groupAssign (some looseFile) = .ok printed ∧ groupAssign (some printed) = .ok printed) ∧
    (∃ i e, Group.verifyEncoded [foreignPayment, []] = .error (.decode i e)) ∧
    ∃ i fault, groupFind (some "\n=\n") = .error (.line (i + 1) fault) := by
  have hlines : encodedLines (some looseFile) = .ok [foreignPayment, formerCall.encode] := by decide +kernel
  have hdecode : Group.decode [foreignPayment, formerCall.encode] =
      .ok [{ kind := .payment, header := { fee := 1000 } }, formerCall] := by decide +kernel
  have hbare : ∀ kind fee, Transaction.schema.Short { kind := kind, header := { fee := fee } } := by
    intro kind fee
    simp [Transaction.schema, Address.schema, Digest.schema, TxnKind.schema, OnCompletion.schema, AssetParams.schema,
      StateLimits.schema]
    cases kind <;> decide
  have hshort : ∀ t ∈ [{ kind := .payment, header := { fee := 1000 } }, formerCall], Transaction.schema.Short t :=
    List.forall_mem_cons.mpr ⟨hbare _ _, List.forall_mem_singleton.mpr (Transaction.short_withGroup.mpr (hbare _ 0))⟩
  have hundecodable : Undecodable [] := by
    intro t ht
    cases ht
  have hunreadable : Unreadable "=" := by decide +kernel
  obtain ⟨hstamp, hreject, -⟩ := group_files_coherent looseFile
  obtain ⟨gid, -, printed, hid, -, -, hprinted, -, -, -, hagain⟩ :=
    hstamp _ _ hlines (by decide) (by decide) hdecode hshort
  obtain ⟨i, -, e, -, -, -, hverify, -⟩ := hreject [foreignPayment, []] ⟨[], by simp, hundecodable⟩
  obtain ⟨j, -, fault, -, -, -, -, -, hfind⟩ := (group_files_coherent "\n=\n").2.2 ⟨"=", by decide +kernel, hunreadable⟩
  exact ⟨hlines, ⟨gid, printed, hid, hprinted, hagain⟩, ⟨i, e, hverify⟩, j, fault, hfind⟩

end Report

end AtomicGroup
