import AtomicGroup.Abi.Method
import AtomicGroup.Proofs.Abi.Names
import AtomicGroup.Proofs.Json.Format

/-!
# Signatures and descriptions of methods

A method is written as its signature, or in JSON, where names and descriptions may stand beside the types. A signature
is cut at its first parenthesis, at the one that closes it, and at the commas in between; as the names of types are
balanced, these are the places where `Method.signature` put them. `ofSignature_eq_ok_iff` says what is read from a
signature, and everything about both texts follows from it.
-/
namespace AtomicGroup.Abi

open Outcome

/-- What may stand for an argument in a signature: the name of a type, of a sort of references, of a kind of
transactions, or of transactions of any kind. -/
inductive IsArgumentName : String → Prop where
  | type {t : Ty} (h : t.WithinBounds) : IsArgumentName t.name
  | reference (r : Reference) : IsArgumentName r.name
  | transaction (kind : TxnKind) : IsArgumentName kind.name
  | anyTransaction : IsArgumentName "txn"

/-- What may stand for a result in a signature: the name of a type, or that there is none. -/
inductive IsReturnName : String → Prop where
  | type {t : Ty} (h : t.WithinBounds) : IsReturnName t.name
  | void : IsReturnName "void"

section Names

variable {text : String}

theorem ArgKind.exists_parse_iff : (∃ kind, ArgKind.parse text = .ok kind) ↔ IsArgumentName text := by
  constructor
  · rintro ⟨kind, h⟩
    rw [ArgKind.parse] at h
    split at h
    · rename_i htext
      exact htext ▸ .anyTransaction
    · split at h
      · rename_i kind hkind
        have hname : kind.name = text := by simpa using List.find?_some hkind
        exact hname ▸ .transaction kind
      · split at h
        · rename_i r hr
          have hname : r.name = text := by simpa using List.find?_some hr
          exact hname ▸ .reference r
        · obtain ⟨t, ht, -⟩ := bind_eq_ok.mp h
          obtain ⟨hin, hname⟩ := Ty.name_of_parse ht
          exact hname ▸ .type hin
  · intro h
    cases h with
    | type hin =>
      rw [ArgKind.parse]
      split
      · exact ⟨_, rfl⟩
      · split
        · exact ⟨_, rfl⟩
        · split
          · exact ⟨_, rfl⟩
          · rw [Ty.parse_name hin]
            exact ⟨_, rfl⟩
    | reference r => cases r <;> exact ⟨_, rfl⟩
    | transaction kind => cases kind <;> exact ⟨_, rfl⟩
    | anyTransaction => exact ⟨_, rfl⟩

theorem MethodReturn.exists_valueType_iff {r : MethodReturn} :
    (∃ t?, r.valueType = .ok t?) ↔ IsReturnName r.type := by
  constructor
  · rintro ⟨t?, h⟩
    rw [MethodReturn.valueType] at h
    split at h
    · rename_i hvoid
      exact hvoid ▸ .void
    · obtain ⟨t, ht, -⟩ := bind_eq_ok.mp h
      obtain ⟨hin, hname⟩ := Ty.name_of_parse ht
      exact hname ▸ .type hin
  · intro h
    rw [MethodReturn.valueType]
    split
    · exact ⟨_, rfl⟩
    · rename_i hvoid
      generalize r.type = text at h hvoid
      cases h with
      | type hin =>
        rw [Ty.parse_name hin]
        exact ⟨_, rfl⟩
      | void => exact absurd rfl hvoid

theorem Ty.toList_name (t : Ty) : t.name.toList = t.chars := String.toList_ofList

/-- What stands for an argument is a part of a list: its commas are inside of tuples, and these are closed. -/
theorem IsArgumentName.isPart (h : IsArgumentName text) : IsPart text.toList := by
  cases h with
  | type hin =>
    rw [Ty.toList_name]
    exact Ty.isPart_chars _
  | reference r => cases r <;> exact ⟨by decide, by decide⟩
  | transaction kind => cases kind <;> exact ⟨by decide, by decide⟩
  | anyTransaction => exact ⟨by decide, by decide⟩

theorem IsReturnName.ne_nil (h : IsReturnName text) : text.toList ≠ [] := by
  cases h with
  | type hin =>
    rw [Ty.toList_name]
    exact Ty.chars_ne_nil _
  | void => decide

end Names

namespace Method

variable {m : Method} {text : String}

/-- All types of a method are named by what may stand for them. -/
structure TypesNamed (m : Method) : Prop where
  args : ∀ type ∈ m.args.map (·.type), IsArgumentName type
  returns : IsReturnName m.returns.type

theorem validate_eq_ok_iff : m.validate = .ok () ↔ m.TypesNamed := by
  have hvalidate : m.validate = m.argKinds >>= fun _ => m.returns.valueType.map fun _ => () := rfl
  have hargs : (∃ kinds, m.argKinds = .ok kinds) ↔ ∀ type ∈ m.args.map (·.type), IsArgumentName type := by
    rw [argKinds, exists_mapM_eq_ok_iff, List.forall_mem_map]
    exact forall₂_congr fun _ _ => ArgKind.exists_parse_iff
  rw [hvalidate, bind_eq_ok]
  constructor
  · rintro ⟨kinds, hkinds, hreturns⟩
    obtain ⟨t?, ht, -⟩ := map_eq_ok.mp hreturns
    exact ⟨hargs.mp ⟨kinds, hkinds⟩, MethodReturn.exists_valueType_iff.mp ⟨t?, ht⟩⟩
  · intro h
    obtain ⟨kinds, hkinds⟩ := hargs.mpr h.args
    obtain ⟨t?, ht⟩ := MethodReturn.exists_valueType_iff.mpr h.returns
    exact ⟨kinds, hkinds, map_eq_ok.mpr ⟨t?, ht, rfl⟩⟩

/-- A method as its signature tells it, without descriptions and without names of its arguments. -/
def bare (m : Method) : Method where
  name := m.name
  args := m.args.map fun a => { type := a.type }
  returns := { type := m.returns.type }

section Bare

theorem types_bare (m : Method) : m.bare.args.map (·.type) = m.args.map (·.type) := by
  rw [bare, List.map_map]
  rfl

theorem signature_bare (m : Method) : m.bare.signature = m.signature := by
  rw [signature, signatureChars, bare, List.map_map]
  rfl

theorem bare_bare (m : Method) : m.bare.bare = m.bare := by
  rw [bare, bare, List.map_map]
  rfl

theorem typesNamed_bare : m.bare.TypesNamed ↔ m.TypesNamed := by
  constructor
  · exact fun h => ⟨types_bare m ▸ h.args, h.returns⟩
  · exact fun h => ⟨(types_bare m).symm ▸ h.args, h.returns⟩

theorem argKinds_bare (m : Method) : m.bare.argKinds = m.argKinds := by
  rw [argKinds, bare, List.mapM_map]
  rfl

theorem txnCount_bare (m : Method) : m.bare.txnCount = m.txnCount := by
  rw [txnCount, bare, List.countP_map]
  rfl

theorem selector_bare (m : Method) : m.bare.selector = m.selector := by
  rw [selector, signature_bare, selector]

end Bare

/-- A signature is put together again from what it is cut into. -/
theorem append_of_splitSignature {chars name returns : List Char} {args : List (List Char)}
    (h : splitSignature chars = .ok (name, args, returns)) :
    chars = name ++ '(' :: (List.intercalate [','] args ++ ')' :: returns) ∧ name ≠ [] ∧ '(' ∉ name := by
  rw [splitSignature] at h
  split at h
  · cases h
  · rename_i front rest hname
    split at h
    · cases h
    · rename_i hne
      split at h
      · cases h
      · rename_i inside back hclosing
        split at h
        · cases h
        · rename_i parts hargs
          split at h
          · cases h
          · cases h
            obtain ⟨rfl, hopen⟩ := splitFirst?_eq_some_iff.mp hname
            rw [intercalate_of_splitTopLevel hargs, ← append_of_splitClosing hclosing]
            exact ⟨rfl, hne, hopen⟩

/-- A signature is cut where it was put together, when the name has no parenthesis and the arguments are parts. -/
theorem splitSignature_append {name returns : List Char} {args : List (List Char)} (hname : name ≠ [])
    (hopen : '(' ∉ name) (hargs : ∀ arg ∈ args, IsPart arg) (hreturns : returns ≠ []) :
    splitSignature (name ++ '(' :: (List.intercalate [','] args ++ ')' :: returns)) = .ok (name, args, returns) := by
  rw [splitSignature, splitFirst?_eq_some_iff.mpr ⟨rfl, hopen⟩]
  simp only [if_neg hname, splitClosing_intercalate hargs, splitTopLevel_intercalate hargs, if_neg hreturns]

/-- What is read from a text is the method that has the text as its signature and tells nothing more; it is read when
its name is not empty and has no parenthesis, and its types have names. -/
theorem ofSignature_eq_ok_iff :
    ofSignature text = .ok m ↔
      m.signature = text ∧ m.bare = m ∧ m.name ≠ "" ∧ '(' ∉ m.name.toList ∧ m.TypesNamed := by
  constructor
  · intro h
    obtain ⟨⟨name, args, returns⟩, hsplit, h⟩ := bind_eq_ok.mp h
    obtain ⟨⟨⟩, hvalidate, h⟩ := bind_eq_ok.mp h
    obtain ⟨htext, hname, hopen⟩ := append_of_splitSignature (mapError_eq_ok.mp hsplit)
    obtain rfl := pure_eq_ok.mp h
    refine ⟨?_, ?_, ?_, ?_, validate_eq_ok_iff.mp hvalidate⟩
    · rw [← String.toList_inj, htext, signature, String.toList_ofList, signatureChars]
      simp [Function.comp_def]
    · simp [bare]
    · simpa using hname
    · simpa using hopen
  · rintro ⟨rfl, hbare, hname, hopen, htypes⟩
    have hargs : ∀ arg ∈ m.args.map (·.type.toList), IsPart arg := by
      intro arg harg
      obtain ⟨a, ha, rfl⟩ := List.mem_map.mp harg
      exact (htypes.args a.type (List.mem_map_of_mem ha)).isPart
    have hsplit : splitSignature m.signature.toList =
        .ok (m.name.toList, m.args.map (·.type.toList), m.returns.type.toList) := by
      rw [signature, String.toList_ofList]
      exact splitSignature_append (by simpa using hname) hopen hargs htypes.returns.ne_nil
    have hread : ofSignature m.signature = m.bare.validate >>= fun _ => pure m.bare := by
      rw [ofSignature, hsplit]
      simp [bare, Except.mapError, ok_bind, Function.comp_def]
    rw [hread, hbare, validate_eq_ok_iff.mpr htypes]
    rfl

section Description

theorem lawful_argument : MethodArg.schema.Lawful := ⟨by simp [Wire.Schema.present], by decide, fun _ => rfl⟩

theorem lawful_return : MethodReturn.schema.Lawful := ⟨by simp [Wire.Schema.present], by decide, fun _ => rfl⟩

theorem lawful_schema : schema.Lawful :=
  ⟨by simp [Wire.Schema.present, lawful_argument, lawful_return], by decide, fun _ => rfl⟩

theorem readJson_toJson (m : Method) : readJson m.toJson = .ok m := by
  rw [readJson, toJson, Wire.Schema.ofJson_toJson lawful_schema (by decide +kernel)]
  rfl

theorem ofJson_eq_ok_iff : ofJson text = .ok m ↔ readJson text = .ok m ∧ m.TypesNamed := by
  simp only [ofJson, bind_eq_ok, pure_eq_ok]
  constructor
  · rintro ⟨_, hread, ⟨⟩, hvalidate, rfl⟩
    exact ⟨hread, validate_eq_ok_iff.mp hvalidate⟩
  · rintro ⟨hread, htypes⟩
    exact ⟨m, hread, (), validate_eq_ok_iff.mpr htypes, rfl⟩

end Description

/-- A text is read as a signature exactly when it is a name, the names of arguments in parentheses, and the name of a
result. -/
theorem exists_ofSignature_iff : (∃ m, ofSignature text = .ok m) ↔
    ∃ name types returns, text = name ++ "(" ++ ",".intercalate types ++ ")" ++ returns ∧ name ≠ "" ∧
      '(' ∉ name.toList ∧ (∀ type ∈ types, IsArgumentName type) ∧ IsReturnName returns := by
  have hsignature : ∀ m : Method, m.signature =
      m.name ++ "(" ++ ",".intercalate (m.args.map (·.type)) ++ ")" ++ m.returns.type := by
    intro m
    simp [← String.toList_inj, signature, signatureChars, String.toList_intercalate, Function.comp_def]
  constructor
  · rintro ⟨m, h⟩
    obtain ⟨rfl, -, hname, hopen, htypes⟩ := ofSignature_eq_ok_iff.mp h
    exact ⟨_, _, _, hsignature m, hname, hopen, htypes.args, htypes.returns⟩
  · rintro ⟨name, types, returns, rfl, hname, hopen, hargs, hreturns⟩
    have htypes : (types.map fun type => ({ type } : MethodArg)).map (·.type) = types := by
      rw [List.map_map]
      exact List.map_id types
    refine ⟨{ name, args := types.map fun type => { type }, returns := { type := returns } },
      ofSignature_eq_ok_iff.mpr ⟨?_, ?_, hname, hopen, ⟨?_, hreturns⟩⟩⟩
    · rw [hsignature, htypes]
    · simp [bare]
    · rwa [htypes]

/-- Both texts of a method survive. A signature is the text it was read from, and every description that is read reads
as what was written; when its name can stand in a signature the method's own signature reads as the method without what
a signature leaves out. What is read as a signature is a name with named types. -/
theorem method_survives_both_texts :
    (∀ text m, ofSignature text = .ok m → m.signature = text) ∧
    (∀ text m, ofJson text = .ok m → ofJson m.toJson = .ok m ∧
      (m.name ≠ "" → '(' ∉ m.name.toList → ∃ m', ofSignature m.signature = .ok m' ∧ m'.name = m.name ∧
        m'.args.map (·.type) = m.args.map (·.type) ∧ m'.returns.type = m.returns.type ∧ m'.argKinds = m.argKinds ∧
        m'.txnCount = m.txnCount ∧ m'.selector = m.selector)) ∧
    ∀ text, (∃ m, ofSignature text = .ok m) ↔
      ∃ name types returns, text = name ++ "(" ++ ",".intercalate types ++ ")" ++ returns ∧ name ≠ "" ∧
        '(' ∉ name.toList ∧ (∀ type ∈ types, IsArgumentName type) ∧ IsReturnName returns := by
  refine ⟨fun text m h => (ofSignature_eq_ok_iff.mp h).1, fun text m h => ⟨?_, ?_⟩, fun text => exists_ofSignature_iff⟩
  · exact ofJson_eq_ok_iff.mpr ⟨readJson_toJson m, (ofJson_eq_ok_iff.mp h).2⟩
  · intro hname hopen
    have htypes : m.bare.TypesNamed := typesNamed_bare.mpr (ofJson_eq_ok_iff.mp h).2
    have hread : ofSignature m.signature = .ok m.bare :=
      ofSignature_eq_ok_iff.mpr ⟨signature_bare m, bare_bare m, hname, hopen, htypes⟩
    exact ⟨m.bare, hread, rfl, types_bare m, rfl, argKinds_bare m, txnCount_bare m, selector_bare m⟩

/-- A method that returns a tuple and takes an array of tuples, a payment and an account. -/
def settle : Method where
  name := "settle"
  desc := some "pays for all orders"
  args := [{ name := some "orders", type := "(uint64,bool)[]" }, { type := "pay" }, { type := "account" }]
  returns := { type := "(byte,string)", desc := some "a receipt" }

theorem settle_survives_both_texts :
    ofJson settle.toJson = .ok settle ∧
    ∃ m', ofSignature "settle((uint64,bool)[],pay,account)(byte,string)" = .ok m' ∧ m'.args.length = 3 ∧
      m'.argKinds = .ok [.value (.list (.tuple [.uint 64, .bool])), .transaction (some .payment),
        .reference .account] ∧ m'.txnCount = 2 := by
  have hsignature : settle.signature = "settle((uint64,bool)[],pay,account)(byte,string)" := by decide
  have hread : ofJson settle.toJson = .ok settle :=
    ofJson_eq_ok_iff.mpr ⟨readJson_toJson settle, validate_eq_ok_iff.mp rfl⟩
  obtain ⟨hagain, hbare⟩ := method_survives_both_texts.2.1 settle.toJson settle hread
  obtain ⟨m', hm', -, hargs, -, hkinds, hcount, -⟩ := hbare (by decide) (by decide)
  rw [hsignature] at hm'
  refine ⟨hagain, m', hm', ?_, hkinds.trans rfl, hcount.trans rfl⟩
  simpa [settle] using congrArg List.length hargs

end Method

end AtomicGroup.Abi
