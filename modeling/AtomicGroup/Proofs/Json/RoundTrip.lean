import AtomicGroup.Proofs.Json.Spelling

/-!
# Reading printed JSON

`Fits` says which values have a text that can be read: their numbers are numerals, and no more arrays and objects lie
inside one another than the reader follows. For these the text of any layout that adds nothing but blanks is one of their
spellings.
-/
namespace AtomicGroup.Json

/-- A value that a text holds, with at most a given number of arrays and objects inside one another. -/
inductive Fits : (depth : Nat) → Json → Prop where
  | null {depth : Nat} : Fits depth .null
  | bool {depth : Nat} (b : Bool) : Fits depth (.bool b)
  | number {depth : Nat} {text : String} (h : Numeral text.toList) : Fits depth (.number text)
  | string {depth : Nat} (s : String) : Fits depth (.string s)
  | array {depth : Nat} {items : List Json} (h : ∀ v ∈ items, Fits depth v) : Fits (depth + 1) (.array items)
  | object {depth : Nat} {members : List (String × Json)} (h : ∀ m ∈ members, Fits depth m.2) :
    Fits (depth + 1) (.object members)

theorem Fits.mono {value : Json} {d e : Nat} (h : value.Fits d) (hle : d ≤ e) : value.Fits e := by
  induction h generalizing e with
  | null => exact .null
  | bool b => exact .bool b
  | number hn => exact .number hn
  | string s => exact .string s
  | array _ ih =>
    obtain ⟨e, rfl⟩ := Nat.exists_eq_succ_of_ne_zero (Nat.ne_of_gt (Nat.lt_of_lt_of_le (Nat.succ_pos _) hle))
    exact .array fun v hv => ih v hv (Nat.le_of_succ_le_succ hle)
  | object _ ih =>
    obtain ⟨e, rfl⟩ := Nat.exists_eq_succ_of_ne_zero (Nat.ne_of_gt (Nat.lt_of_lt_of_le (Nat.succ_pos _) hle))
    exact .object fun m hm => ih m hm (Nat.le_of_succ_le_succ hle)

/-- A layout that puts only blanks between the parts of a value. -/
structure Layout.Lawful (layout : Layout) : Prop where
  lineBreak (depth : Nat) : (layout.lineBreak depth).all isBlank = true
  colon : ∃ blanks, layout.colon = ':' :: blanks ∧ blanks.all isBlank = true

theorem Layout.lawful_compact : Layout.compact.Lawful := ⟨fun _ => rfl, [], rfl, rfl⟩

theorem Layout.lawful_pretty : Layout.pretty.Lawful := by
  refine ⟨fun depth => ?_, [' '], rfl, rfl⟩
  rw [Layout.pretty, List.all_cons, List.all_replicate]
  simp [isBlank]

theorem itemChars_eq_map (layout : Layout) (depth : Nat) (items : List Json) :
    itemChars layout depth items = items.map (chars layout depth) := by
  induction items with
  | nil => rfl
  | cons item items ih => rw [itemChars, ih, List.map_cons]

theorem memberChars_eq_map (layout : Layout) (depth : Nat) (members : List (String × Json)) :
    memberChars layout depth members =
      members.map fun m => quote m.1 ++ layout.colon ++ chars layout depth m.2 := by
  induction members with
  | nil => rfl
  | cons m members ih =>
    obtain ⟨key, value⟩ := m
    rw [memberChars, ih, List.map_cons]

theorem ofMembers_map (members : List (String × Json)) :
    ofMembers (members.map fun m => (some m.1, m.2)) = .object members := by
  have hkeys : members.mapM (fun m => some (m.1, m.2)) = some (members.map id) := List.mapM_pure
  rw [List.map_id] at hkeys
  rw [ofMembers, List.mapM_map]
  simp only [Function.comp_def, Option.map_some, hkeys]

/-- Parts with commas between them, each with a line break before it. -/
theorem inside_intercalate {before after : List Char} (hbefore : before.all isBlank = true)
    (hafter : after.all isBlank = true) (part : List Char) (parts : List (List Char)) :
    Inside (part :: parts) (List.intercalate [','] ((part :: parts).map (before ++ ·)) ++ after) := by
  induction parts generalizing part with
  | nil =>
    rw [List.map_singleton, List.intercalate_singleton, List.append_assoc]
    exact .single ⟨before, after, hbefore, hafter, rfl⟩
  | cons next parts ih =>
    rw [List.map_cons, List.map_cons, List.intercalate_cons_cons, List.append_assoc, List.append_assoc,
      List.singleton_append, ← List.map_cons]
    refine .more ⟨before, [], hbefore, rfl, ?_⟩ (ih next)
    rw [List.append_nil]

/-- Printed parts stand between their brackets with nothing but commas and blanks. -/
theorem exists_inside_enclose {layout : Layout} (hl : layout.Lawful) (depth : Nat) (opening closing : Char)
    (parts : List (List Char)) : ∃ inside,
      enclose layout depth opening closing parts = opening :: (inside ++ [closing]) ∧ Inside parts inside := by
  cases parts with
  | nil => exact ⟨[], rfl, .empty rfl⟩
  | cons part parts => exact ⟨_, rfl, inside_intercalate (hl.lineBreak (depth + 1)) (hl.lineBreak depth) part parts⟩

def Member.printed (layout : Layout) (depth : Nat) (m : String × Json) : Member where
  key? := some m.1
  lead := quote m.1 ++ layout.colon
  value := m.2
  text := m.2.chars layout depth

theorem lead_quote {layout : Layout} (hl : layout.Lawful) (key : String) :
    Lead (some key) (quote key ++ layout.colon) := by
  obtain ⟨blanks, hcolon, hblanks⟩ := hl.colon
  have hlead := Lead.key (quoted_flatMap_escape key.toList) ⟨[], blanks, rfl, hblanks, rfl⟩
  rw [Option.map_some, String.ofList_toList] at hlead
  rw [quote, hcolon, List.cons_append, List.append_assoc]
  exact hlead

/-- What is printed is a spelling of the value. -/
theorem spells_chars {layout : Layout} (hl : layout.Lawful) {depth : Nat} {value : Json} (h : value.Fits depth) :
    ∀ level, Spells depth value (value.chars layout level) := by
  induction h with
  | null => exact fun _ => .scalar .null
  | bool b =>
    intro _
    have hscalar : Scalar (.bool b) _ := .bool b
    cases b <;> exact .scalar hscalar
  | @number depth text h =>
    intro _
    have hscalar := Scalar.number h.number
    rw [String.ofList_toList] at hscalar
    exact .scalar hscalar
  | string s =>
    intro _
    have hscalar := Scalar.string (quoted_flatMap_escape s.toList)
    rw [Option.map_some, Option.getD_some, String.ofList_toList] at hscalar
    exact .scalar hscalar
  | @array depth items h ih =>
    intro level
    obtain ⟨inside, htext, hinside⟩ := exists_inside_enclose hl level '[' ']' (itemChars layout (level + 1) items)
    have hspells : Spells (depth + 1) (.array ((items.map fun v => (v, v.chars layout (level + 1))).map (·.1)))
        ('[' :: (inside ++ [']'])) := by
      refine .array (List.forall_mem_map.mpr fun v hv => ih v hv (level + 1)) ?_
      rwa [List.map_map, Function.comp_def, ← itemChars_eq_map]
    rw [List.map_map, Function.comp_def, List.map_id'] at hspells
    rw [chars, htext]
    exact hspells
  | @object depth members h ih =>
    intro level
    obtain ⟨inside, htext, hinside⟩ :=
      exists_inside_enclose hl level '\x7b' '\x7d' (memberChars layout (level + 1) members)
    have hspells : Spells (depth + 1)
        (ofMembers ((members.map (Member.printed layout (level + 1))).map fun m => (m.key?, m.value)))
        ('\x7b' :: (inside ++ ['\x7d'])) := by
      refine .object (List.forall_mem_map.mpr fun m _ => lead_quote hl m.1)
        (List.forall_mem_map.mpr fun m hm => ih m hm (level + 1)) ?_
      rw [memberChars_eq_map] at hinside
      rw [List.map_map]
      exact hinside
    rw [List.map_map] at hspells
    rw [chars, htext, ← ofMembers_map]
    exact hspells

/-- What is printed in a layout is read back. -/
theorem parse?_ofList_chars {layout : Layout} (hl : layout.Lawful) {value : Json} (h : value.Fits maxDepth) :
    parse? (String.ofList (value.chars layout 0)) = some value :=
  parse?_of_spells (spells_chars hl h 0) ⟨[], [], rfl, rfl, (List.append_nil _).symm⟩

theorem parse?_compact {value : Json} (h : value.Fits maxDepth) : parse? value.compact = some value :=
  parse?_ofList_chars Layout.lawful_compact h

theorem parse?_pretty {value : Json} (h : value.Fits maxDepth) : parse? value.pretty = some value :=
  parse?_ofList_chars Layout.lawful_pretty h

end AtomicGroup.Json
