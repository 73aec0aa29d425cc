import AtomicGroup.Json.Reader
import AtomicGroup.Proofs.Json.Token
import Mathlib.Data.List.Forall2

/-!
# The spellings of JSON

`Spells` lists all texts of a value: blanks may stand around every token, characters may be escaped, and what lies deeper
than the reader follows may be any value at all. Every spelling is read as its value.
-/
namespace AtomicGroup.Json

/-- A text with blanks around it. -/
def Padded (text padded : List Char) : Prop :=
  ∃ before after, before.all isBlank = true ∧ after.all isBlank = true ∧ padded = before ++ (text ++ after)

/-- What stands between brackets: texts with commas between them, each with blanks around it, or nothing but blanks. -/
inductive Inside : List (List Char) → List Char → Prop where
  | empty {blanks : List Char} (h : blanks.all isBlank = true) : Inside [] blanks
  | single {text padded : List Char} (h : Padded text padded) : Inside [text] padded
  | more {text padded next inside : List Char} {texts : List (List Char)} (h : Padded text padded)
      (hrest : Inside (next :: texts) inside) : Inside (text :: next :: texts) (padded ++ ',' :: inside)

/-- A key, in quotes and with a colon after it. -/
inductive Lead : Option String → List Char → Prop where
  | key {cs? : Option (List Char)} {text colon : List Char} (h : Quoted cs? text) (hcolon : Padded [':'] colon) :
      Lead (cs?.map String.ofList) ('"' :: (text ++ '"' :: colon))

structure Member where
  key? : Option String
  lead : List Char
  value : Json
  text : List Char

/-- The texts of a value that lies in at most a given number of brackets. -/
inductive Spells : (depth : Nat) → Json → List Char → Prop where
  | scalar {depth : Nat} {value : Json} {text : List Char} (h : Scalar value text) : Spells depth value text
  | array {depth : Nat} {items : List (Json × List Char)} {inside : List Char}
      (hitems : ∀ i ∈ items, Spells depth i.1 i.2) (h : Inside (items.map (·.2)) inside) :
      Spells (depth + 1) (.array (items.map (·.1))) ('[' :: (inside ++ [']']))
  | object {depth : Nat} {members : List Member} {inside : List Char} (hleads : ∀ m ∈ members, Lead m.key? m.lead)
      (hvalues : ∀ m ∈ members, Spells depth m.value m.text)
      (h : Inside (members.map fun m => m.lead ++ m.text) inside) :
      Spells (depth + 1) (ofMembers (members.map fun m => (m.key?, m.value))) ('\x7b' :: (inside ++ ['\x7d']))
  /-- Whatever is in brackets has no content where no brackets are followed. -/
  | deep {depth : Nat} {value : Json} {c : Char} {text : List Char} (hopens : (closing? c).isSome)
      (h : Spells depth value (c :: text)) : Spells 0 .unreadable (c :: text)

section Blanks

theorem skipBlanks_append {blanks : List Char} (h : blanks.all isBlank = true) (cs : List Char) :
    skipBlanks (blanks ++ cs) = skipBlanks cs :=
  List.dropWhile_append_of_pos (List.all_eq_true.mp h)

theorem skipBlanks_cons {c : Char} (h : isBlank c = false) (cs : List Char) : skipBlanks (c :: cs) = c :: cs := by
  rw [skipBlanks, List.dropWhile_cons_of_neg (by simp [h])]

theorem skipBlanks_skipBlanks (cs : List Char) : skipBlanks (skipBlanks cs) = skipBlanks cs := by
  induction cs with
  | nil => rfl
  | cons c cs ih =>
    cases h : isBlank c with
    | true =>
      have hskip : skipBlanks (c :: cs) = skipBlanks cs := List.dropWhile_cons_of_pos h
      rw [hskip, ih]
    | false => rw [skipBlanks_cons h, skipBlanks_cons h]

/-- No number goes on with blanks. -/
theorem endsNumber_append {blanks cs : List Char} (h : blanks.all isBlank = true) (hcs : endsNumber cs = true) :
    endsNumber (blanks ++ cs) = true := by
  cases blanks with
  | nil => exact hcs
  | cons c blanks =>
    rw [List.all_cons, Bool.and_eq_true] at h
    have hc := h.1
    simp only [isBlank, Bool.or_eq_true, decide_eq_true_eq] at hc
    obtain ((rfl | rfl) | rfl) | rfl := hc <;> rfl

end Blanks

section Heads

/-- A text that neither begins with a blank nor with a given character. -/
def Begins (closing : Char) (text : List Char) : Prop := ∃ c cs, text = c :: cs ∧ isBlank c = false ∧ c ≠ closing

theorem Scalar.exists_cons {value : Json} {text : List Char} (h : Scalar value text) :
    ∃ c cs, text = c :: cs ∧ isBlank c = false ∧ c ≠ ']' ∧ closing? c = none := by
  cases h with
  | null => exact ⟨_, _, rfl, rfl, by decide, rfl⟩
  | bool b => cases b <;> exact ⟨_, _, rfl, rfl, by decide, rfl⟩
  | number h =>
    obtain ⟨c, cs, hcs, hc⟩ := h.exists_cons
    have hne {d : Char} (hd : startsNumber d = false) : c ≠ d := ne_of_startsNumber hc hd
    refine ⟨c, cs, hcs, ?_, hne rfl, ?_⟩
    · simp [isBlank, hne (d := ' ') rfl, hne (d := '\t') rfl, hne (d := '\n') rfl, hne (d := '\r') rfl]
    · rw [closing?, if_neg (hne rfl), if_neg (hne rfl)]
  | string h => exact ⟨_, _, rfl, rfl, by decide, rfl⟩

/-- The text of a value begins with a character that neither is blank nor closes a bracket. -/
theorem Spells.begins {depth : Nat} {value : Json} {text : List Char} (h : Spells depth value text) :
    Begins ']' text := by
  induction h with
  | scalar h =>
    obtain ⟨c, cs, hcs, hblank, hclosing, -⟩ := h.exists_cons
    exact ⟨c, cs, hcs, hblank, hclosing⟩
  | array => exact ⟨_, _, rfl, rfl, by decide⟩
  | object => exact ⟨_, _, rfl, rfl, by decide⟩
  | deep _ _ ih => exact ih

theorem Lead.begins {key? : Option String} {lead : List Char} (h : Lead key? lead) (text : List Char) :
    Begins '\x7d' (lead ++ text) := by
  cases h with
  | key => exact ⟨'"', _, rfl, rfl, by decide⟩

/-- What stands between brackets begins as its first item does. -/
theorem skipBlanks_inside {c : Char} {cs inside : List Char} {texts : List (List Char)}
    (h : Inside ((c :: cs) :: texts) inside) (hc : isBlank c = false) (rest : List Char) :
    ∃ tail, skipBlanks (inside ++ rest) = c :: tail := by
  have hpadded {padded : List Char} (hp : Padded (c :: cs) padded) (rest : List Char) :
      ∃ tail, skipBlanks (padded ++ rest) = c :: tail := by
    obtain ⟨before, after, hbefore, -, rfl⟩ := hp
    rw [List.append_assoc, skipBlanks_append hbefore, List.cons_append, List.cons_append, skipBlanks_cons hc]
    exact ⟨_, rfl⟩
  cases h with
  | single hp => exact hpadded hp rest
  | more hp _ =>
    rw [List.append_assoc]
    exact hpadded hp _

theorem length_le_of_inside {texts : List (List Char)} {inside : List Char} (h : Inside texts inside) :
    texts.length ≤ inside.length + 1 := by
  induction h with
  | empty => exact Nat.zero_le _
  | single => exact Nat.succ_le_succ (Nat.zero_le _)
  | more _ _ ih =>
    rw [List.length_append]
    simp only [List.length_cons] at ih ⊢
    omega

end Heads

def Closes (closing : Char) : Prop := closing = ']' ∨ closing = '\x7d'

section Closing

variable {closing : Char} (h : Closes closing)
include h

theorem Closes.isBlank_eq_false : isBlank closing = false := by rcases h with rfl | rfl <;> rfl

theorem Closes.endsNumber_cons (rest : List Char) : endsNumber (closing :: rest) = true := by
  rcases h with rfl | rfl <;> rfl

theorem Closes.comma_ne : ',' ≠ closing := by rcases h with rfl | rfl <;> decide

end Closing

section Keys

/-- A key is read up to the blanks after its colon. -/
theorem readKey?_append {key? : Option String} {lead : List Char} (h : Lead key? lead) :
    ∃ blanks : List Char, blanks.all isBlank = true ∧ ∀ rest, readKey? (lead ++ rest) = some (key?, blanks ++ rest) := by
  obtain ⟨h, before, after, hbefore, hafter, rfl⟩ := h
  rename_i cs? text
  refine ⟨after, hafter, fun rest => ?_⟩
  have hskip : skipBlanks (before ++ ([':'] ++ after) ++ rest) = ':' :: (after ++ rest) := by
    rw [List.append_assoc, skipBlanks_append hbefore]
    exact skipBlanks_cons rfl _
  rw [List.cons_append, List.append_assoc, List.cons_append, readKey?, readText?_append h]
  simp only [Option.bind_eq_bind, Option.bind_some, hskip]
  rfl

end Keys

section Passing

/-- A value that is passed over in no more steps than it has characters. -/
def Passed (text : List Char) : Prop := ∃ steps ≤ text.length, ∀ fuel owed rest, endsNumber rest = true →
  passBrackets? (fuel + steps) true owed (text ++ rest) = passBrackets? fuel false owed rest

/-- An item between brackets that is passed over in no more steps than it has characters. -/
def Passes (closing : Char) (text : List Char) : Prop :=
  ∃ steps ≤ text.length, ∀ fuel owed rest, endsNumber rest = true →
    (itemValue? closing (text ++ rest)).bind (passBrackets? (fuel + steps) true owed) = passBrackets? fuel false owed rest

theorem passBrackets?_skipBlanks (fuel : Nat) (owed cs : List Char) :
    passBrackets? fuel true owed (skipBlanks cs) = passBrackets? fuel true owed cs := by
  cases fuel with
  | zero => rfl
  | succ fuel => rw [passBrackets?, passBrackets?, skipBlanks_skipBlanks]

theorem bind_itemValue?_skipBlanks (closing : Char) (fuel : Nat) (owed cs : List Char) :
    (itemValue? closing (skipBlanks cs)).bind (passBrackets? fuel true owed) =
      (itemValue? closing cs).bind (passBrackets? fuel true owed) := by
  rw [itemValue?, itemValue?, skipBlanks_skipBlanks]
  split
  · exact passBrackets?_skipBlanks fuel owed cs
  · rfl

theorem passes_of_passed {text : List Char} (h : Passed text) : Passes ']' text := h

theorem passes_member {key? : Option String} {lead text : List Char} (hlead : Lead key? lead) (h : Passed text) :
    Passes '\x7d' (lead ++ text) := by
  obtain ⟨steps, hsteps, hpass⟩ := h
  obtain ⟨blanks, hblanks, hread⟩ := readKey?_append hlead
  obtain ⟨c, cs, hcs, hc, -⟩ := hlead.begins text
  refine ⟨steps, by rw [List.length_append]; omega, fun fuel owed rest hrest => ?_⟩
  have hitem : itemValue? '\x7d' (lead ++ text ++ rest) = some (blanks ++ (text ++ rest)) := by
    rw [itemValue?, if_neg (by decide), hcs, List.cons_append, skipBlanks_cons hc, ← List.cons_append, ← hcs,
      List.append_assoc, hread]
    rfl
  rw [hitem, Option.bind_some, ← passBrackets?_skipBlanks, skipBlanks_append hblanks, passBrackets?_skipBlanks,
    hpass fuel owed rest hrest]

/-- After an item comes the bracket that closes, with blanks before it. -/
theorem passBrackets?_closing {closing : Char} (hclosing : Closes closing) {blanks : List Char}
    (h : blanks.all isBlank = true) (fuel : Nat) (owed rest : List Char) :
    passBrackets? (fuel + 1) false (closing :: owed) (blanks ++ closing :: rest) = passBrackets? fuel false owed rest := by
  rw [passBrackets?, skipBlanks_append h, skipBlanks_cons hclosing.isBlank_eq_false]
  exact if_pos rfl

/-- After an item comes a comma, with blanks before it, and then another item. -/
theorem passBrackets?_comma {closing : Char} (hclosing : Closes closing) {blanks : List Char}
    (h : blanks.all isBlank = true) (fuel : Nat) (owed rest : List Char) :
    passBrackets? (fuel + 1) false (closing :: owed) (blanks ++ ',' :: rest) =
      (itemValue? closing rest).bind (passBrackets? fuel true (closing :: owed)) := by
  rw [passBrackets?, skipBlanks_append h, skipBlanks_cons (by decide)]
  dsimp only
  rw [if_neg hclosing.comma_ne, if_pos rfl]
  cases itemValue? closing rest <;> rfl

/-- Items with commas between them are passed over together with the bracket after them. -/
theorem passBrackets?_inside {closing : Char} (hclosing : Closes closing) {texts : List (List Char)}
    {inside : List Char} (h : Inside texts inside) (hne : texts ≠ []) (hpass : ∀ text ∈ texts, Passes closing text) :
    ∃ steps ≤ inside.length + 1, ∀ fuel owed rest,
      (itemValue? closing (inside ++ closing :: rest)).bind (passBrackets? (fuel + steps) true (closing :: owed)) =
        passBrackets? fuel false owed rest := by
  -- The text of an item with blanks around it, up to the character after it.
  have hitem {text padded : List Char} (hp : Padded text padded) (ht : Passes closing text) :
      ∃ steps ≤ padded.length, ∃ blanks : List Char, blanks.all isBlank = true ∧
        ∀ fuel owed rest, endsNumber rest = true →
          (itemValue? closing (padded ++ rest)).bind (passBrackets? (fuel + steps) true owed) =
            passBrackets? fuel false owed (blanks ++ rest) := by
    obtain ⟨before, after, hbefore, hafter, rfl⟩ := hp
    obtain ⟨steps, hsteps, ht⟩ := ht
    refine ⟨steps, by simp only [List.length_append]; omega, after, hafter, fun fuel owed rest hrest => ?_⟩
    rw [List.append_assoc, List.append_assoc, ← bind_itemValue?_skipBlanks, skipBlanks_append hbefore,
      bind_itemValue?_skipBlanks, ht fuel owed _ (endsNumber_append hafter hrest)]
  induction h with
  | empty => exact absurd rfl hne
  | single hp =>
    obtain ⟨steps, hsteps, blanks, hblanks, ht⟩ := hitem hp (hpass _ List.mem_cons_self)
    refine ⟨1 + steps, by omega, fun fuel owed rest => ?_⟩
    rw [← Nat.add_assoc, ht _ _ _ (hclosing.endsNumber_cons rest), passBrackets?_closing hclosing hblanks]
  | @more text padded next inside texts hp hrest ih =>
    obtain ⟨steps, hsteps, blanks, hblanks, ht⟩ := hitem hp (hpass _ List.mem_cons_self)
    obtain ⟨more, hmore, hnext⟩ := ih (by simp) fun t h => hpass t (List.mem_cons_of_mem _ h)
    refine ⟨more + 1 + steps, by simp only [List.length_append, List.length_cons]; omega, fun fuel owed rest => ?_⟩
    rw [← Nat.add_assoc, List.append_assoc, List.cons_append, ht _ _ _ rfl, ← Nat.add_assoc,
      passBrackets?_comma hclosing hblanks, hnext]

theorem passed_enclosed {opening closing : Char} (hopening : closing? opening = some closing)
    {texts : List (List Char)} {inside : List Char} (h : Inside texts inside)
    (hpass : ∀ text ∈ texts, Begins closing text ∧ Passes closing text) :
    Passed (opening :: (inside ++ [closing])) := by
  obtain ⟨hopens, hclosing⟩ : isBlank opening = false ∧ Closes closing := by
    unfold closing? at hopening
    split at hopening
    · cases hopening
      subst opening
      exact ⟨rfl, .inl rfl⟩
    · split at hopening
      · cases hopening
        subst opening
        exact ⟨rfl, .inr rfl⟩
      · cases hopening
  cases texts with
  | nil =>
    cases h with
    | empty hblanks =>
      refine ⟨1, by simp, fun fuel owed rest _ => ?_⟩
      rw [List.cons_append, List.append_assoc, List.singleton_append, passBrackets?, skipBlanks_cons hopens]
      simp only [hopening, skipBlanks_append hblanks, skipBlanks_cons hclosing.isBlank_eq_false, if_true]
  | cons text texts =>
    obtain ⟨steps, hsteps, hinside⟩ :=
      passBrackets?_inside hclosing h (List.cons_ne_nil _ _) fun t ht => (hpass t ht).2
    obtain ⟨⟨c, cs, rfl, hc, hne⟩, -⟩ := hpass text List.mem_cons_self
    refine ⟨steps + 1, by simp only [List.length_cons, List.length_append, List.length_nil]; omega, ?_⟩
    intro fuel owed rest _
    obtain ⟨tail, htail⟩ := skipBlanks_inside h hc (closing :: rest)
    have hskip := bind_itemValue?_skipBlanks closing (fuel + steps) (closing :: owed) (inside ++ closing :: rest)
    rw [List.cons_append, List.append_assoc, List.singleton_append, ← Nat.add_assoc, passBrackets?,
      skipBlanks_cons hopens]
    simp only [hopening, htail, if_neg hne]
    rw [htail, hinside] at hskip
    rw [← hskip]
    cases itemValue? closing (c :: tail) <;> rfl

/-- Every spelling of a value is passed over. -/
theorem passed_of_spells {depth : Nat} {value : Json} {text : List Char} (h : Spells depth value text) :
    Passed text := by
  induction h with
  | scalar h =>
    obtain ⟨c, cs, rfl, hblank, -, hopens⟩ := h.exists_cons
    refine ⟨1, by simp, fun fuel owed rest hrest => ?_⟩
    have hread := readScalar?_append h hrest
    rw [List.cons_append] at hread ⊢
    rw [passBrackets?, skipBlanks_cons hblank]
    simp only [hopens, hread]
  | @array depth items inside hitems h ih =>
    refine passed_enclosed rfl h fun text htext => ?_
    obtain ⟨i, hi, rfl⟩ := List.mem_map.mp htext
    exact ⟨(hitems i hi).begins, passes_of_passed (ih i hi)⟩
  | @object depth members inside hleads hvalues h ih =>
    refine passed_enclosed rfl h fun text htext => ?_
    obtain ⟨m, hm, rfl⟩ := List.mem_map.mp htext
    exact ⟨(hleads m hm).begins m.text, passes_member (hleads m hm) (ih m hm)⟩
  | deep _ _ ih => exact ih

theorem passValue?_append {text rest : List Char} (h : Passed text) (hrest : endsNumber rest = true) :
    passValue? (text ++ rest) = some rest := by
  obtain ⟨steps, hsteps, hpass⟩ := h
  obtain ⟨fuel, hfuel⟩ : ∃ fuel, (text ++ rest).length + 1 = fuel + 1 + steps :=
    ⟨(text ++ rest).length - steps, by rw [List.length_append]; omega⟩
  rw [passValue?, hfuel, hpass (fuel + 1) [] rest hrest]
  rfl

end Passing

section Enclosed

variable {α : Type} {read : List Char → Option (α × List Char)} {closing : Char}

/-- A text that is taken as an item, whatever comes after it that does not go on with a number. -/
structure Reads (read : List Char → Option (α × List Char)) (closing : Char) (text : List Char) (x : α) : Prop where
  begins : Begins closing text
  read (rest : List Char) (h : endsNumber rest = true) : read (text ++ rest) = some (x, rest)

theorem readItems?_skipBlanks (fuel : Nat) (cs : List Char) :
    readItems? read closing fuel (skipBlanks cs) = readItems? read closing fuel cs := by
  cases fuel with
  | zero => rfl
  | succ fuel => rw [readItems?, readItems?, skipBlanks_skipBlanks]

/-- The text of an item with blanks around it, up to the character after it. -/
theorem readItem {text padded : List Char} {x : α} {c : Char} (h : Reads read closing text x)
    (hpadded : Padded text padded) (hc : isBlank c = false) (rest : List Char) (hend : endsNumber (c :: rest) = true) :
    ∃ after, read (skipBlanks (padded ++ c :: rest)) = some (x, after) ∧ skipBlanks after = c :: rest := by
  obtain ⟨before, after, hbefore, hafter, rfl⟩ := hpadded
  obtain ⟨d, ds, rfl, hd, -⟩ := h.begins
  refine ⟨after ++ c :: rest, ?_, by rw [skipBlanks_append hafter, skipBlanks_cons hc]⟩
  rw [List.append_assoc, List.append_assoc, skipBlanks_append hbefore, List.cons_append, skipBlanks_cons hd,
    ← List.cons_append, h.read _ (endsNumber_append hafter hend)]

/-- Items with commas between them are read one after the other. -/
theorem readItems?_inside (hclosing : Closes closing) {texts : List (List Char)} {inside : List Char}
    (h : Inside texts inside) {xs : List α} (hreads : List.Forall₂ (Reads read closing) texts xs) (hne : texts ≠ [])
    (rest : List Char) :
    ∀ fuel ≥ texts.length, readItems? read closing fuel (inside ++ closing :: rest) = some (xs, rest) := by
  induction h generalizing xs with
  | empty => exact absurd rfl hne
  | single hpadded =>
    intro fuel hfuel
    obtain ⟨fuel, rfl⟩ := Nat.exists_eq_succ_of_ne_zero (Nat.ne_of_gt hfuel)
    cases hreads with
    | cons hx hxs =>
      cases hxs
      obtain ⟨after, hread, hskip⟩ :=
        readItem hx hpadded hclosing.isBlank_eq_false rest (hclosing.endsNumber_cons rest)
      simp only [readItems?, hread, hskip, Option.bind_eq_bind, Option.bind_some, if_true]
      rfl
  | @more _ _ _ inside _ hpadded _ ih =>
    intro fuel hfuel
    obtain ⟨fuel, rfl⟩ := Nat.exists_eq_succ_of_ne_zero (Nat.ne_of_gt (Nat.lt_of_lt_of_le (Nat.succ_pos _) hfuel))
    cases hreads with
    | cons hx hxs =>
      have hrest := ih hxs (List.cons_ne_nil _ _) fuel (Nat.le_of_succ_le_succ hfuel)
      obtain ⟨after, hread, hskip⟩ := readItem (c := ',') hx hpadded (by decide) (inside ++ closing :: rest) rfl
      rw [List.append_assoc, List.cons_append]
      simp only [readItems?, hread, hskip, Option.bind_eq_bind, Option.bind_some, if_neg hclosing.comma_ne, if_true,
        hrest]
      rfl

/-- Enclosed items are read up to their closing bracket. -/
theorem readEnclosed?_inside (hclosing : Closes closing) {texts : List (List Char)} {inside : List Char}
    (h : Inside texts inside) {xs : List α} (hreads : List.Forall₂ (Reads read closing) texts xs) (rest : List Char) :
    readEnclosed? read closing (inside ++ closing :: rest) = some (xs, rest) := by
  cases hreads with
  | nil =>
    cases h with
    | empty hblanks =>
      rw [readEnclosed?, skipBlanks_append hblanks, skipBlanks_cons hclosing.isBlank_eq_false]
      exact if_pos rfl
  | @cons text x texts xs hx hxs =>
    have hlen := length_le_of_inside h
    have hitems := readItems?_inside hclosing h (.cons hx hxs) (List.cons_ne_nil _ _) rest
      (inside ++ closing :: rest).length (by rw [List.length_append, List.length_cons (a := closing)]; omega)
    obtain ⟨c, cs, rfl, hc, hne⟩ := hx.begins
    obtain ⟨tail, htail⟩ := skipBlanks_inside h hc (closing :: rest)
    rw [← readItems?_skipBlanks, htail] at hitems
    rw [readEnclosed?, htail]
    dsimp only
    rw [if_neg hne]
    exact hitems

end Enclosed

section Values

/-- A text that opens no bracket is a scalar at any depth. -/
theorem readValue?_of_scalar {cs : List Char} (h : ∀ c ∈ cs.head?, closing? c = none) (depth : Nat) :
    readValue? depth cs = readScalar? cs := by
  cases cs with
  | nil => cases depth <;> rfl
  | cons c cs =>
    have hc := h c rfl
    cases depth with
    | zero =>
      rw [readValue?, List.head?_cons, Option.bind_some, hc]
    | succ depth =>
      unfold readValue?
      split
      · rename_i heq
        cases heq
        cases hc
      · rename_i heq
        cases heq
        cases hc
      · rfl

/-- A member is read as its key and its value. -/
theorem reads_member {read : List Char → Option (Json × List Char)} {m : Member} (hlead : Lead m.key? m.lead)
    (hbegins : Begins ']' m.text)
    (hread : ∀ rest, endsNumber rest = true → read (m.text ++ rest) = some (m.value, rest)) :
    Reads (readMember? read) '\x7d' (m.lead ++ m.text) (m.key?, m.value) := by
  refine ⟨hlead.begins m.text, fun rest hrest => ?_⟩
  obtain ⟨blanks, hblanks, hkey⟩ := readKey?_append hlead
  obtain ⟨c, cs, hcs, hc, -⟩ := hbegins
  have hskip : skipBlanks (blanks ++ (m.text ++ rest)) = m.text ++ rest := by
    rw [skipBlanks_append hblanks, hcs, List.cons_append, skipBlanks_cons hc]
  rw [List.append_assoc]
  simp only [readMember?, hkey, hskip, hread rest hrest, Option.bind_eq_bind, Option.bind_some]
  rfl

/-- Every spelling of a value is read as the value. -/
theorem readValue?_of_spells {depth : Nat} {value : Json} {text : List Char} (h : Spells depth value text) :
    ∀ rest, endsNumber rest = true → readValue? depth (text ++ rest) = some (value, rest) := by
  induction h with
  | scalar h =>
    intro rest hrest
    rw [readValue?_of_scalar, readScalar?_append h hrest]
    obtain ⟨c, cs, rfl, -, -, hopens⟩ := h.exists_cons
    rintro _ ⟨⟩
    exact hopens
  | @array depth items inside hitems h ih =>
    intro rest _
    have hreads : List.Forall₂ (Reads (readValue? depth) ']') (items.map (·.2)) (items.map (·.1)) := by
      rw [List.forall₂_map_left_iff, List.forall₂_map_right_iff, List.forall₂_same]
      exact fun i hi => ⟨(hitems i hi).begins, ih i hi⟩
    rw [List.cons_append, List.append_assoc, List.singleton_append, readValue?,
      readEnclosed?_inside (.inl rfl) h hreads]
    rfl
  | @object depth members inside hleads hvalues h ih =>
    intro rest _
    have hreads : List.Forall₂ (Reads (readMember? (readValue? depth)) '\x7d') (members.map fun m => m.lead ++ m.text)
        (members.map fun m => (m.key?, m.value)) := by
      rw [List.forall₂_map_left_iff, List.forall₂_map_right_iff, List.forall₂_same]
      exact fun m hm => reads_member (hleads m hm) (hvalues m hm).begins (ih m hm)
    rw [List.cons_append, List.append_assoc, List.singleton_append, readValue?,
      readEnclosed?_inside (.inr rfl) h hreads]
    rfl
  | deep hopens h _ =>
    intro rest hrest
    obtain ⟨closing, hclosing⟩ := Option.isSome_iff_exists.mp hopens
    have hpass := passValue?_append (passed_of_spells h) hrest
    rw [List.cons_append] at hpass ⊢
    rw [readValue?, List.head?_cons, Option.bind_some, hclosing]
    simp only [hpass, Option.map_some]

/-- A text that is a value with blanks around it is read as the value. -/
theorem parse?_of_spells {value : Json} {text padded : List Char} (h : Spells maxDepth value text)
    (hpadded : Padded text padded) : parse? (String.ofList padded) = some value := by
  obtain ⟨before, after, hbefore, hafter, rfl⟩ := hpadded
  obtain ⟨c, cs, hcs, hc, -⟩ := h.begins
  have hskip : skipBlanks (before ++ (text ++ after)) = text ++ after := by
    rw [skipBlanks_append hbefore, hcs, List.cons_append, skipBlanks_cons hc]
  have hend : endsNumber after = true := by
    have hends : endsNumber (after ++ []) = true := endsNumber_append hafter rfl
    rwa [List.append_nil] at hends
  have hempty : skipBlanks after = [] := by
    have hrest := skipBlanks_append hafter []
    rwa [List.append_nil] at hrest
  rw [parse?, String.toList_ofList, hskip, readValue?_of_spells h after hend]
  simp only [Option.bind_eq_bind, Option.bind_some, hempty]
  rfl

end Values

end AtomicGroup.Json
