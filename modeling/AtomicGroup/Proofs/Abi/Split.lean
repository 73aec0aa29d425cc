import AtomicGroup.Abi.Split
import Mathlib.Data.List.Basic

/-!
# Cutting and joining

What is cut at its outer commas are the parts that commas join: joining gives the text back, and parts that are closed
in themselves are what their join is cut into. The cuts at one character and at an end or a beginning are read off
equations between texts.
-/
namespace AtomicGroup.Abi

/-- A text that is cut, with more text before it. -/
def putBefore (front : List Char) (cut : List Char × List Char) : List Char × List Char := (front ++ cut.1, cut.2)

theorem putBefore_nil : putBefore [] = id := rfl

theorem putBefore_cons (c : Char) (front : List Char) : putBefore (c :: front) = putBefore [c] ∘ putBefore front := rfl

@[simp] theorem putBefore_mk (front inside rest : List Char) :
    putBefore front (inside, rest) = (front ++ inside, rest) := rfl

/-- The depth after a text that begins inside `depth` open parentheses; none when the text closes more than these or
has a comma outside of all. -/
def depthAfter : (depth : Nat) → List Char → Option Nat
  | depth, [] => some depth
  | depth, c :: cs =>
    if c = '(' then depthAfter (depth + 1) cs
    else if c = ')' then
      match depth with
      | 0 => none
      | depth + 1 => depthAfter depth cs
    else if c = ',' ∧ depth = 0 then none
    else depthAfter depth cs

section Steps

variable (depth : Nat) (cs : List Char)

@[simp] theorem depthAfter_nil : depthAfter depth [] = some depth := by rw [depthAfter.eq_def]

@[simp] theorem depthAfter_open : depthAfter depth ('(' :: cs) = depthAfter (depth + 1) cs := by
  rw [depthAfter.eq_def]
  rfl

@[simp] theorem depthAfter_close : depthAfter (depth + 1) (')' :: cs) = depthAfter depth cs := by
  rw [depthAfter.eq_def]
  rfl

theorem depthAfter_of_ne {c : Char} (hopen : c ≠ '(') (hclose : c ≠ ')') (hcomma : ¬(c = ',' ∧ depth = 0)) :
    depthAfter depth (c :: cs) = depthAfter depth cs := by
  rw [depthAfter.eq_def]
  simp only [if_neg hopen, if_neg hclose, if_neg hcomma]

@[simp] theorem splitFrom_open :
    splitFrom depth ('(' :: cs) = (splitFrom (depth + 1) cs).map (consFirst '(') := by
  cases depth <;> rw [splitFrom.eq_def] <;> rfl

@[simp] theorem splitFrom_close :
    splitFrom (depth + 1) (')' :: cs) = (splitFrom depth cs).map (consFirst ')') := by
  rw [splitFrom.eq_def]
  rfl

theorem splitFrom_of_ne {c : Char} (hopen : c ≠ '(') (hclose : c ≠ ')') (hcomma : ¬(c = ',' ∧ depth = 0)) :
    splitFrom depth (c :: cs) = (splitFrom depth cs).map (consFirst c) := by
  rw [splitFrom.eq_def]
  simp only [if_neg hopen, if_neg hclose, if_neg hcomma]

@[simp] theorem splitClosing_open :
    splitClosing depth ('(' :: cs) = (splitClosing (depth + 1) cs).map (putBefore ['(']) := by
  rw [splitClosing.eq_def]
  rfl

@[simp] theorem splitClosing_close :
    splitClosing (depth + 1) (')' :: cs) = (splitClosing depth cs).map (putBefore [')']) := by
  rw [splitClosing.eq_def]
  rfl

@[simp] theorem splitClosing_end : splitClosing 0 (')' :: cs) = some ([], cs) := by
  rw [splitClosing.eq_def]
  rfl

theorem splitClosing_of_ne {c : Char} (hopen : c ≠ '(') (hclose : c ≠ ')') :
    splitClosing depth (c :: cs) = (splitClosing depth cs).map (putBefore [c]) := by
  rw [splitClosing.eq_def]
  simp only [if_neg hopen, if_neg hclose]
  rfl

end Steps

theorem depthAfter_append {depth stop : Nat} {as : List Char} (h : depthAfter depth as = some stop) (bs : List Char) :
    depthAfter depth (as ++ bs) = depthAfter stop bs := by
  fun_induction depthAfter depth as with
  | case1 =>
    cases h
    rfl
  | case2 depth as ih => simpa using ih h
  | case3 => cases h
  | case4 as depth hopen ih => simpa using ih h
  | case5 => cases h
  | case6 depth c as hopen hclose hcomma ih =>
    rw [List.cons_append, depthAfter_of_ne _ _ hopen hclose hcomma, ih h]

/-- A text without parentheses and commas leaves every depth as it is. -/
theorem depthAfter_of_flat {cs : List Char} (h : ∀ c ∈ cs, c ≠ '(' ∧ c ≠ ')' ∧ c ≠ ',') (depth : Nat) :
    depthAfter depth cs = some depth := by
  induction cs with
  | nil => exact depthAfter_nil depth
  | cons c cs ih =>
    obtain ⟨hopen, hclose, hcomma⟩ := h c List.mem_cons_self
    rw [depthAfter_of_ne _ _ hopen hclose fun hc => hcomma hc.1]
    exact ih fun d hd => h d (List.mem_cons_of_mem _ hd)

/-- A part of a list: it is not empty, its parentheses are balanced and all its commas stand inside of them. -/
def IsPart (text : List Char) : Prop := text ≠ [] ∧ depthAfter 0 text = some 0

/-- Text that ends at a depth is put before the first piece of what is cut from there. -/
theorem splitFrom_append {depth stop : Nat} {as : List Char} (h : depthAfter depth as = some stop) (bs : List Char) :
    splitFrom depth (as ++ bs) = (splitFrom stop bs).map (as.foldr consFirst) := by
  fun_induction depthAfter depth as with
  | case1 =>
    cases h
    simp
  | case2 depth as ih => simp [ih h, Function.comp_def]
  | case3 => cases h
  | case4 as depth hopen ih => simp [ih h, Function.comp_def]
  | case5 => cases h
  | case6 depth c as hopen hclose hcomma ih =>
    rw [List.cons_append, splitFrom_of_ne _ _ hopen hclose hcomma, ih h]
    simp [Function.comp_def]

theorem foldr_consFirst (as piece : List Char) (pieces : List (List Char)) :
    as.foldr consFirst (piece :: pieces) = (as ++ piece) :: pieces := by
  induction as with
  | nil => rfl
  | cons a as ih => rw [List.foldr_cons, ih, consFirst, List.cons_append]

/-- Joined parts are cut into themselves. -/
theorem splitFrom_intercalate {part : List Char} {parts : List (List Char)} (h : ∀ p ∈ part :: parts, IsPart p) :
    splitFrom 0 (List.intercalate [','] (part :: parts)) = some (part :: parts) := by
  induction parts generalizing part with
  | nil =>
    have hcut := splitFrom_append (h part List.mem_cons_self).2 []
    rw [List.append_nil] at hcut
    rw [List.intercalate_singleton, hcut]
    simp [splitFrom, foldr_consFirst]
  | cons next parts ih =>
    have hrest := ih fun p hp => h p (List.mem_cons_of_mem _ hp)
    rw [List.intercalate_cons_cons, List.append_assoc, splitFrom_append (h part List.mem_cons_self).2]
    simp [splitFrom, hrest, foldr_consFirst]

theorem splitTopLevel_intercalate {parts : List (List Char)} (h : ∀ p ∈ parts, IsPart p) :
    splitTopLevel (List.intercalate [','] parts) = some parts := by
  cases parts with
  | nil => rfl
  | cons part parts =>
    have hne : List.intercalate [','] (part :: parts) ≠ [] := by
      have hpart := (h part List.mem_cons_self).1
      cases parts <;> simp [hpart]
    have hall : (part :: parts).all (· != []) = true := by
      rw [List.all_eq_true]
      intro p hp
      simpa using (h p hp).1
    rw [splitTopLevel, if_neg hne, splitFrom_intercalate h, Option.filter_some, if_pos hall]

theorem consFirst_ne_nil (c : Char) (pieces : List (List Char)) : consFirst c pieces ≠ [] := by
  cases pieces <;> simp [consFirst]

theorem splitFrom_ne_nil {depth : Nat} {text : List Char} {pieces : List (List Char)}
    (h : splitFrom depth text = some pieces) : pieces ≠ [] := by
  have hmap {next : Nat} {c : Char} {cs : List Char} (h : (splitFrom next cs).map (consFirst c) = some pieces) :
      pieces ≠ [] := by
    obtain ⟨rest, -, rfl⟩ := Option.map_eq_some_iff.mp h
    exact consFirst_ne_nil c rest
  fun_induction splitFrom depth text with
  | case1 =>
    cases h
    exact List.cons_ne_nil _ _
  | case2 => cases h
  | case3 => exact hmap h
  | case4 => cases h
  | case5 => exact hmap h
  | case6 =>
    obtain ⟨rest, -, rfl⟩ := Option.map_eq_some_iff.mp h
    exact List.cons_ne_nil _ _
  | case7 => exact hmap h

/-- A character is put before the first of the pieces that follow it. -/
theorem exists_of_map_consFirst {depth : Nat} {c : Char} {cs : List Char} {pieces : List (List Char)}
    (h : (splitFrom depth cs).map (consFirst c) = some pieces) :
    ∃ first rest, splitFrom depth cs = some (first :: rest) ∧ pieces = (c :: first) :: rest := by
  obtain ⟨found, hfound, rfl⟩ := Option.map_eq_some_iff.mp h
  obtain ⟨first, rest, rfl⟩ := List.exists_cons_of_ne_nil (splitFrom_ne_nil hfound)
  exact ⟨first, rest, hfound, rfl⟩

theorem intercalate_cons (c : Char) (first : List Char) (rest : List (List Char)) :
    List.intercalate [','] ((c :: first) :: rest) = c :: List.intercalate [','] (first :: rest) := by
  cases rest <;> simp

/-- The pieces that a text is cut into join to it. -/
theorem intercalate_of_splitFrom {depth : Nat} {text : List Char} {pieces : List (List Char)}
    (h : splitFrom depth text = some pieces) : List.intercalate [','] pieces = text := by
  fun_induction splitFrom depth text generalizing pieces with
  | case1 =>
    cases h
    rfl
  | case2 => cases h
  | case3 depth cs ih =>
    obtain ⟨first, rest, hcut, rfl⟩ := exists_of_map_consFirst h
    rw [intercalate_cons, ih hcut]
  | case4 => cases h
  | case5 cs depth hopen ih =>
    obtain ⟨first, rest, hcut, rfl⟩ := exists_of_map_consFirst h
    rw [intercalate_cons, ih hcut]
  | case6 depth c cs hopen hclose hcomma ih =>
    obtain ⟨pieces, hcut, rfl⟩ := Option.map_eq_some_iff.mp h
    obtain ⟨first, rest, rfl⟩ := List.exists_cons_of_ne_nil (splitFrom_ne_nil hcut)
    rw [List.intercalate_cons_cons, ih hcut, hcomma.1]
    rfl
  | case7 depth c cs hopen hclose hcomma ih =>
    obtain ⟨first, rest, hcut, rfl⟩ := exists_of_map_consFirst h
    rw [intercalate_cons, ih hcut]

theorem intercalate_of_splitTopLevel {text : List Char} {parts : List (List Char)}
    (h : splitTopLevel text = some parts) : List.intercalate [','] parts = text := by
  rw [splitTopLevel] at h
  split at h
  · rename_i hempty
    cases h
    exact hempty.symm
  · exact intercalate_of_splitFrom (Option.filter_eq_some_iff.mp h).1

/-- Parts that leave a depth as it is do so when they are joined inside of parentheses. -/
theorem depthAfter_intercalate {depth : Nat} {parts : List (List Char)}
    (h : ∀ p ∈ parts, depthAfter (depth + 1) p = some (depth + 1)) :
    depthAfter (depth + 1) (List.intercalate [','] parts) = some (depth + 1) := by
  induction parts with
  | nil => exact depthAfter_nil _
  | cons part parts ih =>
    have hpart := h part List.mem_cons_self
    have hrest := ih fun p hp => h p (List.mem_cons_of_mem _ hp)
    cases parts with
    | nil => rwa [List.intercalate_singleton]
    | cons next parts =>
      rw [List.intercalate_cons_cons, List.append_assoc, depthAfter_append hpart, List.singleton_append,
        depthAfter_of_ne _ _ (by decide) (by decide) (by simp), hrest]

/-- Text that ends at a depth is put before what is cut from there. -/
theorem splitClosing_append {depth stop : Nat} {as : List Char} (h : depthAfter depth as = some stop)
    (bs : List Char) : splitClosing depth (as ++ bs) = (splitClosing stop bs).map (putBefore as) := by
  fun_induction depthAfter depth as with
  | case1 =>
    cases h
    rw [List.nil_append, putBefore_nil, Option.map_id_fun, id]
  | case2 depth as ih => rw [List.cons_append, splitClosing_open, ih h, Option.map_map, ← putBefore_cons]
  | case3 => cases h
  | case4 as depth hopen ih => rw [List.cons_append, splitClosing_close, ih h, Option.map_map, ← putBefore_cons]
  | case5 => cases h
  | case6 depth c as hopen hclose hcomma ih =>
    rw [List.cons_append, splitClosing_of_ne _ _ hopen hclose, ih h, Option.map_map, ← putBefore_cons]

/-- A list of parts ends at the parenthesis that closes it, whatever follows. -/
theorem splitClosing_intercalate {parts : List (List Char)} (h : ∀ p ∈ parts, IsPart p) (rest : List Char) :
    splitClosing 0 (List.intercalate [','] parts ++ ')' :: rest) = some (List.intercalate [','] parts, rest) := by
  induction parts with
  | nil => exact splitClosing_end rest
  | cons part parts ih =>
    have hpart := (h part List.mem_cons_self).2
    have hrest := ih fun p hp => h p (List.mem_cons_of_mem _ hp)
    cases parts with
    | nil =>
      rw [List.intercalate_singleton, splitClosing_append hpart, splitClosing_end]
      simp
    | cons next parts =>
      rw [List.intercalate_cons_cons, List.append_assoc, List.append_assoc, splitClosing_append hpart,
        List.singleton_append, splitClosing_of_ne _ _ (by decide) (by decide), hrest]
      simp

/-- What is cut at the closing parenthesis stood around it. -/
theorem append_of_splitClosing {depth : Nat} {text inside rest : List Char}
    (h : splitClosing depth text = some (inside, rest)) : text = inside ++ ')' :: rest := by
  induction text generalizing depth inside with
  | nil =>
    rw [splitClosing.eq_def] at h
    cases h
  | cons c cs ih =>
    have hstep {next : Nat} (hcut : (splitClosing next cs).map (putBefore [c]) = some (inside, rest)) :
        c :: cs = inside ++ ')' :: rest := by
      obtain ⟨⟨front, back⟩, hfront, ⟨⟩⟩ := Option.map_eq_some_iff.mp hcut
      exact congrArg (List.cons c) (ih hfront)
    by_cases hopen : c = '('
    · subst hopen
      rw [splitClosing_open] at h
      exact hstep h
    · by_cases hclose : c = ')'
      · subst hclose
        cases depth with
        | zero =>
          rw [splitClosing_end] at h
          cases h
          rfl
        | succ depth =>
          rw [splitClosing_close] at h
          exact hstep h
      · rw [splitClosing_of_ne _ _ hopen hclose] at h
        exact hstep h

theorem length_le_intercalate {part : List Char} {parts : List (List Char)} (h : part ∈ parts) :
    part.length ≤ (List.intercalate [','] parts).length := by
  induction parts with
  | nil => cases h
  | cons first parts ih =>
    cases parts with
    | nil =>
      obtain rfl := List.mem_singleton.mp h
      exact Nat.le_of_eq (by rw [List.intercalate_singleton])
    | cons next parts =>
      simp only [List.intercalate_cons_cons, List.length_append]
      cases h with
      | head => omega
      | tail _ h =>
        have hrest := ih h
        omega

theorem splitFirst?_eq_some_iff {c : Char} {text before rest : List Char} :
    splitFirst? c text = some (before, rest) ↔ text = before ++ c :: rest ∧ c ∉ before := by
  induction text generalizing before with
  | nil => simp [splitFirst?]
  | cons x xs ih =>
    by_cases hx : x = c
    · subst hx
      cases before with
      | nil => simp [splitFirst?, eq_comm]
      | cons b before => simp +contextual [splitFirst?]
    · cases before with
      | nil => simp [splitFirst?, hx]
      | cons b before =>
        simp only [splitFirst?, if_neg hx, Option.map_eq_some_iff, Prod.mk.injEq, List.cons.injEq, Prod.exists]
        constructor
        · rintro ⟨front, back, hcut, ⟨rfl, rfl⟩, rfl⟩
          obtain ⟨htext, hfront⟩ := ih.mp hcut
          exact ⟨by simp [htext], by simp [hfront, Ne.symm hx]⟩
        · rintro ⟨htext, hb⟩
          rw [List.cons_append, List.cons.injEq] at htext
          obtain ⟨rfl, htext⟩ := htext
          exact ⟨before, rest, ih.mpr ⟨htext, fun h => hb (List.mem_cons_of_mem _ h)⟩, ⟨rfl, rfl⟩, rfl⟩

theorem splitLast?_eq_none {c : Char} {text : List Char} (h : c ∉ text) : splitLast? c text = none := by
  induction text with
  | nil => rfl
  | cons x xs ih =>
    obtain ⟨hx, hxs⟩ := not_or.mp (mt List.mem_cons.mpr h)
    rw [splitLast?, ih hxs, if_neg (Ne.symm hx)]

/-- The last occurrence of a character is the one after which it does not occur. -/
theorem splitLast?_append {c : Char} {rest : List Char} (h : c ∉ rest) (before : List Char) :
    splitLast? c (before ++ c :: rest) = some (before, rest) := by
  induction before with
  | nil => rw [List.nil_append, splitLast?, splitLast?_eq_none h, if_pos rfl]
  | cons x before ih => rw [List.cons_append, splitLast?, ih]

theorem append_of_splitLast? {c : Char} {text before rest : List Char} (h : splitLast? c text = some (before, rest)) :
    text = before ++ c :: rest := by
  induction text generalizing before with
  | nil => cases h
  | cons x xs ih =>
    rw [splitLast?] at h
    cases hxs : splitLast? c xs with
    | some found =>
      rw [hxs] at h
      cases h
      rw [ih hxs, List.cons_append]
    | none =>
      rw [hxs] at h
      by_cases hx : x = c
      · rw [if_pos hx] at h
        cases h
        rw [hx, List.nil_append]
      · rw [if_neg hx] at h
        cases h

theorem dropEnd?_eq_some_iff {ending text rest : List Char} :
    dropEnd? ending text = some rest ↔ text = rest ++ ending := by
  unfold dropEnd?
  constructor
  · intro h
    split at h
    · rename_i hs
      obtain ⟨front, rfl⟩ := List.isSuffixOf_iff_suffix.mp hs
      cases h
      simp
    · cases h
  · rintro rfl
    simp

theorem dropStart?_eq_some_iff {beginning text rest : List Char} :
    dropStart? beginning text = some rest ↔ text = beginning ++ rest := by
  unfold dropStart?
  constructor
  · intro h
    split at h
    · rename_i hs
      obtain ⟨back, rfl⟩ := List.isPrefixOf_iff_prefix.mp hs
      cases h
      simp
    · cases h
  · rintro rfl
    simp

end AtomicGroup.Abi
