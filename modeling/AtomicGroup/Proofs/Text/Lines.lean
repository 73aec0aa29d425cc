import AtomicGroup.Proofs.Text.Bases
import AtomicGroup.Text.Lines

/-!
# Lines that are read back

Lines without line feeds, none of which ends in a carriage return, are what a text of them falls into. No character of a
base 64 text is a blank, so that such a text is a line of its own and loses nothing when it is trimmed.
-/
namespace AtomicGroup

namespace Lines

theorem splitAll_append_cons {α : Type} [BEq α] [LawfulBEq α] {sep : α} {front back : List α} (h : sep ∉ front) :
    splitAll sep (front ++ sep :: back) = front :: splitAll sep back := by
  induction front with
  | nil => simp [splitAll]
  | cons x front ih =>
    obtain ⟨hx, hfront⟩ := List.ne_and_not_mem_of_not_mem_cons h
    have hne : (x == sep) = false := by simpa using Ne.symm hx
    simp [splitAll, hne, ih hfront]

/-- The pieces between separators that each end an item, the last of which is empty. -/
theorem splitAll_flatMap {α : Type} [BEq α] [LawfulBEq α] {sep : α} {items : List (List α)}
    (h : ∀ item ∈ items, sep ∉ item) : splitAll sep (items.flatMap (· ++ [sep])) = items ++ [[]] := by
  induction items with
  | nil => rfl
  | cons item items ih =>
    obtain ⟨hitem, hitems⟩ := List.forall_mem_cons.mp h
    rw [List.flatMap_cons, List.append_assoc, List.singleton_append, splitAll_append_cons hitem, ih hitems]
    rfl

theorem dropLastIf_of_not_mem {α : Type} [BEq α] [LawfulBEq α] {x : α} {xs : List α} (h : x ∉ xs) :
    dropLastIf x xs = xs := by
  have hne : (xs.getLast? == some x) = false := by
    rw [beq_eq_false_iff_ne]
    intro heq
    exact h (List.mem_of_getLast? heq)
  simp [dropLastIf, hne]

theorem lines_join {texts : List String} (hfeed : ∀ text ∈ texts, '\n' ∉ text.toList)
    (hreturn : ∀ text ∈ texts, '\r' ∉ text.toList) : lines (String.join (texts.map (· ++ "\n"))) = texts := by
  have hpieces : splitAll '\n' (String.join (texts.map (· ++ "\n"))).toList = texts.map String.toList ++ [[]] := by
    rw [← splitAll_flatMap (by simpa using hfeed)]
    simp [List.flatMap_map]
  have hended : (texts.map String.toList).map (dropLastIf '\r') = texts.map String.toList := by
    rw [List.map_map]
    exact List.map_congr_left fun text htext => dropLastIf_of_not_mem (hreturn text htext)
  rw [lines, hpieces, List.dropLast_concat, List.getLastD_concat, hended]
  simp

theorem trim_eq_self {text : String} (h : ∀ c ∈ text.toList, isBlank c = false) : trim text = text := by
  have hkeep : ∀ cs : List Char, (∀ c ∈ cs, isBlank c = false) → cs.dropWhile isBlank = cs := by
    intro cs hcs
    cases cs with
    | nil => rfl
    | cons c cs => rw [List.dropWhile_cons, hcs c List.mem_cons_self, if_neg Bool.false_ne_true]
  rw [trim, hkeep _ h, hkeep _ fun c hc => h c (List.mem_reverse.mp hc), List.reverse_reverse, String.ofList_toList]

end Lines

namespace Base64

theorem isBlank_digit : ∀ n < 64, Lines.isBlank (digit n) = false := by decide +kernel

theorem isBlank_of_mem_encode {bs : Bytes} {c : Char} (h : c ∈ (encode bs).toList) : Lines.isBlank c = false := by
  rw [encode, String.toList_ofList, encodeChars, List.mem_append] at h
  rcases h with hdigit | hfilling
  · obtain ⟨n, hn, rfl⟩ := List.mem_map.mp hdigit
    exact isBlank_digit n (BitGroups.lt_of_mem_encode hn)
  · rw [List.eq_of_mem_replicate hfilling]
    rfl

@[simp] theorem trim_encode (bs : Bytes) : Lines.trim (encode bs) = encode bs :=
  Lines.trim_eq_self fun _ => isBlank_of_mem_encode

/-- A line end is a blank. -/
theorem not_mem_encode_of_isBlank {bs : Bytes} {c : Char} (h : Lines.isBlank c = true) : c ∉ (encode bs).toList := by
  intro hc
  rw [isBlank_of_mem_encode hc] at h
  cases h

theorem encode_ne_empty {bs : Bytes} (h : bs ≠ []) : encode bs ≠ "" := by
  intro hempty
  have hread := decode?_encode bs
  rw [hempty, show decode? "" = some [] from rfl] at hread
  exact h (Option.some.inj hread).symm

end Base64

end AtomicGroup
