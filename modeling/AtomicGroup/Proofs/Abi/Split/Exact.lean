import AtomicGroup.Proofs.Abi.Split.Places

/-!
# Splitting at outer commas is exact

Balance and the commas outside of all parentheses are said of a text by its beginnings, and what the running
definitions find is read off that (`isSome_splitFrom_iff`, `depthAfter_eq_some_iff`). A text has parts when it is
empty, or else balanced with something between any two of its outer commas; its parts are then the only texts of which
each stands alone and which commas join to it.
-/
namespace AtomicGroup.Abi

section Balance

/-- What a character adds to the number of open parentheses. -/
def weight (c : Char) : Int := if c = '(' then 1 else if c = ')' then -1 else 0

def balance : List Char → Int
  | [] => 0
  | c :: cs => weight c + balance cs

@[simp] theorem weight_open : weight '(' = 1 := rfl

@[simp] theorem weight_close : weight ')' = -1 := rfl

@[simp] theorem weight_comma : weight ',' = 0 := rfl

theorem weight_of_ne {c : Char} (hopen : c ≠ '(') (hclose : c ≠ ')') : weight c = 0 := by
  rw [weight, if_neg hopen, if_neg hclose]

@[simp] theorem balance_nil : balance [] = 0 := rfl

@[simp] theorem balance_cons (c : Char) (cs : List Char) : balance (c :: cs) = weight c + balance cs := rfl

@[simp] theorem balance_append (front back : List Char) : balance (front ++ back) = balance front + balance back := by
  induction front with
  | nil => simp
  | cons c front ih => simp [ih, Int.add_assoc]

/-- Inside of `start` open parentheses, a text never closes one that is not open, and at its end `stop` are open. -/
structure Runs (start stop : Int) (text : List Char) : Prop where
  nonneg : ∀ front, front <+: text → 0 ≤ start + balance front
  stop : start + balance text = stop

/-- Inside of `start` open parentheses, a text has a comma where none is open. -/
def HasComma (start : Int) (text : List Char) : Prop := ∃ front, front ++ [','] <+: text ∧ start + balance front = 0

variable {start stop : Int} {c : Char} {cs : List Char}

theorem runs_nil : Runs start stop [] ↔ 0 ≤ start ∧ start = stop := by
  constructor
  · intro h
    exact ⟨by simpa using h.nonneg [] List.prefix_rfl, by simpa using h.stop⟩
  · rintro ⟨hstart, rfl⟩
    exact ⟨fun front hfront => by simpa [List.prefix_nil.mp hfront] using hstart, by simp⟩

theorem runs_cons : Runs start stop (c :: cs) ↔ 0 ≤ start ∧ Runs (start + weight c) stop cs := by
  constructor
  · intro h
    refine ⟨by simpa using h.nonneg [] List.nil_prefix, fun front hfront => ?_, ?_⟩
    · have hnonneg := h.nonneg (c :: front) (List.cons_prefix_cons.mpr ⟨rfl, hfront⟩)
      rw [balance_cons] at hnonneg
      omega
    · have hstop := h.stop
      rw [balance_cons] at hstop
      omega
  · rintro ⟨hstart, h⟩
    refine ⟨fun front hfront => ?_, ?_⟩
    · obtain rfl | ⟨rest, rfl, hrest⟩ := List.prefix_cons_iff.mp hfront
      · simpa using hstart
      · have hnonneg := h.nonneg rest hrest
        rw [balance_cons]
        omega
    · have hstop := h.stop
      rw [balance_cons]
      omega

theorem Runs.start_nonneg {text : List Char} (h : Runs start stop text) : 0 ≤ start := by
  simpa using h.nonneg [] List.nil_prefix

theorem not_hasComma_nil : ¬HasComma start [] := by
  rintro ⟨front, hfront, -⟩
  simpa using List.prefix_nil.mp hfront

theorem hasComma_cons :
    HasComma start (c :: cs) ↔ c = ',' ∧ start = 0 ∨ HasComma (start + weight c) cs := by
  constructor
  · rintro ⟨front, hfront, hbalance⟩
    cases front with
    | nil => exact .inl ⟨(List.cons_prefix_cons.mp hfront).1.symm, by simpa using hbalance⟩
    | cons d rest =>
      obtain ⟨rfl, hrest⟩ := List.cons_prefix_cons.mp hfront
      rw [balance_cons] at hbalance
      exact .inr ⟨rest, hrest, by omega⟩
  · rintro (⟨rfl, rfl⟩ | ⟨front, hfront, hbalance⟩)
    · exact ⟨[], by simp, by simp⟩
    · refine ⟨c :: front, List.cons_prefix_cons.mpr ⟨rfl, hfront⟩, ?_⟩
      rw [balance_cons]
      omega

end Balance

section Running

/-- A text is cut where its parentheses close those that are open and no more. -/
theorem isSome_splitFrom_iff (depth : Nat) (text : List Char) :
    (splitFrom depth text).isSome = true ↔ Runs depth 0 text := by
  fun_induction splitFrom depth text with
  | case1 => simp [runs_nil]
  | case2 depth =>
    simp only [runs_nil, Option.isSome_none, Bool.false_eq_true, false_iff]
    omega
  | case3 depth cs ih => simp [runs_cons, ih]
  | case4 cs hopen =>
    simp only [runs_cons, Option.isSome_none, Bool.false_eq_true, false_iff]
    rintro ⟨-, h⟩
    exact absurd h.start_nonneg (by decide)
  | case5 cs depth hopen ih =>
    have hback : ((depth + 1 : Nat) : Int) + -1 = depth := by omega
    rw [Option.isSome_map, ih, runs_cons, weight_close, hback, and_iff_right (Int.natCast_nonneg (depth + 1))]
  | case6 depth c cs hopen hclose hcomma ih =>
    obtain ⟨rfl, rfl⟩ := hcomma
    simp [runs_cons, ih]
  | case7 depth c cs hopen hclose hcomma ih => simp [runs_cons, ih, weight_of_ne hopen hclose]

/-- The depth after a text is that of its parentheses, unless it has a comma outside of all. -/
theorem depthAfter_eq_some_iff {depth stop : Nat} {text : List Char} :
    depthAfter depth text = some stop ↔ Runs depth stop text ∧ ¬HasComma depth text := by
  fun_induction depthAfter depth text with
  | case1 depth =>
    rw [Option.some.injEq, runs_nil, and_iff_right (Int.natCast_nonneg depth), and_iff_left not_hasComma_nil,
      Int.natCast_inj]
  | case2 depth cs ih => simp [runs_cons, hasComma_cons, ih]
  | case3 cs hopen =>
    simp only [runs_cons, reduceCtorEq, false_iff]
    rintro ⟨⟨-, h⟩, -⟩
    exact absurd h.start_nonneg (by decide)
  | case4 cs depth hopen ih =>
    have hback : ((depth + 1 : Nat) : Int) + -1 = depth := by omega
    rw [ih, runs_cons, hasComma_cons, weight_close, hback, and_iff_right (Int.natCast_nonneg (depth + 1)),
      or_iff_right (by simp)]
  | case5 depth c cs hopen hclose hcomma =>
    obtain ⟨rfl, rfl⟩ := hcomma
    simp [hasComma_cons]
  | case6 depth c cs hopen hclose hcomma ih =>
    have hzero : ¬(c = ',' ∧ (depth : Int) = 0) := fun h => hcomma ⟨h.1, Int.natCast_eq_zero.mp h.2⟩
    rw [ih, runs_cons, hasComma_cons, weight_of_ne hopen hclose, Int.add_zero, or_iff_right hzero,
      and_iff_right (Int.natCast_nonneg depth)]

end Running

section Parts

/-- The parentheses of a text never close before they open, and all of them close. -/
def Balanced (text : List Char) : Prop := Runs 0 0 text

def HasOuterComma (text : List Char) : Prop := HasComma 0 text

/-- A text that is neither empty nor cut: its parentheses are balanced, and all its commas stand inside of them. -/
structure StandsAlone (text : List Char) : Prop where
  ne_nil : text ≠ []
  balanced : Balanced text
  no_comma : ¬HasOuterComma text

/-- A piece of a text that begins at its front or behind an outer comma, and goes on to the next outer comma or to the
end. -/
def Between (text piece : List Char) : Prop :=
  ∃ front back, text = front ++ piece ++ back ∧
    (front = [] ∨ ∃ before, front = before ++ [','] ∧ balance before = 0) ∧
    (back = [] ∨ ∃ after, back = ',' :: after ∧ balance (front ++ piece) = 0) ∧
    ¬HasOuterComma piece

theorem isPart_iff {part : List Char} : IsPart part ↔ StandsAlone part := by
  have hdepth : depthAfter 0 part = some 0 ↔ Balanced part ∧ ¬HasOuterComma part := depthAfter_eq_some_iff
  rw [IsPart, hdepth]
  constructor
  · rintro ⟨hne, hbalanced, hcomma⟩
    exact ⟨hne, hbalanced, hcomma⟩
  · intro h
    exact ⟨h.ne_nil, h.balanced, h.no_comma⟩

variable {first piece rest : List Char}

theorem hasOuterComma_append {before : List Char} (h : balance before = 0) (after : List Char) :
    HasOuterComma (before ++ ',' :: after) := by
  exact ⟨before, ⟨after, by simp⟩, by simpa using h⟩

/-- A text without outer commas is its only piece. -/
theorem between_single (hcomma : ¬HasOuterComma first) : Between first piece ↔ piece = first := by
  constructor
  · rintro ⟨front, back, rfl, rfl | ⟨before, rfl, hbefore⟩, rfl | ⟨after, rfl, hafter⟩, -⟩
    · simp
    · exact absurd (hasOuterComma_append hafter after) hcomma
    · rw [List.append_nil, List.append_assoc] at hcomma
      exact absurd (hasOuterComma_append hbefore piece) hcomma
    · rw [List.append_assoc, List.append_assoc] at hcomma
      exact absurd (hasOuterComma_append hbefore (piece ++ ',' :: after)) hcomma
  · rintro rfl
    exact ⟨[], [], by simp, .inl rfl, .inl rfl, hcomma⟩

/-- Two cuts of a text at outer commas are the same, or the second lies behind the first. -/
theorem append_comma_cases {before after : List Char} (hfirst : ¬HasOuterComma first) (hbefore : balance before = 0)
    (h : first ++ ',' :: rest = before ++ ',' :: after) :
    before = first ∧ after = rest ∨ ∃ more, before = first ++ ',' :: more ∧ rest = more ++ ',' :: after := by
  obtain ⟨more, hmore, hrest⟩ | ⟨more, hmore, hrest⟩ := List.append_eq_append_iff.mp h
  · cases more with
    | nil => exact .inl ⟨by simpa using hmore, by simpa using hrest.symm⟩
    | cons c more =>
      obtain ⟨rfl, hbehind⟩ := List.cons.inj hrest
      exact .inr ⟨more, hmore, hbehind⟩
  · cases more with
    | nil => exact .inl ⟨by simpa using hmore.symm, by simpa using hrest⟩
    | cons c more =>
      obtain ⟨rfl, -⟩ := List.cons.inj hrest
      rw [hmore] at hfirst
      exact absurd (hasOuterComma_append hbefore more) hfirst

/-- The pieces of a text are the one in front of its first outer comma and those of the rest. -/
theorem between_cons (hbalance : balance first = 0) (hcomma : ¬HasOuterComma first) :
    Between (first ++ ',' :: rest) piece ↔ piece = first ∨ Between rest piece := by
  constructor
  · rintro ⟨front, back, htext, rfl | ⟨before, rfl, hbefore⟩, hback, hpiece⟩
    · rw [List.nil_append] at htext
      obtain rfl | ⟨after, rfl, hafter⟩ := hback
      · rw [List.append_nil] at htext
        rw [← htext] at hpiece
        exact absurd (hasOuterComma_append hbalance rest) hpiece
      · obtain ⟨rfl, -⟩ | ⟨more, rfl, -⟩ := append_comma_cases hcomma (by simpa using hafter) htext
        · exact .inl rfl
        · exact absurd (hasOuterComma_append hbalance more) hpiece
    · have hcut : first ++ ',' :: rest = before ++ ',' :: (piece ++ back) := by simp [htext]
      have hback' : back = [] ∨ ∃ after, back = ',' :: after ∧ balance piece = 0 := by
        refine hback.imp_right fun ⟨after, hafter, hpiece⟩ => ⟨after, hafter, ?_⟩
        simpa [hbefore] using hpiece
      obtain ⟨rfl, rfl⟩ | ⟨more, rfl, rfl⟩ := append_comma_cases hcomma hbefore hcut
      · exact .inr ⟨[], back, by simp, .inl rfl, hback', hpiece⟩
      · have hmore : balance more = 0 := by simpa [hbalance] using hbefore
        refine .inr ⟨more ++ [','], back, by simp, .inr ⟨more, rfl, hmore⟩, ?_, hpiece⟩
        simpa [hmore] using hback'
  · rintro (rfl | ⟨front, back, rfl, hfront, hback, hpiece⟩)
    · exact ⟨[], ',' :: rest, by simp, .inl rfl, .inr ⟨rest, rfl, by simpa using hbalance⟩, hcomma⟩
    · refine ⟨first ++ ',' :: front, back, by simp, .inr ?_, ?_, hpiece⟩
      · obtain rfl | ⟨before, rfl, hbefore⟩ := hfront
        · exact ⟨first, rfl, hbalance⟩
        · exact ⟨first ++ ',' :: before, by simp, by simp [hbalance, hbefore]⟩
      · obtain rfl | ⟨after, rfl, hafter⟩ := hback
        · exact .inl rfl
        · refine .inr ⟨after, rfl, ?_⟩
          rw [balance_append] at hafter
          simp [hbalance, hafter]

theorem level_of_depthAfter {text : List Char} (h : depthAfter 0 text = some 0) :
    balance text = 0 ∧ ¬HasOuterComma text := by
  obtain ⟨hruns, hcomma⟩ := depthAfter_eq_some_iff.mp h
  exact ⟨by simpa using hruns.stop, hcomma⟩

/-- The pieces of a text are the texts that commas join to it and that have no outer comma, by induction on these. -/
theorem between_intercalate {pieces : List (List Char)} (h : ∀ p ∈ first :: pieces, depthAfter 0 p = some 0) :
    Between (List.intercalate [','] (first :: pieces)) piece ↔ piece ∈ first :: pieces := by
  induction pieces generalizing first with
  | nil =>
    obtain ⟨-, hcomma⟩ := level_of_depthAfter (h first List.mem_cons_self)
    rw [List.intercalate_singleton, between_single hcomma, List.mem_singleton]
  | cons next pieces ih =>
    obtain ⟨hbalance, hcomma⟩ := level_of_depthAfter (h first List.mem_cons_self)
    have hrest : Between (List.intercalate [','] (next :: pieces)) piece ↔ piece ∈ next :: pieces :=
      ih fun p hp => h p (List.mem_cons_of_mem first hp)
    rw [List.intercalate_cons_cons, List.append_assoc, List.singleton_append, between_cons hbalance hcomma, hrest,
      List.mem_cons (b := first)]

/-- The first piece of a text leads from its depth to none, and the other pieces stay there. -/
theorem depthAfter_of_splitFrom {depth : Nat} {text : List Char} {pieces : List (List Char)}
    (h : splitFrom depth text = some (first :: pieces)) :
    depthAfter depth first = some 0 ∧ ∀ p ∈ pieces, depthAfter 0 p = some 0 := by
  fun_induction splitFrom depth text generalizing first pieces with
  | case1 =>
    cases h
    exact ⟨depthAfter_nil 0, List.forall_mem_nil _⟩
  | case2 => cases h
  | case3 depth cs ih =>
    obtain ⟨_, _, hcut, ⟨⟩⟩ := exists_of_map_consFirst h
    rw [depthAfter_open]
    exact ih hcut
  | case4 => cases h
  | case5 cs depth hopen ih =>
    obtain ⟨_, _, hcut, ⟨⟩⟩ := exists_of_map_consFirst h
    rw [depthAfter_close]
    exact ih hcut
  | case6 depth c cs hopen hclose hcomma ih =>
    obtain ⟨rest, hcut, ⟨⟩⟩ := Option.map_eq_some_iff.mp h
    obtain ⟨next, rest, rfl⟩ := List.exists_cons_of_ne_nil (splitFrom_ne_nil hcut)
    obtain ⟨rfl, rfl⟩ := hcomma
    exact ⟨depthAfter_nil 0, List.forall_mem_cons.mpr (ih hcut)⟩
  | case7 depth c cs hopen hclose hcomma ih =>
    obtain ⟨_, _, hcut, ⟨⟩⟩ := exists_of_map_consFirst h
    rw [depthAfter_of_ne _ _ hopen hclose hcomma]
    exact ih hcut

end Parts

section Splitting

variable {text : List Char} {parts : List (List Char)}

/-- What a text is cut into are the pieces between its outer commas. -/
theorem pieces_of_splitFrom (h : splitFrom 0 text = some parts) :
    (∀ p ∈ parts, depthAfter 0 p = some 0) ∧ ∀ piece, Between text piece ↔ piece ∈ parts := by
  obtain ⟨first, rest, rfl⟩ := List.exists_cons_of_ne_nil (splitFrom_ne_nil h)
  have hdepth : ∀ p ∈ first :: rest, depthAfter 0 p = some 0 := List.forall_mem_cons.mpr (depthAfter_of_splitFrom h)
  refine ⟨hdepth, fun piece => ?_⟩
  rw [← intercalate_of_splitFrom h]
  exact between_intercalate hdepth

theorem splitTopLevel_of_ne (hne : text ≠ []) :
    splitTopLevel text = some parts ↔ splitFrom 0 text = some parts ∧ ∀ part ∈ parts, part ≠ [] := by
  rw [splitTopLevel, if_neg hne, Option.filter_eq_some_iff, List.all_eq_true]
  simp

theorem exists_splitTopLevel_iff :
    (∃ parts, splitTopLevel text = some parts) ↔
      text = [] ∨ Balanced text ∧ ∀ piece, Between text piece → piece ≠ [] := by
  by_cases hempty : text = []
  · subst hempty
    exact iff_of_true ⟨[], rfl⟩ (.inl rfl)
  have hbalanced : Balanced text ↔ ∃ parts, splitFrom 0 text = some parts := by
    rw [← Option.isSome_iff_exists, isSome_splitFrom_iff]
    rfl
  simp only [splitTopLevel_of_ne hempty, hempty, false_or, hbalanced]
  constructor
  · rintro ⟨parts, hcut, hne⟩
    exact ⟨⟨parts, hcut⟩, fun piece hpiece => hne piece ((pieces_of_splitFrom hcut).2 piece |>.mp hpiece)⟩
  · rintro ⟨⟨parts, hcut⟩, hne⟩
    exact ⟨parts, hcut, fun part hpart => hne part ((pieces_of_splitFrom hcut).2 part |>.mpr hpart)⟩

theorem splitTopLevel_eq_some_iff :
    splitTopLevel text = some parts ↔ List.intercalate [','] parts = text ∧ ∀ part ∈ parts, IsPart part := by
  constructor
  · intro h
    refine ⟨intercalate_of_splitTopLevel h, fun part hpart => ?_⟩
    by_cases hempty : text = []
    · subst hempty
      cases h
      cases hpart
    · obtain ⟨hcut, hne⟩ := (splitTopLevel_of_ne hempty).mp h
      exact ⟨hne part hpart, (pieces_of_splitFrom hcut).1 part hpart⟩
  · rintro ⟨rfl, h⟩
    exact splitTopLevel_intercalate h

/-- A text has parts exactly if it is empty, and then none, or if it is balanced and no piece between its outer commas
is empty. These are its parts exactly if commas join them to the text and each stands alone; so a join of such parts
is split into them, and into no others. Cutting at places does the same, and never where there is no place. -/
theorem top_level_splitting_exact (text : List Char) (parts : List (List Char)) :
    ((∃ found, splitTopLevel text = some found) ↔
      text = [] ∨ Balanced text ∧ ∀ piece, Between text piece → piece ≠ []) ∧
    splitTopLevel [] = some [] ∧
    (splitTopLevel text = some parts ↔ List.intercalate [','] parts = text ∧ ∀ part ∈ parts, StandsAlone part) ∧
    ((∀ part ∈ parts, StandsAlone part) →
      splitTopLevel (List.intercalate [','] parts) = some parts ∧
      ∀ others, (∀ part ∈ others, StandsAlone part) →
        List.intercalate [','] others = List.intercalate [','] parts → others = parts) ∧
    splitByPlaces text = orRefused (splitTopLevel text) := by
  simp only [← isPart_iff]
  refine ⟨exists_splitTopLevel_iff, rfl, splitTopLevel_eq_some_iff, fun hparts => ?_, splitByPlaces_eq text⟩
  have hsplit := splitTopLevel_intercalate hparts
  refine ⟨hsplit, fun others hothers hjoin => ?_⟩
  have hsame := splitTopLevel_intercalate hothers
  rw [hjoin, hsplit] at hsame
  exact (Option.some.inj hsame).symm

/-- Two parts, of which the first has a character of two octets and commas in parentheses. -/
theorem accentedParts_split :
    (∀ part ∈ ["é(b,(c),d)".toList, "e[]".toList], StandsAlone part) ∧
    splitTopLevel "é(b,(c),d),e[]".toList = some ["é(b,(c),d)".toList, "e[]".toList] ∧
    splitByPlaces "é(b,(c),d),e[]".toList = .ok ["é(b,(c),d)".toList, "e[]".toList] := by
  have hparts : ∀ part ∈ ["é(b,(c),d)".toList, "e[]".toList], StandsAlone part := by
    simp only [← isPart_iff, IsPart]
    decide
  obtain ⟨-, -, -, hjoin, hplaces⟩ :=
    top_level_splitting_exact "é(b,(c),d),e[]".toList ["é(b,(c),d)".toList, "e[]".toList]
  have hsplit : splitTopLevel "é(b,(c),d),e[]".toList = some ["é(b,(c),d)".toList, "e[]".toList] := (hjoin hparts).1
  exact ⟨hparts, hsplit, by rw [hplaces, hsplit, orRefused]⟩

example :
    ["a,", "(a", "a)(", "(,)"].map (fun text => splitByPlaces text.toList) =
      [.error .refused, .error .refused, .error .refused, .ok ["(,)".toList]] ∧
    pieceBetween "é,b".toList 1 2 = .error .noPiece := by
  decide

end Splitting

end AtomicGroup.Abi
