import AtomicGroup.Proofs.Abi.Split
import AtomicGroup.Proofs.Outcome

/-!
# Cutting at places

`splitFrom` builds its pieces character by character. Here the same text is cut the way a program does that keeps it
whole: it goes over the characters with the place of each, a number of octets in UTF-8, remembers where the current
part begins, and takes the part out of the text at a comma. A place inside of a character or beyond the text is none
to cut at, and where there is no such piece the program does not go on, which is another end than a refusal.
`cutAlike` is the invariant of a run: what was seen of the current part is put before the pieces of what is left.
-/
namespace AtomicGroup.Abi

open AtomicGroup.Outcome

inductive Uncut where
  | refused
  /-- There is no piece of the text between two places. -/
  | noPiece
deriving DecidableEq, Repr

def orRefused {α : Type} : Option α → Except Uncut α
  | some a => .ok a
  | none => .error .refused

section Places

/-- How many octets a text has in UTF-8. -/
def octetLength : List Char → Nat
  | [] => 0
  | c :: cs => c.utf8Size + octetLength cs

/-- A text cut behind so many octets, which have to end between two characters. -/
def cutAt? : Nat → List Char → Option (List Char × List Char)
  | 0, text => some ([], text)
  | _ + 1, [] => none
  | n + 1, c :: cs =>
    if c.utf8Size ≤ n + 1 then (cutAt? (n + 1 - c.utf8Size) cs).map fun (front, back) => (c :: front, back) else none

def pieceBetween (text : List Char) (start stop : Nat) : Except Uncut (List Char) :=
  match cutAt? stop text with
  | none => .error .noPiece
  | some (front, _) =>
    match cutAt? start front with
    | none => .error .noPiece
    | some (_, piece) => .ok piece

@[simp] theorem octetLength_nil : octetLength [] = 0 := rfl

@[simp] theorem octetLength_cons (c : Char) (cs : List Char) :
    octetLength (c :: cs) = c.utf8Size + octetLength cs := rfl

@[simp] theorem octetLength_append (front back : List Char) :
    octetLength (front ++ back) = octetLength front + octetLength back := by
  induction front with
  | nil => simp
  | cons c front ih => simp [ih, Nat.add_assoc]

theorem cutAt?_append (front back : List Char) : cutAt? (octetLength front) (front ++ back) = some (front, back) := by
  induction front with
  | nil => simp [cutAt?]
  | cons c front ih =>
    obtain ⟨n, hn⟩ : ∃ n, c.utf8Size + octetLength front = n + 1 :=
      Nat.exists_eq_add_one.mpr (Nat.add_pos_left c.utf8Size_pos _)
    have hrest : n + 1 - c.utf8Size = octetLength front := by omega
    rw [octetLength_cons, List.cons_append, hn, cutAt?, if_pos (by omega), hrest, ih]
    rfl

theorem pieceBetween_append (front piece back : List Char) :
    pieceBetween (front ++ piece ++ back) (octetLength front) (octetLength (front ++ piece)) = .ok piece := by
  rw [pieceBetween, cutAt?_append]
  dsimp only
  rw [cutAt?_append]

end Places

section Scanning

structure Scan where
  /-- How many parentheses are open. -/
  depth : Nat := 0
  /-- The place at which the current part begins. -/
  start : Nat := 0
  /-- The parts that end before it. -/
  parts : List (List Char) := []
deriving DecidableEq, Repr

def Scan.step (text : List Char) (s : Scan) (place : Nat) (c : Char) : Except Uncut Scan :=
  if c = '(' then .ok { s with depth := s.depth + 1 }
  else if c = ')' then
    match s.depth with
    | 0 => .error .refused
    | depth + 1 => .ok { s with depth := depth }
  else if c = ',' ∧ s.depth = 0 then do
    let part ← pieceBetween text s.start place
    return { s with start := place + 1, parts := s.parts ++ [part] }
  else .ok s

def Scan.run (text : List Char) : (place : Nat) → List Char → Scan → Except Uncut Scan
  | _, [], s => .ok s
  | place, c :: cs, s => do run text (place + c.utf8Size) cs (← s.step text place c)

/-- The parts of a text that has been gone over: those before, and what is left behind the last comma. -/
def Scan.finish (text : List Char) (s : Scan) : Except Uncut (List (List Char)) := do
  if s.depth ≠ 0 then throw .refused
  return s.parts ++ [← pieceBetween text s.start (octetLength text)]

/-- The parts of a text between its outer commas, cut out at places. -/
def splitByPlaces (text : List Char) : Except Uncut (List (List Char)) := do
  if text = [] then return []
  let s ← Scan.run text 0 text {}
  let parts ← s.finish text
  if parts.any (· = []) then throw .refused
  return parts

theorem Scan.run_cons (text : List Char) (place : Nat) (c : Char) (cs : List Char) (s : Scan) :
    run text place (c :: cs) s = s.step text place c >>= run text (place + c.utf8Size) cs := rfl

end Scanning

section CutAlike

variable {text front piece cs : List Char} {depth : Nat} {parts : List (List Char)}

/-- The rest of a text is gone over as it is cut, and what has been seen of the current part is put before the first
of its pieces. -/
def CutAlike (text front piece rest : List Char) (depth : Nat) (parts : List (List Char)) : Prop :=
  (Scan.run text (octetLength (front ++ piece)) rest ⟨depth, octetLength front, parts⟩ >>= Scan.finish text) =
    orRefused ((splitFrom depth rest).map fun pieces => parts ++ piece.foldr consFirst pieces)

theorem cutAlike_nil (htext : text = front ++ piece) : CutAlike text front piece [] depth parts := by
  subst htext
  cases depth with
  | zero =>
    have hpiece := pieceBetween_append front piece []
    rw [List.append_nil] at hpiece
    change Scan.finish (front ++ piece) ⟨0, octetLength front, parts⟩ = _
    rw [Scan.finish, hpiece]
    simp only [splitFrom, Option.map_some, foldr_consFirst, List.append_nil]
    rfl
  | succ depth => rfl

/-- A character that belongs to the current part. -/
theorem CutAlike.part {c : Char} {next : Nat}
    (hstep : ∀ place, Scan.step text ⟨depth, octetLength front, parts⟩ place c = .ok ⟨next, octetLength front, parts⟩)
    (hsplit : splitFrom depth (c :: cs) = (splitFrom next cs).map (consFirst c))
    (h : CutAlike text front (piece ++ [c]) cs next parts) : CutAlike text front piece (c :: cs) depth parts := by
  have hplace : octetLength (front ++ piece) + c.utf8Size = octetLength (front ++ (piece ++ [c])) := by
    simp [Nat.add_assoc]
  rw [CutAlike, Scan.run_cons, hstep, ok_bind, hplace, h, hsplit, Option.map_map]
  simp [Function.comp_def]

/-- A comma outside of all parentheses, which ends the current part. -/
theorem CutAlike.comma (htext : text = front ++ piece ++ ',' :: cs)
    (h : CutAlike text (front ++ piece ++ [',']) [] cs 0 (parts ++ [piece])) :
    CutAlike text front piece (',' :: cs) 0 parts := by
  have hstep : Scan.step text ⟨0, octetLength front, parts⟩ (octetLength (front ++ piece)) ',' =
      .ok ⟨0, octetLength (front ++ piece) + 1, parts ++ [piece]⟩ := by
    have hpiece := pieceBetween_append front piece (',' :: cs)
    rw [← htext] at hpiece
    change (pieceBetween text _ _ >>= fun part => pure _) = _
    rw [hpiece]
    rfl
  have hstart : octetLength (front ++ piece) + 1 = octetLength (front ++ piece ++ [',']) := by
    rw [octetLength_append _ [',']]
    rfl
  have hcomma : splitFrom 0 (',' :: cs) = (splitFrom 0 cs).map ([] :: ·) := rfl
  rw [CutAlike, List.append_nil] at h
  rw [CutAlike, Scan.run_cons, hstep, ok_bind, hstart]
  change (Scan.run text (octetLength (front ++ piece) + 1) cs _ >>= _) = _
  rw [hstart, h, hcomma, Option.map_map]
  simp [Function.comp_def, foldr_consFirst]

/-- What is left of a text is gone over as it is cut, by induction on it. -/
theorem cutAlike {rest : List Char} (htext : text = front ++ piece ++ rest) :
    CutAlike text front piece rest depth parts := by
  -- The current part is all that grows, until an outer comma puts it to the front.
  induction rest generalizing front piece depth parts with
  | nil => exact cutAlike_nil (by rwa [List.append_nil] at htext)
  | cons c cs ih =>
    have hnext : text = front ++ (piece ++ [c]) ++ cs := by simp [htext]
    by_cases hopen : c = '('
    · subst hopen
      exact .part (fun _ => rfl) (splitFrom_open depth cs) (ih hnext)
    by_cases hclose : c = ')'
    · subst hclose
      cases depth with
      | zero => rfl
      | succ depth => exact .part (fun _ => rfl) (splitFrom_close depth cs) (ih hnext)
    by_cases hcomma : c = ',' ∧ depth = 0
    · obtain ⟨rfl, rfl⟩ := hcomma
      exact .comma htext (ih (by simp [htext]))
    · have hstep (place : Nat) : Scan.step text ⟨depth, octetLength front, parts⟩ place c =
          .ok ⟨depth, octetLength front, parts⟩ := by
        rw [Scan.step, if_neg hopen, if_neg hclose, if_neg hcomma]
      exact .part hstep (splitFrom_of_ne depth cs hopen hclose hcomma) (ih hnext)

/-- Cutting at places finds the parts of a text wherever it has parts, and otherwise refuses it: every piece that it
takes out is there. -/
theorem splitByPlaces_eq (text : List Char) : splitByPlaces text = orRefused (splitTopLevel text) := by
  rw [splitByPlaces, splitTopLevel]
  by_cases hne : text = []
  · rw [if_pos hne, if_pos hne]
    rfl
  · have halike : CutAlike text [] [] text 0 [] := cutAlike rfl
    have hrun : (Scan.run text 0 text {} >>= Scan.finish text) = orRefused (splitFrom 0 text) := by
      simpa [CutAlike] using halike
    rw [if_neg hne, if_neg hne]
    change (Scan.run text 0 text {} >>= fun s => s.finish text >>= _) = _
    rw [← bind_assoc, hrun]
    cases splitFrom 0 text with
    | none => rfl
    | some parts =>
      have hempty : parts.any (· = []) = !parts.all (· != []) := by
        rw [List.not_all_eq_any_not]
        exact congrArg parts.any (funext fun part => by cases part <;> rfl)
      rw [Option.filter_some]
      change (if parts.any (· = []) then throw _ >>= _ else pure parts) = _
      rw [hempty]
      cases parts.all (· != []) <;> rfl

end CutAlike

end AtomicGroup.Abi
