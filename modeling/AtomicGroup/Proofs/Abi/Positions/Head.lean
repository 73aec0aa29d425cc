import AtomicGroup.Proofs.Abi.Positions
import AtomicGroup.Proofs.Abi.StaticLength
import Mathlib.Data.List.TakeWhile

/-!
# Reading a head by positions

A place in the input and the octets after it say the same. `HeadAlike` says so of the head of some members, from any
place on: whatever scanning the rest of the input finds, reading by positions finds, as `Progress.after` puts it
together. One lemma for each form of a step, be it a chunk of truth values, an offset or a static member, and
`headAlike` by induction.
-/
namespace AtomicGroup.Abi

open Outcome

/-- A type is read by positions as it is decoded. -/
def ReadAlike (t : Ty) : Prop := ∀ bs, t.readAt bs = refusing (t.decode bs)

namespace Slot

def value? : Slot → Option Value
  | value v => some v
  | tail _ _ => none

/-- A slot of a type: what is read from its offset on is decoded as the type. -/
def Of (t : Ty) : Slot → Prop
  | value _ => True
  | tail _ read => read = t.decode

end Slot

/-- The numbers and offsets of the dynamic ones among slots that are numbered from `i` on. -/
def offsetsFrom : (i : Nat) → List Slot → List (Nat × Nat)
  | _, [] => []
  | i, .value _ :: ss => offsetsFrom (i + 1) ss
  | i, .tail start _ :: ss => (i, start) :: offsetsFrom (i + 1) ss

theorem offsetsFrom_values (i : Nat) (vs : List Value) (ss : List Slot) :
    offsetsFrom i (vs.map .value ++ ss) = offsetsFrom (i + vs.length) ss := by
  induction vs generalizing i with
  | nil => rfl
  | cons v vs ih =>
    rw [List.map_cons, List.cons_append, offsetsFrom, ih, List.length_cons, Nat.add_right_comm, Nat.add_assoc]

theorem head?_offsetsFrom (i : Nat) (ss : List Slot) : (offsetsFrom i ss).head?.map (·.2) = firstOffset? ss := by
  induction ss generalizing i with
  | nil => rfl
  | cons s ss ih =>
    cases s with
    | value v => exact ih (i + 1)
    | tail start read => rfl

/-- How far a head has been read when slots are found and octets left over. -/
def Progress.after (p : Progress) (total : Nat) (found : List Slot × Bytes) : Progress where
  index := p.index + found.1.length
  slots := p.slots ++ found.1.map Slot.value?
  offsets := p.offsets ++ offsetsFrom p.index found.1
  pos := total - found.2.length

section After

variable (p : Progress) (total : Nat) (found : List Slot × Bytes)

theorem after_values (vs : List Value) (pos : Nat) : p.after total (vs.map .value ++ found.1, found.2) =
    Progress.after ⟨p.index + vs.length, p.slots ++ vs.map some, p.offsets, pos⟩ total found := by
  simp only [Progress.after, offsetsFrom_values, List.length_append, List.length_map, List.map_append, List.map_map,
    List.append_assoc, Nat.add_assoc]
  rfl

theorem after_tail (start : Nat) (read : Bytes → Except Error Value) (pos : Nat) :
    p.after total (.tail start read :: found.1, found.2) =
      Progress.after ⟨p.index + 1, p.slots ++ [none], p.offsets ++ [(p.index, start)], pos⟩ total found := by
  simp only [Progress.after, offsetsFrom, List.length_cons, List.map_cons, List.append_assoc, Nat.add_right_comm,
    Nat.add_assoc]
  rfl

end After

section Head

theorem memberReaders_append (ts us : List Ty) : memberReaders (ts ++ us) = memberReaders ts ++ memberReaders us := by
  induction ts with
  | nil => rfl
  | cons t ts ih => rw [List.cons_append, memberReaders, ih, memberReaders, List.cons_append]

/-- The octet at a place begins the octets from there on. -/
theorem of_drop_eq_cons {bs more : Bytes} {octet : UInt8} {pos : Nat} (h : bs.drop pos = octet :: more) :
    headOctet bs pos = .ok octet ∧ bs.drop (pos + 1) = more ∧ pos + 1 ≤ bs.length := by
  have hlen := congrArg List.length h
  rw [List.length_drop, List.length_cons] at hlen
  refine ⟨?_, ?_, by omega⟩
  · rw [headOctet, ← List.head?_drop, h]
    rfl
  · rw [← List.drop_drop, h, List.drop_one, List.tail_cons]

/-- Where the head ends there is no octet. -/
theorem of_drop_eq_nil {bs : Bytes} {pos : Nat} (h : bs.drop pos = []) : headOctet bs pos = refuse .truncatedHead := by
  rw [headOctet, ← List.head?_drop, h]
  rfl

/-- What is taken from the octets after a place ends at a later one. -/
theorem of_takeHead_eq_ok {bs front rest : Bytes} {pos n : Nat} (h : takeHead n (bs.drop pos) = .ok (front, rest))
    (hpos : pos ≤ bs.length) : front.length = n ∧ bs.drop (pos + n) = rest ∧ pos + n ≤ bs.length := by
  obtain ⟨hinput, rfl⟩ := takeHead_eq_ok h
  have hlen := congrArg List.length hinput
  rw [List.length_drop, List.length_append] at hlen
  refine ⟨rfl, ?_, by omega⟩
  rw [← List.drop_drop, hinput, List.drop_left]

/-- A slice of the head is what is taken from the octets after its beginning. -/
theorem headSlice_eq {bs : Bytes} {pos : Nat} (h : pos ≤ bs.length) (n : Nat) :
    headSlice bs pos (pos + n) = refusing ((takeHead n (bs.drop pos)).map (·.1)) := by
  have hfits : (pos ≤ pos + n ∧ pos + n ≤ bs.length) ↔ ((bs.drop pos).take n).length = n := by
    rw [List.length_take, List.length_drop]
    omega
  rw [headSlice, if_congr hfits rfl rfl, takeHead, Nat.add_sub_cancel_left]
  split <;> rfl

/-- Members begin with a chunk of truth values, at most eight, and fewer only if none follows. -/
theorem exists_chunk (ts : List Ty) : ∃ rest,
    ts = List.replicate (min (boolRun (readersAt ts)) 8) .bool ++ rest ∧
      (min (boolRun (readersAt ts)) 8 = 8 ∨ ∀ t ∈ rest.head?, t ≠ .bool) := by
  have hrun : boolRun (readersAt ts) = (ts.takeWhile (· = .bool)).length := by
    rw [boolRun, readersAt_eq_map, List.takeWhile_map, List.length_map]
    rfl
  have hbools : ts.takeWhile (· = .bool) = List.replicate (boolRun (readersAt ts)) .bool :=
    List.eq_replicate_iff.mpr ⟨hrun.symm, fun t ht => by simpa using List.mem_takeWhile_imp ht⟩
  have hsplit := List.takeWhile_append_dropWhile (p := (· = .bool)) (l := ts)
  rw [hbools] at hsplit
  by_cases hle : boolRun (readersAt ts) ≤ 8
  · rw [Nat.min_eq_left hle]
    refine ⟨_, hsplit.symm, .inr fun t ht => ?_⟩
    have hnot := List.head?_dropWhile_not (p := (· = .bool)) ts
    rw [Option.mem_def.mp ht] at hnot
    simpa using hnot
  · rw [Nat.min_eq_right (Nat.le_of_not_le hle)]
    refine ⟨List.replicate (boolRun (readersAt ts) - 8) .bool ++ ts.dropWhile (· = .bool), ?_, .inl rfl⟩
    rw [← List.append_assoc, List.replicate_append_replicate, Nat.add_sub_cancel' (by omega)]
    exact hsplit.symm

/-- What is left of a chunk is read from its octet, and what follows it from the octets after that. -/
theorem scan_bits (octet : UInt8) (used n : Nat) {ms : List Member} (hpos : 0 < used) (hle : used + n ≤ 8)
    (hend : used + n = 8 ∨ ∀ m ∈ ms.head?, m ≠ .bit) (rest : Bytes) :
    scan (if used = 8 then none else some (octet, used)) rest (List.replicate n .bit ++ ms) =
      (scan none rest ms).map fun found => ((bitValues octet used n).map .value ++ found.1, found.2) := by
  induction n generalizing used with
  | zero =>
    have hnone : scan (if used = 8 then none else some (octet, used)) rest ms = scan none rest ms := by
      obtain hfull | hother := hend
      · rw [if_pos (by omega)]
      · cases ms with
        | nil => split <;> rfl
        | cons m ms =>
          cases m with
          | bit => exact absurd rfl (hother .bit rfl)
          | inline length read => split <;> rfl
          | tail read => split <;> rfl
    rw [List.replicate_zero, List.nil_append, hnone]
    cases scan none rest ms <;> rfl
  | succ n ih =>
    have hnext := ih (used + 1) (Nat.succ_pos _) (by omega) (hend.imp_left fun h => by omega)
    rw [if_neg (by omega), List.replicate_succ, List.cons_append, scan]
    simp only [Nat.reduceEqDiff] at hnext
    rw [hnext]
    cases scan none rest ms <;> rfl

/-- A chunk is read from its octet. -/
theorem scan_chunk (octet : UInt8) {ms : List Member} {n : Nat} (hpos : 0 < n) (hle : n ≤ 8)
    (hend : n = 8 ∨ ∀ m ∈ ms.head?, m ≠ .bit) (rest : Bytes) :
    scan none (octet :: rest) (List.replicate n .bit ++ ms) =
      (scan none rest ms).map fun found => ((bitValues octet 0 n).map .value ++ found.1, found.2) := by
  obtain ⟨n, rfl⟩ := Nat.exists_eq_succ_of_ne_zero (Nat.ne_of_gt hpos)
  have hbits := scan_bits octet 1 n (by decide) (by omega) (hend.imp_left fun h => by omega) rest
  rw [if_neg (by decide)] at hbits
  rw [List.replicate_succ, List.cons_append, scan]
  simp only [hbits]
  cases scan none rest ms <;> rfl

theorem drop_readersAt (ts us : List Ty) : (readersAt (ts ++ us)).drop ts.length = readersAt us := by
  rw [readersAt_eq_map, List.map_append, List.drop_left' (by simp), readersAt_eq_map]

theorem memberReaders_bools (n : Nat) : memberReaders (List.replicate n .bool) = List.replicate n .bit :=
  (replicate_member .bool n).symm

theorem head?_memberReaders {ts : List Ty} (h : ∀ t ∈ ts.head?, t ≠ .bool) :
    ∀ m ∈ (memberReaders ts).head?, m ≠ .bit := by
  cases ts with
  | nil => exact nofun
  | cons t ts =>
    intro m hm
    cases hm
    rw [Ty.member, if_neg (h t rfl)]
    split <;> simp

/-- Reading the head of some members by positions, from any place on, finds what scanning the rest of the input
finds. -/
def HeadAlike (bs : Bytes) (ts : List Ty) : Prop := ∀ p : Progress, p.pos ≤ bs.length →
  readHead bs (readersAt ts) p = refusing ((scan none (bs.drop p.pos) (memberReaders ts)).map (p.after bs.length))

section HeadAlike

variable {bs : Bytes} {t : Ty} {ts rest : List Ty}

theorem headAlike_nil : HeadAlike bs [] := by
  intro p hpos
  have hback : bs.length - (bs.length - p.pos) = p.pos := by omega
  simp [readersAt, readHead, memberReaders, scan, Except.map, Progress.after, offsetsFrom, hback]

/-- Going on after a step finds what scanning finds from there, with the step counted in. -/
theorem HeadAlike.next (h : HeadAlike bs ts) {p q : Progress} {step : List Slot × Bytes → List Slot × Bytes}
    (hpos : q.pos ≤ bs.length) (hstep : ∀ found, p.after bs.length (step found) = q.after bs.length found) :
    readHead bs (readersAt ts) q =
      refusing (((scan none (bs.drop q.pos) (memberReaders ts)).map step).map (p.after bs.length)) := by
  rw [h q hpos]
  cases scan none (bs.drop q.pos) (memberReaders ts) with
  | error e => rfl
  | ok found => exact congrArg Except.ok (hstep found).symm

/-- A chunk of truth values takes one octet. -/
theorem headAlike_chunk {run : Nat} (hrun : min (boolRun (readersAt (t :: ts))) 8 = run) (hb : t = .bool)
    (hsplit : t :: ts = List.replicate run .bool ++ rest) (hend : run = 8 ∨ ∀ t ∈ rest.head?, t ≠ .bool)
    (h : HeadAlike bs rest) : HeadAlike bs (t :: ts) := by
  intro p hpos
  have hone : 0 < run := by
    have hfirst := boolRun_pos (r := ⟨t, t.readAt⟩) hb (readersAt ts)
    rw [← hrun, readersAt]
    omega
  have hle : run ≤ 8 := by omega
  have hmembers : memberReaders (t :: ts) = List.replicate run .bit ++ memberReaders rest := by
    rw [hsplit, memberReaders_append, memberReaders_bools]
  have hdrop : (readersAt (t :: ts)).drop run = readersAt rest := by
    have hrest := drop_readersAt (List.replicate run .bool) rest
    rwa [List.length_replicate, ← hsplit] at hrest
  rw [hmembers, readersAt, readHead, dif_pos hb, ← readersAt]
  simp only [hrun, hdrop]
  cases hinput : bs.drop p.pos with
  | nil =>
    obtain ⟨run, rfl⟩ := Nat.exists_eq_succ_of_ne_zero (Nat.ne_of_gt hone)
    rw [of_drop_eq_nil hinput, List.replicate_succ]
    rfl
  | cons octet more =>
    obtain ⟨hoctet, hmore, hnext⟩ := of_drop_eq_cons hinput
    have hlength : (bitValues octet 0 run).length = run := by simp [bitValues]
    rw [hoctet, ok_bind, scan_chunk octet hone hle (hend.imp_right head?_memberReaders), ← hmore]
    refine h.next hnext fun found => ?_
    rw [after_values p bs.length found (bitValues octet 0 run) (p.pos + 1), hlength]

/-- A dynamic member leaves its offset in the head. -/
theorem headAlike_dynamic (hd : t.isDynamic = true) (h : HeadAlike bs ts) : HeadAlike bs (t :: ts) := by
  intro p hpos
  have hb : t ≠ .bool := by
    rintro rfl
    cases hd
  rw [memberReaders, Ty.member, if_neg hb, if_pos hd, readersAt, readHead, dif_neg hb, if_pos hd, headSlice_eq hpos,
    scan]
  cases htake : takeHead 2 (bs.drop p.pos) with
  | error e => rfl
  | ok found =>
    obtain ⟨front, rest⟩ := found
    obtain ⟨hfront, hrest, hnext⟩ := of_takeHead_eq_ok htake hpos
    obtain ⟨hi, lo, rfl⟩ := List.length_eq_two.mp hfront
    have hcount : countOf [hi, lo] = .ok (ofBigEndian [hi, lo]) := rfl
    simp only [Except.map, refusing_ok, ok_bind, hcount]
    rw [← hrest]
    exact h.next hnext fun found => after_tail p bs.length found (ofBigEndian [hi, lo]) t.decode (p.pos + 2)

/-- A static member is read where it stands. -/
theorem headAlike_static (hb : t ≠ .bool) (hs : t.isDynamic = false) (ht : ReadAlike t) (h : HeadAlike bs ts) :
    HeadAlike bs (t :: ts) := by
  intro p hpos
  have hd : ¬t.isDynamic = true := by simp [hs]
  have hlength : t.byteLength = .ok t.staticLength := Ty.byteLength_eq_ok.mpr ⟨hs, rfl⟩
  rw [memberReaders, Ty.member, if_neg hb, if_neg hd, readersAt, readHead, dif_neg hb, if_neg hd, hlength, refusing_ok,
    ok_bind, headSlice_eq hpos, scan]
  cases htake : takeHead t.staticLength (bs.drop p.pos) with
  | error e => rfl
  | ok found =>
    obtain ⟨front, rest⟩ := found
    obtain ⟨-, hrest, hnext⟩ := of_takeHead_eq_ok htake hpos
    simp only [Except.map, refusing_ok, ok_bind, ht front]
    cases t.decode front with
    | error e => rfl
    | ok v =>
      simp only [refusing_ok, ok_bind]
      rw [← hrest]
      exact h.next hnext fun found => after_values p bs.length found [v] (p.pos + t.staticLength)

/-- Reading any head by positions finds what scanning it finds, by induction on the number of members. -/
theorem headAlike (hts : ∀ t ∈ ts, ReadAlike t) : HeadAlike bs ts := by
  -- A chunk is several members at once, so the induction is not on the list.
  induction hn : ts.length using Nat.strong_induction_on generalizing ts with
  | _ n ih =>
    cases ts with
    | nil => exact headAlike_nil
    | cons t ts =>
      obtain ⟨ht, hrest⟩ := List.forall_mem_cons.mp hts
      by_cases hb : t = .bool
      · obtain ⟨rest, hsplit, hend⟩ := exists_chunk (t :: ts)
        refine headAlike_chunk rfl hb hsplit hend (ih rest.length ?_ (fun u hu => hts u ?_) rfl)
        · have hfirst := boolRun_pos (r := ⟨t, t.readAt⟩) hb (readersAt ts)
          have hlen := congrArg List.length hsplit
          rw [List.length_append, List.length_replicate, readersAt] at hlen
          omega
        · rw [hsplit]
          exact List.mem_append_right _ hu
      · have hmembers : HeadAlike bs ts := ih ts.length (by rw [← hn]; exact Nat.lt_succ_self _) hrest rfl
        cases hd : t.isDynamic with
        | true => exact headAlike_dynamic hd hmembers
        | false => exact headAlike_static hb hd ht hmembers

end HeadAlike

end Head

end AtomicGroup.Abi
