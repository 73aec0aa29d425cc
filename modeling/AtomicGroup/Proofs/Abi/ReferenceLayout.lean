import AtomicGroup.Proofs.Abi.Limits
import AtomicGroup.Proofs.Abi.UnusedBits
import Mathlib.Algebra.GroupWithZero.Nat
import Mathlib.Data.List.SplitBy
import Mathlib.Data.Nat.Init

/-!
# The layout that encodings have

A tuple's layout is said here from the outside: which truth values share an octet, what stands in the head at each
place, and which number an offset is. `headItems` groups the components of a tuple, `referenceTuple` writes them, and
`encode_is_reference_layout` says that encoding a tuple or an array gives this and nothing else, and that it fails at a
length exactly when an offset or the count does not fit two octets.

`layout` collects truth values one by one and moves one running offset along; the two are compared cell by cell.
-/
namespace AtomicGroup.Abi

open Outcome

inductive HeadItem where
  /-- Truth values that share an octet. -/
  | chunk (bits : List Bool)
  /-- The encoding of a static component. -/
  | static (bs : Bytes)
  /-- The offset of a dynamic component, which is encoded in the tail. -/
  | dynamic (bs : Bytes)
deriving DecidableEq, Repr

/-- The octet of which bit `7 - j` is the `j`-th truth value, and all others are zero. -/
def chunkOctet (bits : List Bool) : UInt8 := UInt8.ofNat (Nat.ofBits fun i : Fin 8 => bits.getD (7 - i) false)

def Part.bit? : Part → Option Bool
  | .bit b => some b
  | _ => none

/-- Whether two components that follow one another belong to one run of truth values. -/
def Part.together (p q : Part) : Bool := p.bit?.isSome && q.bit?.isSome

/-- The head items of a group: a component by itself, or a run of truth values in chunks of at most eight. -/
def groupItems : List Part → List HeadItem
  | [.inline bs] => [.static bs]
  | [.tail bs] => [.dynamic bs]
  | run => (chunks 8 (run.filterMap Part.bit?)).map .chunk

/-- The head items of a tuple's components, of which each longest run of truth values is one group. -/
def headItems (ps : List Part) : List HeadItem := (ps.splitBy Part.together).flatMap groupItems

namespace HeadItem

def headLength : HeadItem → Nat
  | chunk _ => 1
  | static bs => bs.length
  | dynamic _ => 2

def tail : HeadItem → Bytes
  | dynamic bs => bs
  | _ => []

/-- The octets of an item whose tail would begin at a given offset. -/
def octets (offset : Nat) : HeadItem → Bytes
  | chunk bits => [chunkOctet bits]
  | static bs => bs
  | dynamic _ => bigEndian 2 offset

def cell : HeadItem → Cell
  | chunk bits => .octets [chunkOctet bits]
  | static bs => .octets bs
  | dynamic bs => .offset bs

end HeadItem

def totalHead (items : List HeadItem) : Nat := (items.map HeadItem.headLength).sum

/-- Where the tail of the item at a position begins when tails begin at `start`: after the tails before it. -/
def tailStart (start : Nat) (items : List HeadItem) (k : Nat) : Nat :=
  start + ((items.take k).map fun item => item.tail.length).sum

def headOctets (start : Nat) (items : List HeadItem) : Bytes :=
  items.zipIdx.flatMap fun (item, k) => item.octets (tailStart start items k)

/-- The offsets that stand in the head fit two octets. -/
def OffsetsFit (start : Nat) (items : List HeadItem) : Prop :=
  ∀ k bs, items[k]? = some (.dynamic bs) → tailStart start items k ≤ 65535

/-- The octets of a tuple: its head, then the encodings of its dynamic components in order. -/
def referenceTuple (items : List HeadItem) : Bytes :=
  headOctets (totalHead items) items ++ items.flatMap HeadItem.tail

section HeadItems

theorem packBits_eq_chunkOctet {bits : List Bool} (h : bits.length ≤ 8) : packBits bits = chunkOctet bits := by
  apply octet_ext
  intro i hi
  have hlt : Nat.ofBits (fun i : Fin 8 => bits.getD (7 - i) false) < 256 := Nat.ofBits_lt_two_pow _
  have hback : 7 - (7 - i) = i := by omega
  have hpacked := bitAt_packBits_fill h hi
  have hfilled : (BitGroups.fill 8 bits)[i]? = some (bits.getD i false) := by
    by_cases hin : i < bits.length
    · rw [BitGroups.getElem?_fill hin, List.getD_eq_getElem?_getD, List.getElem?_eq_getElem hin, Option.getD_some]
    · rw [BitGroups.fill, List.getElem?_append_right (by omega), List.getElem?_replicate_of_lt (by omega),
        List.getD_eq_getElem?_getD, List.getElem?_eq_none (by omega), Option.getD_none]
  rw [hfilled, Option.some_inj] at hpacked
  rw [hpacked, bitAt, chunkOctet, UInt8.toNat_ofNat_of_lt' hlt, Nat.testBit_ofBits_lt _ _ (by omega)]
  simp only [hback]

@[simp] theorem headItems_nil : headItems [] = [] := rfl

/-- A component that is no truth value is a group by itself. -/
theorem headItems_cons {p : Part} (h : p.bit? = none) (ps : List Part) :
    headItems (p :: ps) = groupItems [p] ++ headItems ps := by
  have hsplit : ([p] ++ ps).splitBy Part.together = [p].splitBy Part.together ++ ps.splitBy Part.together := by
    apply List.splitBy_append
    intro x hx y _
    obtain rfl : p = x := by simpa using hx
    rw [Part.together, h]
    rfl
  rw [headItems, ← List.singleton_append, hsplit, List.flatMap_append]
  simp [headItems, List.splitBy, List.splitBy.loop]

/-- A run of truth values, up to a component that is none, is cut into chunks. -/
theorem headItems_run (bits : List Bool) {ps : List Part} (h : ∀ p ∈ ps.head?, p.bit? = none) :
    headItems (bits.map Part.bit ++ ps) = (chunks 8 bits).map .chunk ++ headItems ps := by
  cases bits with
  | nil => rfl
  | cons b bits =>
    have hsplit : ((b :: bits).map Part.bit ++ ps).splitBy Part.together =
        ((b :: bits).map Part.bit).splitBy Part.together ++ ps.splitBy Part.together := by
      apply List.splitBy_append
      intro x _ y hy
      rw [Part.together, h y hy, Bool.and_comm]
      rfl
    have hrun : ((b :: bits).map Part.bit).splitBy Part.together = [(b :: bits).map Part.bit] := by
      apply List.splitBy_of_isChain (by simp)
      rw [List.isChain_map]
      exact (List.pairwise_of_forall fun _ _ => rfl).isChain
    have hbits : ((b :: bits).map Part.bit).filterMap Part.bit? = b :: bits := by
      rw [List.filterMap_map]
      exact List.filterMap_some
    have hgroup : groupItems ((b :: bits).map Part.bit) = (chunks 8 (b :: bits)).map .chunk := by
      rw [List.map_cons] at hbits ⊢
      rw [groupItems, hbits]
      all_goals simp
    rw [headItems, hsplit, hrun, List.flatMap_append, List.flatMap_singleton, hgroup, headItems]

/-- Components begin with a run of truth values, which may be empty. -/
theorem exists_leading_bits (ps : List Part) :
    ∃ (bits : List Bool) (rest : List Part), ps = bits.map Part.bit ++ rest ∧ ∀ p ∈ rest.head?, p.bit? = none := by
  induction ps with
  | nil => exact ⟨[], [], rfl, by simp⟩
  | cons p ps ih =>
    cases p with
    | bit b =>
      obtain ⟨bits, rest, rfl, hrest⟩ := ih
      exact ⟨b :: bits, rest, rfl, hrest⟩
    | inline bs => exact ⟨[], .inline bs :: ps, rfl, by simp [Part.bit?]⟩
    | tail bs => exact ⟨[], .tail bs :: ps, rfl, by simp [Part.bit?]⟩

/-- Eight truth values are a chunk, whatever follows them. -/
theorem headItems_eight {bits : List Bool} (h : bits.length = 8) (ps : List Part) :
    headItems (bits.map Part.bit ++ ps) = .chunk bits :: headItems ps := by
  obtain ⟨more, rest, rfl, hrest⟩ := exists_leading_bits ps
  rw [← List.append_assoc, ← List.map_append, headItems_run _ hrest, headItems_run _ hrest,
    BitGroups.chunks_append (by decide) h, List.map_cons, List.cons_append]

theorem flush_eq {pending : List Bool} (h8 : pending.length ≤ 8) :
    flush pending = ((chunks 8 pending).map HeadItem.chunk).map HeadItem.cell := by
  by_cases hnil : pending = []
  · rw [hnil]
    rfl
  · rw [flush, if_neg hnil, BitGroups.chunks_of_length_le hnil h8, packBits_eq_chunkOctet h8]
    rfl

/-- Collecting truth values one by one makes the cells of the head items, by induction on the components. -/
theorem cellsAfter_eq {pending : List Bool} (h7 : pending.length ≤ 7) (ps : List Part) :
    cellsAfter pending ps = (headItems (pending.map Part.bit ++ ps)).map HeadItem.cell := by
  induction ps generalizing pending with
  | nil =>
    rw [cellsAfter, flush_eq (by omega), headItems_run pending (by simp), headItems_nil, List.append_nil]
  | cons p ps ih =>
    have hempty : cellsAfter [] ps = (headItems ps).map HeadItem.cell := @ih [] (Nat.zero_le 7)
    cases p with
    | inline bs =>
      have hhead : ∀ p ∈ (Part.inline bs :: ps).head?, p.bit? = none := by simp [Part.bit?]
      rw [cellsAfter, flush_eq (by omega), headItems_run pending hhead, headItems_cons rfl, hempty, List.map_append]
      rfl
    | tail bs =>
      have hhead : ∀ p ∈ (Part.tail bs :: ps).head?, p.bit? = none := by simp [Part.bit?]
      rw [cellsAfter, flush_eq (by omega), headItems_run pending hhead, headItems_cons rfl, hempty, List.map_append]
      rfl
    | bit b =>
      have hjoin : pending.map Part.bit ++ .bit b :: ps = (pending ++ [b]).map Part.bit ++ ps := by simp
      rw [cellsAfter, hjoin]
      by_cases hfull : pending.length = 7
      · -- The eighth truth value closes its chunk, and the next one begins with nothing pending.
        have height : (pending ++ [b]).length = 8 := by simp [hfull]
        rw [if_pos hfull, hempty, headItems_eight height, flush_eq (by omega),
          BitGroups.chunks_of_length_le (by simp) (by omega)]
        rfl
      · rw [if_neg hfull, ih (by simp; omega)]

theorem cells_eq (ps : List Part) : cells ps = (headItems ps).map HeadItem.cell :=
  @cellsAfter_eq [] (Nat.zero_le 7) ps

end HeadItems

section Offsets

variable {items : List HeadItem}

theorem headLength_map_cell (items : List HeadItem) : headLength (items.map HeadItem.cell) = totalHead items := by
  induction items with
  | nil => rfl
  | cons item items ih =>
    have hitem : item.cell.headLength = item.headLength := by cases item <;> rfl
    rw [List.map_cons, headLength, hitem, ih, totalHead, totalHead, List.map_cons, List.sum_cons]

theorem tail_map_cell (items : List HeadItem) :
    (items.map HeadItem.cell).flatMap Cell.tail = items.flatMap HeadItem.tail := by
  rw [List.flatMap_map]
  congr 1
  funext item
  cases item <;> rfl

theorem tailStart_cons_succ (start : Nat) (item : HeadItem) (items : List HeadItem) (k : Nat) :
    tailStart start (item :: items) (k + 1) = tailStart (start + item.tail.length) items k := by
  simp only [tailStart, List.take_succ_cons, List.map_cons, List.sum_cons, Nat.add_assoc]

theorem headOctets_cons (start : Nat) (item : HeadItem) (items : List HeadItem) :
    headOctets start (item :: items) = item.octets start ++ headOctets (start + item.tail.length) items := by
  rw [headOctets, List.zipIdx_cons, List.flatMap_cons, List.zipIdx_succ, List.flatMap_map, headOctets]
  simp only [tailStart_cons_succ]
  rfl

theorem offsetsFit_cons (start : Nat) (item : HeadItem) (items : List HeadItem) :
    OffsetsFit start (item :: items) ↔
      (∀ bs, item = .dynamic bs → start ≤ 65535) ∧ OffsetsFit (start + item.tail.length) items := by
  constructor
  · intro h
    refine ⟨fun bs hitem => h 0 bs (congrArg some hitem), fun k bs hk => ?_⟩
    rw [← tailStart_cons_succ]
    exact h (k + 1) bs hk
  · rintro ⟨hhead, hrest⟩ k bs hk
    cases k with
    | zero => exact hhead bs (Option.some.inj hk)
    | succ k =>
      rw [tailStart_cons_succ]
      exact hrest k bs hk

theorem encodeLength_eq_ok_iff {n : Nat} {bs : Bytes} : encodeLength n = .ok bs ↔ n ≤ 65535 ∧ bs = bigEndian 2 n := by
  have hsize : n < UInt16.size ↔ n ≤ 65535 := Nat.lt_succ_iff
  by_cases hn : n ≤ 65535
  · rw [encodeLength, if_pos (hsize.mpr hn)]
    simp [hn, eq_comm]
  · rw [encodeLength, if_neg (fun h => hn (hsize.mp h))]
    simp [hn]

theorem heads_octets_eq_ok {start : Nat} {bs head : Bytes} {cs : List Cell} :
    heads start (.octets bs :: cs) = .ok head ↔ ∃ rest, heads start cs = .ok rest ∧ head = bs ++ rest := by
  simp only [heads, bind_eq_ok, pure_eq_ok, eq_comm (a := head)]

theorem heads_offset_eq_ok {start : Nat} {bs head : Bytes} {cs : List Cell} :
    heads start (.offset bs :: cs) = .ok head ↔
      start ≤ 65535 ∧ ∃ rest, heads (start + bs.length) cs = .ok rest ∧ head = bigEndian 2 start ++ rest := by
  simp only [heads, bind_eq_ok, pure_eq_ok, encodeLength_eq_ok_iff]
  constructor
  · rintro ⟨_, ⟨hstart, rfl⟩, rest, hrest, rfl⟩
    exact ⟨hstart, rest, hrest, rfl⟩
  · rintro ⟨hstart, rest, hrest, rfl⟩
    exact ⟨_, ⟨hstart, rfl⟩, rest, hrest, rfl⟩

/-- Moving the offset along writes the head, as long as the offsets fit, by induction on the items. -/
theorem heads_eq_ok_iff {start : Nat} {head : Bytes} :
    heads start (items.map HeadItem.cell) = .ok head ↔ OffsetsFit start items ∧ head = headOctets start items := by
  induction items generalizing start head with
  | nil => simp [heads, OffsetsFit, headOctets, eq_comm]
  | cons item items ih =>
    rw [offsetsFit_cons, headOctets_cons, List.map_cons]
    cases item with
    | chunk bits => simp [HeadItem.cell, HeadItem.tail, HeadItem.octets, heads_octets_eq_ok, ih]
    | static bs => simp [HeadItem.cell, HeadItem.tail, HeadItem.octets, heads_octets_eq_ok, ih]
    | dynamic bs => simp [HeadItem.cell, HeadItem.tail, HeadItem.octets, heads_offset_eq_ok, ih, and_assoc]

/-- Laying out components gives the reference layout, and fails only at an offset that does not fit. -/
theorem layout_eq_ok_iff {ps : List Part} {bs : Bytes} :
    layout ps = .ok bs ↔ OffsetsFit (totalHead (headItems ps)) (headItems ps) ∧ bs = referenceTuple (headItems ps) := by
  simp only [layout, bind_eq_ok, pure_eq_ok, cells_eq, headLength_map_cell, tail_map_cell, heads_eq_ok_iff,
    referenceTuple]
  constructor
  · rintro ⟨_, ⟨hfit, rfl⟩, rfl⟩
    exact ⟨hfit, rfl⟩
  · rintro ⟨hfit, rfl⟩
    exact ⟨_, ⟨hfit, rfl⟩, rfl⟩

end Offsets

/-- The component that a value is as one of a type: a truth value, or its encoding, static or dynamic as the type is. -/
inductive ComponentOf : Ty → Value → Part → Prop where
  | bool (b : Bool) : ComponentOf .bool (.bool b) (.bit b)
  | static {t : Ty} {v : Value} {bs : Bytes} (ht : t ≠ .bool) (hs : t.isDynamic = false) (h : t.encode v = .ok bs) :
      ComponentOf t v (.inline bs)
  | dynamic {t : Ty} {v : Value} {bs : Bytes} (hd : t.isDynamic = true) (h : t.encode v = .ok bs) :
      ComponentOf t v (.tail bs)

inductive Components : List Ty → List Value → List Part → Prop where
  | nil : Components [] [] []
  | cons {t : Ty} {v : Value} {p : Part} {ts : List Ty} {vs : List Value} {ps : List Part} (head : ComponentOf t v p)
      (rest : Components ts vs ps) : Components (t :: ts) (v :: vs) (p :: ps)

namespace Ty

def isComposite : Ty → Bool
  | .array _ _ => true
  | .list _ => true
  | .tuple _ => true
  | _ => false

/-- The types of the components of a tuple or an array of `count` items, when it may have that many. -/
def componentTypes? : Ty → (count : Nat) → Option (List Ty)
  | .array elem length, count => if count = length then some (List.replicate count elem) else none
  | .list elem, count => some (List.replicate count elem)
  | .tuple members, count => if count = members.length then some members else none
  | _, _ => none

/-- The octets before the components: the count of a dynamic array. -/
def countOctets : Ty → (count : Nat) → Bytes
  | .list _, count => bigEndian 2 count
  | _, _ => []

def reference (t : Ty) (ps : List Part) : Bytes := t.countOctets ps.length ++ referenceTuple (headItems ps)

/-- All numbers that stand in two octets fit them: the offsets, and the count of a dynamic array. -/
def LengthsFit (t : Ty) (ps : List Part) : Prop :=
  OffsetsFit (totalHead (headItems ps)) (headItems ps) ∧ ∀ elem, t = .list elem → ps.length ≤ 65535

end Ty

theorem componentOf_part {t : Ty} {v : Value} {bs : Bytes} (h : t.encode v = .ok bs) : ComponentOf t v (t.part bs) := by
  by_cases hb : t = .bool
  · subst hb
    cases v with
    | bool b =>
      cases h
      rw [Ty.part, if_pos rfl, decide_boolOctet]
      exact .bool b
    | _ => cases h
  · by_cases hd : t.isDynamic
    · rw [Ty.part, if_neg hb, if_pos hd]
      exact .dynamic hd h
    · rw [Ty.part, if_neg hb, if_neg hd]
      exact .static hb (by simpa using hd) h

theorem ComponentOf.encode {t : Ty} {v : Value} {p : Part} (h : ComponentOf t v p) :
    ∃ bs, t.encode v = .ok bs ∧ t.part bs = p := by
  cases h with
  | bool b => exact ⟨_, rfl, congrArg Part.bit (decide_boolOctet b)⟩
  | static ht hs h => exact ⟨_, h, by rw [Ty.part, if_neg ht, hs]; rfl⟩
  | dynamic hd h =>
    have ht : t ≠ .bool := by
      rintro rfl
      cases hd
    exact ⟨_, h, by rw [Ty.part, if_neg ht, if_pos hd]⟩

theorem Components.length {ts : List Ty} {vs : List Value} {ps : List Part} (h : Components ts vs ps) :
    vs.length = ts.length ∧ ps.length = ts.length := by
  induction h with
  | nil => exact ⟨rfl, rfl⟩
  | cons _ _ ih => exact ⟨congrArg Nat.succ ih.1, congrArg Nat.succ ih.2⟩

theorem Components.unique {ts : List Ty} {vs : List Value} {ps qs : List Part} (hp : Components ts vs ps)
    (hq : Components ts vs qs) : ps = qs := by
  induction hp generalizing qs with
  | nil =>
    cases hq
    rfl
  | cons hhead _ ih =>
    cases hq with
    | cons hhead' hrest' =>
      obtain ⟨bs, hbs, rfl⟩ := hhead.encode
      obtain ⟨bs', hbs', rfl⟩ := hhead'.encode
      obtain rfl : bs = bs' := Except.ok.inj (hbs.symm.trans hbs')
      rw [ih hrest']

/-- As many values as there are types are encoded as their components. -/
theorem encodeMembers_eq_ok_iff {ts : List Ty} {vs : List Value} (hlen : vs.length = ts.length) {ps : List Part} :
    encodeMembers ts vs = .ok ps ↔ Components ts vs ps := by
  induction ts generalizing vs ps with
  | nil =>
    obtain rfl := List.length_eq_zero_iff.mp hlen
    constructor
    · intro h
      cases h
      exact .nil
    · intro h
      cases h
      rfl
  | cons t ts ih =>
    cases vs with
    | nil => cases hlen
    | cons v vs =>
      simp only [encodeMembers, bind_eq_ok, pure_eq_ok]
      constructor
      · rintro ⟨bs, hbs, qs, hqs, rfl⟩
        exact .cons (componentOf_part hbs) ((ih (Nat.succ.inj hlen)).mp hqs)
      · intro h
        cases h with
        | cons hhead hrest =>
          obtain ⟨bs, hbs, rfl⟩ := hhead.encode
          exact ⟨bs, hbs, _, (ih (Nat.succ.inj hlen)).mpr hrest, rfl⟩

/-- Values that can all be encoded have components. -/
theorem exists_components {ts : List Ty} {vs : List Value}
    (h : List.Forall₂ (fun t v => ∃ bs, t.encode v = .ok bs) ts vs) : ∃ ps, Components ts vs ps := by
  induction h with
  | nil => exact ⟨[], .nil⟩
  | cons hv _ ih =>
    obtain ⟨bs, hbs⟩ := hv
    obtain ⟨ps, hps⟩ := ih
    exact ⟨_, .cons (componentOf_part hbs) hps⟩

def Ty.counted (t : Ty) (count : Nat) (body : Bytes) : Except Error Bytes :=
  match t with
  | .list _ => withLength count body
  | _ => .ok body

theorem counted_eq_ok_iff {t : Ty} {count : Nat} {body bs : Bytes} :
    t.counted count body = .ok bs ↔ (∀ elem, t = .list elem → count ≤ 65535) ∧ bs = t.countOctets count ++ body := by
  cases t with
  | list elem =>
    simp only [Ty.counted, Ty.countOctets, withLength, bind_eq_ok, pure_eq_ok, encodeLength_eq_ok_iff]
    constructor
    · rintro ⟨_, ⟨hcount, rfl⟩, rfl⟩
      exact ⟨fun _ _ => hcount, rfl⟩
    · rintro ⟨hcount, rfl⟩
      exact ⟨_, ⟨hcount elem rfl, rfl⟩, rfl⟩
  | _ => simp [Ty.counted, Ty.countOctets, eq_comm]

theorem onlyTooLong_counted (t : Ty) (count : Nat) (body : Bytes) : OnlyTooLong (t.counted count body) := by
  cases t with
  | list elem => exact onlyTooLong_withLength count body
  | _ => exact onlyTooLong_ok body

section Composite

variable {t : Ty} {v : Value} {items : List Value} {ts : List Ty}

theorem length_of_componentTypes? {count : Nat} (h : t.componentTypes? count = some ts) : count = ts.length := by
  cases t with
  | array elem length =>
    obtain ⟨-, ⟨⟩⟩ := Option.ite_none_right_eq_some.mp h
    exact (List.length_replicate).symm
  | list elem =>
    cases h
    exact (List.length_replicate).symm
  | tuple members =>
    obtain ⟨hcount, ⟨⟩⟩ := Option.ite_none_right_eq_some.mp h
    exact hcount
  | _ => cases h

/-- What is encoded as a tuple or an array has items, as many as it may have. -/
theorem exists_items_of_encode (ht : t.isComposite = true) {bs : Bytes} (h : t.encode v = .ok bs) :
    ∃ items ts, v.items? = some items ∧ t.componentTypes? items.length = some ts := by
  cases t with
  | array elem length =>
    obtain ⟨items, hitems, h⟩ := bind_eq_ok.mp h
    obtain ⟨_, hlen, -⟩ := bind_eq_ok.mp h
    exact ⟨items, _, itemsOf_eq_ok.mp hitems, if_pos (expectLength_eq_ok.mp hlen)⟩
  | list elem =>
    obtain ⟨items, hitems, -⟩ := bind_eq_ok.mp h
    exact ⟨items, _, itemsOf_eq_ok.mp hitems, rfl⟩
  | tuple members =>
    obtain ⟨items, hitems, h⟩ := bind_eq_ok.mp h
    obtain ⟨_, hlen, -⟩ := bind_eq_ok.mp h
    exact ⟨items, _, itemsOf_eq_ok.mp hitems, if_pos (expectLength_eq_ok.mp hlen)⟩
  | _ => cases ht

/-- Tuples and arrays are encoded in the same way: their components are encoded, laid out and counted. -/
theorem encode_composite (hv : v.items? = some items) (ht : t.componentTypes? items.length = some ts) :
    t.encode v = encodeMembers ts items >>= fun ps => layout ps >>= t.counted items.length := by
  cases t with
  | array elem length =>
    obtain ⟨hlen, ⟨⟩⟩ := Option.ite_none_right_eq_some.mp ht
    have hexpect : expectLength (.array elem length) length items.length = .ok () := expectLength_eq_ok.mpr hlen
    rw [Ty.encode, itemsOf_eq_ok.mpr hv, ok_bind, hexpect, ok_bind, mapM_part_eq_encodeMembers]
    congr 1
    funext ps
    cases layout ps <;> rfl
  | list elem =>
    cases ht
    rw [Ty.encode, itemsOf_eq_ok.mpr hv, ok_bind, mapM_part_eq_encodeMembers]
    rfl
  | tuple members =>
    obtain ⟨hlen, ⟨⟩⟩ := Option.ite_none_right_eq_some.mp ht
    have hexpect : expectLength (.tuple ts) ts.length items.length = .ok () := expectLength_eq_ok.mpr hlen
    rw [Ty.encode, itemsOf_eq_ok.mpr hv, ok_bind, hexpect, ok_bind]
    congr 1
    funext ps
    cases layout ps <;> rfl
  | _ => cases ht

theorem encode_composite_eq_ok_iff (hv : v.items? = some items) (ht : t.componentTypes? items.length = some ts)
    {bs : Bytes} : t.encode v = .ok bs ↔ ∃ ps, Components ts items ps ∧ t.LengthsFit ps ∧ bs = t.reference ps := by
  have hlen : items.length = ts.length := length_of_componentTypes? ht
  simp only [encode_composite hv ht, bind_eq_ok, encodeMembers_eq_ok_iff hlen, layout_eq_ok_iff, counted_eq_ok_iff]
  constructor
  · rintro ⟨ps, hps, _, ⟨hoffsets, rfl⟩, hcount, rfl⟩
    have hps' : ps.length = items.length := by rw [hps.length.2, hlen]
    exact ⟨ps, hps, ⟨hoffsets, by rwa [hps']⟩, by rw [Ty.reference, hps']⟩
  · rintro ⟨ps, hps, ⟨hoffsets, hcount⟩, rfl⟩
    have hps' : ps.length = items.length := by rw [hps.length.2, hlen]
    rw [hps'] at hcount
    exact ⟨ps, hps, _, ⟨hoffsets, rfl⟩, hcount, by rw [Ty.reference, hps']⟩

end Composite

/-- Encoding a tuple or an array succeeds exactly when its components can be encoded and all lengths fit, and gives the
reference layout. When its components can be encoded it fails at a length that is too long exactly when one does not
fit. -/
theorem encode_is_reference_layout {t : Ty} (ht : t.isComposite = true) (v : Value) :
    (∀ bs, t.encode v = .ok bs ↔ ∃ items ts ps, v.items? = some items ∧ t.componentTypes? items.length = some ts ∧
      Components ts items ps ∧ t.LengthsFit ps ∧ bs = t.reference ps) ∧
    (∀ items ts, v.items? = some items → t.componentTypes? items.length = some ts →
      List.Forall₂ (fun t v => ∃ bs, t.encode v = .ok bs) ts items →
      ∃ ps, Components ts items ps ∧ ((∃ n, t.encode v = .error (.tooLong n)) ↔ ¬t.LengthsFit ps)) := by
  refine ⟨?_, ?_⟩
  · intro bs
    constructor
    · intro h
      obtain ⟨items, ts, hitems, hts⟩ := exists_items_of_encode ht h
      obtain ⟨ps, hps, hfit, rfl⟩ := (encode_composite_eq_ok_iff hitems hts).mp h
      exact ⟨items, ts, ps, hitems, hts, hps, hfit, rfl⟩
    · rintro ⟨items, ts, ps, hitems, hts, hps, hfit, rfl⟩
      exact (encode_composite_eq_ok_iff hitems hts).mpr ⟨ps, hps, hfit, rfl⟩
  · intro items ts hitems hts hall
    obtain ⟨ps, hps⟩ := exists_components hall
    have hlen : items.length = ts.length := length_of_componentTypes? hts
    have honly : OnlyTooLong (t.encode v) := by
      rw [encode_composite hitems hts, (encodeMembers_eq_ok_iff hlen).mpr hps, ok_bind]
      exact (onlyTooLong_layout ps).bind (onlyTooLong_counted t items.length)
    refine ⟨ps, hps, ?_⟩
    constructor
    · rintro ⟨n, hn⟩ hfit
      rw [(encode_composite_eq_ok_iff hitems hts).mpr ⟨ps, hps, hfit, rfl⟩] at hn
      cases hn
    · intro hfit
      cases hencode : t.encode v with
      | error e =>
        obtain ⟨n, -, rfl⟩ := honly e hencode
        exact ⟨n, rfl⟩
      | ok bs =>
        obtain ⟨qs, hqs, hfit', -⟩ := (encode_composite_eq_ok_iff hitems hts).mp hencode
        obtain rfl : qs = ps := Components.unique hqs hps
        exact absurd hfit' hfit

/-- Nine truth values that do not share one octet, and a tenth one after a number, between the offsets of two dynamic
components. -/
theorem nineBools_reference_layout :
    (Ty.tuple (List.replicate 9 .bool ++ [.string, .uint 16, .bool, .list .bool])).encode
        (.array ((List.replicate 9 (.bool true)) ++ [.string "a", .uint 258, .bool true,
          .tuple [.bool false, .bool true]])) =
      .ok [0xFF, 0x80, 0, 9, 1, 2, 0x80, 0, 12, 0, 1, 97, 0, 2, 0x40] := by
  have hlast : ComponentOf (.list .bool) (.tuple [.bool false, .bool true]) (.tail [0, 2, 0x40]) := .dynamic rfl rfl
  have hnumber : ComponentOf (.uint 16) (.uint 258) (.inline [1, 2]) := .static (by decide) rfl rfl
  have htext : ComponentOf .string (.string "a") (.tail [0, 1, 97]) := .dynamic rfl rfl
  have hafter : Components [.string, .uint 16, .bool, .list .bool]
      [.string "a", .uint 258, .bool true, .tuple [.bool false, .bool true]]
      [.tail [0, 1, 97], .inline [1, 2], .bit true, .tail [0, 2, 0x40]] :=
    .cons htext (.cons hnumber (.cons (.bool true) (.cons hlast .nil)))
  have hall : ∀ n, Components (List.replicate n .bool ++ [.string, .uint 16, .bool, .list .bool])
      (List.replicate n (.bool true) ++ [.string "a", .uint 258, .bool true, .tuple [.bool false, .bool true]])
      (List.replicate n (.bit true) ++ [.tail [0, 1, 97], .inline [1, 2], .bit true, .tail [0, 2, 0x40]]) := by
    intro n
    induction n with
    | zero => exact hafter
    | succ n ih => exact .cons (.bool true) ih
  have hfit := (@layout_eq_ok_iff (List.replicate 9 (.bit true) ++
    [.tail [0, 1, 97], .inline [1, 2], .bit true, .tail [0, 2, 0x40]]) _).mp rfl
  exact ((encode_is_reference_layout rfl _).1 _).mpr ⟨_, _, _, rfl, rfl, hall 9, ⟨hfit.1, nofun⟩, by decide⟩

end AtomicGroup.Abi
