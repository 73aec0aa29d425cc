import AtomicGroup.Abi.Codec

/-!
# Reading by positions

`readMembers` takes its input apart, so that there is no place which could lie outside of it. Here the same octets are
read the way a program does that keeps one buffer and places in it: it indexes octets, cuts slices and puts values into
numbered slots, and where there is nothing at a place it does not go on, which is a `Stop` other than a refusal.
`readTuple` goes over the head with a place that moves along, and then over the offsets that it found there.

Places are natural numbers: a head that is no longer than 64 bits can count has no others.
-/
namespace AtomicGroup.Abi

inductive Stop where
  | refused (e : Error)
  /-- There is no octet, slice or slot at a place. -/
  | outOfRange
  /-- There are more octets than those of the largest number. -/
  | tooWide
  /-- A slot has no value in the end. -/
  | unfilled
deriving DecidableEq, Repr

/-- A computation that stops, if at all, with a refusal. -/
def refusing {α : Type} (x : Except Error α) : Except Stop α := x.mapError .refused

section Refusing

variable {α β : Type}

@[simp] theorem refusing_ok (a : α) : refusing (.ok a) = .ok a := rfl

@[simp] theorem refusing_error (e : Error) : refusing (.error e : Except Error α) = .error (.refused e) := rfl

theorem refusing_bind (x : Except Error α) (f : α → Except Error β) :
    refusing (x >>= f) = refusing x >>= fun a => refusing (f a) := by
  cases x <;> rfl

end Refusing

def refuse {α : Type} (fault : DecodeFault) : Except Stop α := .error (.refused (.decode fault))

section Places

def itemAt {α : Type} (items : List α) (i : Nat) : Except Stop α :=
  match items[i]? with
  | some x => .ok x
  | none => .error .outOfRange

/-- The octets between two places, which must be there and in order. -/
def slice (bs : Bytes) (start stop : Nat) : Except Stop Bytes :=
  if start ≤ stop ∧ stop ≤ bs.length then .ok ((bs.drop start).take (stop - start)) else .error .outOfRange

/-- The octet of a head at a place, unless the head ends before. -/
def headOctet (bs : Bytes) (pos : Nat) : Except Stop UInt8 :=
  match bs[pos]? with
  | some octet => .ok octet
  | none => refuse .truncatedHead

def headSlice (bs : Bytes) (start stop : Nat) : Except Stop Bytes :=
  if start ≤ stop ∧ stop ≤ bs.length then .ok ((bs.drop start).take (stop - start)) else refuse .truncatedHead

def putSlot (slots : List (Option Value)) (i : Nat) (v : Value) : Except Stop (List (Option Value)) :=
  if i < slots.length then .ok (slots.set i (some v)) else .error .outOfRange

def slotValue (slot : Option Value) : Except Stop Value :=
  match slot with
  | some v => .ok v
  | none => .error .unfilled

/-- The number of some octets, of which there may be no more than 64. -/
def numberOf (bs : Bytes) : Except Stop Nat :=
  if bs.length ≤ 64 then .ok (ofBigEndian bs) else .error .tooWide

def countOf (bs : Bytes) : Except Stop Nat :=
  match bs with
  | hi :: lo :: _ => .ok (ofBigEndian [hi, lo])
  | _ => refuse .noLength

def bodyOf (bs : Bytes) : Except Stop Bytes := do
  let count ← countOf bs
  let body ← slice bs 2 bs.length
  if body.length = count then return body else refuse (.length count body.length)

/-- Refuses octets that are not as many as the type has. -/
def expectOwn (t : Ty) (bs : Bytes) : Except Stop Unit := do
  let expected ← refusing t.byteLength
  refusing (expectLength t expected bs.length)

end Places

section Tuples

structure Reader where
  type : Ty
  read : Bytes → Except Stop Value

/-- The number of truth values at the front of some readers. -/
def boolRun (rs : List Reader) : Nat := (rs.takeWhile fun r => r.type = .bool).length

theorem boolRun_pos {r : Reader} (h : r.type = .bool) (rs : List Reader) : 0 < boolRun (r :: rs) := by
  simp [boolRun, h]

/-- The truth values of an octet from one place on. -/
def bitValues (octet : UInt8) (start n : Nat) : List Value := (List.range' start n).map fun i => .bool (bitAt octet i)

structure Progress where
  /-- The number of members that have been read. -/
  index : Nat := 0
  /-- The slots of these members; those of dynamic ones have no value yet. -/
  slots : List (Option Value) := []
  /-- The numbers of the dynamic members and their offsets. -/
  offsets : List (Nat × Nat) := []
  /-- The place up to which octets have been taken. -/
  pos : Nat := 0
deriving DecidableEq, Repr

/-- Reads the head of the remaining members; truth values are taken up to eight at a time. -/
def readHead (bs : Bytes) : List Reader → Progress → Except Stop Progress
  | [], p => .ok p
  | r :: rs, p =>
    if _ : r.type = .bool then do
      let run := min (boolRun (r :: rs)) 8
      let octet ← headOctet bs p.pos
      readHead bs ((r :: rs).drop run) { p with
        index := p.index + run
        slots := p.slots ++ (bitValues octet 0 run).map some
        pos := p.pos + 1 }
    else if r.type.isDynamic then do
      let start ← countOf (← headSlice bs p.pos (p.pos + 2))
      readHead bs rs { p with
        index := p.index + 1
        slots := p.slots ++ [none]
        offsets := p.offsets ++ [(p.index, start)]
        pos := p.pos + 2 }
    else do
      let length ← refusing r.type.byteLength
      let v ← r.read (← headSlice bs p.pos (p.pos + length))
      readHead bs rs { p with
        index := p.index + 1
        slots := p.slots ++ [some v]
        pos := p.pos + length }
termination_by rs => rs.length
decreasing_by
  · have hrun := boolRun_pos ‹_› rs
    simp only [List.length_drop, List.length_cons]
    omega
  all_goals simp

/-- Refuses a head that does not end where the first dynamic member begins, or else the input. -/
def checkHead (bs : Bytes) (p : Progress) : Except Stop Unit :=
  match p.offsets with
  | [] => do
    if p.pos ≠ bs.length then
      let unused ← slice bs p.pos bs.length
      refuse (.unused unused.length)
  | (_, first) :: _ => if first ≠ p.pos then refuse (.firstOffset first p.pos) else .ok ()

/-- Reads the dynamic members, each from its offset to the next one, into their slots. -/
def readTails (bs : Bytes) (rs : List Reader) : List (Nat × Nat) → List (Option Value) →
    Except Stop (List (Option Value))
  | [], slots => .ok slots
  | (i, start) :: offsets, slots => do
    let stop := (offsets.head?.map (·.2)).getD bs.length
    if stop < start ∨ bs.length < stop then refuse (.offsetOrder start stop)
    let r ← itemAt rs i
    let v ← r.read (← slice bs start stop)
    readTails bs rs offsets (← putSlot slots i v)

def readTuple (rs : List Reader) (bs : Bytes) : Except Stop (List Value) := do
  let p ← readHead bs rs {}
  checkHead bs p
  let slots ← readTails bs rs p.offsets p.slots
  slots.mapM slotValue

end Tuples

mutual

/-- The value that octets of a type write, read by positions. -/
def Ty.readAt : Ty → Bytes → Except Stop Value
  | .uint bits, bs => do
    expectOwn (.uint bits) bs
    return .uint (← numberOf bs)
  | .ufixed bits precision, bs => do
    expectOwn (.ufixed bits precision) bs
    return .uint (← numberOf bs)
  | .byte, bs => do
    expectOwn .byte bs
    return .byte (← itemAt bs 0)
  | .bool, bs => do
    expectOwn .bool bs
    let b ← itemAt bs 0
    if b = boolOctet true then return .bool true
    else if b = boolOctet false then return .bool false
    else refuse (.boolOctet b)
  | .address, bs => do
    expectOwn .address bs
    return .address (← refusing ((Address.ofBytes bs).mapError .address))
  | .string, bs => do
    match Utf8.decode? (← bodyOf bs) with
    | some s => return .string s
    | none => refuse .utf8
  | .array elem length, bs => return arrayValue elem (← readTuple (List.replicate length ⟨elem, elem.readAt⟩) bs)
  | .list elem, bs => do
    let count ← countOf bs
    let body ← slice bs 2 bs.length
    return arrayValue elem (← readTuple (List.replicate count ⟨elem, elem.readAt⟩) body)
  | .tuple members, bs => return .tuple (← readTuple (readersAt members) bs)

def readersAt : List Ty → List Reader
  | [] => []
  | t :: ts => ⟨t, t.readAt⟩ :: readersAt ts

end

theorem readersAt_eq_map (ts : List Ty) : readersAt ts = ts.map fun t => ⟨t, t.readAt⟩ := by
  induction ts with
  | nil => rfl
  | cons t ts ih => rw [readersAt, ih, List.map_cons]

end AtomicGroup.Abi
