import AtomicGroup.Composer.MethodCall
import AtomicGroup.Proofs.Abi.RoundTrip

/-!
# Arguments of an application call

An application call has room for fifteen arguments beside the selector; the fifteenth and all later ones of a longer
list share one tuple. The called program, which knows the types, unpacks the tuple again. An argument that has no
encoding fails in either place in the same way.
-/
namespace AtomicGroup.MethodCall

open Outcome

/-- The types of encoded arguments, of which those that do not fit beside the selector share one tuple. -/
def packTypes (types : List Abi.Ty) : List Abi.Ty :=
  if types.length ≤ maxAppArgs - 1 then types
  else types.take (maxAppArgs - 2) ++ [.tuple (types.drop (maxAppArgs - 2))]

/-- The values of the given types that a called program reads from the arguments after the selector. -/
def readArgs (types : List Abi.Ty) (encoded : List Bytes) : Except Abi.Error (List Abi.Value) := do
  let values ← ((packTypes types).zip encoded).mapM fun p => p.1.decode p.2
  if types.length ≤ maxAppArgs - 1 then return values
  else return values.take (maxAppArgs - 2) ++ (values.drop (maxAppArgs - 2)).flatMap fun v => v.items?.getD []

def HasEncoding (p : Abi.Ty × Abi.Value) : Prop := ∃ bs, p.1.encode p.2 = .ok bs

variable {values front back : List (Abi.Ty × Abi.Value)} {encoded : List Bytes}

theorem packValues_of_le (h : values.length ≤ maxAppArgs - 1) : packValues values = values := if_pos h

theorem packValues_of_lt (h : maxAppArgs - 1 < values.length) :
    packValues values = values.take (maxAppArgs - 2) ++ [(.tuple ((values.drop (maxAppArgs - 2)).map (·.1)),
      .tuple ((values.drop (maxAppArgs - 2)).map (·.2)))] :=
  if_neg (Nat.not_le.mpr h)

theorem map_fst_packValues (values : List (Abi.Ty × Abi.Value)) :
    (packValues values).map (·.1) = packTypes (values.map (·.1)) := by
  by_cases h : values.length ≤ maxAppArgs - 1
  · rw [packValues_of_le h, packTypes, List.length_map, if_pos h]
  · rw [packValues_of_lt (Nat.not_le.mp h), packTypes, List.length_map, if_neg h, List.map_append, List.map_take,
      List.map_drop]
    rfl

section Members

theorem hasEncoding_of_members {parts : List Abi.Part}
    (h : Abi.encodeMembers (values.map (·.1)) (values.map (·.2)) = .ok parts) : ∀ p ∈ values, HasEncoding p := by
  induction values generalizing parts with
  | nil => nofun
  | cons p values ih =>
    obtain ⟨part, hpart, h⟩ := bind_eq_ok.mp h
    obtain ⟨rest, hrest, -⟩ := bind_eq_ok.mp h
    exact List.forall_mem_cons.mpr ⟨⟨_, hpart⟩, ih hrest⟩

theorem encodeMembers_eq_error {p : Abi.Ty × Abi.Value} {e : Abi.Error} (hfront : ∀ q ∈ front, HasEncoding q)
    (hp : p.1.encode p.2 = .error e) :
    Abi.encodeMembers ((front ++ p :: back).map (·.1)) ((front ++ p :: back).map (·.2)) = .error e := by
  induction front with
  | nil =>
    rw [List.nil_append, List.map_cons, List.map_cons, Abi.encodeMembers, hp]
    rfl
  | cons q front ih =>
    obtain ⟨⟨bs, hq⟩, hrest⟩ := List.forall_mem_cons.mp hfront
    rw [List.cons_append, List.map_cons, List.map_cons, Abi.encodeMembers, hq, ih hrest]
    rfl

theorem normalizeAll_map (values : List (Abi.Ty × Abi.Value)) :
    Abi.normalizeAll (values.map (·.1)) (values.map (·.2)) = values.map fun p => p.1.normalize p.2 := by
  induction values with
  | nil => rfl
  | cons p values ih => rw [List.map_cons, List.map_cons, List.map_cons, Abi.normalizeAll, ih]

end Members

/-- The arguments of a call are the selector and the encoded values, in order. -/
theorem appArgs_eq_ok {c : MethodCall} {args : List Bytes} (h : c.appArgs values = .ok args) :
    ∃ encoded, args = c.method.selector :: encoded ∧
      List.Forall₂ (fun p bs => p.1.encode p.2 = .ok bs) (packValues values) encoded := by
  obtain ⟨encoded, hencoded, hp⟩ := bind_eq_ok.mp h
  exact ⟨encoded, (pure_eq_ok.mp hp).symm, (mapM_eq_ok.mp hencoded).imp fun _ _ he => mapError_eq_ok.mp he⟩

/-- Whatever is carried has an encoding, in the tuple or by itself. -/
theorem hasEncoding_of_packed (h : List.Forall₂ (fun p bs => p.1.encode p.2 = .ok bs) (packValues values) encoded) :
    ∀ p ∈ values, HasEncoding p := by
  have hall : ∀ p ∈ packValues values, HasEncoding p := by
    intro p hp
    obtain ⟨bs, -, hbs⟩ := exists_of_mem_right h.flip hp
    exact ⟨bs, hbs⟩
  by_cases hlen : values.length ≤ maxAppArgs - 1
  · rwa [packValues_of_le hlen] at hall
  · rw [packValues_of_lt (Nat.not_le.mp hlen), List.forall_mem_append, List.forall_mem_singleton] at hall
    obtain ⟨hfirst, bs, htuple⟩ := hall
    obtain ⟨items, hitems, htuple⟩ := bind_eq_ok.mp htuple
    cases hitems
    obtain ⟨_, -, htuple⟩ := bind_eq_ok.mp htuple
    obtain ⟨parts, hparts, -⟩ := bind_eq_ok.mp htuple
    rw [← List.take_append_drop (maxAppArgs - 2) values, List.forall_mem_append]
    exact ⟨hfirst, hasEncoding_of_members hparts⟩

theorem decode_encoded (h : List.Forall₂ (fun p bs => p.1.encode p.2 = .ok bs) values encoded) :
    ((values.map (·.1)).zip encoded).mapM (fun p => p.1.decode p.2) =
      .ok (values.map fun p => p.1.normalize p.2) := by
  rw [mapM_eq_ok, List.forall₂_map_right_iff]
  induction h with
  | nil => exact .nil
  | cons hp _ ih => exact .cons (Abi.encodes_of_encode _ _ _ hp).decode ih

/-- The called program reads every value that is carried. -/
theorem readArgs_of_packed (h : List.Forall₂ (fun p bs => p.1.encode p.2 = .ok bs) (packValues values) encoded) :
    readArgs (values.map (·.1)) encoded = .ok (values.map fun p => p.1.normalize p.2) := by
  have hread := decode_encoded h
  rw [map_fst_packValues] at hread
  rw [readArgs, hread, ok_bind, List.length_map]
  by_cases hlen : values.length ≤ maxAppArgs - 1
  · rw [if_pos hlen, packValues_of_le hlen]
    rfl
  · have htake : ((values.take (maxAppArgs - 2)).map fun p => p.1.normalize p.2).length = maxAppArgs - 2 := by
      rw [List.length_map, List.length_take]
      omega
    rw [if_neg hlen, packValues_of_lt (Nat.not_le.mp hlen), List.map_append, List.take_left' htake,
      List.drop_left' htake, List.map_singleton, List.flatMap_singleton, Abi.Ty.normalize]
    simp only [Abi.Value.items?, Option.getD_some]
    rw [normalizeAll_map, ← List.map_append, List.take_append_drop]
    rfl

/-- The first value without an encoding makes the arguments fail, in the tuple or by itself. -/
theorem appArgs_eq_error {c : MethodCall} {p : Abi.Ty × Abi.Value} {e : Abi.Error} (hfront : ∀ q ∈ front, HasEncoding q)
    (hp : p.1.encode p.2 = .error e) : c.appArgs (front ++ p :: back) = .error (.abi e) := by
  have hfail {f b : List (Abi.Ty × Abi.Value)} {q : Abi.Ty × Abi.Value} (hf : ∀ x ∈ f, HasEncoding x)
      (hq : q.1.encode q.2 = .error e) (hpack : packValues (front ++ p :: back) = f ++ q :: b) :
      c.appArgs (front ++ p :: back) = .error (.abi e) := by
    rw [appArgs, hpack, mapM_eq_error]
    · rfl
    · intro x hx
      obtain ⟨bs, hbs⟩ := hf x hx
      exact ⟨bs, congrArg (Except.mapError ComposerError.abi) hbs⟩
    · exact congrArg (Except.mapError ComposerError.abi) hq
  by_cases hlen : (front ++ p :: back).length ≤ maxAppArgs - 1
  · exact hfail hfront hp (packValues_of_le hlen)
  · have hpack := packValues_of_lt (Nat.not_le.mp hlen)
    by_cases hfits : front.length < maxAppArgs - 2
    · -- The value stands before the tuple.
      obtain ⟨n, hn⟩ : ∃ n, maxAppArgs - 2 - front.length = n + 1 := ⟨maxAppArgs - 2 - front.length - 1, by omega⟩
      rw [List.take_append, List.take_of_length_le (Nat.le_of_lt hfits), hn, List.take_succ_cons, List.append_assoc,
        List.cons_append] at hpack
      exact hfail hfront hp hpack
    · -- The value stands in the tuple, which is the last argument.
      have hle : maxAppArgs - 2 ≤ front.length := Nat.not_lt.mp hfits
      rw [List.take_append_of_le_length hle, List.drop_append_of_le_length hle] at hpack
      refine hfail (fun x hx => hfront x (List.mem_of_mem_take hx)) ?_ hpack
      have hmembers : Abi.encodeMembers ((front.drop (maxAppArgs - 2) ++ p :: back).map (·.1))
          ((front.drop (maxAppArgs - 2) ++ p :: back).map (·.2)) = .error e :=
        encodeMembers_eq_error (fun x hx => hfront x (List.mem_of_mem_drop hx)) hp
      have hcount : Abi.expectLength (.tuple ((front.drop (maxAppArgs - 2) ++ p :: back).map (·.1)))
          ((front.drop (maxAppArgs - 2) ++ p :: back).map (·.1)).length
          ((front.drop (maxAppArgs - 2) ++ p :: back).map (·.2)).length = .ok () :=
        Abi.expectLength_eq_ok.mpr (by rw [List.length_map, List.length_map])
      simp only [Abi.Ty.encode, Abi.itemsOf, Abi.Value.items?, ok_bind, hcount, hmembers]
      rfl

end AtomicGroup.MethodCall
