import AtomicGroup.Proofs.Abi.Canonical

/-!
# One length in all places

The length of a static type is counted in three places: from the types, where a whole run of truth values is rounded up
at once, from the cells of a head that is written, and from what is taken of a head that is read. Each of them counts
octets of eight truth values at most, and `byteLength_is_the_length` says that they agree with one another and with the
octets that are encoded and decoded.
-/
namespace AtomicGroup.Abi

open Outcome

namespace Ty

theorem firstDynamicPart?_eq_none_iff {ts : List Ty} :
    firstDynamicPart? ts = none ↔ ∀ t ∈ ts, t.dynamicPart? = none := by
  induction ts with
  | nil => simp [firstDynamicPart?]
  | cons t ts ih => simp [firstDynamicPart?, ih]

/-- A type without a part that has no length of its own is static, by induction on the type. -/
theorem dynamicPart?_eq_none_iff {t : Ty} : t.dynamicPart? = none ↔ t.isDynamic = false := by
  induction t using Ty.induct with
  | string => simp [dynamicPart?, isDynamic]
  | list elem _ => simp [dynamicPart?, isDynamic]
  | array elem length ih => rwa [dynamicPart?, isDynamic]
  | tuple members ih =>
    rw [dynamicPart?, isDynamic, firstDynamicPart?_eq_none_iff, anyDynamic_eq_false_iff]
    exact forall₂_congr ih
  | _ => simp [dynamicPart?, isDynamic]

theorem byteLength_eq_ok {t : Ty} {n : Nat} : t.byteLength = .ok n ↔ t.isDynamic = false ∧ t.staticLength = n := by
  rw [byteLength, ← dynamicPart?_eq_none_iff]
  split <;> simp [*]

/-- A whole run of truth values is rounded up at once. -/
theorem membersLength_run (bits n : Nat) {ts : List Ty} (h : ∀ t ∈ ts.head?, t ≠ .bool) :
    membersLength bits (List.replicate n .bool ++ ts) = octets (bits + n) + membersLength 0 ts := by
  induction n generalizing bits with
  | zero =>
    cases ts with
    | nil => rfl
    | cons t ts =>
      have ht : t ≠ .bool := h t rfl
      have hzero : octets 0 = 0 := rfl
      rw [List.replicate_zero, List.nil_append, Nat.add_zero, membersLength_cons ht, membersLength_cons ht, hzero]
      omega
  | succ n ih =>
    rw [List.replicate_succ, List.cons_append, membersLength, ih, Nat.add_right_comm, Nat.add_assoc]

end Ty

/-- Reading the head of static members takes as many octets as their types say, besides the octet that is begun. -/
theorem Scanned.length_eq {ts : List Ty} (hs : ∀ t ∈ ts, t.isDynamic = false) {shared : Option (UInt8 × Nat)}
    (hshared : Begun 7 shared) {bs rest : Bytes} {slots : List Slot}
    (h : Scanned shared (memberReaders ts) bs slots rest) :
    bs.length + Ty.octets (takenCount shared) = Ty.membersLength (takenCount shared) ts + rest.length := by
  induction ts generalizing shared bs slots with
  | nil =>
    cases h
    rw [Ty.membersLength, Nat.add_comm]
  | cons t ts ih =>
    have hrest := @ih fun t ht => hs t (List.mem_cons_of_mem _ ht)
    by_cases hb : t = .bool
    · subst hb
      rw [memberReaders, Ty.member, if_pos rfl] at h
      cases h with
      | freshBit hmore =>
        have hlen := hrest (begun_some.mpr (by decide)) hmore
        simp only [takenCount, Ty.octets, Ty.membersLength, List.length_cons] at hlen ⊢
        omega
      | @sharedBit octet used _ _ _ _ hmore =>
        obtain ⟨hpos, hle⟩ := begun_some.mp hshared
        by_cases hfull : used = 7
        · -- The eighth truth value completes the octet.
          subst hfull
          have hlen := hrest (begun_none 7) hmore
          have height : Ty.membersLength (7 + 1) ts = Ty.membersLength 0 ts + 1 := Ty.membersLength_add_eight 0 ts
          simp only [takenCount, Ty.octets, Ty.membersLength] at hlen height ⊢
          omega
        · rw [if_neg hfull] at hmore
          have hlen := hrest (begun_some.mpr (by omega)) hmore
          simp only [takenCount, Ty.octets, Ty.membersLength] at hlen ⊢
          omega
    · rw [memberReaders, Ty.member, if_neg hb, if_neg (by simp [hs t List.mem_cons_self])] at h
      generalize hlength : t.staticLength = length at h
      cases h with
      | inline hread hmore =>
        have hlen := hrest (begun_none 7) hmore
        have hzero : Ty.octets 0 = 0 := rfl
        rw [Ty.membersLength_cons hb, List.length_append, hlength]
        simp only [takenCount, hzero] at hlen ⊢
        omega

/-- What is decoded is as long as its encoding. -/
theorem length_of_decode {t : Ty} (hs : t.isDynamic = false) {bs : Bytes} {v : Value} (h : t.decode bs = .ok v) :
    bs.length = t.staticLength := by
  obtain ⟨hmask, hencode, -⟩ := recodes_of_decode t bs v h
  rw [← (encodes_of_encode t v _ hencode).length hs, length_clearBits hmask]

/-- The head of static members that are written is as long as their types say. -/
theorem headLength_encodeMembers {ts : List Ty} (hs : ∀ t ∈ ts, t.isDynamic = false) {vs : List Value} {ps : List Part}
    (hlen : vs.length = ts.length) (h : encodeMembers ts vs = .ok ps) :
    headLength (cells ps) = Ty.membersLength 0 ts := by
  obtain ⟨-, hparts⟩ := encodeMembers_reads (fun t _ => encodes_of_encode t) hlen h
  exact (headLength_cellsAfter hparts hs [] (Nat.zero_le 7)).1

/-- So is the head of static members that are read. -/
theorem exists_head_of_scan {ts : List Ty} (hs : ∀ t ∈ ts, t.isDynamic = false) {bs rest : Bytes} {slots : List Slot}
    (h : scan none bs (memberReaders ts) = .ok (slots, rest)) :
    ∃ head, bs = head ++ rest ∧ head.length = Ty.membersLength 0 ts := by
  have hscanned : Scanned none (memberReaders ts) bs slots rest := scan_eq_ok.mp h
  obtain ⟨head, rfl, -⟩ := hscanned.fills
  have hlen := hscanned.length_eq hs (begun_none 7)
  have hzero : Ty.octets 0 = 0 := rfl
  rw [List.length_append, takenCount, hzero] at hlen
  exact ⟨head, rfl, by omega⟩

/-- A type has a length exactly when it is static; then whatever it encodes has this length, and it decodes nothing of
another one. For static members the length of the tuple, the head that is written and the head that is read are the
same; a run of truth values counts in full octets there, and in an array no less. -/
theorem byteLength_is_the_length :
    (∀ t : Ty, ((∃ n, t.byteLength = .ok n) ↔ t.isDynamic = false) ∧ ∀ n, t.byteLength = .ok n →
      (∀ v bs, t.encode v = .ok bs → bs.length = n) ∧ ∀ bs v, t.decode bs = .ok v → bs.length = n) ∧
    (∀ ts : List Ty, (∀ t ∈ ts, t.isDynamic = false) → ∃ n, (Ty.tuple ts).byteLength = .ok n ∧
      (∀ vs ps, vs.length = ts.length → encodeMembers ts vs = .ok ps → headLength (cells ps) = n) ∧
      ∀ bs slots rest, scan none bs (memberReaders ts) = .ok (slots, rest) →
        ∃ head, bs = head ++ rest ∧ head.length = n) ∧
    (∀ n ts, (∀ t ∈ ts.head?, t ≠ .bool) →
      (Ty.tuple (List.replicate n .bool ++ ts)).staticLength = (n + 7) / 8 + (Ty.tuple ts).staticLength) ∧
    ∀ t n, (Ty.array t n).staticLength = (Ty.tuple (List.replicate n t)).staticLength := by
  refine ⟨fun t => ⟨?_, fun n hn => ?_⟩, fun ts hs => ?_, fun n ts hts => ?_, fun t n => ?_⟩
  · simp only [Ty.byteLength_eq_ok, exists_and_left, exists_eq', and_true]
  · obtain ⟨hs, rfl⟩ := Ty.byteLength_eq_ok.mp hn
    exact ⟨fun v bs h => (encodes_of_encode t v bs h).length hs, fun bs v h => length_of_decode hs h⟩
  · have hlength : (Ty.tuple ts).byteLength = .ok (Ty.membersLength 0 ts) :=
      Ty.byteLength_eq_ok.mpr ⟨Ty.anyDynamic_eq_false_iff.mpr hs, rfl⟩
    exact ⟨_, hlength, fun vs ps hlen h => headLength_encodeMembers hs hlen h, fun bs slots rest h =>
      exists_head_of_scan hs h⟩
  · have hrun := Ty.membersLength_run 0 n hts
    rwa [Nat.zero_add] at hrun
  · exact (Ty.membersLength_replicate t n).symm

/-- Nine truth values before a number are two octets of four; with a text after them there is no length. -/
theorem nineBools_length :
    (Ty.tuple (List.replicate 9 .bool ++ [.uint 16])).byteLength = .ok 4 ∧
    (∀ v bs, (Ty.tuple (List.replicate 9 .bool ++ [.uint 16])).encode v = .ok bs → bs.length = 4) ∧
    (Ty.tuple (List.replicate 9 .bool ++ [.uint 16])).staticLength = 2 + (Ty.tuple [.uint 16]).staticLength ∧
    (∃ n, (Ty.tuple (List.replicate 9 .bool ++ [.uint 16])).byteLength = .ok n ∧
      ∀ bs slots rest, scan none bs (memberReaders (List.replicate 9 .bool ++ [.uint 16])) = .ok (slots, rest) →
        ∃ head, bs = head ++ rest ∧ head.length = n) ∧
    ¬∃ n, (Ty.tuple [.bool, .string]).byteLength = .ok n := by
  obtain ⟨htype, hmembers, hrun, -⟩ := byteLength_is_the_length
  obtain ⟨n, hn, -, hread⟩ := hmembers (List.replicate 9 .bool ++ [.uint 16]) (by decide)
  refine ⟨rfl, ((htype _).2 4 rfl).1, hrun 9 [.uint 16] (by simp), ⟨n, hn, hread⟩, fun h => ?_⟩
  exact absurd ((htype _).1.mp h) (by decide)

end AtomicGroup.Abi
