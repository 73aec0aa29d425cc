import AtomicGroup.Proofs.Txn.Binding
import Mathlib.Data.List.SplitBy

/-!
# Segmentation into groups

A list of transactions is cut where neighbours do not carry one group id, the zero id joining nothing. A run is a
range of positions, so that the cut can be stated without the function that makes it; the runs that are verified and
numbered are read off one derivation, `CutFrom`, which the proofs below go along.
-/
namespace AtomicGroup.Group

variable {txns : List Transaction} {start stop : Nat}

/-- Two transactions carry one and the same group id. -/
def Joined (a b : Transaction) : Prop := a.header.group = b.header.group ∧ a.header.group ≠ .zero

theorem joined_iff {a b : Transaction} : (a.header.group == b.header.group && a.hasGroup) = true ↔ Joined a b := by
  simp [Joined, Transaction.hasGroup, Digest.isZero]

def JoinedAt (txns : List Transaction) (i : Nat) : Prop :=
  ∃ a b, txns[i]? = some a ∧ txns[i + 1]? = some b ∧ Joined a b

theorem JoinedAt.lt {i : Nat} (h : JoinedAt txns i) : i + 1 < txns.length := by
  obtain ⟨a, b, -, hb, -⟩ := h
  exact (List.getElem?_eq_some_iff.mp hb).1

theorem joinedAt_append {front back : List Transaction} {a b : Transaction} :
    JoinedAt (front ++ a :: b :: back) front.length ↔ Joined a b := by
  simp [JoinedAt]

/-- A maximal range of positions that hang together. -/
structure IsRun (txns : List Transaction) (start stop : Nat) : Prop where
  start_lt : start < stop
  stop_le : stop ≤ txns.length
  inside : ∀ i, start ≤ i → i + 1 < stop → JoinedAt txns i
  before : ∀ i, i + 1 = start → ¬JoinedAt txns i
  after : ∀ i, i + 1 = stop → ¬JoinedAt txns i

/-- Transactions that all hang together are one run. -/
theorem isRun_whole (hne : txns ≠ []) (h : ∀ i, i + 1 < txns.length → JoinedAt txns i) :
    IsRun txns 0 txns.length := by
  refine ⟨List.length_pos_iff.mpr hne, Nat.le_refl _, fun i _ hi => h i hi, fun i hi => by omega, ?_⟩
  intro i hi hj
  have hlt := hj.lt
  omega

/-- Runs that overlap are one and the same. -/
theorem IsRun.eq_of_overlap {start' stop' : Nat} (h : IsRun txns start stop) (h' : IsRun txns start' stop')
    (hle : start ≤ start') (hlt : start' < stop) : start' = start ∧ stop' = stop := by
  have hlt' := h'.start_lt
  have hstart : start' = start := by
    by_contra hne
    exact h'.before (start' - 1) (by omega) (h.inside (start' - 1) (by omega) (by omega))
  subst hstart
  refine ⟨rfl, ?_⟩
  rcases Nat.lt_trichotomy stop' stop with hless | heq | hmore
  · exact absurd (h.inside (stop' - 1) (by omega) (by omega)) (h'.after _ (by omega))
  · exact heq
  · exact absurd (h'.inside (stop - 1) (by omega) (by omega)) (h.after _ (by omega))

/-- The transactions from a position on, cut into runs. -/
inductive CutFrom (txns : List Transaction) : Nat → List (List Transaction) → Prop
  | nil : CutFrom txns txns.length []
  | cons {start stop : Nat} {rest : List (List Transaction)} (head : IsRun txns start stop)
      (tail : CutFrom txns stop rest) : CutFrom txns start (txns.extract start stop :: rest)

/-- A list ends a run where its last transaction does not hang together with what comes next. -/
theorem not_joinedAt_boundary {front run next back : List Transaction} {hlast : run ≠ []} {hhead : next ≠ []}
    (hnot : ¬Joined (run.getLast hlast) (next.head hhead)) {i : Nat} (hi : i + 1 = (front ++ run).length) :
    ¬JoinedAt (front ++ run ++ (next ++ back)) i := by
  have hcut : front ++ run ++ (next ++ back) =
      (front ++ run.dropLast) ++ run.getLast hlast :: next.head hhead :: (next.tail ++ back) := by
    rw [← List.cons_append, List.cons_head_tail, List.append_assoc front, List.append_assoc front,
      ← List.singleton_append, ← List.append_assoc run.dropLast, List.dropLast_append_getLast]
  have hpos : 0 < run.length := List.length_pos_iff.mpr hlast
  have hplace : i = (front ++ run.dropLast).length := by
    rw [List.length_append, List.length_dropLast]
    rw [List.length_append] at hi
    omega
  rw [hcut, hplace, joinedAt_append]
  exact hnot

/-- Transactions that hang together, and with neither what is before nor what is after them, are a run. -/
theorem isRun_of_isChain {front run back : List Transaction} (hrun : run ≠ []) (hchain : run.IsChain Joined)
    (hbefore : ∀ i, i + 1 = front.length → ¬JoinedAt (front ++ run ++ back) i)
    (hafter : ∀ i, i + 1 = (front ++ run).length → ¬JoinedAt (front ++ run ++ back) i) :
    IsRun (front ++ run ++ back) front.length (front ++ run).length := by
  have hpos : 0 < run.length := List.length_pos_iff.mpr hrun
  refine ⟨by rw [List.length_append]; omega, by simp, ?_, hbefore, hafter⟩
  intro i hi hlt
  obtain ⟨j, rfl⟩ := Nat.exists_eq_add_of_le hi
  have hj : j + 1 < run.length := by
    rw [List.length_append] at hlt
    omega
  refine ⟨run[j], run[j + 1], ?_, ?_, hchain.getElem j hj⟩
  · simp [List.getElem?_append, show j < run.length by omega]
  · simp [List.getElem?_append, Nat.add_assoc, hj]

/-- Lists that each hang together, and not with one another, are the cut of what follows `front`. -/
theorem cutFrom_append {front : List Transaction} {runs : List (List Transaction)} (hne : [] ∉ runs)
    (hinside : ∀ run ∈ runs, run.IsChain Joined)
    (hbetween : runs.IsChain fun a b => ∃ ha hb, ¬Joined (a.getLast ha) (b.head hb))
    (hbefore : ∀ i, i + 1 = front.length → ¬JoinedAt (front ++ runs.flatten) i) :
    CutFrom (front ++ runs.flatten) front.length runs := by
  induction runs generalizing front with
  | nil => simpa using (CutFrom.nil : CutFrom front front.length [])
  | cons run rest ih =>
    obtain ⟨hrun, hrest⟩ : run ≠ [] ∧ [] ∉ rest := by simpa [eq_comm] using hne
    obtain ⟨hchain, hchains⟩ := List.forall_mem_cons.mp hinside
    rw [List.flatten_cons, ← List.append_assoc] at hbefore ⊢
    have hafter : ∀ i, i + 1 = (front ++ run).length → ¬JoinedAt (front ++ run ++ rest.flatten) i := by
      intro i hi
      cases rest with
      | nil =>
        intro hj
        have hlt := hj.lt
        rw [List.flatten_nil, List.append_nil] at hlt
        omega
      | cons next rest =>
        obtain ⟨hlast, hhead, hnot⟩ := (List.isChain_cons_cons.mp hbetween).1
        exact not_joinedAt_boundary hnot hi
    have hhead := isRun_of_isChain hrun hchain hbefore hafter
    have hslice : (front ++ run ++ rest.flatten).extract front.length (front ++ run).length = run := by
      simp [List.extract_eq_take_drop]
    simpa only [hslice] using CutFrom.cons hhead (ih hrest hchains hbetween.tail hafter)

theorem cutFrom_runs (txns : List Transaction) : CutFrom txns 0 (runs txns) := by
  obtain ⟨hflat, hne, hinside, hbetween⟩ := List.splitBy_eq_iff.mp (rfl : runs txns = _)
  have h := @cutFrom_append [] _ hne (fun run hrun => (hinside run hrun).imp fun _ _ => joined_iff.mp)
    (hbetween.imp fun _ _ ⟨ha, hb, hnot⟩ => ⟨ha, hb, fun hj => Bool.false_ne_true (hnot ▸ joined_iff.mpr hj)⟩)
    (fun i hi => absurd hi (Nat.succ_ne_zero i))
  rwa [List.nil_append, ← hflat] at h

/-! ### Verifying the runs -/

theorem exists_verify_eq_ok (h : txns ≠ []) : ∃ valid, verify txns = .ok valid := by
  match txns, h with
  | [first], _ =>
    by_cases hzero : first.header.group.isZero
    · exact ⟨true, by simp [verify, hzero]⟩
    · exact ⟨digest [first] == first.header.group, by simp [verify, hzero, maxGroupSize]⟩
  | first :: second :: rest, _ => exact ⟨_, verify_of_two_le (by simp)⟩

theorem verify_of_too_many (h : maxGroupSize < txns.length) : verify txns = .ok false := by
  have htwo : 2 ≤ txns.length := Nat.le_trans (by decide) h
  rw [verify_of_two_le htwo, decide_eq_false fun hand => Nat.not_le.mpr h hand.1]

theorem IsRun.length_extract (h : IsRun txns start stop) : (txns.extract start stop).length = stop - start := by
  have hle := h.stop_le
  simp only [List.extract_eq_take_drop, List.length_take, List.length_drop]
  omega

theorem IsRun.extract_ne_nil (h : IsRun txns start stop) : txns.extract start stop ≠ [] := by
  have hlt := h.start_lt
  rw [← List.length_pos_iff, h.length_extract]
  omega

/-- The range is a run that is no valid group, and the runs before it are valid groups. -/
structure FirstInvalid (txns : List Transaction) (start stop : Nat) : Prop where
  isRun : IsRun txns start stop
  invalid : verify (txns.extract start stop) = .ok false
  valid_before : ∀ start' stop', IsRun txns start' stop' → start' < start →
    verify (txns.extract start' stop') = .ok true

theorem FirstInvalid.unique {start' stop' : Nat} (h : FirstInvalid txns start stop)
    (h' : FirstInvalid txns start' stop') : start' = start ∧ stop' = stop := by
  rcases Nat.lt_trichotomy start' start with hless | rfl | hmore
  · have hvalid := h.valid_before _ _ h'.isRun hless
    rw [h'.invalid] at hvalid
    cases hvalid
  · exact h.isRun.eq_of_overlap h'.isRun (Nat.le_refl _) h.isRun.start_lt
  · have hvalid := h'.valid_before _ _ h.isRun hmore
    rw [h.invalid] at hvalid
    cases hvalid

def AllValid (txns : List Transaction) : Prop :=
  ∀ start stop, IsRun txns start stop → verify (txns.extract start stop) = .ok true

theorem FirstInvalid.not_allValid (h : FirstInvalid txns start stop) : ¬AllValid txns := by
  intro hall
  have hvalid := hall _ _ h.isRun
  rw [h.invalid] at hvalid
  cases hvalid

/-- Once the runs before a position are known to be valid, the rest either is, too, or has a first invalid run. -/
theorem CutFrom.verifyRuns_cases {runs : List (List Transaction)} (h : CutFrom txns start runs)
    (hvalid : ∀ start' stop', IsRun txns start' stop' → start' < start →
      verify (txns.extract start' stop') = .ok true) :
    (verifyRuns start runs = .ok () ∧ AllValid txns) ∨
      ∃ start' stop', verifyRuns start runs = .error (.invalid start' stop') ∧ FirstInvalid txns start' stop' := by
  induction h with
  | nil => exact .inl ⟨rfl, fun start' stop' hrun => hvalid _ _ hrun (Nat.lt_of_lt_of_le hrun.start_lt hrun.stop_le)⟩
  | @cons start stop rest head _ ih =>
    have hstop : start + (txns.extract start stop).length = stop := by
      have hlt := head.start_lt
      rw [head.length_extract]
      omega
    obtain ⟨valid, hverify⟩ := exists_verify_eq_ok head.extract_ne_nil
    rw [verifyRuns, hverify, Outcome.ok_bind, hstop]
    cases valid with
    | false => exact .inr ⟨start, stop, rfl, head, hverify, hvalid⟩
    | true =>
      apply ih
      intro start' stop' hrun hlt
      rcases Nat.lt_or_ge start' start with hless | hge
      · exact hvalid _ _ hrun hless
      · obtain ⟨rfl, rfl⟩ := head.eq_of_overlap hrun hge hlt
        exact hverify

/-! ### Numbering the runs -/

/-- The numbers of the transactions from a position on, whose run has the number `k`. -/
structure Numbered (txns : List Transaction) (start k : Nat) (ns : List Nat) : Prop where
  length_eq : start + ns.length = txns.length
  first : start < txns.length → ns[0]? = some k
  same : ∀ i, JoinedAt txns (start + i) → ns[i + 1]? = ns[i]?
  next : ∀ i, start + i + 1 < txns.length → ¬JoinedAt txns (start + i) → ns[i + 1]? = ns[i]?.map (· + 1)

/-- One run more in front, all its transactions with the number before. -/
theorem Numbered.replicate_append {k : Nat} {ns : List Nat} (head : IsRun txns start stop)
    (h : Numbered txns stop (k + 1) ns) : Numbered txns start k (List.replicate (stop - start) k ++ ns) := by
  obtain ⟨hlength, hfirst, hsame, hnext⟩ := h
  have hlt := head.start_lt
  have hle := head.stop_le
  have hrun : ∀ i, i < stop - start → (List.replicate (stop - start) k ++ ns)[i]? = some k := by
    intro i hi
    rw [List.getElem?_append_left (by simpa using hi), List.getElem?_replicate_of_lt hi]
  have hrest : ∀ j, (List.replicate (stop - start) k ++ ns)[stop - start + j]? = ns[j]? := by
    intro j
    rw [List.getElem?_append_right (by simp), List.length_replicate, Nat.add_sub_cancel_left]
  refine ⟨?_, fun _ => hrun 0 (by omega), ?_, ?_⟩
  · rw [List.length_append, List.length_replicate]
    omega
  · intro i hj
    rcases Nat.lt_or_ge (i + 1) (stop - start) with hin | hout
    · rw [hrun _ hin, hrun _ (by omega)]
    · -- A run ends where its last transaction does not hang together with the next.
      have hpast : stop - start ≤ i := by
        by_contra hat
        exact head.after (start + i) (by omega) hj
      obtain ⟨j, rfl⟩ := Nat.exists_eq_add_of_le hpast
      rw [show start + (stop - start + j) = stop + j by omega] at hj
      rw [Nat.add_assoc, hrest, hrest, hsame j hj]
  · intro i hi hj
    rcases Nat.lt_trichotomy (i + 1) (stop - start) with hin | hat | hpast
    · exact absurd (head.inside (start + i) (by omega) (by omega)) hj
    · have hnew : (List.replicate (stop - start) k ++ ns)[stop - start]? = some (k + 1) :=
        (hrest 0).trans (hfirst (by omega))
      rw [hrun i (by omega), hat, hnew]
      rfl
    · obtain ⟨j, rfl⟩ := Nat.exists_eq_add_of_le (show stop - start ≤ i by omega)
      rw [show start + (stop - start + j) = stop + j by omega] at hi hj
      rw [Nat.add_assoc, hrest, hrest, hnext j hi hj]

theorem CutFrom.numbered {runs : List (List Transaction)} (h : CutFrom txns start runs) (k : Nat) :
    Numbered txns start k ((runs.zipIdx k).flatMap fun (run, i) => List.replicate run.length i) := by
  induction h generalizing k with
  | nil =>
    refine ⟨by simp, fun hlt => absurd hlt (Nat.lt_irrefl _), fun i hj => ?_, fun i hlt => by omega⟩
    have hlt := hj.lt
    omega
  | @cons start stop rest head _ ih =>
    have hnumbers := (ih (k + 1)).replicate_append head
    rwa [← head.length_extract] at hnumbers

/-- When all transactions hang together, they are all in the first run. -/
theorem Numbered.eq_replicate {ns : List Nat} (h : Numbered txns 0 0 ns) (hrun : IsRun txns 0 txns.length) :
    ns = List.replicate txns.length 0 := by
  have hlength : ns.length = txns.length := by simpa using h.length_eq
  have hzero : ∀ i, i < txns.length → ns[i]? = some 0 := by
    intro i hi
    induction i with
    | zero => exact h.first hi
    | succ i ih =>
      have hj : JoinedAt txns i := hrun.inside i (Nat.zero_le i) hi
      rw [h.same i (by rwa [Nat.zero_add]), ih (by omega)]
  apply List.ext_getElem?
  intro i
  rcases Nat.lt_or_ge i txns.length with hlt | hge
  · simp [hzero i hlt, hlt]
  · simp [hge, hlength]

/-- Numbers that are all zero are those of one run. -/
theorem Numbered.isRun_of_replicate (hne : txns ≠ [])
    (h : Numbered txns 0 0 (List.replicate txns.length 0)) : IsRun txns 0 txns.length := by
  apply isRun_whole hne
  intro i hi
  by_contra hj
  have hnext := h.next i (by omega) (by rwa [Nat.zero_add])
  simp [hi, show i < txns.length by omega] at hnext

/-- A single transaction, or several that carry their id, which is not zero, are one run. -/
theorem isRun_of_verify {first : Transaction} (hfirst : txns.head? = some first)
    (hone : txns.length = 1 ∨ first.header.group ≠ .zero) (hverify : verify txns = .ok true) :
    IsRun txns 0 txns.length := by
  have hmem : first ∈ txns := List.mem_of_head? hfirst
  apply isRun_whole (List.ne_nil_of_mem hmem)
  intro i hi
  have hall := ((verify_eq_true_iff (show 2 ≤ txns.length by omega)).mp hverify).2
  have hnonzero : first.header.group ≠ .zero := hone.resolve_left (by omega)
  refine ⟨txns[i], txns[i + 1], List.getElem?_eq_getElem _, List.getElem?_eq_getElem hi, ?_, ?_⟩
  · rw [hall _ (List.getElem_mem _), hall _ (List.getElem_mem _)]
  · rwa [hall _ (List.getElem_mem _), ← hall first hmem]

/-! ### The outcomes of a segmentation -/

/-- A list that is not empty is numbered, all its runs being valid groups, or its first invalid run is named. -/
theorem segment_cases (hne : txns ≠ []) :
    (∃ ns, segment txns = .ok ns ∧ Numbered txns 0 0 ns ∧ AllValid txns) ∨
      ∃ start stop, segment txns = .error (.invalid start stop) ∧ FirstInvalid txns start stop := by
  have hcut := cutFrom_runs txns
  rw [segment, if_neg hne]
  rcases hcut.verifyRuns_cases (fun _ _ _ hlt => absurd hlt (Nat.not_lt_zero _)) with
    ⟨hverify, hall⟩ | ⟨start, stop, hverify, hfirst⟩
  · exact .inl ⟨_, by rw [hverify]; rfl, hcut.numbered 0, hall⟩
  · exact .inr ⟨start, stop, by rw [hverify]; rfl, hfirst⟩

/-- A list that is one transaction or starts with a group id is one group exactly when it carries its id. -/
theorem segment_eq_replicate_iff {first : Transaction} (hfirst : txns.head? = some first)
    (hone : txns.length = 1 ∨ first.header.group ≠ .zero) :
    segment txns = .ok (List.replicate txns.length 0) ↔ verify txns = .ok true := by
  have hne : txns ≠ [] := List.ne_nil_of_mem (List.mem_of_head? hfirst)
  constructor
  · intro hsegment
    rcases segment_cases hne with ⟨ns, hns, hnumbers, hall⟩ | ⟨start, stop, herror, -⟩
    · rw [hsegment] at hns
      obtain rfl := Except.ok.inj hns
      simpa [List.extract_eq_take_drop] using hall _ _ (hnumbers.isRun_of_replicate hne)
    · rw [hsegment] at herror
      cases herror
  · intro hverify
    have hrun := isRun_of_verify hfirst hone hverify
    rcases segment_cases hne with ⟨ns, hns, hnumbers, -⟩ | ⟨start, stop, -, hinvalid⟩
    · rw [hns, hnumbers.eq_replicate hrun]
    · obtain ⟨rfl, rfl⟩ := hrun.eq_of_overlap hinvalid.isRun (Nat.zero_le _)
        (Nat.lt_of_lt_of_le hinvalid.isRun.start_lt hinvalid.isRun.stop_le)
      have hfalse := hinvalid.invalid
      rw [List.extract_eq_take_drop, List.drop_zero, Nat.sub_zero, List.take_length, hverify] at hfalse
      cases hfalse

/-- Segmentation is exact: it succeeds when each run is a valid group, and then numbers the runs; else it names the
first run that is none, such as one of too many transactions. -/
theorem segment_exact (hne : txns ≠ []) :
    ((∃ ns, segment txns = .ok ns) ↔ AllValid txns) ∧
    (∀ ns, segment txns = .ok ns → Numbered txns 0 0 ns) ∧
    (∀ e, segment txns = .error e ↔ ∃ start stop, e = .invalid start stop ∧ FirstInvalid txns start stop) ∧
    (∀ start stop, IsRun txns start stop → maxGroupSize < stop - start →
      verify (txns.extract start stop) = .ok false) ∧
    (∀ first, txns.head? = some first → txns.length = 1 ∨ first.header.group ≠ .zero →
      (segment txns = .ok (List.replicate txns.length 0) ↔ verify txns = .ok true)) := by
  refine ⟨?_, ?_, ?_, ?_, ?_⟩
  · rcases segment_cases hne with ⟨ns, hns, -, hall⟩ | ⟨start, stop, herror, hfirst⟩
    · exact iff_of_true ⟨ns, hns⟩ hall
    · exact iff_of_false (by simp [herror]) hfirst.not_allValid
  · intro ns hns
    rcases segment_cases hne with ⟨ns', hns', hnumbers, -⟩ | ⟨start, stop, herror, -⟩
    · rw [hns] at hns'
      rwa [Except.ok.inj hns']
    · rw [hns] at herror
      cases herror
  · intro e
    rcases segment_cases hne with ⟨ns, hns, -, hall⟩ | ⟨start, stop, herror, hfirst⟩
    · rw [hns]
      exact iff_of_false (by simp) fun ⟨_, _, _, hfirst⟩ => hfirst.not_allValid hall
    · rw [herror]
      constructor
      · intro he
        exact ⟨start, stop, (Except.error.inj he).symm, hfirst⟩
      · rintro ⟨start', stop', rfl, hfirst'⟩
        obtain ⟨rfl, rfl⟩ := hfirst.unique hfirst'
        rfl
  · intro start stop hrun hmany
    exact verify_of_too_many (by rwa [hrun.length_extract])
  · intro first hfirst hone
    exact segment_eq_replicate_iff hfirst hone

def strayId : Digest := (Digest.ofBytes? (List.replicate 32 1)).getD .zero

def strayRun : List Transaction := {} :: List.replicate 17 (Transaction.withGroup {} strayId)

theorem strayRun_named : segment strayRun = .error (.invalid 1 18) ∧ IsRun strayRun 1 18 ∧
    verify (strayRun.extract 1 18) = .ok false ∧ segment [{}] = .ok [0] := by
  have hsegment : segment strayRun = .error (.invalid 1 18) := by decide +kernel
  have hstray : strayRun ≠ [] := by decide
  obtain ⟨-, -, herror, hmany, -⟩ := segment_exact hstray
  obtain ⟨start, stop, heq, hfirst⟩ := (herror _).mp hsegment
  obtain ⟨rfl, rfl⟩ := GroupError.invalid.inj heq
  obtain ⟨-, -, -, -, hzeros⟩ := segment_exact (List.cons_ne_nil ({} : Transaction) [])
  exact ⟨hsegment, hfirst.isRun, hmany 1 18 hfirst.isRun (by decide),
    (hzeros {} rfl (.inl rfl)).mpr (verify_singleton rfl)⟩

end AtomicGroup.Group
