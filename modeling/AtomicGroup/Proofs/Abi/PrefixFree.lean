import AtomicGroup.Proofs.Abi.Canonical

/-!
# No encoding goes on to another

An input that a type accepts is never the beginning of another one. Scanning a head takes nothing from what follows, so
that octets put after a tuple come to its tail, where the last dynamic member gets them all; the members before it see
the octets that they saw. What goes for the last member therefore goes for the tuple, down to the innermost one.
-/
namespace AtomicGroup.Abi

open Outcome

/-- A reader that accepts nothing more after octets that it accepts. -/
def PrefixFree (read : Bytes → Except Error Value) : Prop :=
  ∀ bs more v w, read bs = .ok v → read (bs ++ more) = .ok w → more = []

/-- A reader that accepts octets of one length only. -/
theorem prefixFree_of_length {read : Bytes → Except Error Value} {n : Nat}
    (h : ∀ bs v, read bs = .ok v → bs.length = n) : PrefixFree read := by
  intro bs more v w hv hw
  have hshort : bs.length = n := h bs v hv
  have hlong : (bs ++ more).length = n := h _ w hw
  rw [List.length_append] at hlong
  exact List.eq_nil_of_length_eq_zero (by omega)

/-- The dynamic ones among members have readers that are prefix-free. -/
def TailsPrefixFree (ms : List Member) : Prop := ∀ read, .tail read ∈ ms → PrefixFree read

/-- Scanning a head leaves alone whatever follows. -/
theorem Scanned.append {shared : Option (UInt8 × Nat)} {ms : List Member} {bs rest : Bytes} {slots : List Slot}
    (h : Scanned shared ms bs slots rest) (more : Bytes) : Scanned shared ms (bs ++ more) slots (rest ++ more) := by
  induction h with
  | nil rest => exact .nil (rest ++ more)
  | sharedBit _ ih => exact .sharedBit ih
  | freshBit _ ih => exact .freshBit ih
  | inline hread _ ih =>
    rw [List.append_assoc]
    exact .inline hread ih
  | tail hstart _ ih =>
    rw [List.append_assoc]
    exact .tail hstart ih

/-- Scanning a head finds the readers of the members' tails. -/
theorem Scanned.tail_mem {shared : Option (UInt8 × Nat)} {ms : List Member} {bs rest : Bytes} {slots : List Slot}
    (h : Scanned shared ms bs slots rest) {start : Nat} {read : Bytes → Except Error Value}
    (hm : .tail start read ∈ slots) : .tail read ∈ ms := by
  induction h with
  | nil => cases hm
  | tail _ _ ih =>
    obtain hm | hm := List.mem_cons.mp hm
    · cases hm
      exact List.mem_cons_self
    · exact List.mem_cons_of_mem _ (ih hm)
  | sharedBit _ ih | freshBit _ ih | inline _ _ ih => exact List.mem_cons_of_mem _ (ih (by simpa using hm))

/-- The last dynamic member gets what is put after a tail, by induction on the slots. -/
theorem eq_nil_of_fillSlots {slots : List Slot} (hreads : ∀ start read, .tail start read ∈ slots → PrefixFree read)
    {total o : Nat} {tail more : Bytes} {vs ws : List Value} (hfirst : firstOffset? slots = some o)
    (htotal : total = o + tail.length) (h : fillSlots total tail slots = .ok vs)
    (hmore : fillSlots (total + more.length) (tail ++ more) slots = .ok ws) : more = [] := by
  induction slots generalizing o tail vs ws with
  | nil => cases hfirst
  | cons slot slots ih =>
    have hrest : ∀ start read, .tail start read ∈ slots → PrefixFree read :=
      fun start read hm => hreads start read (List.mem_cons_of_mem _ hm)
    cases slot with
    | value v =>
      obtain ⟨vs', hvs, -⟩ := bind_eq_ok.mp h
      obtain ⟨ws', hws, -⟩ := bind_eq_ok.mp hmore
      exact ih hrest hfirst htotal hvs hws
    | tail start read =>
      obtain rfl : start = o := Option.some.inj hfirst
      have hread : PrefixFree read := hreads start read List.mem_cons_self
      cases hnext : firstOffset? slots with
      | none =>
        -- The last one: its reader gets the rest of the tail, with and without what follows.
        simp only [fillSlots, hnext, Option.getD_none] at h hmore
        obtain ⟨-, h⟩ := guard_bind_eq_ok.mp h
        obtain ⟨-, hmore⟩ := guard_bind_eq_ok.mp hmore
        obtain ⟨v, hv, -⟩ := bind_eq_ok.mp h
        obtain ⟨w, hw, -⟩ := bind_eq_ok.mp hmore
        have hall : tail.take (total - start) = tail := List.take_of_length_le (by omega)
        have hallMore : (tail ++ more).take (total + more.length - start) = tail ++ more :=
          List.take_of_length_le (by rw [List.length_append]; omega)
        rw [hall] at hv
        rw [hallMore] at hw
        exact hread tail more v w hv hw
      | some stop =>
        simp only [fillSlots, hnext, Option.getD_some] at h hmore
        obtain ⟨hguard, h⟩ := guard_bind_eq_ok.mp h
        obtain ⟨-, hmore⟩ := guard_bind_eq_ok.mp hmore
        obtain ⟨v, -, h⟩ := bind_eq_ok.mp h
        obtain ⟨w, -, hmore⟩ := bind_eq_ok.mp hmore
        obtain ⟨vs', hvs, -⟩ := bind_eq_ok.mp h
        obtain ⟨ws', hws, -⟩ := bind_eq_ok.mp hmore
        rw [List.drop_append_of_le_length (by omega)] at hws
        refine ih hrest hnext ?_ hvs hws
        rw [List.length_drop]
        omega

/-- Members are prefix-free together when the dynamic ones are. -/
theorem eq_nil_of_readMembers {ms : List Member} (hms : TailsPrefixFree ms) {bs more : Bytes} {vs ws : List Value}
    (h : readMembers ms bs = .ok vs) (hmore : readMembers ms (bs ++ more) = .ok ws) : more = [] := by
  obtain ⟨slots, tail, hscan, hfill, hfirst⟩ := readMembers_eq_ok h
  obtain ⟨slots', tail', hscan', hfill', hfirst'⟩ := readMembers_eq_ok hmore
  have hscanned : Scanned none ms bs slots tail := scan_eq_ok.mp hscan
  rw [scan_eq_ok.mpr (hscanned.append more)] at hscan'
  cases hscan'
  obtain ⟨hnone, rfl⟩ | hsome := hfirst
  · -- Without dynamic members nothing follows the head.
    obtain ⟨-, hnil⟩ | hsome' := hfirst'
    · simpa using hnil
    · rw [hnone] at hsome'
      cases hsome'
  · obtain ⟨front, rfl, -⟩ := hscanned.fills
    rw [List.length_append] at hfill'
    refine eq_nil_of_fillSlots (fun start read hm => hms read (hscanned.tail_mem hm)) hsome ?_ hfill hfill'
    rw [List.length_append]
    omega

theorem tailsPrefixFree_memberReaders {ts : List Ty} (h : ∀ t ∈ ts, PrefixFree t.decode) :
    TailsPrefixFree (memberReaders ts) := by
  induction ts with
  | nil => exact nofun
  | cons t ts ih =>
    intro read hm
    obtain hm | hm := List.mem_cons.mp hm
    · rw [Ty.member] at hm
      split at hm
      · cases hm
      · split at hm
        · cases hm
          exact h t List.mem_cons_self
        · cases hm
    · exact ih (fun t ht => h t (List.mem_cons_of_mem _ ht)) read hm

theorem tailsPrefixFree_replicate {elem : Ty} (h : PrefixFree elem.decode) (n : Nat) :
    TailsPrefixFree (List.replicate n (elem.member elem.decode)) := by
  rw [replicate_member]
  apply tailsPrefixFree_memberReaders
  intro t ht
  rwa [List.eq_of_mem_replicate ht]

theorem readLength_append {bs body : Bytes} {count : Nat} (h : readLength bs = .ok (count, body)) (more : Bytes) :
    readLength (bs ++ more) = .ok (count, body ++ more) := by
  unfold readLength at h
  split at h
  · cases h
    rfl
  · cases h

/-- No type accepts octets that go on after others which it accepts, by induction on the type. -/
theorem prefixFree_decode (t : Ty) : PrefixFree t.decode := by
  have hnumber {t : Ty} (hd : ∀ bs, t.decode bs = do
      expectLength t t.staticLength bs.length; return .uint (ofBigEndian bs)) : PrefixFree t.decode := by
    apply prefixFree_of_length
    intro bs v hv
    rw [hd] at hv
    obtain ⟨_, hlen, -⟩ := bind_eq_ok.mp hv
    exact expectLength_eq_ok.mp hlen
  induction t using Ty.induct with
  | uint bits => exact hnumber fun _ => rfl
  | ufixed bits precision => exact hnumber fun _ => rfl
  | byte =>
    apply prefixFree_of_length (n := 1)
    intro bs v hv
    unfold Ty.decode at hv
    split at hv
    · rfl
    · cases hv
  | bool =>
    apply prefixFree_of_length (n := 1)
    intro bs v hv
    unfold Ty.decode at hv
    split at hv
    · rfl
    · cases hv
  | address =>
    apply prefixFree_of_length (n := 32)
    intro bs v hv
    unfold Ty.decode at hv
    split at hv
    · rename_i a ha
      obtain rfl := Address.ofBytes_eq_ok_iff.mp ha
      exact a.length_bytes
    · cases hv
  | string =>
    intro bs more v w hv hw
    obtain ⟨body, hbody, -⟩ := bind_eq_ok.mp hv
    obtain ⟨body', hbody', -⟩ := bind_eq_ok.mp hw
    have hlong := readLength_of_readSized hbody'
    rw [readLength_append (readLength_of_readSized hbody) more, Except.ok.injEq, Prod.mk.injEq] at hlong
    obtain ⟨hlen, hall⟩ := hlong
    rw [← hall, List.length_append] at hlen
    exact List.eq_nil_of_length_eq_zero (by omega)
  | array elem length ih =>
    intro bs more v w hv hw
    obtain ⟨vs, hvs, -⟩ := bind_eq_ok.mp hv
    obtain ⟨ws, hws, -⟩ := bind_eq_ok.mp hw
    exact eq_nil_of_readMembers (tailsPrefixFree_replicate ih length) hvs hws
  | list elem ih =>
    intro bs more v w hv hw
    obtain ⟨⟨count, body⟩, hcount, hv⟩ := bind_eq_ok.mp hv
    obtain ⟨counted, hcounted, hw⟩ := bind_eq_ok.mp hw
    rw [readLength_append hcount more] at hcounted
    cases hcounted
    obtain ⟨vs, hvs, -⟩ := bind_eq_ok.mp hv
    obtain ⟨ws, hws, -⟩ := bind_eq_ok.mp hw
    exact eq_nil_of_readMembers (tailsPrefixFree_replicate ih count) hvs hws
  | tuple members ih =>
    intro bs more v w hv hw
    obtain ⟨vs, hvs, -⟩ := bind_eq_ok.mp hv
    obtain ⟨ws, hws, -⟩ := bind_eq_ok.mp hw
    exact eq_nil_of_readMembers (tailsPrefixFree_memberReaders ih) hvs hws

/-- What a type accepts, it accepts neither with anything after it nor cut short, so that of two inputs which it accepts
none is the beginning of the other. -/
theorem accepted_octets_prefix_free {t : Ty} {bs : Bytes} {v : Value} (h : t.decode bs = .ok v) :
    (∀ more, more ≠ [] → ∃ e, t.decode (bs ++ more) = .error e) ∧
    (∀ front, front <+: bs → front ≠ bs → ∃ e, t.decode front = .error e) ∧
    (∀ other w, t.decode other = .ok w → bs <+: other → bs = other) := by
  have hfree : PrefixFree t.decode := prefixFree_decode t
  refine ⟨?_, ?_, ?_⟩
  · intro more hne
    cases hw : t.decode (bs ++ more) with
    | error e => exact ⟨e, rfl⟩
    | ok w => exact absurd (hfree bs more v w h hw) hne
  · rintro front ⟨more, rfl⟩ hne
    cases hw : t.decode front with
    | error e => exact ⟨e, rfl⟩
    | ok w =>
      have hnil : more = [] := hfree front more w v hw h
      exact absurd (by rw [hnil, List.append_nil]) hne
  · rintro other w hw ⟨more, rfl⟩
    rw [hfree bs more v w h hw, List.append_nil]

/-- An array of no strings, whose tail is empty, before a list whose last string ends the input. -/
theorem emptyTail_prefix_free :
    (Ty.tuple [.bool, .array .string 0, .list .string]).decode [0x80, 0, 5, 0, 5, 0, 1, 0, 2, 0, 1, 97] =
      .ok (.tuple [.bool true, .array [], .array [.string "a"]]) ∧
    (∃ e, (Ty.tuple [.bool, .array .string 0, .list .string]).decode
      ([0x80, 0, 5, 0, 5, 0, 1, 0, 2, 0, 1, 97] ++ [0]) = .error e) ∧
    (∃ e, (Ty.tuple [.bool, .array .string 0, .list .string]).decode [0x80, 0, 5, 0, 5, 0, 1, 0, 2, 0, 1] =
      .error e) := by
  have h : (Ty.tuple [.bool, .array .string 0, .list .string]).decode [0x80, 0, 5, 0, 5, 0, 1, 0, 2, 0, 1, 97] =
      .ok (.tuple [.bool true, .array [], .array [.string "a"]]) := rfl
  obtain ⟨hmore, hfront, -⟩ := accepted_octets_prefix_free h
  exact ⟨h, hmore [0] (by decide), hfront _ ⟨[97], rfl⟩ (by decide)⟩

end AtomicGroup.Abi
