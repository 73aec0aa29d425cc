import AtomicGroup.Abi.Ty.Parser
import AtomicGroup.Proofs.Abi.ReferenceLayout

/-!
# Lists that stand for one another

Octets may be given as a byte string or item by item, and items as an array or as a tuple. `Interchanged` values differ
in nothing else, and `Value.spread` is the same for all of them. They are encoded alike, with one exception: an address
may be given as a byte string but not item by item. `Ty.AddressesWhole` says that no address of a value is given so, and
this is all that leniency asks for.
-/
namespace AtomicGroup.Abi

open Outcome

/-- Values that differ, at any depths, only by giving octets as a byte string or as items, and items as an array or as
a tuple. -/
inductive Interchanged : Value → Value → Prop where
  | refl (v : Value) : Interchanged v v
  | symm {v w : Value} (h : Interchanged v w) : Interchanged w v
  | trans {u v w : Value} (h : Interchanged u v) (h' : Interchanged v w) : Interchanged u w
  | octets (bs : Bytes) : Interchanged (.bytes bs) (.array (bs.map .byte))
  | items (items : List Value) : Interchanged (.array items) (.tuple items)
  | inside (front back : List Value) {v w : Value} (h : Interchanged v w) :
      Interchanged (.array (front ++ v :: back)) (.array (front ++ w :: back))

mutual

/-- A value with all its lists as tuples, down to single octets. -/
def Value.spread : Value → Value
  | .bytes bs => .tuple (bs.map .byte)
  | .array items => .tuple (spreadAll items)
  | .tuple items => .tuple (spreadAll items)
  | v => v

def spreadAll : List Value → List Value
  | [] => []
  | v :: vs => v.spread :: spreadAll vs

end

def Value.isItemised : Value → Bool
  | .array _ => true
  | .tuple _ => true
  | _ => false

mutual

/-- No address of a type is given item by item. -/
def Ty.AddressesWhole : Ty → Value → Prop
  | .address, v => v.isItemised = false
  | .array elem _, v => ∀ item ∈ v.items?.getD [], elem.AddressesWhole item
  | .list elem, v => ∀ item ∈ v.items?.getD [], elem.AddressesWhole item
  | .tuple members, v => AllAddressesWhole members (v.items?.getD [])
  | _, _ => True

def AllAddressesWhole : List Ty → List Value → Prop
  | t :: ts, v :: vs => t.AddressesWhole v ∧ AllAddressesWhole ts vs
  | _, _ => True

end

section Spread

theorem spreadAll_eq_map (vs : List Value) : spreadAll vs = vs.map Value.spread := by
  induction vs with
  | nil => rfl
  | cons v vs ih => rw [spreadAll, ih, List.map_cons]

theorem spread_of_items {v : Value} {items : List Value} (h : v.items? = some items) :
    v.spread = .tuple (items.map Value.spread) := by
  cases v with
  | bytes bs =>
    cases h
    rw [Value.spread, List.map_map]
    rfl
  | array items =>
    cases h
    rw [Value.spread, spreadAll_eq_map]
  | tuple items =>
    cases h
    rw [Value.spread, spreadAll_eq_map]
  | _ => cases h

theorem spread_of_no_items {v : Value} (h : v.items? = none) : v.spread = v := by
  cases v with
  | bytes bs => cases h
  | array items => cases h
  | tuple items => cases h
  | _ => rfl

/-- Values that spread alike are the same, or lists whose items spread alike. -/
theorem eq_or_items_of_spread_eq {v w : Value} (h : v.spread = w.spread) :
    v = w ∨ ∃ vs ws, v.items? = some vs ∧ w.items? = some ws ∧ vs.map Value.spread = ws.map Value.spread := by
  cases hv : v.items? with
  | none =>
    cases hw : w.items? with
    | none =>
      rw [spread_of_no_items hv, spread_of_no_items hw] at h
      exact .inl h
    | some ws =>
      rw [spread_of_no_items hv, spread_of_items hw] at h
      rw [h] at hv
      cases hv
  | some vs =>
    cases hw : w.items? with
    | none =>
      rw [spread_of_items hv, spread_of_no_items hw] at h
      rw [← h] at hw
      cases hw
    | some ws =>
      rw [spread_of_items hv, spread_of_items hw, Value.tuple.injEq] at h
      exact .inr ⟨vs, ws, rfl, rfl, h⟩

theorem Interchanged.spread_eq {v w : Value} (h : Interchanged v w) : v.spread = w.spread := by
  induction h with
  | refl v => rfl
  | symm _ ih => exact ih.symm
  | trans _ _ ih ih' => exact ih.trans ih'
  | octets bs => rw [spread_of_items rfl, spread_of_items rfl]
  | items items => rw [spread_of_items rfl, spread_of_items rfl]
  | inside front back _ ih =>
    rw [spread_of_items rfl, spread_of_items rfl, List.map_append, List.map_append, List.map_cons, List.map_cons, ih]

end Spread

theorem allAddressesWhole_replicate {elem : Ty} {items : List Value} :
    AllAddressesWhole (List.replicate items.length elem) items ↔ ∀ item ∈ items, elem.AddressesWhole item := by
  induction items with
  | nil => simp [AllAddressesWhole]
  | cons v vs ih => rw [List.length_cons, List.replicate_succ, AllAddressesWhole, ih, List.forall_mem_cons]

/-- What is said of a tuple's or an array's addresses is said of those of its components. -/
theorem addressesWhole_composite {t : Ty} {v : Value} {items : List Value} {ts : List Ty} (hv : v.items? = some items)
    (ht : t.componentTypes? items.length = some ts) : t.AddressesWhole v ↔ AllAddressesWhole ts items := by
  cases t with
  | array elem length =>
    obtain ⟨-, ⟨⟩⟩ := Option.ite_none_right_eq_some.mp ht
    rw [Ty.AddressesWhole, hv, Option.getD_some, allAddressesWhole_replicate]
  | list elem =>
    cases ht
    rw [Ty.AddressesWhole, hv, Option.getD_some, allAddressesWhole_replicate]
  | tuple members =>
    obtain ⟨-, ⟨⟩⟩ := Option.ite_none_right_eq_some.mp ht
    rw [Ty.AddressesWhole, hv, Option.getD_some]
  | _ => cases ht

/-- A type that encodes only values without itemised addresses, and these as others that spread alike. -/
structure Lenient (t : Ty) : Prop where
  whole : ∀ v bs, t.encode v = .ok bs → t.AddressesWhole v
  congr : ∀ v w bs, v.spread = w.spread → t.encode v = .ok bs → t.AddressesWhole w → t.encode w = .ok bs

/-- What is neither composite nor an address takes no lists at all. -/
theorem lenient_scalar {t : Ty} (hscalar : t.isComposite = false) (haddress : t ≠ .address) : Lenient t := by
  have hscalar : ∀ v, t.AddressesWhole v ∧ ∀ bs, t.encode v = .ok bs → v.items? = none := by
    intro v
    cases t with
    | address => exact absurd rfl haddress
    | array elem length => cases hscalar
    | list elem => cases hscalar
    | tuple members => cases hscalar
    | _ =>
      refine ⟨trivial, fun bs hencode => ?_⟩
      cases v <;> first | rfl | cases hencode
  refine ⟨fun v _ _ => (hscalar v).1, fun v w bs hspread hencode _ => ?_⟩
  obtain rfl | ⟨vs, ws, hvs, -, -⟩ := eq_or_items_of_spread_eq hspread
  · exact hencode
  · rw [(hscalar v).2 bs hencode] at hvs
    cases hvs

theorem lenient_address : Lenient .address where
  whole v bs hencode := by
    cases v with
    | array items => cases hencode
    | tuple items => cases hencode
    | _ => rfl
  congr v w bs hspread hencode hw := by
    obtain rfl | ⟨vs, ws, hvs, hws, hmap⟩ := eq_or_items_of_spread_eq hspread
    · exact hencode
    · -- Both are lists, and neither is itemised: they are the same byte string.
      cases v with
      | bytes front =>
        cases w with
        | bytes back =>
          cases hvs
          cases hws
          simp only [List.map_map, Function.comp_def, Value.spread] at hmap
          rwa [← List.map_injective_iff.mpr (fun _ _ => Value.byte.inj) hmap]
        | array items => cases hw
        | tuple items => cases hw
        | _ => cases hws
      | array items => cases hencode
      | tuple items => cases hencode
      | _ => cases hvs

/-- Members are encoded as others that spread alike, by induction on their types. -/
theorem encodeMembers_lenient {ts : List Ty} (ht : ∀ t ∈ ts, Lenient t) {vs : List Value} {ps : List Part}
    (hencode : encodeMembers ts vs = .ok ps) :
    AllAddressesWhole ts vs ∧ ∀ ws, vs.map Value.spread = ws.map Value.spread → AllAddressesWhole ts ws →
      encodeMembers ts ws = .ok ps := by
  induction ts generalizing vs ps with
  | nil =>
    cases hencode
    exact ⟨trivial, fun _ _ _ => rfl⟩
  | cons t ts ih =>
    cases vs with
    | nil =>
      cases hencode
      refine ⟨trivial, fun ws hmap _ => ?_⟩
      obtain rfl : ws = [] := by simpa using hmap.symm
      rfl
    | cons v vs =>
      obtain ⟨hhead, hrest⟩ := List.forall_mem_cons.mp ht
      obtain ⟨bs, hbs, hencode⟩ := bind_eq_ok.mp hencode
      obtain ⟨qs, hqs, hps⟩ := bind_eq_ok.mp hencode
      obtain ⟨hwhole, hcongr⟩ := ih hrest hqs
      refine ⟨⟨hhead.whole v bs hbs, hwhole⟩, fun ws hmap hws => ?_⟩
      cases ws with
      | nil => cases hmap
      | cons w ws =>
        obtain ⟨hspread, hmap⟩ := List.cons_eq_cons.mp hmap
        have hw : t.encode w = .ok bs := hhead.congr v w bs hspread hbs hws.1
        rw [encodeMembers, hw, ok_bind, hcongr ws hmap hws.2]
        exact hps

/-- A tuple or an array is lenient when its components are. -/
theorem lenient_of_composite {t : Ty} (ht : t.isComposite = true)
    (hts : ∀ count ts, t.componentTypes? count = some ts → ∀ u ∈ ts, Lenient u) : Lenient t where
  whole v bs hencode := by
    obtain ⟨items, ts, hitems, htypes⟩ := exists_items_of_encode ht hencode
    rw [encode_composite hitems htypes] at hencode
    obtain ⟨ps, hps, -⟩ := bind_eq_ok.mp hencode
    exact (addressesWhole_composite hitems htypes).mpr (encodeMembers_lenient (hts _ ts htypes) hps).1
  congr v w bs hspread hencode hw := by
    obtain ⟨vs, ts, hvs, htypes⟩ := exists_items_of_encode ht hencode
    obtain rfl | ⟨vs', ws, hvs', hws, hmap⟩ := eq_or_items_of_spread_eq hspread
    · exact hencode
    obtain rfl : vs' = vs := Option.some.inj (hvs'.symm.trans hvs)
    have hlen : vs'.length = ws.length := by simpa using congrArg List.length hmap
    rw [encode_composite hvs htypes] at hencode
    obtain ⟨ps, hps, hlayout⟩ := bind_eq_ok.mp hencode
    rw [hlen] at htypes hlayout
    have hwhole : AllAddressesWhole ts ws := (addressesWhole_composite hws htypes).mp hw
    have hcongr : encodeMembers ts ws = .ok ps := (encodeMembers_lenient (hts _ ts htypes) hps).2 ws hmap hwhole
    rw [encode_composite hws htypes, hcongr]
    exact hlayout

/-- Every type is lenient, by induction on it. -/
theorem lenient (t : Ty) : Lenient t := by
  induction t using Ty.induct with
  | address => exact lenient_address
  | uint bits => exact lenient_scalar rfl nofun
  | ufixed bits precision => exact lenient_scalar rfl nofun
  | byte => exact lenient_scalar rfl nofun
  | bool => exact lenient_scalar rfl nofun
  | string => exact lenient_scalar rfl nofun
  | array elem length ih =>
    refine lenient_of_composite rfl fun count ts hts u hu => ?_
    obtain ⟨-, ⟨⟩⟩ := Option.ite_none_right_eq_some.mp hts
    rwa [List.eq_of_mem_replicate hu]
  | list elem ih =>
    refine lenient_of_composite rfl fun count ts hts u hu => ?_
    cases hts
    rwa [List.eq_of_mem_replicate hu]
  | tuple members ih =>
    refine lenient_of_composite rfl fun count ts hts u hu => ?_
    obtain ⟨-, ⟨⟩⟩ := Option.ite_none_right_eq_some.mp hts
    exact ih u hu

/-- Interchanged values are encoded alike when neither gives an address item by item. Giving one so is all that can
tell them apart: values are encoded alike exactly when, wherever one can be encoded, the other gives its addresses
whole. -/
theorem encode_interchanged {v w : Value} (h : Interchanged v w) (t : Ty) :
    (t.AddressesWhole v → t.AddressesWhole w → ∀ bs, t.encode v = .ok bs ↔ t.encode w = .ok bs) ∧
    ((∀ bs, t.encode v = .ok bs ↔ t.encode w = .ok bs) ↔
      ((∃ bs, t.encode v = .ok bs) → t.AddressesWhole w) ∧ ((∃ bs, t.encode w = .ok bs) → t.AddressesWhole v)) := by
  have hforth := fun bs => (lenient t).congr v w bs h.spread_eq
  have hback := fun bs => (lenient t).congr w v bs h.spread_eq.symm
  refine ⟨fun hv hw bs => ⟨fun hencode => hforth bs hencode hw, fun hencode => hback bs hencode hv⟩, ?_⟩
  constructor
  · intro halike
    constructor
    · rintro ⟨bs, hbs⟩
      exact (lenient t).whole w bs ((halike bs).mp hbs)
    · rintro ⟨bs, hbs⟩
      exact (lenient t).whole v bs ((halike bs).mpr hbs)
  · rintro ⟨hw, hv⟩ bs
    exact ⟨fun hencode => hforth bs hencode (hw ⟨bs, hencode⟩), fun hencode => hback bs hencode (hv ⟨bs, hencode⟩)⟩

/-- The octets of an address are taken as a byte string and refused as an array of the same octets. -/
theorem itemised_address_refused :
    Interchanged (.bytes ((List.range' 1 32).map UInt8.ofNat))
      (.array (((List.range' 1 32).map UInt8.ofNat).map .byte)) ∧
    Ty.parse "address" = .ok .address ∧
    Ty.address.encode (.bytes ((List.range' 1 32).map UInt8.ofNat)) = .ok ((List.range' 1 32).map UInt8.ofNat) ∧
    Ty.address.encode (.array (((List.range' 1 32).map UInt8.ofNat).map .byte)) =
      .error (.typeMismatch .address "array") :=
  ⟨.octets _, by decide, rfl, rfl⟩

/-- Beside an address that is given whole, octets may come as a byte string in an array or as a tuple in a tuple. -/
theorem octets_beside_address_interchanged :
    (Ty.tuple [.address, .array .byte 2]).encode (.tuple [.bytes (List.replicate 32 7), .tuple [.byte 1, .byte 2]]) =
      .ok (List.replicate 32 7 ++ [1, 2]) := by
  have hinner : Interchanged (.bytes [1, 2]) (.tuple [.byte 1, .byte 2]) := (Interchanged.octets _).trans (.items _)
  have houter : Interchanged (.array [.bytes (List.replicate 32 7), .bytes [1, 2]])
      (.tuple [.bytes (List.replicate 32 7), .tuple [.byte 1, .byte 2]]) :=
    (Interchanged.inside [.bytes (List.replicate 32 7)] [] hinner).trans (.items _)
  have hwhole : (Ty.tuple [.address, .array .byte 2]).AddressesWhole
      (.array [.bytes (List.replicate 32 7), .bytes [1, 2]]) := ⟨rfl, fun _ _ => trivial, trivial⟩
  have hwhole' : (Ty.tuple [.address, .array .byte 2]).AddressesWhole
      (.tuple [.bytes (List.replicate 32 7), .tuple [.byte 1, .byte 2]]) := ⟨rfl, fun _ _ => trivial, trivial⟩
  exact ((encode_interchanged houter _).1 hwhole hwhole' _).mp rfl

end AtomicGroup.Abi
