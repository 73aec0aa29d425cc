import AtomicGroup.Proofs.Outcome
import AtomicGroup.Txn.Builder

/-!
# The fee of a transaction

A signature adds 75 octets to an encoded transaction, whatever it signs, so that the fee at a rate is a product of two
numbers that the transaction and the parameters show. The rate stands in the fee field while the size is measured; the
fee that was there before is never looked at.
-/
namespace AtomicGroup

open Outcome

/-- One signature takes as many octets around every transaction. -/
theorem SignedTxn.length_encode_of_sig (sig : Signature) (t : Transaction) :
    (SignedTxn.encode { txn := t, sig := some sig }).length = t.encode.length + 75 := by
  have htree : (SignedTxn.schema.write { txn := t, sig := some sig } : Msgpack.Value) =
      .map [(.str (Utf8.encode "sig"), .bin sig.bytes), (.str (Utf8.encode "txn"), Transaction.schema.write t)] := rfl
  have hsig : (Msgpack.Value.str (Utf8.encode "sig")).encode.length = 4 := by decide +kernel
  have htxn : (Msgpack.Value.str (Utf8.encode "txn")).encode.length = 4 := by decide +kernel
  have hbin : (Msgpack.Value.bin sig.bytes).encode.length = 66 := by
    have hlen : sig.bytes.length = 64 := sig.block.length_eq
    rw [Msgpack.Value.encode, List.length_append, hlen]
    rfl
  have hheader : (Msgpack.mapHeader 2).length = 1 := rfl
  rw [SignedTxn.encode, Wire.Schema.encode, htree, Msgpack.Value.encode]
  simp only [Msgpack.encodeEntries, List.length_append, List.length_cons, List.length_nil, hsig, htxn, hbin]
  rw [show 0 + 1 + 1 = 2 from rfl, hheader, Transaction.encode, Wire.Schema.encode]
  omega

namespace Transaction

variable {t u : Transaction} {params : SuggestedParams} {fee : UInt64}

theorem signedSize_eq (t : Transaction) : t.signedSize = t.encode.length + 75 := SignedTxn.length_encode_of_sig .zero t

def withRekeyTo (t : Transaction) (target : Address) : Transaction :=
  { t with header := { t.header with rekeyTo := target } }

/-- The rate of parameters for each octet of a transaction that carries the rate, and for the octets of a signature. -/
def rated (t : Transaction) (params : SuggestedParams) : Nat :=
  params.fee.toNat * ((t.withFee params.fee).encode.length + 75)

/-- The fee that parameters ask for when the size is that of a given transaction. -/
structure FeeFor (t : Transaction) (params : SuggestedParams) (fee : UInt64) : Prop where
  flat : params.flatFee = true → fee = params.fee
  rated : params.flatFee = false → t.rated params < UInt64.size ∧ fee.toNat = max 1000 (t.rated params)

/-- The fee that is asked for does not depend on the one that is there. -/
theorem FeeFor.withFee {fee' : UInt64} (h : t.FeeFor params fee') : (t.withFee fee).FeeFor params fee' :=
  ⟨h.flat, h.rated⟩

theorem signedSize_mul (t : Transaction) (params : SuggestedParams) :
    (t.withFee params.fee).signedSize * params.fee.toNat = t.rated params := by
  rw [signedSize_eq, Nat.mul_comm, Transaction.rated]

theorem applyFee_of_flat (h : params.flatFee = true) : (applyFee params).run t = .ok () (t.withFee params.fee) := by
  simp [applyFee, h]

/-- The rate stays behind in the fee field when it asks for too much. -/
theorem applyFee_of_rate (h : params.flatFee = false) : (applyFee params).run t =
    if UInt64.size ≤ t.rated params then .error .feeOverflow (t.withFee params.fee)
    else .ok () (t.withFee (UInt64.ofNat (max (t.rated params) minFee.toNat))) := by
  simp only [applyFee, h, EStateM.run_bind, EStateM.run_modify, EStateM.run_get, Bool.false_eq_true, not_false_eq_true,
    if_true, signedSize_mul]
  by_cases hlarge : UInt64.size ≤ t.rated params
  · rw [if_pos hlarge, if_pos hlarge]
    rfl
  · rw [if_neg hlarge, if_neg hlarge]
    rfl

/-- Only a rate that asks for too much is refused. -/
theorem applyFee_eq_error {e : TransactionError} : (applyFee params).run t = .error e u ↔
    params.flatFee = false ∧ UInt64.size ≤ t.rated params ∧ e = .feeOverflow ∧ u = t.withFee params.fee := by
  cases hflat : params.flatFee with
  | true => simp [applyFee_of_flat hflat]
  | false =>
    rw [applyFee_of_rate hflat]
    by_cases hlarge : UInt64.size ≤ t.rated params
    · simp [hlarge, eq_comm]
    · simp [hlarge]

theorem applyFee_of_rated_lt (hrate : params.flatFee = false) (hsmall : t.rated params < UInt64.size) :
    ∃ fee, fee.toNat = max 1000 (t.rated params) ∧ (applyFee params).run t = .ok () (t.withFee fee) := by
  have hfits : max (t.rated params) minFee.toNat < UInt64.size := Nat.max_lt.mpr ⟨hsmall, by decide⟩
  refine ⟨UInt64.ofNat (max (t.rated params) minFee.toNat), ?_, ?_⟩
  · rw [UInt64.toNat_ofNat_of_lt' hfits, Nat.max_comm]
    rfl
  · rw [applyFee_of_rate hrate, if_neg (Nat.not_le.mpr hsmall)]

theorem FeeFor.unique {fee' : UInt64} (h : t.FeeFor params fee) (h' : t.FeeFor params fee') : fee = fee' := by
  cases hflat : params.flatFee with
  | true => rw [h.flat hflat, h'.flat hflat]
  | false => exact UInt64.toNat_inj.mp ((h.rated hflat).2.trans (h'.rated hflat).2.symm)

theorem exists_feeFor (h : params.flatFee = true ∨ t.rated params < UInt64.size) :
    ∃ fee, t.FeeFor params fee ∧ (applyFee params).run t = .ok () (t.withFee fee) := by
  cases hflat : params.flatFee with
  | true => exact ⟨params.fee, ⟨fun _ => rfl, by simp [hflat]⟩, applyFee_of_flat hflat⟩
  | false =>
    have hsmall : t.rated params < UInt64.size := h.resolve_left (by simp [hflat])
    obtain ⟨fee, hfee, happly⟩ := applyFee_of_rated_lt hflat hsmall
    exact ⟨fee, ⟨by simp [hflat], fun _ => ⟨hsmall, hfee⟩⟩, happly⟩

/-- What is given otherwise is the transaction with the fee that is asked for. -/
theorem applyFee_eq_ok_iff : (applyFee params).run t = .ok () u ↔ ∃ fee, t.FeeFor params fee ∧ u = t.withFee fee := by
  constructor
  · intro h
    have hfits : params.flatFee = true ∨ t.rated params < UInt64.size := by
      by_contra hlarge
      obtain ⟨hrate, hlarge⟩ := not_or.mp hlarge
      have herr := applyFee_eq_error.mpr ⟨Bool.eq_false_iff.mpr hrate, Nat.not_lt.mp hlarge, rfl, rfl⟩
      cases herr.symm.trans h
    obtain ⟨fee, hfee, happly⟩ := exists_feeFor hfits
    cases happly.symm.trans h
    exact ⟨fee, hfee, rfl⟩
  · rintro ⟨fee, hfee, rfl⟩
    have hfits : params.flatFee = true ∨ t.rated params < UInt64.size := by
      cases hflat : params.flatFee with
      | true => exact .inl rfl
      | false => exact .inr (hfee.rated hflat).1
    obtain ⟨fee', hfee', happly⟩ := exists_feeFor hfits
    rw [happly, hfee.unique hfee']

theorem applyFee_withFee (t : Transaction) (params : SuggestedParams) (fee : UInt64) :
    (applyFee params).run (t.withFee fee) = (applyFee params).run t := rfl

end Transaction

namespace TxnDraft

/-- How a draft is made: of what the transaction does, and of options set on it. A draft that began as a rekey keeps the
target that is written after the fee. -/
inductive Made : Option Address → TxnDraft → Prop where
  | payment (sender receiver : Address) (amount : UInt64) : Made none (.payment sender receiver amount)
  | rekey (sender target : Address) : Made (some target) (.rekey sender target)
  | goOnline (sender : Address) (keys : ParticipationKeys) : Made none (.goOnline sender keys)
  | goOffline (sender : Address) : Made none (.goOffline sender)
  | neverParticipate (sender : Address) : Made none (.neverParticipate sender)
  | createAsset (sender : Address) (params : AssetParams) : Made none (.createAsset sender params)
  | configureAsset (sender : Address) (asset : UInt64) (manager reserve freeze clawback : Address) :
      Made none (.configureAsset sender asset manager reserve freeze clawback)
  | destroyAsset (sender : Address) (asset : UInt64) : Made none (.destroyAsset sender asset)
  | transferAsset (sender receiver : Address) (amount asset : UInt64) :
      Made none (.transferAsset sender receiver amount asset)
  | acceptAsset (sender : Address) (asset : UInt64) : Made none (.acceptAsset sender asset)
  | revokeAsset (sender source receiver : Address) (amount asset : UInt64) :
      Made none (.revokeAsset sender source receiver amount asset)
  | freezeAsset (sender : Address) (asset : UInt64) (account : Address) (frozen : Bool) :
      Made none (.freezeAsset sender asset account frozen)
  | callApp (sender : Address) (call : AppCall) (d : TxnDraft) (h : TxnDraft.callApp sender call = .ok d) : Made none d
  | closeTo {origin : Option Address} {d : TxnDraft} (h : Made origin d) (target : Address) :
      Made origin (d.closeTo target)
  | closeAssetTo {origin : Option Address} {d : TxnDraft} (h : Made origin d) (target : Address) :
      Made origin (d.closeAssetTo target)
  | withNote {origin : Option Address} {d : TxnDraft} (h : Made origin d) (note : Bytes) : Made origin (d.withNote note)
  | withLease {origin : Option Address} {d : TxnDraft} (h : Made origin d) (lease : Digest) :
      Made origin (d.withLease lease)
  | withRekey {origin : Option Address} {d : TxnDraft} (h : Made origin d) (target : Address) :
      Made origin (d.withRekey target)

variable {d : TxnDraft} {params : SuggestedParams} {t : Transaction} {origin : Option Address} {target : Address}

/-- Building writes a rekey target that is due after the fee. -/
theorem build_eq_ok : d.build params = .ok t ↔
    ¬params.lastValid < params.firstValid ∧ ∃ u, (Transaction.applyFee params).run (d.inNetwork params) = .ok () u ∧
      t = d.rekeyAfterFee.elim u u.withRekeyTo := by
  rw [build, guard_bind_eq_ok]
  refine and_congr_right fun _ => ?_
  cases (Transaction.applyFee params).run (d.inNetwork params) with
  | error e u => simp
  | ok _ u =>
    have hpure : ∀ v, (pure v : Except TransactionError Transaction) = .ok t ↔ t = v := fun _ =>
      pure_eq_ok.trans eq_comm
    cases d.rekeyAfterFee <;> simp [hpure, Transaction.withRekeyTo]

theorem rekeyAfterFee_of_made (h : Made origin d) : d.rekeyAfterFee = origin := by
  induction h with
  | callApp sender call d h =>
    obtain ⟨boxes, -, hd⟩ := bind_eq_ok.mp h
    rw [← pure_eq_ok.mp hd]
  | closeTo _ _ ih | closeAssetTo _ _ ih | withNote _ _ ih | withLease _ _ ih | withRekey _ _ ih => exact ih
  | _ => rfl

/-- The fee of a built transaction is the one for the transaction before a rekey target is written. -/
theorem feeFor_of_build (h : d.build params = .ok t) : ∃ u, u.FeeFor params t.header.fee ∧
    u.header.rekeyTo = d.txn.header.rekeyTo ∧ t = d.rekeyAfterFee.elim u u.withRekeyTo := by
  obtain ⟨-, u, hu, rfl⟩ := build_eq_ok.mp h
  obtain ⟨fee, hfee, rfl⟩ := Transaction.applyFee_eq_ok_iff.mp hu
  refine ⟨(d.inNetwork params).withFee fee, ?_, rfl, rfl⟩
  cases d.rekeyAfterFee <;> exact hfee.withFee

end TxnDraft

/-- A signature takes 75 octets. A fee at a rate is the rate for each octet of the signed transaction with the rate in
its fee field, but at least 1000, and is refused when it takes more than 64 bits; a flat fee is taken as it is. Nothing
else is changed, the fee before does not matter, and asking again changes nothing. A built transaction has the fee for
itself, except that what began as a rekey has the fee for what it was before its target was written. -/
theorem fee_covers_signed_size :
    (∀ t : Transaction, t.signedSize = t.encode.length + 75) ∧
    (∀ (t : Transaction) params, params.flatFee = true →
      (Transaction.applyFee params).run t = .ok () (t.withFee params.fee)) ∧
    (∀ (t : Transaction) params, params.flatFee = false →
      (∀ e u, (Transaction.applyFee params).run t = .error e u ↔
        UInt64.size ≤ t.rated params ∧ e = .feeOverflow ∧ u = t.withFee params.fee) ∧
      (t.rated params < UInt64.size →
        ∃ fee, fee.toNat = max 1000 (t.rated params) ∧ (Transaction.applyFee params).run t = .ok () (t.withFee fee))) ∧
    (∀ (t : Transaction) params fee,
      (Transaction.applyFee params).run (t.withFee fee) = (Transaction.applyFee params).run t) ∧
    (∀ t params u, (Transaction.applyFee params).run t = .ok () u → (Transaction.applyFee params).run u = .ok () u) ∧
    (∀ d params t, TxnDraft.Made none d → d.build params = .ok t → t.FeeFor params t.header.fee) ∧
    (∀ target d params t, TxnDraft.Made (some target) d → d.build params = .ok t →
      t.header.rekeyTo = target ∧ (t.withRekeyTo d.txn.header.rekeyTo).FeeFor params t.header.fee) := by
  refine ⟨Transaction.signedSize_eq, fun t params => Transaction.applyFee_of_flat,
    fun t params hrate => ⟨fun e u => ?_, ?_⟩, Transaction.applyFee_withFee, ?_, ?_, ?_⟩
  · simp only [Transaction.applyFee_eq_error, hrate, true_and]
  · exact Transaction.applyFee_of_rated_lt hrate
  · intro t params u h
    obtain ⟨fee, -, rfl⟩ := Transaction.applyFee_eq_ok_iff.mp h
    rw [Transaction.applyFee_withFee, h]
  · intro d params t hmade h
    obtain ⟨u, hfee, -, ht⟩ := TxnDraft.feeFor_of_build h
    rw [TxnDraft.rekeyAfterFee_of_made hmade] at ht
    exact ht ▸ hfee
  · intro target d params t hmade h
    obtain ⟨u, hfee, hrekey, ht⟩ := TxnDraft.feeFor_of_build h
    rw [TxnDraft.rekeyAfterFee_of_made hmade] at ht
    have hback : t.withRekeyTo d.txn.header.rekeyTo = u := by
      rw [ht, ← hrekey]
      rfl
    rw [hback]
    exact ⟨by rw [ht]; rfl, hfee⟩

def ratedAt (fee : UInt64) : SuggestedParams := { fee, firstValid := 1, lastValid := 100 }

def onesAddress : Address := ⟨⟨List.replicate 32 1, rfl⟩⟩

def notedRekey : TxnDraft := (TxnDraft.rekey .zero onesAddress).withNote [7]

theorem notedRekey_fee :
    (Transaction.applyFee { fee := 7, flatFee := true }).run {} = .ok () (Transaction.withFee {} 7) ∧
    (Transaction.applyFee (ratedAt 0xffffffffffffffff)).run {} =
      .error .feeOverflow (Transaction.withFee {} 0xffffffffffffffff) ∧
    (∃ fee, fee.toNat = 1000 ∧ (Transaction.applyFee (ratedAt 10)).run {} = .ok () (Transaction.withFee {} fee) ∧
      (Transaction.applyFee (ratedAt 10)).run (Transaction.withFee {} fee) = .ok () (Transaction.withFee {} fee)) ∧
    ∃ t, notedRekey.build (ratedAt 10) = .ok t ∧ t.header.rekeyTo = onesAddress ∧
      (t.withRekeyTo .zero).FeeFor (ratedAt 10) t.header.fee ∧ t.header.fee.toNat = 1060 := by
  obtain ⟨-, hflat, hrate, -, hagain, -, hrekey⟩ := fee_covers_signed_size
  obtain ⟨herr, -⟩ := hrate {} (ratedAt 0xffffffffffffffff) rfl
  have hlarge : UInt64.size ≤ Transaction.rated {} (ratedAt 0xffffffffffffffff) := by decide +kernel
  obtain ⟨fee, hfee, happly⟩ := (hrate {} (ratedAt 10) rfl).2 (by decide +kernel)
  have hfee' : fee.toNat = 1000 := hfee.trans (by decide +kernel)
  have hrated : (notedRekey.inNetwork (ratedAt 10)).rated (ratedAt 10) = 1060 := by decide +kernel
  obtain ⟨fee', hpaid, happly'⟩ :=
    (hrate (notedRekey.inNetwork (ratedAt 10)) (ratedAt 10) rfl).2 (by rw [hrated]; decide)
  have hbuild := TxnDraft.build_eq_ok (d := notedRekey).mpr ⟨by decide, _, happly', rfl⟩
  obtain ⟨htarget, hfor⟩ := hrekey _ _ _ _ (.withNote (.rekey .zero onesAddress) [7]) hbuild
  refine ⟨hflat _ _ rfl, (herr _ _).mpr ⟨hlarge, rfl, rfl⟩, ⟨fee, hfee', happly, hagain _ _ _ happly⟩, _, hbuild,
    htarget, hfor, ?_⟩
  rw [hrated] at hpaid
  exact hpaid

end AtomicGroup
