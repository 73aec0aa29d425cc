import AtomicGroup.LogicSig.Basic

/-!
# Derived addresses

The address of a multisig account and that of a program are digests of tagged byte strings. No tag begins another, and
an account is read back from its descriptor, so that a tagged byte string has one origin: two derived addresses are
the same only for one account or one program, or where two byte strings collide. The hash is left as it is; a collision
is what a statement ends in.
-/
namespace AtomicGroup

/-- Two different byte strings of one digest. -/
def Digest.Collide (p q : Bytes) : Prop := p ≠ q ∧ Digest.of p = Digest.of q

namespace Domain

variable {d e : Domain} {x y : Bytes}

/-- The first two octets tell the tags apart. -/
theorem eq_of_take_tag (h : d.tag.take 2 = e.tag.take 2) : d = e := by
  revert h
  cases d <;> cases e <;> decide +kernel

theorem take_tagged (d : Domain) (x : Bytes) : (d.tagged x).take 2 = d.tag.take 2 := by
  have hlen : 2 ≤ d.tag.length := by cases d <;> decide +kernel
  rw [tagged, List.take_append_of_le_length hlen]

/-- A tagged byte string shows its domain and what was tagged. -/
theorem tagged_eq_tagged : d.tagged x = e.tagged y ↔ d = e ∧ x = y := by
  constructor
  · intro h
    have htake := congrArg (List.take 2) h
    rw [take_tagged, take_tagged] at htake
    obtain rfl := eq_of_take_tag htake
    exact ⟨rfl, List.append_cancel_left h⟩
  · rintro ⟨rfl, rfl⟩
    rfl

/-- Digests are the same for one byte string in one domain, or by a collision. -/
theorem digest_eq_digest : d.digest x = e.digest y ↔ (d = e ∧ x = y) ∨ Digest.Collide (d.tagged x) (e.tagged y) := by
  constructor
  · intro h
    by_cases hsame : d.tagged x = e.tagged y
    · exact .inl (tagged_eq_tagged.mp hsame)
    · exact .inr ⟨hsame, h⟩
  · rintro (⟨rfl, rfl⟩ | ⟨-, h⟩)
    · rfl
    · exact h

end Domain

namespace MultisigAccount

variable {a b : MultisigAccount}

/-- A descriptor shows the version, the threshold and the keys in their order. -/
theorem descriptor_eq_descriptor :
    a.descriptor = b.descriptor ↔ a.version = b.version ∧ a.threshold = b.threshold ∧ a.keys = b.keys := by
  constructor
  · intro h
    obtain ⟨hversion, htail⟩ := List.cons.inj h
    obtain ⟨hthreshold, hkeys⟩ := List.cons.inj htail
    exact ⟨hversion, hthreshold, eq_of_flatMap_eq (by decide) Address.length_bytes (fun _ _ _ _ => Address.ext) hkeys⟩
  · rintro ⟨hversion, hthreshold, hkeys⟩
    rw [descriptor, descriptor, hversion, hthreshold, hkeys]

/-- The octets whose digest the address of an account is. -/
def preimage (a : MultisigAccount) : Bytes := Domain.multisigAddress.tagged a.descriptor

end MultisigAccount

theorem Address.ofDigest_eq_ofDigest {d e : Digest} : ofDigest d = ofDigest e ↔ d = e := by
  simp [ofDigest, Digest.ext_iff, Digest.bytes, Block.ext_iff]

/-- Derived addresses are the same for one authority, or by a collision of what is hashed for them; those of an account
and of a program by a collision only. -/
theorem derived_addresses_identify_authority :
    (∀ a b : MultisigAccount, a.address = b.address ↔
      (a.version = b.version ∧ a.threshold = b.threshold ∧ a.keys = b.keys) ∨ Digest.Collide a.preimage b.preimage) ∧
    (∀ p q : Bytes, Program.address p = Program.address q ↔
      p = q ∨ Digest.Collide (Program.bytesToSign p) (Program.bytesToSign q)) ∧
    (∀ (a : MultisigAccount) (p : Bytes), a.address = Program.address p ↔
      Digest.Collide a.preimage (Program.bytesToSign p)) := by
  refine ⟨fun a b => ?_, fun p q => ?_, fun a p => ?_⟩
  · rw [MultisigAccount.address, MultisigAccount.address, Address.ofDigest_eq_ofDigest, Domain.digest_eq_digest,
      ← MultisigAccount.descriptor_eq_descriptor]
    simp only [true_and, MultisigAccount.preimage]
  · rw [Program.address, Program.address, Address.ofDigest_eq_ofDigest, Domain.digest_eq_digest]
    simp only [true_and, Program.bytesToSign]
  · rw [MultisigAccount.address, Program.address, Address.ofDigest_eq_ofDigest, Domain.digest_eq_digest]
    simp only [reduceCtorEq, false_and, false_or, MultisigAccount.preimage, Program.bytesToSign]

end AtomicGroup
