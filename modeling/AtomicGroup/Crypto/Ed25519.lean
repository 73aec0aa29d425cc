import AtomicGroup.Crypto.Edwards
import AtomicGroup.Crypto.Sha512

/-!
# Ed25519 signatures

A seed of 32 octets determines the secret scalar, the nonce key and the public key. `sign` is
deterministic; `verify` recomputes the first half of the signature and compares its octets.
-/
namespace AtomicGroup.Ed25519

open Edwards (order Point)

inductive Fault where
  /-- The public key is no point of the curve. -/
  | publicKey
  /-- The signature does not belong to the key and the message. -/
  | mismatch
deriving DecidableEq, Repr

/-- The secret scalar: the first half of the seed's hash with its low three bits and top bit cleared, and
the bit below the top one set. -/
def scalar (seed : Bytes) : Nat :=
  let n := ofLittleEndian ((Sha512.digest seed).take 32)
  n % (1 <<< 254) / 8 * 8 + (1 <<< 254)

/-- The second half of the seed's hash. -/
def nonceKey (seed : Bytes) : Bytes := (Sha512.digest seed).drop 32

def publicKey (seed : Bytes) : Bytes := (Point.mul (scalar seed) Point.base).encode

/-- The hash of a message as a number below the order. -/
def challenge (message : Bytes) : Nat := ofLittleEndian (Sha512.digest message) % order

def sign (seed message : Bytes) : Bytes :=
  let r := challenge (nonceKey seed ++ message)
  let commitment := (Point.mul r Point.base).encode
  let k := challenge (commitment ++ publicKey seed ++ message)
  commitment ++ littleEndian 32 ((r + k * scalar seed) % order)

def verify (publicKey message signature : Bytes) : Except Fault Unit :=
  match Point.decode? publicKey with
  | none => .error .publicKey
  | some key =>
    let s := ofLittleEndian (signature.drop 32)
    if order ≤ s then .error .mismatch
    else
      let k := challenge (signature.take 32 ++ publicKey ++ message)
      let commitment := Point.add (Point.mul s Point.base) (Point.mul k key).neg
      if commitment.encode = signature.take 32 then .ok () else .error .mismatch

@[simp] theorem length_publicKey (seed : Bytes) : (publicKey seed).length = 32 := by simp [publicKey]

@[simp] theorem length_sign (seed message : Bytes) : (sign seed message).length = 64 := by simp [sign]

end AtomicGroup.Ed25519
