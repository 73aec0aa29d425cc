import AtomicGroup.Address
import AtomicGroup.Crypto.Ed25519

/-!
# Keys and signatures

A key pair is its seed; the public key, which is the address of the key's account, follows from it.
-/
namespace AtomicGroup

structure Signature where
  block : Block 64
deriving DecidableEq, Repr

namespace Signature

def bytes (s : Signature) : Bytes := s.block.bytes

/-- Two signatures with the same octets are the same. -/
@[ext] theorem ext {a b : Signature} (h : a.bytes = b.bytes) : a = b := by
  cases a; cases b; exact congrArg Signature.mk (Block.ext h)

def zero : Signature := ⟨Block.zero 64⟩

instance : Inhabited Signature := ⟨zero⟩

def isZero (s : Signature) : Bool := s == zero

def ofBytes (bs : Bytes) : Except KeyError Signature :=
  match Block.ofBytes? 64 bs with
  | some block => .ok ⟨block⟩
  | none => .error (.signatureLength bs.length)

@[simp] theorem ofBytes_bytes (s : Signature) : ofBytes s.bytes = .ok s := by
  rw [ofBytes, bytes, Block.ofBytes?_bytes]

def describe (s : Signature) : String := "Signature(" ++ Hex.encode s.bytes ++ ")"

/-- Whether the signature belongs to a message and to the key that an address is. -/
def verify (s : Signature) (key : Address) (message : Bytes) : Except KeyError Unit :=
  match Ed25519.verify key.bytes message s.bytes with
  | .ok () => .ok ()
  | .error .publicKey => .error .publicKey
  | .error .mismatch => .error .verification

/-- Whether the signature belongs to free octets, tagged as such. -/
def verifyFree (s : Signature) (key : Address) (data : Bytes) : Except KeyError Unit :=
  s.verify key (Domain.freeBytes.tagged data)

end Signature

/-- A key pair, given by its seed. -/
structure KeyPair where
  seed : Block 32
deriving DecidableEq, Repr

namespace KeyPair

/-- The address of the key's account, which is its public key. -/
def address (k : KeyPair) : Address :=
  ⟨⟨Ed25519.publicKey k.seed.bytes, Ed25519.length_publicKey k.seed.bytes⟩⟩

/-- The seed followed by the public key. -/
def privateKey (k : KeyPair) : Bytes := k.seed.bytes ++ k.address.bytes

/-- The key pair of a private key, whose second half must be the public key of the first. -/
def ofPrivateKey (bs : Bytes) : Except KeyError KeyPair :=
  if bs.length ≠ 64 then .error (.privateKeyLength bs.length)
  else
    match Block.ofBytes? 32 (bs.take 32) with
    | none => .error (.privateKeyLength bs.length)
    | some seed =>
      if bs.drop 32 = (KeyPair.mk seed).address.bytes then .ok ⟨seed⟩ else .error .privateKeyMismatch

def sign (k : KeyPair) (message : Bytes) : Signature :=
  ⟨⟨Ed25519.sign k.seed.bytes message, Ed25519.length_sign k.seed.bytes message⟩⟩

/-- The signature of free octets, which can never authorise anything else. -/
def signFree (k : KeyPair) (data : Bytes) : Signature := k.sign (Domain.freeBytes.tagged data)

/-- The text that shows a key pair, without its secret. -/
def describe (k : KeyPair) : String :=
  "KeyPair \x7b address: " ++ k.address.describe ++ ", .. \x7d"

end KeyPair

end AtomicGroup
