import AtomicGroup.Digest
import AtomicGroup.Text.Numerals

/-!
# Addresses

An address is 32 octets. Its text is the base 32 form of those octets and a checksum of four more, 58
characters in all. `KeyError` gathers what can be wrong with an address, a key or a signature.
-/
namespace AtomicGroup

inductive AddressFault where
  /-- A byte string of another length than 32. -/
  | bytes (got : Nat)
  /-- A text of another length than 58 octets. -/
  | characters (got : Nat)
  /-- A text that is not base 32. -/
  | alphabet
  /-- A text of another content than 36 octets. -/
  | decoded (got : Nat)
deriving DecidableEq, Repr

def AddressFault.message : AddressFault → String
  | bytes got => "expected 32 bytes, got " ++ Decimal.text got
  | characters got => "expected 58 characters, got " ++ Decimal.text got
  | alphabet => "not a base 32 text"
  | decoded got => "decoded to " ++ Decimal.text got ++ " bytes"

inductive KeyError where
  | privateKeyLength (got : Nat)
  | privateKeyMismatch
  | publicKey
  | signatureLength (got : Nat)
  | address (fault : AddressFault)
  | addressChecksum (text : String)
  | verification
deriving DecidableEq, Repr

def KeyError.message : KeyError → String
  | privateKeyLength got => "Incorrect private key length: expected 64, got " ++ Decimal.text got
  | privateKeyMismatch => "Invalid private key: public half does not match seed"
  | publicKey => "Invalid public key"
  | signatureLength got => "Incorrect signature length: expected 64, got " ++ Decimal.text got
  | address fault => "Invalid address: " ++ fault.message
  | addressChecksum text => "Address checksum mismatch: " ++ text
  | verification => "Signature verification failed"

structure Address where
  block : Block 32
deriving DecidableEq, Repr

namespace Address

def bytes (a : Address) : Bytes := a.block.bytes

@[simp] theorem length_bytes (a : Address) : a.bytes.length = 32 := a.block.length_eq

/-- Two addresses with the same octets are the same. -/
@[ext] theorem ext {a b : Address} (h : a.bytes = b.bytes) : a = b := by
  cases a; cases b; exact congrArg Address.mk (Block.ext h)

/-- The all-zero address, which stands for "not set". -/
def zero : Address := ⟨Block.zero 32⟩

instance : Inhabited Address := ⟨zero⟩

def isZero (a : Address) : Bool := a == zero

def ofBytes (bs : Bytes) : Except KeyError Address :=
  match Block.ofBytes? 32 bs with
  | some block => .ok ⟨block⟩
  | none => .error (.address (.bytes bs.length))

theorem ofBytes_eq_ok_iff {bs : Bytes} {a : Address} : ofBytes bs = .ok a ↔ a.bytes = bs := by
  constructor
  · intro h
    unfold ofBytes at h
    split at h
    · rename_i block hblock
      cases h
      exact Block.ofBytes?_eq_some_iff.mp hblock
    · cases h
  · rintro rfl
    rw [ofBytes, bytes, Block.ofBytes?_bytes]

def ofDigest (d : Digest) : Address := ⟨d.block⟩

/-- The four octets that guard the text of an address. -/
def checksum (bs : Bytes) : Bytes := (Sha512.digest256 bs).drop 28

def text (a : Address) : String := Base32.encode (a.bytes ++ checksum a.bytes)

def ofText (text : String) : Except KeyError Address :=
  if text.utf8ByteSize ≠ 58 then .error (.address (.characters text.utf8ByteSize))
  else
    match Base32.decode? text with
    | none => .error (.address .alphabet)
    | some raw =>
      if raw.length ≠ 36 then .error (.address (.decoded raw.length))
      else if raw.drop 32 ≠ checksum (raw.take 32) then .error (.addressChecksum text)
      else ofBytes (raw.take 32)

def isText (text : String) : Bool := (ofText text).isOk

/-- The text that shows an address inside a description of other values. -/
def describe (a : Address) : String := "Address(" ++ a.text ++ ")"

end Address

end AtomicGroup
