import AtomicGroup.Crypto.Sha512
import AtomicGroup.Text.Bases

/-!
# Digests

Every digest is SHA-512/256. What is hashed or signed carries a short tag in front, so that the octets of
one kind of object are never those of another kind. The all-zero digest stands for "not set".
-/
namespace AtomicGroup

structure Digest where
  block : Block 32
deriving DecidableEq, Repr

namespace Digest

def bytes (d : Digest) : Bytes := d.block.bytes

@[simp] theorem length_bytes (d : Digest) : d.bytes.length = 32 := d.block.length_eq

/-- Two digests with the same octets are the same. -/
@[ext] theorem ext {a b : Digest} (h : a.bytes = b.bytes) : a = b := by
  cases a; cases b; exact congrArg Digest.mk (Block.ext h)

def zero : Digest := ⟨Block.zero 32⟩

instance : Inhabited Digest := ⟨zero⟩

/-- Whether a digest is "not set". -/
def isZero (d : Digest) : Bool := d == zero

def ofBytes? (bs : Bytes) : Option Digest := (Block.ofBytes? 32 bs).map Digest.mk

theorem ofBytes?_eq_some_iff {bs : Bytes} {d : Digest} : ofBytes? bs = some d ↔ d.bytes = bs := by
  simp only [ofBytes?, Option.map_eq_some_iff, Block.ofBytes?_eq_some_iff]
  constructor
  · rintro ⟨block, rfl, rfl⟩
    rfl
  · rintro rfl
    exact ⟨d.block, rfl, rfl⟩

theorem ofBytes?_eq_none_iff {bs : Bytes} : ofBytes? bs = none ↔ bs.length ≠ 32 := by
  simp [ofBytes?, Block.ofBytes?]

def of (data : Bytes) : Digest := ⟨⟨Sha512.digest256 data, Sha512.length_digest256 data⟩⟩

def text (d : Digest) : String := Base64.encode d.bytes

def describe (d : Digest) : String := "Digest(" ++ Hex.encode d.bytes ++ ")"

end Digest

/-- What a hashed or signed byte string is about. -/
inductive Domain where
  | transaction
  | group
  | multisigAddress
  | program
  | freeBytes
deriving DecidableEq, Repr

namespace Domain

/-- The text in front of a byte string of the domain. -/
def tagText : Domain → String
  | transaction => "TX"
  | group => "TG"
  | multisigAddress => "MultisigAddr"
  | program => "Program"
  | freeBytes => "MX"

def tag (d : Domain) : Bytes := Utf8.encode d.tagText

def tagged (d : Domain) (data : Bytes) : Bytes := d.tag ++ data

def digest (d : Domain) (data : Bytes) : Digest := Digest.of (d.tagged data)

end Domain

end AtomicGroup
