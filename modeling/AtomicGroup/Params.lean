import AtomicGroup.Wire.Forms
import AtomicGroup.Digest

/-!
# Suggested parameters

What a network suggests for new transactions, and the file that keeps it. The file's numbers are signed and
its genesis hash is a text, so `ParamsFile.toParams` checks both.
-/
namespace AtomicGroup

structure SuggestedParams where
  /-- The fee, or the rate for each octet unless `flatFee` is set. -/
  fee : UInt64 := 0
  genesisId : String := ""
  genesisHash : Digest := .zero
  firstValid : UInt64 := 0
  lastValid : UInt64 := 0
  flatFee : Bool := false
deriving DecidableEq, Repr, Inhabited

inductive GenesisFault where
  | base64 (fault : Base64.Fault)
  | length (got : Nat)
deriving DecidableEq, Repr

def GenesisFault.message : GenesisFault → String
  | base64 fault => fault.message
  | length got => Decimal.text got ++ " bytes, expected 32"

inductive ConfigError where
  /-- The file cannot be read. -/
  | file
  | json
  | negative (field : String) (value : Int64)
  | genesisHash (fault : GenesisFault)
deriving DecidableEq, Repr

def ConfigError.message : ConfigError → String
  | file => "IO error: no such file"
  | json => "JSON error: not a parameter file"
  | negative field value =>
    "all integer arguments must be >= 0: " ++ field ++ " is " ++ Json.intText value.toInt
  | genesisHash fault => "Invalid genesis hash: " ++ fault.message

/-- Suggested parameters as a file keeps them. -/
structure ParamsFile where
  fee : Int64
  genesisId : String
  genesisHash : String
  firstValid : Int64
  lastValid : Int64
  flatFee : Bool
deriving DecidableEq, Repr

namespace ParamsFile

def schema : Wire.Schema ParamsFile :=
  .record false ParamsFile.mk
    (.required "fee" .int64 (·.fee) <|
    .kept "genesis_id" .text (·.genesisId) "" <|
    .required "genesis_hash" .text (·.genesisHash) <|
    .required "first_valid" .int64 (·.firstValid) <|
    .required "last_valid" .int64 (·.lastValid) <|
    .kept "flat_fee" .bool (·.flatFee) false .nil)

/-- The file with the given contents; `none` when there is none. -/
def load (contents : Option String) : Except ConfigError ParamsFile :=
  match contents with
  | none => .error .file
  | some text => (schema.ofJson text).mapError fun _ => .json

def save (f : ParamsFile) : String := Json.pretty (schema.write f)

/-- A number of the file as an unsigned one. -/
def nonNegative (field : String) (value : Int64) : Except ConfigError UInt64 :=
  if value < 0 then .error (.negative field value) else .ok value.toUInt64

def readGenesisHash (text : String) : Except ConfigError Digest :=
  match Base64.decode text with
  | .error fault => .error (.genesisHash (.base64 fault))
  | .ok bs =>
    match Digest.ofBytes? bs with
    | none => .error (.genesisHash (.length bs.length))
    | some d => .ok d

def toParams (f : ParamsFile) : Except ConfigError SuggestedParams := do
  let genesisHash ← readGenesisHash f.genesisHash
  let fee ← nonNegative "fee" f.fee
  let firstValid ← nonNegative "first_valid" f.firstValid
  let lastValid ← nonNegative "last_valid" f.lastValid
  return { fee, genesisId := f.genesisId, genesisHash, firstValid, lastValid, flatFee := f.flatFee }

/-- The largest signed number that is not above an unsigned one. -/
def clamp (value : UInt64) : Int64 := if value ≤ Int64.maxValue.toUInt64 then value.toInt64 else Int64.maxValue

/-- The file that keeps parameters; numbers beyond the signed range are cut to it. -/
def ofParams (p : SuggestedParams) : ParamsFile :=
  ⟨clamp p.fee, p.genesisId, p.genesisHash.text, clamp p.firstValid, clamp p.lastValid, p.flatFee⟩

end ParamsFile

end AtomicGroup
