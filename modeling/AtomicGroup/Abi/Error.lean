import AtomicGroup.Abi.Ty
import AtomicGroup.Abi.Value
import AtomicGroup.Text.Numerals

/-!
# What can be wrong with types, values and methods
-/
namespace AtomicGroup.Abi

inductive DecodeFault where
  | boolOctet (got : UInt8)
  | utf8
  | noLength
  | length (said found : Nat)
  | truncatedHead
  | unused (count : Nat)
  | firstOffset (offset headEnd : Nat)
  | offsetOrder (start stop : Nat)
deriving DecidableEq, Repr

def DecodeFault.message : DecodeFault → String
  | boolOctet got => "single bool encoding must be 0x80 or 0x00, got 0x" ++ Hex.encode [got]
  | utf8 => "string is not UTF-8"
  | noLength => "missing 2-byte length prefix"
  | length said found =>
    "length prefix says " ++ Decimal.text said ++ " bytes, found " ++ Decimal.text found
  | truncatedHead => "input is shorter than the tuple head"
  | unused count => Decimal.text count ++ " unused bytes after tuple"
  | firstOffset offset headEnd => "first dynamic offset " ++ Decimal.text offset
      ++ " does not follow the head ending at " ++ Decimal.text headEnd
  | offsetOrder start stop =>
    "dynamic offsets out of order: " ++ Decimal.text start ++ ".." ++ Decimal.text stop

/-- What a JSON value should have been. -/
inductive JsonFault where
  | number
  | integer
  | decimal
  | octet
  | bool
  | address
  | string
  | base64
  | array
deriving DecidableEq, Repr

def JsonFault.message : JsonFault → String
  | number => "expected a number"
  | integer => "expected a non-negative integer"
  | decimal => "expected a non-negative decimal within precision"
  | octet => "expected an integer 0-255"
  | bool => "expected true or false"
  | address => "expected an address string"
  | string => "expected a string"
  | base64 => "expected base64 text"
  | array => "expected an array"

inductive MethodFault where
  | noOpenParenthesis
  | noName
  | unbalanced
  | arguments
  | noReturnType
deriving DecidableEq, Repr

def MethodFault.message : MethodFault → String
  | noOpenParenthesis => "missing open parenthesis"
  | noName => "method must have a name"
  | unbalanced => "unbalanced parentheses"
  | arguments => "malformed argument list"
  | noReturnType => "missing return type"

inductive Error where
  | invalidType (text : String)
  | dynamicLength (type : Ty)
  | typeMismatch (expected : Ty) (got : String)
  | outOfRange (type : Ty) (value : Nat)
  | lengthMismatch (type : Ty) (expected got : Nat)
  /-- A length or an offset that two octets cannot hold. -/
  | tooLong (length : Nat)
  | decode (fault : DecodeFault)
  | invalidJson (type : Ty) (fault : JsonFault)
  | invalidMethod (fault : MethodFault) (signature : String)
  | json
  | address (error : KeyError)
deriving DecidableEq, Repr

def Error.message : Error → String
  | invalidType text => "Invalid ABI type: " ++ text
  | dynamicLength type => "Type " ++ type.name ++ " has no static length"
  | typeMismatch expected got => "Cannot use a " ++ got ++ " value as " ++ expected.name
  | outOfRange type value => "Value " ++ Decimal.text value ++ " does not fit in " ++ type.name
  | lengthMismatch type expected got =>
    type.name ++ " expects " ++ Decimal.text expected ++ " elements, got " ++ Decimal.text got
  | tooLong length => "Length " ++ Decimal.text length ++ " exceeds the 2-byte limit"
  | decode fault => "ABI decode error: " ++ fault.message
  | invalidJson type fault => "Invalid JSON value for " ++ type.name ++ ": " ++ fault.message
  | invalidMethod fault signature => "Invalid method: " ++ fault.message ++ ": " ++ signature
  | json => "JSON error: not JSON text"
  | address error => "Address error: " ++ error.message

/-- The length of the encodings of a type, when it has one. -/
def Ty.byteLength (t : Ty) : Except Error Nat :=
  match t.dynamicPart? with
  | some part => .error (.dynamicLength part)
  | none => .ok t.staticLength

end AtomicGroup.Abi
