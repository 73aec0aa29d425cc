import AtomicGroup.Text.Numerals

/-!
# Words after a command

The words after a command are options, each with a value, and operands, in any order. An option is written
`--name value`, `--name=value`, `-n value`, `-n=value` or `-nvalue`, at most once; a word `--` makes operands of
all that follow. A value in a word of its own starts with a dash only when it is the dash alone.
-/
namespace AtomicGroup

inductive UsageError where
  | unknownCommand
  | unknownOption (word : String)
  | unexpected (word : String)
  | noValue (name : String)
  | repeated (name : String)
  | missing (name : String)
  | notNumber (name text : String)
deriving DecidableEq, Repr

def UsageError.message : UsageError → String
  | unknownCommand => "no such command"
  | unknownOption word => "no such option: " ++ word
  | unexpected word => "unexpected argument: " ++ word
  | noValue name => "a value is required for --" ++ name
  | repeated name => "--" ++ name ++ " is given more than once"
  | missing name => name ++ " is required"
  | notNumber name text => "invalid value for --" ++ name ++ ": " ++ text

/-- An option by its long name and the letter that stands for it. -/
structure OptionName where
  long : String
  letter : Option Char := none
deriving DecidableEq, Repr

/-- What a word is among the words after a command. -/
inductive Word where
  | operand
  /-- An option with its value. -/
  | assigned (name value : String)
  /-- An option whose value is the next word. -/
  | awaiting (name : String)
  | endOfOptions
  | unknown
deriving DecidableEq, Repr

namespace Word

/-- An option with what stands after its name in the same word. -/
def ofOption (option : Option OptionName) (after : List Char) : Word :=
  match option, after with
  | none, _ => .unknown
  | some option, [] => .awaiting option.long
  | some option, '=' :: value => .assigned option.long (String.ofList value)
  | some option, value => .assigned option.long (String.ofList value)

/-- The part that a word plays where the given options are known. -/
def ofText (known : List OptionName) (text : String) : Word :=
  match text.toList with
  | ['-', '-'] => .endOfOptions
  | '-' :: '-' :: cs =>
    let name := String.ofList (cs.takeWhile (· != '='))
    ofOption (known.find? (·.long == name)) (cs.dropWhile (· != '='))
  | '-' :: c :: cs => ofOption (known.find? (·.letter == some c)) cs
  | _ => .operand

/-- Whether a word may be the value of the option before it. -/
def isValue (text : String) : Bool := text == "-" || text.toList.head? != some '-'

end Word

/-- The words after a command, sorted. -/
structure Arguments where
  options : List (String × String) := []
  operands : List String := []
deriving DecidableEq, Repr

namespace Arguments

def withOption (a : Arguments) (name value : String) : Except UsageError Arguments :=
  if (a.options.lookup name).isSome then .error (.repeated name)
  else .ok { a with options := (name, value) :: a.options }

def withOperand (a : Arguments) (word : String) : Arguments := { a with operands := word :: a.operands }

/-- The words after a command that knows the given options. -/
def ofWords (known : List OptionName) : List String → Except UsageError Arguments
  | [] => .ok {}
  | word :: rest =>
    match Word.ofText known word with
    | .operand => do return (← ofWords known rest).withOperand word
    | .assigned name value => do (← ofWords known rest).withOption name value
    | .awaiting name =>
      match rest with
      | [] => .error (.noValue name)
      | value :: rest =>
        if Word.isValue value then do (← ofWords known rest).withOption name value
        else .error (.noValue name)
    | .endOfOptions => .ok { operands := rest }
    | .unknown => .error (.unknownOption word)

/-- The value of an option that may be left out. -/
def value? (a : Arguments) (name : String) : Option String := a.options.lookup name

/-- The value of an option that may not be left out. -/
def value (a : Arguments) (name : String) : Except UsageError String :=
  match a.value? name with
  | some text => .ok text
  | none => .error (.missing ("--" ++ name))

/-- The number below `bound` that an option gives, a plus sign before it allowed. -/
def number (name : String) (bound : Nat) (text : String) : Except UsageError Nat :=
  let digits := match text.toList with
    | '+' :: cs => cs
    | cs => cs
  match Decimal.read? digits with
  | some n => if n < bound then .ok n else .error (.notNumber name text)
  | none => .error (.notNumber name text)

def noOperands (a : Arguments) : Except UsageError Unit :=
  match a.operands with
  | [] => .ok ()
  | word :: _ => .error (.unexpected word)

end Arguments

end AtomicGroup
