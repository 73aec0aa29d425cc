import AtomicGroup.Command.Basic

/-!
# The program

Reads the words of the command line and the file that the command names, and prints what the command reports. A
command that fails ends with the status 1, words that make no command with the status 2.
-/
namespace AtomicGroup

/-- The contents of a file, if it can be read. -/
def readContents (path : String) : IO (Option String) := do
  try
    return some (← IO.FS.readFile path)
  catch _ => return none

/-- Octets that nobody can guess. -/
def newSeed : IO (Block 32) := do
  match Block.ofBytes? 32 (← IO.getRandomBytes 32).toList with
  | some seed => return seed
  | none => throw (IO.userError "no random octets")

/-- Carries out a command and gives the status it ends with. -/
def Command.execute (command : Command) : IO UInt32 := do
  let contents ← match command.file? {} with
    | some path => readContents path
    | none => pure none
  match command.report contents (← newSeed) with
  | .ok text => IO.print text; return 0
  | .error error => IO.eprintln ("Error: " ++ error.message); return 1

end AtomicGroup

def main (words : List String) : IO UInt32 :=
  match AtomicGroup.Command.ofWords words with
  | .ok command => command.execute
  | .error error => do
    IO.eprintln ("Error: " ++ error.message)
    IO.eprint AtomicGroup.Command.usage
    return 2
