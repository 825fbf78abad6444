import Yap.CommandLine

/-! The program: reads a syntax tree from a file or from standard input and runs it. -/

open Yap

/-- More steps than any run of the process takes. -/
def Yap.CommandLine.fuel : Nat := 4611686018427387904

def Yap.CommandLine.usage : String :=
  "usage: yap [--max-call-depth N] [--trace] [--warnings report|collect|abort] [-v] FILE"

def Yap.CommandLine.notAProgram (file : String) : String :=
  "Error: " ++ file ++ " is not a valid program"

def Yap.CommandLine.notReadable (file : String) : String := "Error: failed to read " ++ file

/-- The text of a file, or of standard input, if it can be read. -/
def Yap.CommandLine.source? (file : String) (stdin : IO.FS.Stream) : IO (Option String) :=
  try
    let text ← if file = "-" then stdin.readToEnd else IO.FS.readFile file
    return some text
  catch _ => return none

def main (args : List String) : IO UInt32 := do
  match Options.parse? args with
  | none =>
    IO.eprintln CommandLine.usage
    return 2
  | some o =>
    let stdin ← IO.getStdin
    match ← CommandLine.source? o.file stdin with
    | none =>
      IO.eprintln (CommandLine.notReadable o.file)
      return 1
    | some source =>
      match Program.ofText? source.toList with
      | none =>
        IO.eprintln (CommandLine.notAProgram o.file)
        return 1
      | some p =>
        let input ← stdin.readBinToEnd
        match CommandLine.run CommandLine.fuel o p input.toList with
        | none => return 1
        | some ending =>
          IO.print ending.out
          IO.eprint ending.err
          return ending.status.toUInt32
