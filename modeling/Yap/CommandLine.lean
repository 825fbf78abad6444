import Yap.Machine.Program
import Yap.Tree.Decode
import Yap.Tree.Number

/-! The command line: options and a program file, run on the process streams. -/
namespace Yap

structure Options where
  limit : Nat := 1000
  policy : Policy := .report
  tracing : Bool := false
  verbosity : Nat := 0
  file : String
deriving DecidableEq, Repr

namespace Options

/-- Arguments read so far. All but verbosity may be given once. -/
structure Given where
  limit : Option Nat := none
  policy : Option Policy := none
  tracing : Bool := false
  verbosity : Nat := 0
  file : Option String := none

namespace Given

/-- A number that fits in 64 bits, perhaps behind a plus sign. -/
def number? (s : List Char) : Option Nat :=
  let ds := match s with
    | '+' :: ds => ds
    | ds => ds
  if ds.isEmpty || !ds.all Char.isDigit then none
  else if Numeral.natOf ds < 18446744073709551616 then some (Numeral.natOf ds)
  else none

def policy? : List Char → Option Policy
  | ['r', 'e', 'p', 'o', 'r', 't'] => some .report
  | ['c', 'o', 'l', 'l', 'e', 'c', 't'] => some .collect
  | ['a', 'b', 'o', 'r', 't'] => some .abort
  | _ => none

def setLimit (g : Given) (value : List Char) : Option Given :=
  match g.limit, number? value with
  | none, some n => some { g with limit := some n }
  | _, _ => none

def setPolicy (g : Given) (value : List Char) : Option Given :=
  match g.policy, policy? value with
  | none, some p => some { g with policy := some p }
  | _, _ => none

def setTracing (g : Given) : Option Given :=
  if g.tracing then none else some { g with tracing := true }

def setFile (g : Given) (name : List Char) : Option Given :=
  match g.file with
  | none => some { g with file := some (String.ofList name) }
  | some _ => none

def options? (g : Given) : Option Options :=
  g.file.map fun file =>
    ⟨g.limit.getD 1000, g.policy.getD .report, g.tracing, g.verbosity, file⟩

/-- A name and, behind an equals sign, a value. -/
def splitValue (s : List Char) : List Char × Option (List Char) :=
  match s.dropWhile (· != '=') with
  | [] => (s, none)
  | _ :: value => (s.takeWhile (· != '='), some value)

/-- Takes the arguments one by one. Behind `--` every one is a file. -/
def read (g : Given) : List (List Char) → Option Given
  | [] => some g
  | ['-', '-'] :: files => files.foldlM setFile g
  | ('-' :: '-' :: long) :: args =>
    match String.ofList (splitValue long).1, (splitValue long).2 with
    | "max-call-depth", some value => (g.setLimit value).bind (read · args)
    | "warnings", some value => (g.setPolicy value).bind (read · args)
    | "trace", none => g.setTracing.bind (read · args)
    | "verbose", none => read { g with verbosity := g.verbosity + 1 } args
    | "max-call-depth", none =>
      match args with
      | value :: args => (g.setLimit value).bind (read · args)
      | [] => none
    | "warnings", none =>
      match args with
      | value :: args => (g.setPolicy value).bind (read · args)
      | [] => none
    | _, _ => none
  | ('-' :: 'v' :: short) :: args =>
    if short.all (· == 'v') then read { g with verbosity := g.verbosity + short.length + 1 } args
    else none
  | ['-'] :: args => (g.setFile ['-']).bind (read · args)
  | ('-' :: _) :: _ => none
  | file :: args => (g.setFile file).bind (read · args)

end Given

def parse? (args : List String) : Option Options :=
  (Given.read {} (args.map (·.toList))).bind (·.options?)

end Options

/-- What the process shows: its status and what it wrote. -/
structure Ending where
  status : UInt8
  out : String
  err : String
deriving DecidableEq, Repr

/-- Runs a program as the process does. A code is cut to a byte; a run that stops shows why on the
error stream. -/
def CommandLine.run (fuel : Nat) (o : Options) (p : Program) (input : List UInt8) :
    Option Ending :=
  match (p.number 0).1.run fuel (.new o.limit o.policy o.tracing input) with
  | .done code m => some ⟨UInt8.ofInt code.toInt, m.console.out, m.console.err⟩
  | .stopped s m => some ⟨1, m.console.out, m.console.err ++ s.diagnostic ++ "\n"⟩
  | .outOfFuel => none

end Yap
