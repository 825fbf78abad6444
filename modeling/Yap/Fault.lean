import Yap.Builtin
import Yap.Console.Reader
import Yap.Format.Spec
import Yap.Warning

/-! Conditions that stop evaluation. A fault has a cause and the line of the innermost
statement that knows one; an interruption and a requested exit have no line. Main statement:
a line once given is never replaced. -/
namespace Yap

/-- A source line, counted from one. -/
abbrev Line := UInt32

inductive Cause
  | undefinedVariable (name : String)
  | undefinedArray (name : String)
  | undefinedFunction (name : String)
  | constAssignment (name : String)
  | redeclaration (name : String)
  | arityMismatch (function : String) (expected got : Nat)
  | arrayInitTooLong (name : String) (length got : Nat)
  | allocationFailed (name : String) (length : Nat)
  | breakOutsideLoop
  | invalidIncrementTarget (found : String)
  | stringInExpression
  | invalidReturn (function : String)
  | format (f : Format.FormatFault)
  | builtinArgument (b : Builtin) (m : Builtin.Misuse)
  | input (f : ReadFault)
  | stackOverflow (depth limit : Nat)
  | aborted (w : Warning)
deriving DecidableEq, Repr

def Cause.message : Cause → String
  | undefinedVariable name => "undefined variable `" ++ name ++ "`"
  | undefinedArray name => "undefined array `" ++ name ++ "`"
  | undefinedFunction name => "undefined function `" ++ name ++ "`"
  | constAssignment name => "cannot assign to const variable `" ++ name ++ "`"
  | redeclaration name => "variable `" ++ name ++ "` is already declared in this scope"
  | arityMismatch function expected got =>
    "function `" ++ function ++ "` expects " ++ toString expected ++ " argument(s), got " ++
      toString got
  | arrayInitTooLong name length got =>
    "too many initializers for array `" ++ name ++ "`: length " ++ toString length ++ ", got " ++
      toString got
  | allocationFailed name length =>
    "failed to allocate " ++ toString length ++ " element(s) for array `" ++ name ++ "`"
  | breakOutsideLoop => "break statement outside of loop or switch"
  | invalidIncrementTarget found => "increment/decrement requires a variable, found " ++ found
  | stringInExpression => "string literal used in a numeric expression"
  | invalidReturn function => "void function `" ++ function ++ "` cannot return a value"
  | format f => "format error: " ++ f.message
  | builtinArgument b m => b.name ++ ": " ++ m.message
  | input f => "input error: " ++ f.message
  | stackOverflow depth limit =>
    "stack overflow: call depth " ++ toString depth ++ " exceeds maximum " ++ toString limit
  | aborted w => w.message

/-- A message as one line, with the source line if it is known. -/
def diagnosticText (line : Option Line) (message : String) : String :=
  match line with
  | some n => "Error at line " ++ toString n.toNat ++ ": " ++ message
  | none => "Error: " ++ message

inductive Stop
  | fault (cause : Cause) (line : Option Line)
  | interrupted
  | exit (code : Int32)
deriving DecidableEq, Repr

namespace Stop

def line : Stop → Option Line
  | fault _ l => l
  | _ => none

/-- Gives a fault without a line this one. -/
def orLine (l : Option Line) : Stop → Stop
  | fault c none => fault c l
  | s => s

@[simp] theorem orLine_none (s : Stop) : s.orLine none = s := by
  cases s with
  | fault c l => cases l <;> rfl
  | interrupted => rfl
  | exit code => rfl

theorem orLine_of_line {s : Stop} {n : Line} (h : s.line = some n) (l : Option Line) :
    s.orLine l = s := by
  cases s with
  | fault c l' => cases l' with
    | none => cases h
    | some m => rfl
  | interrupted => rfl
  | exit code => rfl

@[simp] theorem orLine_orLine (s : Stop) (l l' : Option Line) :
    (s.orLine l).orLine l' = s.orLine (l.or l') := by
  cases s with
  | fault c m => cases m <;> cases l <;> rfl
  | interrupted => rfl
  | exit code => rfl

def message : Stop → String
  | fault c _ => c.message
  | interrupted => "evaluation interrupted"
  | exit code => "program exited with code " ++ toString code.toInt

def diagnostic (s : Stop) : String := diagnosticText s.line s.message

end Stop

structure Diagnostic where
  warning : Warning
  line : Option Line
deriving DecidableEq, Repr

end Yap
