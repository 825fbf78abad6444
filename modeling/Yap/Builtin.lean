/-! The builtin functions, known by name ahead of the functions of a program. -/
namespace Yap

/-- `yapping` and `yappin` print formatted text, the first with a newline; `baka` prints it to
the error stream; `ragequit` ends the program; `chill` sleeps; `slorp` reads a line. -/
inductive Builtin
  | yapping | yappin | baka | ragequit | chill | slorp
deriving DecidableEq, Repr

namespace Builtin

def all : List Builtin := [yapping, yappin, baka, ragequit, chill, slorp]

def name : Builtin → String
  | yapping => "yapping"
  | yappin => "yappin"
  | baka => "baka"
  | ragequit => "ragequit"
  | chill => "chill"
  | slorp => "slorp"

def ofName? (s : String) : Option Builtin := all.find? (·.name = s)

theorem ofName?_name (b : Builtin) : ofName? b.name = some b := by cases b <;> decide

theorem name_of_ofName? {s : String} {b : Builtin} (h : ofName? s = some b) : b.name = s := by
  simpa using List.find?_some h

inductive Misuse
  | oneArgument (got : Nat)
  | noFormat
  | formatNotLiteral
  | negativeDuration
  | notAVariable (found : String)
deriving DecidableEq, Repr

def Misuse.message : Misuse → String
  | oneArgument got => "expects 1 argument, got " ++ toString got
  | noFormat => "missing format string"
  | formatNotLiteral => "format must be a string literal"
  | negativeDuration => "duration must not be negative"
  | notAVariable found => "expects a variable, found " ++ found

end Builtin
end Yap
