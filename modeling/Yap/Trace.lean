import Yap.Fault
import Yap.Frame
import Yap.Text.Quoted
import Yap.Tree

/-! What a run logs while it is traced, in order, and how an entry reads: a level, a message and
named fields. -/
namespace Yap

inductive Event
  | exec (line : Option Line) (action : String)
  | enterScope (depth : Nat)
  | exitScope (depth : Nat)
  | pushFrame (f : Frame)
  | popFrame (kind : FrameKind)
  | register (function : String) (params : Nat) (shadowed : Bool)
  | builtin (b : Builtin) (args : Nat)
  | reallocate (name : String) (length : Nat)
  | warned (line : Option Line) (w : Warning)
  | call (function : String)
  | exited (code : Int32)
deriving DecidableEq, Repr

def Kind.label : Kind → String
  | short => "Short"
  | int => "Int"
  | float => "Float"
  | double => "Double"
  | bool => "Bool"
  | char => "Char"

def FrameKind.label : FrameKind → String
  | loop => "Loop"
  | switch => "Switch"
  | call function returns =>
    "Call \x7b function: " ++ Text.Quoted.quote function ++ ", return_kind: " ++
      (match returns with
        | some k => "Some(" ++ k.label ++ ")"
        | none => "None") ++ " \x7d"

namespace Event

def level : Event → String
  | exec .. => "trace"
  | warned .. => "warn"
  | call _ => "span"
  | _ => "debug"

def message : Event → String
  | exec .. => "exec"
  | enterScope _ => "enter scope"
  | exitScope _ => "exit scope"
  | pushFrame _ => "push frame"
  | popFrame _ => "pop frame"
  | register .. => "register function"
  | builtin .. => "call builtin"
  | reallocate .. => "reallocate array"
  | warned .. => "recoverable error"
  | call _ => "call_function"
  | exited _ => "program exited"

def lineField : Option Line → List (String × String)
  | some n => [("line", toString n.toNat)]
  | none => []

def fields : Event → List (String × String)
  | exec line action => lineField line ++ [("stmt", action)]
  | enterScope depth => [("depth", toString depth)]
  | exitScope depth => [("depth", toString depth)]
  | pushFrame f => [("kind", f.kind.label), ("scope_depth", toString f.scopeDepth)]
  | popFrame kind => [("kind", kind.label)]
  | register function params shadowed =>
    [("name", function), ("params", toString params),
      ("shadowed", if shadowed then "true" else "false")]
  | builtin b args => [("builtin", b.name), ("args", toString args)]
  | reallocate name length => [("name", name), ("length", toString length)]
  | warned line w => lineField line ++ [("warning", w.message)]
  | call function => [("name", function)]
  | exited code => [("code", toString code.toInt)]

end Event
end Yap
