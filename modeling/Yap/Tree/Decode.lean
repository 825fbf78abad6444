import Yap.Json.Reading
import Yap.Json.Shape
import Yap.Tree

/-! Trees read from documents. A record is an object, or an array in the order of its fields; a
choice is an object with one field, named for the case. Every reader takes the levels of nesting
that may still be entered. -/
namespace Yap

open Json Numeral

def Json.single? : Json → Option Float32
  | .int n => some (toSingle (ofInt n))
  | .real x => some (narrow x)
  | _ => none

def Json.double? : Json → Option Float
  | .int n => some (toDouble (ofInt n))
  | .real x => some x
  | _ => none

def Json.bool? : Json → Option Bool
  | .bool b => some b
  | _ => none

def Modifiers.decode (j : Json) : Option Modifiers := j.text?.bind Modifiers.parse?

def Kind.decode : Nat → Json → Option Kind := enumerated Kind.ofName?

def Literal.decode : Nat → Json → Option Literal
  | _ + 1, .obj [(tag, j)] =>
    match tag with
    | "int" => (integer? (-2147483648) 2147483647 j).map fun n => .int (Int32.ofInt n)
    | "short" => (integer? (-32768) 32767 j).map fun n => .short (Int16.ofInt n)
    | "float" => j.single?.map .float
    | "double" => j.double?.map .double
    | "bool" => j.bool?.map .bool
    | "char" => (integer? 0 255 j).map fun n => .char (UInt8.ofNat n.toNat)
    | _ => none
  | _, _ => none

def Expr.decode : Nat → Json → Option Expr
  | n + 1, .obj [(tag, j)] =>
    match tag, n with
    | "literal", n => (Literal.decode n j).map .literal
    | "str", _ => j.text?.map .text
    | "ident", _ => j.text?.map .ident
    | "size_of", n => (Expr.decode n j).map .sizeOf
    | "binary", n + 1 =>
      match fields? ["op", "left", "right", "modifiers"] j with
      | some [op, left, right, modifiers] => do
        let op ← op.bind (enumerated BinaryOp.ofName? n)
        let left ← left.bind (Expr.decode n)
        let right ← right.bind (Expr.decode n)
        let modifiers ← defaulted .none Modifiers.decode modifiers
        some (.binary op left right modifiers)
      | _ => none
    | "unary", n + 1 =>
      match fields? ["op", "operand"] j with
      | some [op, operand] => do
        let op ← op.bind (enumerated UnaryOp.ofName? n)
        let operand ← operand.bind (Expr.decode n)
        some (.unary op operand)
      | _ => none
    | "index", n + 1 =>
      match fields? ["name", "index"] j with
      | some [name, index] => do
        let name ← name.bind text?
        let index ← index.bind (Expr.decode n)
        some (.element name index)
      | _ => none
    | "call", n + 2 =>
      match fields? ["name", "args"] j with
      | some [name, some (.arr args)] => do
        let name ← name.bind text?
        let args ← args.mapM (Expr.decode n)
        some (.call name args)
      | _ => none
    | _, _ => none
  | _, _ => none

def Expr.decodeList : Nat → Json → Option (List Expr)
  | n + 1, .arr js => js.mapM (Expr.decode n)
  | _, _ => none

def Param.decode : Nat → Json → Option Param
  | n + 1, j =>
    match fields? ["name", "kind"] j with
    | some [name, kind] => do
      let name ← name.bind text?
      let kind ← kind.bind (Kind.decode n)
      some ⟨name, kind⟩
    | _ => none
  | _, _ => none

def Param.decodeList : Nat → Json → Option (List Param)
  | n + 1, .arr js => js.mapM (Param.decode n)
  | _, _ => none

def decodeLine : Nat → Json → Option Line
  | _ + 1, j =>
    match fields? ["line"] j with
    | some [line] => (line.bind (integer? 0 4294967295)).map fun n => UInt32.ofNat n.toNat
    | _ => none
  | _, _ => none

def Action.decodeAssign (value : Expr) : Nat → Json → Option Action
  | n + 1, .obj [(tag, j)] =>
    match tag, n with
    | "variable", _ => j.text?.map fun name => .assign name value
    | "element", n + 1 =>
      match fields? ["name", "index"] j with
      | some [name, index] => do
        let name ← name.bind text?
        let index ← index.bind (Expr.decode n)
        some (.assignElement name index value)
      | _ => none
    | _, _ => none
  | _, _ => none

mutual

def Stmt.decode : Nat → Json → Option Stmt
  | n + 1, j =>
    match fields? ["kind", "span"] j with
    | some [action, line] => do
      let action ← action.bind (Action.decode n)
      let line ← optional (decodeLine n) line
      some ⟨action, line⟩
    | _ => none
  | _, _ => none

def Action.decode : Nat → Json → Option Action
  | _, .str "break" => some .leave
  | n + 1, .obj [(tag, j)] =>
    match tag, n with
    | "break", _ => if j.same .null then some .leave else none
    | "expr", n => (Expr.decode n j).map .expr
    | "return", n => (optional (Expr.decode n) (some j)).map .giveBack
    | "function_def", n => (Definition.decode n j).map .define
    | "print", n => (Expr.decode n j).map .print
    | "error", n => (Expr.decode n j).map .printError
    | "block", n + 1 =>
      match j with
      | .arr js => (js.mapM (Stmt.decode n)).map .block
      | _ => none
    | "declare", n + 1 =>
      match fields? ["name", "kind", "modifiers", "init"] j with
      | some [name, kind, modifiers, init] => do
        let name ← name.bind text?
        let kind ← kind.bind (Kind.decode n)
        let modifiers ← defaulted .none Modifiers.decode modifiers
        let init ← optional (Expr.decode n) init
        some (.declare name kind modifiers init)
      | _ => none
    | "declare_array", n + 1 =>
      match fields? ["name", "kind", "modifiers", "length", "init"] j with
      | some [name, kind, modifiers, length, init] => do
        let name ← name.bind text?
        let kind ← kind.bind (Kind.decode n)
        let modifiers ← defaulted .none Modifiers.decode modifiers
        let length ← length.bind (integer? 0 18446744073709551615)
        let init ← optional (Expr.decodeList n) init
        some (.declareArray name kind modifiers length.toNat init)
      | _ => none
    | "assign", n + 1 =>
      match fields? ["target", "value"] j with
      | some [target, value] => do
        let value ← value.bind (Expr.decode n)
        target.bind (Action.decodeAssign value n)
      | _ => none
    | "if", n + 1 =>
      match fields? ["cond", "then_branch", "else_branch"] j with
      | some [cond, thenBranch, elseBranch] => do
        let cond ← cond.bind (Expr.decode n)
        let thenBranch ← thenBranch.bind (Stmt.decode n)
        let elseBranch ← optional (Stmt.decode n) elseBranch
        some (.ifElse cond thenBranch elseBranch)
      | _ => none
    | "while", n + 1 =>
      match fields? ["cond", "body"] j with
      | some [cond, body] => do
        let cond ← cond.bind (Expr.decode n)
        let body ← body.bind (Stmt.decode n)
        some (.whileDo cond body)
      | _ => none
    | "do_while", n + 1 =>
      match fields? ["body", "cond"] j with
      | some [body, cond] => do
        let body ← body.bind (Stmt.decode n)
        let cond ← cond.bind (Expr.decode n)
        some (.doWhile body cond)
      | _ => none
    | "for", n + 1 =>
      match fields? ["init", "cond", "step", "body"] j with
      | some [init, cond, step, body] => do
        let init ← optional (Stmt.decode n) init
        let cond ← optional (Expr.decode n) cond
        let step ← optional (Stmt.decode n) step
        let body ← body.bind (Stmt.decode n)
        some (.forLoop init cond step body)
      | _ => none
    | "switch", n + 2 =>
      match fields? ["scrutinee", "cases"] j with
      | some [scrutinee, some (.arr cases)] => do
        let scrutinee ← scrutinee.bind (Expr.decode (n + 1))
        let cases ← cases.mapM (Case.decode n)
        some (.switch scrutinee cases)
      | _ => none
    | _, _ => none
  | _, _ => none

def Case.decode : Nat → Json → Option Case
  | n + 2, j =>
    match fields? ["value", "body"] j with
    | some [label, some (.arr body)] => do
      let label ← optional (Expr.decode (n + 1)) label
      let body ← body.mapM (Stmt.decode n)
      some ⟨label, body⟩
    | _ => none
  | _, _ => none

def Definition.decode : Nat → Json → Option Definition
  | n + 1, j =>
    match fields? ["name", "return_kind", "params", "body"] j with
    | some [name, returns, params, body] => do
      let name ← name.bind text?
      let returns ← optional (Kind.decode n) returns
      let params ← defaulted [] (Param.decodeList n) params
      let body ← body.bind (Stmt.decode n)
      some ⟨0, name, returns, params, body⟩
    | _ => none
  | _, _ => none

end

def Program.decode : Nat → Json → Option Program
  | n + 2, j =>
    match fields? ["statements"] j with
    | some [some (.arr js)] => (js.mapM (Stmt.decode n)).map .mk
    | _ => none
  | _, _ => none

def Program.ofJson? (j : Json) : Option Program := Program.decode j.depth j

/-- The levels of nesting that a program text may have. -/
def Program.nestingLimit : Nat := 127

/-- The program that a document holds, unless the document is nested too deeply. -/
def Program.ofDocument? (j : Json) : Option Program := Program.decode nestingLimit j

def Program.ofText? (text : List Char) : Option Program := (Json.ofText? text).bind ofDocument?

end Yap
