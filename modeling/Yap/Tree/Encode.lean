import Yap.Json
import Yap.Numeral.Binary
import Yap.Tree

/-! Trees written as documents, with every field: what is absent is null, and modifiers stand in
their written form. How float literals show is left open. -/
namespace Yap

structure FloatForm where
  single : Float32 → Json
  double : Float → Json

def FloatForm.number : FloatForm := ⟨fun x => .real (Numeral.widen x), .real⟩

/-- What is absent is null. -/
def Json.ofOption {α : Type} (write : α → Json) : Option α → Json
  | none => .null
  | some a => write a

def Json.tagged (tag : String) (j : Json) : Json := .obj [(tag, j)]

def Literal.encode (form : FloatForm) : Literal → Json
  | int n => .tagged "int" (.int n.toInt)
  | short n => .tagged "short" (.int n.toInt)
  | float x => .tagged "float" (form.single x)
  | double x => .tagged "double" (form.double x)
  | bool b => .tagged "bool" (.bool b)
  | char c => .tagged "char" (.int c.toNat)

def Expr.encode (form : FloatForm) : Expr → Json
  | literal l => .tagged "literal" (l.encode form)
  | text s => .tagged "str" (.str s)
  | ident name => .tagged "ident" (.str name)
  | binary op left right modifiers =>
    .tagged "binary" <| .obj [("op", .str op.name), ("left", encode form left),
      ("right", encode form right), ("modifiers", .str modifiers.render)]
  | unary op operand =>
    .tagged "unary" <| .obj [("op", .str op.name), ("operand", encode form operand)]
  | element name index =>
    .tagged "index" <| .obj [("name", .str name), ("index", encode form index)]
  | call name args => .tagged "call" <| .obj [("name", .str name), ("args", .arr (encodes args))]
  | sizeOf operand => .tagged "size_of" (encode form operand)
where
  encodes : List Expr → List Json
    | [] => []
    | e :: es => encode form e :: encodes es

def Param.encode (p : Param) : Json := .obj [("name", .str p.name), ("kind", .str p.kind.name)]

def encodeLine (line : Line) : Json := .obj [("line", .int line.toNat)]

mutual

def Stmt.encode (form : FloatForm) : Stmt → Json
  | ⟨action, line⟩ =>
    .obj [("kind", action.encode form), ("span", .ofOption encodeLine line)]

def Action.encode (form : FloatForm) : Action → Json
  | .declare name kind modifiers init =>
    .tagged "declare" <| .obj [("name", .str name), ("kind", .str kind.name),
      ("modifiers", .str modifiers.render), ("init", .ofOption (Expr.encode form) init)]
  | .declareArray name kind modifiers length init =>
    .tagged "declare_array" <| .obj [("name", .str name), ("kind", .str kind.name),
      ("modifiers", .str modifiers.render), ("length", .int length),
      ("init", .ofOption (fun es => .arr (es.map (Expr.encode form))) init)]
  | .assign name value =>
    .tagged "assign" <| .obj [("target", .tagged "variable" (.str name)),
      ("value", value.encode form)]
  | .assignElement name index value =>
    .tagged "assign" <| .obj [("target", .tagged "element" <|
      .obj [("name", .str name), ("index", index.encode form)]), ("value", value.encode form)]
  | .expr e => .tagged "expr" (e.encode form)
  | .ifElse cond thenBranch elseBranch =>
    .tagged "if" <| .obj [("cond", cond.encode form), ("then_branch", thenBranch.encode form),
      ("else_branch", encodeOption form elseBranch)]
  | .whileDo cond body =>
    .tagged "while" <| .obj [("cond", cond.encode form), ("body", body.encode form)]
  | .doWhile body cond =>
    .tagged "do_while" <| .obj [("body", body.encode form), ("cond", cond.encode form)]
  | .forLoop init cond step body =>
    .tagged "for" <| .obj [("init", encodeOption form init),
      ("cond", .ofOption (Expr.encode form) cond), ("step", encodeOption form step),
      ("body", body.encode form)]
  | .switch scrutinee cases =>
    .tagged "switch" <| .obj [("scrutinee", scrutinee.encode form),
      ("cases", .arr (encodeCases form cases))]
  | .leave => .str "break"
  | .giveBack value => .tagged "return" (.ofOption (Expr.encode form) value)
  | .define d => .tagged "function_def" (d.encode form)
  | .print e => .tagged "print" (e.encode form)
  | .printError e => .tagged "error" (e.encode form)
  | .block body => .tagged "block" (.arr (encodeAll form body))

def Case.encode (form : FloatForm) : Case → Json
  | ⟨label, body⟩ =>
    .obj [("value", .ofOption (Expr.encode form) label), ("body", .arr (encodeAll form body))]

def Definition.encode (form : FloatForm) : Definition → Json
  | ⟨_, name, returns, params, body⟩ =>
    .obj [("name", .str name), ("return_kind", .ofOption (fun k => .str k.name) returns),
      ("params", .arr (params.map Param.encode)), ("body", body.encode form)]

def encodeOption (form : FloatForm) : Option Stmt → Json
  | none => .null
  | some s => s.encode form

def encodeAll (form : FloatForm) : List Stmt → List Json
  | [] => []
  | s :: ss => s.encode form :: encodeAll form ss

def encodeCases (form : FloatForm) : List Case → List Json
  | [] => []
  | c :: cs => c.encode form :: encodeCases form cs

end

def Program.encode (form : FloatForm) (p : Program) : Json :=
  .obj [("statements", .arr (encodeAll form p.statements))]

end Yap
