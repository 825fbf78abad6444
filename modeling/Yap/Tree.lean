import Yap.Fault
import Yap.Modifiers
import Yap.Operator
import Yap.Value

/-! Syntax trees of programs. Every definition node carries a number that tells it from the
others; a tree as read has zero everywhere, and `Program.number` gives fresh ones. -/
namespace Yap

inductive Literal
  | int (n : Int32)
  | short (n : Int16)
  | float (x : Float32)
  | double (x : Float)
  | bool (b : Bool)
  | char (c : UInt8)
deriving DecidableEq

namespace Literal

/-- A char literal is a signed byte, widened. -/
def value : Literal → Value
  | int n => .int n
  | short n => .short n
  | float x => .float x
  | double x => .double x
  | bool b => .bool b
  | char c => .int c.toInt8.toInt32

def kind : Literal → Kind
  | int _ | char _ => .int
  | short _ => .short
  | float _ => .float
  | double _ => .double
  | bool _ => .bool

@[simp] theorem kind_value (l : Literal) : l.value.kind = l.kind := by cases l <;> rfl

def zero : Kind → Literal
  | .short => short 0
  | .int => int 0
  | .float => float 0
  | .double => double 0
  | .bool => bool false
  | .char => char 0

end Literal

/-- An expression. Text stands only where a format or a printed text is wanted. -/
inductive Expr
  | literal (l : Literal)
  | text (s : String)
  | ident (name : String)
  | binary (op : BinaryOp) (left right : Expr) (modifiers : Modifiers)
  | unary (op : UnaryOp) (operand : Expr)
  | element (name : String) (index : Expr)
  | call (name : String) (args : List Expr)
  | sizeOf (operand : Expr)

def Expr.description : Expr → String
  | literal _ => "literal"
  | text _ => "string literal"
  | ident _ => "identifier"
  | binary .. => "binary operation"
  | unary .. => "unary operation"
  | element .. => "array access"
  | call .. => "function call"
  | sizeOf _ => "sizeof"

structure Param where
  name : String
  kind : Kind
deriving DecidableEq, Repr

mutual

structure Stmt where
  action : Action
  line : Option Line

inductive Action
  | declare (name : String) (kind : Kind) (modifiers : Modifiers) (init : Option Expr)
  | declareArray (name : String) (kind : Kind) (modifiers : Modifiers) (length : Nat)
      (init : Option (List Expr))
  | assign (name : String) (value : Expr)
  | assignElement (name : String) (index value : Expr)
  | expr (e : Expr)
  | ifElse (cond : Expr) (thenBranch : Stmt) (elseBranch : Option Stmt)
  | whileDo (cond : Expr) (body : Stmt)
  | doWhile (body : Stmt) (cond : Expr)
  | forLoop (init : Option Stmt) (cond : Option Expr) (step : Option Stmt) (body : Stmt)
  | switch (scrutinee : Expr) (cases : List Case)
  | leave
  | giveBack (value : Option Expr)
  | define (d : Definition)
  | print (e : Expr)
  | printError (e : Expr)
  | block (body : List Stmt)

/-- An arm of a switch; the one without a label is the default. -/
structure Case where
  label : Option Expr
  body : List Stmt

/-- A function definition. Without a return kind the function returns nothing. -/
structure Definition where
  id : Nat
  name : String
  returns : Option Kind
  params : List Param
  body : Stmt

end

def Action.description : Action → String
  | declare .. => "declaration"
  | declareArray .. => "array declaration"
  | assign .. | assignElement .. => "assignment"
  | expr _ => "expression"
  | ifElse .. => "if"
  | whileDo .. => "while"
  | doWhile .. => "do-while"
  | forLoop .. => "for"
  | switch .. => "switch"
  | leave => "break"
  | giveBack _ => "return"
  | define _ => "function definition"
  | print _ => "print"
  | printError _ => "error"
  | block _ => "block"

structure Program where
  statements : List Stmt

end Yap
