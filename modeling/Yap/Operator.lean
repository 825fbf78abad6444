/-! The operators of expressions, with their symbols and their names in written trees. -/
namespace Yap

inductive BinaryOp
  | add | sub | mul | div | mod | lt | gt | le | ge | eq | ne | and | or
deriving DecidableEq, Repr

namespace BinaryOp

def all : List BinaryOp := [add, sub, mul, div, mod, lt, gt, le, ge, eq, ne, and, or]

def name : BinaryOp → String
  | add => "add"
  | sub => "sub"
  | mul => "mul"
  | div => "div"
  | mod => "mod"
  | lt => "lt"
  | gt => "gt"
  | le => "le"
  | ge => "ge"
  | eq => "eq"
  | ne => "ne"
  | and => "and"
  | or => "or"

def ofName? (s : String) : Option BinaryOp := all.find? (·.name = s)

theorem ofName?_name (op : BinaryOp) : ofName? op.name = some op := by cases op <;> decide

def symbol : BinaryOp → String
  | add => "+"
  | sub => "-"
  | mul => "*"
  | div => "/"
  | mod => "%"
  | lt => "<"
  | gt => ">"
  | le => "<="
  | ge => ">="
  | eq => "=="
  | ne => "!="
  | and => "&&"
  | or => "||"

def isComparison : BinaryOp → Bool
  | add | sub | mul | div | mod => false
  | _ => true

end BinaryOp

inductive UnaryOp
  | neg | preInc | preDec | postInc | postDec
deriving DecidableEq, Repr

namespace UnaryOp

def all : List UnaryOp := [neg, preInc, preDec, postInc, postDec]

def name : UnaryOp → String
  | neg => "neg"
  | preInc => "pre_inc"
  | preDec => "pre_dec"
  | postInc => "post_inc"
  | postDec => "post_dec"

def ofName? (s : String) : Option UnaryOp := all.find? (·.name = s)

theorem ofName?_name (op : UnaryOp) : ofName? op.name = some op := by cases op <;> decide

end UnaryOp
end Yap
