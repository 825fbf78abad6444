import Yap.Kind
import Yap.Numeral.Binary

/-! Scalar values and their conversion between kinds. Integers wrap, floats are cut toward
zero and clamped to 32 bits first, and anything that is not zero is true.
Main statements: a converted value has the kind asked for, and converting again changes
nothing. -/
namespace Yap

/-- A scalar. There is no value of kind char: a stored char is an int of eight bits. -/
inductive Value
  | short (n : Int16)
  | int (n : Int32)
  | float (x : Float32)
  | double (x : Float)
  | bool (b : Bool)
deriving DecidableEq

namespace Value

open Numeral

/-- The integer part of a float, toward zero and clamped to 32 bits. -/
def whole (d : Datum) : Int32 := Int32.ofInt (d.truncate (-2147483648) 2147483647)

def kind : Value → Kind
  | short _ => .short
  | int _ => .int
  | float _ => .float
  | double _ => .double
  | bool _ => .bool

def zero : Kind → Value
  | .short => short 0
  | .int | .char => int 0
  | .float => float 0
  | .double => double 0
  | .bool => bool false

def toInt16 : Value → Int16
  | short n => n
  | int n => n.toInt16
  | float x => (whole (ofSingle x)).toInt16
  | double x => (whole (ofDouble x)).toInt16
  | bool b => if b then 1 else 0

def toInt32 : Value → Int32
  | short n => n.toInt32
  | int n => n
  | float x => whole (ofSingle x)
  | double x => whole (ofDouble x)
  | bool b => if b then 1 else 0

def toFloat32 : Value → Float32
  | short n => toSingle (ofInt n.toInt)
  | int n => toSingle (ofInt n.toInt)
  | float x => x
  | double x => narrow x
  | bool b => if b then 1 else 0

def toFloat : Value → Float
  | short n => toDouble (ofInt n.toInt)
  | int n => toDouble (ofInt n.toInt)
  | float x => widen x
  | double x => x
  | bool b => if b then 1 else 0

def isTruthy : Value → Bool
  | short n => n != 0
  | int n => n != 0
  | float x => !(x == 0)
  | double x => !(x == 0)
  | bool b => b

def convert (v : Value) : Kind → Value
  | .short => short v.toInt16
  | .int => int v.toInt32
  | .char => int v.toInt32.toInt8.toInt32
  | .float => float v.toFloat32
  | .double => double v.toFloat
  | .bool => bool v.isTruthy

@[simp] theorem kind_convert (v : Value) (k : Kind) : (v.convert k).kind = k.asRead := by
  cases k <;> rfl

@[simp] theorem kind_zero (k : Kind) : (zero k).kind = k.asRead := by cases k <;> rfl

@[simp] theorem convert_convert (v : Value) (k : Kind) : (v.convert k).convert k = v.convert k := by
  cases k <;> simp [convert, toInt16, toInt32, toFloat32, toFloat, isTruthy]

@[simp] theorem convert_zero (k : Kind) : (zero k).convert k = zero k := by
  cases k <;> rfl

/-- A value is at a kind when converting it there changes nothing. -/
def At (v : Value) (k : Kind) : Prop := v.convert k = v

instance (v : Value) (k : Kind) : Decidable (v.At k) := inferInstanceAs (Decidable (_ = _))

theorem at_convert (v : Value) (k : Kind) : (v.convert k).At k := convert_convert v k

theorem at_zero (k : Kind) : (zero k).At k := convert_zero k

theorem At.kind_eq {v : Value} {k : Kind} (h : v.At k) : v.kind = k.asRead := by
  have := congrArg kind h
  simpa using this.symm

/-- A value is at its own kind. -/
theorem at_kind (v : Value) : v.At v.kind := by
  cases v <;> simp [At, kind, convert, toInt16, toInt32, toFloat32, toFloat, isTruthy]

def truth (k : Kind) (b : Bool) : Value := (int (if b then 1 else 0)).convert k

end Value
end Yap
