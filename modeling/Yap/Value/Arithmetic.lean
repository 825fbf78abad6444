import Yap.Operator
import Yap.Value
import Yap.Warning

/-! Binary operators on promoted values, division guarded against divisors near zero, and
negation. Both operands are converted to the promoted kind and the result has that kind;
comparisons and logic give zero or one. Main statement: the kind of a result is the promotion
of the operands' kinds. -/
namespace Yap.Value

open Numeral

def bit {α : Type} [OfNat α 0] [OfNat α 1] (b : Bool) : α := if b then 1 else 0

/-- An operator on integers of one width. They wrap, and a zero divisor gives zero. -/
def integer {α : Type} [DecidableEq α] [Add α] [Sub α] [Mul α] [Div α] [LT α] [LE α]
    [DecidableLT α] [DecidableLE α] [OfNat α 0] [OfNat α 1]
    (remainder : α → α → α) (op : BinaryOp) (a b : α) : Checked α :=
  match op with
  | .add => .clean (a + b)
  | .sub => .clean (a - b)
  | .mul => .clean (a * b)
  | .div => if b = 0 then .fallback 0 .divisionByZero else .clean (a / b)
  | .mod => if b = 0 then .fallback 0 .moduloByZero else .clean (remainder a b)
  | .lt => .clean (bit (a < b))
  | .gt => .clean (bit (b < a))
  | .le => .clean (bit (a ≤ b))
  | .ge => .clean (bit (b ≤ a))
  | .eq => .clean (bit (a = b))
  | .ne => .clean (bit (a ≠ b))
  | .and => .clean (bit (a ≠ 0 && b ≠ 0))
  | .or => .clean (bit (a ≠ 0 || b ≠ 0))

def remainder16 (unsigned : Bool) (a b : Int16) : Int16 :=
  if unsigned then (a.toUInt16 % b.toUInt16).toInt16 else a % b

def remainder32 (unsigned : Bool) (a b : Int32) : Int32 :=
  if unsigned then (a.toUInt32 % b.toUInt32).toInt32 else a % b

def floating {α : Type} [BEq α] [Add α] [Sub α] [Mul α] [LT α] [LE α]
    [DecidableLT α] [DecidableLE α] [OfNat α 0] [OfNat α 1]
    (divide : α → α → Checked α) (remainder : α → α → α) (op : BinaryOp) (a b : α) : Checked α :=
  match op with
  | .add => .clean (a + b)
  | .sub => .clean (a - b)
  | .mul => .clean (a * b)
  | .div => divide a b
  | .mod => .clean (remainder a b)
  | .lt => .clean (bit (a < b))
  | .gt => .clean (bit (b < a))
  | .le => .clean (bit (a ≤ b))
  | .ge => .clean (bit (b ≤ a))
  | .eq => .clean (bit (a == b))
  | .ne => .clean (bit (!(a == b)))
  | .and => .clean (bit (!(a == 0) && !(b == 0)))
  | .or => .clean (bit (!(a == 0) || !(b == 0)))

def leastNormal : Float := Float.ofBits 0x0010000000000000

def leastNormalSingle : Float32 := Float32.ofBits 0x00800000

/-- Division of doubles. A divisor whose magnitude does not reach the least normal value gives
an infinity, or no number when the numerator is as small. -/
def divide (a b : Float) : Checked Float :=
  if leastNormal ≤ b.abs then .clean (a / b)
  else if a.abs < leastNormal then .fallback (toDouble .nan) .nearZeroDivisor
  else .fallback (toDouble (.infinite !(0 < a))) .nearZeroDivisor

/-- Division of single-width floats, guarded in the same way. -/
def divideSingle (a b : Float32) : Checked Float32 :=
  if leastNormalSingle ≤ b.abs then .clean (a / b)
  else if a.abs < leastNormalSingle then .fallback (toSingle .nan) .nearZeroDivisor
  else .fallback (toSingle (.infinite !(0 < a))) .nearZeroDivisor

/-- A binary operator. `unsigned` selects the remainder of unsigned patterns. -/
def binary (op : BinaryOp) (left right : Value) (unsigned : Bool) : Checked Value :=
  let k := left.kind.promote right.kind
  match op, left.convert k, right.convert k with
  | .and, l, r => .clean (truth k (l.isTruthy && r.isTruthy))
  | .or, l, r => .clean (truth k (l.isTruthy || r.isTruthy))
  | op, short a, short b => (integer (remainder16 unsigned) op a b).map short
  | op, int a, int b => (integer (remainder32 unsigned) op a b).map int
  | op, float a, float b => (floating divideSingle fmodSingle op a b).map float
  | op, double a, double b => (floating divide fmod op a b).map double
  | _, _, _ => .clean (zero k)

/-- Negation. On short and bool it is the logical one: `-0` is one and `-5` is zero. -/
def negate : Value → Value
  | short n => short (bit (n = 0))
  | bool b => bool !b
  | int n => int (-n)
  | float x => float (-x)
  | double x => double (-x)

@[simp] theorem kind_negate (v : Value) : v.negate.kind = v.kind := by cases v <;> rfl

theorem kind_binary (op : BinaryOp) (l r : Value) (u : Bool) :
    (binary op l r u).value.kind = l.kind.promote r.kind := by
  cases l <;> cases r <;> cases op <;> rfl

/-- Sums need no fallback. -/
theorem warning_binary_add (l r : Value) (u : Bool) : (binary .add l r u).warning = none := by
  cases l <;> cases r <;> rfl

end Yap.Value
