/-! The six scalar kinds and the order in which arithmetic promotes them.
Main statements: `numeric` is idempotent, and `promote` picks an operand's numeric kind of
the greater rank. -/
namespace Yap

/-- The declarable scalar kinds. `char` is a storage kind only: a stored char reads as an int. -/
inductive Kind
  | short | int | float | double | bool | char
deriving DecidableEq, Repr

namespace Kind

def name : Kind → String
  | short => "short"
  | int => "int"
  | float => "float"
  | double => "double"
  | bool => "bool"
  | char => "char"

/-- Every kind, in the order of declaration. -/
def all : List Kind := [short, int, float, double, bool, char]

def ofName? (s : String) : Option Kind := all.find? (·.name = s)

theorem ofName?_name (k : Kind) : ofName? k.name = some k := by cases k <;> decide

/-- The kind that arithmetic uses: bool computes as short and char as int. -/
def numeric : Kind → Kind
  | bool => short
  | char => int
  | k => k

@[simp] theorem numeric_numeric (k : Kind) : k.numeric.numeric = k.numeric := by
  cases k <;> rfl

/-- Position in the order short, int, float, double. -/
def rank (k : Kind) : Nat :=
  match k.numeric with
  | short => 0
  | int => 1
  | float => 2
  | _ => 3

@[simp] theorem rank_numeric (k : Kind) : k.numeric.rank = k.rank := by cases k <;> rfl

/-- The kind of a binary operation: the numeric kind of the operand that ranks higher. -/
def promote (a b : Kind) : Kind :=
  if b.numeric.rank ≤ a.numeric.rank then a.numeric else b.numeric

@[simp] theorem numeric_promote (a b : Kind) : (promote a b).numeric = promote a b := by
  unfold promote; split <;> simp

theorem rank_promote (a b : Kind) : (promote a b).rank = max a.rank b.rank := by
  cases a <;> cases b <;> rfl

theorem promote_comm (a b : Kind) : promote a b = promote b a := by
  cases a <;> cases b <;> rfl

@[simp] theorem promote_self (a : Kind) : promote a a = a.numeric := by simp [promote]

def isFloating : Kind → Bool
  | float | double => true
  | _ => false

def size : Kind → Nat
  | short => 2
  | int | float => 4
  | double => 8
  | bool | char => 1

/-- The kind under which a stored value is read: a char widens to int. -/
def asRead : Kind → Kind
  | char => int
  | k => k

@[simp] theorem asRead_asRead (k : Kind) : k.asRead.asRead = k.asRead := by cases k <;> rfl

end Kind
end Yap
