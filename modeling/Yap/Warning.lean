import Yap.Kind

/-! Recoverable conditions. The operation that meets one has a fallback value; what becomes of
the warning is decided by the policy of the run. -/
namespace Yap

inductive Warning
  | divisionByZero
  | moduloByZero
  | nearZeroDivisor
  | indexOutOfBounds (name : String) (index : Int) (length : Nat)
  | notAnArray (name : String)
  | arrayAsScalar (name : String)
  | missingReturnValue (function : String)
  | functionRedefined (function : String)
  | arrayReallocationFailed (name : String)
  | unsupportedSlorpTarget (name : String) (kind : Kind)
deriving DecidableEq, Repr

def Warning.message : Warning → String
  | divisionByZero => "division by zero"
  | moduloByZero => "modulo by zero"
  | nearZeroDivisor => "division by a value too close to zero"
  | indexOutOfBounds name index length =>
    "array index out of bounds: " ++ name ++ "[" ++ toString index ++ "] with length " ++
      toString length
  | notAnArray name => "`" ++ name ++ "` is not an array"
  | arrayAsScalar name => "array `" ++ name ++ "` used as a scalar value"
  | missingReturnValue function => "function `" ++ function ++ "` did not return a value"
  | functionRedefined function =>
    "function `" ++ function ++ "` is already defined; keeping the first definition"
  | arrayReallocationFailed name =>
    "failed to reallocate array `" ++ name ++ "`; keeping previous storage"
  | unsupportedSlorpTarget name kind =>
    "slorp cannot read into `" ++ name ++ "` of type " ++ kind.name

/-- A result that may be a fallback, with the warning that says so. -/
structure Checked (α : Type) where
  value : α
  warning : Option Warning := none
deriving DecidableEq, Repr

namespace Checked

def clean {α : Type} (a : α) : Checked α := ⟨a, none⟩

def fallback {α : Type} (a : α) (w : Warning) : Checked α := ⟨a, some w⟩

def map {α β : Type} (f : α → β) (c : Checked α) : Checked β := ⟨f c.value, c.warning⟩

@[simp] theorem clean_value {α : Type} (a : α) : (clean a).value = a := rfl
@[simp] theorem clean_warning {α : Type} (a : α) : (clean a).warning = none := rfl
@[simp] theorem fallback_value {α : Type} (a : α) (w : Warning) : (fallback a w).value = a := rfl
@[simp] theorem fallback_warning {α : Type} (a : α) (w : Warning) :
    (fallback a w).warning = some w := rfl
@[simp] theorem map_value {α β : Type} (f : α → β) (c : Checked α) :
    (c.map f).value = f c.value := rfl
@[simp] theorem map_warning {α β : Type} (f : α → β) (c : Checked α) :
    (c.map f).warning = c.warning := rfl

end Checked
end Yap
