import Yap.Modifiers
import Yap.Store.Buffer

/-! Variables: a name bound to a scalar, held at the declared kind, or to an array. -/
namespace Yap

inductive Storage
  | scalar (v : Value)
  | array (b : Buffer)

structure Variable where
  name : String
  kind : Kind
  modifiers : Modifiers
  storage : Storage

namespace Variable

/-- A scalar variable; the value is converted to the declared kind. -/
def scalar (name : String) (kind : Kind) (v : Value) (modifiers : Modifiers) : Variable :=
  ⟨name, kind, modifiers, .scalar (v.convert kind)⟩

def array (name : String) (b : Buffer) (modifiers : Modifiers) : Variable :=
  ⟨name, b.kind, modifiers, .array b⟩

def isArray (x : Variable) : Bool :=
  match x.storage with
  | .array _ => true
  | .scalar _ => false

def buffer? (x : Variable) : Option Buffer :=
  match x.storage with
  | .array b => some b
  | .scalar _ => none

def scalar? (x : Variable) : Option Value :=
  match x.storage with
  | .scalar v => some v
  | .array _ => none

/-- The value of a scalar. An array reads as a zero, with a warning. -/
def value (x : Variable) : Checked Value :=
  match x.storage with
  | .scalar v => .clean v
  | .array _ => .fallback (Value.zero x.kind) (.arrayAsScalar x.name)

def byteSize (x : Variable) : Nat :=
  match x.storage with
  | .scalar _ => x.kind.size
  | .array b => b.byteSize

/-- The variable with another value, converted to its kind. An array stays as it is. -/
def setValue (x : Variable) (v : Value) : Variable :=
  match x.storage with
  | .scalar _ => { x with storage := .scalar (v.convert x.kind) }
  | .array _ => x

/-- The variable with another buffer. A scalar stays as it is. -/
def setBuffer (x : Variable) (b : Buffer) : Variable :=
  match x.storage with
  | .array _ => { x with storage := .array b }
  | .scalar _ => x

theorem buffer?_eq_some {x : Variable} {b : Buffer} :
    x.buffer? = some b ↔ x.storage = .array b := by
  rw [buffer?]
  split <;> simp_all

def WellKinded (x : Variable) : Prop :=
  match x.storage with
  | .scalar v => v.At x.kind
  | .array b => b.kind = x.kind ∧ b.WellKinded

theorem wellKinded_scalar (name : String) (kind : Kind) (v : Value) (m : Modifiers) :
    (scalar name kind v m).WellKinded := Value.at_convert v kind

theorem wellKinded_array {b : Buffer} (h : b.WellKinded) (name : String) (m : Modifiers) :
    (array name b m).WellKinded := ⟨rfl, h⟩

theorem WellKinded.setValue {x : Variable} (h : x.WellKinded) (v : Value) :
    (x.setValue v).WellKinded := by
  cases hs : x.storage with
  | scalar w => simpa [Variable.setValue, hs, WellKinded] using Value.at_convert v x.kind
  | array b => simpa [Variable.setValue, hs] using h

theorem WellKinded.kind_value {x : Variable} (h : x.WellKinded) :
    x.value.value.kind = x.kind.asRead := by
  rw [Variable.value]
  cases hs : x.storage with
  | scalar v =>
    simp only [WellKinded, hs] at h
    exact h.kind_eq
  | array b => exact Value.kind_zero x.kind

theorem WellKinded.kind_scalar? {x : Variable} (h : x.WellKinded) {v : Value}
    (hv : x.scalar? = some v) : v.kind = x.kind.asRead := by
  rw [Variable.scalar?] at hv
  cases hs : x.storage with
  | scalar w =>
    simp only [hs, Option.some.injEq] at hv
    simp only [WellKinded, hs] at h
    exact hv ▸ h.kind_eq
  | array b => simp [hs] at hv

theorem WellKinded.of_buffer? {x : Variable} (h : x.WellKinded) {b : Buffer}
    (hb : x.buffer? = some b) : b.kind = x.kind ∧ b.WellKinded := by
  simpa [WellKinded, buffer?_eq_some.1 hb] using h

theorem scalar?_isSome {x : Variable} (h : x.isArray = false) : x.scalar?.isSome := by
  rw [isArray] at h
  rw [scalar?]
  cases hs : x.storage with
  | scalar v => rfl
  | array b => simp [hs] at h

@[simp] theorem name_setValue (x : Variable) (v : Value) : (x.setValue v).name = x.name := by
  unfold setValue; split <;> rfl

@[simp] theorem name_setBuffer (x : Variable) (b : Buffer) : (x.setBuffer b).name = x.name := by
  unfold setBuffer; split <;> rfl

end Variable
end Yap
