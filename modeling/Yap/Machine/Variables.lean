import Yap.Machine.Flow
import Yap.Value.Arithmetic

/-! Variables in a run: declaring, reading, assigning and stepping them, and the elements of
arrays. -/
namespace Yap
namespace Run

def lookup (name : String) : Run Variable := do
  match ← gets (·.chain.find? name) with
  | some x => pure x
  | none => fail (.undefinedVariable name)

def lookupArray (name : String) : Run Variable := do
  match ← gets (·.chain.find? name) with
  | some x => pure x
  | none => fail (.undefinedArray name)

def read (name : String) : Run Value := do
  let x ← Run.lookup name
  settle x.value

def declare (x : Variable) : Run Unit := fun m =>
  match m.chain.declare x with
  | .ok chain => .done () { m with chain := chain }
  | .error c => .stopped (.fault c none) m

def overwrite (name : String) (v : Value) : Run Unit := fun m =>
  match m.chain.assign name v with
  | .ok (chain, w) => reportAny w { m with chain := chain }
  | .error c => .stopped (.fault c none) m

/-- Writes an element of the innermost variable of a name, if that is an array. -/
def writeElement (name : String) (index : Int32) (v : Value) : Run Unit := fun m =>
  match m.chain.writeElement name index v with
  | (chain, .array w) => reportAny w { m with chain := chain }
  | _ => .done () m

def kindOf (e : Expr) : Run Kind := do
  let k ← gets (·.kindOf e)
  ofExcept k

def writable (x : Variable) : Run Unit :=
  if x.modifiers.const then fail (.constAssignment x.name) else pure ()

theorem lookup_eq_done {name : String} {x : Variable} {m m' : Machine} :
    lookup name m = .done x m' ↔ m.chain.find? name = some x ∧ m = m' := by
  rw [lookup, bind_of_done (x := gets _) rfl]
  cases m.chain.find? name <;> simp [pure_apply, fail, stop]

theorem lookup_of_none {name : String} {m : Machine} (h : m.chain.find? name = none) :
    lookup name m = .stopped (.fault (.undefinedVariable name) none) m := by
  rw [lookup, bind_of_done (x := gets _) rfl, h]
  rfl

theorem lookupArray_eq_done {name : String} {x : Variable} {m m' : Machine} :
    lookupArray name m = .done x m' ↔ m.chain.find? name = some x ∧ m = m' := by
  rw [lookupArray, bind_of_done (x := gets _) rfl]
  cases m.chain.find? name <;> simp [pure_apply, fail, stop]

theorem lookupArray_of_none {name : String} {m : Machine} (h : m.chain.find? name = none) :
    lookupArray name m = .stopped (.fault (.undefinedArray name) none) m := by
  rw [lookupArray, bind_of_done (x := gets _) rfl, h]
  rfl

theorem settle_of_warning_none {α : Type} {c : Checked α} (h : c.warning = none) (m : Machine) :
    settle c m = .done c.value m := by
  rw [settle, h]
  rfl

theorem settle_eq_done {α : Type} {c : Checked α} {a : α} {m m' : Machine}
    (h : settle c m = .done a m') : a = c.value := by
  obtain ⟨u, n, -, hn⟩ := bind_eq_done.1 h
  cases hn
  rfl

theorem kindOf_eq_done {e : Expr} {k : Kind} {m m' : Machine} :
    kindOf e m = .done k m' ↔ m.kindOf e = .ok k ∧ m = m' := by
  rw [kindOf, bind_of_done (x := gets _) rfl]
  cases m.kindOf e <;> simp [ofExcept, pure_apply, fail, stop]

theorem writable_eq_done {x : Variable} {u : Unit} {m m' : Machine} :
    writable x m = .done u m' ↔ x.modifiers.const = false ∧ m = m' := by
  rw [writable]
  cases x.modifiers.const <;> simp [pure_apply, fail, stop]

end Run

namespace Runner

/-- Adds to a variable. The result is the value stored, or the old one if that is wanted. -/
def step (operand : Expr) (delta : Int32) (old : Bool) : Run Value :=
  match operand with
  | .ident name => do
    let x ← Run.lookup name
    Run.writable x
    if x.isArray then
      Run.report (.arrayAsScalar name)
      pure (Value.zero x.kind)
    else
      let before ← Run.settle x.value
      let after ← Run.settle
        (Value.binary .add before ((Value.int delta).convert before.kind) false)
      Run.overwrite name after
      let stored ← Run.gets (·.chain.value? name)
      pure (if old then before else stored.getD after)
  | e => Run.fail (.invalidIncrementTarget e.description)

/-- An element of an array. A scalar has none and gives a zero, with a warning. -/
def element (r : Runner) (name : String) (index : Expr) : Run Value := do
  let _ ← Run.lookupArray name
  let i ← r.evalInt index
  let x ← Run.lookupArray name
  match x.buffer? with
  | some b => Run.settle (b.read name i)
  | none => Run.settle (.fallback (Value.zero x.kind) (.notAnArray name))

/-- The bytes that an expression's value takes. A variable has those of its storage; nothing else
is looked at but its kind. -/
def sizeOf (operand : Expr) : Run Value := do
  let size ← match operand with
    | .ident name => do
      let x ← Run.lookup name
      pure x.byteSize
    | .element name _ => do
      let x ← Run.lookupArray name
      pure x.kind.size
    | e => do
      let k ← Run.kindOf e
      pure k.size
  pure (.int (Int32.ofNat (min size 2147483647)))

def declare (r : Runner) (name : String) (kind : Kind) (modifiers : Modifiers)
    (init : Option Expr) : Run Flow := do
  let v ← match init with
    | some e => r.evalAs e kind
    | none => pure (Value.zero kind)
  Run.declare (.scalar name kind v modifiers)
  pure .normal

/-- A new buffer that starts with these values, converted to its kind. -/
def filled? (kind : Kind) (length : Nat) (values : List Value) : Option Buffer :=
  (Buffer.allocate? kind length).map fun b =>
    { b with cells := Buffer.putAll b.cells 0 (values.map (·.convert kind)) }

/-- Binds an array that starts with these values in the current scope. One of its name there is
replaced, or kept if there is no room for another. -/
def install (name : String) (kind : Kind) (modifiers : Modifiers) (length : Nat)
    (values : List Value) : Run Unit := do
  match ← Run.gets (·.chain.current.find? name) with
  | none =>
    match filled? kind length values with
    | none => Run.fail (.allocationFailed name length)
    | some b => Run.declare (.array name b modifiers)
  | some x =>
    if x.isArray then
      match filled? kind length values with
      | none => Run.report (.arrayReallocationFailed name)
      | some b => Run.modify (·.replaceArray (.array name b modifiers) length)
    else Run.fail (.redeclaration name)

def declareArray (r : Runner) (name : String) (kind : Kind) (modifiers : Modifiers)
    (length : Nat) (init : List Expr) : Run Flow := do
  if length < init.length then Run.fail (.arrayInitTooLong name length init.length)
  else
    let values ← r.evalAll kind init
    install name kind modifiers length values
    pure .normal

def assign (r : Runner) (name : String) (value : Expr) : Run Flow := do
  let x ← Run.lookup name
  Run.writable x
  let v ← r.evalAs value x.kind
  Run.overwrite name v
  pure .normal

/-- Assigns to the element at an index of the innermost array of a name. Where there is none the
value is not evaluated. -/
def assignAt (r : Runner) (name : String) (kind : Kind) (i : Int32) (value : Expr) : Run Unit := do
  let x ← Run.gets (·.chain.find? name)
  match x.bind (·.buffer?) with
  | none => Run.report (.notAnArray name)
  | some b =>
    if b.contains i then
      let v ← r.evalAs value kind
      Run.writeElement name i v
    else Run.report (b.outOfBounds name i)

def assignElement (r : Runner) (name : String) (index value : Expr) : Run Flow := do
  let x ← Run.lookupArray name
  Run.writable x
  if x.isArray then
    let i ← r.evalInt index
    r.assignAt name x.kind i value
    pure .normal
  else
    Run.report (.notAnArray name)
    pure .normal

end Runner
end Yap
