import Yap.Proofs.Effects

/-! The shape of a chain is what it tells without its values: the names of each scope in order, and
the kind, modifiers and length of each variable. Expressions change no shape, and statements only
that of the current scope. -/
namespace Yap

/-- All of a variable but its values. Arrays have a length. -/
structure Variable.Shape where
  name : String
  kind : Kind
  modifiers : Modifiers
  length : Option Nat
deriving DecidableEq, Repr

def Variable.shape (x : Variable) : Shape :=
  ⟨x.name, x.kind, x.modifiers, x.buffer?.map (·.length)⟩

namespace Variable

@[simp] theorem shape_setValue (x : Variable) (v : Value) : (x.setValue v).shape = x.shape := by
  cases hs : x.storage with
  | scalar w => simp [setValue, shape, buffer?, hs]
  | array b => simp [setValue, hs]

theorem shape_setBuffer {x : Variable} {b b' : Buffer} (hs : x.storage = .array b)
    (hl : b'.length = b.length) : (x.setBuffer b').shape = x.shape := by
  simp [setBuffer, shape, buffer?, hs, hl]

theorem isArray_eq_shape (x : Variable) : x.isArray = x.shape.length.isSome := by
  rw [isArray, shape, buffer?]
  cases x.storage <;> rfl

theorem isArray_eq_isSome (x : Variable) : x.isArray = x.buffer?.isSome := by
  rw [isArray, buffer?]
  cases x.storage <;> rfl

/-- A variable of the shape of an array is an array of that length. -/
theorem buffer?_of_shape {x y : Variable} {b : Buffer} (h : y.shape = x.shape)
    (hb : x.buffer? = some b) : ∃ b', y.buffer? = some b' ∧ b'.length = b.length := by
  have hlength : y.buffer?.map (·.length) = x.buffer?.map (·.length) := congrArg Shape.length h
  rw [hb] at hlength
  exact Option.map_eq_some_iff.1 hlength

end Variable

namespace Chain

def shapes (c : Chain) : List (List Variable.Shape) := c.scopes.map (·.vars.map Variable.shape)

theorem shapes_update {c : Chain} {name : String} {f : Variable → Variable}
    (h : ∀ x, c.find? name = some x → (f x).shape = x.shape) :
    (c.update name f).shapes = c.shapes := by
  rw [shapes, scopes_update]
  exact map_updateIn Variable.shape h

theorem shapes_enterScope (c : Chain) : c.enterScope.shapes = [] :: c.shapes := rfl

theorem shapes_exitScope {c c' : Chain} (h : c'.shapes.tail = c.shapes) :
    c'.exitScope.shapes = c.shapes := by
  rw [exitScope]
  cases ho : c'.outer with
  | nil => simp [shapes, scopes, ho] at h
  | cons s rest => simpa [shapes, scopes, ho] using h

theorem map_find?_shape (name : String) (xs : List Variable) :
    (xs.find? (·.name = name)).map Variable.shape =
      (xs.map Variable.shape).find? (·.name = name) := by
  rw [List.find?_map]
  rfl

/-- What a name stands for is told by the shape, as far as the shape tells. -/
theorem map_findIn_shape (name : String) (ss : List Scope) :
    (findIn name ss).map Variable.shape =
      (ss.map (·.vars.map Variable.shape)).findSome? fun xs => xs.find? (·.name = name) := by
  induction ss with
  | nil => rfl
  | cons s ss ih =>
    rw [findIn_cons, List.map_cons, List.findSome?_cons, ← map_find?_shape, Scope.find?]
    cases s.vars.find? (·.name = name) with
    | none => exact ih
    | some x => rfl

theorem map_find?_of_shapes {c c' : Chain} (h : c'.shapes = c.shapes) (name : String) :
    (c'.find? name).map Variable.shape = (c.find? name).map Variable.shape := by
  rw [find?, find?, map_findIn_shape, map_findIn_shape, ← shapes, ← shapes, h]

/-- A name that stands for something still does, with the same shape. -/
theorem find?_of_shapes {c c' : Chain} (h : c'.shapes = c.shapes) {name : String} {x : Variable}
    (hx : c.find? name = some x) : ∃ y, c'.find? name = some y ∧ y.shape = x.shape := by
  have hmap := map_find?_of_shapes h name
  rw [hx] at hmap
  exact Option.map_eq_some_iff.1 hmap

end Chain

/-- All scopes have the shape they had, or all but the current one. -/
def SameShapes (m m' : Machine) : Prop := m'.chain.shapes = m.chain.shapes

def SameOuter (m m' : Machine) : Prop := m'.chain.shapes.tail = m.chain.shapes.tail

namespace SameShapes

theorem of_chain_eq {m m' : Machine} (h : m'.chain = m.chain) : SameShapes m m' := by
  rw [SameShapes, h]

theorem update {m : Machine} {name : String} {x : Variable} {f : Variable → Variable}
    (hx : m.chain.find? name = some x) (hf : (f x).shape = x.shape) :
    SameShapes m { m with chain := m.chain.update name f } := by
  refine Chain.shapes_update fun y hy => ?_
  have hxy : x = y := Option.some.inj (hx.symm.trans hy)
  exact hxy ▸ hf

theorem effects : Effects SameShapes SameOuter where
  refl _ := rfl
  trans h₁ h₂ := Eq.trans h₂ h₁
  transQ h₁ h₂ := Eq.trans h₂ h₁
  weaken h := congrArg List.tail h
  note m e := of_chain_eq (by simp)
  write _ _ _ := rfl
  record m w := of_chain_eq (by simp)
  advance _ _ := rfl
  setValue v hx _ _ := update hx (by simp)
  setElement i v hx hs := update hx (Variable.shape_setBuffer hs (by simp))
  setText hx hs _ _ hb := update hx (Variable.shape_setBuffer hs (Buffer.store?_eq_some hb).2)
  declare _ hc := by
    obtain ⟨-, rfl⟩ := Chain.declare_eq_ok.1 hc
    rfl
  replaceArray _ _ _ _ _ := rfl
  register m d := by simp [SameOuter]
  scope {m m'} h := by
    have hs : m'.chain.shapes.tail = m.chain.shapes := by
      simpa [SameOuter, Chain.shapes_enterScope] using h
    simpa [SameShapes] using Chain.shapes_exitScope hs
  frame k {m m'} h := by simpa [SameShapes] using h
  frameQ k {m m'} h := by simpa [SameOuter] using h
  call hc h := by
    obtain ⟨-, rfl⟩ := Chain.enterCall_eq_ok.1 hc
    exact h
  line _ _ _ h := h

end SameShapes
end Yap
