import Yap.Fault
import Yap.Store.Scope

/-! The scope chain: live scopes searched from the innermost, with the totals of scopes entered
and exited and the count of active calls. Main statements: there is always a scope, the depth
is one more than the scopes entered and not exited, and the count of calls keeps its limit. -/
namespace Yap

/-- The live scopes: the current one and those around it, the global one last. -/
structure Chain where
  current : Scope := .empty
  outer : List Scope := []
  entered : Nat := 0
  exited : Nat := 0
  calls : Nat := 0
  limit : Nat := 1000

namespace Chain

/-- A chain of the global scope alone, with a limit on nested calls. -/
def new (limit : Nat) : Chain := { limit := limit }

def scopes (c : Chain) : List Scope := c.current :: c.outer

def depth (c : Chain) : Nat := c.outer.length + 1

def isGlobal (c : Chain) : Bool := c.outer.isEmpty

def globals (c : Chain) : Scope := c.outer.getLast?.getD c.current

def enterScope (c : Chain) : Chain :=
  { c with current := .empty, outer := c.current :: c.outer, entered := c.entered + 1 }

/-- Drops the current scope. The global scope stays. -/
def exitScope (c : Chain) : Chain :=
  match c.outer with
  | [] => c
  | s :: rest => { c with current := s, outer := rest, exited := c.exited + 1 }

/-- Counts one more active call, up to the limit. -/
def enterCall (c : Chain) : Except Cause Chain :=
  if c.limit ≤ c.calls then .error (.stackOverflow (c.calls + 1) c.limit)
  else .ok { c with calls := c.calls + 1 }

def exitCall (c : Chain) : Chain := { c with calls := c.calls - 1 }

/-- The variable of a name in a list of scopes, the first scope first. -/
def findIn (name : String) (ss : List Scope) : Option Variable := ss.findSome? (·.find? name)

/-- The innermost variable of a name. -/
def find? (c : Chain) (name : String) : Option Variable := findIn name c.scopes

def contains (c : Chain) (name : String) : Bool := (c.find? name).isSome

/-- The value of the innermost variable of a name, if that is a scalar. -/
def value? (c : Chain) (name : String) : Option Value := (c.find? name).bind (·.scalar?)

def names (c : Chain) : List String := c.current.names

/-- Binds a variable in the current scope, where its name must be free. -/
def declare (c : Chain) (x : Variable) : Except Cause Chain :=
  if c.current.contains x.name then .error (.redeclaration x.name)
  else .ok { c with current := c.current.insert x }

/-- Changes the variable of a name in the first scope that has one. -/
def updateIn (name : String) (f : Variable → Variable) : List Scope → List Scope
  | [] => []
  | s :: ss => if s.contains name then s.update name f :: ss else s :: updateIn name f ss

def update (c : Chain) (name : String) (f : Variable → Variable) : Chain :=
  if c.current.contains name then { c with current := c.current.update name f }
  else { c with outer := updateIn name f c.outer }

def replaceCurrent (c : Chain) (x : Variable) : Chain := { c with current := c.current.insert x }

/-- Overwrites the innermost scalar of a name. An array keeps its cells, with a warning. -/
def assign (c : Chain) (name : String) (v : Value) : Except Cause (Chain × Option Warning) :=
  match c.find? name with
  | none => .error (.undefinedVariable name)
  | some x =>
    if x.modifiers.const then .error (.constAssignment name)
    else if x.isArray then .ok (c, some (.arrayAsScalar name))
    else .ok (c.update name (·.setValue v), none)

inductive ElementWrite
  | undefined
  | scalar
  | array (w : Option Warning)

def writeElement (c : Chain) (name : String) (index : Int32) (v : Value) : Chain × ElementWrite :=
  match c.find? name with
  | none => (c, .undefined)
  | some x =>
    match x.storage with
    | .scalar _ => (c, .scalar)
    | .array b =>
      (c.update name (·.setBuffer (b.write name index v).1), .array (b.write name index v).2)

theorem findIn_cons (name : String) (s : Scope) (ss : List Scope) :
    findIn name (s :: ss) = (s.find? name).or (findIn name ss) := by
  cases h : s.find? name <;> simp [findIn, h]

theorem scopes_exitScope {c : Chain} (h : 1 < c.depth) : c.exitScope.scopes = c.outer := by
  rw [exitScope]
  cases ho : c.outer with
  | nil => simp [depth, ho] at h
  | cons s rest => rfl

@[simp] theorem entered_exitScope (c : Chain) : c.exitScope.entered = c.entered := by
  unfold exitScope; split <;> rfl

@[simp] theorem calls_exitScope (c : Chain) : c.exitScope.calls = c.calls := by
  unfold exitScope; split <;> rfl

@[simp] theorem limit_exitScope (c : Chain) : c.exitScope.limit = c.limit := by
  unfold exitScope; split <;> rfl

theorem findIn_updateIn (name other : String) (f : Variable → Variable)
    (hf : ∀ x, x.name = name → (f x).name = name) (ss : List Scope) :
    findIn other (updateIn name f ss) =
      if other = name then (findIn other ss).map f else findIn other ss := by
  induction ss with
  | nil => simp [updateIn, findIn]
  | cons s ss ih =>
    rw [updateIn]
    split
    · rename_i h
      rw [findIn_cons, findIn_cons, Scope.find?_update s name other f hf]
      by_cases ho : other = name
      · subst ho
        obtain ⟨x, hx⟩ := Option.isSome_iff_exists.1 ((Scope.find?_isSome s other).trans h)
        simp [hx]
      · simp [ho]
    · rename_i h
      rw [findIn_cons, findIn_cons, ih]
      by_cases ho : other = name
      · subst ho
        have hn : s.find? other = none := by
          rw [← Option.not_isSome_iff_eq_none, Scope.find?_isSome]
          exact h
        simp [hn]
      · simp [ho]

theorem scopes_update (c : Chain) (name : String) (f : Variable → Variable) :
    (c.update name f).scopes = updateIn name f c.scopes := by
  unfold update scopes
  rw [updateIn]
  split <;> rfl

/-- An update is seen under its name and under no other. -/
theorem find?_update (c : Chain) (name other : String) (f : Variable → Variable)
    (hf : ∀ x, x.name = name → (f x).name = name) :
    (c.update name f).find? other =
      if other = name then (c.find? other).map f else c.find? other := by
  rw [find?, find?, scopes_update, findIn_updateIn name other f hf]

def Has (c : Chain) (x : Variable) : Prop := ∃ s ∈ c.scopes, x ∈ s.vars

theorem has_of_find? {c : Chain} {name : String} {x : Variable} (h : c.find? name = some x) :
    c.Has x := by
  obtain ⟨s, hs, hx⟩ := List.exists_of_findSome?_eq_some h
  exact ⟨s, hs, List.mem_of_find?_eq_some hx⟩

theorem has_updateIn {name : String} {f : Variable → Variable} {ss : List Scope} {x y : Variable}
    (hx : findIn name ss = some x) (h : ∃ s ∈ updateIn name f ss, y ∈ s.vars) :
    (∃ s ∈ ss, y ∈ s.vars) ∨ y = f x := by
  induction ss with
  | nil => cases hx
  | cons s ss ih =>
    rw [findIn_cons] at hx
    rw [updateIn] at h
    by_cases hc : s.contains name
    · obtain ⟨z, hz⟩ := Option.isSome_iff_exists.1 ((Scope.find?_isSome s name).trans hc)
      have hzx : z = x := by simpa [hz] using hx
      rw [if_pos hc] at h
      obtain ⟨s', hs', hy⟩ := h
      rcases List.mem_cons.1 hs' with rfl | hs'
      · rcases Scope.mem_updateFirst hy with hy | ⟨w, hw, hy⟩
        · exact Or.inl ⟨s, List.mem_cons_self, hy⟩
        · have hwz : w = z := Option.some.inj (hw.symm.trans hz)
          exact Or.inr (by rw [hy, hwz, hzx])
      · exact Or.inl ⟨s', List.mem_cons_of_mem s hs', hy⟩
    · have hn : s.find? name = none := by
        rw [← Option.not_isSome_iff_eq_none, Scope.find?_isSome]
        exact hc
      rw [hn] at hx
      rw [if_neg hc] at h
      obtain ⟨s', hs', hy⟩ := h
      rcases List.mem_cons.1 hs' with rfl | hs'
      · exact Or.inl ⟨s', List.mem_cons_self, hy⟩
      · rcases ih hx ⟨s', hs', hy⟩ with ⟨t, ht, hy⟩ | hy
        · exact Or.inl ⟨t, List.mem_cons_of_mem s ht, hy⟩
        · exact Or.inr hy

/-- Where a variable is changed, the others are those there were. -/
theorem has_update {c : Chain} {name : String} {f : Variable → Variable} {x y : Variable}
    (hx : c.find? name = some x) (h : (c.update name f).Has y) : c.Has y ∨ y = f x := by
  rw [Has, scopes_update] at h
  exact has_updateIn hx h

theorem has_enterScope {c : Chain} {x : Variable} : c.enterScope.Has x ↔ c.Has x := by
  simp [Has, scopes, enterScope, Scope.empty]

theorem has_exitScope {c : Chain} {x : Variable} (h : c.exitScope.Has x) : c.Has x := by
  rw [exitScope] at h
  split at h
  · exact h
  · rename_i s rest ho
    obtain ⟨s', hs', hx⟩ := h
    exact ⟨s', List.mem_cons_of_mem _ (ho ▸ hs'), hx⟩

theorem map_updateIn {β : Type} (g : Variable → β) {name : String} {f : Variable → Variable}
    {ss : List Scope} (h : ∀ x, findIn name ss = some x → g (f x) = g x) :
    (updateIn name f ss).map (·.vars.map g) = ss.map (·.vars.map g) := by
  induction ss with
  | nil => rfl
  | cons s ss ih =>
    rw [updateIn]
    by_cases hc : s.contains name
    · have hs : (s.update name f).vars.map g = s.vars.map g := by
        refine Scope.map_updateFirst g fun x hx => h x ?_
        rw [findIn_cons, Scope.find?, hx]
        rfl
      rw [if_pos hc, List.map_cons, List.map_cons, hs]
    · have hn : s.find? name = none := by
        rw [← Option.not_isSome_iff_eq_none, Scope.find?_isSome]
        exact hc
      rw [if_neg hc, List.map_cons, List.map_cons, ih]
      intro x hx
      refine h x ?_
      rw [findIn_cons, hn]
      exact hx

theorem length_updateIn (name : String) (f : Variable → Variable) (ss : List Scope) :
    (updateIn name f ss).length = ss.length := by
  induction ss with
  | nil => rfl
  | cons s ss ih =>
    rw [updateIn]
    split
    · rfl
    · simp [ih]

@[simp] theorem depth_update (c : Chain) (name : String) (f : Variable → Variable) :
    (c.update name f).depth = c.depth := by
  rw [update]
  split
  · rfl
  · simp [depth, length_updateIn]

@[simp] theorem entered_update (c : Chain) (name : String) (f : Variable → Variable) :
    (c.update name f).entered = c.entered := by unfold update; split <;> rfl

@[simp] theorem exited_update (c : Chain) (name : String) (f : Variable → Variable) :
    (c.update name f).exited = c.exited := by unfold update; split <;> rfl

@[simp] theorem calls_update (c : Chain) (name : String) (f : Variable → Variable) :
    (c.update name f).calls = c.calls := by unfold update; split <;> rfl

@[simp] theorem limit_update (c : Chain) (name : String) (f : Variable → Variable) :
    (c.update name f).limit = c.limit := by unfold update; split <;> rfl

theorem declare_eq_ok {c c' : Chain} {x : Variable} : c.declare x = .ok c' ↔
    c.current.contains x.name = false ∧ c' = { c with current := c.current.insert x } := by
  rw [declare]
  cases c.current.contains x.name <;> simp [eq_comm]

theorem enterCall_eq_ok {c c' : Chain} :
    c.enterCall = .ok c' ↔ c.calls < c.limit ∧ c' = { c with calls := c.calls + 1 } := by
  rw [enterCall]
  split
  · simp; omega
  · simp [eq_comm]; omega

/-- The depth tells the scopes entered and not exited; the calls keep their limit. -/
def Balanced (c : Chain) : Prop := c.depth + c.exited = c.entered + 1 ∧ c.calls ≤ c.limit

theorem balanced_new (limit : Nat) : (new limit).Balanced := by
  simp [Balanced, new, depth]

theorem Balanced.enterScope {c : Chain} (h : c.Balanced) : c.enterScope.Balanced := by
  simp only [Balanced, Chain.enterScope, depth, List.length_cons] at *
  omega

theorem Balanced.exitScope {c : Chain} (h : c.Balanced) : c.exitScope.Balanced := by
  rw [Chain.exitScope]
  split
  · exact h
  · rename_i s rest hc
    simp only [Balanced, depth, hc, List.length_cons] at *
    omega

theorem Balanced.enterCall {c c' : Chain} (h : c.Balanced) (he : c.enterCall = .ok c') :
    c'.Balanced := by
  rw [Chain.enterCall] at he
  split at he
  · cases he
  · cases he
    simp only [Balanced, depth] at *
    omega

theorem Balanced.exitCall {c : Chain} (h : c.Balanced) : c.exitCall.Balanced := by
  simp only [Balanced, Chain.exitCall, depth] at *
  omega

end Chain
end Yap
