import Yap.Store.Variable

/-! A scope binds names to variables and remembers the order of declaration. Main statements:
a new name goes to the end, a name bound again keeps its place, and other names keep their
variables. -/
namespace Yap

/-- The variables of a scope in the order of their declaration. -/
structure Scope where
  vars : List Variable := []

namespace Scope

def empty : Scope := {}

def names (s : Scope) : List String := s.vars.map (·.name)

def find? (s : Scope) (name : String) : Option Variable := s.vars.find? (·.name = name)

def contains (s : Scope) (name : String) : Bool := s.vars.any (·.name = name)

def updateFirst (name : String) (f : Variable → Variable) : List Variable → List Variable
  | [] => []
  | x :: xs => if x.name = name then f x :: xs else x :: updateFirst name f xs

def update (s : Scope) (name : String) (f : Variable → Variable) : Scope :=
  ⟨updateFirst name f s.vars⟩

/-- Binds a variable, in the place of an earlier one of its name. -/
def insert (s : Scope) (x : Variable) : Scope :=
  if s.contains x.name then s.update x.name fun _ => x else ⟨s.vars ++ [x]⟩

theorem contains_iff (s : Scope) (name : String) : s.contains name = true ↔ name ∈ s.names := by
  simp [contains, names]

theorem find?_isSome (s : Scope) (name : String) : (s.find? name).isSome = s.contains name := by
  simp [find?, contains, List.isSome_find?]

theorem name_of_find? {s : Scope} {name : String} {x : Variable} (h : s.find? name = some x) :
    x.name = name := by
  simpa using List.find?_some h

theorem map_name_updateFirst (name : String) (f : Variable → Variable)
    (hf : ∀ x, x.name = name → (f x).name = name) (xs : List Variable) :
    (updateFirst name f xs).map (·.name) = xs.map (·.name) := by
  induction xs with
  | nil => rfl
  | cons x xs ih =>
    rw [updateFirst]
    split
    · rename_i h; simp [hf x h, h]
    · simp [ih]

theorem mem_updateFirst {name : String} {f : Variable → Variable} {xs : List Variable}
    {y : Variable} (h : y ∈ updateFirst name f xs) :
    y ∈ xs ∨ ∃ x, xs.find? (·.name = name) = some x ∧ y = f x := by
  induction xs with
  | nil => cases h
  | cons x xs ih =>
    rw [updateFirst] at h
    by_cases hx : x.name = name
    · rw [if_pos hx] at h
      rcases List.mem_cons.1 h with rfl | h
      · exact Or.inr ⟨x, by simp [hx], rfl⟩
      · exact Or.inl (List.mem_cons_of_mem x h)
    · rw [if_neg hx] at h
      rcases List.mem_cons.1 h with rfl | h
      · exact Or.inl List.mem_cons_self
      · rcases ih h with h | h
        · exact Or.inl (List.mem_cons_of_mem x h)
        · exact Or.inr (by simpa [List.find?_cons, hx] using h)

/-- A change that a property of the changed variable does not see is not seen by it anywhere. -/
theorem map_updateFirst {β : Type} (g : Variable → β) {name : String} {f : Variable → Variable}
    {xs : List Variable} (h : ∀ x, xs.find? (·.name = name) = some x → g (f x) = g x) :
    (updateFirst name f xs).map g = xs.map g := by
  induction xs with
  | nil => rfl
  | cons x xs ih =>
    rw [updateFirst]
    by_cases hx : x.name = name
    · rw [if_pos hx, List.map_cons, List.map_cons, h x (by simp [hx])]
    · have ht : ∀ y, xs.find? (·.name = name) = some y → g (f y) = g y :=
        fun y hy => h y (by simpa [List.find?_cons, hx] using hy)
      rw [if_neg hx, List.map_cons, List.map_cons, ih ht]

/-- Changing a variable moves no name. -/
theorem names_update (s : Scope) (name : String) (f : Variable → Variable)
    (hf : ∀ x, x.name = name → (f x).name = name) : (s.update name f).names = s.names :=
  map_name_updateFirst name f hf s.vars

theorem find?_update (s : Scope) (name other : String) (f : Variable → Variable)
    (hf : ∀ x, x.name = name → (f x).name = name) :
    (s.update name f).find? other =
      if other = name then (s.find? other).map f else s.find? other := by
  rcases s with ⟨xs⟩
  simp only [find?, update]
  induction xs with
  | nil => simp [updateFirst]
  | cons x xs ih =>
    rw [updateFirst]
    by_cases hx : x.name = name
    · by_cases ho : other = name
      · subst ho; simp [hx, hf x hx]
      · have h1 : ¬ x.name = other := fun h => ho (h ▸ hx)
        have h2 : ¬ (f x).name = other := fun h => ho (h ▸ hf x hx)
        simp [hx, ho, Ne.symm ho, hf x hx]
    · by_cases ho : x.name = other
      · have : ¬ other = name := fun h => hx (ho.trans h)
        simp [ho, this]
      · simp [hx, ho, ih]

theorem names_insert_of_contains {s : Scope} {x : Variable} (h : s.contains x.name = true) :
    (s.insert x).names = s.names := by
  rw [insert, if_pos h]
  exact names_update s x.name _ fun _ _ => rfl

theorem names_insert_of_not_contains {s : Scope} {x : Variable} (h : s.contains x.name = false) :
    (s.insert x).names = s.names ++ [x.name] := by
  simp [insert, h, names]

theorem find?_insert_self (s : Scope) (x : Variable) : (s.insert x).find? x.name = some x := by
  rw [insert]
  split
  · rename_i h
    rw [find?_update s x.name x.name _ fun _ _ => rfl]
    obtain ⟨y, hy⟩ := Option.isSome_iff_exists.1 ((find?_isSome s x.name).trans h)
    simp [hy]
  · rename_i h
    have hn : s.vars.find? (·.name = x.name) = none := by
      have := find?_isSome s x.name
      rw [find?] at this
      rw [← Option.not_isSome_iff_eq_none, this]
      exact h
    simp [find?, List.find?_append, hn]

theorem find?_insert_of_ne (s : Scope) {x : Variable} {name : String} (h : name ≠ x.name) :
    (s.insert x).find? name = s.find? name := by
  rw [insert]
  split
  · rw [find?_update s x.name name _ fun _ _ => rfl, if_neg h]
  · simp [find?, List.find?_append, Ne.symm h]

theorem mem_insert {s : Scope} {x y : Variable} (h : y ∈ (s.insert x).vars) :
    y ∈ s.vars ∨ y = x := by
  rw [insert] at h
  split at h
  · rcases mem_updateFirst h with h | ⟨z, -, h⟩
    · exact Or.inl h
    · exact Or.inr h
  · simpa using h

end Scope
end Yap
