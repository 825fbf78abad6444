import Yap.Store.Chain

/-! Variables by their place: the scope, counted from the current one outward, and the place in the
order of declaration there. A change of the store leaves all places alone but one. -/
namespace Yap

namespace Scope

/-- Changing the first variable of a name leaves all others where they are. -/
theorem getElem?_updateFirst {name : String} {f : Variable → Variable} {xs : List Variable} {j : Nat}
    {x : Variable} (h : xs[j]? = some x) :
    (updateFirst name f xs)[j]? = some x ∨ xs.find? (·.name = name) = some x := by
  induction xs generalizing j with
  | nil => cases h
  | cons y ys ih =>
    rw [updateFirst]
    by_cases hy : y.name = name
    · rw [if_pos hy]
      cases j with
      | zero => exact Or.inr (by simpa [hy] using h)
      | succ j => exact Or.inl h
    · rw [if_neg hy]
      cases j with
      | zero => exact Or.inl h
      | succ j => simpa [List.find?_cons, hy] using ih (j := j) h

theorem getElem?_insert {s : Scope} {x y : Variable} {j : Nat} (h : s.vars[j]? = some y) :
    (s.insert x).vars[j]? = some y ∨ s.find? x.name = some y := by
  rw [insert]
  by_cases hc : s.contains x.name
  · rw [if_pos hc]
    exact getElem?_updateFirst h
  · rw [if_neg hc]
    obtain ⟨hj, -⟩ := List.getElem?_eq_some_iff.1 h
    exact Or.inl (by rw [List.getElem?_append_left hj, h])

end Scope

namespace Chain

theorem name_of_find? {c : Chain} {name : String} {x : Variable} (h : c.find? name = some x) :
    x.name = name := by
  obtain ⟨s, -, hx⟩ := List.exists_of_findSome?_eq_some h
  exact Scope.name_of_find? hx

/-- A variable by the place of its scope, counted from the current one outward, and its own place
there in the order of declaration. -/
def var? (c : Chain) (i j : Nat) : Option Variable := c.scopes[i]?.bind (·.vars[j]?)

theorem var?_succ (c : Chain) (i j : Nat) :
    c.var? (i + 1) j = c.outer[i]?.bind (·.vars[j]?) := rfl

theorem var?_enterScope (c : Chain) (i j : Nat) : c.enterScope.var? (i + 1) j = c.var? i j := rfl

theorem var?_exitScope {c : Chain} {i j : Nat} {x : Variable} (h : c.var? (i + 1) j = some x) :
    c.exitScope.var? i j = some x := by
  rw [exitScope]
  cases ho : c.outer with
  | nil => simp [var?_succ, ho] at h
  | cons s rest =>
    rw [var?_succ, ho] at h
    exact h

theorem var?_updateIn {name : String} {f : Variable → Variable} {ss : List Scope} {i j : Nat}
    {x : Variable} (h : ss[i]?.bind (·.vars[j]?) = some x) :
    (updateIn name f ss)[i]?.bind (·.vars[j]?) = some x ∨ findIn name ss = some x := by
  induction ss generalizing i with
  | nil => cases h
  | cons s ss ih =>
    rw [updateIn, findIn_cons]
    by_cases hs : s.contains name
    · rw [if_pos hs]
      cases i with
      | zero =>
        rcases @Scope.getElem?_updateFirst name f s.vars j x h with h | h
        · exact Or.inl h
        · exact Or.inr (by rw [Scope.find?, h]; rfl)
      | succ i => exact Or.inl h
    · have hn : s.find? name = none := by
        rw [← Option.not_isSome_iff_eq_none, Scope.find?_isSome]
        exact hs
      rw [if_neg hs, hn]
      cases i with
      | zero => exact Or.inl h
      | succ i => exact ih h

/-- An update changes what its name stands for and nothing else. -/
theorem var?_update {c : Chain} {name : String} (f : Variable → Variable) {i j : Nat}
    {x : Variable} (h : c.var? i j = some x) :
    (c.update name f).var? i j = some x ∨ c.find? name = some x := by
  rw [var?, scopes_update]
  exact var?_updateIn h

theorem var?_replaceCurrent {c : Chain} (y : Variable) {i j : Nat} {x : Variable}
    (h : c.var? i j = some x) :
    (c.replaceCurrent y).var? i j = some x ∨ i = 0 ∧ c.current.find? y.name = some x := by
  cases i with
  | succ i => exact Or.inl h
  | zero =>
    rcases Scope.getElem?_insert (s := c.current) (x := y) h with h | h
    · exact Or.inl h
    · exact Or.inr ⟨rfl, h⟩

end Chain

end Yap
