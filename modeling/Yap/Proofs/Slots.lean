import Yap.Proofs.Places

/-! Places in the store: the cells of a buffer, and the place that a name stands for, which is that
of its first variable in the innermost scope that has one. Main statement: an update changes what is
at that place and leaves every other place as it is. -/
namespace Yap

namespace Buffer

theorem place?_eq_some {index : Int32} {i : Nat} : place? index = some i ↔ index.toInt = i := by
  rw [place?]
  split
  · rw [Option.some.injEq]
    omega
  · simp only [reduceCtorEq, false_iff]
    omega

theorem place?_eq_none {index : Int32} : place? index = none ↔ ¬ 0 ≤ index.toInt := by
  rw [place?]
  split <;> simp_all

/-- Values put where there is room for them are read back, and other cells are left alone. -/
theorem getElem?_putAll {cells : Array Value} {i : Nat} {vs : List Value}
    (h : i + vs.length ≤ cells.size) (j : Nat) :
    (putAll cells i vs)[j]? = if j < i then cells[j]? else (vs[j - i]?).or cells[j]? := by
  induction vs generalizing cells i with
  | nil => simp [putAll]
  | cons v vs ih =>
    have hroom : i + 1 + vs.length ≤ (cells.setIfInBounds i v).size := by
      simp only [List.length_cons, Array.size_setIfInBounds] at h ⊢
      omega
    rw [putAll, ih hroom]
    rcases Nat.lt_trichotomy j i with hj | rfl | hj
    · rw [if_pos (by omega), if_pos hj, Array.getElem?_setIfInBounds_ne (by omega)]
    · have hin : j < cells.size := by
        simp only [List.length_cons] at h
        omega
      simp [hin]
    · have hsucc : j - i = j - (i + 1) + 1 := by omega
      rw [if_neg (by omega), if_neg (by omega), hsucc, List.getElem?_cons_succ,
        Array.getElem?_setIfInBounds_ne (by omega)]

theorem store?_isSome {b : Buffer} {bytes : List UInt8} :
    (b.store? bytes).isSome ↔ b.kind = .char ∧ bytes.length < b.length := by
  rw [store?]
  split <;> simp_all

/-- The cells behind bytes that are stored, with a zero behind them, are left alone. -/
theorem get?_of_store? {b b' : Buffer} {bytes : List UInt8} (h : b.store? bytes = some b')
    (i : Nat) : b'.get? i = ((bytes.map ofByte ++ [Value.int 0])[i]?).or (b.get? i) := by
  rw [store?] at h
  split at h
  · rename_i hfits
    cases h
    have hroom : 0 + (bytes.map ofByte ++ [Value.int 0]).length ≤ b.cells.size := by
      have := hfits.2
      simp only [length] at this
      simp
      omega
    rw [get?, getElem?_putAll hroom, if_neg (Nat.not_lt_zero i)]
    rfl
  · cases h

end Buffer

namespace Scope

/-- The place of the first variable of a name, in the order of declaration. -/
def place? (s : Scope) (name : String) : Option Nat := s.vars.findIdx? (·.name = name)

theorem isSome_place? (s : Scope) (name : String) : (s.place? name).isSome = s.contains name := by
  simp [place?, contains, List.findIdx?_isSome]

theorem find?_eq_bind_place? (s : Scope) (name : String) :
    s.find? name = (s.place? name).bind (s.vars[·]?) := by
  rcases s with ⟨xs⟩
  simp only [find?, place?]
  induction xs with
  | nil => rfl
  | cons x xs ih =>
    rw [List.findIdx?_cons, List.find?_cons]
    by_cases hx : x.name = name
    · simp [hx]
    · simp only [hx, decide_false, Bool.false_eq_true, if_false, Option.bind_map, ih]
      rfl

theorem getElem?_updateFirst_eq (name : String) (f : Variable → Variable) (xs : List Variable)
    (j : Nat) :
    (updateFirst name f xs)[j]? =
      if xs.findIdx? (·.name = name) = some j then xs[j]?.map f else xs[j]? := by
  induction xs generalizing j with
  | nil => simp [updateFirst]
  | cons x xs ih =>
    rw [updateFirst, List.findIdx?_cons]
    by_cases hx : x.name = name
    · cases j with
      | zero => simp [hx]
      | succ j => simp [hx]
    · cases j with
      | zero => simp [hx]
      | succ j => simp [hx, ih j]

end Scope

namespace Chain

/-- The place of the first variable of a name in the first scope that has one. -/
def placeIn (name : String) : List Scope → Option (Nat × Nat)
  | [] => none
  | s :: ss =>
    match s.place? name with
    | some j => some (0, j)
    | none => (placeIn name ss).map fun p => (p.1 + 1, p.2)

def place? (c : Chain) (name : String) : Option (Nat × Nat) := placeIn name c.scopes

theorem findIn_eq_bind_placeIn (name : String) (ss : List Scope) :
    findIn name ss = (placeIn name ss).bind fun p => ss[p.1]?.bind (·.vars[p.2]?) := by
  induction ss with
  | nil => rfl
  | cons s ss ih =>
    rw [findIn_cons, placeIn, Scope.find?_eq_bind_place?]
    cases hp : s.place? name with
    | some j =>
      obtain ⟨hj, -⟩ := List.findIdx?_eq_some_iff_getElem.1 hp
      simp [hj]
    | none =>
      simp only [Option.bind_none, ih, Option.bind_map]
      rfl

theorem getElem?_updateIn_eq (name : String) (f : Variable → Variable) (ss : List Scope)
    (i j : Nat) :
    (updateIn name f ss)[i]?.bind (·.vars[j]?) =
      if placeIn name ss = some (i, j) then (ss[i]?.bind (·.vars[j]?)).map f
      else ss[i]?.bind (·.vars[j]?) := by
  induction ss generalizing i with
  | nil => simp [updateIn]
  | cons s ss ih =>
    rw [updateIn, placeIn, ← Scope.isSome_place?]
    cases hp : s.place? name with
    | some k =>
      cases i with
      | zero =>
        have h := Scope.getElem?_updateFirst_eq name f s.vars j
        rw [← Scope.place?, hp] at h
        simpa [Scope.update] using h
      | succ i => simp
    | none =>
      cases i with
      | zero => simp
      | succ i => simpa [Prod.ext_iff] using ih i

theorem find?_eq_var? (c : Chain) (name : String) :
    c.find? name = (c.place? name).bind fun p => c.var? p.1 p.2 := findIn_eq_bind_placeIn name _

/-- An update changes what is at the place of its name and nothing else. -/
theorem var?_update_eq (c : Chain) (name : String) (f : Variable → Variable) (i j : Nat) :
    (c.update name f).var? i j =
      if c.place? name = some (i, j) then (c.var? i j).map f else c.var? i j := by
  rw [var?, scopes_update]
  exact getElem?_updateIn_eq name f c.scopes i j

/-- The second chain is the first one but for the variable that a name stands for there, and that
is changed only as a relation allows. -/
structure ChangedAt (name : String) (R : Variable → Variable → Prop) (c c' : Chain) : Prop where
  depth : c'.depth = c.depth
  entered : c'.entered = c.entered
  exited : c'.exited = c.exited
  calls : c'.calls = c.calls
  limit : c'.limit = c.limit
  others : ∀ i j, c.place? name ≠ some (i, j) → c'.var? i j = c.var? i j
  place : ∃ i j x x', c.place? name = some (i, j) ∧ c.var? i j = some x ∧ c'.var? i j = some x' ∧
    R x x'

namespace ChangedAt

variable {name : String} {R S : Variable → Variable → Prop} {c c' : Chain}

theorem mono (h : ChangedAt name R c c') (hRS : ∀ x x', R x x' → S x x') :
    ChangedAt name S c c' := by
  obtain ⟨i, j, x, x', hp, hx, hx', hR⟩ := h.place
  have hS := hRS x x' hR
  exact { h with place := ⟨i, j, x, x', hp, hx, hx', hS⟩ }

theorem update {x : Variable} (hx : c.find? name = some x) {f : Variable → Variable}
    (hR : R x (f x)) : ChangedAt name R c (c.update name f) := by
  rw [find?_eq_var?] at hx
  obtain ⟨⟨i, j⟩, hp, hx⟩ := Option.bind_eq_some_iff.1 hx
  refine ⟨by simp, by simp, by simp, by simp, by simp, fun i' j' h => ?_,
    i, j, x, f x, hp, hx, ?_, hR⟩
  · rw [var?_update_eq, if_neg h]
  · rw [var?_update_eq, if_pos hp, hx]
    rfl

/-- What an update made of the variable is what the relation allows. -/
theorem of_update {x : Variable} (hx : c.find? name = some x) {f : Variable → Variable}
    (h : ChangedAt name R c (c.update name f)) : R x (f x) := by
  obtain ⟨i, j, y, y', hp, hy, hy', hR⟩ := h.place
  rw [find?_eq_var?, hp] at hx
  have hxy : y = x := Option.some.inj (hy.symm.trans hx)
  rw [var?_update_eq, if_pos hp, hy] at hy'
  cases hy'
  exact hxy ▸ hR

/-- Where a chain is changed in two ways at once, one variable is. -/
theorem both (hR : ChangedAt name R c c') (hS : ChangedAt name S c c') :
    ∃ x x', R x x' ∧ S x x' := by
  obtain ⟨i, j, x, x', hp, hx, hx', hxR⟩ := hR.place
  obtain ⟨i', j', y, y', hp', hy, hy', hyS⟩ := hS.place
  cases hp.symm.trans hp'
  cases hx.symm.trans hy
  cases hx'.symm.trans hy'
  exact ⟨x, x', hxR, hyS⟩

end ChangedAt

end Chain

end Yap
