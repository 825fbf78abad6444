import Yap.Proofs.Scoping

/-! Arguments and parameters. The arguments of a call are evaluated in order in the scopes of the
caller, and the parameters are bound to them in the order of the arguments. -/
namespace Yap

/-- Expressions evaluated from left to right, each where the live scopes have a given shape. -/
inductive InOrder (r : Runner) (shapes : List (List Variable.Shape)) :
    List Expr → List Value → Machine → Machine → Prop
  | nil {m : Machine} : m.chain.shapes = shapes → InOrder r shapes [] [] m m
  | cons {e : Expr} {es : List Expr} {v : Value} {vs : List Value} {m m₁ m' : Machine} :
      m.chain.shapes = shapes → r.eval e m = .done v m₁ → InOrder r shapes es vs m₁ m' →
      InOrder r shapes (e :: es) (v :: vs) m m'

theorem InOrder.length_eq {r : Runner} {shapes : List (List Variable.Shape)} {es : List Expr}
    {vs : List Value} {m m' : Machine} (h : InOrder r shapes es vs m m') :
    vs.length = es.length := by
  induction h with
  | nil => rfl
  | cons _ _ _ ih => simp [ih]

def boundTo (ps : List Param) (vs : List Value) : List Variable :=
  List.zipWith (fun p v => .scalar p.name p.kind v .none) ps vs

theorem boundTo_cons (p : Param) (ps : List Param) (v : Value) (vs : List Value) :
    boundTo (p :: ps) (v :: vs) = .scalar p.name p.kind v .none :: boundTo ps vs := rfl

theorem boundTo_convert (ps : List Param) (vs : List Value) :
    boundTo ps (List.zipWith (fun p v => v.convert p.kind) ps vs) = boundTo ps vs := by
  induction ps generalizing vs with
  | nil => rfl
  | cons p ps ih =>
    cases vs with
    | nil => rfl
    | cons v vs =>
      have hhead : Variable.scalar p.name p.kind (v.convert p.kind) .none =
          .scalar p.name p.kind v .none := by simp [Variable.scalar]
      rw [List.zipWith_cons_cons, boundTo_cons, boundTo_cons, hhead, ih]

theorem names_boundTo {ps : List Param} {vs : List Value} (hl : vs.length = ps.length) :
    (boundTo ps vs).map (·.name) = ps.map (·.name) := by
  induction ps generalizing vs with
  | nil => rfl
  | cons p ps ih =>
    cases vs with
    | nil => simp at hl
    | cons v vs =>
      have hl' : vs.length = ps.length := by simpa using hl
      rw [boundTo_cons, List.map_cons, List.map_cons, ih hl']
      rfl

namespace Runner

/-- No argument sees more than the scopes of the caller. -/
theorem arguments_inOrder {n : Nat} {ps : List Param} {es : List Expr} {ws : List Value}
    {m m' : Machine} (hl : es.length = ps.length)
    (h : (ofFuel n).arguments ps es m = .done ws m') :
    ∃ vs, InOrder (ofFuel n) m.chain.shapes es vs m m' ∧
      ws = List.zipWith (fun p v => v.convert p.kind) ps vs := by
  induction ps generalizing es ws m with
  | nil =>
    obtain rfl := List.length_eq_zero_iff.1 hl
    cases h
    exact ⟨[], .nil rfl, rfl⟩
  | cons p ps ih =>
    cases es with
    | nil => simp at hl
    | cons e es =>
      obtain ⟨w, m₁, hw, h⟩ := Run.bind_eq_done.1 h
      obtain ⟨v, m₂, hv, hconv⟩ := Run.bind_eq_done.1 hw
      obtain ⟨rfl, rfl⟩ := Outcome.done.inj hconv
      obtain ⟨ws, m₃, hws, h⟩ := Run.bind_eq_done.1 h
      obtain ⟨rfl, rfl⟩ := Outcome.done.inj h
      have hsame : SameShapes m m₂ :=
        Run.Keeps.of_done (P := SameShapes) ((SameShapes.effects.ofFuel n).eval e) hv
      obtain ⟨vs, hvs, rfl⟩ := ih (by simpa using hl) hws
      rw [hsame] at hvs
      exact ⟨v :: vs, .cons rfl hv hvs, rfl⟩

/-- Binding a parameter, its name being free, adds it behind those bound before. -/
theorem bindParams_cons {p : Param} {ps : List Param} {v : Value} {vs : List Value} {m : Machine}
    (hp : p.name ∉ m.chain.names) :
    bindParams (p :: ps) (v :: vs) m = bindParams ps vs
      { m with chain := { m.chain with
        current := ⟨m.chain.current.vars ++ [.scalar p.name p.kind v .none]⟩ } } := by
  have hfree : m.chain.current.contains p.name = false := by
    rw [← Bool.not_eq_true, Scope.contains_iff]
    exact hp
  have hc : m.chain.declare (.scalar p.name p.kind v .none) = .ok { m.chain with
      current := ⟨m.chain.current.vars ++ [.scalar p.name p.kind v .none]⟩ } := by
    rw [Chain.declare_eq_ok]
    refine ⟨hfree, ?_⟩
    simp [Scope.insert, Variable.scalar, hfree]
  rw [bindParams, Run.bind_apply, Run.declare, hc]

/-- A parameter whose name is bound already ends the call. -/
theorem bindParams_cons_of_mem {p : Param} {ps : List Param} {v : Value} {vs : List Value}
    {m : Machine} (hp : p.name ∈ m.chain.names) :
    bindParams (p :: ps) (v :: vs) m = .stopped (.fault (.redeclaration p.name) none) m := by
  have hc : m.chain.declare (.scalar p.name p.kind v .none) = .error (.redeclaration p.name) := by
    rw [Chain.declare, if_pos]
    · rfl
    · exact (Scope.contains_iff _ _).2 hp
  rw [bindParams, Run.bind_apply, Run.declare, hc]

/-- Binding parameters leaves the scopes of the caller alone, also where it fails. -/
theorem outer_of_bindParams {ps : List Param} {vs : List Value} {m m' : Machine}
    (h : (bindParams ps vs m).machine? = some m') : m'.chain.outer = m.chain.outer := by
  induction ps generalizing vs m with
  | nil =>
    cases h
    rfl
  | cons p ps ih =>
    cases vs with
    | nil =>
      cases h
      rfl
    | cons v vs =>
      by_cases hp : p.name ∈ m.chain.names
      · rw [bindParams_cons_of_mem hp] at h
        cases h
        rfl
      · rw [bindParams_cons hp] at h
        have hrest := ih h
        exact hrest

theorem current_of_bindParams {ps : List Param} {vs : List Value} {m m' : Machine}
    (hl : vs.length = ps.length) (h : bindParams ps vs m = .done () m') :
    m'.chain.current.vars = m.chain.current.vars ++ boundTo ps vs := by
  induction ps generalizing vs m with
  | nil =>
    cases h
    obtain rfl := List.length_eq_zero_iff.1 hl
    simp [boundTo]
  | cons p ps ih =>
    cases vs with
    | nil => simp at hl
    | cons v vs =>
      by_cases hp : p.name ∈ m.chain.names
      · rw [bindParams_cons_of_mem hp] at h
        cases h
      · rw [bindParams_cons hp] at h
        rw [ih (by simpa using hl) h, boundTo_cons, List.append_assoc]
        rfl

/-- Parameters with names of their own can be bound. -/
theorem bindParams_ends {ps : List Param} {vs : List Value} {m : Machine}
    (hl : vs.length = ps.length) (hn : (m.chain.names ++ ps.map (·.name)).Nodup) :
    ∃ m', bindParams ps vs m = .done () m' := by
  induction ps generalizing vs m with
  | nil => exact ⟨m, rfl⟩
  | cons p ps ih =>
    cases vs with
    | nil => simp at hl
    | cons v vs =>
      have hp : p.name ∉ m.chain.names := by
        intro hp
        have hdisjoint := (List.nodup_append.1 hn).2.2
        exact hdisjoint _ hp _ List.mem_cons_self rfl
      rw [bindParams_cons hp]
      apply ih
      · simpa using hl
      · simpa [Chain.names, Scope.names, Variable.scalar] using hn

end Runner

end Yap
