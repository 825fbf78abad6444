import Yap.Proofs.History
import Yap.Proofs.Log
import Yap.Proofs.Shapes
import Yap.Proofs.Signals
import Yap.Proofs.Slots

/-! Declarations of arrays from end to end. The initializers are evaluated first, and then an array
that starts with their values is bound in the current scope, or everything stays as they left it.
Main statement: how a declaration ends is told by the machine it starts on, by what the initializers
alone do there, and by the bytes that the array takes. -/
namespace Yap

/-- A fault of a line keeps it. -/
theorem Stop.orLine_self (c : Cause) (l : Option Line) : (fault c l).orLine l = fault c l := by
  cases l <;> rfl

namespace Buffer

/-- A buffer of a kind and length that starts with values, converted to the kind, and has zeros
behind them. -/
structure StartsWith (b : Buffer) (k : Kind) (n : Nat) (vs : List Value) : Prop where
  kind : b.kind = k
  length : b.length = n
  value {i : Nat} {v : Value} : vs[i]? = some v → b.get? i = some (v.convert k)
  zero {i : Nat} : vs.length ≤ i → i < n → b.get? i = some (Value.zero k)

end Buffer

namespace Runner

theorem filled?_eq_none {kind : Kind} {length : Nat} {vs : List Value} :
    filled? kind length vs = none ↔ Buffer.byteLimit < kind.size * length := by
  rw [filled?, Option.map_eq_none_iff, Buffer.allocate?]
  split
  · simp only [reduceCtorEq, false_iff]
    omega
  · simp only [true_iff]
    omega

theorem filled?_map_convert (kind : Kind) (length : Nat) (vs : List Value) :
    filled? kind length (vs.map (·.convert kind)) = filled? kind length vs := by
  simp [filled?, Function.comp_def]

theorem startsWith_filled? {kind : Kind} {length : Nat} {vs : List Value} {b : Buffer}
    (hl : vs.length ≤ length) (h : filled? kind length vs = some b) :
    b.StartsWith kind length vs := by
  obtain ⟨a, ha, rfl⟩ := Option.map_eq_some_iff.1 h
  have hcells : a = ⟨kind, Array.replicate length (Value.zero kind)⟩ := by
    rw [Buffer.allocate?] at ha
    split at ha
    · exact (Option.some.inj ha).symm
    · cases ha
  subst hcells
  have hroom : 0 + (vs.map (·.convert kind)).length ≤
      (Array.replicate length (Value.zero kind)).size := by
    simpa using hl
  refine ⟨rfl, by simp [Buffer.length], fun {i v} hv => ?_, fun {i} hi hil => ?_⟩
  · rw [Buffer.get?, Buffer.getElem?_putAll hroom, if_neg (Nat.not_lt_zero i)]
    simp [hv]
  · rw [Buffer.get?, Buffer.getElem?_putAll hroom, if_neg (Nat.not_lt_zero i)]
    simp [hi, hil]

def evalEach (r : Runner) : List Expr → Run (List Value)
  | [] => pure []
  | e :: es => do
    let v ← r.eval e
    let vs ← r.evalEach es
    pure (v :: vs)

theorem evalAll_eq (r : Runner) (k : Kind) (es : List Expr) :
    r.evalAll k es = r.evalEach es >>= fun vs => pure (vs.map (·.convert k)) := by
  induction es with
  | nil => rfl
  | cons e es ih => simp only [evalAll, evalEach, evalAs, ih, bind_assoc, pure_bind, List.map_cons]

theorem length_of_evalEach {r : Runner} {es : List Expr} {vs : List Value} {m m' : Machine}
    (h : r.evalEach es m = .done vs m') : vs.length = es.length := by
  induction es generalizing vs m with
  | nil =>
    cases h
    rfl
  | cons e es ih =>
    obtain ⟨v, m₁, -, hrest⟩ := Run.bind_eq_done.1 h
    obtain ⟨ws, m₂, hws, hend⟩ := Run.bind_eq_done.1 hrest
    cases hend
    rw [List.length_cons, List.length_cons, ih hws]

end Runner

theorem Congruence.Core.evalEach {E S : ∀ ⦃α : Type⦄, Run α → Run α → Prop} (h : Core E S)
    {r r' : Runner} (hr : r.Related E S r') (es : List Expr) :
    E (r.evalEach es) (r'.evalEach es) := by
  induction es with
  | nil => exact h.done _
  | cons e es ih => exact h.bind (hr.eval e) fun v => h.bind ih fun vs => h.done _

namespace Scope

/-- The place where a name is bound: that of its first variable, or the one behind all. -/
def slot (s : Scope) (name : String) : Nat := (s.place? name).getD s.vars.length

theorem getElem?_insert_eq (s : Scope) (x : Variable) (j : Nat) :
    (s.insert x).vars[j]? = if j = s.slot x.name then some x else s.vars[j]? := by
  rw [insert, slot, ← isSome_place?]
  cases hp : s.place? x.name with
  | none =>
    by_cases hj : j = s.vars.length
    · simp [hj]
    · simp only [Option.isSome_none, Bool.false_eq_true, if_false, Option.getD_none, if_neg hj]
      rcases Nat.lt_or_gt_of_ne hj with hlt | hgt
      · rw [List.getElem?_append_left hlt]
      · rw [List.getElem?_eq_none (by simp; omega), List.getElem?_eq_none (by omega)]
  | some k =>
    obtain ⟨hk, -⟩ := List.findIdx?_eq_some_iff_getElem.1 hp
    have hchanged := getElem?_updateFirst_eq x.name (fun _ => x) s.vars j
    rw [← place?, hp] at hchanged
    simp only [Option.isSome_some, if_true, update, hchanged, Option.some.injEq, Option.getD_some]
    by_cases hj : k = j
    · subst hj
      simp [hk]
    · rw [if_neg hj, if_neg (Ne.symm hj)]

end Scope

/-- The second chain is the first one with a variable bound in the current scope: where its name was
bound, or behind all others if it was free. -/
structure Chain.BindsHere (x : Variable) (c c' : Chain) : Prop where
  rest : c' = { c with current := c'.current }
  found : c'.current.find? x.name = some x
  here : c'.current.vars[c.current.slot x.name]? = some x
  others {i : Nat} : i ≠ c.current.slot x.name → c'.current.vars[i]? = c.current.vars[i]?

theorem Chain.bindsHere_replaceCurrent (c : Chain) (x : Variable) :
    c.BindsHere x (c.replaceCurrent x) where
  rest := rfl
  found := c.current.find?_insert_self x
  here := by
    rw [replaceCurrent, Scope.getElem?_insert_eq, if_pos rfl]
  others hi := by
    rw [replaceCurrent, Scope.getElem?_insert_eq, if_neg hi]

/-- What a name stands for in the current scope is told by the shapes, as far as these tell. -/
theorem SameShapes.isArray_current {m m' : Machine} (h : SameShapes m m') (name : String) :
    (m'.chain.current.find? name).map (·.isArray) =
      (m.chain.current.find? name).map (·.isArray) := by
  have hcurrent : m'.chain.current.vars.map Variable.shape =
      m.chain.current.vars.map Variable.shape := (List.cons.inj h).1
  have hshape : (m'.chain.current.find? name).map Variable.shape =
      (m.chain.current.find? name).map Variable.shape := by
    rw [Scope.find?, Scope.find?, Chain.map_find?_shape, Chain.map_find?_shape, hcurrent]
  have harray := congrArg (Option.map fun s : Variable.Shape => s.length.isSome) hshape
  simpa [Option.map_map, Function.comp_def, ← Variable.isArray_eq_shape] using harray

structure ArrayDeclaration where
  name : String
  kind : Kind
  modifiers : Modifiers
  length : Nat
  init : Option (List Expr)
  line : Option Line

namespace ArrayDeclaration

variable (d : ArrayDeclaration) (n : Nat) (m : Machine)

def stmt : Stmt := ⟨.declareArray d.name d.kind d.modifiers d.length d.init, d.line⟩

def values : List Expr := d.init.getD []

def initializers : Outcome (List Value) :=
  (Runner.ofFuel n).evalEach d.values (m.begin d.stmt)

def here : Option Line := d.line.or m.line

/-- Whether the array takes no more bytes than there can be. -/
def Fits : Prop := d.kind.size * d.length ≤ Buffer.byteLimit

/-- Whether the initializers are come to. -/
structure Begins : Prop where
  interrupted : m.interrupted = false
  length : d.values.length ≤ d.length

/-- How the declaration ends. Which array or scalar of its name there is in the current scope is
asked of the machine before the initializers. -/
inductive Ends : Outcome Flow → Prop
  | interrupted : m.interrupted = true → Ends (.stopped .interrupted m)
  | tooLong {m' : Machine} : m.interrupted = false → d.length < d.values.length →
      m.SameButLog m' →
      Ends (.stopped (.fault (.arrayInitTooLong d.name d.length d.values.length) (d.here m)) m')
  | outOfFuel : d.Begins m → d.initializers n m = .outOfFuel → Ends .outOfFuel
  | stopped {s : Stop} {m₁ : Machine} : d.Begins m → d.initializers n m = .stopped s m₁ →
      Ends (.stopped (s.orLine (d.here m)) { m₁ with line := m.line })
  | scalar {vs : List Value} {m₁ : Machine} : d.Begins m → d.initializers n m = .done vs m₁ →
      (m.chain.current.find? d.name).map (·.isArray) = some false →
      Ends (.stopped (.fault (.redeclaration d.name) (d.here m)) { m₁ with line := m.line })
  | noRoom {vs : List Value} {m₁ : Machine} : d.Begins m → d.initializers n m = .done vs m₁ →
      m.chain.current.find? d.name = none → ¬ d.Fits →
      Ends (.stopped (.fault (.allocationFailed d.name d.length) (d.here m))
        { m₁ with line := m.line })
  | kept {vs : List Value} {m₁ : Machine} : d.Begins m → d.initializers n m = .done vs m₁ →
      (m.chain.current.find? d.name).map (·.isArray) = some true → ¬ d.Fits →
      m.policy ≠ .abort →
      Ends (.done .normal { m₁.record (.arrayReallocationFailed d.name) with line := m.line })
  | aborted {vs : List Value} {m₁ : Machine} : d.Begins m → d.initializers n m = .done vs m₁ →
      (m.chain.current.find? d.name).map (·.isArray) = some true → ¬ d.Fits →
      m.policy = .abort →
      Ends (.stopped (.fault (.aborted (.arrayReallocationFailed d.name)) (d.here m))
        { m₁ with line := m.line })
  | bound {vs : List Value} {m₁ m' : Machine} {b : Buffer} {c : Chain} : d.Begins m →
      d.initializers n m = .done vs m₁ →
      (m.chain.current.find? d.name).map (·.isArray) ≠ some false → d.Fits →
      b.StartsWith d.kind d.length vs → m₁.chain.BindsHere (.array d.name b d.modifiers) c →
      Machine.SameButLog { m₁ with chain := c, line := m.line } m' → Ends (.done .normal m')

/-- What comes of the action when the statement is over: the line is the old one again, and a fault
has the line of the statement if it has none. -/
def close (o : Outcome Flow) : Outcome Flow :=
  (o.mapMachine fun m' => { m' with line := m.line }).mapStop (·.orLine (d.here m))

variable {d n m} {vs : List Value} {m₁ : Machine}

theorem keeps_initializers {P Q : Machine → Machine → Prop} (h : Effects P Q)
    (hd : d.initializers n m = .done vs m₁) : P (m.begin d.stmt) m₁ := by
  have hkept : ((Runner.ofFuel n).evalEach d.values).Keeps P :=
    h.toCore.congruence.evalEach (h.ofFuel n) d.values
  exact hkept.of_done hd

theorem line_begin (d : ArrayDeclaration) (m : Machine) : (m.begin d.stmt).line = d.here m := by
  simp [Machine.begin, here, stmt]

/-- The initializers leave the line alone. -/
theorem line_of_initializers (hd : d.initializers n m = .done vs m₁) : m₁.line = d.here m := by
  have hline : SameLine (m.begin d.stmt) m₁ := keeps_initializers SameLine.effects hd
  exact hline.trans (d.line_begin m)

theorem policy_of_initializers (hd : d.initializers n m = .done vs m₁) :
    m₁.policy = m.policy := by
  have hhistory : History (m.begin d.stmt) m₁ := keeps_initializers History.effects hd
  exact hhistory.policy.trans (by simp [Machine.begin])

/-- Whether the name is that of an array of the current scope is not changed by initializers. -/
theorem isArray_of_initializers (hd : d.initializers n m = .done vs m₁) :
    (m₁.chain.current.find? d.name).map (·.isArray) =
      (m.chain.current.find? d.name).map (·.isArray) := by
  have hshapes : SameShapes (m.begin d.stmt) m₁ := keeps_initializers SameShapes.effects hd
  have hcurrent := hshapes.isArray_current d.name
  simpa [Machine.begin] using hcurrent

theorem filled?_eq_none : Runner.filled? d.kind d.length vs = none ↔ ¬ d.Fits := by
  rw [Runner.filled?_eq_none, Fits, Nat.not_le]

theorem fits_of_filled? {b : Buffer} (h : Runner.filled? d.kind d.length vs = some b) : d.Fits :=
  Classical.byContradiction fun hfits => by
    rw [filled?_eq_none.2 hfits] at h
    cases h

theorem startsWith_of_filled? {b : Buffer} (hb : d.Begins m)
    (hd : d.initializers n m = .done vs m₁) (h : Runner.filled? d.kind d.length vs = some b) :
    b.StartsWith d.kind d.length vs := by
  have hl := Runner.length_of_evalEach hd
  exact Runner.startsWith_filled? (hl ▸ hb.length) h

/-- Behind the initializers an array is bound that starts with their values, or everything stays as
they left it. -/
theorem ends_of_initializers (hb : d.Begins m) (hd : d.initializers n m = .done vs m₁) :
    d.Ends n m (d.close m ((Runner.install d.name d.kind d.modifiers d.length
      (vs.map (·.convert d.kind)) >>= fun _ => pure .normal) m₁)) := by
  have harray := isArray_of_initializers hd
  have hline := line_of_initializers hd
  have hpolicy := policy_of_initializers hd
  rw [Runner.install, Run.bind_assoc_run, Run.bind_of_done (x := Run.gets _) rfl]
  simp only [Runner.filled?_map_convert]
  cases hx : m₁.chain.current.find? d.name with
  | none =>
    rw [hx] at harray
    have hfree : m.chain.current.find? d.name = none := Option.map_eq_none_iff.1 harray.symm
    dsimp only
    cases hf : Runner.filled? d.kind d.length vs with
    | none => exact .noRoom hb hd hfree (filled?_eq_none.1 hf)
    | some b =>
      have hfits := fits_of_filled? hf
      have hstarts := startsWith_of_filled? hb hd hf
      have hdeclare : m₁.chain.declare (.array d.name b d.modifiers) =
          .ok (m₁.chain.replaceCurrent (.array d.name b d.modifiers)) := by
        refine Chain.declare_eq_ok.2 ⟨?_, rfl⟩
        rw [← Scope.find?_isSome]
        exact Option.isSome_eq_false_iff.2 (Option.isNone_iff_eq_none.2 hx)
      have hbinds := m₁.chain.bindsHere_replaceCurrent (.array d.name b d.modifiers)
      dsimp only
      rw [Run.bind_apply, Run.declare, hdeclare]
      exact .bound hb hd (by simp [hfree]) hfits hstarts hbinds (.refl _)
  | some x =>
    rw [hx] at harray
    cases ha : x.isArray with
    | false =>
      simp only [ha, Bool.false_eq_true, if_false]
      exact .scalar hb hd (harray.symm.trans (congrArg some ha))
    | true =>
      have hbound : (m.chain.current.find? d.name).map (·.isArray) = some true :=
        harray.symm.trans (congrArg some ha)
      simp only [ha, if_true]
      cases hf : Runner.filled? d.kind d.length vs with
      | none =>
        have hfits := filled?_eq_none.1 hf
        dsimp only
        rw [Run.bind_apply, Run.report]
        by_cases hp : m₁.policy = .abort
        · have hend := Ends.aborted hb hd hbound hfits (hpolicy.symm.trans hp)
          rw [← Stop.orLine_self] at hend
          rw [if_pos hp, hline]
          exact hend
        · rw [if_neg hp]
          exact .kept hb hd hbound hfits (hpolicy ▸ hp)
      | some b =>
        have hfits := fits_of_filled? hf
        have hstarts := startsWith_of_filled? hb hd hf
        have hbinds := m₁.chain.bindsHere_replaceCurrent (.array d.name b d.modifiers)
        have hnote := (m₁.sameButLog_note (.reallocate d.name d.length)).map
          (f := fun m' => { m' with chain := m₁.chain.replaceCurrent (.array d.name b d.modifiers),
                                    line := m.line })
          (Machine.blind_of_commutes (fun _ _ => rfl) fun _ => rfl)
        exact .bound hb hd (by simp [hbound]) hfits hstarts hbinds hnote

end ArrayDeclaration

/-- How a declaration of an array ends, whatever it is and on whatever machine. -/
theorem array_declared (d : ArrayDeclaration) (n : Nat) (m : Machine) :
    d.Ends n m (d.stmt.exec (n + 1) m) := by
  cases hi : m.interrupted with
  | true =>
    rw [Stmt.exec_of_interrupted n _ hi]
    exact .interrupted hi
  | false =>
    have hexec : d.stmt.exec (n + 1) m = d.close m ((Runner.ofFuel n).declareArray d.name d.kind
      d.modifiers d.length d.values (m.begin d.stmt)) := Stmt.exec_begin n _ hi
    rw [hexec, Runner.declareArray]
    by_cases hl : d.length < d.values.length
    · rw [if_pos hl]
      exact .tooLong hi hl (m.sameButLog_begin _)
    · have hb : d.Begins m := ⟨hi, Nat.le_of_not_lt hl⟩
      rw [if_neg hl, Runner.evalAll_eq, Run.bind_assoc_run, Run.bind_apply]
      cases hd : d.initializers n m with
      | done vs m₁ =>
        have hends := ArrayDeclaration.ends_of_initializers hb hd
        rw [ArrayDeclaration.initializers] at hd
        rw [hd]
        exact hends
      | stopped s m₁ =>
        have hends : d.Ends n m (.stopped _ _) := .stopped hb hd
        rw [ArrayDeclaration.initializers] at hd
        rw [hd]
        exact hends
      | outOfFuel =>
        have hends : d.Ends n m .outOfFuel := .outOfFuel hb hd
        rw [ArrayDeclaration.initializers] at hd
        rw [hd]
        exact hends

end Yap
