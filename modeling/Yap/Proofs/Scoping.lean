import Mathlib.Data.List.Forall2
import Yap.Proofs.Shapes

/-! How far a change of shape reaches. Expressions, branches and loops change no shape at all, and
any other statement only adds names to the current scope or puts an array in the place of another
there. So what an index was checked against is still there when the element is read or written. -/
namespace Yap
namespace Variable.Shape

/-- What may stand where a variable stood: the same, or an array where there was one of its name. -/
def Succeeds (a b : Shape) : Prop :=
  a = b ∨ a.name = b.name ∧ a.length.isSome ∧ b.length.isSome

theorem Succeeds.trans {a b c : Shape} (h₁ : a.Succeeds b) (h₂ : b.Succeeds c) : a.Succeeds c := by
  rcases h₁ with rfl | ⟨hn, ha, hb⟩
  · exact h₂
  · rcases h₂ with rfl | ⟨hn', -, hc⟩
    · exact Or.inr ⟨hn, ha, hb⟩
    · exact Or.inr ⟨hn.trans hn', ha, hc⟩

theorem Succeeds.name_eq {a b : Shape} (h : a.Succeeds b) : a.name = b.name := by
  rcases h with rfl | ⟨hn, -, -⟩
  · rfl
  · exact hn

variable {xs ys zs : List Shape}

theorem Succeeds.refl_all (xs : List Shape) : List.Forall₂ Succeeds xs xs :=
  List.forall₂_same.2 fun _ _ => Or.inl rfl

theorem Succeeds.trans_all (h₁ : List.Forall₂ Succeeds xs ys) (h₂ : List.Forall₂ Succeeds ys zs) :
    List.Forall₂ Succeeds xs zs := by
  induction h₁ generalizing zs with
  | nil => exact h₂
  | cons hab _ ih =>
    cases h₂ with
    | cons hbc hrest => exact .cons (hab.trans hbc) (ih hrest)

theorem Succeeds.names_eq (h : List.Forall₂ Succeeds xs ys) :
    xs.map (·.name) = ys.map (·.name) := by
  induction h with
  | nil => rfl
  | cons hab _ ih => rw [List.map_cons, List.map_cons, hab.name_eq, ih]

/-- What may become of the variables of a scope: each has its successor in its place, and behind
these come new names. -/
def Extends (xs ys : List Shape) : Prop :=
  ∃ kept new, ys = kept ++ new ∧ List.Forall₂ Succeeds xs kept ∧ (new.map (·.name)).Nodup ∧
    ∀ a ∈ new, a.name ∉ xs.map (·.name)

theorem Extends.refl (xs : List Shape) : Extends xs xs :=
  ⟨xs, [], by simp, Succeeds.refl_all xs, by simp, by simp⟩

theorem Extends.of_succeeds (h : List.Forall₂ Succeeds xs ys) : Extends xs ys :=
  ⟨ys, [], by simp, h, by simp, by simp⟩

theorem Extends.snoc {a : Shape} (h : a.name ∉ xs.map (·.name)) : Extends xs (xs ++ [a]) :=
  ⟨xs, [a], rfl, Succeeds.refl_all xs, by simp, by simpa using h⟩

theorem Extends.trans (h₁ : Extends xs ys) (h₂ : Extends ys zs) : Extends xs zs := by
  obtain ⟨kept, new, rfl, hkept, hnodup, hfresh⟩ := h₁
  obtain ⟨kept', new', rfl, hkept', hnodup', hfresh'⟩ := h₂
  -- The successors divide into those of what was kept and those of what was new.
  have hleft : List.Forall₂ Succeeds kept (kept'.take kept.length) := by
    simpa using List.forall₂_take kept.length hkept'
  have hright : List.Forall₂ Succeeds new (kept'.drop kept.length) := by
    simpa using List.forall₂_drop kept.length hkept'
  have hnames : new.map (·.name) = (kept'.drop kept.length).map (·.name) :=
    Succeeds.names_eq hright
  refine ⟨kept'.take kept.length, kept'.drop kept.length ++ new', ?_,
    Succeeds.trans_all hkept hleft, ?_, ?_⟩
  · rw [← List.append_assoc, List.take_append_drop]
  · rw [List.map_append, ← hnames]
    refine List.nodup_append.2 ⟨hnodup, hnodup', fun name hname name' hname' hn => ?_⟩
    obtain ⟨a, ha, rfl⟩ := List.mem_map.1 hname'
    exact hfresh' a ha (by simp [← hn, hname])
  · intro a ha hold
    rcases List.mem_append.1 ha with ha | ha
    · have hmem : a.name ∈ new.map (·.name) := hnames ▸ List.mem_map_of_mem ha
      obtain ⟨b, hb, hba⟩ := List.mem_map.1 hmem
      exact hfresh b hb (hba ▸ hold)
    · have hmem : a.name ∈ kept.map (·.name) := Succeeds.names_eq hkept ▸ hold
      exact hfresh' a ha (by simp [hmem])

end Variable.Shape

namespace Scope

open Variable.Shape

def shapes (s : Scope) : List Variable.Shape := s.vars.map Variable.shape

theorem names_shapes (s : Scope) : s.shapes.map (·.name) = s.names := by
  simp [shapes, names, Variable.shape]

theorem extends_insert_new {s : Scope} {x : Variable} (h : s.contains x.name = false) :
    Extends s.shapes (s.insert x).shapes := by
  have hnew : x.shape.name ∉ s.shapes.map (·.name) := by
    rw [names_shapes, ← contains_iff]
    simpa [Variable.shape] using h
  simpa [insert, h, shapes] using Extends.snoc hnew

theorem succeeds_updateFirst {name : String} {f : Variable → Variable} {xs : List Variable}
    {y : Variable} (hy : xs.find? (·.name = name) = some y) (hf : y.shape.Succeeds (f y).shape) :
    List.Forall₂ Succeeds (xs.map Variable.shape) ((updateFirst name f xs).map Variable.shape) := by
  induction xs with
  | nil => exact .nil
  | cons x xs ih =>
    rw [updateFirst]
    by_cases hx : x.name = name
    · have hxy : x = y := by simpa [hx] using hy
      rw [if_pos hx, hxy]
      exact .cons hf (Succeeds.refl_all _)
    · rw [if_neg hx]
      exact .cons (Or.inl rfl) (ih (by simpa [List.find?_cons, hx] using hy))

/-- An array bound in the place of one of its name. -/
theorem extends_insert_array {s : Scope} {x y : Variable} (hy : s.find? x.name = some y)
    (hya : y.isArray) (hxa : x.isArray) : Extends s.shapes (s.insert x).shapes := by
  have hcontains : s.contains x.name = true := by
    rw [← find?_isSome, hy]
    rfl
  have hsucceeds : y.shape.Succeeds x.shape :=
    Or.inr ⟨name_of_find? hy, by rwa [← Variable.isArray_eq_shape],
      by rwa [← Variable.isArray_eq_shape]⟩
  rw [insert, if_pos hcontains]
  exact Extends.of_succeeds (succeeds_updateFirst hy hsucceeds)

end Scope

/-- All scopes but the current one have the shape they had, and that one may have been added to. -/
def ExtendsCurrent (m m' : Machine) : Prop :=
  SameOuter m m' ∧ Variable.Shape.Extends m.chain.current.shapes m'.chain.current.shapes

theorem SameShapes.current {m m' : Machine} (h : SameShapes m m') :
    m'.chain.current.shapes = m.chain.current.shapes := (List.cons.inj h).1

theorem ExtendsCurrent.of_sameShapes {m m' : Machine} (h : SameShapes m m') :
    ExtendsCurrent m m' := by
  refine ⟨SameShapes.effects.weaken h, ?_⟩
  rw [h.current]
  exact .refl _

theorem ExtendsCurrent.effects : Effects SameShapes ExtendsCurrent where
  refl := SameShapes.effects.refl
  trans := SameShapes.effects.trans
  transQ h₁ h₂ := ⟨SameShapes.effects.transQ h₁.1 h₂.1, h₁.2.trans h₂.2⟩
  weaken := of_sameShapes
  note := SameShapes.effects.note
  write := SameShapes.effects.write
  record := SameShapes.effects.record
  advance := SameShapes.effects.advance
  setValue := SameShapes.effects.setValue
  setElement := SameShapes.effects.setElement
  setText := SameShapes.effects.setText
  declare hx hc := by
    refine ⟨SameShapes.effects.declare hx hc, ?_⟩
    obtain ⟨hfree, rfl⟩ := Chain.declare_eq_ok.1 hc
    exact Scope.extends_insert_new hfree
  replaceArray {m x y} length hx hxa hy hya :=
    ⟨SameShapes.effects.replaceArray length hx hxa hy hya,
      Scope.extends_insert_array (s := m.chain.current) hy hya hxa⟩
  register m d := of_sameShapes (SameShapes.of_chain_eq (by simp))
  scope h := SameShapes.effects.scope h.1
  frame := SameShapes.effects.frame
  frameQ k {m m'} h := by
    refine ⟨SameShapes.effects.frameQ k h.1, ?_⟩
    simpa using h.2
  call := SameShapes.effects.call
  line _ _ _ h := h

theorem Action.sameShapes_of_isScoped (n : Nat) {a : Action} (ha : a.isScoped = true) :
    ((Runner.ofFuel n).act a).Keeps SameShapes :=
  SameShapes.effects.congruence.actScoped (SameShapes.effects.ofFuel n) ha

theorem Stmt.sameShapes_of_isScoped (n : Nat) {s : Stmt} (hs : s.action.isScoped = true) :
    (s.exec n).Keeps SameShapes := by
  have hc := SameShapes.effects.congruence
  have ht := @SameShapes.effects.trans
  cases n with
  | zero => intro m m' hm; cases hm
  | succ n =>
    have hact := s.action.sameShapes_of_isScoped n hs
    have hnote := hc.note fun l => .exec l s.action.description
    have hbody := Run.Keeps.bind (P := SameShapes) ht hnote fun _ => hact
    have hline : (Run.atLine s.line _).Keeps SameShapes := hbody.atLine fun _ _ _ h => h
    exact Run.Keeps.bind (P := SameShapes) ht hc.checkInterrupt fun _ => hline

/-- The element of a variable at an index. A scalar has none and gives a zero, with a warning. -/
def Variable.element (x : Variable) (name : String) (i : Int32) : Checked Value :=
  match x.buffer? with
  | some b => b.read name i
  | none => .fallback (Value.zero x.kind) (.notAnArray name)

namespace Runner

variable {n : Nat} {name : String} {index : Expr} {m m₁ : Machine} {x : Variable} {i : Int32}

/-- An evaluated index leaves the name of the array bound, to a variable of the same shape. -/
theorem find?_of_evalInt (hx : m.chain.find? name = some x)
    (hi : (ofFuel n).evalInt index m = .done i m₁) :
    ∃ y, m₁.chain.find? name = some y ∧ y.shape = x.shape := by
  have hshapes : SameShapes m m₁ :=
    SameShapes.effects.congruence.evalInt (SameShapes.effects.ofFuel n) index (by rw [hi]; rfl)
  exact Chain.find?_of_shapes hshapes hx

theorem element_of_evalInt {y : Variable} (hx : m.chain.find? name = some x)
    (hi : (ofFuel n).evalInt index m = .done i m₁) (hy : m₁.chain.find? name = some y) :
    (ofFuel n).element name index m = Run.settle (y.element name i) m₁ := by
  rw [element, Run.bind_of_done (Run.lookupArray_eq_done.2 ⟨hx, rfl⟩), Run.bind_of_done hi,
    Run.bind_of_done (Run.lookupArray_eq_done.2 ⟨hy, rfl⟩), Variable.element]
  cases y.buffer? <;> rfl

variable {value : Expr} {m₂ : Machine} {y : Variable} {b : Buffer} {v : Value}

/-- Evaluating the value leaves the array as long as it was, so its index is still inside. -/
theorem writeElement_of_evalAs {kind : Kind} (hy : m₁.chain.find? name = some y)
    (hb : y.storage = .array b) (hin : b.contains i = true)
    (hv : (ofFuel n).evalAs value kind m₁ = .done v m₂) :
    ∃ z b' b'', m₂.chain.find? name = some z ∧ z.storage = .array b' ∧
      b'.write name i v = (b'', none) ∧ b''.read name i = .clean (v.convert b'.kind) ∧
      Run.writeElement name i v m₂ =
        .done () { m₂ with chain := m₂.chain.update name (·.setBuffer b'') } := by
  have hshapes : SameShapes m₁ m₂ :=
    SameShapes.effects.congruence.evalAs (SameShapes.effects.ofFuel n) value kind (by rw [hv]; rfl)
  obtain ⟨z, hz, hzy⟩ := Chain.find?_of_shapes hshapes hy
  obtain ⟨b', hb', hbl⟩ := Variable.buffer?_of_shape hzy (Variable.buffer?_eq_some.2 hb)
  have hin' : b'.contains i = true := (Buffer.contains_of_length hbl i).trans hin
  obtain ⟨b'', hw, hread⟩ := Buffer.write_of_contains hin' name v
  have hstorage := Variable.buffer?_eq_some.1 hb'
  refine ⟨z, b', b'', hz, hstorage, hw, hread, ?_⟩
  simp only [Run.writeElement, Chain.writeElement, hz, hstorage, hw]
  rfl

theorem assignElement_of_contains (hx : m.chain.find? name = some x)
    (hc : x.modifiers.const = false) (ha : x.isArray = true)
    (hi : (ofFuel n).evalInt index m = .done i m₁) (hy : m₁.chain.find? name = some y)
    (hb : y.storage = .array b) (hin : b.contains i = true)
    (hv : (ofFuel n).evalAs value x.kind m₁ = .done v m₂) :
    (ofFuel n).assignElement name index value m =
      (Run.writeElement name i v >>= fun _ => pure .normal) m₂ := by
  have hassign : (ofFuel n).assignAt name x.kind i value m₁ = Run.writeElement name i v m₂ := by
    rw [assignAt, Run.bind_of_done (x := Run.gets _) rfl, hy]
    simp only [Option.bind_some, Variable.buffer?_eq_some.2 hb, hin, if_true]
    exact Run.bind_of_done hv _
  rw [assignElement, Run.bind_of_done (Run.lookupArray_eq_done.2 ⟨hx, rfl⟩),
    Run.bind_of_done ((Run.writable_eq_done (u := ())).2 ⟨hc, rfl⟩), if_pos ha, Run.bind_of_done hi,
    Run.bind_apply, Run.bind_apply, hassign]

end Runner

/-- Expressions, branches and loops leave every scope the shape it had. Any other statement changes
only the current scope, by new names or an array in the place of another. So the element read behind
an index is one of a variable that is still bound, and a value is written to the element of an
array that its index was inside of, without a warning. -/
theorem shape_changes_local (n : Nat) :
    (∀ (e : Expr) (m m' : Machine), (e.eval n m).machine? = some m' →
      m'.chain.shapes = m.chain.shapes) ∧
    (∀ (s : Stmt) (m m' : Machine), s.action.isScoped = true → (s.exec n m).machine? = some m' →
      m'.chain.shapes = m.chain.shapes) ∧
    (∀ (s : Stmt) (m m' : Machine), (s.exec n m).machine? = some m' →
      m'.chain.shapes.tail = m.chain.shapes.tail ∧
        Variable.Shape.Extends m.chain.current.shapes m'.chain.current.shapes) ∧
    (∀ (name : String) (index : Expr) (i : Int32) (m m₁ : Machine) (x : Variable),
      m.chain.find? name = some x → (Runner.ofFuel n).evalInt index m = .done i m₁ →
      ∃ y, m₁.chain.find? name = some y ∧ y.shape = x.shape ∧
        (Expr.element name index).eval (n + 1) m = Run.settle (y.element name i) m₁) ∧
    ∀ (name : String) (index value : Expr) (i : Int32) (v : Value) (m m₁ m₂ : Machine)
      (x y : Variable) (b : Buffer), m.chain.find? name = some x → x.modifiers.const = false →
      x.isArray = true → (Runner.ofFuel n).evalInt index m = .done i m₁ →
      m₁.chain.find? name = some y → y.storage = .array b → b.contains i = true →
      (Runner.ofFuel n).evalAs value x.kind m₁ = .done v m₂ →
      ∃ z b' b'', m₂.chain.find? name = some z ∧ z.storage = .array b' ∧
        b'.write name i v = (b'', none) ∧ b''.read name i = .clean (v.convert b'.kind) ∧
        (Runner.ofFuel n).act (.assignElement name index value) m =
          .done .normal { m₂ with chain := m₂.chain.update name (·.setBuffer b'') } := by
  refine ⟨?_, ?_, ?_, ?_, ?_⟩
  · intro e m m' hm
    exact (SameShapes.effects.ofFuel n).eval e hm
  · intro s m m' hs hm
    exact Stmt.sameShapes_of_isScoped n hs hm
  · intro s m m' hm
    exact (ExtendsCurrent.effects.ofFuel n).exec s hm
  · intro name index i m m₁ x hx hi
    obtain ⟨y, hy, hyx⟩ := Runner.find?_of_evalInt hx hi
    exact ⟨y, hy, hyx, Runner.element_of_evalInt hx hi hy⟩
  · intro name index value i v m m₁ m₂ x y b hx hc ha hi hy hb hin hv
    obtain ⟨z, b', b'', hz, hb', hw, hread, hrun⟩ := Runner.writeElement_of_evalAs hy hb hin hv
    refine ⟨z, b', b'', hz, hb', hw, hread, ?_⟩
    have hassign := Runner.assignElement_of_contains hx hc ha hi hy hb hin hv
    rw [Run.bind_of_done hrun] at hassign
    exact hassign

/-- A function with an array of its own, and a machine with a shorter array of that name. -/
def shadowing : Definition :=
  ⟨1, "f", some .int, [], ⟨.block [⟨.declareArray "a" .int .none 5 none, none⟩,
    ⟨.giveBack (some (.literal (.int 1))), none⟩], none⟩⟩

def Machine.ofShadowed : Machine :=
  { Machine.new 9 .report false [] with
    functions := [shadowing]
    chain := { Chain.new 9 with current := ⟨[.array "a" ⟨.int, #[.int 0, .int 0]⟩ .none]⟩ } }

def Runner.shadowedParts (r : Runner) : Run (Int32 × Value) := do
  let i ← r.evalInt (.call "f" [])
  let v ← r.evalAs (.call "f" []) .int
  pure (i, v)

theorem shape_changes_local_ofShadowed :
    ∃ (m₁ m₂ m₃ m₄ : Machine) (y z : Variable) (b b' b'' : Buffer),
      ((⟨.doWhile shadowing.body (.literal (.int 0)), none⟩ : Stmt).exec 9 .ofShadowed).machine? =
        some m₁ ∧
      m₁.chain.shapes = Machine.ofShadowed.chain.shapes ∧
      ((⟨.declareArray "a" .char .none 3 none, none⟩ : Stmt).exec 9 .ofShadowed).machine? =
        some m₂ ∧
      Variable.Shape.Extends Machine.ofShadowed.chain.current.shapes m₂.chain.current.shapes ∧
      ((Expr.call "f" []).eval 9 .ofShadowed).machine? = some m₃ ∧
      m₃.chain.shapes = Machine.ofShadowed.chain.shapes ∧
      m₃.chain.find? "a" = some y ∧ y.storage = .array b ∧
      (Expr.element "a" (.call "f" [])).eval 10 .ofShadowed = Run.settle (y.element "a" 1) m₃ ∧
      m₄.chain.find? "a" = some z ∧ z.storage = .array b' ∧ b'.write "a" 1 (.int 1) = (b'', none) ∧
      (Runner.ofFuel 9).act (.assignElement "a" (.call "f" []) (.call "f" [])) .ofShadowed =
        .done .normal { m₄ with chain := m₄.chain.update "a" (·.setBuffer b'') } := by
  obtain ⟨heval, hscoped, hexec, hread, hassign⟩ := shape_changes_local 9
  have hloop : ((⟨.doWhile shadowing.body (.literal (.int 0)), none⟩ : Stmt).exec 9
      .ofShadowed).machine?.isSome := by decide +kernel
  have hdeclare : ((⟨.declareArray "a" .char .none 3 none, none⟩ : Stmt).exec 9
      .ofShadowed).machine?.isSome := by decide +kernel
  have hparts : (match (Runner.ofFuel 9).shadowedParts .ofShadowed with
      | .done p _ => decide (p = (1, .int 1))
      | _ => false) = true := by decide +kernel
  obtain ⟨m₁, hm₁⟩ := Option.isSome_iff_exists.1 hloop
  obtain ⟨m₂, hm₂⟩ := Option.isSome_iff_exists.1 hdeclare
  split at hparts
  · rename_i p m₄ hrun
    obtain rfl := of_decide_eq_true hparts
    obtain ⟨i, m₃, hi, hrun⟩ := Run.bind_eq_done.1 hrun
    obtain ⟨v, m₄, hv, hrun⟩ := Run.bind_eq_done.1 hrun
    cases hrun
    obtain ⟨u, n, he, hu⟩ := Run.bind_eq_done.1 hi
    obtain rfl : m₃ = n := (Outcome.done.inj hu).2.symm
    have hm₃ : ((Expr.call "f" []).eval 9 .ofShadowed).machine? = some m₃ :=
      congrArg Outcome.machine? he
    have hx : Machine.ofShadowed.chain.find? "a" =
        some (.array "a" ⟨.int, #[.int 0, .int 0]⟩ .none) := rfl
    obtain ⟨y, hy, hshape, helement⟩ := hread "a" _ _ _ _ _ hx hi
    obtain ⟨b, hb, hlength⟩ := Option.map_eq_some_iff.1 (congrArg Variable.Shape.length hshape)
    have hyb := Variable.buffer?_eq_some.1 hb
    have hin : b.contains 1 = true := Buffer.contains_of_length hlength 1
    obtain ⟨z, b', b'', hz, hb', hw, -, hassigned⟩ :=
      hassign "a" _ _ _ _ _ _ _ _ _ _ hx rfl rfl hi hy hyb hin hv
    exact ⟨m₁, m₂, m₃, m₄, y, z, b, b', b'', hm₁, hscoped _ _ _ rfl hm₁, hm₂, (hexec _ _ _ hm₂).2,
      hm₃, heval _ _ _ hm₃, hy, hyb, helement, hz, hb', hw, hassigned⟩
  · cases hparts

end Yap
