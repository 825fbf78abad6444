import Mathlib.Data.List.Infix
import Yap.Proofs.Shadowing

/-! Operations on a scope chain, in any order and failures included. Inside a scope that is entered
and exited again they do to the scopes around it what those writes do there that meet a name which
is not bound inside. Main statement: the depth counts the scopes entered and not exited, and behind
such a bracket the scopes around it have the shapes they had, a name declared first thing inside
stands for what it stood for, and an assignment that gets through to them is seen. -/
namespace Yap

/-- The variable with something done to its buffer. A scalar stays as it is. -/
def Variable.mapBuffer (f : Buffer → Buffer) (x : Variable) : Variable :=
  match x.buffer? with
  | some b => x.setBuffer (f b)
  | none => x

theorem Variable.shape_mapBuffer {f : Buffer → Buffer} (hf : ∀ b, (f b).length = b.length)
    (x : Variable) : (x.mapBuffer f).shape = x.shape := by
  rw [mapBuffer]
  cases hb : x.buffer? with
  | none => rfl
  | some b => exact shape_setBuffer (buffer?_eq_some.1 hb) (hf b)

/-- What a scalar is after it is overwritten is told by its shape and the value. -/
theorem Variable.setValue_of_shape {x y : Variable} (h : y.shape = x.shape)
    (hx : x.isArray = false) (v : Value) :
    y.setValue v = { x with storage := .scalar (v.convert x.kind) } := by
  have hy : y.isArray = false := by rw [isArray_eq_shape, h, ← isArray_eq_shape, hx]
  obtain ⟨name, kind, modifiers, storage⟩ := x
  obtain ⟨name', kind', modifiers', storage'⟩ := y
  obtain ⟨rfl, rfl, rfl, -⟩ := Shape.mk.inj h
  rw [isArray] at hy
  rw [setValue]
  cases storage' with
  | scalar w => rfl
  | array b => cases hy

/-- A change is told by what it makes of the first variable of the name. -/
theorem Scope.updateFirst_congr {name : String} {f g : Variable → Variable} {xs : List Variable}
    (h : ∀ x, xs.find? (·.name = name) = some x → f x = g x) :
    updateFirst name f xs = updateFirst name g xs := by
  induction xs with
  | nil => rfl
  | cons x xs ih =>
    rw [updateFirst, updateFirst]
    by_cases hx : x.name = name
    · rw [if_pos hx, if_pos hx, h x (by simp [hx])]
    · rw [if_neg hx, if_neg hx, ih fun y hy => h y (by simpa [List.find?_cons, hx] using hy)]

theorem Scope.updateFirst_id (name : String) (xs : List Variable) :
    updateFirst name id xs = xs := by
  induction xs with
  | nil => rfl
  | cons x xs ih =>
    rw [updateFirst, ih]
    split <;> rfl

namespace Chain

theorem updateIn_congr {name : String} {f g : Variable → Variable} {ss : List Scope}
    (h : ∀ x, findIn name ss = some x → f x = g x) : updateIn name f ss = updateIn name g ss := by
  induction ss with
  | nil => rfl
  | cons s ss ih =>
    rw [updateIn, updateIn]
    by_cases hs : s.contains name
    · have hfirst : s.update name f = s.update name g := by
        refine congrArg Scope.mk (Scope.updateFirst_congr fun x hx => h x ?_)
        rw [findIn_cons, Scope.find?, hx]
        rfl
      rw [if_pos hs, if_pos hs, hfirst]
    · have hnone : s.find? name = none := by
        rw [← Option.not_isSome_iff_eq_none, Scope.find?_isSome]
        exact hs
      rw [if_neg hs, if_neg hs, ih fun x hx => h x (by rw [findIn_cons, hnone]; exact hx)]

theorem updateIn_id (name : String) (ss : List Scope) : updateIn name id ss = ss := by
  induction ss with
  | nil => rfl
  | cons s ss ih =>
    rw [updateIn, ih, Scope.update, Scope.updateFirst_id]
    split <;> rfl

/-- In a chain of two parts a name is changed in the outer one only if the inner one has none. -/
theorem updateIn_append (name : String) (f : Variable → Variable) (inner outer : List Scope) :
    updateIn name f (inner ++ outer) =
      if inner.any (·.contains name) then updateIn name f inner ++ outer
      else inner ++ updateIn name f outer := by
  induction inner with
  | nil => rfl
  | cons s inner ih =>
    rw [List.cons_append, updateIn, updateIn, List.any_cons, ih]
    cases hs : s.contains name with
    | true => rfl
    | false =>
      simp only [Bool.false_eq_true, if_false, Bool.false_or]
      split <;> rfl

theorem ext_scopes {c c' : Chain} (hs : c'.scopes = c.scopes)
    (he : c'.entered = c.entered) (hx : c'.exited = c.exited) (hc : c'.calls = c.calls)
    (hl : c'.limit = c.limit) : c' = c := by
  obtain ⟨hcurrent, houter⟩ := List.cons.inj hs
  cases c
  cases c'
  simp_all

theorem update_congr {c : Chain} {name : String} {f g : Variable → Variable}
    (h : ∀ x, c.find? name = some x → f x = g x) : c.update name f = c.update name g := by
  refine ext_scopes ?_ (by simp) (by simp) (by simp) (by simp)
  rw [scopes_update, scopes_update]
  exact updateIn_congr h

/-- Where the variable of a name stays, so does the chain, and so it does where there is none. -/
theorem update_of_fixed {c : Chain} {name : String} {f : Variable → Variable}
    (h : ∀ x, c.find? name = some x → f x = x) : c.update name f = c := by
  rw [update_congr (g := id) h]
  refine ext_scopes ?_ (by simp) (by simp) (by simp) (by simp)
  rw [scopes_update, updateIn_id]

/-- An assignment that is refused is one that leaves the variable as it is. -/
theorem getD_assign (c : Chain) (name : String) (v : Value) :
    ((c.assign name v).toOption.map Prod.fst).getD c =
      c.update name fun x => if x.modifiers.const then x else x.setValue v := by
  rw [assign]
  cases hx : c.find? name with
  | none => exact (update_of_fixed (c := c) fun x h => by rw [hx] at h; cases h).symm
  | some x =>
    have hfound {f : Variable → Variable} (hf : f x = x) : c = c.update name f :=
      (update_of_fixed fun y hy => by cases hx.symm.trans hy; exact hf).symm
    dsimp only
    cases hc : x.modifiers.const with
    | true => exact hfound (by simp [hc])
    | false =>
      cases ha : x.isArray with
      | true =>
        have hset : x.setValue v = x := by
          rw [Variable.isArray] at ha
          rw [Variable.setValue]
          split <;> simp_all
        exact hfound (by simp [hset])
      | false =>
        refine update_congr fun y hy => ?_
        cases hx.symm.trans hy
        simp [hc]

theorem fst_writeElement (c : Chain) (name : String) (index : Int32) (v : Value) :
    (c.writeElement name index v).1 =
      c.update name (·.mapBuffer fun b => (b.write name index v).1) := by
  rw [writeElement]
  cases hx : c.find? name with
  | none => exact (update_of_fixed (c := c) fun x h => by rw [hx] at h; cases h).symm
  | some x =>
    dsimp only
    cases hs : x.storage with
    | scalar w =>
      refine (update_of_fixed fun y hy => ?_).symm
      cases hx.symm.trans hy
      simp [Variable.mapBuffer, Variable.buffer?, hs]
    | array b =>
      refine update_congr fun y hy => ?_
      cases hx.symm.trans hy
      simp [Variable.mapBuffer, Variable.buffer?, hs]

/-- What is asked of a chain. -/
inductive Op
  | enterScope
  | exitScope
  | enterCall
  | exitCall
  | declare (x : Variable)
  | rebind (x : Variable)
  | assign (name : String) (v : Value)
  | set (name : String) (i : Nat) (v : Value)
  | writeElement (name : String) (index : Int32) (v : Value)
  | storeBytes (name : String) (bytes : List UInt8)

namespace Op

/-- The chain behind an operation. One that fails leaves it as it is. -/
def apply (c : Chain) : Op → Chain
  | enterScope => c.enterScope
  | exitScope => c.exitScope
  | enterCall => c.enterCall.toOption.getD c
  | exitCall => c.exitCall
  | declare x => (c.declare x).toOption.getD c
  | rebind x => if c.current.contains x.name then c.replaceCurrent x else c
  | assign name v => ((c.assign name v).toOption.map Prod.fst).getD c
  | set name i v => c.update name (·.mapBuffer fun b => (b.set? i v).getD b)
  | writeElement name index v => (c.writeElement name index v).1
  | storeBytes name bytes => c.update name (·.mapBuffer fun b => (b.store? bytes).getD b)

def target? : Op → Option String
  | assign name _ | set name _ _ | writeElement name _ _ | storeBytes name _ => some name
  | _ => none

def change : Op → Variable → Variable
  | assign _ v, x => if x.modifiers.const then x else x.setValue v
  | set _ i v, x => x.mapBuffer fun b => (b.set? i v).getD b
  | writeElement name index v, x => x.mapBuffer fun b => (b.write name index v).1
  | storeBytes _ bytes, x => x.mapBuffer fun b => (b.store? bytes).getD b
  | _, x => x

theorem shape_change (op : Op) (x : Variable) : (op.change x).shape = x.shape := by
  cases op with
  | assign name v =>
    rw [change]
    split
    · rfl
    · exact x.shape_setValue v
  | set name i v =>
    refine Variable.shape_mapBuffer (fun b => ?_) x
    cases hb : b.set? i v with
    | none => rfl
    | some b' => exact (Buffer.set?_eq_some hb).2.1
  | writeElement name index v => exact Variable.shape_mapBuffer (fun b => by simp) x
  | storeBytes name bytes =>
    refine Variable.shape_mapBuffer (fun b => ?_) x
    cases hb : b.store? bytes with
    | none => rfl
    | some b' => exact (Buffer.store?_eq_some hb).2
  | _ => rfl

/-- A write changes the innermost variable of its name and nothing else. -/
theorem apply_eq_update {op : Op} {name : String} (h : op.target? = some name) (c : Chain) :
    op.apply c = c.update name op.change := by
  cases op with
  | assign other v =>
    cases h
    exact c.getD_assign name v
  | set other i v =>
    cases h
    rfl
  | writeElement other index v =>
    cases h
    exact c.fst_writeElement name index v
  | storeBytes other bytes =>
    cases h
    rfl
  | _ => cases h

/-- What an operation comes to: one scope more or one less, another count of calls, a variable that
is bound in the current scope, or one that is written, which keeps its shape. -/
inductive Comes (c : Chain) (op : Op) : Chain → Prop
  | inward : op.target? = none → Comes c op c.enterScope
  | outward : op.target? = none → Comes c op c.exitScope
  | calls {n : Nat} : op.target? = none → n ≤ c.limit ∨ n ≤ c.calls →
      Comes c op { c with calls := n }
  | binds (x : Variable) : op.target? = none → Comes c op { c with current := c.current.insert x }
  | writes {name : String} : op.target? = some name → Comes c op (c.update name op.change)

theorem comes (op : Op) (c : Chain) : Comes c op (op.apply c) := by
  cases ht : op.target? with
  | some name =>
    rw [apply_eq_update ht]
    exact .writes ht
  | none =>
    have hstays : Comes c op c := .calls (n := c.calls) ht (.inr (Nat.le_refl _))
    cases op with
    | enterScope => exact .inward ht
    | exitScope => exact .outward ht
    | enterCall =>
      rw [apply]
      cases hc : c.enterCall with
      | error e => exact hstays
      | ok c' =>
        obtain ⟨hlt, rfl⟩ := enterCall_eq_ok.1 hc
        exact .calls ht (.inl hlt)
    | exitCall => exact .calls ht (.inr (Nat.sub_le _ _))
    | declare x =>
      rw [apply]
      cases hc : c.declare x with
      | error e => exact hstays
      | ok c' =>
        obtain ⟨-, rfl⟩ := declare_eq_ok.1 hc
        exact .binds x ht
    | rebind x =>
      rw [apply]
      split
      · exact .binds x ht
      · exact hstays
    | _ => cases ht

theorem Comes.limit {c c' : Chain} {op : Op} (h : Comes c op c') : c'.limit = c.limit := by
  cases h with
  | outward => exact c.limit_exitScope
  | writes => exact c.limit_update _ _
  | _ => rfl

theorem Comes.balanced {c c' : Chain} {op : Op} (h : Comes c op c') (hc : c.Balanced) :
    c'.Balanced := by
  cases h with
  | inward => exact hc.enterScope
  | outward => exact hc.exitScope
  | calls _ hn => exact ⟨hc.1, hn.elim id fun hle => Nat.le_trans hle hc.2⟩
  | binds => exact hc
  | writes => simpa [Balanced] using hc

end Op

def run (c : Chain) (ops : List Op) : Chain := ops.foldl Op.apply c

theorem run_nil (c : Chain) : c.run [] = c := rfl

theorem run_cons (c : Chain) (op : Op) (ops : List Op) :
    c.run (op :: ops) = (op.apply c).run ops := rfl

theorem run_append (c : Chain) (ops ops' : List Op) :
    c.run (ops ++ ops') = (c.run ops).run ops' := List.foldl_append

theorem limit_run (c : Chain) (ops : List Op) : (c.run ops).limit = c.limit := by
  induction ops generalizing c with
  | nil => rfl
  | cons op ops ih => rw [run_cons, ih, (op.comes c).limit]

theorem balanced_run {c : Chain} (h : c.Balanced) (ops : List Op) : (c.run ops).Balanced := by
  induction ops generalizing c with
  | nil => exact h
  | cons op ops ih => exact ih ((op.comes c).balanced h)

section Brackets

variable {c c₀ : Chain} {d : Nat} {name : String}

def inside (c : Chain) (d : Nat) : List Scope := c.scopes.take (c.depth - d)

/-- The scopes that make up a depth. -/
def outside (c : Chain) (d : Nat) : List Scope := c.scopes.drop (c.depth - d)

theorem length_scopes (c : Chain) : c.scopes.length = c.depth := rfl

theorem inside_append_outside (c : Chain) (d : Nat) : c.inside d ++ c.outside d = c.scopes :=
  List.take_append_drop _ _

/-- A write goes to the scopes outside, as its name is not bound inside. -/
def Op.reaches (op : Op) (c : Chain) (d : Nat) : Bool :=
  match op.target? with
  | some name => !(c.inside d).any (·.contains name)
  | none => false

theorem Op.reaches_eq_true {op : Op} : op.reaches c d = true ↔
    ∃ name, op.target? = some name ∧ (c.inside d).any (·.contains name) = false := by
  rw [reaches]
  cases op.target? <;> simp

/-- The writes that go to the scopes outside, when their turn comes. -/
def reaching (d : Nat) (c : Chain) : List Op → List Op
  | [] => []
  | op :: ops =>
    if op.reaches c d then op :: reaching d (op.apply c) ops else reaching d (op.apply c) ops

theorem length_inside (c : Chain) (d : Nat) : (c.inside d).length = c.depth - d := by
  rw [inside, List.length_take, length_scopes]
  omega

theorem outside_update_of_bound (f : Variable → Variable)
    (h : (c.inside d).any (·.contains name) = true) :
    (c.update name f).outside d = c.outside d := by
  have hlength : c.depth - d = (updateIn name f (c.inside d)).length := by
    rw [length_updateIn, length_inside]
  rw [outside, depth_update, scopes_update, ← c.inside_append_outside d, updateIn_append, if_pos h,
    hlength, List.drop_left]

theorem outside_update_of_free (f : Variable → Variable)
    (h : (c.inside d).any (·.contains name) = false) :
    (c.update name f).outside d = updateIn name f (c.outside d) := by
  rw [outside, depth_update, scopes_update, ← c.inside_append_outside d, updateIn_append,
    if_neg (by simp [h]), ← length_inside, List.drop_left]

theorem outside_enterScope (h : d ≤ c.depth) : c.enterScope.outside d = c.outside d := by
  have hdepth : c.enterScope.depth - d = c.depth - d + 1 := Nat.succ_sub h
  rw [outside, hdepth]
  rfl

theorem exitScope_of_depth_le (h : ¬ 1 < c.depth) : c.exitScope = c := by
  have houter : c.outer = [] := by
    rw [depth] at h
    exact List.length_eq_zero_iff.1 (by omega)
  rw [exitScope, houter]

theorem outside_exitScope (h : d < c.exitScope.depth) : c.exitScope.outside d = c.outside d := by
  by_cases hone : 1 < c.depth
  · have hexit := depth_exitScope hone
    have hdepth : c.depth - d = c.exitScope.depth - d + 1 := by omega
    rw [outside, outside, scopes_exitScope hone, hdepth]
    rfl
  · rw [exitScope_of_depth_le hone]

/-- What is done to the current scope is done inside. -/
theorem outside_current (s : Scope) (h : d < c.depth) :
    { c with current := s }.outside d = c.outside d := by
  obtain ⟨k, hk⟩ := Nat.exists_eq_add_one.2 (Nat.sub_pos_of_lt h)
  have hdepth : { c with current := s }.depth - d = k + 1 := hk
  rw [outside, outside, hdepth, hk]
  rfl

/-- Inside, an operation does to the scopes outside what it does to a chain of these alone, if it is
a write that reaches them, and else nothing. -/
theorem Op.Comes.outside {c' : Chain} {op : Op} (h : Op.Comes c op c') (hc : d < c.depth)
    (hc' : d < c'.depth) (ho : c.outside d = c₀.scopes) :
    c'.outside d = (if op.reaches c d then op.apply c₀ else c₀ : Chain).scopes := by
  have hkept (hr : ¬ op.reaches c d) (h : c'.outside d = c.outside d) :
      c'.outside d = (if op.reaches c d then op.apply c₀ else c₀ : Chain).scopes := by
    rw [if_neg hr, h, ho]
  have hstays (ht : op.target? = none) : ¬ op.reaches c d := by
    rw [Op.reaches, ht]
    exact Bool.false_ne_true
  cases h with
  | inward ht => exact hkept (hstays ht) (outside_enterScope (Nat.le_of_lt hc))
  | outward ht => exact hkept (hstays ht) (outside_exitScope hc')
  | calls ht => exact hkept (hstays ht) rfl
  | binds x ht => exact hkept (hstays ht) (outside_current _ hc)
  | @writes name ht =>
    cases hb : (c.inside d).any (·.contains name) with
    | true =>
      refine hkept (fun hr => ?_) (outside_update_of_bound _ hb)
      obtain ⟨name', ht', hfree⟩ := Op.reaches_eq_true.1 hr
      cases ht.symm.trans ht'
      rw [hb] at hfree
      cases hfree
    | false =>
      rw [if_pos (Op.reaches_eq_true.2 ⟨name, ht, hb⟩), outside_update_of_free _ hb, ho,
        ← scopes_update, ← Op.apply_eq_update ht]

/-- Operations that never leave the scopes within a depth. -/
def StaysWithin (d : Nat) (c : Chain) (ops : List Op) : Prop :=
  ∀ before, before <+: ops → d < (c.run before).depth

theorem StaysWithin.start {ops : List Op} (h : StaysWithin d c ops) : d < c.depth :=
  h [] List.nil_prefix

theorem StaysWithin.next {op : Op} {ops : List Op} (h : StaysWithin d c (op :: ops)) :
    StaysWithin d (op.apply c) ops :=
  fun before hb => h (op :: before) (List.cons_prefix_cons.2 ⟨rfl, hb⟩)

/-- What is done inside is done to the scopes outside by the writes that reach them, alone. -/
theorem outside_run {ops : List Op} (h : StaysWithin d c ops) (ho : c.outside d = c₀.scopes) :
    (c.run ops).outside d = (c₀.run (reaching d c ops)).scopes := by
  induction ops generalizing c c₀ with
  | nil => exact ho
  | cons op ops ih =>
    have hstep := (op.comes c).outside h.start h.next.start ho
    have hrun := ih h.next hstep
    rw [run_cons, reaching, hrun]
    by_cases hr : op.reaches c d = true
    · rw [if_pos hr, if_pos hr, run_cons]
    · rw [if_neg hr, if_neg hr]

theorem reaching_append (d : Nat) (c : Chain) (ops ops' : List Op) :
    reaching d c (ops ++ ops') = reaching d c ops ++ reaching d (c.run ops) ops' := by
  induction ops generalizing c with
  | nil => rfl
  | cons op ops ih =>
    rw [List.cons_append, reaching, reaching, ih]
    split <;> rfl

/-- A write that reaches outside is one, and its name is not bound inside when its turn comes. -/
theorem target?_of_mem_reaching {op : Op} {ops : List Op} (h : op ∈ reaching d c ops) :
    ∃ name before after, ops = before ++ op :: after ∧ op.target? = some name ∧
      ((c.run before).inside d).any (·.contains name) = false := by
  induction ops generalizing c with
  | nil => cases h
  | cons op' ops ih =>
    rw [reaching] at h
    have hlater (h : op ∈ reaching d (op'.apply c) ops) :
        ∃ name before after, op' :: ops = before ++ op :: after ∧ op.target? = some name ∧
          ((c.run before).inside d).any (·.contains name) = false := by
      obtain ⟨name, before, after, rfl, ht, hfree⟩ := ih h
      exact ⟨name, op' :: before, after, rfl, ht, hfree⟩
    by_cases hr : op'.reaches c d = true
    · rw [if_pos hr] at h
      rcases List.mem_cons.1 h with rfl | h
      · obtain ⟨name, ht, hfree⟩ := Op.reaches_eq_true.1 hr
        exact ⟨name, [], ops, rfl, ht, hfree⟩
      · exact hlater h
    · rw [if_neg hr] at h
      exact hlater h

end Brackets

section Writes

variable {c : Chain} {ops : List Op}

def OnlyWrites (ops : List Op) : Prop := ∀ op ∈ ops, ∃ name, op.target? = some name

theorem onlyWrites_reaching (d : Nat) (c : Chain) (ops : List Op) :
    OnlyWrites (reaching d c ops) := by
  intro op hop
  obtain ⟨name, -, -, -, ht, -⟩ := target?_of_mem_reaching hop
  exact ⟨name, ht⟩

theorem shapes_run (h : OnlyWrites ops) : (c.run ops).shapes = c.shapes := by
  induction ops generalizing c with
  | nil => rfl
  | cons op ops ih =>
    obtain ⟨name, ht⟩ := h op List.mem_cons_self
    rw [run_cons, ih fun op' hop => h op' (List.mem_cons_of_mem op hop), Op.apply_eq_update ht]
    exact shapes_update fun x _ => op.shape_change x

theorem name_change (op : Op) (x : Variable) : (op.change x).name = x.name :=
  congrArg Variable.Shape.name (op.shape_change x)

/-- Writes to other names leave a variable where it is and as it is. -/
theorem var?_run {i j : Nat} {x : Variable} (hx : c.var? i j = some x)
    (h : ∀ op ∈ ops, ∃ name, op.target? = some name ∧ name ≠ x.name) :
    (c.run ops).var? i j = some x := by
  induction ops generalizing c with
  | nil => exact hx
  | cons op ops ih =>
    obtain ⟨name, ht, hn⟩ := h op List.mem_cons_self
    refine ih ?_ fun op' hop => h op' (List.mem_cons_of_mem op hop)
    rw [Op.apply_eq_update ht]
    rcases var?_update op.change hx with hkept | hfound
    · exact hkept
    · exact absurd (name_of_find? hfound).symm hn

theorem find?_run {name : String}
    (h : ∀ op ∈ ops, ∃ other, op.target? = some other ∧ other ≠ name) :
    (c.run ops).find? name = c.find? name := by
  induction ops generalizing c with
  | nil => rfl
  | cons op ops ih =>
    obtain ⟨other, ht, hn⟩ := h op List.mem_cons_self
    rw [run_cons, ih fun op' hop => h op' (List.mem_cons_of_mem op hop), Op.apply_eq_update ht,
      find?_update _ _ _ _ fun x hx => (name_change op x).trans hx, if_neg hn.symm]

end Writes

section Names

variable {c : Chain} {d : Nat} {name : String}

theorem names_insert {s : Scope} (x : Variable) (h : name ∈ s.names) :
    name ∈ (s.insert x).names := by
  cases hx : s.contains x.name with
  | true => rwa [Scope.names_insert_of_contains hx]
  | false =>
    rw [Scope.names_insert_of_not_contains hx]
    exact List.mem_append_left _ h

/-- A name that is bound in the outermost scope inside stays bound there. -/
theorem Op.Comes.keepsBound {c' : Chain} {op : Op} (h : Op.Comes c op c') (hc : d < c.depth)
    (hc' : d < c'.depth) (hb : c.Binds (c.depth - d - 1) name) :
    c'.Binds (c'.depth - d - 1) name := by
  cases h with
  | inward =>
    have hplace : c.enterScope.depth - d - 1 = c.depth - d - 1 + 1 := by
      simp only [depth, Chain.enterScope, List.length_cons] at hc ⊢
      omega
    rw [hplace]
    exact binds_enterScope.2 hb
  | outward =>
    by_cases hone : 1 < c.depth
    · have hexit := depth_exitScope hone
      have hplace : c.depth - d - 1 = c.exitScope.depth - d - 1 + 1 := by omega
      rw [hplace] at hb
      exact binds_exitScope hb
    · rw [exitScope_of_depth_le hone]
      exact hb
  | calls => exact hb
  | binds x =>
    have hdepth : { c with current := c.current.insert x }.depth = c.depth := rfl
    rw [hdepth]
    obtain ⟨s, hs, hn⟩ := hb
    cases hk : c.depth - d - 1 with
    | zero =>
      rw [hk] at hs
      cases hs
      exact ⟨_, rfl, names_insert x hn⟩
    | succ k =>
      rw [hk] at hs
      exact ⟨s, hs, hn⟩
  | writes =>
    rw [depth_update, binds_iff_shapes, shapes_update fun x _ => op.shape_change x,
      ← binds_iff_shapes]
    exact hb

theorem keepsBound_run {ops : List Op} (h : StaysWithin d c ops)
    (hb : c.Binds (c.depth - d - 1) name) :
    (c.run ops).Binds ((c.run ops).depth - d - 1) name := by
  induction ops generalizing c with
  | nil => exact hb
  | cons op ops ih =>
    exact ih h.next ((op.comes c).keepsBound h.start h.next.start hb)

theorem StaysWithin.of_prefix {ops before : List Op} (h : StaysWithin d c ops)
    (hb : before <+: ops) : StaysWithin d c before := fun _ hp => h _ (hp.trans hb)

theorem StaysWithin.behind {ops ops' : List Op} (h : StaysWithin d c (ops ++ ops')) :
    StaysWithin d (c.run ops) ops' := by
  intro before hb
  rw [← run_append]
  exact h _ ((List.prefix_append_right_inj ops).2 hb)

/-- No write reaches outside whose name is bound in the outermost scope inside. -/
theorem target?_of_bound {ops : List Op} (h : StaysWithin d c ops)
    (hb : c.Binds (c.depth - d - 1) name) {op : Op} (hop : op ∈ reaching d c ops) :
    ∃ other, op.target? = some other ∧ other ≠ name := by
  obtain ⟨other, before, after, rfl, ht, hfree⟩ := target?_of_mem_reaching hop
  refine ⟨other, ht, ?_⟩
  rintro rfl
  have hwithin := h.of_prefix (List.prefix_append before (op :: after))
  obtain ⟨s, hs, hn⟩ := keepsBound_run hwithin hb
  have hdepth := hwithin before (List.prefix_refl before)
  have hmem : s ∈ (c.run before).inside d := by
    refine List.mem_of_getElem? (i := (c.run before).depth - d - 1) ?_
    rw [inside, List.getElem?_take_of_lt (by omega)]
    exact hs
  have hcontains : ((c.run before).inside d).any (·.contains other) = true :=
    List.any_eq_true.2 ⟨s, hmem, (Scope.contains_iff s other).2 hn⟩
  rw [hfree] at hcontains
  cases hcontains

theorem apply_declare (c : Chain) (x : Variable) :
    ((Op.declare x).apply c).depth = c.depth ∧ x.name ∈ ((Op.declare x).apply c).current.names ∧
      ∀ name ∈ c.current.names, name ∈ ((Op.declare x).apply c).current.names := by
  rw [Op.apply, declare]
  cases hx : c.current.contains x.name with
  | true => exact ⟨rfl, (Scope.contains_iff _ _).1 hx, fun _ hn => hn⟩
  | false =>
    refine ⟨rfl, ?_, fun _ hn => names_insert x hn⟩
    exact (Scope.names_insert_of_not_contains hx) ▸ List.mem_append_right _ List.mem_cons_self

/-- Declarations bind their names in the current scope, or find them bound there. -/
theorem run_declare (c : Chain) (xs : List Variable) :
    (c.run (xs.map .declare)).depth = c.depth ∧
      ∀ name, name ∈ c.current.names ∨ name ∈ xs.map (·.name) →
        name ∈ (c.run (xs.map .declare)).current.names := by
  induction xs generalizing c with
  | nil => exact ⟨rfl, fun name hn => hn.elim id (by simp)⟩
  | cons x xs ih =>
    obtain ⟨hdepth, hx, hkept⟩ := c.apply_declare x
    obtain ⟨hdepth', hnames⟩ := ih ((Op.declare x).apply c)
    refine ⟨hdepth'.trans hdepth, fun name hn => hnames name ?_⟩
    rcases hn with hn | hn
    · exact .inl (hkept name hn)
    · rcases List.mem_cons.1 hn with rfl | hn
      · exact .inl hx
      · exact .inr hn

theorem reaching_declare (d : Nat) (c : Chain) (xs : List Variable) :
    reaching d c (xs.map .declare) = [] := by
  induction xs generalizing c with
  | nil => rfl
  | cons x xs ih => exact ih _

end Names

/-- Operations that never leave the scope they begin in, and end there. -/
structure Nested (c : Chain) (ops : List Op) : Prop where
  above (before : List Op) : before <+: ops → c.depth ≤ (c.run before).depth
  ends : (c.run ops).depth = c.depth

theorem nested_iff {c : Chain} {ops : List Op} : c.Nested ops ↔
    (∀ before ∈ ops.inits, c.depth ≤ (c.run before).depth) ∧ (c.run ops).depth = c.depth := by
  simp only [List.mem_inits]
  exact ⟨fun h => ⟨h.above, h.ends⟩, fun h => ⟨h.1, h.2⟩⟩

instance (c : Chain) (ops : List Op) : Decidable (c.Nested ops) :=
  decidable_of_iff _ nested_iff.symm

/-- What is left of operations in a scope of their own when that is exited again. -/
structure Bracketed (c : Chain) (ops : List Op) (c' : Chain) : Prop where
  /-- Names, kinds, modifiers and lengths are those there were. -/
  shapes : c'.shapes = c.shapes
  /-- The scopes are as if only the writes that reach them had been done. -/
  scopes : c'.scopes = (c.run (reaching c.depth c.enterScope ops)).scopes
  /-- A variable keeps what it holds if its name is declared before anything else is done. -/
  declared (xs : List Variable) (rest : List Op) : ops = xs.map .declare ++ rest →
    ∀ (i j : Nat) (x : Variable), c.var? i j = some x → x.name ∈ xs.map (·.name) →
      c'.var? i j = some x
  /-- A scalar whose name is not bound inside when it is assigned to holds the value, converted, up
  to the next write that reaches it. -/
  assigned (before after : List Op) (name : String) (v : Value) (x : Variable) :
    ops = before ++ .assign name v :: after → c.find? name = some x → x.modifiers.const = false →
    x.isArray = false → ((c.enterScope.run before).inside c.depth).any (·.contains name) = false →
    (∀ op ∈ reaching c.depth (c.enterScope.run (before ++ [.assign name v])) after,
      op.target? ≠ some name) →
    c'.find? name = some { x with storage := .scalar (v.convert x.kind) }

namespace Nested

variable {c : Chain} {ops : List Op}

theorem staysWithin (h : c.enterScope.Nested ops) : StaysWithin c.depth c.enterScope ops :=
  h.above

/-- Behind the exit there are the scopes that were outside. -/
theorem scopes_eq (h : c.enterScope.Nested ops) : (c.enterScope.run ops).exitScope.scopes =
    (c.run (reaching c.depth c.enterScope ops)).scopes := by
  have hentered : c.enterScope.outside c.depth = c.scopes := by
    rw [outside_enterScope (Nat.le_refl _), outside, Nat.sub_self]
    rfl
  have hends : (c.enterScope.run ops).depth = c.depth + 1 := h.ends
  rw [← outside_run h.staysWithin hentered, outside, hends, Nat.add_sub_cancel_left,
    scopes_exitScope (hends ▸ Nat.succ_lt_succ (Nat.succ_pos _))]
  rfl

end Nested

theorem bracketed {c : Chain} {ops : List Op} (h : c.enterScope.Nested ops) :
    Bracketed c ops (c.enterScope.run ops).exitScope := by
  have hscopes := h.scopes_eq
  have hshapes (ops : List Op) : (c.run (reaching c.depth c.enterScope ops)).shapes = c.shapes :=
    shapes_run (onlyWrites_reaching _ _ _)
  refine ⟨?_, hscopes, ?_, ?_⟩
  · rw [shapes, hscopes, ← shapes, hshapes]
  · rintro xs rest rfl i j x hx hn
    rw [var?, hscopes, ← var?]
    refine var?_run hx fun op hop => ?_
    rw [reaching_append, reaching_declare, List.nil_append] at hop
    obtain ⟨hdepth, hnames⟩ := c.enterScope.run_declare xs
    refine target?_of_bound h.staysWithin.behind ?_ hop
    have hzero : (c.enterScope.run (xs.map .declare)).depth - c.depth - 1 = 0 := by
      have hentered : c.enterScope.depth = c.depth + 1 := rfl
      omega
    rw [hzero]
    exact ⟨_, rfl, hnames x.name (.inr hn)⟩
  · rintro before after name v x rfl hx hc ha hfree hafter
    have hreaches : (Op.assign name v).reaches (c.enterScope.run before) c.depth = true :=
      Op.reaches_eq_true.2 ⟨name, rfl, hfree⟩
    obtain ⟨y, hy, hyx⟩ := find?_of_shapes (hshapes before) hx
    have hconst : y.modifiers.const = false := (congrArg (·.modifiers.const) hyx).trans hc
    have happly (c' : Chain) :
        (Op.assign name v).apply c' = c'.update name (Op.assign name v).change :=
      Op.apply_eq_update rfl c'
    rw [run_append, run_cons, run_nil] at hafter
    rw [find?, hscopes, ← find?, reaching_append, reaching, if_pos hreaches, run_append, run_cons,
      find?_run fun op hop => ?_, happly,
      find?_update _ _ _ _ fun z hz => (name_change _ z).trans hz, if_pos rfl, hy]
    · simp [Op.change, hconst, Variable.setValue_of_shape hyx ha]
    · obtain ⟨other, ht⟩ := onlyWrites_reaching _ _ _ op hop
      exact ⟨other, ht, fun hother => hafter op hop (hother ▸ ht)⟩

/-- A chain tells by its depth the scopes that were entered and not exited, the global one counted,
and keeps the limit on calls. Operations in a scope of their own leave nothing behind in the scopes
around it but what they write to names that are not bound inside. -/
theorem scopes_bracketed :
    (∀ (limit : Nat) (ops : List Op),
      (((new limit).run ops).depth : Int) =
          1 + ((new limit).run ops).entered - ((new limit).run ops).exited ∧
        1 ≤ ((new limit).run ops).depth ∧ ((new limit).run ops).calls ≤ limit) ∧
    ∀ (c : Chain) (ops : List Op), c.enterScope.Nested ops →
      Bracketed c ops (c.enterScope.run ops).exitScope := by
  refine ⟨fun limit ops => ?_, fun c ops h => bracketed h⟩
  obtain ⟨hdepth, hcalls⟩ := balanced_run (balanced_new limit) ops
  rw [limit_run] at hcalls
  exact ⟨by omega, Nat.succ_pos _, hcalls⟩

/-- Two globals, of which one is shadowed first thing inside. Further in, where a second call is
refused, the inner one and the other global are assigned to. -/
def globalsOnly : Chain :=
  (new 1).run
    [.declare (.scalar "x" .int (.int 1) .none), .declare (.scalar "y" .char (.int 2) .none)]

def shadowing : List Op :=
  [.declare (.scalar "x" .char (.int 9) .none), .enterScope, .enterCall, .enterCall,
    .assign "x" (.int 5), .assign "y" (.int 300), .exitCall, .exitScope]

theorem scopes_bracketed_shadowing :
    globalsOnly.enterScope.Nested shadowing ∧
      let c := (globalsOnly.enterScope.run shadowing).exitScope
      c.var? 0 0 = some (.scalar "x" .int (.int 1) .none) ∧
      c.find? "y" = some (.scalar "y" .char (.int 44) .none) := by
  have hnested : globalsOnly.enterScope.Nested shadowing := by decide
  have h := scopes_bracketed.2 globalsOnly shadowing hnested
  refine ⟨hnested, h.declared [_] _ rfl 0 0 _ rfl (by decide), ?_⟩
  exact h.assigned [_, _, _, _, _] [_, _] "y" (.int 300) (.scalar "y" .char (.int 2) .none)
    rfl rfl rfl rfl rfl (by decide)

end Chain
end Yap
