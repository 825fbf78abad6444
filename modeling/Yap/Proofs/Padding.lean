import Yap.Proofs.Congruence.Evaluation

/-! Empty scopes that hide nothing. A machine is padded by empty scopes somewhere in its chain, and
may have entered and exited other numbers of scopes, at other depths. Main statement: all that
evaluates or executes does the same on a padded machine, expressions wherever the padding is and
statements if it is further out than the current scope. -/
namespace Yap

/-- Two ends of one kind, on related machines. -/
inductive Outcome.Alike {α : Type} (R : Machine → Machine → Prop) :
    Outcome α → Outcome α → Prop
  | done (a : α) {m m' : Machine} : R m m' → Alike R (.done a m) (.done a m')
  | stopped (s : Stop) {m m' : Machine} : R m m' → Alike R (.stopped s m) (.stopped s m')
  | outOfFuel : Alike R .outOfFuel .outOfFuel

/-- From related machines two computations end alike. -/
def Run.Respects {α : Type} (R : Machine → Machine → Prop) (x y : Run α) : Prop :=
  ∀ ⦃m m' : Machine⦄, R m m' → (x m).Alike R (y m')

namespace Outcome.Alike

variable {α : Type} {R R' : Machine → Machine → Prop} {o o' : Outcome α}

theorem mono (h : o.Alike R o') (hr : ∀ {m m'}, o.machine? = some m → o'.machine? = some m' →
    R m m' → R' m m') : o.Alike R' o' := by
  cases h with
  | done a h => exact .done a (hr rfl rfl h)
  | stopped s h => exact .stopped s (hr rfl rfl h)
  | outOfFuel => exact .outOfFuel

theorem outOfFuel_iff (h : o.Alike R o') : o = .outOfFuel ↔ o' = .outOfFuel := by
  cases h <;> simp

theorem mapMachine {f g : Machine → Machine} (h : o.Alike R o')
    (hr : ∀ {m m'}, R m m' → R' (f m) (g m')) :
    (o.mapMachine f).Alike R' (o'.mapMachine g) := by
  cases h with
  | done a h => exact .done a (hr h)
  | stopped s h => exact .stopped s (hr h)
  | outOfFuel => exact .outOfFuel

theorem mapStop (h : o.Alike R o') (f : Stop → Stop) : (o.mapStop f).Alike R (o'.mapStop f) := by
  cases h with
  | done a h => exact .done a h
  | stopped s h => exact .stopped (f s) h
  | outOfFuel => exact .outOfFuel

end Outcome.Alike

namespace Run.Respects

variable {α β : Type} {R R' : Machine → Machine → Prop}

theorem pure (a : α) : (pure a : Run α).Respects R (pure a) := fun _ _ h => .done a h

theorem stop (s : Stop) : (Run.stop s : Run α).Respects R (Run.stop s) := fun _ _ h => .stopped s h

theorem exhausted : (Run.exhausted : Run α).Respects R Run.exhausted := fun _ _ _ => .outOfFuel

theorem gets {q : Machine → β} (hq : ∀ {m m'}, R m m' → q m' = q m) :
    (Run.gets q).Respects R (Run.gets q) := by
  intro m m' h
  rw [Run.gets, Run.gets, hq h]
  exact .done _ h

theorem modify {f g : Machine → Machine} (hr : ∀ {m m'}, R m m' → R (f m) (g m')) :
    (Run.modify f).Respects R (Run.modify g) := fun _ _ h => .done () (hr h)

theorem bind {x y : Run α} {f g : α → Run β} (hx : x.Respects R y)
    (hf : ∀ a, (f a).Respects R (g a)) : (x >>= f).Respects R (y >>= g) := by
  intro m m' h
  have hxy := hx h
  rw [bind_apply, bind_apply]
  generalize x m = o, y m' = o' at hxy
  cases hxy with
  | done a h => exact hf a h
  | stopped s h => exact .stopped s h
  | outOfFuel => exact .outOfFuel

theorem bracket {up down up' down' : Machine → Machine} {x y : Run α} (hx : x.Respects R' y)
    (hup : ∀ {m m'}, R m m' → R' (up m) (up' m'))
    (hdown : ∀ {m m'}, R' m m' → R (down m) (down' m')) :
    (Run.bracket up down x).Respects R (Run.bracket up' down' y) :=
  fun _ _ h => (hx (hup h)).mapMachine hdown

theorem iterate {turn turn' : Run (Option Flow)} (ht : turn.Respects R turn') (n : Nat) :
    (Runner.iterate turn n).Respects R (Runner.iterate turn' n) := by
  induction n with
  | zero => exact exhausted
  | succ n ih =>
    rw [Runner.iterate_succ, Runner.iterate_succ]
    refine bind ht fun o => ?_
    cases o with
    | none => exact ih
    | some f => exact pure f

end Run.Respects

namespace Chain

/-- Lists of scopes, of which the second has so many empty ones more in front of the last ones of
both. -/
inductive Pads (p k : Nat) : List Scope → List Scope → Prop
  | here {ss : List Scope} : ss.length = k → Pads p k ss (List.replicate p .empty ++ ss)
  | cons (s : Scope) {ss ts : List Scope} : Pads p k ss ts → Pads p k (s :: ss) (s :: ts)

namespace Pads

variable {p k : Nat} {s t : Scope} {ss ts : List Scope}

theorem refl (ss : List Scope) : Pads 0 0 ss ss := by
  induction ss with
  | nil => exact .here rfl
  | cons s ss ih => exact .cons s ih

theorem eq (h : Pads 0 k ss ts) : ts = ss := by
  induction h with
  | here _ => rfl
  | cons s _ ih => rw [ih]

theorem le (h : Pads p k ss ts) : k ≤ ss.length := by
  induction h with
  | here hk => exact Nat.le_of_eq hk.symm
  | cons s _ ih => exact Nat.le_succ_of_le ih

theorem length (h : Pads p k ss ts) : ts.length = ss.length + p := by
  induction h with
  | here _ => simp [Nat.add_comm]
  | cons s _ ih => simp only [List.length_cons, ih, Nat.add_right_comm]

/-- All that is not further in than the padding is behind it. -/
theorem eq_of_length (h : Pads p k ss ts) (hk : ss.length ≤ k) :
    ts = List.replicate p .empty ++ ss := by
  cases h with
  | here _ => rfl
  | cons s h =>
    have hle := h.le
    simp only [List.length_cons] at hk
    omega

theorem tail (h : Pads p k (s :: ss) (t :: ts)) (hk : k ≤ ss.length) :
    t = s ∧ Pads p k ss ts := by
  generalize hs : s :: ss = ss', ht : t :: ts = ts' at h
  cases h with
  | here hlen =>
    rw [← hs, List.length_cons] at hlen
    omega
  | cons u h =>
    cases hs
    cases ht
    exact ⟨rfl, h⟩

theorem findIn (h : Pads p k ss ts) (name : String) :
    Chain.findIn name ts = Chain.findIn name ss := by
  induction h with
  | @here ss _ =>
    induction p with
    | zero => rfl
    | succ p ih =>
      rw [List.replicate_succ, List.cons_append, findIn_cons, ih]
      rfl
  | cons s _ ih => rw [findIn_cons, findIn_cons, ih]

theorem updateIn (h : Pads p k ss ts) (name : String) (f : Variable → Variable) :
    Pads p k (Chain.updateIn name f ss) (Chain.updateIn name f ts) := by
  induction h with
  | @here ss hk =>
    -- an empty scope has no name to change
    have hpad : Chain.updateIn name f (List.replicate p .empty ++ ss) =
        List.replicate p .empty ++ Chain.updateIn name f ss := by
      clear hk
      induction p with
      | zero => rfl
      | succ p ih =>
        rw [List.replicate_succ, List.cons_append, List.cons_append, ← ih]
        rfl
    rw [hpad]
    exact .here ((length_updateIn name f ss).trans hk)
  | cons s h ih =>
    rw [Chain.updateIn, Chain.updateIn]
    split
    · exact .cons _ h
    · exact .cons s ih

end Pads
end Chain

/-- All that shows of a machine but its scopes: how many were entered and exited does not, nor does
the depth at which a frame was pushed. The log does if it is not written. -/
structure View where
  functions : List Definition
  frames : List FrameKind
  calls : Nat
  limit : Nat
  console : Console
  policy : Policy
  tracing : Bool
  interrupted : Bool
  diagnostics : Array Diagnostic
  line : Option Line
  unwritten : Array Event

namespace View

def write (v : View) (s : Stream) (t : String) : View :=
  { v with console := v.console.write s t }

def record (v : View) (w : Warning) : View :=
  { (if v.policy = .report then v.write .err (diagnosticText v.line w.message ++ "\n") else v) with
    diagnostics := v.diagnostics.push ⟨w, v.line⟩ }

end View

namespace Machine

def view (m : Machine) : View where
  functions := m.functions
  frames := m.frames.map (·.kind)
  calls := m.chain.calls
  limit := m.chain.limit
  console := m.console
  policy := m.policy
  tracing := m.tracing
  interrupted := m.interrupted
  diagnostics := m.diagnostics
  line := m.line
  unwritten := if m.tracing then #[] else m.events

@[simp] theorem view_note (m : Machine) (e : Event) : (m.note e).view = m.view := by
  by_cases h : m.tracing <;> simp [note, view, h]

theorem view_record (m : Machine) (w : Warning) : (m.record w).view = m.view.record w := by
  by_cases hp : m.policy = .report <;> by_cases h : m.tracing <;>
    simp [record, note, Machine.write, view, View.record, View.write, hp, h]

theorem view_register (m : Machine) (d : Definition) :
    (m.register d).view = { m.view with functions := m.view.functions ++ [d] } := by
  by_cases h : m.tracing <;> simp [register, note, view, h]

@[simp] theorem view_update (m : Machine) (name : String) (f : Variable → Variable) :
    ({ m with chain := m.chain.update name f } : Machine).view = m.view := by
  simp [view]

@[simp] theorem view_enterScope (m : Machine) : m.enterScope.view = m.view := by
  rw [enterScope, view_note]
  rfl

@[simp] theorem view_exitScope (m : Machine) : m.exitScope.view = m.view := by
  rw [exitScope]
  split
  · rfl
  · by_cases h : m.tracing <;> simp [note, view, h]

theorem view_pushFrame (m : Machine) (k : FrameKind) :
    (m.pushFrame k).view = { m.view with frames := k :: m.view.frames } := by
  by_cases h : m.tracing <;> simp [pushFrame, note, view, h]

theorem view_popFrame (m : Machine) :
    m.popFrame.view = { m.view with frames := m.view.frames.tail } := by
  cases hf : m.frames with
  | nil => simp [popFrame, view, hf]
  | cons f fs => by_cases h : m.tracing <;> simp [popFrame, note, view, hf, h]

/-- A machine and one with so many empty scopes more, in front of so many that both have last. The
first one has so many scopes in all. -/
structure Padded (p k d : Nat) (m m' : Machine) : Prop where
  scopes : Chain.Pads p k m.chain.scopes m'.chain.scopes
  depth : m.chain.depth = d
  view : m'.view = m.view

namespace Padded

variable {p k d : Nat} {m m' : Machine}

theorem pos (h : m.Padded p k d m') : 0 < d := h.depth ▸ Nat.succ_pos _

theorem depth_eq (h : m.Padded p k d m') : m'.chain.depth = d + p :=
  h.depth ▸ h.scopes.length

theorem of_chain {n n' : Machine} (h : m.Padded p k d m') (hc : n.chain = m.chain)
    (hc' : n'.chain = m'.chain) (hv : n'.view = n.view) : n.Padded p k d n' :=
  ⟨by rw [hc, hc']; exact h.scopes, by rw [hc]; exact h.depth, hv⟩

theorem note (h : m.Padded p k d m') (e e' : Event) : (m.note e).Padded p k d (m'.note e') :=
  h.of_chain (by simp) (by simp) (by simp [h.view])

theorem write (h : m.Padded p k d m') (s : Stream) (t : String) :
    (m.write s t).Padded p k d (m'.write s t) :=
  h.of_chain rfl rfl (congrArg (·.write s t) h.view)

theorem record (h : m.Padded p k d m') (w : Warning) :
    (m.record w).Padded p k d (m'.record w) :=
  h.of_chain (by simp) (by simp) (by rw [view_record, view_record, h.view])

theorem advance (h : m.Padded p k d m') (n : Nat) :
    Padded p k d { m with console := m.console.advance n }
      { m' with console := m'.console.advance n } :=
  h.of_chain rfl rfl (congrArg (fun v : View => { v with console := v.console.advance n }) h.view)

theorem setLine (h : m.Padded p k d m') (l : Option Line) :
    Padded p k d { m with line := l } { m' with line := l } :=
  h.of_chain rfl rfl (congrArg (fun v : View => { v with line := l }) h.view)

theorem register (h : m.Padded p k d m') (f : Definition) :
    (m.register f).Padded p k d (m'.register f) :=
  h.of_chain (by simp) (by simp) (by rw [view_register, view_register, h.view])

theorem update (h : m.Padded p k d m') (name : String) (f : Variable → Variable) :
    Padded p k d { m with chain := m.chain.update name f }
      { m' with chain := m'.chain.update name f } where
  scopes := by
    rw [Chain.scopes_update, Chain.scopes_update]
    exact h.scopes.updateIn name f
  depth := (m.chain.depth_update name f).trans h.depth
  view := by rw [view_update, view_update, h.view]

theorem current (h : m.Padded p k d m') (hk : k < d) : m'.chain.current = m.chain.current ∧
    Chain.Pads p k m.chain.outer m'.chain.outer :=
  h.scopes.tail (by have hd := h.depth; rw [Chain.depth] at hd; omega)

theorem insert (h : m.Padded p k d m') (hk : k < d) (x : Variable) :
    Padded p k d { m with chain := m.chain.replaceCurrent x }
      { m' with chain := m'.chain.replaceCurrent x } where
  scopes := by
    obtain ⟨hcurrent, houter⟩ := h.current hk
    simp only [Chain.scopes, Chain.replaceCurrent, hcurrent]
    exact .cons _ houter
  depth := h.depth
  view := h.view

theorem replaceArray (h : m.Padded p k d m') (hk : k < d) (x : Variable) (length : Nat) :
    (m.replaceArray x length).Padded p k d (m'.replaceArray x length) := by
  have hchain (m : Machine) : m.replaceArray x length =
      { m.note (.reallocate x.name length) with
        chain := (m.note (.reallocate x.name length)).chain.replaceCurrent x } := by
    simp [Machine.replaceArray]
  rw [hchain, hchain]
  exact (h.note _ _).insert hk x

theorem enterScope (h : m.Padded p k d m') : m.enterScope.Padded p k (d + 1) m'.enterScope where
  scopes := by
    rw [chain_enterScope, chain_enterScope]
    exact .cons _ h.scopes
  depth := by
    rw [chain_enterScope]
    exact congrArg (· + 1) h.depth
  view := by rw [view_enterScope, view_enterScope, h.view]

theorem exitScope (h : m.Padded p k (d + 1) m') (hk : k ≤ d) (hd : 0 < d) :
    m.exitScope.Padded p k d m'.exitScope where
  scopes := by
    have hdepth := h.depth
    have hdepth' := h.depth_eq
    rw [chain_exitScope, chain_exitScope, Chain.scopes_exitScope (by omega),
      Chain.scopes_exitScope (by omega)]
    exact (h.current (Nat.lt_succ_of_le hk)).2
  depth := by
    have hdepth := h.depth
    have hscopes := Chain.scopes_exitScope (c := m.chain) (by omega)
    rw [chain_exitScope]
    show m.chain.exitScope.scopes.length = d
    rw [hscopes]
    exact Nat.succ.inj hdepth
  view := by rw [view_exitScope, view_exitScope, h.view]

theorem pushFrame (h : m.Padded p k d m') (f : FrameKind) :
    (m.pushFrame f).Padded p k d (m'.pushFrame f) :=
  h.of_chain (by simp) (by simp) (by rw [view_pushFrame, view_pushFrame, h.view])

theorem popFrame (h : m.Padded p k d m') : m.popFrame.Padded p k d m'.popFrame :=
  h.of_chain (by simp) (by simp) (by rw [view_popFrame, view_popFrame, h.view])

theorem countCall (h : m.Padded p k d m') :
    Padded p k d { m with chain := { m.chain with calls := m.chain.calls + 1 } }
      { m' with chain := { m'.chain with calls := m'.chain.calls + 1 } } where
  scopes := h.scopes
  depth := h.depth
  view := congrArg (fun v : View => { v with calls := v.calls + 1 }) h.view

theorem uncountCall (h : m.Padded p k d m') :
    Padded p k d { m with chain := m.chain.exitCall } { m' with chain := m'.chain.exitCall } where
  scopes := h.scopes
  depth := h.depth
  view := congrArg (fun v : View => { v with calls := v.calls - 1 }) h.view

end Padded
end Machine

theorem Frame.canBreak_eq {fs fs' : List Frame} (h : fs'.map (·.kind) = fs.map (·.kind)) :
    canBreak fs' = canBreak fs := by
  cases fs with
  | nil => rw [List.map_eq_nil_iff.1 h]
  | cons f fs =>
    obtain ⟨f', fs', rfl, hkind, -⟩ := List.map_eq_cons_iff.1 h
    simp only [canBreak, hkind]

theorem Frame.currentCall_eq {fs fs' : List Frame} (h : fs'.map (·.kind) = fs.map (·.kind)) :
    currentCall fs' = currentCall fs := by
  induction fs generalizing fs' with
  | nil => rw [List.map_eq_nil_iff.1 h]
  | cons f fs ih =>
    obtain ⟨f', fs', rfl, hkind, hrest⟩ := List.map_eq_cons_iff.1 h
    simp only [currentCall, hkind, ih hrest]

/-- What is asked of a machine has the same answer on a padded one. -/
theorem Visible.padded {β : Type} {q : Machine → β} (hq : Visible q) {p k d : Nat}
    {m m' : Machine} (h : m.Padded p k d m') : q m' = q m := by
  have hfunctions : m'.functions = m.functions := congrArg View.functions h.view
  have hframes := congrArg View.frames h.view
  cases hq with
  | «variable» name => exact h.scopes.findIn name
  | function name => simp only [Machine.function?, hfunctions]
  | known f => simp only [Machine.knows, hfunctions]
  | canBreak => exact Frame.canBreak_eq hframes
  | currentCall => exact Frame.currentCall_eq hframes
  | interrupted => exact congrArg View.interrupted h.view

namespace Run.Respects

variable {α : Type} {p k d : Nat} {x y : Run α}

theorem report (w : Warning) :
    (Run.report w).Respects (Machine.Padded p k d) (Run.report w) := by
  intro m m' h
  have hpolicy : m'.policy = m.policy := congrArg View.policy h.view
  have hline : m'.line = m.line := congrArg View.line h.view
  rw [Run.report, Run.report, hpolicy, hline]
  split
  · exact .stopped _ h
  · exact .done () (h.record w)

theorem readWith (reader : Reader α) :
    (Run.readWith reader).Respects (Machine.Padded p k d) (Run.readWith reader) := by
  rw [Run.readWith_eq]
  refine .bind (.gets fun h => ?_) fun result => .bind (.gets fun h => ?_) fun n =>
    .bind (.modify fun h => h.advance n) fun _ => ?_
  · exact congrArg (fun v : View => (v.console.read reader).1) h.view
  · exact congrArg (fun v : View => v.console.taken reader) h.view
  · cases result with
    | ok a => exact .pure a
    | error c => exact .stop _

theorem register (f : Definition) :
    (Runner.register f).Respects (Machine.Padded p k d) (Runner.register f) := by
  refine .bind (.gets (Visible.function f.name).padded) fun earlier => ?_
  refine .bind (.modify fun h => h.register f) fun _ => ?_
  split
  · exact report _
  · exact .pure ()

theorem inScope (hx : x.Respects (Machine.Padded p k (d + 1)) y) (hk : k ≤ d) :
    (Run.inScope x).Respects (Machine.Padded p k d) (Run.inScope y) := by
  intro m m' h
  have hin : (x m.enterScope).Alike (Machine.Padded p k (d + 1)) (y m'.enterScope) :=
    hx h.enterScope
  exact hin.mapMachine fun h' => h'.exitScope hk h.pos

theorem underFrame (hx : x.Respects (Machine.Padded p k d) y) (f : FrameKind) :
    (Run.underFrame f x).Respects (Machine.Padded p k d) (Run.underFrame f y) :=
  hx.bracket (fun h => h.pushFrame f) fun h => h.popFrame

theorem inCall (hx : x.Respects (Machine.Padded p k d) y) :
    (Run.inCall x).Respects (Machine.Padded p k d) (Run.inCall y) := by
  intro m m' h
  have hcalls : m'.chain.calls = m.chain.calls := congrArg View.calls h.view
  have hlimit : m'.chain.limit = m.chain.limit := congrArg View.limit h.view
  rw [Run.inCall, Run.inCall]
  by_cases hfull : m.chain.limit ≤ m.chain.calls
  · rw [Chain.enterCall, Chain.enterCall, hcalls, hlimit, if_pos hfull, if_pos hfull]
    exact .stopped _ h
  · rw [Chain.enterCall_eq_ok.2 ⟨Nat.lt_of_not_le hfull, rfl⟩,
      Chain.enterCall_eq_ok.2 ⟨by rw [hcalls, hlimit]; exact Nat.lt_of_not_le hfull, rfl⟩]
    exact (hx h.countCall).mapMachine fun h => h.uncountCall

theorem atLine (hx : x.Respects (Machine.Padded p k d) y) (l : Option Line) :
    (Run.atLine l x).Respects (Machine.Padded p k d) (Run.atLine l y) := by
  intro m m' h
  have hline : m'.line = m.line := congrArg View.line h.view
  simp only [Run.atLine, hline]
  exact ((hx (h.setLine _)).mapMachine fun h => h.setLine _).mapStop _

end Run.Respects

/-- Two computations do the same on a machine and on a padded one, if so many scopes are further in
than the padding. -/
def Run.Agree (j : Nat) {α : Type} (x y : Run α) : Prop :=
  ∀ ⦃p k d : Nat⦄, k + j ≤ d → x.Respects (Machine.Padded p k d) y

namespace Run.Agree

variable {α β : Type} {j : Nat} {x y : Run α}

theorem bind {f g : α → Run β} (hx : x.Agree j y) (hf : ∀ a, (f a).Agree j (g a)) :
    (x >>= f).Agree j (y >>= g) := fun _ _ _ hk => (hx hk).bind fun a => hf a hk

theorem steps : Steps fun _ x y => x.Agree j y where
  done a _ _ _ _ := .pure a
  stop _ _ _ _ _ := .stop _
  bind := bind
  gets hq _ _ _ _ := .gets hq.padded
  report _ _ _ _ _ := .report _
  update name f _ _ _ _ := .modify fun h => h.update name f

/-- The current scope shows, so it must not be one of the padding. -/
theorem localSteps : Steps.Local fun _ x y => x.Agree 1 y where
  toSteps := steps
  current name _ _ _ hk := .gets fun h => by rw [(h.current hk).1]
  insert x _ _ _ hk := .modify fun h => h.insert hk x
  replaceArray x length _ _ _ hk := .modify fun h => h.replaceArray hk x length

theorem congruence : Congruence (fun _ x y => x.Agree 0 y) fun _ x y => x.Agree 1 y where
  done := steps.done
  stop := steps.stop
  bind := bind
  sequence := bind
  weaken hx _ _ _ hk := hx (by omega)
  gets := steps.gets
  current := localSteps.current
  note e _ _ _ _ := .modify fun h => h.note _ _
  write s t _ _ _ _ := .modify fun h => h.write s t
  report := steps.report
  readWith reader _ _ _ _ := .readWith reader
  overwrite := steps.overwrite
  writeElement := steps.writeElement
  storeText := steps.storeText
  declare _ := localSteps.declare _
  replaceArray length _ _ := localSteps.replaceLocal _ length
  register f _ _ _ _ := .register f
  inScope hx _ _ _ hk := (hx (Nat.succ_le_succ hk)).inScope hk
  underFrame f _ _ hx _ _ _ hk := (hx hk).underFrame f
  overFrame f _ _ hx _ _ _ hk := (hx hk).underFrame f
  inCall hx _ _ _ hk := (hx hk).inCall
  atLine l _ _ hx _ _ _ hk := (hx hk).atLine l

/-- Whatever a runner with fuel runs does the same on a padded machine. -/
theorem ofFuel (n : Nat) : (Runner.ofFuel n).Related (fun _ x y => x.Agree 0 y)
    (fun _ x y => x.Agree 1 y) (Runner.ofFuel n) :=
  congruence.ofFuel (fun _ => Run.Respects.exhausted) n

end Run.Agree
end Yap
