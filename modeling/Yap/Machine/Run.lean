import Yap.Machine

/-! Computations on a machine. One ends with a result or stops, with the machine it leaves in
either case, or it runs out of fuel. Scopes, frames, calls and lines are brackets: what they set
up is taken down again on every way out. Main statements: the laws of sequencing, and that a
bracket is taken down however its body ends. -/
namespace Yap

inductive Outcome (α : Type)
  | done (a : α) (m : Machine)
  | stopped (s : Stop) (m : Machine)
  | outOfFuel

namespace Outcome

variable {α β : Type}

@[inline] def mapMachine (f : Machine → Machine) : Outcome α → Outcome α
  | done a m => done a (f m)
  | stopped s m => stopped s (f m)
  | outOfFuel => outOfFuel

@[inline] def mapStop (f : Stop → Stop) : Outcome α → Outcome α
  | done a m => done a m
  | stopped s m => stopped (f s) m
  | outOfFuel => outOfFuel

/-- The machine left behind, unless the fuel ran out. -/
def machine? : Outcome α → Option Machine
  | done _ m => some m
  | stopped _ m => some m
  | outOfFuel => none

theorem mapMachine_mapMachine (f g : Machine → Machine) (o : Outcome α) :
    (o.mapMachine f).mapMachine g = o.mapMachine fun m => g (f m) := by cases o <;> rfl

@[simp] theorem machine?_mapMachine (f : Machine → Machine) (o : Outcome α) :
    (o.mapMachine f).machine? = o.machine?.map f := by cases o <;> rfl

@[simp] theorem machine?_mapStop (f : Stop → Stop) (o : Outcome α) :
    (o.mapStop f).machine? = o.machine? := by cases o <;> rfl

theorem mapMachine_eq_done {f : Machine → Machine} {o : Outcome α} {a : α} {m : Machine} :
    o.mapMachine f = done a m ↔ ∃ n, o = done a n ∧ f n = m := by
  cases o with
  | done b n => simp [mapMachine, and_assoc]
  | stopped s n => simp [mapMachine]
  | outOfFuel => simp [mapMachine]

theorem mapStop_eq_done {f : Stop → Stop} {o : Outcome α} {a : α} {m : Machine} :
    o.mapStop f = done a m ↔ o = done a m := by
  cases o <;> simp [mapStop]

end Outcome

/-- A computation that starts on a machine. -/
def Run (α : Type) : Type := Machine → Outcome α

namespace Run

variable {α β : Type}

@[always_inline, inline] protected def pure (a : α) : Run α := fun m => .done a m

@[always_inline, inline] protected def bind (x : Run α) (f : α → Run β) : Run β := fun m =>
  match x m with
  | .done a m => f a m
  | .stopped s m => .stopped s m
  | .outOfFuel => .outOfFuel

@[always_inline] instance : Monad Run where
  pure := Run.pure
  bind := Run.bind

theorem pure_apply (a : α) (m : Machine) : (pure a : Run α) m = .done a m := rfl

theorem bind_apply (x : Run α) (f : α → Run β) (m : Machine) :
    (x >>= f) m = match x m with
      | .done a m => f a m
      | .stopped s m => .stopped s m
      | .outOfFuel => .outOfFuel := rfl

theorem bind_eq_done {x : Run α} {f : α → Run β} {b : β} {m m' : Machine} :
    (x >>= f) m = .done b m' ↔ ∃ a n, x m = .done a n ∧ f a n = .done b m' := by
  rw [bind_apply]
  cases x m with
  | done a n => simp [and_assoc]
  | stopped s n => simp
  | outOfFuel => simp

theorem bind_of_done {x : Run α} {a : α} {m n : Machine} (h : x m = .done a n) (f : α → Run β) :
    (x >>= f) m = f a n := by rw [bind_apply, h]

/-- What follows a computation matters only where that ends. -/
theorem bind_congr_done {x : Run α} {f g : α → Run β} {m : Machine}
    (h : ∀ a n, x m = .done a n → f a n = g a n) : (x >>= f) m = (x >>= g) m := by
  rw [bind_apply, bind_apply]
  cases hx : x m with
  | done a n => exact h a n hx
  | stopped s n => rfl
  | outOfFuel => rfl

theorem id_map_run (x : Run α) : id <$> x = x := by
  funext m
  change Run.bind x (fun a => Run.pure (id a)) m = x m
  rw [Run.bind]
  cases x m <;> rfl

theorem bind_assoc_run {γ : Type} (x : Run α) (f : α → Run β) (g : β → Run γ) :
    x >>= f >>= g = x >>= fun a => f a >>= g := by
  funext m
  change Run.bind (Run.bind x f) g m = Run.bind x (fun a => Run.bind (f a) g) m
  unfold Run.bind
  cases x m <;> rfl

instance : LawfulMonad Run :=
  LawfulMonad.mk' Run id_map_run (fun _ _ => rfl) bind_assoc_run

def exhausted : Run α := fun _ => .outOfFuel

@[inline] def gets (q : Machine → α) : Run α := fun m => .done (q m) m

@[inline] def modify (f : Machine → Machine) : Run Unit := fun m => .done () (f m)

@[inline] def stop (s : Stop) : Run α := fun m => .stopped s m

/-- Stops with a fault that has no line yet. -/
@[inline] def fail (c : Cause) : Run α := stop (.fault c none)

@[inline] def ofExcept : Except Cause α → Run α
  | .ok a => pure a
  | .error c => fail c

theorem machine?_ofExcept (a : Except Cause α) (m : Machine) :
    (ofExcept a m).machine? = some m := by cases a <;> rfl

def report (w : Warning) : Run Unit := fun m =>
  if m.policy = .abort then .stopped (.fault (.aborted w) m.line) m else .done () (m.record w)

def reportAny : Option Warning → Run Unit
  | none => pure ()
  | some w => report w

/-- The value of a checked result, its warning dealt with. -/
def settle (c : Checked α) : Run α := do
  reportAny c.warning
  pure c.value

def checkInterrupt : Run Unit := do
  if ← gets (·.interrupted) then stop .interrupted else pure ()

/-- A body between setting something up and taking it down. -/
@[inline] def bracket (up down : Machine → Machine) (body : Run α) : Run α := fun m =>
  (body (up m)).mapMachine down

def inScope (body : Run α) : Run α := bracket Machine.enterScope Machine.exitScope body

def underFrame (kind : FrameKind) (body : Run α) : Run α :=
  bracket (·.pushFrame kind) Machine.popFrame body

def inCall (body : Run α) : Run α := fun m =>
  match m.chain.enterCall with
  | .error c => .stopped (.fault c none) m
  | .ok chain =>
    (body { m with chain := chain }).mapMachine fun m => { m with chain := m.chain.exitCall }

theorem inCall_eq (body : Run α) : inCall body = (do
    match ← gets (·.chain.enterCall) with
    | .ok chain =>
      bracket ({ · with chain := chain }) (fun m => { m with chain := m.chain.exitCall }) body
    | .error c => fail c) := by
  funext m
  rw [bind_of_done (x := gets _) rfl]
  rw [inCall]
  cases m.chain.enterCall <;> rfl

/-- A body at a source line, or at the line around it if it has none. A fault without a line gets
that one. -/
def atLine (line : Option Line) (body : Run α) : Run α := fun m =>
  let here := line.or m.line
  ((body { m with line := here }).mapMachine fun m' => { m' with line := m.line }).mapStop
    (·.orLine here)

theorem bracket_machine? (up down : Machine → Machine) (body : Run α) (m : Machine) :
    (bracket up down body m).machine? = ((body (up m)).machine?).map down := by simp [bracket]

theorem bracket_eq_done {up down : Machine → Machine} {body : Run α} {a : α} {m m' : Machine} :
    bracket up down body m = .done a m' ↔ ∃ n, body (up m) = .done a n ∧ down n = m' :=
  Outcome.mapMachine_eq_done

theorem inCall_eq_done {body : Run α} {a : α} {m m' : Machine} :
    inCall body m = .done a m' ↔ ∃ c n, m.chain.enterCall = .ok c ∧
      body { m with chain := c } = .done a n ∧ { n with chain := n.chain.exitCall } = m' := by
  rw [inCall]
  cases hc : m.chain.enterCall with
  | error c => simp
  | ok c => simp [Outcome.mapMachine_eq_done]

theorem atLine_eq_done {line : Option Line} {body : Run α} {a : α} {m m' : Machine} :
    atLine line body m = .done a m' ↔ ∃ n, body { m with line := line.or m.line } = .done a n ∧
      { n with line := m.line } = m' :=
  Outcome.mapStop_eq_done.trans Outcome.mapMachine_eq_done

/-- The machine behind a body at a line, however it ends. -/
theorem machine?_atLine_eq_some {line : Option Line} {body : Run α} {m m' : Machine} :
    (atLine line body m).machine? = some m' ↔
      ∃ n, (body { m with line := line.or m.line }).machine? = some n ∧
        { n with line := m.line } = m' := by
  simp only [atLine, Outcome.machine?_mapStop, Outcome.machine?_mapMachine, Option.map_eq_some_iff]

/-- The line is the old one again. -/
theorem line_of_atLine {line : Option Line} {body : Run α} {m m' : Machine}
    (h : (atLine line body m).machine? = some m') : m'.line = m.line := by
  obtain ⟨n, -, rfl⟩ := machine?_atLine_eq_some.1 h
  rfl

end Run
end Yap
