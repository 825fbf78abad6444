import Yap.Proofs.Padding
import Yap.Proofs.Stacks

/-! Loops whose condition stands in front. A while loop evaluates it outside the scope of a turn and
a for loop inside, where it sees one empty scope more. Main statement: a while loop and a for loop
with no more than its condition end alike, and leave machines on which only the totals of scopes
differ. -/
namespace Yap

namespace Machine.Padded

variable {d : Nat} {m m' : Machine}

theorem refl (m : Machine) : m.Padded 0 0 m.chain.depth m := ⟨.refl _, rfl, rfl⟩

/-- A scope entered on the second machine alone is an empty one in front of all others. -/
theorem intoScope (h : m.Padded 0 0 d m') : m.Padded 1 d d m'.enterScope where
  scopes := by
    rw [chain_enterScope]
    show Chain.Pads 1 d m.chain.scopes (.empty :: m'.chain.scopes)
    rw [h.scopes.eq]
    exact .here h.depth
  depth := h.depth
  view := by rw [view_enterScope, h.view]

theorem scopes_eq (h : m.Padded 1 d d m') : m'.chain.scopes = .empty :: m.chain.scopes :=
  h.scopes.eq_of_length (Nat.le_of_eq h.depth)

/-- On the first machine the scope may be entered later. -/
theorem inScope (h : m.Padded 1 d d m') : m.enterScope.Padded 0 0 (d + 1) m' where
  scopes := by
    rw [h.scopes_eq, chain_enterScope]
    exact .refl _
  depth := by
    rw [chain_enterScope]
    exact congrArg (· + 1) h.depth
  view := by rw [view_enterScope, h.view]

theorem outOfScope (h : m.Padded 1 d d m') : m.Padded 0 0 d m'.exitScope where
  scopes := by
    have hdepth := h.depth_eq
    have hpos := h.pos
    rw [chain_exitScope, Chain.scopes_exitScope (by omega), (List.cons.inj h.scopes_eq).2]
    exact .refl _
  depth := h.depth
  view := by rw [view_exitScope, h.view]

end Machine.Padded

/-- A computation does what another one does that is started in a scope and leaves it. -/
def Run.Encloses {α : Type} (x y : Run α) : Prop :=
  ∀ ⦃d : Nat⦄ ⦃m m' : Machine⦄, m.Padded 1 d d m' →
    (x m).Alike (Machine.Padded 0 0 d) ((y m').mapMachine Machine.exitScope)

namespace Run.Encloses

variable {α β : Type} {x y : Run α}

theorem pure (a : α) : (pure a : Run α).Encloses (pure a) := fun _ _ _ h => .done a h.outOfScope

theorem inScope (hx : x.Agree 1 y) : (Run.inScope x).Encloses y := by
  intro d m m' h
  have hin : (x m.enterScope).Alike (Machine.Padded 0 0 (d + 1)) (y m') :=
    hx (Nat.succ_le_succ (Nat.zero_le d)) h.inScope
  exact hin.mapMachine fun h' => h'.exitScope (Nat.zero_le d) h.pos

theorem map (hx : x.Encloses y) (f : α → β) :
    (x >>= fun a => Pure.pure (f a)).Encloses (y >>= fun a => Pure.pure (f a)) := by
  intro d m m' h
  have hxy := hx h
  rw [bind_apply, bind_apply]
  generalize x m = o at hxy
  generalize y m' = o' at hxy
  cases o' with
  | done a n =>
    cases hxy with
    | done _ h => exact .done (f a) h
  | stopped s n =>
    cases hxy with
    | stopped _ h => exact .stopped s h
  | outOfFuel =>
    cases hxy
    exact .outOfFuel

/-- What sees no padding may be done in the scope as well as in front of it. -/
theorem bind {f g : α → Run β} (hx : x.Agree 0 y) (hf : ∀ a, (f a).Encloses (g a)) :
    (x >>= f).Encloses (y >>= g) := by
  intro d m m' h
  have hxy := hx (Nat.le_refl d) h
  rw [bind_apply, bind_apply]
  generalize x m = o, y m' = o' at hxy
  cases hxy with
  | done a h => exact hf a h
  | stopped s h => exact .stopped s h.outOfScope
  | outOfFuel => exact .outOfFuel

theorem respects (hx : x.Encloses y) {d : Nat} :
    x.Respects (Machine.Padded 0 0 d) (Run.inScope y) := fun _ _ h => hx h.intoScope

end Run.Encloses

namespace Runner

theorem forRound_eq (r : Runner) (cond : Expr) (body : Stmt) :
    r.forRound (some cond) none body = (do
      if ← r.holds cond then
        let f ← r.exec body
        pure f.ending?
      else pure (some .normal)) := by
  have hnext (f : Flow) : r.forNext none f = pure f.ending? := by cases f <;> rfl
  simp only [forRound, holdsOr, hnext]

/-- A turn of either loop. -/
theorem turns_alike (n : Nat) (cond : Expr) (body : Stmt) (d : Nat) :
    ((ofFuel n).whileTurn cond body).Respects (Machine.Padded 0 0 d)
      ((ofFuel n).forTurn (some cond) none body) := by
  have hc := Run.Agree.congruence
  have hr := Run.Agree.ofFuel n
  refine .bind (hc.checkInterrupt (Nat.zero_le d)) fun _ => Run.Encloses.respects ?_
  rw [forRound_eq]
  -- the scope of the turn: the for loop is in it already, the while loop enters it for the body
  refine .bind (hc.holds hr cond) fun b => ?_
  cases b with
  | true => exact (Run.Encloses.inScope (hr.exec body)).map Flow.ending?
  | false => exact .pure _

theorem loops_alike (n : Nat) (cond : Expr) (body : Stmt) (d : Nat) :
    ((ofFuel n).whileDo cond body).Respects (Machine.Padded 0 0 d)
      ((ofFuel n).forLoop none (some cond) none body) := by
  have hturns := (turns_alike n cond body (d + 1)).iterate n
  have hheaded := Run.Respects.bind (.pure ()) fun _ => hturns
  exact (hheaded.inScope (Nat.zero_le d)).underFrame .loop

end Runner

theorem Stmt.loops_alike (n : Nat) (cond : Expr) (body : Stmt) (line : Option Line) (d : Nat) :
    (exec n ⟨.whileDo cond body, line⟩).Respects (Machine.Padded 0 0 d)
      (exec n ⟨.forLoop none (some cond) none body, line⟩) := by
  cases n with
  | zero => exact .exhausted
  | succ n =>
    refine .bind (Run.Agree.congruence.checkInterrupt (Nat.zero_le d)) fun _ => .atLine ?_ line
    exact .bind (.modify fun h => h.note _ _) fun _ => Runner.loops_alike n cond body d

/-- Machines that are the same but for the totals of scopes entered and exited, and for the log if
one is written. -/
def Machine.SameButTotals (m m' : Machine) : Prop :=
  ∃ entered exited events,
    m' = { m with
      chain := { m.chain with entered := entered, exited := exited }
      events := events } ∧
    (m.tracing = false → events = m.events)

theorem Machine.Padded.sameButTotals {d : Nat} {m m' : Machine} (h : m.Padded 0 0 d m')
    (hf : m'.frames = m.frames) : m.SameButTotals m' := by
  refine ⟨m'.chain.entered, m'.chain.exited, m'.events, ?_, ?_⟩
  · obtain ⟨hcurrent, houter⟩ := List.cons.inj h.scopes.eq
    have hview := h.view
    simp only [Machine.view, View.mk.injEq] at hview
    obtain ⟨hfunctions, -, hcalls, hlimit, hconsole, hpolicy, htracing, hinterrupted,
      hdiagnostics, hline, -⟩ := hview
    dsimp only
    rw [← hcurrent, ← houter, ← hcalls, ← hlimit, ← hfunctions, ← hf, ← hconsole, ← hpolicy,
      ← htracing, ← hinterrupted, ← hdiagnostics, ← hline]
  · intro ht
    have ht' : m'.tracing = m.tracing := congrArg View.tracing h.view
    have hlog := congrArg View.unwritten h.view
    simpa [Machine.view, ht', ht] using hlog

/-- A while loop and a for loop without init and step end alike, with the same result or stop, or
both run out of fuel, and so neither of them terminates unless the other does. -/
theorem while_as_for (cond : Expr) (body : Stmt) (line : Option Line) (m : Machine) :
    (∀ n, (Stmt.exec n ⟨.whileDo cond body, line⟩ m).Alike Machine.SameButTotals
      (Stmt.exec n ⟨.forLoop none (some cond) none body, line⟩ m)) ∧
    ((∀ n, Stmt.exec n ⟨.whileDo cond body, line⟩ m = .outOfFuel) ↔
      ∀ n, Stmt.exec n ⟨.forLoop none (some cond) none body, line⟩ m = .outOfFuel) := by
  have halike (n : Nat) : (Stmt.exec n ⟨.whileDo cond body, line⟩ m).Alike Machine.SameButTotals
      (Stmt.exec n ⟨.forLoop none (some cond) none body, line⟩ m) := by
    refine (Stmt.loops_alike n cond body line _ (.refl m)).mono fun hw hf h => ?_
    have hwhile := SameStacks.task n (.exec _) hw
    have hfor := SameStacks.task n (.exec _) hf
    exact h.sameButTotals (hfor.frames.trans hwhile.frames.symm)
  exact ⟨halike, forall_congr' fun n => (halike n).outOfFuel_iff⟩

/-- The totals do differ: only the for loop enters a scope to find that it is over. -/
example :
    let never : Expr := .literal (.int 0)
    let m : Machine := .new 9 .report false []
    ((Stmt.exec 3 ⟨.whileDo never ⟨.leave, none⟩, none⟩ m).machine?.map (·.chain.entered) =
      some 1) ∧
    ((Stmt.exec 3 ⟨.forLoop none (some never) none ⟨.leave, none⟩, none⟩ m).machine?.map
      (·.chain.entered) = some 2) := ⟨rfl, rfl⟩

end Yap
