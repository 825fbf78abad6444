import Yap.Proofs.Congruence.Evaluation

/-! What can be asked of a machine, one task after another: to evaluate an expression, to execute
statements, to call a function, and to load, execute or run a program. -/
namespace Yap

inductive Task
  | eval (e : Expr)
  | exec (s : Stmt)
  | execAll (ss : List Stmt)
  | call (name : String) (args : List Expr)
  | load (p : Program)
  | execute (p : Program)
  | run (p : Program)

namespace Task

def Result : Task → Type
  | eval _ => Value
  | exec _ | execAll _ => Flow
  | call .. => Option Value
  | load _ | execute _ => Unit
  | run _ => Int32

def perform (fuel : Nat) : (t : Task) → Run t.Result
  | eval e => e.eval fuel
  | exec s => s.exec fuel
  | execAll ss => (Runner.ofFuel fuel).execAll ss
  | call name args => (Runner.ofFuel fuel).call name args
  | load p => p.load
  | execute p => p.execute fuel
  | run p => p.run fuel

end Task

/-- The machines met from a new one on, between tasks and in the middle of them. -/
inductive Reachable : Machine → Prop
  | new (limit : Nat) (policy : Policy) (tracing : Bool) (input : List UInt8) :
      Reachable (.new limit policy tracing input)
  | task {m m' : Machine} (fuel : Nat) (t : Task) :
      Reachable m → (t.perform fuel m).machine? = some m' → Reachable m'
  | interrupt {m : Machine} (b : Bool) : Reachable m → Reachable { m with interrupted := b }
  | line {m : Machine} (l : Option Line) : Reachable m → Reachable { m with line := l }
  | note {m : Machine} (e : Event) : Reachable m → Reachable (m.note e)
  | write {m : Machine} (s : Stream) (t : String) : Reachable m → Reachable (m.write s t)
  | record {m : Machine} (w : Warning) : Reachable m → Reachable (m.record w)
  | bindParams {m m' : Machine} (ps : List Param) (vs : List Value) :
      Reachable m → (Runner.bindParams ps vs m).machine? = some m' → Reachable m'
  | enterScope {m : Machine} : Reachable m → Reachable m.enterScope
  | exitScope {m : Machine} : Reachable m → Reachable m.exitScope
  | pushFrame {m : Machine} (k : FrameKind) : Reachable m → Reachable (m.pushFrame k)
  | popFrame {m : Machine} : Reachable m → Reachable m.popFrame
  | enterCall {m : Machine} {c : Chain} :
      Reachable m → m.chain.enterCall = .ok c → Reachable { m with chain := c }
  | exitCall {m : Machine} : Reachable m → Reachable { m with chain := m.chain.exitCall }

namespace Congruence

variable {E S : ∀ ⦃α : Type⦄, Run α → Run α → Prop}

theorem Core.executeAll (h : Core E S) {r r' : Runner} (hr : r.Related E S r') (ss : List Stmt) :
    S (r.executeAll ss) (r'.executeAll ss) := by
  induction ss with
  | nil => exact h.weaken (h.done _)
  | cons s ss ih => exact h.sequence (hr.exec s) fun _ => ih

variable (h : Congruence E S)
  (hl : ∀ l, S (Run.modify fun m => { m with line := l }) (Run.modify fun m => { m with line := l }))
include h hl

theorem loadAll (ss : List Stmt) : S (Stmt.loadAll ss) (Stmt.loadAll ss) := by
  induction ss with
  | nil => exact h.weaken (h.done _)
  | cons s ss ih =>
    rw [Stmt.loadAll]
    dsimp only
    split
    · exact h.sequence (hl s.line) fun _ => h.sequence (h.register _) fun _ => ih
    · exact h.sequence (h.weaken (h.done ())) fun _ => ih

theorem load (p : Program) : S p.load p.load :=
  h.sequence (h.loadAll hl p.statements) fun _ => hl none

/-- A congruence relates each task, run with related fuel, if it allows for lines and exit codes as
well. -/
theorem perform {n k : Nat} (hr : (Runner.ofFuel n).Related E S (Runner.ofFuel k))
    (hs : ∀ {x y : Run Unit}, S x y → S (Program.exitStatus x) (Program.exitStatus y)) (t : Task) :
    S (t.perform n) (t.perform k) := by
  have hexecute (p : Program) : S (p.execute n) (p.execute k) := h.executeAll hr p.statements
  cases t with
  | eval e => exact h.weaken (hr.eval e)
  | exec s => exact hr.exec s
  | execAll ss => exact h.execAll hr ss
  | call name args => exact h.weaken (h.call hr name args)
  | load p => exact h.load hl p
  | execute p => exact hexecute p
  | run p => exact hs (h.sequence (h.load hl p) fun _ => hexecute p)

theorem task (hx : ∀ {α : Type}, E (Run.exhausted : Run α) Run.exhausted)
    (hs : ∀ {x y : Run Unit}, S x y → S (Program.exitStatus x) (Program.exitStatus y))
    (fuel : Nat) (t : Task) : S (t.perform fuel) (t.perform fuel) :=
  h.perform hl (h.ofFuel hx fuel) hs t

end Congruence
end Yap
