import Yap.Machine.Evaluation

/-! Whole programs: the definitions at the top level are registered first, so that calls may stand
before them, then the statements are executed in order. -/
namespace Yap

open Runner

/-- Registers the definitions among statements, each at its own line. -/
def Stmt.loadAll : List Stmt → Run Unit
  | [] => pure ()
  | s :: ss => do
    match s.action with
    | .define d =>
      Run.modify fun m => { m with line := s.line }
      register d
    | _ => pure ()
    Stmt.loadAll ss

/-- Executes statements in order, however they end. -/
def Runner.executeAll (r : Runner) : List Stmt → Run Unit
  | [] => pure ()
  | s :: ss => do
    let _ ← r.exec s
    r.executeAll ss

namespace Program

def load (p : Program) : Run Unit := do
  Stmt.loadAll p.statements
  Run.modify fun m => { m with line := none }

def execute (fuel : Nat) (p : Program) : Run Unit := (Runner.ofFuel fuel).executeAll p.statements

/-- The exit status of a run: the code that the program asked for, or zero at its end. -/
def exitStatus (x : Run Unit) : Run Int32 := fun m =>
  match x m with
  | .done _ m => .done 0 m
  | .stopped (.exit code) m => .done code (m.note (.exited code))
  | .stopped s m => .stopped s m
  | .outOfFuel => .outOfFuel

def run (fuel : Nat) (p : Program) : Run Int32 :=
  exitStatus do
    p.load
    p.execute fuel

end Program
end Yap
