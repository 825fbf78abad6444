import Yap.Machine.Run

/-! How statements end, and what runs the parts of a statement or expression. -/
namespace Yap

/-- A statement ends normally, leaves the innermost loop or switch, or gives a value back from
the innermost call. -/
inductive Flow
  | normal
  | leave
  | giveBack (value : Option Value)
deriving DecidableEq

namespace Flow

/-- What a loop or switch makes of the end of its body: a break ends here. -/
def absorbed : Flow → Flow
  | leave => normal
  | f => f

def result : Flow → Option Value
  | giveBack v => v
  | _ => none

/-- How a loop ends with this end of its body, unless it goes on. -/
def ending? : Flow → Option Flow
  | normal => none
  | f => some f.absorbed

@[simp] theorem ending?_eq_none (f : Flow) : f.ending? = none ↔ f = normal := by
  cases f <;> simp [ending?]

theorem ending?_of_ne {f : Flow} (h : f ≠ normal) : f.ending? = some f.absorbed := by
  cases f with
  | normal => exact absurd rfl h
  | leave => rfl
  | giveBack v => rfl

@[simp] theorem absorbed_absorbed (f : Flow) : f.absorbed.absorbed = f.absorbed := by
  cases f <;> rfl

/-- What follows a normal end. Any other end is final. -/
def andThen (f : Flow) (rest : Run Flow) : Run Flow :=
  match f with
  | normal => rest
  | f => pure f

theorem andThen_of_ne {f : Flow} (h : f ≠ normal) (rest : Run Flow) : f.andThen rest = pure f := by
  cases f with
  | normal => exact absurd rfl h
  | leave => rfl
  | giveBack v => rfl

end Flow

/-- Runs the parts of a statement or expression: its expressions, its statements, and so many
turns of a loop. -/
structure Runner where
  eval : Expr → Run Value
  exec : Stmt → Run Flow
  turns : Nat

namespace Runner

def evalAs (r : Runner) (e : Expr) (k : Kind) : Run Value := do
  let v ← r.eval e
  pure (v.convert k)

def evalInt (r : Runner) (e : Expr) : Run Int32 := do
  let v ← r.eval e
  pure v.toInt32

/-- A condition holds if its integer part is not zero. -/
def holds (r : Runner) (e : Expr) : Run Bool := do
  let n ← r.evalInt e
  pure (n != 0)

def evalAll (r : Runner) (k : Kind) : List Expr → Run (List Value)
  | [] => pure []
  | e :: es => do
    let v ← r.evalAs e k
    let vs ← r.evalAll k es
    pure (v :: vs)

/-- Executes statements until one does not end normally. -/
def execAll (r : Runner) : List Stmt → Run Flow
  | [] => pure .normal
  | s :: ss => do
    let f ← r.exec s
    f.andThen (r.execAll ss)

/-- Statements behind others follow a normal end. -/
theorem execAll_append (r : Runner) (ss ts : List Stmt) :
    r.execAll (ss ++ ts) = r.execAll ss >>= fun f => f.andThen (r.execAll ts) := by
  induction ss with
  | nil => rfl
  | cons s ss ih =>
    rw [List.cons_append, execAll, execAll, bind_assoc]
    congr 1
    funext f
    cases f with
    | normal => exact ih
    | leave => rfl
    | giveBack v => rfl

end Runner
end Yap
