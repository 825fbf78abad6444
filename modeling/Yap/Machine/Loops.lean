import Yap.Machine.Flow

/-! Loops and switches. A loop runs under a frame, its header in a scope of its own and every turn
in a scope inside that one; an interruption stops it between turns. A switch runs the bodies from
the first case that matches, to the default or the end. -/
namespace Yap.Runner

/-- Takes turns until one says how the loop ends. -/
def iterate (turn : Run (Option Flow)) : Nat → Run Flow
  | 0 => Run.exhausted
  | n + 1 => fun m =>
    match turn m with
    | .done none m => iterate turn n m
    | .done (some f) m => .done f m
    | .stopped s m => .stopped s m
    | .outOfFuel => .outOfFuel

def nextTurn (turn : Run (Option Flow)) (n : Nat) : Option Flow → Run Flow
  | none => iterate turn n
  | some f => pure f

theorem iterate_succ (turn : Run (Option Flow)) (n : Nat) :
    iterate turn (n + 1) = turn >>= nextTurn turn n := by
  funext m
  simp only [iterate, Run.bind_apply]
  cases turn m with
  | done o m => cases o <;> rfl
  | stopped s m => rfl
  | outOfFuel => rfl

/-- The turns of a loop behind its header, in the header's scope. -/
def headed (r : Runner) (header : Run Unit) (turn : Run (Option Flow)) : Run Flow :=
  Run.inScope do
    header
    iterate turn r.turns

def loop (r : Runner) (header : Run Unit) (turn : Run (Option Flow)) : Run Flow :=
  Run.underFrame .loop (r.headed header turn)

/-- Runs a body in a scope of its own and tells whether the loop ends with it. -/
def turnBody (r : Runner) (body : Stmt) : Run (Option Flow) := do
  let f ← Run.inScope (r.exec body)
  pure f.ending?

def whileTurn (r : Runner) (cond : Expr) (body : Stmt) : Run (Option Flow) := do
  Run.checkInterrupt
  if ← r.holds cond then r.turnBody body else pure (some .normal)

def doNext (r : Runner) (cond : Expr) : Option Flow → Run (Option Flow)
  | some f => pure (some f)
  | none => do if ← r.holds cond then pure none else pure (some .normal)

def doTurn (r : Runner) (body : Stmt) (cond : Expr) : Run (Option Flow) := do
  Run.checkInterrupt
  let f ← r.turnBody body
  r.doNext cond f

/-- A statement of a loop's header. How it ends does not matter. -/
def headerPart (r : Runner) : Option Stmt → Run Unit
  | none => pure ()
  | some s => do
    let _ ← r.exec s

/-- A condition that may be absent and then holds. -/
def holdsOr (r : Runner) : Option Expr → Run Bool
  | none => pure true
  | some e => r.holds e

def forNext (r : Runner) (next : Option Stmt) (f : Flow) : Run (Option Flow) :=
  match f.ending? with
  | some f => pure (some f)
  | none => do
    r.headerPart next
    pure none

def forRound (r : Runner) (cond : Option Expr) (next : Option Stmt) (body : Stmt) :
    Run (Option Flow) := do
  if ← r.holdsOr cond then
    let f ← r.exec body
    r.forNext next f
  else pure (some .normal)

def forTurn (r : Runner) (cond : Option Expr) (next : Option Stmt) (body : Stmt) :
    Run (Option Flow) := do
  Run.checkInterrupt
  Run.inScope (r.forRound cond next body)

def whileDo (r : Runner) (cond : Expr) (body : Stmt) : Run Flow :=
  r.loop (pure ()) (r.whileTurn cond body)

def doWhile (r : Runner) (body : Stmt) (cond : Expr) : Run Flow :=
  r.loop (pure ()) (r.doTurn body cond)

def forLoop (r : Runner) (init : Option Stmt) (cond : Option Expr) (next : Option Stmt)
    (body : Stmt) : Run Flow :=
  r.loop (r.headerPart init) (r.forTurn cond next body)

/-- Whether a case matches. The default does. -/
def matchesCase (r : Runner) (n : Int32) : Option Expr → Run Bool
  | none => pure true
  | some e => do
    let l ← r.evalInt e
    pure (l = n)

/-- Whether the body of a case is run: behind one that was, or at the match. -/
def hits (r : Runner) (n : Int32) (matched : Bool) (c : Case) : Run Bool :=
  if matched then pure true else r.matchesCase n c.label

def afterCase (c : Case) (rest : Run Flow) : Flow → Run Flow
  | .normal => if c.label.isNone then pure .normal else rest
  | f => pure f.absorbed

/-- Runs the bodies of cases behind a match, or looks for the match. -/
def runCases (r : Runner) (n : Int32) (matched : Bool) : List Case → Run Flow
  | [] => pure .normal
  | c :: cs => do
    if ← r.hits n matched c then
      let f ← r.execAll c.body
      afterCase c (r.runCases n true cs) f
    else r.runCases n false cs

def switch (r : Runner) (scrutinee : Expr) (cases : List Case) : Run Flow := do
  let n ← r.evalInt scrutinee
  Run.underFrame .switch (r.runCases n false cases)

end Yap.Runner
