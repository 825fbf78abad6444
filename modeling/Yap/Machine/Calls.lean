import Yap.Machine.Input
import Yap.Machine.Printing

/-! Calls of builtins and of the functions of a program. A user call evaluates its arguments in
the caller's scopes, then runs the body under a call frame in a scope that holds the parameters. -/
namespace Yap.Runner

def single (b : Builtin) : List Expr → Run Expr
  | [e] => pure e
  | args => Run.fail (.builtinArgument b (.oneArgument args.length))

/-- Runs a builtin. A pause changes nothing in the machine. -/
def builtin (r : Runner) (b : Builtin) (args : List Expr) : Run Unit := do
  Run.modify (·.note (.builtin b args.length))
  match b with
  | .yapping =>
    let t ← r.formatted b args
    Run.modify (·.write .out (t ++ "\n"))
  | .yappin =>
    let t ← r.formatted b args
    Run.modify (·.write .out t)
  | .baka =>
    let t ← if args.isEmpty then pure "\n" else r.formatted b args
    Run.modify (·.write .err t)
  | .ragequit =>
    let e ← single b args
    let code ← r.evalInt e
    Run.stop (.exit code)
  | .chill =>
    let e ← single b args
    let seconds ← r.evalInt e
    if seconds < 0 then Run.fail (.builtinArgument b .negativeDuration) else pure ()
  | .slorp =>
    let e ← single b args
    Run.readInto e

def arguments (r : Runner) : List Param → List Expr → Run (List Value)
  | p :: ps, e :: es => do
    let v ← r.evalAs e p.kind
    let vs ← r.arguments ps es
    pure (v :: vs)
  | _, _ => pure []

def bindParams : List Param → List Value → Run Unit
  | p :: ps, v :: vs => do
    Run.declare (.scalar p.name p.kind v .none)
    bindParams ps vs
  | _, _ => pure ()

def bound (r : Runner) (d : Definition) (values : List Value) : Run Flow :=
  Run.inScope do
    bindParams d.params values
    r.exec d.body

def body (r : Runner) (d : Definition) (values : List Value) : Run Flow :=
  Run.inCall (Run.underFrame (.call d.name d.returns) (r.bound d values))

/-- Calls a function of the program. The result is what it gives back, if anything. -/
def call (r : Runner) (name : String) (args : List Expr) : Run (Option Value) := do
  Run.modify (·.note (.call name))
  match ← Run.gets (·.function? name) with
  | none => Run.fail (.undefinedFunction name)
  | some d =>
    if args.length ≠ d.params.length then
      Run.fail (.arityMismatch name d.params.length args.length)
    else
      let values ← r.arguments d.params args
      let f ← r.body d values
      pure f.result

/-- A call in an expression. A builtin gives zero; a function that gives nothing back gives a zero
of its return kind, with a warning. -/
def callValue (r : Runner) (name : String) (args : List Expr) : Run Value :=
  match Builtin.ofName? name with
  | some b => do
    r.builtin b args
    pure (.int 0)
  | none => do
    let d ← Run.gets (·.function? name)
    let kind := (d.bind (·.returns)).getD .int
    match ← r.call name args with
    | some v => pure v
    | none =>
      Run.report (.missingReturnValue name)
      pure (Value.zero kind)

/-- A call as a statement: what it gives back is dropped. -/
def callOnly (r : Runner) (name : String) (args : List Expr) : Run Flow := do
  match Builtin.ofName? name with
  | some b => r.builtin b args
  | none =>
    let _ ← r.call name args
  pure .normal

/-- Registers a definition; a name that is taken is reported. -/
def register (d : Definition) : Run Unit := do
  let earlier ← Run.gets (·.function? d.name)
  Run.modify (·.register d)
  if earlier.isSome then Run.report (.functionRedefined d.name) else pure ()

/-- Registers a definition unless it is registered already. -/
def define (d : Definition) : Run Flow := do
  if ← Run.gets (·.knows d) then pure () else register d
  pure .normal

end Yap.Runner
