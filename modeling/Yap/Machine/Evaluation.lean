import Yap.Machine.Calls
import Yap.Machine.Loops

/-! Evaluation of expressions and execution of statements, each node by a runner for its parts.
The fuel bounds how deeply nodes and calls nest, and how many turns each loop takes. -/
namespace Yap
namespace Runner

/-- One expression. Both operands of an operator are always evaluated, the left one first. -/
def evalNode (r : Runner) : Expr → Run Value
  | .literal l => pure l.value
  | .text _ => Run.fail .stringInExpression
  | .ident name => Run.read name
  | .binary op left right modifiers => do
    let a ← r.eval left
    let b ← r.eval right
    let u ← Run.gets (·.isUnsigned left)
    let u' ← Run.gets (·.isUnsigned right)
    Run.settle (Value.binary op a b (op = .mod && (modifiers.unsigned || u || u')))
  | .unary .neg operand => do
    let v ← r.eval operand
    pure v.negate
  | .unary .preInc operand => step operand 1 false
  | .unary .preDec operand => step operand (-1) false
  | .unary .postInc operand => step operand 1 true
  | .unary .postDec operand => step operand (-1) true
  | .element name index => r.element name index
  | .call name args => r.callValue name args
  | .sizeOf operand => sizeOf operand

def ifElse (r : Runner) (cond : Expr) (thenBranch : Stmt) (elseBranch : Option Stmt) : Run Flow :=
  Run.inScope do
    if ← r.holds cond then r.exec thenBranch
    else
      match elseBranch with
      | some s => r.exec s
      | none => pure .normal

/-- A break needs a loop or switch in the current call. -/
def leave : Run Flow := do
  if ← Run.gets (Frame.canBreak ·.frames) then pure .leave else Run.fail .breakOutsideLoop

/-- A return gives its value at the return kind of the current call. Outside any call it does
nothing, and its expression is not evaluated. -/
def giveBack (r : Runner) (value : Option Expr) : Run Flow := do
  let current ← Run.gets (Frame.currentCall ·.frames)
  match current, value with
  | none, _ => pure .normal
  | some _, none => pure (.giveBack none)
  | some (function, none), some _ => Run.fail (.invalidReturn function)
  | some (_, some k), some e =>
    let v ← r.evalAs e k
    pure (.giveBack (some v))

def discard (r : Runner) : Expr → Run Flow
  | .call name args => r.callOnly name args
  | e => do
    let _ ← r.eval e
    pure .normal

def act (r : Runner) : Action → Run Flow
  | .declare name kind modifiers init => r.declare name kind modifiers init
  | .declareArray name kind modifiers length init =>
    r.declareArray name kind modifiers length (init.getD [])
  | .assign name value => r.assign name value
  | .assignElement name index value => r.assignElement name index value
  | .expr e => r.discard e
  | .ifElse cond thenBranch elseBranch => r.ifElse cond thenBranch elseBranch
  | .whileDo cond body => r.whileDo cond body
  | .doWhile body cond => r.doWhile body cond
  | .forLoop init cond next body => r.forLoop init cond next body
  | .switch scrutinee cases => r.switch scrutinee cases
  | .leave => leave
  | .giveBack value => r.giveBack value
  | .define d => define d
  | .print e => r.print .out e
  | .printError e => r.print .err e
  | .block body => r.execAll body

/-- One statement, at its line, unless an interruption was asked for. -/
def execNode (r : Runner) (s : Stmt) : Run Flow := do
  Run.checkInterrupt
  Run.atLine s.line do
    Run.modify fun m => m.note (.exec m.line s.action.description)
    r.act s.action

end Runner

mutual

def Expr.eval : Nat → Expr → Run Value
  | 0, _ => Run.exhausted
  | n + 1, e => Runner.evalNode ⟨Expr.eval n, Stmt.exec n, n⟩ e

def Stmt.exec : Nat → Stmt → Run Flow
  | 0, _ => Run.exhausted
  | n + 1, s => Runner.execNode ⟨Expr.eval n, Stmt.exec n, n⟩ s

end

def Runner.ofFuel (n : Nat) : Runner := ⟨Expr.eval n, Stmt.exec n, n⟩

theorem Expr.eval_succ (n : Nat) (e : Expr) : e.eval (n + 1) = (Runner.ofFuel n).evalNode e := rfl

theorem Stmt.exec_succ (n : Nat) (s : Stmt) : s.exec (n + 1) = (Runner.ofFuel n).execNode s := rfl

end Yap
