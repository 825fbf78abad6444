import Yap.Format.Render
import Yap.Machine.Variables

/-! Formatted output. The arguments are evaluated one by one as the specifications of the format
consume them; one that no specification consumes is not evaluated, and a specification without
argument stands as it was written. -/
namespace Yap.Runner

open Format

/-- An integer argument. A short is cut to 16 bits and all else to 32, and it shows as unsigned if
its expression does. -/
def integerArg (r : Runner) (e : Expr) : Run Arg := do
  let unsigned ← Run.gets (·.isUnsigned e)
  let k ← Run.kindOf e
  let v ← r.eval e
  pure <| .integer <|
    if k.numeric = .short then
      if unsigned then v.toInt16.toUInt16.toNat else v.toInt16.toInt
    else if unsigned then v.toInt32.toUInt32.toNat
    else v.toInt32.toInt

def formatArg (r : Runner) (s : Spec) (e : Expr) : Run Arg :=
  match s.conversion.argClass with
  | .str =>
    match e with
    | .text t => pure (.str t.toList)
    | _ => Run.fail (.format (.needsLiteral s.source))
  | .floating => do
    let k ← Run.kindOf e
    if k.isFloating then
      let v ← r.eval e
      pure (.float v.toFloat)
    else Run.fail (.format (.needsFloat s.source))
  | .integer =>
    if s.conversion = .bool then do
      let v ← r.eval e
      pure (.integer (if v.isTruthy then 1 else 0))
    else r.integerArg e

def renderPieces (r : Runner) : List Piece → List Expr → Run (List Char)
  | [], _ => pure []
  | .literal t :: ps, args => do
    let rest ← r.renderPieces ps args
    pure (t ++ rest)
  | .spec s :: ps, [] => do
    let rest ← r.renderPieces ps []
    pure (s.source ++ rest)
  | .spec s :: ps, e :: args => do
    let a ← r.formatArg s e
    let t ← Run.ofExcept ((s.render a).mapError .format)
    let rest ← r.renderPieces ps args
    pure (t ++ rest)

/-- A format rendered with arguments. A malformed one is refused before any is evaluated. -/
def render (r : Runner) (format : String) (args : List Expr) : Run String := do
  let ps ← Run.ofExcept ((parse format).mapError .format)
  let t ← r.renderPieces ps args
  pure (String.ofList t)

/-- The arguments of a printing builtin: a format as literal text, and what it prints. -/
def formatted (r : Runner) (b : Builtin) : List Expr → Run String
  | .text format :: args => r.render format args
  | _ :: _ => Run.fail (.builtinArgument b .formatNotLiteral)
  | [] => Run.fail (.builtinArgument b .noFormat)

/-- Prints literal text as it is and any other expression as a decimal integer, and a newline. -/
def print (r : Runner) (s : Stream) (e : Expr) : Run Flow := do
  let t ← match e with
    | .text t => pure t
    | e => do
      let n ← r.evalInt e
      pure (toString n.toInt)
  Run.modify (·.write s (t ++ "\n"))
  pure .normal

end Yap.Runner
