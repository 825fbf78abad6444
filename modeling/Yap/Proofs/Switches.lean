import Yap.Machine.Evaluation

/-! Switches as they are read: a search for the first case that matches, which evaluates labels, and
behind it one list of statements, which evaluates none. Main statement: a switch does as it reads,
and cases behind a default are never reached. -/
namespace Yap

namespace Case

def throughDefault (cs : List Case) : List Case := cs.take (cs.findIdx (·.label.isNone) + 1)

def bodies (cs : List Case) : List Stmt := (throughDefault cs).flatMap (·.body)

theorem bodies_of_default {c : Case} (hc : c.label = none) (cs : List Case) :
    bodies (c :: cs) = c.body := by
  simp [bodies, throughDefault, List.findIdx_cons, hc]

theorem bodies_of_label {c : Case} {e : Expr} (hc : c.label = some e) (cs : List Case) :
    bodies (c :: cs) = c.body ++ bodies cs := by
  simp [bodies, throughDefault, List.findIdx_cons, hc]

end Case

namespace Runner

/-- The cases from the first that is the default or has a label equal to a number. Labels are
evaluated in order, and none behind that case. -/
def select (r : Runner) (n : Int32) : List Case → Run (List Case)
  | [] => pure []
  | c :: cs =>
    match c.label with
    | none => pure (c :: cs)
    | some e => do
      let l ← r.evalInt e
      if l = n then pure (c :: cs) else r.select n cs

def fallThrough (r : Runner) (cs : List Case) : Run Flow := do
  let f ← r.execAll (Case.bodies cs)
  pure f.absorbed

def selectAndRun (r : Runner) (scrutinee : Expr) (cases : List Case) : Run Flow := do
  let n ← r.evalInt scrutinee
  Run.underFrame .switch do
    let cs ← r.select n cases
    r.fallThrough cs

variable (r : Runner)

theorem fallThrough_nil : r.fallThrough [] = pure .normal := rfl

/-- A default is run to its end and no further. -/
theorem fallThrough_of_default {c : Case} (hc : c.label = none) (cs : List Case)
    (rest : Run Flow) : r.fallThrough (c :: cs) = r.execAll c.body >>= afterCase c rest := by
  rw [fallThrough, Case.bodies_of_default hc]
  congr 1
  funext f
  cases f <;> simp [afterCase, hc, Flow.absorbed]

/-- A labelled case is run, and those behind it follow its normal end. -/
theorem fallThrough_of_label {c : Case} {e : Expr} (hc : c.label = some e) (cs : List Case) :
    r.fallThrough (c :: cs) = r.execAll c.body >>= afterCase c (r.fallThrough cs) := by
  rw [fallThrough, Case.bodies_of_label hc, execAll_append, bind_assoc]
  congr 1
  funext f
  cases f with
  | normal => simp [afterCase, hc, Flow.andThen, fallThrough]
  | leave => rfl
  | giveBack v => rfl

variable (n : Int32)

theorem runCases_matched (cs : List Case) : r.runCases n true cs = r.fallThrough cs := by
  induction cs with
  | nil => exact r.fallThrough_nil
  | cons c cs ih =>
    rw [runCases, ih]
    cases hc : c.label with
    | none => exact (r.fallThrough_of_default hc cs _).symm
    | some e => exact (r.fallThrough_of_label hc cs).symm

/-- The search for a match comes before all that is run. -/
theorem runCases_unmatched (cs : List Case) :
    r.runCases n false cs = r.select n cs >>= r.fallThrough := by
  induction cs with
  | nil => rfl
  | cons c cs ih =>
    have hmatched : r.fallThrough (c :: cs) =
        r.execAll c.body >>= afterCase c (r.runCases n true cs) := by
      rw [← r.runCases_matched n]
      rfl
    rw [runCases, select, hits]
    cases hc : c.label with
    | none => exact hmatched.symm
    | some e =>
      simp only [matchesCase, bind_assoc, Bool.false_eq_true, if_false]
      congr 1
      funext l
      by_cases hl : l = n <;> simp [hl, hmatched, ih]

/-- Cases behind a default are as if they were not there. -/
theorem runCases_default (matched : Bool) (before after : List Case) {c : Case}
    (hc : c.label = none) :
    r.runCases n matched (before ++ c :: after) = r.runCases n matched (before ++ [c]) := by
  induction before generalizing matched with
  | nil =>
    cases matched with
    | true => simp only [List.nil_append, runCases_matched, fallThrough, Case.bodies_of_default hc]
    | false =>
      simp only [List.nil_append, runCases_unmatched, select, hc, pure_bind, fallThrough,
        Case.bodies_of_default hc]
  | cons b before ih => simp only [List.cons_append, runCases, ih]

end Runner

/-- A switch does as it reads, whatever its labels are and whatever they do, and ends as its bodies
end, with a break as a normal end. Cases behind a default are never reached. -/
theorem switch_reads (r : Runner) (scrutinee : Expr) (cases : List Case) :
    r.act (.switch scrutinee cases) = r.selectAndRun scrutinee cases ∧
    ∀ (before after : List Case) (body : List Stmt),
      r.act (.switch scrutinee (before ++ ⟨none, body⟩ :: after)) =
        r.act (.switch scrutinee (before ++ [⟨none, body⟩])) := by
  constructor
  · change r.switch scrutinee cases = _
    simp only [Runner.switch, Runner.selectAndRun, Runner.runCases_unmatched]
  · intro before after body
    change r.switch _ _ = r.switch _ _
    simp only [Runner.switch, Runner.runCases_default _ _ _ before after (c := ⟨none, body⟩) rfl]

/-- The body behind a match runs though its label differs, and the one behind the default does
not. -/
example : (Case.bodies [⟨some (.literal (.int 1)), [⟨.leave, some 1⟩]⟩,
    ⟨some (.literal (.int 2)), [⟨.leave, some 2⟩]⟩, ⟨none, [⟨.leave, some 3⟩]⟩,
    ⟨some (.literal (.int 4)), [⟨.leave, some 4⟩]⟩]).map (·.line) = [some 1, some 2, some 3] := rfl

end Yap
