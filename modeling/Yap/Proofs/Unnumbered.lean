import Yap.Tree.Number

/-! Trees without the numbers of their definitions, which no document holds: a tree as read has
zero everywhere. Main statement: nothing else is dropped. -/
namespace Yap

mutual

def Stmt.unnumbered : Stmt → Stmt
  | ⟨action, line⟩ => ⟨action.unnumbered, line⟩

def Action.unnumbered : Action → Action
  | .ifElse cond thenBranch elseBranch =>
    .ifElse cond thenBranch.unnumbered (unnumberedOption elseBranch)
  | .whileDo cond body => .whileDo cond body.unnumbered
  | .doWhile body cond => .doWhile body.unnumbered cond
  | .forLoop init cond step body =>
    .forLoop (unnumberedOption init) cond (unnumberedOption step) body.unnumbered
  | .switch scrutinee cases => .switch scrutinee (unnumberedCases cases)
  | .define d => .define d.unnumbered
  | .block body => .block (unnumberedAll body)
  | a => a

def Case.unnumbered : Case → Case
  | ⟨label, body⟩ => ⟨label, unnumberedAll body⟩

def Definition.unnumbered : Definition → Definition
  | ⟨_, name, returns, params, body⟩ => ⟨0, name, returns, params, body.unnumbered⟩

def unnumberedOption : Option Stmt → Option Stmt
  | none => none
  | some s => some s.unnumbered

def unnumberedAll : List Stmt → List Stmt
  | [] => []
  | s :: ss => s.unnumbered :: unnumberedAll ss

def unnumberedCases : List Case → List Case
  | [] => []
  | c :: cs => c.unnumbered :: unnumberedCases cs

end

theorem unnumberedOption_eq_map (s : Option Stmt) :
    unnumberedOption s = s.map Stmt.unnumbered := by cases s <;> rfl

theorem unnumberedAll_eq_map (ss : List Stmt) : unnumberedAll ss = ss.map Stmt.unnumbered := by
  induction ss with
  | nil => rfl
  | cons s ss ih => rw [unnumberedAll, ih, List.map_cons]

theorem unnumberedCases_eq_map (cs : List Case) : unnumberedCases cs = cs.map Case.unnumbered := by
  induction cs with
  | nil => rfl
  | cons c cs ih => rw [unnumberedCases, ih, List.map_cons]

def Program.unnumbered (p : Program) : Program := ⟨unnumberedAll p.statements⟩

mutual

theorem Stmt.number_unnumbered (n : Nat) : (s : Stmt) → s.unnumbered.number n = s.number n
  | ⟨action, line⟩ => by simp [Stmt.unnumbered, Stmt.number, action.number_unnumbered n]

theorem Action.number_unnumbered (n : Nat) : (a : Action) → a.unnumbered.number n = a.number n
  | .ifElse _ t e => by
    simp [Action.unnumbered, Action.number, t.number_unnumbered, numberOption_unnumbered _ e]
  | .whileDo _ b => by simp [Action.unnumbered, Action.number, b.number_unnumbered]
  | .doWhile b _ => by simp [Action.unnumbered, Action.number, b.number_unnumbered]
  | .forLoop i _ s b => by
    simp [Action.unnumbered, Action.number, numberOption_unnumbered _ i,
      numberOption_unnumbered _ s, b.number_unnumbered]
  | .switch _ cs => by simp [Action.unnumbered, Action.number, numberCases_unnumbered _ cs]
  | .define d => by simp [Action.unnumbered, Action.number, d.number_unnumbered]
  | .block b => by simp [Action.unnumbered, Action.number, numberAll_unnumbered _ b]
  | .declare .. | .declareArray .. | .assign .. | .assignElement .. | .expr .. | .leave
  | .giveBack .. | .print .. | .printError .. => rfl

theorem Case.number_unnumbered (n : Nat) : (c : Case) → c.unnumbered.number n = c.number n
  | ⟨_, body⟩ => by simp [Case.unnumbered, Case.number, numberAll_unnumbered _ body]

theorem Definition.number_unnumbered (n : Nat) :
    (d : Definition) → d.unnumbered.number n = d.number n
  | ⟨_, _, _, _, body⟩ => by
    simp [Definition.unnumbered, Definition.number, body.number_unnumbered]

theorem numberOption_unnumbered (n : Nat) :
    (s : Option Stmt) → numberOption n (unnumberedOption s) = numberOption n s
  | none => rfl
  | some s => by simp [unnumberedOption, numberOption, s.number_unnumbered]

theorem numberAll_unnumbered (n : Nat) :
    (ss : List Stmt) → numberAll n (unnumberedAll ss) = numberAll n ss
  | [] => rfl
  | s :: ss => by
    simp [unnumberedAll, numberAll, s.number_unnumbered, numberAll_unnumbered _ ss]

theorem numberCases_unnumbered (n : Nat) :
    (cs : List Case) → numberCases n (unnumberedCases cs) = numberCases n cs
  | [] => rfl
  | c :: cs => by
    simp [unnumberedCases, numberCases, c.number_unnumbered, numberCases_unnumbered _ cs]

end

/-- Nothing but the numbers is dropped: numbering what is left gives what numbering the program
gives. -/
theorem Program.number_unnumbered (n : Nat) (p : Program) : p.unnumbered.number n = p.number n := by
  simp [Program.number, Program.unnumbered, numberAll_unnumbered]

end Yap
