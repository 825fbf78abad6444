import Yap.Tree.Encode

/-! Fresh numbers for the definitions of a tree, counted on from a start in the order of the text.
Main statement: nothing but the numbers changes. -/
namespace Yap

mutual

/-- The statement with its definitions numbered from `n` on, and the next number. -/
def Stmt.number (n : Nat) : Stmt → Stmt × Nat
  | ⟨action, line⟩ => (⟨(action.number n).1, line⟩, (action.number n).2)

def Action.number (n : Nat) : Action → Action × Nat
  | .ifElse cond thenBranch elseBranch =>
    let (thenBranch, n) := thenBranch.number n
    let (elseBranch, n) := numberOption n elseBranch
    (.ifElse cond thenBranch elseBranch, n)
  | .whileDo cond body =>
    let (body, n) := body.number n
    (.whileDo cond body, n)
  | .doWhile body cond =>
    let (body, n) := body.number n
    (.doWhile body cond, n)
  | .forLoop init cond step body =>
    let (init, n) := numberOption n init
    let (step, n) := numberOption n step
    let (body, n) := body.number n
    (.forLoop init cond step body, n)
  | .switch scrutinee cases =>
    let (cases, n) := numberCases n cases
    (.switch scrutinee cases, n)
  | .define d =>
    let (d, n) := d.number n
    (.define d, n)
  | .block body =>
    let (body, n) := numberAll n body
    (.block body, n)
  | a => (a, n)

def Case.number (n : Nat) : Case → Case × Nat
  | ⟨label, body⟩ =>
    let (body, n) := numberAll n body
    (⟨label, body⟩, n)

def Definition.number (n : Nat) : Definition → Definition × Nat
  | ⟨_, name, returns, params, body⟩ =>
    let (body, next) := body.number (n + 1)
    (⟨n, name, returns, params, body⟩, next)

def numberOption (n : Nat) : Option Stmt → Option Stmt × Nat
  | none => (none, n)
  | some s => (some (s.number n).1, (s.number n).2)

def numberAll (n : Nat) : List Stmt → List Stmt × Nat
  | [] => ([], n)
  | s :: ss =>
    let (s, n) := s.number n
    let (ss, n) := numberAll n ss
    (s :: ss, n)

def numberCases (n : Nat) : List Case → List Case × Nat
  | [] => ([], n)
  | c :: cs =>
    let (c, n) := c.number n
    let (cs, n) := numberCases n cs
    (c :: cs, n)

end

def Program.number (n : Nat) (p : Program) : Program × Nat :=
  (⟨(numberAll n p.statements).1⟩, (numberAll n p.statements).2)

mutual

theorem Stmt.encode_number (form : FloatForm) (n : Nat) :
    (s : Stmt) → (s.number n).1.encode form = s.encode form
  | ⟨action, line⟩ => by simp [Stmt.number, Stmt.encode, action.encode_number form n]

theorem Action.encode_number (form : FloatForm) (n : Nat) :
    (a : Action) → (a.number n).1.encode form = a.encode form
  | .ifElse _ t e => by
    simp [Action.number, Action.encode, t.encode_number form, encodeOption_number form _ e]
  | .whileDo _ b => by simp [Action.number, Action.encode, b.encode_number form]
  | .doWhile b _ => by simp [Action.number, Action.encode, b.encode_number form]
  | .forLoop i _ s b => by
    simp [Action.number, Action.encode, b.encode_number form, encodeOption_number form _ i,
      encodeOption_number form _ s]
  | .switch _ cs => by simp [Action.number, Action.encode, encodeCases_number form _ cs]
  | .define d => by simp [Action.number, Action.encode, d.encode_number form]
  | .block b => by simp [Action.number, Action.encode, encodeAll_number form _ b]
  | .declare .. | .declareArray .. | .assign .. | .assignElement .. | .expr .. | .leave
  | .giveBack .. | .print .. | .printError .. => rfl

theorem Case.encode_number (form : FloatForm) (n : Nat) :
    (c : Case) → (c.number n).1.encode form = c.encode form
  | ⟨_, body⟩ => by simp [Case.number, Case.encode, encodeAll_number form _ body]

theorem Definition.encode_number (form : FloatForm) (n : Nat) :
    (d : Definition) → (d.number n).1.encode form = d.encode form
  | ⟨_, _, _, _, body⟩ => by
    simp [Definition.number, Definition.encode, body.encode_number form]

theorem encodeOption_number (form : FloatForm) (n : Nat) :
    (s : Option Stmt) → encodeOption form (numberOption n s).1 = encodeOption form s
  | none => rfl
  | some s => by simp [numberOption, encodeOption, s.encode_number form]

theorem encodeAll_number (form : FloatForm) (n : Nat) :
    (ss : List Stmt) → encodeAll form (numberAll n ss).1 = encodeAll form ss
  | [] => rfl
  | s :: ss => by
    simp [numberAll, encodeAll, s.encode_number form, encodeAll_number form _ ss]

theorem encodeCases_number (form : FloatForm) (n : Nat) :
    (cs : List Case) → encodeCases form (numberCases n cs).1 = encodeCases form cs
  | [] => rfl
  | c :: cs => by
    simp [numberCases, encodeCases, c.encode_number form, encodeCases_number form _ cs]

end

/-- Numbering changes nothing that is written. -/
theorem Program.encode_number (form : FloatForm) (n : Nat) (p : Program) :
    (p.number n).1.encode form = p.encode form := by
  simp [Program.number, Program.encode, encodeAll_number]

end Yap
