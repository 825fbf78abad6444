import Yap.Tree.Encode

/-! Trees built again with the plain constructors: arrays lose their modifiers, and the body of a
function becomes a block without a line. Main statement: building again a second time changes
nothing. -/
namespace Yap

/-- The statements of a body: those of a block, or the statement itself. -/
def Stmt.contents : Stmt → List Stmt
  | ⟨.block body, _⟩ => body
  | s => [s]

mutual

def Stmt.rebuild : Stmt → Stmt
  | ⟨action, line⟩ => ⟨action.rebuild, line⟩

def Action.rebuild : Action → Action
  | .declareArray name kind _ length init => .declareArray name kind .none length init
  | .ifElse cond t e => .ifElse cond t.rebuild (rebuildOption e)
  | .whileDo cond body => .whileDo cond body.rebuild
  | .doWhile body cond => .doWhile body.rebuild cond
  | .forLoop init cond step body =>
    .forLoop (rebuildOption init) cond (rebuildOption step) body.rebuild
  | .switch scrutinee cases => .switch scrutinee (rebuildCases cases)
  | .define d => .define d.rebuild
  | .block body => .block (rebuildAll body)
  | a => a

def Case.rebuild : Case → Case
  | ⟨label, body⟩ => ⟨label, rebuildAll body⟩

def Definition.rebuild : Definition → Definition
  | ⟨id, name, returns, params, body⟩ =>
    ⟨id, name, returns, params, ⟨.block body.rebuild.contents, none⟩⟩

def rebuildOption : Option Stmt → Option Stmt
  | none => none
  | some s => some s.rebuild

def rebuildAll : List Stmt → List Stmt
  | [] => []
  | s :: ss => s.rebuild :: rebuildAll ss

def rebuildCases : List Case → List Case
  | [] => []
  | c :: cs => c.rebuild :: rebuildCases cs

end

def Program.rebuild (p : Program) : Program := ⟨rebuildAll p.statements⟩

@[simp] theorem contents_block (body : List Stmt) (line : Option Line) :
    (⟨.block body, line⟩ : Stmt).contents = body := rfl

theorem rebuildAll_contents (s : Stmt) : rebuildAll s.contents = s.rebuild.contents := by
  rcases s with ⟨action, line⟩
  cases action <;> simp [Stmt.contents, Stmt.rebuild, Action.rebuild, rebuildAll]

mutual

theorem Stmt.rebuild_rebuild : (s : Stmt) → s.rebuild.rebuild = s.rebuild
  | ⟨action, _⟩ => by simp [Stmt.rebuild, action.rebuild_rebuild]

theorem Action.rebuild_rebuild : (a : Action) → a.rebuild.rebuild = a.rebuild
  | .ifElse _ t e => by simp [Action.rebuild, t.rebuild_rebuild, rebuildOption_rebuildOption e]
  | .whileDo _ b => by simp [Action.rebuild, b.rebuild_rebuild]
  | .doWhile b _ => by simp [Action.rebuild, b.rebuild_rebuild]
  | .forLoop i _ s b => by
    simp [Action.rebuild, b.rebuild_rebuild, rebuildOption_rebuildOption i,
      rebuildOption_rebuildOption s]
  | .switch _ cs => by simp [Action.rebuild, rebuildCases_rebuildCases cs]
  | .define d => by simp [Action.rebuild, d.rebuild_rebuild]
  | .block b => by simp [Action.rebuild, rebuildAll_rebuildAll b]
  | .declare .. | .declareArray .. | .assign .. | .assignElement .. | .expr .. | .leave
  | .giveBack .. | .print .. | .printError .. => rfl

theorem Case.rebuild_rebuild : (c : Case) → c.rebuild.rebuild = c.rebuild
  | ⟨_, body⟩ => by simp [Case.rebuild, rebuildAll_rebuildAll body]

theorem Definition.rebuild_rebuild : (d : Definition) → d.rebuild.rebuild = d.rebuild
  | ⟨_, _, _, _, body⟩ => by
    have h : rebuildAll body.rebuild.contents = body.rebuild.contents := by
      rw [rebuildAll_contents, body.rebuild_rebuild]
    simp only [Definition.rebuild, Stmt.rebuild, Action.rebuild, contents_block, h]

theorem rebuildOption_rebuildOption :
    (s : Option Stmt) → rebuildOption (rebuildOption s) = rebuildOption s
  | none => rfl
  | some s => by simp [rebuildOption, s.rebuild_rebuild]

theorem rebuildAll_rebuildAll : (ss : List Stmt) → rebuildAll (rebuildAll ss) = rebuildAll ss
  | [] => rfl
  | s :: ss => by simp [rebuildAll, s.rebuild_rebuild, rebuildAll_rebuildAll ss]

theorem rebuildCases_rebuildCases :
    (cs : List Case) → rebuildCases (rebuildCases cs) = rebuildCases cs
  | [] => rfl
  | c :: cs => by simp [rebuildCases, c.rebuild_rebuild, rebuildCases_rebuildCases cs]

end

theorem Program.rebuild_rebuild (p : Program) : p.rebuild.rebuild = p.rebuild := by
  simp [Program.rebuild, rebuildAll_rebuildAll]

/-- What the expressions in an expression are called, each before its parts. -/
def Expr.descriptions (e : Expr) : List String :=
  e.description ::
    match e with
    | .binary _ l r _ => l.descriptions ++ r.descriptions
    | .unary _ o => o.descriptions
    | .element _ i => i.descriptions
    | .call _ args => all args
    | .sizeOf o => o.descriptions
    | _ => []
where
  all : List Expr → List String
    | [] => []
    | e :: es => e.descriptions ++ all es

def descriptionsOf : Option Expr → List String
  | none => []
  | some e => e.descriptions

mutual

/-- What the expressions in a statement are called, in the order of the text. A call that is the
whole statement is not listed, its arguments are. -/
def Stmt.descriptions : Stmt → List String
  | ⟨action, _⟩ => action.descriptions

def Action.descriptions : Action → List String
  | .declare _ _ _ init => descriptionsOf init
  | .declareArray _ _ _ _ init => Expr.descriptions.all (init.getD [])
  | .assign _ value => value.descriptions
  | .assignElement _ index value => index.descriptions ++ value.descriptions
  | .expr (.call _ args) => Expr.descriptions.all args
  | .expr e => e.descriptions
  | .ifElse cond t e => cond.descriptions ++ t.descriptions ++ descriptionsOption e
  | .whileDo cond body => cond.descriptions ++ body.descriptions
  | .doWhile body cond => body.descriptions ++ cond.descriptions
  | .forLoop init cond step body =>
    descriptionsOption init ++ descriptionsOf cond ++ descriptionsOption step ++ body.descriptions
  | .switch scrutinee cases => scrutinee.descriptions ++ descriptionsCases cases
  | .leave => []
  | .giveBack value => descriptionsOf value
  | .define d => d.descriptions
  | .print e => e.descriptions
  | .printError e => e.descriptions
  | .block body => descriptionsAll body

def Case.descriptions : Case → List String
  | ⟨label, body⟩ => descriptionsOf label ++ descriptionsAll body

def Definition.descriptions : Definition → List String
  | ⟨_, _, _, _, body⟩ => body.descriptions

def descriptionsOption : Option Stmt → List String
  | none => []
  | some s => s.descriptions

def descriptionsAll : List Stmt → List String
  | [] => []
  | s :: ss => s.descriptions ++ descriptionsAll ss

def descriptionsCases : List Case → List String
  | [] => []
  | c :: cs => c.descriptions ++ descriptionsCases cs

end

def Program.descriptions (p : Program) : List String := descriptionsAll p.statements

/-- Whether two trees are written in the same way. -/
def Program.sameAs (p q : Program) : Bool := (p.encode .number).same (q.encode .number)

end Yap
