import Yap.Console
import Yap.Store.Chain
import Yap.Trace

/-! The state of a run: variables, functions, frames, console, warnings, and the line of the
statement in execution. Also what can be told of an expression without evaluating it: the kind of
its values, and whether they count as unsigned. -/
namespace Yap

/-- What becomes of a warning: it is recorded and written to the error stream, it is recorded, or
it stops the run. -/
inductive Policy
  | report | collect | abort
deriving DecidableEq, Repr

structure Machine where
  chain : Chain
  functions : List Definition := []
  frames : List Frame := []
  console : Console := {}
  policy : Policy := .report
  tracing : Bool := false
  interrupted : Bool := false
  diagnostics : Array Diagnostic := #[]
  line : Option Line := none
  events : Array Event := #[]

namespace Machine

def new (limit : Nat) (policy : Policy) (tracing : Bool) (input : List UInt8) : Machine :=
  { chain := .new limit, console := { input := input }, policy := policy, tracing := tracing }

/-- Logs an event if the run is traced. -/
def note (m : Machine) (e : Event) : Machine :=
  if m.tracing then { m with events := m.events.push e } else m

def write (m : Machine) (s : Stream) (text : String) : Machine :=
  { m with console := m.console.write s text }

/-- Records a warning at the current line, and reports it if that is the policy. -/
def record (m : Machine) (w : Warning) : Machine :=
  let m := m.note (.warned m.line w)
  let m := if m.policy = .report then m.write .err (diagnosticText m.line w.message ++ "\n") else m
  { m with diagnostics := m.diagnostics.push ⟨w, m.line⟩ }

def enterScope (m : Machine) : Machine :=
  let m := { m with chain := m.chain.enterScope }
  m.note (.enterScope m.chain.depth)

def exitScope (m : Machine) : Machine :=
  if m.chain.isGlobal then m
  else
    let m := { m with chain := m.chain.exitScope }
    m.note (.exitScope m.chain.depth)

def pushFrame (m : Machine) (kind : FrameKind) : Machine :=
  let f := ⟨kind, m.chain.depth⟩
  { m.note (.pushFrame f) with frames := f :: m.frames }

def popFrame (m : Machine) : Machine :=
  match m.frames with
  | [] => m
  | f :: fs => { m with frames := fs }.note (.popFrame f.kind)

/-- The first definition of a name. -/
def function? (m : Machine) (name : String) : Option Definition :=
  m.functions.find? (·.name = name)

/-- Whether this very definition is registered. -/
def knows (m : Machine) (d : Definition) : Bool := m.functions.any (·.id = d.id)

def register (m : Machine) (d : Definition) : Machine :=
  { m.note (.register d.name d.params.length (m.function? d.name).isSome) with
    functions := m.functions ++ [d] }

/-- Puts an array of so many cells in the place of one of its name in the current scope. -/
def replaceArray (m : Machine) (x : Variable) (length : Nat) : Machine :=
  { m.note (.reallocate x.name length) with chain := m.chain.replaceCurrent x }

def kindOf (m : Machine) : Expr → Except Cause Kind
  | .literal l => .ok l.kind
  | .text _ => .error .stringInExpression
  | .ident name =>
    match m.chain.find? name with
    | some x => .ok x.kind.asRead
    | none => .error (.undefinedVariable name)
  | .binary _ left right _ =>
    match m.kindOf left with
    | .error c => .error c
    | .ok a =>
      match m.kindOf right with
      | .error c => .error c
      | .ok b => .ok (a.promote b)
  | .unary _ operand => m.kindOf operand
  | .element name _ =>
    match m.chain.find? name with
    | some x => .ok x.kind.asRead
    | none => .error (.undefinedArray name)
  | .call name _ =>
    match Builtin.ofName? name with
    | some _ => .ok .int
    | none =>
      match m.function? name with
      | some d => .ok (d.returns.getD .int)
      | none => .error (.undefinedFunction name)
  | .sizeOf _ => .ok .int

/-- Whether integers of an expression count as unsigned: those of a variable declared so, and
those of an operation written so. -/
def isUnsigned (m : Machine) : Expr → Bool
  | .ident name =>
    match m.chain.find? name with
    | some x => x.modifiers.unsigned
    | none => false
  | .binary _ _ _ modifiers => modifiers.unsigned
  | _ => false

@[simp] theorem chain_note (m : Machine) (e : Event) : (m.note e).chain = m.chain := by
  by_cases h : m.tracing <;> simp [note, h]

@[simp] theorem frames_note (m : Machine) (e : Event) : (m.note e).frames = m.frames := by
  by_cases h : m.tracing <;> simp [note, h]

@[simp] theorem console_note (m : Machine) (e : Event) : (m.note e).console = m.console := by
  by_cases h : m.tracing <;> simp [note, h]

@[simp] theorem line_note (m : Machine) (e : Event) : (m.note e).line = m.line := by
  by_cases h : m.tracing <;> simp [note, h]

@[simp] theorem policy_note (m : Machine) (e : Event) : (m.note e).policy = m.policy := by
  by_cases h : m.tracing <;> simp [note, h]

@[simp] theorem diagnostics_note (m : Machine) (e : Event) :
    (m.note e).diagnostics = m.diagnostics := by
  by_cases h : m.tracing <;> simp [note, h]

@[simp] theorem functions_note (m : Machine) (e : Event) :
    (m.note e).functions = m.functions := by
  by_cases h : m.tracing <;> simp [note, h]

@[simp] theorem chain_record (m : Machine) (w : Warning) : (m.record w).chain = m.chain := by
  by_cases h : m.policy = .report <;> simp [record, write, h]

@[simp] theorem frames_record (m : Machine) (w : Warning) : (m.record w).frames = m.frames := by
  by_cases h : m.policy = .report <;> simp [record, write, h]

@[simp] theorem line_record (m : Machine) (w : Warning) : (m.record w).line = m.line := by
  by_cases h : m.policy = .report <;> simp [record, write, h]

@[simp] theorem policy_record (m : Machine) (w : Warning) : (m.record w).policy = m.policy := by
  by_cases h : m.policy = .report <;> simp [record, write, h]

@[simp] theorem diagnostics_record (m : Machine) (w : Warning) :
    (m.record w).diagnostics = m.diagnostics.push ⟨w, m.line⟩ := by
  by_cases h : m.policy = .report <;> simp [record, write, h]

@[simp] theorem functions_record (m : Machine) (w : Warning) :
    (m.record w).functions = m.functions := by
  by_cases h : m.policy = .report <;> simp [record, write, h]

@[simp] theorem chain_enterScope (m : Machine) : m.enterScope.chain = m.chain.enterScope := by
  simp [enterScope]

@[simp] theorem frames_enterScope (m : Machine) : m.enterScope.frames = m.frames := by
  simp [enterScope]

@[simp] theorem line_enterScope (m : Machine) : m.enterScope.line = m.line := by
  simp [enterScope]

@[simp] theorem functions_enterScope (m : Machine) : m.enterScope.functions = m.functions := by
  simp [enterScope]

@[simp] theorem chain_exitScope (m : Machine) : m.exitScope.chain = m.chain.exitScope := by
  by_cases h : m.chain.isGlobal
  · have ho : m.chain.outer = [] := by simpa [Chain.isGlobal] using h
    simp [exitScope, Chain.exitScope, Chain.isGlobal, ho]
  · simp [exitScope, h]

@[simp] theorem frames_exitScope (m : Machine) : m.exitScope.frames = m.frames := by
  by_cases h : m.chain.isGlobal <;> simp [exitScope, h]

@[simp] theorem line_exitScope (m : Machine) : m.exitScope.line = m.line := by
  by_cases h : m.chain.isGlobal <;> simp [exitScope, h]

@[simp] theorem functions_exitScope (m : Machine) : m.exitScope.functions = m.functions := by
  by_cases h : m.chain.isGlobal <;> simp [exitScope, h]

@[simp] theorem chain_pushFrame (m : Machine) (k : FrameKind) :
    (m.pushFrame k).chain = m.chain := by simp [pushFrame]

@[simp] theorem frames_pushFrame (m : Machine) (k : FrameKind) :
    (m.pushFrame k).frames = ⟨k, m.chain.depth⟩ :: m.frames := rfl

@[simp] theorem line_pushFrame (m : Machine) (k : FrameKind) : (m.pushFrame k).line = m.line := by
  simp [pushFrame]

@[simp] theorem functions_pushFrame (m : Machine) (k : FrameKind) :
    (m.pushFrame k).functions = m.functions := by simp [pushFrame]

@[simp] theorem chain_popFrame (m : Machine) : m.popFrame.chain = m.chain := by
  cases h : m.frames <;> simp [popFrame, h]

@[simp] theorem frames_popFrame (m : Machine) : m.popFrame.frames = m.frames.tail := by
  cases h : m.frames <;> simp [popFrame, h]

@[simp] theorem line_popFrame (m : Machine) : m.popFrame.line = m.line := by
  cases h : m.frames <;> simp [popFrame, h]

@[simp] theorem functions_popFrame (m : Machine) : m.popFrame.functions = m.functions := by
  cases h : m.frames <;> simp [popFrame, h]

@[simp] theorem chain_register (m : Machine) (d : Definition) : (m.register d).chain = m.chain := by
  simp [register]

@[simp] theorem frames_register (m : Machine) (d : Definition) :
    (m.register d).frames = m.frames := by simp [register]

@[simp] theorem line_register (m : Machine) (d : Definition) : (m.register d).line = m.line := by
  simp [register]

end Machine
end Yap
