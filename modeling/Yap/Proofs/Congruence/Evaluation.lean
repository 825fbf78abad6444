import Yap.Proofs.Congruence

/-! A congruence relates each construct to itself, run by related runners: values and variables,
printing and calls, loops and switches, and so every node of a tree. -/
namespace Yap

/-- Branches and loops open a scope of their own. -/
def Action.isScoped : Action → Bool
  | .ifElse .. | .whileDo .. | .doWhile .. | .forLoop .. => true
  | _ => false

namespace Congruence

variable {E S : ∀ ⦃α : Type⦄, Run α → Run α → Prop} {r r' : Runner}

namespace Core

variable (h : Core E S) (hr : r.Related E S r')
include h hr

theorem evalAs (e : Expr) (k : Kind) : E (r.evalAs e k) (r'.evalAs e k) :=
  h.bind (hr.eval e) fun _ => h.done _

theorem evalInt (e : Expr) : E (r.evalInt e) (r'.evalInt e) :=
  h.bind (hr.eval e) fun _ => h.done _

theorem holds (e : Expr) : E (r.holds e) (r'.holds e) :=
  h.bind (h.evalInt hr e) fun _ => h.done _

theorem evalAll (k : Kind) (es : List Expr) : E (r.evalAll k es) (r'.evalAll k es) := by
  induction es with
  | nil => exact h.done _
  | cons e es ih => exact h.bind (h.evalAs hr e k) fun _ => h.bind ih fun _ => h.done _

theorem execAll (ss : List Stmt) : S (r.execAll ss) (r'.execAll ss) := by
  induction ss with
  | nil => exact h.weaken (h.done _)
  | cons s ss ih =>
    refine h.sequence (hr.exec s) fun f => ?_
    cases f with
    | normal => exact ih
    | leave => exact h.weaken (h.done _)
    | giveBack v => exact h.weaken (h.done _)

/-! Variables -/

theorem element (name : String) (index : Expr) :
    E (r.element name index) (r'.element name index) := by
  refine h.bind (h.lookupArray name) fun _ => h.bind (h.evalInt hr index) fun i => ?_
  refine h.bind (h.lookupArray name) fun x => ?_
  split
  · exact h.settle (Buffer.isPlain_read _ _ _)
  · exact h.settle rfl

theorem declareScalar (name : String) (kind : Kind) (modifiers : Modifiers) (init : Option Expr) :
    S (r.declare name kind modifiers init) (r'.declare name kind modifiers init) := by
  have hbind (v : Value) :
      S (Run.declare (.scalar name kind v modifiers) >>= fun _ => pure Flow.normal)
        (Run.declare (.scalar name kind v modifiers) >>= fun _ => pure Flow.normal) :=
    h.sequence (h.declare (Variable.wellKinded_scalar name kind v modifiers)) fun _ =>
      h.weaken (h.done _)
  cases init with
  | some e => exact h.sequence (h.weaken (h.evalAs hr e kind)) hbind
  | none => exact h.sequence (h.weaken (h.done _)) hbind

theorem declareArray (name : String) (kind : Kind) (modifiers : Modifiers) (length : Nat)
    (init : List Expr) : S (r.declareArray name kind modifiers length init)
      (r'.declareArray name kind modifiers length init) := by
  unfold Runner.declareArray
  split
  · exact h.weaken (h.fail rfl)
  · refine h.sequence (h.weaken (h.evalAll hr kind init)) fun values => ?_
    exact h.sequence (h.install name kind modifiers length values) fun _ => h.weaken (h.done _)

theorem assign (name : String) (value : Expr) : E (r.assign name value) (r'.assign name value) := by
  refine h.bind (h.lookup name) fun x => h.bind (h.writable x) fun _ => ?_
  refine h.bind (h.evalAs hr value x.kind) fun v => ?_
  exact h.bind (h.overwrite name v) fun _ => h.done _

theorem assignAt (hw : ∀ name i v, E (Run.writeElement name i v) (Run.writeElement name i v))
    (name : String) (kind : Kind) (i : Int32) (value : Expr) :
    E (r.assignAt name kind i value) (r'.assignAt name kind i value) := by
  refine h.bind (h.gets (.variable name)) fun x => ?_
  cases x.bind (·.buffer?) with
  | none => exact h.report rfl
  | some b =>
    dsimp only
    split
    · exact h.bind (h.evalAs hr value kind) fun v => hw name i v
    · exact h.report rfl

/-- Assignments to elements are related if writing elements is. -/
theorem assignElement (hw : ∀ name i v, E (Run.writeElement name i v) (Run.writeElement name i v))
    (name : String) (index value : Expr) :
    E (r.assignElement name index value) (r'.assignElement name index value) := by
  refine h.bind (h.lookupArray name) fun x => h.bind (h.writable x) fun _ => ?_
  split
  · refine h.bind (h.evalInt hr index) fun i => ?_
    exact h.bind (h.assignAt hr hw name x.kind i value) fun _ => h.done _
  · exact h.bind (h.report rfl) fun _ => h.done _

/-! Printing -/

theorem integerArg (e : Expr) : E (r.integerArg e) (r'.integerArg e) := by
  refine h.bind (h.getsUnsigned e) fun u => h.bind (h.kindOf e) fun k => ?_
  exact h.bind (hr.eval e) fun v => h.done _

theorem formatArg (s : Format.Spec) (e : Expr) : E (r.formatArg s e) (r'.formatArg s e) := by
  unfold Runner.formatArg
  cases s.conversion.argClass with
  | str =>
    cases e with
    | text t => exact h.done _
    | _ => exact h.fail rfl
  | floating =>
    refine h.bind (h.kindOf e) fun k => ?_
    split
    · exact h.bind (hr.eval e) fun v => h.done _
    · exact h.fail rfl
  | integer =>
    dsimp only
    split
    · exact h.bind (hr.eval e) fun v => h.done _
    · exact h.integerArg hr e

theorem renderPieces (ps : List Format.Piece) (args : List Expr) :
    E (r.renderPieces ps args) (r'.renderPieces ps args) := by
  induction ps generalizing args with
  | nil => exact h.done _
  | cons p ps ih =>
    cases p with
    | literal t => exact h.bind (ih args) fun rest => h.done _
    | spec s =>
      cases args with
      | nil => exact h.bind (ih []) fun rest => h.done _
      | cons e args =>
        refine h.bind (h.formatArg hr s e) fun a => h.bind (h.ofExcept _ _ fun _ => rfl) fun t => ?_
        exact h.bind (ih args) fun rest => h.done _

theorem formatted (b : Builtin) (args : List Expr) : E (r.formatted b args) (r'.formatted b args) := by
  cases args with
  | nil => exact h.fail rfl
  | cons e args =>
    cases e with
    | text t =>
      refine h.bind (h.ofExcept _ _ fun _ => rfl) fun ps => ?_
      exact h.bind (h.renderPieces hr ps args) fun t => h.done _
    | _ => exact h.fail rfl

theorem print (s : Stream) (e : Expr) : E (r.print s e) (r'.print s e) := by
  have hwrite (t : String) :
      E (Run.modify (·.write s (t ++ "\n")) >>= fun _ => pure Flow.normal)
        (Run.modify (·.write s (t ++ "\n")) >>= fun _ => pure Flow.normal) :=
    h.bind (h.write s _) fun _ => h.done _
  have hint (e : Expr) :
      E (r.evalInt e >>= fun n => pure (toString n.toInt) >>= fun t =>
          Run.modify (·.write s (t ++ "\n")) >>= fun _ => pure Flow.normal)
        (r'.evalInt e >>= fun n => pure (toString n.toInt) >>= fun t =>
          Run.modify (·.write s (t ++ "\n")) >>= fun _ => pure Flow.normal) :=
    h.bind (h.evalInt hr e) fun n => h.bind (h.done _) hwrite
  cases e with
  | text t => exact h.bind (h.done t) hwrite
  | _ => exact hint _

/-! Calls -/

omit hr in
theorem single (b : Builtin) (args : List Expr) : E (Runner.single b args) (Runner.single b args) := by
  unfold Runner.single
  split
  · exact h.done _
  · exact h.fail rfl

theorem builtin (b : Builtin) (args : List Expr) : E (r.builtin b args) (r'.builtin b args) := by
  refine h.bind (h.note fun _ => .builtin b args.length) fun _ => ?_
  cases b with
  | yapping => exact h.bind (h.formatted hr _ args) fun t => h.write .out _
  | yappin => exact h.bind (h.formatted hr _ args) fun t => h.write .out t
  | baka =>
    dsimp only
    split
    · exact h.bind (h.done _) fun t => h.write .err t
    · exact h.bind (h.formatted hr _ args) fun t => h.write .err t
  | ragequit =>
    refine h.bind (h.single _ args) fun e => ?_
    exact h.bind (h.evalInt hr e) fun code => h.stop rfl
  | chill =>
    refine h.bind (h.single _ args) fun e => h.bind (h.evalInt hr e) fun seconds => ?_
    split
    · exact h.fail rfl
    · exact h.done ()
  | slorp => exact h.bind (h.single _ args) fun e => h.readInto e

theorem arguments (ps : List Param) (es : List Expr) :
    E (r.arguments ps es) (r'.arguments ps es) := by
  induction ps generalizing es with
  | nil => exact h.done _
  | cons p ps ih =>
    cases es with
    | nil => exact h.done _
    | cons e es =>
      exact h.bind (h.evalAs hr e p.kind) fun v => h.bind (ih es) fun vs => h.done _

theorem bound (d : Definition) (values : List Value) : E (r.bound d values) (r'.bound d values) :=
  h.inScope (h.sequence (h.bindParams d.params values) fun _ => hr.exec d.body)

theorem body (d : Definition) (values : List Value) : E (r.body d values) (r'.body d values) :=
  h.inCall (h.underFrame _ (h.bound hr d values))

theorem call (name : String) (args : List Expr) : E (r.call name args) (r'.call name args) := by
  refine h.bind (h.note fun _ => .call name) fun _ => ?_
  refine h.bind (h.gets (.function name)) fun o => ?_
  cases o with
  | none => exact h.fail rfl
  | some d =>
    dsimp only
    split
    · exact h.fail rfl
    · refine h.bind (h.arguments hr d.params args) fun values => ?_
      exact h.bind (h.body hr d values) fun f => h.done _

theorem callValue (name : String) (args : List Expr) :
    E (r.callValue name args) (r'.callValue name args) := by
  unfold Runner.callValue
  split
  · exact h.bind (h.builtin hr _ args) fun _ => h.done _
  · refine h.bind (h.gets (.function name)) fun d => h.bind (h.call hr name args) fun o => ?_
    cases o with
    | some v => exact h.done v
    | none => exact h.bind (h.report rfl) fun _ => h.done _

theorem callOnly (name : String) (args : List Expr) :
    E (r.callOnly name args) (r'.callOnly name args) := by
  unfold Runner.callOnly
  dsimp only
  split
  · exact h.bind (h.builtin hr _ args) fun _ => h.done _
  · exact h.bind (h.call hr name args) fun _ => h.done _

/-! Loops and switches -/

theorem turnBody (body : Stmt) : E (r.turnBody body) (r'.turnBody body) :=
  h.bind (h.inScope (hr.exec body)) fun _ => h.done _

theorem whileTurn (cond : Expr) (body : Stmt) : E (r.whileTurn cond body) (r'.whileTurn cond body) := by
  refine h.bind h.checkInterrupt fun _ => h.bind (h.holds hr cond) fun b => ?_
  cases b with
  | true => exact h.turnBody hr body
  | false => exact h.done _

theorem doNext (cond : Expr) (o : Option Flow) : E (r.doNext cond o) (r'.doNext cond o) := by
  cases o with
  | some f => exact h.done _
  | none =>
    refine h.bind (h.holds hr cond) fun b => ?_
    cases b with
    | true => exact h.done _
    | false => exact h.done _

theorem doTurn (body : Stmt) (cond : Expr) : E (r.doTurn body cond) (r'.doTurn body cond) := by
  refine h.bind h.checkInterrupt fun _ => ?_
  exact h.bind (h.turnBody hr body) fun o => h.doNext hr cond o

theorem headerPart (s : Option Stmt) : S (r.headerPart s) (r'.headerPart s) := by
  cases s with
  | none => exact h.weaken (h.done _)
  | some s => exact h.sequence (hr.exec s) fun _ => h.weaken (h.done _)

theorem holdsOr (e : Option Expr) : E (r.holdsOr e) (r'.holdsOr e) := by
  cases e with
  | none => exact h.done _
  | some e => exact h.holds hr e

theorem forNext (next : Option Stmt) (f : Flow) : S (r.forNext next f) (r'.forNext next f) := by
  cases f with
  | normal => exact h.sequence (h.headerPart hr next) fun _ => h.weaken (h.done _)
  | leave => exact h.weaken (h.done _)
  | giveBack v => exact h.weaken (h.done _)

theorem forRound (cond : Option Expr) (next : Option Stmt) (body : Stmt) :
    S (r.forRound cond next body) (r'.forRound cond next body) := by
  refine h.sequence (h.weaken (h.holdsOr hr cond)) fun b => ?_
  cases b with
  | true => exact h.sequence (hr.exec body) fun f => h.forNext hr next f
  | false => exact h.weaken (h.done _)

theorem forTurn (cond : Option Expr) (next : Option Stmt) (body : Stmt) :
    E (r.forTurn cond next body) (r'.forTurn cond next body) :=
  h.bind h.checkInterrupt fun _ => h.inScope (h.forRound hr cond next body)

theorem headed {header header' : Run Unit} {turn turn' : Run (Option Flow)}
    (hh : S header header') (ht : E turn turn') : E (r.headed header turn) (r'.headed header' turn') :=
  h.inScope (h.sequence hh fun _ => hr.iterate (h.weaken ht))

theorem loop {header header' : Run Unit} {turn turn' : Run (Option Flow)} (hh : S header header')
    (ht : E turn turn') : E (r.loop header turn) (r'.loop header' turn') :=
  h.underFrame .loop (h.headed hr hh ht)

theorem matchesCase (n : Int32) (label : Option Expr) :
    E (r.matchesCase n label) (r'.matchesCase n label) := by
  cases label with
  | none => exact h.done _
  | some e => exact h.bind (h.evalInt hr e) fun l => h.done _

theorem hits (n : Int32) (matched : Bool) (c : Case) :
    E (r.hits n matched c) (r'.hits n matched c) := by
  cases matched with
  | true => exact h.done true
  | false => exact h.matchesCase hr n c.label

omit hr in
theorem afterCase (c : Case) {x y : Run Flow} (hx : S x y) (f : Flow) :
    S (Runner.afterCase c x f) (Runner.afterCase c y f) := by
  cases f with
  | normal =>
    simp only [Runner.afterCase]
    split
    · exact h.weaken (h.done _)
    · exact hx
  | leave => exact h.weaken (h.done _)
  | giveBack v => exact h.weaken (h.done _)

theorem runCases (n : Int32) (matched : Bool) (cs : List Case) :
    S (r.runCases n matched cs) (r'.runCases n matched cs) := by
  induction cs generalizing matched with
  | nil => exact h.weaken (h.done _)
  | cons c cs ih =>
    refine h.sequence (h.weaken (h.hits hr n matched c)) fun hit => ?_
    cases hit with
    | true => exact h.sequence (h.execAll hr c.body) fun f => h.afterCase c (ih true) f
    | false => exact ih false

theorem switch (scrutinee : Expr) (cases : List Case) :
    S (r.switch scrutinee cases) (r'.switch scrutinee cases) := by
  refine h.sequence (h.weaken (h.evalInt hr scrutinee)) fun n => ?_
  exact h.overFrame .switch (h.runCases hr n false cases)

/-! Nodes -/

theorem evalNode (e : Expr) : E (r.evalNode e) (r'.evalNode e) := by
  cases e with
  | literal l => exact h.done _
  | text s => exact h.fail rfl
  | ident name => exact h.read name
  | binary op left right modifiers =>
    refine h.bind (hr.eval left) fun a => h.bind (hr.eval right) fun b => ?_
    refine h.bind (h.getsUnsigned left) fun u => h.bind (h.getsUnsigned right) fun u' => ?_
    exact h.settle (Value.isPlain_binary _ _ _ _)
  | unary op operand =>
    cases op with
    | neg => exact h.bind (hr.eval operand) fun v => h.done _
    | preInc => exact h.step operand 1 false
    | preDec => exact h.step operand (-1) false
    | postInc => exact h.step operand 1 true
    | postDec => exact h.step operand (-1) true
  | element name index => exact h.element hr name index
  | call name args => exact h.callValue hr name args
  | sizeOf operand => exact h.sizeOf operand

theorem ifElse (cond : Expr) (thenBranch : Stmt) (elseBranch : Option Stmt) :
    E (r.ifElse cond thenBranch elseBranch) (r'.ifElse cond thenBranch elseBranch) := by
  refine h.inScope (h.sequence (h.weaken (h.holds hr cond)) fun b => ?_)
  cases b with
  | true => exact hr.exec thenBranch
  | false =>
    cases elseBranch with
    | some s => exact hr.exec s
    | none => exact h.weaken (h.done _)

theorem giveBack (value : Option Expr) : E (r.giveBack value) (r'.giveBack value) := by
  refine h.bind (h.gets .currentCall) fun current => ?_
  split
  · exact h.done _
  · exact h.done _
  · exact h.fail rfl
  · exact h.bind (h.evalAs hr _ _) fun v => h.done _

theorem discard (e : Expr) : E (r.discard e) (r'.discard e) := by
  have hvalue (e : Expr) : E (r.eval e >>= fun _ => pure Flow.normal)
      (r'.eval e >>= fun _ => pure Flow.normal) := h.bind (hr.eval e) fun _ => h.done _
  cases e with
  | call name args => exact h.callOnly hr name args
  | _ => exact hvalue _

/-- Branches and loops do no more than expressions do. -/
theorem actScoped {a : Action} (ha : a.isScoped = true) : E (r.act a) (r'.act a) := by
  cases a with
  | ifElse cond thenBranch elseBranch => exact h.ifElse hr cond thenBranch elseBranch
  | whileDo cond body => exact h.loop hr (h.weaken (h.done ())) (h.whileTurn hr cond body)
  | doWhile body cond => exact h.loop hr (h.weaken (h.done ())) (h.doTurn hr body cond)
  | forLoop init cond next body =>
    exact h.loop hr (h.headerPart hr init) (h.forTurn hr cond next body)
  | _ => cases ha

/-- Related runners relate each action, if they do so for assignments to elements and
definitions. -/
theorem act (ha : ∀ name index value, E (r.assignElement name index value)
      (r'.assignElement name index value)) (hd : ∀ d, S (Runner.define d) (Runner.define d))
    (a : Action) : S (r.act a) (r'.act a) := by
  cases a with
  | declare name kind modifiers init => exact h.declareScalar hr name kind modifiers init
  | declareArray name kind modifiers length init =>
    exact h.declareArray hr name kind modifiers length (init.getD [])
  | assign name value => exact h.weaken (h.assign hr name value)
  | assignElement name index value => exact h.weaken (ha name index value)
  | expr e => exact h.weaken (h.discard hr e)
  | ifElse _ _ _ => exact h.weaken (h.actScoped hr rfl)
  | whileDo _ _ => exact h.weaken (h.actScoped hr rfl)
  | doWhile _ _ => exact h.weaken (h.actScoped hr rfl)
  | forLoop _ _ _ _ => exact h.weaken (h.actScoped hr rfl)
  | switch scrutinee cases => exact h.switch hr scrutinee cases
  | leave => exact h.weaken h.leave
  | giveBack value => exact h.weaken (h.giveBack hr value)
  | define d => exact hd d
  | print e => exact h.weaken (h.print hr .out e)
  | printError e => exact h.weaken (h.print hr .err e)
  | block body => exact h.execAll hr body

theorem execNode (ha : ∀ name index value, E (r.assignElement name index value)
      (r'.assignElement name index value)) (hd : ∀ d, S (Runner.define d) (Runner.define d))
    (s : Stmt) : S (r.execNode s) (r'.execNode s) := by
  refine h.sequence (h.weaken h.checkInterrupt) fun _ => h.atLine s.line ?_
  refine h.sequence (h.weaken (h.note fun l => .exec l s.action.description)) fun _ => ?_
  exact h.act hr ha hd s.action

omit hr in
theorem iterate (hx : S (Run.exhausted : Run Flow) Run.exhausted) {turn turn' : Run (Option Flow)}
    (ht : S turn turn') (n : Nat) : S (Runner.iterate turn n) (Runner.iterate turn' n) := by
  induction n with
  | zero => exact hx
  | succ n ih =>
    rw [Runner.iterate_succ, Runner.iterate_succ]
    refine h.sequence ht fun o => ?_
    cases o with
    | none => exact ih
    | some f => exact h.weaken (h.done f)

omit hr in
/-- A runner is related to itself if having no fuel is, and assignments to elements and definitions
are. -/
theorem ofFuel (hx : ∀ {α : Type}, E (Run.exhausted : Run α) Run.exhausted)
    (ha : ∀ n, (Runner.ofFuel n).Related E S (Runner.ofFuel n) → ∀ name index value,
      E ((Runner.ofFuel n).assignElement name index value)
        ((Runner.ofFuel n).assignElement name index value))
    (hd : ∀ d, S (Runner.define d) (Runner.define d)) (n : Nat) :
    (Runner.ofFuel n).Related E S (Runner.ofFuel n) := by
  have hiterate (n : Nat) {turn turn' : Run (Option Flow)} (ht : S turn turn') :
      S (Runner.iterate turn n) (Runner.iterate turn' n) := h.iterate (h.weaken hx) ht n
  induction n with
  | zero => exact ⟨fun _ => hx, fun _ => h.weaken hx, hiterate 0⟩
  | succ n ih => exact ⟨h.evalNode ih, h.execNode ih (ha n ih) hd, hiterate (n + 1)⟩

end Core

variable (h : Congruence E S) (hr : r.Related E S r')
include h hr

theorem assignElement (name : String) (index value : Expr) :
    E (r.assignElement name index value) (r'.assignElement name index value) :=
  h.toCore.assignElement hr h.writeElement name index value

theorem execNode (s : Stmt) : S (r.execNode s) (r'.execNode s) :=
  h.toCore.execNode hr (h.assignElement hr) h.define s

omit hr in
/-- A runner is related to itself if having no fuel is. -/
theorem ofFuel (hx : ∀ {α : Type}, E (Run.exhausted : Run α) Run.exhausted) (n : Nat) :
    (Runner.ofFuel n).Related E S (Runner.ofFuel n) :=
  h.toCore.ofFuel hx (fun _ hr => h.assignElement hr) h.define n

end Congruence
end Yap
