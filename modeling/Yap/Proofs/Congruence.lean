import Yap.Machine.Program
import Yap.Proofs.Warnings

/-! Pairs of relations that every construct of the language respects: one for what expressions
do, and a weaker one for what statements do, which may also bind names in the current scope. It is
enough to look at the few computations that touch a machine. -/
namespace Yap

/-- What a construct asks of a machine. Only a statement asks for the current scope as well. -/
inductive Visible : {β : Type} → (Machine → β) → Prop
  | variable (name : String) : Visible (·.chain.find? name)
  | function (name : String) : Visible (·.function? name)
  | known (d : Definition) : Visible (·.knows d)
  | canBreak : Visible (Frame.canBreak ·.frames)
  | currentCall : Visible (Frame.currentCall ·.frames)
  | interrupted : Visible (·.interrupted)

/-- The buffer of an array of chars that is not a constant, with a text stored in it. -/
def Variable.stored? (x : Variable) (bytes : List UInt8) : Option Buffer :=
  x.buffer?.bind fun b =>
    if x.kind = .char ∧ x.modifiers.const = false then b.store? bytes else none

/-- The chain with a text stored in the innermost variable of a name, if that is an array of chars
with room for it and not a constant. -/
def Chain.storeText? (c : Chain) (name : String) (bytes : List UInt8) : Option Chain :=
  (c.find? name).bind fun x => x.buffer?.bind fun b =>
    if x.kind = .char ∧ x.modifiers.const = false then
      (b.store? bytes).map fun b' => c.update name (·.setBuffer b')
    else none

namespace Run

/-- Stores a text, and tells whether it could. -/
def storeText (name : String) (bytes : List UInt8) : Run Bool := fun m =>
  match m.chain.storeText? name bytes with
  | some chain => .done true { m with chain := chain }
  | none => .done false m

/-- Puts an array in the place of the one of its name in the current scope. -/
def replaceArray (x : Variable) (length : Nat) : Run Unit := fun m =>
  match m.chain.current.find? x.name with
  | some y => if y.isArray then .done () (m.replaceArray x length) else .done () m
  | none => .done () m

theorem replaceArray_eq (x : Variable) (length : Nat) : replaceArray x length = (do
    match ← gets (·.chain.current.find? x.name) with
    | some y => if y.isArray then modify (·.replaceArray x length) else pure ()
    | none => pure ()) := by
  funext m
  rw [bind_of_done (x := gets _) rfl]
  rw [replaceArray]
  cases m.chain.current.find? x.name with
  | none => rfl
  | some y =>
    dsimp only
    split <;> rfl

/-- Overwriting looks the variable up and then refuses, warns or changes it. -/
theorem overwrite_guarded (name : String) (v : Value) : overwrite name v = (do
    match ← gets (·.chain.find? name) with
    | some x =>
      if x.modifiers.const then fail (.constAssignment name)
      else if x.isArray then report (.arrayAsScalar name)
      else modify fun m => { m with chain := m.chain.update name (·.setValue v) }
    | none => fail (.undefinedVariable name)) := by
  funext m
  rw [bind_of_done (x := gets _) rfl, overwrite, Chain.assign]
  cases m.chain.find? name with
  | none => rfl
  | some x =>
    by_cases hc : x.modifiers.const
    · simp only [hc, if_true]; rfl
    · by_cases ha : x.isArray
      · simp only [hc, ha, if_true]; rfl
      · simp only [hc, ha]; rfl

theorem writeElement_guarded (name : String) (index : Int32) (v : Value) :
    writeElement name index v = (do
    match (← gets (·.chain.find? name)).bind (·.buffer?) with
    | some b =>
      modify fun m => { m with chain := m.chain.update name (·.setBuffer (b.write name index v).1) }
      reportAny (b.write name index v).2
    | none => pure ()) := by
  funext m
  rw [bind_of_done (x := gets _) rfl, writeElement, Chain.writeElement]
  cases m.chain.find? name with
  | none => rfl
  | some x =>
    simp only [Option.bind_some, Variable.buffer?]
    cases x.storage <;> rfl

theorem storeText_guarded (name : String) (bytes : List UInt8) : storeText name bytes = (do
    match (← gets (·.chain.find? name)).bind (·.stored? bytes) with
    | some b =>
      modify fun m => { m with chain := m.chain.update name (·.setBuffer b) }
      pure true
    | none => pure false) := by
  funext m
  rw [bind_of_done (x := gets _) rfl, storeText, Chain.storeText?]
  cases m.chain.find? name with
  | none => rfl
  | some x =>
    simp only [Option.bind_some, Variable.stored?]
    cases x.buffer? with
    | none => rfl
    | some b =>
      by_cases hk : x.kind = .char ∧ x.modifiers.const = false
      · simp only [Option.bind_some, if_pos hk]
        cases b.store? bytes <;> rfl
      · simp only [Option.bind_some, if_neg hk]
        rfl

theorem declare_guarded (x : Variable) : declare x = (do
    match ← gets (·.chain.current.find? x.name) with
    | some _ => fail (.redeclaration x.name)
    | none => modify fun m => { m with chain := m.chain.replaceCurrent x }) := by
  funext m
  rw [bind_of_done (x := gets _) rfl, declare, Chain.declare, ← Scope.find?_isSome]
  cases m.chain.current.find? x.name <;> rfl

theorem inCall_guarded {α : Type} (body : Run α) : inCall body =
    gets (·.chain) >>= fun c =>
      if c.limit ≤ c.calls then fail (.stackOverflow (c.calls + 1) c.limit)
      else bracket ({ · with chain := { c with calls := c.calls + 1 } })
        (fun m => { m with chain := m.chain.exitCall }) body := by
  funext m
  rw [bind_of_done (x := gets _) rfl, inCall, Chain.enterCall]
  by_cases h : m.chain.limit ≤ m.chain.calls
  · simp only [h, if_true]; rfl
  · simp only [h, if_false]; rfl

theorem storeText_of_find? {m : Machine} {name : String} {x : Variable} {b : Buffer}
    (hx : m.chain.find? name = some x) (hb : x.buffer? = some b) (hk : x.kind = .char)
    (hc : x.modifiers.const = false) (bytes : List UInt8) :
    storeText name bytes m = match b.store? bytes with
      | some b' => .done true { m with chain := m.chain.update name (·.setBuffer b') }
      | none => .done false m := by
  rw [storeText, Chain.storeText?, hx]
  simp only [Option.bind_some, hb, hk, hc, and_self, if_true]
  cases b.store? bytes <;> rfl

theorem kindOf_ident (name : String) : kindOf (.ident name) = (do
    match ← gets (·.chain.find? name) with
    | some x => pure x.kind.asRead
    | none => fail (.undefinedVariable name)) := by
  funext m
  rw [kindOf, bind_of_done (x := gets _) rfl, bind_of_done (x := gets _) rfl]
  simp only [Machine.kindOf]
  cases m.chain.find? name <;> rfl

theorem kindOf_element (name : String) (index : Expr) : kindOf (.element name index) = (do
    match ← gets (·.chain.find? name) with
    | some x => pure x.kind.asRead
    | none => fail (.undefinedArray name)) := by
  funext m
  rw [kindOf, bind_of_done (x := gets _) rfl, bind_of_done (x := gets _) rfl]
  simp only [Machine.kindOf]
  cases m.chain.find? name <;> rfl

theorem kindOf_binary (op : BinaryOp) (left right : Expr) (modifiers : Modifiers) :
    kindOf (.binary op left right modifiers) = (do
    let a ← kindOf left
    let b ← kindOf right
    pure (a.promote b)) := by
  funext m
  rw [kindOf, kindOf, kindOf, bind_of_done (x := gets _) rfl]
  simp only [Machine.kindOf, bind_assoc_run]
  rw [bind_of_done (x := gets _) rfl]
  cases m.kindOf left with
  | error c => rfl
  | ok a =>
    simp only [ofExcept]
    rw [bind_of_done (pure_apply a m), bind_of_done (x := gets _) rfl]
    cases m.kindOf right <;> rfl

theorem kindOf_call (name : String) (args : List Expr) : kindOf (.call name args) = (do
    match Builtin.ofName? name, ← gets (·.function? name) with
    | some _, _ => pure .int
    | none, some d => pure (d.returns.getD .int)
    | none, none => fail (.undefinedFunction name)) := by
  funext m
  rw [kindOf, bind_of_done (x := gets _) rfl, bind_of_done (x := gets _) rfl]
  simp only [Machine.kindOf]
  cases Builtin.ofName? name with
  | some _ => rfl
  | none => cases m.function? name <;> rfl

theorem gets_isUnsigned_ident (name : String) : gets (·.isUnsigned (.ident name)) = (do
    match ← gets (·.chain.find? name) with
    | some x => pure x.modifiers.unsigned
    | none => pure false) := by
  funext m
  rw [bind_of_done (x := gets _) rfl]
  simp only [gets, Machine.isUnsigned]
  cases m.chain.find? name <;> rfl

/-- Reading into a variable looks it up again behind the line that was read. -/
theorem readInto_ident (name : String) : readInto (.ident name) = (do
    let x ← lookup name
    writable x
    match x.buffer? with
    | some b =>
      if x.kind = .char then do
        let t ← readWith (Reader.text (b.length - 1))
        let stored ← storeText name (Text.Utf8.encode t.toList)
        if stored then pure () else fail (.input (.truncated (b.length - 1)))
      else report (.unsupportedSlorpTarget name x.kind)
    | none =>
      match readScalar? x.kind with
      | some read => do
        let v ← read
        overwrite name v
      | none => report (.unsupportedSlorpTarget name x.kind)) := by
  funext m
  refine bind_congr_done fun x n hx => bind_congr_done fun u n' hu => ?_
  obtain ⟨hf, rfl⟩ := lookup_eq_done.1 hx
  obtain ⟨hc, rfl⟩ := writable_eq_done.1 hu
  cases hb : x.buffer? with
  | none => rfl
  | some b =>
    by_cases hk : x.kind = .char
    · simp only [hk, if_true]
      refine bind_congr_done fun t n ht => ?_
      have hn : n.chain = m.chain := by
        have hline := machine?_readWith (Reader.text (b.length - 1)) m
        rw [ht] at hline
        cases hline
        rfl
      rw [bind_apply, storeText_of_find? (hn ▸ hf) hb hk hc]
      cases b.store? (Text.Utf8.encode t.toList) <;> rfl
    · simp only [hk, if_false]

end Run

namespace Runner

theorem wellKinded_filled? {kind : Kind} {length : Nat} {values : List Value} {b : Buffer}
    (h : filled? kind length values = some b) : b.WellKinded := by
  obtain ⟨a, ha, rfl⟩ := Option.map_eq_some_iff.1 h
  obtain ⟨hk, -, hw⟩ := Buffer.allocate?_eq_some ha
  refine hw.putAll 0 fun v hv => ?_
  obtain ⟨w, -, rfl⟩ := List.mem_map.1 hv
  exact hk ▸ Value.at_convert w kind

/-- Binding an array replaces one only where there is one. -/
theorem install_guarded (name : String) (kind : Kind) (modifiers : Modifiers) (length : Nat)
    (values : List Value) : install name kind modifiers length values = (do
    match ← Run.gets (·.chain.current.find? name) with
    | none =>
      match filled? kind length values with
      | none => Run.fail (.allocationFailed name length)
      | some b => Run.declare (.array name b modifiers)
    | some x =>
      if x.isArray then
        match filled? kind length values with
        | none => Run.report (.arrayReallocationFailed name)
        | some b => Run.replaceArray (.array name b modifiers) length
      else Run.fail (.redeclaration name)) := by
  funext m
  refine Run.bind_congr_done fun o n ho => ?_
  obtain ⟨rfl, rfl⟩ : m.chain.current.find? name = o ∧ m = n := by simpa [Run.gets] using ho
  cases hx : m.chain.current.find? name with
  | none => rfl
  | some x =>
    dsimp only
    by_cases ha : x.isArray
    · simp only [ha, if_true]
      cases filled? kind length values with
      | none => rfl
      | some b => simp [Run.replaceArray, Variable.array, hx, ha, Run.modify]
    · rw [if_neg ha, if_neg ha]

end Runner

/-- Only a call that finds the limit of calls reached stops with this. -/
def Stop.isOverflow : Stop → Bool
  | .fault (.stackOverflow ..) _ => true
  | _ => false

/-- What relates the single steps that changes of variables are made of. -/
structure Steps (E : ∀ ⦃α : Type⦄, Run α → Run α → Prop) : Prop where
  done {α : Type} (a : α) : E (pure a) (pure a)
  stop {α : Type} {s : Stop} : s.isPlain = true → E (Run.stop s : Run α) (Run.stop s)
  bind {α β : Type} {x y : Run α} {f g : α → Run β} :
    E x y → (∀ a, E (f a) (g a)) → E (x >>= f) (y >>= g)
  gets {β : Type} {q : Machine → β} : Visible q → E (Run.gets q) (Run.gets q)
  report {w : Warning} : w.isPlain = true → E (Run.report w) (Run.report w)
  update (name : String) (f : Variable → Variable) :
    E (Run.modify fun m => { m with chain := m.chain.update name f })
      (Run.modify fun m => { m with chain := m.chain.update name f })

/-- The same with the steps that variables of the current scope are bound by. -/
structure Steps.Local (E : ∀ ⦃α : Type⦄, Run α → Run α → Prop) : Prop extends Steps E where
  current (name : String) :
    E (Run.gets (·.chain.current.find? name)) (Run.gets (·.chain.current.find? name))
  insert (x : Variable) : E (Run.modify fun m => { m with chain := m.chain.replaceCurrent x })
    (Run.modify fun m => { m with chain := m.chain.replaceCurrent x })
  replaceArray (x : Variable) (length : Nat) :
    E (Run.modify (·.replaceArray x length)) (Run.modify (·.replaceArray x length))

namespace Steps

variable {E : ∀ ⦃α : Type⦄, Run α → Run α → Prop} (h : Steps E)
include h

theorem reportAny {w : Option Warning} (hw : w.all Warning.isPlain = true) :
    E (Run.reportAny w) (Run.reportAny w) := by
  cases w with
  | none => exact h.done ()
  | some w => exact h.report hw

theorem overwrite (name : String) (v : Value) :
    E (Run.overwrite name v) (Run.overwrite name v) := by
  rw [Run.overwrite_guarded]
  refine h.bind (h.gets (.variable name)) fun o => ?_
  cases o with
  | none => exact h.stop rfl
  | some x =>
    dsimp only
    split
    · exact h.stop rfl
    · split
      · exact h.report rfl
      · exact h.update name (·.setValue v)

theorem writeElement (name : String) (i : Int32) (v : Value) :
    E (Run.writeElement name i v) (Run.writeElement name i v) := by
  rw [Run.writeElement_guarded]
  refine h.bind (h.gets (.variable name)) fun o => ?_
  cases o.bind (·.buffer?) with
  | none => exact h.done ()
  | some b =>
    refine h.bind (h.update name (·.setBuffer (b.write name i v).1)) fun _ => ?_
    exact h.reportAny (b.isPlain_write name i v)

theorem storeText (name : String) (bytes : List UInt8) :
    E (Run.storeText name bytes) (Run.storeText name bytes) := by
  rw [Run.storeText_guarded]
  refine h.bind (h.gets (.variable name)) fun o => ?_
  cases o.bind (·.stored? bytes) with
  | none => exact h.done false
  | some b => exact h.bind (h.update name (·.setBuffer b)) fun _ => h.done true

end Steps

namespace Steps.Local

variable {E : ∀ ⦃α : Type⦄, Run α → Run α → Prop} (h : Steps.Local E)
include h

theorem declare (x : Variable) : E (Run.declare x) (Run.declare x) := by
  rw [Run.declare_guarded]
  refine h.bind (h.current x.name) fun o => ?_
  cases o with
  | none => exact h.insert x
  | some y => exact h.stop rfl

theorem replaceLocal (x : Variable) (length : Nat) :
    E (Run.replaceArray x length) (Run.replaceArray x length) := by
  rw [Run.replaceArray_eq]
  refine h.bind (h.current x.name) fun o => ?_
  cases o with
  | none => exact h.done ()
  | some y =>
    dsimp only
    split
    · exact h.replaceArray x length
    · exact h.done ()

end Steps.Local

/-- Two relations that the computations touching a machine keep, and that sequencing and
brackets hand on. Writing elements and registering functions are left out. -/
structure Congruence.Core (E S : ∀ ⦃α : Type⦄, Run α → Run α → Prop) : Prop where
  done {α : Type} (a : α) : E (pure a) (pure a)
  stop {α : Type} {s : Stop} : s.isPlain = true → E (Run.stop s : Run α) (Run.stop s)
  bind {α β : Type} {x y : Run α} {f g : α → Run β} :
    E x y → (∀ a, E (f a) (g a)) → E (x >>= f) (y >>= g)
  sequence {α β : Type} {x y : Run α} {f g : α → Run β} :
    S x y → (∀ a, S (f a) (g a)) → S (x >>= f) (y >>= g)
  weaken {α : Type} {x y : Run α} : E x y → S x y
  gets {β : Type} {q : Machine → β} : Visible q → E (Run.gets q) (Run.gets q)
  current (name : String) :
    S (Run.gets (·.chain.current.find? name)) (Run.gets (·.chain.current.find? name))
  note (e : Option Line → Event) :
    E (Run.modify fun m => m.note (e m.line)) (Run.modify fun m => m.note (e m.line))
  write (s : Stream) (t : String) : E (Run.modify (·.write s t)) (Run.modify (·.write s t))
  report {w : Warning} : w.isPlain = true → E (Run.report w) (Run.report w)
  readWith {α : Type} (reader : Reader α) :
    E (Run.readWith reader) (Run.readWith reader)
  overwrite (name : String) (v : Value) : E (Run.overwrite name v) (Run.overwrite name v)
  storeText (name : String) (bytes : List UInt8) :
    E (Run.storeText name bytes) (Run.storeText name bytes)
  declare {x : Variable} : x.WellKinded → S (Run.declare x) (Run.declare x)
  replaceArray {x : Variable} (length : Nat) : x.WellKinded → x.isArray →
    S (Run.replaceArray x length) (Run.replaceArray x length)
  inScope {α : Type} {x y : Run α} : S x y → E (Run.inScope x) (Run.inScope y)
  underFrame {α : Type} (k : FrameKind) {x y : Run α} :
    E x y → E (Run.underFrame k x) (Run.underFrame k y)
  overFrame {α : Type} (k : FrameKind) {x y : Run α} :
    S x y → S (Run.underFrame k x) (Run.underFrame k y)
  inCall {α : Type} {x y : Run α} : E x y → E (Run.inCall x) (Run.inCall y)
  atLine {α : Type} (l : Option Line) {x y : Run α} :
    S x y → S (Run.atLine l x) (Run.atLine l y)

/-- The same with writing elements and registering functions. -/
structure Congruence (E S : ∀ ⦃α : Type⦄, Run α → Run α → Prop) : Prop
    extends Congruence.Core E S where
  writeElement (name : String) (i : Int32) (v : Value) :
    E (Run.writeElement name i v) (Run.writeElement name i v)
  register (d : Definition) : S (Runner.register d) (Runner.register d)

/-- Two runners whose parts are related. -/
structure Runner.Related (E S : ∀ ⦃α : Type⦄, Run α → Run α → Prop) (r r' : Runner) : Prop where
  eval (e : Expr) : E (r.eval e) (r'.eval e)
  exec (s : Stmt) : S (r.exec s) (r'.exec s)
  iterate {turn turn' : Run (Option Flow)} : S turn turn' →
    S (Runner.iterate turn r.turns) (Runner.iterate turn' r'.turns)

namespace Congruence

variable {E S : ∀ ⦃α : Type⦄, Run α → Run α → Prop}

namespace Core

variable (h : Core E S)
include h

theorem fail {α : Type} {c : Cause} (hc : (Stop.fault c none).isPlain = true) :
    E (Run.fail c : Run α) (Run.fail c) := h.stop hc

theorem ofExcept {α ε : Type} (a : Except ε α) (f : ε → Cause)
    (hf : ∀ e, (Stop.fault (f e) none).isPlain = true) :
    E (Run.ofExcept (a.mapError f)) (Run.ofExcept (a.mapError f)) := by
  cases a with
  | ok a => exact h.done a
  | error e => exact h.fail (hf e)

theorem settle {α : Type} {c : Checked α} (hc : c.isPlain = true) :
    E (Run.settle c) (Run.settle c) := by
  refine h.bind ?_ fun _ => h.done _
  cases hw : c.warning with
  | none => exact h.done ()
  | some w =>
    have hplain : w.isPlain = true := by simpa [Checked.isPlain, hw] using hc
    exact h.report hplain

theorem checkInterrupt : E Run.checkInterrupt Run.checkInterrupt := by
  refine h.bind (h.gets .interrupted) fun b => ?_
  cases b with
  | true => exact h.stop rfl
  | false => exact h.done ()

theorem lookup (name : String) : E (Run.lookup name) (Run.lookup name) := by
  refine h.bind (h.gets (.variable name)) fun o => ?_
  cases o with
  | some x => exact h.done x
  | none => exact h.fail rfl

theorem lookupArray (name : String) : E (Run.lookupArray name) (Run.lookupArray name) := by
  refine h.bind (h.gets (.variable name)) fun o => ?_
  cases o with
  | some x => exact h.done x
  | none => exact h.fail rfl

theorem writable (x : Variable) : E (Run.writable x) (Run.writable x) := by
  rw [Run.writable]
  split
  · exact h.fail rfl
  · exact h.done ()

theorem read (name : String) : E (Run.read name) (Run.read name) :=
  h.bind (h.lookup name) fun x => h.settle x.isPlain_value

/-- The kind of an expression is told by what its names stand for. -/
theorem kindOf : (e : Expr) → E (Run.kindOf e) (Run.kindOf e)
  | .literal l => h.done l.kind
  | .text _ => h.fail rfl
  | .ident name => by
    rw [Run.kindOf_ident]
    refine h.bind (h.gets (.variable name)) fun o => ?_
    cases o with
    | some x => exact h.done _
    | none => exact h.fail rfl
  | .binary op left right modifiers => by
    rw [Run.kindOf_binary]
    exact h.bind (kindOf left) fun a => h.bind (kindOf right) fun b => h.done _
  | .unary _ operand => kindOf operand
  | .element name index => by
    rw [Run.kindOf_element]
    refine h.bind (h.gets (.variable name)) fun o => ?_
    cases o with
    | some x => exact h.done _
    | none => exact h.fail rfl
  | .call name args => by
    rw [Run.kindOf_call]
    refine h.bind (h.gets (.function name)) fun o => ?_
    cases Builtin.ofName? name with
    | some b => exact h.done _
    | none =>
      cases o with
      | some d => exact h.done _
      | none => exact h.fail rfl
  | .sizeOf _ => h.done Kind.int

theorem getsUnsigned (e : Expr) : E (Run.gets (·.isUnsigned e)) (Run.gets (·.isUnsigned e)) := by
  cases e with
  | ident name =>
    rw [Run.gets_isUnsigned_ident]
    refine h.bind (h.gets (.variable name)) fun o => ?_
    cases o <;> exact h.done _
  | _ => exact h.done _

theorem step (operand : Expr) (delta : Int32) (old : Bool) :
    E (Runner.step operand delta old) (Runner.step operand delta old) := by
  cases operand with
  | ident name =>
    have hstored : (Run.gets (·.chain.value? name)) =
        Run.gets (·.chain.find? name) >>= fun o => pure (o.bind (·.scalar?)) := rfl
    refine h.bind (h.lookup name) fun x => h.bind (h.writable x) fun _ => ?_
    split
    · exact h.bind (h.report rfl) fun _ => h.done _
    · refine h.bind (h.settle x.isPlain_value) fun before => ?_
      refine h.bind (h.settle (Value.isPlain_binary _ _ _ _)) fun after => ?_
      refine h.bind (h.overwrite name after) fun _ => h.bind ?_ fun _ => h.done _
      rw [hstored]
      exact h.bind (h.gets (.variable name)) fun _ => h.done _
  | _ => exact h.fail rfl

theorem sizeOf (operand : Expr) : E (Runner.sizeOf operand) (Runner.sizeOf operand) := by
  cases operand with
  | ident name => exact h.bind (h.lookup name) fun _ => h.bind (h.done _) fun _ => h.done _
  | element name index =>
    exact h.bind (h.lookupArray name) fun _ => h.bind (h.done _) fun _ => h.done _
  | _ => exact h.bind (h.kindOf _) fun k => h.bind (h.done k.size) fun _ => h.done _

/-- A line goes into an array only if its variable is still the one that was looked up. -/
theorem readInto (e : Expr) : E (Run.readInto e) (Run.readInto e) := by
  cases e with
  | ident name =>
    rw [Run.readInto_ident]
    refine h.bind (h.lookup name) fun x => h.bind (h.writable x) fun _ => ?_
    cases x.buffer? with
    | some b =>
      dsimp only
      split
      · refine h.bind (h.readWith _) fun t => h.bind (h.storeText name _) fun stored => ?_
        cases stored with
        | true => exact h.done ()
        | false => exact h.fail rfl
      · exact h.report rfl
    | none =>
      cases x.kind with
      | bool => exact h.report rfl
      | _ => exact h.bind (h.bind (h.readWith _) fun _ => h.done _) fun v => h.overwrite name v
  | _ => exact h.fail rfl

theorem install (name : String) (kind : Kind) (modifiers : Modifiers) (length : Nat)
    (values : List Value) : S (Runner.install name kind modifiers length values)
      (Runner.install name kind modifiers length values) := by
  rw [Runner.install_guarded]
  refine h.sequence (h.current name) fun o => ?_
  cases o with
  | none =>
    cases hb : Runner.filled? kind length values with
    | none => exact h.weaken (h.fail rfl)
    | some b => exact h.declare (Variable.wellKinded_array (Runner.wellKinded_filled? hb) _ _)
  | some x =>
    cases hb : Runner.filled? kind length values with
    | none =>
      dsimp only
      split
      · exact h.weaken (h.report rfl)
      · exact h.weaken (h.fail rfl)
    | some b =>
      have hx := Variable.wellKinded_array (Runner.wellKinded_filled? hb) name modifiers
      dsimp only
      split
      · exact h.replaceArray length hx rfl
      · exact h.weaken (h.fail rfl)

theorem leave : E Runner.leave Runner.leave := by
  refine h.bind (h.gets .canBreak) fun b => ?_
  split
  · exact h.done _
  · exact h.fail rfl

theorem bindParams (ps : List Param) (vs : List Value) :
    S (Runner.bindParams ps vs) (Runner.bindParams ps vs) := by
  induction ps generalizing vs with
  | nil => exact h.weaken (h.done ())
  | cons p ps ih =>
    cases vs with
    | nil => exact h.weaken (h.done ())
    | cons v vs =>
      exact h.sequence (h.declare (Variable.wellKinded_scalar p.name p.kind v .none)) fun _ => ih vs

end Core

variable (h : Congruence E S)
include h

theorem define (d : Definition) : S (Runner.define d) (Runner.define d) := by
  refine h.sequence (h.weaken (h.gets (.known d))) fun b => ?_
  split
  · exact h.weaken (h.bind (h.done ()) fun _ => h.done _)
  · exact h.sequence (h.register d) fun _ => h.weaken (h.done _)

end Congruence
end Yap
