import Yap.Proofs.CallLimit

/-! Computations that end on every machine with so many calls left and functions without loops, of
a size at most. A construct without loops is one if its parts are, and if a body is one with a call
less left. -/
namespace Yap

mutual

/-- Whether there is no loop in a statement, nor in the bodies of the functions it defines. -/
def Stmt.loopFree : Stmt → Bool
  | ⟨action, _⟩ => action.loopFree

def Action.loopFree : Action → Bool
  | .ifElse _ thenBranch elseBranch => thenBranch.loopFree && loopFreeOption elseBranch
  | .whileDo .. | .doWhile .. | .forLoop .. => false
  | .switch _ cases => loopFreeCases cases
  | .define d => d.loopFree
  | .block body => loopFreeAll body
  | _ => true

def Case.loopFree : Case → Bool
  | ⟨_, body⟩ => loopFreeAll body

def Definition.loopFree : Definition → Bool
  | ⟨_, _, _, _, body⟩ => body.loopFree

def loopFreeOption : Option Stmt → Bool
  | none => true
  | some s => s.loopFree

def loopFreeAll : List Stmt → Bool
  | [] => true
  | s :: ss => s.loopFree && loopFreeAll ss

def loopFreeCases : List Case → Bool
  | [] => true
  | c :: cs => c.loopFree && loopFreeCases cs

end

def Program.loopFree (p : Program) : Bool := loopFreeAll p.statements

namespace Machine

/-- So many calls can be entered, and the functions are without loops and of a size at most. -/
structure Bounded (b k : Nat) (m : Machine) : Prop where
  calls : m.chain.limit ≤ m.chain.calls + b
  functions : ∀ d ∈ m.functions, d.loopFree = true ∧ sizeOf d.body ≤ k

variable {b k : Nat} {m : Machine}

theorem Bounded.change {f : Machine → Machine} (hf : Uncounted f)
    (hd : (f m).functions = m.functions) (h : m.Bounded b k) : (f m).Bounded b k where
  calls := by
    have hcalls := h.calls
    rw [hf.limit, hf.calls]
    exact hcalls
  functions := by
    rw [hd]
    exact h.functions

/-- A call that is entered leaves one less. -/
theorem Bounded.enterCall {c : Chain} (h : m.Bounded b k) (hc : m.chain.enterCall = .ok c) :
    0 < b ∧ { m with chain := c }.Bounded (b - 1) k := by
  obtain ⟨hlt, rfl⟩ := Chain.enterCall_eq_ok.1 hc
  have hcalls := h.calls
  exact ⟨by omega, by show m.chain.limit ≤ m.chain.calls + 1 + (b - 1); omega, h.functions⟩

theorem Bounded.exitCall (h : m.Bounded (b - 1) k) (hb : 0 < b) :
    { m with chain := m.chain.exitCall }.Bounded b k := by
  have hcalls := h.calls
  exact ⟨by show m.chain.limit ≤ m.chain.calls - 1 + b; omega, h.functions⟩

end Machine

/-- From a bounded machine a computation ends, on a machine with the same bounds. -/
def Run.Halts {α : Type} (b k : Nat) (x : Run α) : Prop :=
  ∀ ⦃m : Machine⦄, m.Bounded b k → ∃ m', (x m).machine? = some m' ∧ m'.Bounded b k

namespace Run.Halts

variable {α β : Type} {b k : Nat}

theorem pure (a : α) : (pure a : Run α).Halts b k := fun m hm => ⟨m, rfl, hm⟩

theorem stop (s : Stop) : (Run.stop s : Run α).Halts b k := fun m hm => ⟨m, rfl, hm⟩

theorem gets (q : Machine → β) : (Run.gets q).Halts b k := fun m hm => ⟨m, rfl, hm⟩

theorem bind {x : Run α} {f : α → Run β} (hx : x.Halts b k) (hf : ∀ a, (f a).Halts b k) :
    (x >>= f).Halts b k := by
  intro m hm
  obtain ⟨n, hn, hi⟩ := hx hm
  rw [bind_apply]
  cases hr : x m with
  | done a n' =>
    rw [hr] at hn
    cases hn
    exact hf a hi
  | stopped s n' =>
    rw [hr] at hn
    exact ⟨n, hn, hi⟩
  | outOfFuel =>
    rw [hr] at hn
    cases hn

theorem modify {f : Machine → Machine} (hf : Machine.Uncounted f)
    (hd : ∀ m, (f m).functions = m.functions) : (Run.modify f).Halts b k :=
  fun m hm => ⟨f m, rfl, hm.change hf (hd m)⟩

theorem bracket {up down : Machine → Machine} (hu : Machine.Uncounted up)
    (hud : ∀ m, (up m).functions = m.functions) (hd : Machine.Uncounted down)
    (hdd : ∀ m, (down m).functions = m.functions) {x : Run α}
    (hx : x.Halts b k) :
    (Run.bracket up down x).Halts b k := by
  intro m hm
  obtain ⟨n, hn, hi⟩ := hx (hm.change hu (hud m))
  refine ⟨down n, ?_, hi.change hd (hdd n)⟩
  rw [bracket_machine?, hn]
  rfl

theorem inScope {x : Run α} (hx : x.Halts b k) :
    (Run.inScope x).Halts b k :=
  hx.bracket .enterScope (by simp) .exitScope (by simp)

theorem underFrame (f : FrameKind) {x : Run α} (hx : x.Halts b k) :
    (Run.underFrame f x).Halts b k :=
  hx.bracket (.pushFrame f) (by simp) .popFrame (by simp)

theorem inCall {x : Run α} (hx : 0 < b → x.Halts (b - 1) k) :
    (Run.inCall x).Halts b k := by
  intro m hm
  rw [Run.inCall]
  cases hc : m.chain.enterCall with
  | error c => exact ⟨m, rfl, hm⟩
  | ok c =>
    obtain ⟨hb, hin⟩ := hm.enterCall hc
    obtain ⟨n, hn, hi⟩ := hx hb hin
    refine ⟨_, ?_, hi.exitCall hb⟩
    rw [Outcome.machine?_mapMachine, hn]
    rfl

theorem atLine (l : Option Line) {x : Run α} (hx : x.Halts b k) :
    (Run.atLine l x).Halts b k := by
  intro m hm
  obtain ⟨n, hn, hi⟩ := hx (hm.change (.line (l.or m.line)) rfl)
  exact ⟨_, Run.machine?_atLine_eq_some.2 ⟨n, hn, rfl⟩, hi.change (.line m.line) rfl⟩

theorem report (w : Warning) : (Run.report w).Halts b k := by
  intro m hm
  by_cases hp : m.policy = .abort
  · exact ⟨m, by rw [Run.report, if_pos hp]; rfl, hm⟩
  · refine ⟨m.record w, by rw [Run.report, if_neg hp]; rfl, hm.change (.record w) (by simp)⟩

theorem steps : Steps.Local fun _ x _ => ∀ b k, x.Halts b k where
  done a _ _ := pure a
  stop _ _ _ := stop _
  bind hx hf b k := bind (hx b k) fun a => hf a b k
  gets _ _ _ := gets _
  report _ _ _ := report _
  update name _ _ _ := modify (.update name _) fun _ => rfl
  current _ _ _ := gets _
  insert x _ _ := modify (.insert x) fun _ => rfl
  replaceArray x length _ _ := modify (.replaceArray x length) (by simp [Machine.replaceArray])

/-- Whatever has no parts to run ends. -/
theorem congruence : Congruence.Core (fun _ x _ => ∀ b k, x.Halts b k)
    fun _ x _ => ∀ b k, x.Halts b k where
  done := steps.done
  stop := steps.stop
  bind hx hf b k := bind (hx b k) fun a => hf a b k
  sequence hx hf b k := bind (hx b k) fun a => hf a b k
  weaken hx := hx
  gets := steps.gets
  current := steps.current
  note e _ _ := modify (.note e) (by simp)
  write s t _ _ := modify (.write s t) fun _ => rfl
  report := steps.report
  readWith reader b k := by
    intro m hm
    exact ⟨_, Run.machine?_readWith reader m, hm.change (.advance _) rfl⟩
  overwrite := steps.overwrite
  storeText := steps.storeText
  declare _ := steps.declare _
  replaceArray length _ _ := steps.replaceLocal _ length
  inScope hx b k := inScope (hx b k)
  underFrame f _ _ hx b k := underFrame f (hx b k)
  overFrame f _ _ hx b k := underFrame f (hx b k)
  inCall hx b k := inCall fun _ => hx (b - 1) k
  atLine l _ _ hx b k := atLine l (hx b k)

end Run.Halts

/-- A runner with fuel for parts of a size at most, and for the bodies of calls. -/
structure Halting (r : Runner) (b k n : Nat) : Prop where
  le : n ≤ k
  eval {e : Expr} : sizeOf e ≤ n → (r.eval e).Halts b k
  exec {s : Stmt} : s.loopFree = true → sizeOf s ≤ n → (r.exec s).Halts b k
  body {d : Definition} : 0 < b → d.loopFree = true → sizeOf d.body ≤ k →
    (r.exec d.body).Halts (b - 1) k

namespace Halting

open Run

variable {r : Runner} {b k n : Nat} (h : Halting r b k n)
include h

theorem evalAs {e : Expr} (he : sizeOf e ≤ n) (kind : Kind) :
    (r.evalAs e kind).Halts b k :=
  .bind (h.eval he) fun _ => .pure _

theorem evalInt {e : Expr} (he : sizeOf e ≤ n) : (r.evalInt e).Halts b k :=
  .bind (h.eval he) fun _ => .pure _

theorem holds {e : Expr} (he : sizeOf e ≤ n) : (r.holds e).Halts b k :=
  .bind (h.evalInt he) fun _ => .pure _

theorem evalAll (kind : Kind) {es : List Expr} (hes : sizeOf es ≤ n) :
    (r.evalAll kind es).Halts b k := by
  induction es with
  | nil => exact .pure _
  | cons e es ih =>
    simp only [List.cons.sizeOf_spec] at hes
    exact .bind (h.evalAs (by omega) kind) fun _ => .bind (ih (by omega)) fun _ => .pure _

theorem execAll {ss : List Stmt} (hss : loopFreeAll ss = true) (hn : sizeOf ss ≤ n) :
    (r.execAll ss).Halts b k := by
  induction ss with
  | nil => exact .pure _
  | cons s ss ih =>
    simp only [List.cons.sizeOf_spec] at hn
    simp only [loopFreeAll, Bool.and_eq_true] at hss
    refine .bind (h.exec hss.1 (by omega)) fun f => ?_
    cases f with
    | normal => exact ih hss.2 (by omega)
    | leave => exact .pure _
    | giveBack v => exact .pure _

/-! Variables -/

theorem element (name : String) {index : Expr} (hi : sizeOf index ≤ n) :
    (r.element name index).Halts b k := by
  have hc := Halts.congruence
  refine .bind (hc.lookupArray name b k) fun _ => .bind (h.evalInt hi) fun i => ?_
  refine .bind (hc.lookupArray name b k) fun x => ?_
  split
  · exact hc.settle (Buffer.isPlain_read _ _ _) b k
  · exact hc.settle rfl b k

theorem declare (name : String) (kind : Kind) (modifiers : Modifiers) {init : Option Expr}
    (hi : sizeOf init ≤ n + 1) :
    (r.declare name kind modifiers init).Halts b k := by
  have hc := Halts.congruence
  have hbind (v : Value) : (Run.declare (.scalar name kind v modifiers) >>= fun _ =>
      Pure.pure Flow.normal).Halts b k :=
    .bind (hc.declare (Variable.wellKinded_scalar name kind v modifiers) b k) fun _ => .pure _
  cases init with
  | some e =>
    simp only [Option.some.sizeOf_spec] at hi
    exact .bind (h.evalAs (by omega) kind) hbind
  | none => exact .bind (.pure _) hbind

theorem declareArray (name : String) (kind : Kind) (modifiers : Modifiers) (length : Nat)
    {init : List Expr} (hi : sizeOf init ≤ n) :
    (r.declareArray name kind modifiers length init).Halts b k := by
  have hc := Halts.congruence
  unfold Runner.declareArray
  split
  · exact .stop _
  · refine .bind (h.evalAll kind hi) fun values => ?_
    exact .bind (hc.install name kind modifiers length values b k) fun _ => .pure _

theorem assign (name : String) {value : Expr} (hv : sizeOf value ≤ n) :
    (r.assign name value).Halts b k := by
  have hc := Halts.congruence
  refine .bind (hc.lookup name b k) fun x => .bind (hc.writable x b k) fun _ => ?_
  refine .bind (h.evalAs hv x.kind) fun v => ?_
  exact .bind (hc.overwrite name v b k) fun _ => .pure _

theorem assignElement (name : String) {index value : Expr} (hi : sizeOf index ≤ n)
    (hv : sizeOf value ≤ n) : (r.assignElement name index value).Halts b k := by
  have hc := Halts.congruence
  have hwrite (i : Int32) (v : Value) : (Run.writeElement name i v).Halts b k :=
    Run.Halts.steps.writeElement name i v b k
  refine .bind (hc.lookupArray name b k) fun x => .bind (hc.writable x b k) fun _ => ?_
  split
  · refine .bind (h.evalInt hi) fun i => .bind (.bind (.gets _) fun o => ?_) fun _ => .pure _
    cases o.bind (·.buffer?) with
    | none => exact .report _
    | some c =>
      dsimp only
      split
      · exact .bind (h.evalAs hv x.kind) fun v => hwrite i v
      · exact .report _
  · exact .bind (.report _) fun _ => .pure _

/-! Printing -/

theorem integerArg {e : Expr} (he : sizeOf e ≤ n) :
    (r.integerArg e).Halts b k := by
  have hc := Halts.congruence
  refine .bind (hc.getsUnsigned e b k) fun u => .bind (hc.kindOf e b k) fun _ => ?_
  exact .bind (h.eval he) fun v => .pure _

theorem formatArg (s : Format.Spec) {e : Expr} (he : sizeOf e ≤ n) :
    (r.formatArg s e).Halts b k := by
  have hc := Halts.congruence
  unfold Runner.formatArg
  cases s.conversion.argClass with
  | str =>
    cases e with
    | text t => exact .pure _
    | _ => exact .stop _
  | floating =>
    refine .bind (hc.kindOf e b k) fun _ => ?_
    split
    · exact .bind (h.eval he) fun v => .pure _
    · exact .stop _
  | integer =>
    dsimp only
    split
    · exact .bind (h.eval he) fun v => .pure _
    · exact h.integerArg he

theorem renderPieces (ps : List Format.Piece) {args : List Expr} (hargs : sizeOf args ≤ n) :
    (r.renderPieces ps args).Halts b k := by
  have hc := Halts.congruence
  induction ps generalizing args with
  | nil => exact .pure _
  | cons p ps ih =>
    cases p with
    | literal t => exact .bind (ih hargs) fun rest => .pure _
    | spec s =>
      cases args with
      | nil => exact .bind (ih hargs) fun rest => .pure _
      | cons e args =>
        simp only [List.cons.sizeOf_spec] at hargs
        have hrest := @ih args (by omega)
        refine .bind (h.formatArg s (by omega)) fun a => ?_
        exact .bind (hc.ofExcept _ _ (fun _ => rfl) b k) fun t => .bind hrest fun rest => .pure _

theorem formatted (f : Builtin) {args : List Expr} (hargs : sizeOf args ≤ n) :
    (r.formatted f args).Halts b k := by
  have hc := Halts.congruence
  cases args with
  | nil => exact .stop _
  | cons e args =>
    simp only [List.cons.sizeOf_spec] at hargs
    cases e with
    | text t =>
      refine .bind (hc.ofExcept _ _ (fun _ => rfl) b k) fun ps => ?_
      exact .bind (h.renderPieces ps (by omega)) fun t => .pure _
    | _ => exact .stop _

theorem print (s : Stream) {e : Expr} (he : sizeOf e ≤ n) :
    (r.print s e).Halts b k := by
  have hwrite (t : String) : (Run.modify (·.write s (t ++ "\n")) >>= fun _ =>
      Pure.pure Flow.normal).Halts b k :=
    .bind (.modify (.write s _) fun _ => rfl) fun _ => .pure _
  have hint {e : Expr} (he : sizeOf e ≤ n) : (r.evalInt e >>= fun i =>
      Pure.pure (toString i.toInt) >>= fun t => Run.modify (·.write s (t ++ "\n")) >>= fun _ =>
        Pure.pure Flow.normal).Halts b k :=
    .bind (h.evalInt he) fun _ => .bind (.pure _) hwrite
  cases e with
  | text t => exact .bind (.pure t) hwrite
  | _ => exact hint he

/-! Calls -/

omit h in
theorem single {α : Type} (f : Builtin) {args : List Expr} (hargs : sizeOf args ≤ n)
    {x : Expr → Run α} (hx : ∀ e, sizeOf e ≤ n → (x e).Halts b k) :
    (Runner.single f args >>= x).Halts b k := by
  unfold Runner.single
  split
  · simp only [List.cons.sizeOf_spec] at hargs
    exact hx _ (by omega)
  · intro m hm
    exact ⟨m, rfl, hm⟩

theorem builtin (f : Builtin) {args : List Expr} (hargs : sizeOf args ≤ n) :
    (r.builtin f args).Halts b k := by
  have hc := Halts.congruence
  refine .bind (hc.note (fun _ => .builtin f args.length) b k) fun _ => ?_
  have hwrite (s : Stream) (t : String) : (Run.modify (·.write s t)).Halts b k :=
    .modify (.write s t) fun _ => rfl
  cases f with
  | yapping => exact .bind (h.formatted _ hargs) fun t => hwrite .out _
  | yappin => exact .bind (h.formatted _ hargs) fun t => hwrite .out t
  | baka =>
    dsimp only
    split
    · exact .bind (.pure _) fun t => hwrite .err t
    · exact .bind (h.formatted _ hargs) fun t => hwrite .err t
  | ragequit =>
    refine single _ hargs fun e he => ?_
    exact .bind (h.evalInt he) fun code => .stop _
  | chill =>
    refine single _ hargs fun e he => .bind (h.evalInt he) fun seconds => ?_
    split
    · exact .stop _
    · exact .pure ()
  | slorp => exact single _ hargs fun e _ => hc.readInto e b k

theorem arguments (ps : List Param) {es : List Expr} (hes : sizeOf es ≤ n) :
    (r.arguments ps es).Halts b k := by
  induction ps generalizing es with
  | nil => exact .pure _
  | cons p ps ih =>
    cases es with
    | nil => exact .pure _
    | cons e es =>
      simp only [List.cons.sizeOf_spec] at hes
      exact .bind (h.evalAs (by omega) p.kind) fun v => .bind (ih (by omega)) fun vs => .pure _

/-- The body of a call has one call less to enter. -/
theorem callBody {d : Definition} (hd : d.loopFree = true) (hk : sizeOf d.body ≤ k)
    (values : List Value) : (r.body d values).Halts b k := by
  refine .inCall fun hb => .underFrame _ (.inScope (.bind ?_ fun _ => h.body hb hd hk))
  exact Halts.congruence.bindParams d.params values (b - 1) k

omit h in
/-- A function that is known is one of those without loops. -/
theorem function {α : Type} (name : String) {x : Option Definition → Run α}
    (hnone : (x none).Halts b k)
    (hsome : ∀ d : Definition, d.loopFree = true → sizeOf d.body ≤ k →
      (x (some d)).Halts b k) :
    (Run.gets (·.function? name) >>= x).Halts b k := by
  intro m hm
  rw [bind_of_done (x := Run.gets _) rfl]
  cases hf : m.function? name with
  | none => exact hnone hm
  | some d =>
    obtain ⟨hd, hk⟩ := hm.functions d (List.mem_of_find?_eq_some hf)
    exact hsome d hd hk hm

theorem call (name : String) {args : List Expr} (hargs : sizeOf args ≤ n) :
    (r.call name args).Halts b k := by
  refine .bind (Halts.congruence.note (fun _ => .call name) b k) fun _ => ?_
  refine function name (.stop _) fun d hd hk => ?_
  dsimp only
  split
  · exact .stop _
  · refine .bind (h.arguments d.params hargs) fun values => ?_
    exact .bind (h.callBody hd hk values) fun f => .pure _

theorem callValue (name : String) {args : List Expr} (hargs : sizeOf args ≤ n) :
    (r.callValue name args).Halts b k := by
  unfold Runner.callValue
  split
  · exact .bind (h.builtin _ hargs) fun _ => .pure _
  · refine .bind (.gets _) fun d => .bind (h.call name hargs) fun o => ?_
    cases o with
    | some v => exact .pure v
    | none => exact .bind (.report _) fun _ => .pure _

theorem callOnly (name : String) {args : List Expr} (hargs : sizeOf args ≤ n) :
    (r.callOnly name args).Halts b k := by
  unfold Runner.callOnly
  dsimp only
  split
  · exact .bind (h.builtin _ hargs) fun _ => .pure _
  · exact .bind (h.call name hargs) fun _ => .pure _

omit h in
theorem register {d : Definition} (hd : d.loopFree = true) (hk : sizeOf d.body ≤ k) :
    (Runner.register d).Halts b k := by
  have hadd : (Run.modify (·.register d)).Halts b k := by
    intro m hm
    have hu := Machine.Uncounted.register d
    have hcalls := hm.calls
    refine ⟨_, rfl, ?_, ?_⟩
    · rw [hu.limit, hu.calls]
      exact hcalls
    · intro d' hd'
      rcases List.mem_append.1 hd' with hd' | hd'
      · exact hm.functions d' hd'
      · obtain rfl := List.mem_singleton.1 hd'
        exact ⟨hd, hk⟩
  refine .bind (.gets _) fun earlier => .bind hadd fun _ => ?_
  split
  · exact .report _
  · exact .pure ()

omit h in
theorem define {d : Definition} (hd : d.loopFree = true) (hk : sizeOf d.body ≤ k) :
    (Runner.define d).Halts b k := by
  refine .bind (.gets _) fun known => ?_
  split
  · exact .bind (.pure ()) fun _ => .pure _
  · exact .bind (register hd hk) fun _ => .pure _

/-! Branches and switches -/

theorem ifElse {cond : Expr} {thenBranch : Stmt} {elseBranch : Option Stmt}
    (hf : (Action.ifElse cond thenBranch elseBranch).loopFree = true)
    (hn : sizeOf (Action.ifElse cond thenBranch elseBranch) ≤ n) :
    (r.ifElse cond thenBranch elseBranch).Halts b k := by
  simp only [Action.loopFree, Bool.and_eq_true] at hf
  simp only [Action.ifElse.sizeOf_spec] at hn
  refine .inScope (.bind (h.holds (by omega)) fun c => ?_)
  cases c with
  | true => exact h.exec hf.1 (by omega)
  | false =>
    cases elseBranch with
    | none => exact .pure _
    | some s =>
      simp only [Option.some.sizeOf_spec] at hn
      exact h.exec hf.2 (by omega)

theorem hits (i : Int32) (matched : Bool) {c : Case} (hc : sizeOf c ≤ n) :
    (r.hits i matched c).Halts b k := by
  obtain ⟨label, body⟩ := c
  simp only [Case.mk.sizeOf_spec] at hc
  cases matched with
  | true => exact .pure true
  | false =>
    cases label with
    | none => exact .pure true
    | some e =>
      simp only [Option.some.sizeOf_spec] at hc
      exact .bind (h.evalInt (by omega)) fun l => .pure _

theorem runCases (i : Int32) (matched : Bool) {cs : List Case} (hf : loopFreeCases cs = true)
    (hn : sizeOf cs ≤ n) : (r.runCases i matched cs).Halts b k := by
  induction cs generalizing matched with
  | nil => exact .pure _
  | cons c cs ih =>
    simp only [loopFreeCases, Bool.and_eq_true] at hf
    simp only [List.cons.sizeOf_spec] at hn
    have hrest (matched : Bool) : (r.runCases i matched cs).Halts b k :=
      ih matched hf.2 (by omega)
    refine .bind (h.hits i matched (by omega)) fun hit => ?_
    cases hit with
    | false => exact hrest false
    | true =>
      have hbody : (r.execAll c.body).Halts b k := by
        obtain ⟨label, body⟩ := c
        simp only [Case.mk.sizeOf_spec] at hn
        exact h.execAll hf.1 (by dsimp only; omega)
      refine .bind hbody fun f => ?_
      cases f with
      | normal =>
        simp only [Runner.afterCase]
        split
        · exact .pure _
        · exact hrest true
      | leave => exact .pure _
      | giveBack v => exact .pure _

theorem giveBack {value : Option Expr} (hv : sizeOf value ≤ n + 1) :
    (r.giveBack value).Halts b k := by
  refine .bind (.gets _) fun current => ?_
  split
  · exact .pure _
  · exact .pure _
  · exact .stop _
  · simp only [Option.some.sizeOf_spec] at hv
    exact .bind (h.evalAs (by omega) _) fun v => .pure _

theorem discard {e : Expr} (he : sizeOf e ≤ n) : (r.discard e).Halts b k := by
  have hvalue {e : Expr} (he : sizeOf e ≤ n) :
      (r.eval e >>= fun _ => Pure.pure Flow.normal).Halts b k :=
    .bind (h.eval he) fun _ => .pure _
  cases e with
  | call name args =>
    simp only [Expr.call.sizeOf_spec] at he
    exact h.callOnly name (by omega)
  | _ => exact hvalue he

/-! Nodes -/

theorem evalNode {e : Expr} (he : sizeOf e ≤ n + 1) :
    (r.evalNode e).Halts b k := by
  have hc := Halts.congruence
  cases e with
  | literal l => exact .pure _
  | text s => exact .stop _
  | ident name => exact hc.read name b k
  | binary op left right modifiers =>
    simp only [Expr.binary.sizeOf_spec] at he
    refine .bind (h.eval (by omega)) fun a => .bind (h.eval (by omega)) fun c => ?_
    refine .bind (.gets _) fun u => .bind (.gets _) fun u' => ?_
    exact hc.settle (Value.isPlain_binary _ _ _ _) b k
  | unary op operand =>
    simp only [Expr.unary.sizeOf_spec] at he
    cases op with
    | neg => exact .bind (h.eval (by omega)) fun v => .pure _
    | preInc => exact hc.step operand 1 false b k
    | preDec => exact hc.step operand (-1) false b k
    | postInc => exact hc.step operand 1 true b k
    | postDec => exact hc.step operand (-1) true b k
  | element name index =>
    simp only [Expr.element.sizeOf_spec] at he
    exact h.element name (by omega)
  | call name args =>
    simp only [Expr.call.sizeOf_spec] at he
    exact h.callValue name (by omega)
  | sizeOf operand => exact hc.sizeOf operand b k

theorem act {a : Action} (hf : a.loopFree = true) (hn : sizeOf a ≤ n) :
    (r.act a).Halts b k := by
  cases a with
  | declare name kind modifiers init =>
    simp only [Action.declare.sizeOf_spec] at hn
    exact h.declare name kind modifiers (by omega)
  | declareArray name kind modifiers length init =>
    have hinit : sizeOf (init.getD []) ≤ n := by
      simp only [Action.declareArray.sizeOf_spec] at hn
      cases init with
      | none => simp; omega
      | some es =>
        simp only [Option.some.sizeOf_spec] at hn
        simp only [Option.getD_some]
        omega
    exact h.declareArray name kind modifiers length hinit
  | assign name value =>
    simp only [Action.assign.sizeOf_spec] at hn
    exact h.assign name (by omega)
  | assignElement name index value =>
    simp only [Action.assignElement.sizeOf_spec] at hn
    exact h.assignElement name (by omega) (by omega)
  | expr e =>
    simp only [Action.expr.sizeOf_spec] at hn
    exact h.discard (by omega)
  | ifElse cond thenBranch elseBranch => exact h.ifElse hf hn
  | whileDo cond body => cases hf
  | doWhile body cond => cases hf
  | forLoop init cond next body => cases hf
  | switch scrutinee cases =>
    simp only [Action.switch.sizeOf_spec] at hn
    refine .bind (h.evalInt (by omega)) fun i => ?_
    exact .underFrame .switch (h.runCases i false hf (by omega))
  | leave => exact Halts.congruence.leave b k
  | giveBack value =>
    simp only [Action.giveBack.sizeOf_spec] at hn
    exact h.giveBack (by omega)
  | define d =>
    have hk := h.le
    obtain ⟨id, name, returns, params, body⟩ := d
    simp only [Action.define.sizeOf_spec, Definition.mk.sizeOf_spec] at hn
    exact define hf (by dsimp only; omega)
  | print e =>
    simp only [Action.print.sizeOf_spec] at hn
    exact h.print .out (by omega)
  | printError e =>
    simp only [Action.printError.sizeOf_spec] at hn
    exact h.print .err (by omega)
  | block body =>
    simp only [Action.block.sizeOf_spec] at hn
    exact h.execAll hf (by omega)

theorem execNode {s : Stmt} (hf : s.loopFree = true) (hn : sizeOf s ≤ n + 1) :
    (r.execNode s).Halts b k := by
  have hc := Halts.congruence
  obtain ⟨action, line⟩ := s
  simp only [Stmt.mk.sizeOf_spec] at hn
  refine .bind (hc.checkInterrupt b k) fun _ => .atLine _ ?_
  refine .bind (hc.note (fun l => .exec l action.description) b k) fun _ => ?_
  exact h.act hf (by dsimp only; omega)

end Halting

end Yap
