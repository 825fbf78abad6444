import Yap.Proofs.Stacks

/-! A break or a return arises only where a frame can take it: a loop or switch in the current
call, or the call itself, which gets a value at its return kind or none. -/
namespace Yap
namespace Flow

/-- The frames can take this end of a statement. -/
def Lands (frames : List Frame) : Flow → Prop
  | normal => True
  | leave => Frame.canBreak frames = true
  | giveBack v => ∃ f k, Frame.currentCall frames = some (f, k) ∧
      ∀ w, v = some w → ∃ k', k = some k' ∧ w.At k'

/-- And it is not a break. -/
def Settles (frames : List Frame) (f : Flow) : Prop := f ≠ leave ∧ f.Lands frames

/-- The end of a turn: if it ends the loop, what is left of it settles. -/
def Settled (frames : List Frame) (o : Option Flow) : Prop := ∀ f, o = some f → f.Settles frames

variable {frames : List Frame} {f : Flow}

theorem settles_normal : normal.Settles frames := by simp [Settles, Lands]

theorem settled_none : Settled frames none := by simp [Settled]

theorem settled_some : Settled frames (some f) ↔ f.Settles frames := by simp [Settled]

theorem Lands.absorbed (h : f.Lands frames) : f.absorbed.Settles frames := by
  cases f with
  | normal => exact settles_normal
  | leave => exact settles_normal
  | giveBack v => exact ⟨by simp [Flow.absorbed], h⟩

theorem Lands.settled_ending (h : f.Lands frames) : Settled frames f.ending? := by
  by_cases hf : f = normal
  · subst hf
    exact settled_none
  · rw [ending?_of_ne hf]
    exact settled_some.2 h.absorbed

theorem Settles.under_loop {d : Nat} (h : f.Settles (⟨.loop, d⟩ :: frames)) : f.Lands frames := by
  cases f with
  | normal => trivial
  | leave => exact absurd rfl h.1
  | giveBack v => exact h.2

theorem Settles.under_switch {d : Nat} (h : f.Settles (⟨.switch, d⟩ :: frames)) :
    f.Lands frames := by
  cases f with
  | normal => trivial
  | leave => exact absurd rfl h.1
  | giveBack v => exact h.2

end Flow

namespace Run

variable {α β : Type} {P : List Frame → α → Prop} {Q : List Frame → β → Prop}

/-- A result is as the frames at the start allow. -/
def Ends (P : List Frame → α → Prop) (x : Run α) : Prop :=
  ∀ ⦃m m' : Machine⦄ ⦃a : α⦄, x m = .done a m' → P m.frames a

theorem Ends.pure {a : α} (h : ∀ fs, P fs a) : (Pure.pure a : Run α).Ends P := by
  intro m m' b hm
  cases hm
  exact h m.frames

theorem Ends.mono {P' : List Frame → α → Prop} {x : Run α} (hx : x.Ends P)
    (h : ∀ fs a, P fs a → P' fs a) : x.Ends P' := fun _ _ _ hm => h _ _ (hx hm)

theorem Ends.and_then {x : Run α} {f : α → Run β} (hk : x.Keeps SameStacks) (hx : x.Ends P)
    (hf : ∀ a, (f a).Ends fun fs b => P fs a → Q fs b) : (x >>= f).Ends Q := by
  intro m m' b hm
  obtain ⟨a, n, hn, hm'⟩ := bind_eq_done.1 hm
  have hframes : n.frames = m.frames := (hk (by rw [hn]; rfl)).frames
  have hq := hf a hm'
  rw [hframes] at hq
  exact hq (hx hn)

theorem Ends.behind {x : Run α} {f : α → Run β} (hk : x.Keeps SameStacks)
    (hf : ∀ a, (f a).Ends Q) : (x >>= f).Ends Q :=
  Ends.and_then (P := fun _ _ => True) hk (fun _ _ _ _ => trivial)
    fun a => (hf a).mono fun _ _ hq _ => hq

/-- What a computation ends with is what its last part ends with. -/
theorem Ends.last {p : β → Prop} {x : Run α} {f : α → Run β} (hf : ∀ a, (f a).Ends fun _ => p) :
    (x >>= f).Ends fun _ => p := by
  intro m m' b hm
  obtain ⟨a, n, -, hm'⟩ := bind_eq_done.1 hm
  exact hf a hm'

theorem Ends.inScope {x : Run α} (hx : x.Ends P) : (inScope x).Ends P := by
  intro m m' a hm
  obtain ⟨n, hr, rfl⟩ := bracket_eq_done.1 hm
  have hp := hx hr
  simpa using hp

theorem Ends.underFrame {x : Run α} {P' : List Frame → α → Prop} (k : FrameKind) (hx : x.Ends P)
    (h : ∀ d fs a, P (⟨k, d⟩ :: fs) a → P' fs a) : (underFrame k x).Ends P' := by
  intro m m' a hm
  obtain ⟨n, hr, rfl⟩ := bracket_eq_done.1 hm
  have hp := hx hr
  rw [Machine.frames_pushFrame] at hp
  exact h _ _ _ hp

theorem Ends.inCall {x : Run α} (hx : x.Ends P) : (inCall x).Ends P := by
  intro m m' a hm
  obtain ⟨c, n, -, hr, rfl⟩ := inCall_eq_done.1 hm
  have hp := hx hr
  exact hp

theorem Ends.atLine {x : Run α} (l : Option Line) (hx : x.Ends P) : (atLine l x).Ends P := by
  intro m m' a hm
  obtain ⟨n, hr, rfl⟩ := atLine_eq_done.1 hm
  have hp := hx hr
  exact hp

theorem Ends.iterate {turn : Run (Option Flow)} (hk : turn.Keeps SameStacks)
    (ht : turn.Ends fun fs o => Flow.Settled fs o) (n : Nat) :
    (Runner.iterate turn n).Ends fun fs f => f.Settles fs := by
  induction n with
  | zero => intro m m' f hm; cases hm
  | succ n ih =>
    rw [Runner.iterate_succ]
    refine Ends.and_then hk ht fun o => ?_
    cases o with
    | none => exact ih.mono fun _ _ hf _ => hf
    | some f =>
      intro m m' g hm hf
      cases hm
      exact Flow.settled_some.1 hf

end Run

section Landing

variable {r : Runner}
  (hr : r.Related (fun _ x _ => Run.Keeps SameStacks x) (fun _ x _ => Run.Keeps SameStacks x) r)
  (hl : ∀ s, (r.exec s).Ends fun fs f => f.Lands fs)
include hr hl

theorem lands_execAll (ss : List Stmt) : (r.execAll ss).Ends fun fs f => f.Lands fs := by
  induction ss with
  | nil => exact Run.Ends.pure fun _ => trivial
  | cons s ss ih =>
    refine Run.Ends.and_then (hr.exec s) (hl s) fun f => ?_
    by_cases hf : f = .normal
    · subst hf
      exact ih.mono fun _ _ hg _ => hg
    · rw [Flow.andThen_of_ne hf]
      exact Run.Ends.pure fun _ hg => hg

theorem settled_turnBody (s : Stmt) :
    (r.turnBody s).Ends fun fs o => Flow.Settled fs o := by
  refine Run.Ends.and_then (SameStacks.effects.inScope (hr.exec s)) (hl s).inScope fun f => ?_
  exact Run.Ends.pure fun fs hf => hf.settled_ending

omit hl in
theorem settled_doNext (cond : Expr) (o : Option Flow) :
    (r.doNext cond o).Ends fun fs p => Flow.Settled fs o → Flow.Settled fs p := by
  have hc := SameStacks.effects.congruence
  cases o with
  | some f => exact Run.Ends.pure fun _ hf => hf
  | none =>
    refine Run.Ends.behind (hc.holds hr cond) fun b => ?_
    cases b with
    | true => exact Run.Ends.pure fun _ _ => Flow.settled_none
    | false => exact Run.Ends.pure fun _ _ => Flow.settled_some.2 Flow.settles_normal

omit hl in
theorem settled_forNext (next : Option Stmt) (f : Flow) :
    (r.forNext next f).Ends fun fs o => f.Lands fs → Flow.Settled fs o := by
  have hc := SameStacks.effects.congruence
  by_cases hn : f = .normal
  · subst hn
    refine Run.Ends.behind (hc.headerPart hr next) fun _ => ?_
    exact Run.Ends.pure fun _ _ => Flow.settled_none
  · rw [Runner.forNext, Flow.ending?_of_ne hn]
    exact Run.Ends.pure fun _ hf => Flow.settled_some.2 hf.absorbed

theorem settled_forTurn (cond : Option Expr) (next : Option Stmt) (body : Stmt) :
    (r.forTurn cond next body).Ends fun fs o => Flow.Settled fs o := by
  have hc := SameStacks.effects.congruence
  refine Run.Ends.behind hc.checkInterrupt fun _ => Run.Ends.inScope ?_
  refine Run.Ends.behind (hc.holdsOr hr cond) fun b => ?_
  cases b with
  | true => exact Run.Ends.and_then (hr.exec body) (hl body) fun f => settled_forNext hr next f
  | false => exact Run.Ends.pure fun _ => Flow.settled_some.2 Flow.settles_normal

theorem settled_whileTurn (cond : Expr) (body : Stmt) :
    (r.whileTurn cond body).Ends fun fs o => Flow.Settled fs o := by
  have hc := SameStacks.effects.congruence
  refine Run.Ends.behind hc.checkInterrupt fun _ => Run.Ends.behind (hc.holds hr cond) fun b => ?_
  cases b with
  | true => exact settled_turnBody hr hl body
  | false => exact Run.Ends.pure fun _ => Flow.settled_some.2 Flow.settles_normal

theorem settled_doTurn (body : Stmt) (cond : Expr) :
    (r.doTurn body cond).Ends fun fs o => Flow.Settled fs o := by
  have hc := SameStacks.effects.congruence
  refine Run.Ends.behind hc.checkInterrupt fun _ => ?_
  refine Run.Ends.and_then ?_ (settled_turnBody hr hl body) fun o => settled_doNext hr cond o
  exact hc.turnBody hr body

omit hr hl in
/-- What a loop does not take, its frame hands on. -/
theorem lands_loop {header : Run Unit} {turn : Run (Option Flow)} (hh : header.Keeps SameStacks)
    (hk : turn.Keeps SameStacks) (ht : turn.Ends fun fs o => Flow.Settled fs o) :
    (r.loop header turn).Ends fun fs f => f.Lands fs := by
  refine Run.Ends.underFrame .loop ?_ fun d fs f hf => Flow.Settles.under_loop hf
  exact Run.Ends.inScope (Run.Ends.behind hh fun _ => Run.Ends.iterate hk ht r.turns)

omit hr hl in
theorem settles_afterCase {x : Run Flow} (hx : x.Ends fun fs f => f.Settles fs) (c : Case)
    (f : Flow) : (Runner.afterCase c x f).Ends fun fs g => f.Lands fs → g.Settles fs := by
  cases f with
  | normal =>
    by_cases hd : c.label.isNone
    · simp only [Runner.afterCase, hd, if_true]
      exact Run.Ends.pure fun _ _ => Flow.settles_normal
    · simp only [Runner.afterCase, hd]
      exact hx.mono fun _ _ hf _ => hf
  | leave => exact Run.Ends.pure fun _ hf => hf.absorbed
  | giveBack v => exact Run.Ends.pure fun _ hf => hf.absorbed

theorem settles_runCases (n : Int32) (matched : Bool) (cs : List Case) :
    (r.runCases n matched cs).Ends fun fs f => f.Settles fs := by
  have hc := SameStacks.effects.congruence
  induction cs generalizing matched with
  | nil => exact Run.Ends.pure fun _ => Flow.settles_normal
  | cons c cs ih =>
    refine Run.Ends.behind (hc.hits hr n matched c) fun hit => ?_
    cases hit with
    | false => exact ih false
    | true =>
      have hbody : (r.execAll c.body).Keeps SameStacks := hc.execAll hr c.body
      exact Run.Ends.and_then hbody (lands_execAll hr hl c.body)
        fun f => settles_afterCase (ih true) c f

/-! Statements that always end normally -/

omit hr hl in
theorem normal_declare (name : String) (kind : Kind) (modifiers : Modifiers) (init : Option Expr) :
    (r.declare name kind modifiers init).Ends fun _ f => f = .normal := by
  cases init with
  | some e => exact Run.Ends.last fun _ => Run.Ends.last fun _ => Run.Ends.pure fun _ => rfl
  | none => exact Run.Ends.last fun _ => Run.Ends.last fun _ => Run.Ends.pure fun _ => rfl

omit hr hl in
theorem normal_declareArray (name : String) (kind : Kind) (modifiers : Modifiers) (length : Nat)
    (init : List Expr) :
    (r.declareArray name kind modifiers length init).Ends fun _ f => f = .normal := by
  rw [Runner.declareArray]
  by_cases h : length < init.length
  · rw [if_pos h]
    intro m m' f hm
    cases hm
  · rw [if_neg h]
    exact Run.Ends.last fun _ => Run.Ends.last fun _ => Run.Ends.pure fun _ => rfl

omit hr hl in
theorem normal_assign (name : String) (value : Expr) :
    (r.assign name value).Ends fun _ f => f = .normal :=
  Run.Ends.last fun _ => Run.Ends.last fun _ => Run.Ends.last fun _ => Run.Ends.last fun _ =>
    Run.Ends.pure fun _ => rfl

omit hr hl in
theorem normal_assignElement (name : String) (index value : Expr) :
    (r.assignElement name index value).Ends fun _ f => f = .normal := by
  refine Run.Ends.last fun x => Run.Ends.last fun _ => ?_
  by_cases h : x.isArray
  · rw [if_pos h]
    exact Run.Ends.last fun _ => Run.Ends.last fun _ => Run.Ends.pure fun _ => rfl
  · rw [if_neg h]
    exact Run.Ends.last fun _ => Run.Ends.pure fun _ => rfl

omit hr hl in
theorem normal_discard (e : Expr) : (r.discard e).Ends fun _ f => f = .normal := by
  cases e with
  | call name args =>
    rw [Runner.discard, Runner.callOnly]
    dsimp only
    cases Builtin.ofName? name with
    | some b => exact Run.Ends.last fun _ => Run.Ends.pure fun _ => rfl
    | none => exact Run.Ends.last fun _ => Run.Ends.pure fun _ => rfl
  | _ => exact Run.Ends.last fun _ => Run.Ends.pure fun _ => rfl

omit hr hl in
theorem normal_define (d : Definition) : (Runner.define d).Ends fun _ f => f = .normal := by
  refine Run.Ends.last fun known => ?_
  cases known with
  | true => exact Run.Ends.pure (a := Flow.normal) fun _ => rfl
  | false => exact Run.Ends.last fun _ => Run.Ends.pure fun _ => rfl

omit hr hl in
theorem normal_print (s : Stream) (e : Expr) : (r.print s e).Ends fun _ f => f = .normal := by
  cases e with
  | text t => exact Run.Ends.last fun _ => Run.Ends.last fun _ => Run.Ends.pure fun _ => rfl
  | _ => exact Run.Ends.last fun _ => Run.Ends.last fun _ => Run.Ends.last fun _ =>
      Run.Ends.pure fun _ => rfl

/-! Statements that hand on a break or a return, or begin one -/

theorem lands_ifElse (cond : Expr) (thenBranch : Stmt) (elseBranch : Option Stmt) :
    (r.ifElse cond thenBranch elseBranch).Ends fun fs f => f.Lands fs := by
  have hc := SameStacks.effects.congruence
  refine Run.Ends.inScope (Run.Ends.behind (hc.holds hr cond) fun b => ?_)
  cases b with
  | true => exact hl thenBranch
  | false =>
    cases elseBranch with
    | some s => exact hl s
    | none => exact Run.Ends.pure fun _ => trivial

omit hr hl in
theorem lands_leave : Runner.leave.Ends fun fs f => f.Lands fs := by
  intro m m' f hm
  rw [Runner.leave, Run.bind_of_done (x := Run.gets _) rfl] at hm
  by_cases hb : Frame.canBreak m.frames
  · rw [if_pos hb] at hm
    cases hm
    exact hb
  · rw [if_neg hb] at hm
    cases hm

omit hr hl in
theorem lands_giveBack (value : Option Expr) : (r.giveBack value).Ends fun fs f => f.Lands fs := by
  intro m m' f hm
  rw [Runner.giveBack, Run.bind_of_done (x := Run.gets _) rfl] at hm
  cases hcall : Frame.currentCall m.frames with
  | none =>
    rw [hcall] at hm
    cases hm
    trivial
  | some call =>
    obtain ⟨name, returns⟩ := call
    rw [hcall] at hm
    cases value with
    | none =>
      cases hm
      exact ⟨name, returns, hcall, fun w hw => by cases hw⟩
    | some e =>
      cases returns with
      | none => cases hm
      | some k =>
        dsimp only at hm
        obtain ⟨v, n, hv, hf⟩ := Run.bind_eq_done.1 hm
        obtain ⟨u, n', -, hu⟩ := Run.bind_eq_done.1 hv
        cases hf
        refine ⟨name, some k, hcall, fun w hw => ⟨k, rfl, ?_⟩⟩
        cases hw
        cases hu
        exact Value.at_convert u k

theorem lands_act (a : Action) : (r.act a).Ends fun fs f => f.Lands fs := by
  have hc := SameStacks.effects.congruence
  have hnormal {x : Run Flow} (hx : x.Ends fun _ f => f = .normal) :
      x.Ends fun fs f => f.Lands fs := hx.mono fun fs f hf => by rw [hf]; trivial
  cases a with
  | declare name kind modifiers init => exact hnormal (normal_declare name kind modifiers init)
  | declareArray name kind modifiers length init =>
    exact hnormal (normal_declareArray name kind modifiers length (init.getD []))
  | assign name value => exact hnormal (normal_assign name value)
  | assignElement name index value => exact hnormal (normal_assignElement name index value)
  | expr e => exact hnormal (normal_discard e)
  | ifElse cond thenBranch elseBranch => exact lands_ifElse hr hl cond thenBranch elseBranch
  | whileDo cond body =>
    exact lands_loop (hc.done ()) (hc.whileTurn hr cond body) (settled_whileTurn hr hl cond body)
  | doWhile body cond =>
    exact lands_loop (hc.done ()) (hc.doTurn hr body cond) (settled_doTurn hr hl body cond)
  | forLoop init cond next body =>
    exact lands_loop (hc.headerPart hr init) (hc.forTurn hr cond next body)
      (settled_forTurn hr hl cond next body)
  | switch scrutinee cases =>
    refine Run.Ends.behind (hc.evalInt hr scrutinee) fun n => ?_
    exact Run.Ends.underFrame .switch (settles_runCases hr hl n false cases)
      fun d fs f hf => Flow.Settles.under_switch hf
  | leave => exact lands_leave
  | giveBack value => exact lands_giveBack value
  | define d => exact hnormal (normal_define d)
  | print e => exact hnormal (normal_print .out e)
  | printError e => exact hnormal (normal_print .err e)
  | block body => exact lands_execAll hr hl body

theorem lands_execNode (s : Stmt) : (r.execNode s).Ends fun fs f => f.Lands fs := by
  have hc := SameStacks.effects.congruence
  refine Run.Ends.behind hc.checkInterrupt fun _ => Run.Ends.atLine s.line ?_
  refine Run.Ends.behind (hc.note fun l => .exec l s.action.description) fun _ => ?_
  exact lands_act hr hl s.action

end Landing

/-- Every statement ends as the frames at its start allow. -/
theorem Stmt.exec_lands (n : Nat) (s : Stmt) : (s.exec n).Ends fun fs f => f.Lands fs := by
  induction n generalizing s with
  | zero => intro m m' f hm; cases hm
  | succ n ih => exact lands_execNode (SameStacks.effects.ofFuel n) ih s

/-- The body of a function ends as its call frame allows. -/
theorem Runner.body_lands (n : Nat) (d : Definition) (values : List Value) :
    ((Runner.ofFuel n).body d values).Ends fun fs f =>
      ∃ depth, f.Lands (⟨.call d.name d.returns, depth⟩ :: fs) := by
  have hc := SameStacks.effects.congruence
  have hlands : ((Runner.ofFuel n).bound d values).Ends fun fs f => f.Lands fs :=
    Run.Ends.inScope (Run.Ends.behind (hc.bindParams d.params values) fun _ => d.body.exec_lands n)
  exact Run.Ends.inCall (Run.Ends.underFrame _ hlands fun depth _ _ hf => ⟨depth, hf⟩)

/-- What a function gives back is at its return kind. -/
theorem Runner.body_ends (n : Nat) (d : Definition) (values : List Value) :
    ((Runner.ofFuel n).body d values).Ends fun _ f =>
      ∀ v, f = .giveBack (some v) → ∃ k, d.returns = some k ∧ v.At k := by
  refine (Runner.body_lands n d values).mono ?_
  rintro fs f ⟨depth, hf⟩ v rfl
  obtain ⟨name, k, hcall, hk⟩ := hf
  obtain ⟨k', rfl, hat⟩ := hk v rfl
  have hreturns : d.returns = some k' := by
    rw [Frame.currentCall_call] at hcall
    exact congrArg Prod.snd (Option.some.inj hcall)
  exact ⟨k', hreturns, hat⟩

end Yap
