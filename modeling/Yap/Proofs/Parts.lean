import Yap.Proofs.Growth

/-! The parts of a compound statement: how it comes to execute each of them, and what it does
behind it. -/
namespace Yap

/-- How a compound statement ends with a part that does not end normally. -/
def Action.passes : Action → Flow → Flow
  | .whileDo .. | .doWhile .. | .forLoop .. | .switch .. => Flow.absorbed
  | _ => id

theorem Action.passes_giveBack (a : Action) (v : Option Value) :
    a.passes (.giveBack v) = .giveBack v := by cases a <;> rfl

/-- Where a compound statement has a part: in the header of a for, or further in. -/
inductive Place
  | header
  | inner
deriving DecidableEq

def Place.headers : Place → Nat
  | header => 1
  | inner => 0

namespace Machine

def openLoop (m : Machine) : Machine := (m.pushFrame .loop).enterScope

def closeLoop (m : Machine) : Machine := m.exitScope.popFrame

def begin (m : Machine) (s : Stmt) : Machine :=
  let here := s.line.or m.line
  { m with line := here }.note (.exec here s.action.description)

end Machine

/-- So many turns from one machine to another, none of which ends the loop. -/
inductive Turns (turn : Run (Option Flow)) : Nat → Machine → Machine → Prop
  | zero (m : Machine) : Turns turn 0 m m
  | succ {n : Nat} {m m' m'' : Machine} :
      turn m = .done none m' → Turns turn n m' m'' → Turns turn (n + 1) m m''

/-- A for loop comes to its body. -/
inductive ForBody (r : Runner) (init : Option Stmt) (cond : Option Expr) (next : Option Stmt)
    (body : Stmt) (m m' : Machine) : Prop
  | intro {n : Nat} {m₀ m₁ : Machine} : r.headerPart init m.openLoop = .done () m₀ → n < r.turns →
      Turns (r.forTurn cond next body) n m₀ m₁ → m₁.interrupted = false →
      r.holdsOr cond m₁.enterScope = .done true m' → ForBody r init cond next body m m'

/-- Cases come to the body of one, with those behind it. -/
inductive Arrives (r : Runner) (n : Int32) :
    Bool → List Case → Machine → Case → List Case → Machine → Prop
  | here {matched : Bool} {c : Case} {cs : List Case} {m m' : Machine} :
      r.hits n matched c m = .done true m' → Arrives r n matched (c :: cs) m c cs m'
  | miss {matched : Bool} {c d : Case} {cs ds : List Case} {m m' m'' : Machine} :
      r.hits n matched c m = .done false m' → Arrives r n false cs m' d ds m'' →
      Arrives r n matched (c :: cs) m d ds m''
  | fall {matched : Bool} {c d : Case} {cs ds : List Case} {m m₁ m₂ m' : Machine} :
      r.hits n matched c m = .done true m₁ → r.execAll c.body m₁ = .done .normal m₂ →
      c.label.isNone = false → Arrives r n true cs m₂ d ds m' →
      Arrives r n matched (c :: cs) m d ds m'

/-- A compound statement comes to execute a part of it. Behind the part, scopes and frames are
closed by the last argument if nothing else is to be done. -/
inductive Reaches (r : Runner) :
    Action → Machine → Place → Stmt → Machine → (Machine → Machine) → Prop
  | element {before behind : List Stmt} {s : Stmt} {m m' : Machine} :
      r.execAll before m = .done .normal m' →
      Reaches r (.block (before ++ s :: behind)) m .inner s m' id
  | thenBranch {cond : Expr} {s : Stmt} {other : Option Stmt} {m m' : Machine} :
      r.holds cond m.enterScope = .done true m' →
      Reaches r (.ifElse cond s other) m .inner s m' Machine.exitScope
  | elseBranch {cond : Expr} {s other : Stmt} {m m' : Machine} :
      r.holds cond m.enterScope = .done false m' →
      Reaches r (.ifElse cond other (some s)) m .inner s m' Machine.exitScope
  | whileBody {cond : Expr} {s : Stmt} {n : Nat} {m m₁ m' : Machine} : n < r.turns →
      Turns (r.whileTurn cond s) n m.openLoop m₁ → m₁.interrupted = false →
      r.holds cond m₁ = .done true m' →
      Reaches r (.whileDo cond s) m .inner s m'.enterScope (·.exitScope.closeLoop)
  | doBody {cond : Expr} {s : Stmt} {n : Nat} {m m' : Machine} : n < r.turns →
      Turns (r.doTurn s cond) n m.openLoop m' → m'.interrupted = false →
      Reaches r (.doWhile s cond) m .inner s m'.enterScope (·.exitScope.closeLoop)
  | forInit {cond : Option Expr} {s : Stmt} {next : Option Stmt} {body : Stmt} {m : Machine} :
      Reaches r (.forLoop (some s) cond next body) m .header s m.openLoop (·.closeLoop)
  | forBody {init : Option Stmt} {cond : Option Expr} {next : Option Stmt} {s : Stmt}
      {m m' : Machine} : ForBody r init cond next s m m' →
      Reaches r (.forLoop init cond next s) m .inner s m' (·.exitScope.closeLoop)
  | forNext {init : Option Stmt} {cond : Option Expr} {s body : Stmt} {m m₁ m' : Machine} :
      ForBody r init cond (some s) body m m₁ → r.exec body m₁ = .done .normal m' →
      Reaches r (.forLoop init cond (some s) body) m .header s m' (·.exitScope.closeLoop)
  | caseElement {scrutinee : Expr} {cases rest : List Case} {c : Case} {n : Int32}
      {before behind : List Stmt} {s : Stmt} {m m₀ m₁ m' : Machine} :
      r.evalInt scrutinee m = .done n m₀ →
      Arrives r n false cases (m₀.pushFrame .switch) c rest m₁ →
      c.body = before ++ s :: behind → r.execAll before m₁ = .done .normal m' →
      Reaches r (.switch scrutinee cases) m .inner s m' Machine.popFrame

namespace Machine

@[simp] theorem entered_closeLoop (m : Machine) :
    m.closeLoop.chain.entered = m.chain.entered := by simp [closeLoop]

end Machine

theorem Turns.iterate {turn : Run (Option Flow)} {n : Nat} {m m' : Machine}
    (h : Turns turn n m m') (k : Nat) :
    Runner.iterate turn (k + n) m = Runner.iterate turn k m' := by
  induction h with
  | zero m => rfl
  | succ ht _ ih =>
    rw [← Nat.add_assoc, Runner.iterate_succ, Run.bind_of_done ht]
    exact ih

namespace Runner

variable {r : Runner}

/-- A loop that has taken some turns goes on with the next. -/
theorem loop_of_turns {header : Run Unit} {turn : Run (Option Flow)} {m m₀ m₁ : Machine} {n : Nat}
    (hh : header m.openLoop = .done () m₀) (hn : n < r.turns) (ht : Turns turn n m₀ m₁) :
    ∃ k, r.loop header turn m =
      ((turn >>= nextTurn turn k) m₁).mapMachine Machine.closeLoop := by
  obtain ⟨k, hk⟩ := Nat.exists_eq_add_of_lt hn
  have hr : r.turns = k + 1 + n := by omega
  have hi : (header >>= fun _ => iterate turn r.turns) m.openLoop =
      (turn >>= nextTurn turn k) m₁ := by
    rw [Run.bind_of_done hh, hr, ht.iterate, iterate_succ]
  refine ⟨k, ?_⟩
  show (((header >>= fun _ => iterate turn r.turns) m.openLoop).mapMachine
    Machine.exitScope).mapMachine Machine.popFrame = _
  rw [hi, Outcome.mapMachine_mapMachine]
  rfl

theorem execAll_append_cons {before : List Stmt} (s : Stmt) (behind : List Stmt)
    {m m' : Machine} (h : r.execAll before m = .done .normal m') :
    r.execAll (before ++ s :: behind) m =
      (r.exec s >>= fun f => f.andThen (r.execAll behind)) m' := by
  rw [execAll_append, Run.bind_of_done h]
  rfl

end Runner

theorem Arrives.runCases {r : Runner} {n : Int32} {matched : Bool} {cs rest : List Case} {c : Case}
    {m m' : Machine} (h : Arrives r n matched cs m c rest m') :
    r.runCases n matched cs m =
      (r.execAll c.body >>= Runner.afterCase c (r.runCases n true rest)) m' := by
  induction h with
  | here hh => rw [Runner.runCases, Run.bind_of_done hh]; rfl
  | miss hh _ ih => rw [Runner.runCases, Run.bind_of_done hh]; exact ih
  | fall hh hb hl _ ih =>
    rw [Runner.runCases, Run.bind_of_done hh]
    simp only [if_true]
    rw [Run.bind_of_done hb]
    simpa [Runner.afterCase, hl] using ih

/-- What follows a part of a compound statement: if the part did not end normally and is not in a
header nothing does, and every header is followed by the scope of a turn. -/
structure Rest (a : Action) (place : Place) (close : Machine → Machine) (rest : Flow → Run Flow) :
    Prop where
  passes {f : Flow} : place = .inner → f ≠ .normal →
    ∀ m, rest f m = .done (a.passes f) (close m)
  grows (f : Flow) : (rest f).Grows place.headers

theorem rest_branch (cond : Expr) (s : Stmt) (other : Option Stmt) :
    Rest (.ifElse cond s other) .inner Machine.exitScope
      fun f => Run.bracket id Machine.exitScope (pure f) where
  passes _ _ _ := rfl
  grows f := (Run.Grows.pure f).bracket (k := 0) (by simp) (by simp)

/-- What follows the body of a loop: the end of its turn, and the next one. -/
theorem rest_turn {a : Action} (ha : a.passes = Flow.absorbed) {turn : Run (Option Flow)}
    (ht : turn.Grows 0) (k : Nat) {after : Flow → Run (Option Flow)}
    (hp : ∀ f, f ≠ .normal → ∀ m, after f m = .done (some f.absorbed) m.exitScope)
    (hg : ∀ f, (after f).Grows 0) :
    Rest a .inner (·.exitScope.closeLoop)
      fun f => Run.bracket id Machine.closeLoop (after f >>= Runner.nextTurn turn k) where
  passes := by
    intro f _ hf m
    rw [Run.bracket, Run.bind_of_done (hp f hf _), ha]
    rfl
  grows f := ((hg f).bind (ht.nextTurn k)).bracket (k := 0) (by simp) (by simp)

theorem mapMachine_turn {α : Type} {o : Outcome α} {turn : Run (Option Flow)} {m : Machine}
    {close : Machine → Machine} {after : α → Run (Option Flow)}
    (h : turn m = o.andThen close after) (k : Nat) :
    ((turn >>= Runner.nextTurn turn k) m).mapMachine Machine.closeLoop =
      o.andThen (fun m => (close m).closeLoop)
        fun a => Run.bracket id Machine.closeLoop (after a >>= Runner.nextTurn turn k) := by
  rw [Run.bind_apply, h]
  cases o <;> rfl

theorem checkInterrupt_of_not {m : Machine} (h : m.interrupted = false) :
    Run.checkInterrupt m = .done () m := by
  rw [Run.checkInterrupt, Run.bind_of_done (x := Run.gets _) rfl, h]
  rfl

theorem turnBody_andThen (r : Runner) (s : Stmt) (m : Machine) :
    r.turnBody s m = (r.exec s m.enterScope).andThen Machine.exitScope
      fun f => Run.bracket id Machine.exitScope (pure f.ending?) := by
  have hscope : Run.inScope (r.exec s) m = (r.exec s m.enterScope).andThen Machine.exitScope
      fun f => Run.bracket id Machine.exitScope (pure f) := Outcome.mapMachine_eq_andThen _ _
  exact Run.bind_andThen hscope _

theorem Reaches.entered_close {r : Runner} {a : Action} {m m' : Machine} {place : Place} {s : Stmt}
    {close : Machine → Machine} (h : Reaches r a m place s m' close) (m'' : Machine) :
    (close m'').chain.entered = m''.chain.entered := by
  cases h <;> simp

section Parts

variable {r : Runner}
  (hr : r.Related (fun _ x _ => Run.Keeps SameStacks x) (fun _ x _ => Run.Keeps SameStacks x) r)
include hr

theorem grows_forTurn (cond : Option Expr) (next : Option Stmt) (body : Stmt) :
    (r.forTurn cond next body).Grows 1 := by
  have hc := SameStacks.effects.congruence
  have hround : (r.forRound cond next body).Grows 0 := Run.Keeps.grows (hc.forRound hr cond next body)
  have hscope : (Run.inScope (r.forRound cond next body)).Grows 1 :=
    hround.bracket (k := 1) (by simp [Chain.enterScope]) (by simp)
  exact (Run.Keeps.grows hc.checkInterrupt).bind (k := 1) fun _ => hscope

theorem reaches_while {cond : Expr} {s : Stmt} {n : Nat} {m m₁ m' : Machine} (hn : n < r.turns)
    (ht : Turns (r.whileTurn cond s) n m.openLoop m₁) (hi : m₁.interrupted = false)
    (hcond : r.holds cond m₁ = .done true m') :
    ∃ rest, r.whileDo cond s m = (r.exec s m'.enterScope).andThen (·.exitScope.closeLoop) rest ∧
      Rest (.whileDo cond s) .inner (·.exitScope.closeLoop) rest := by
  have hc := SameStacks.effects.congruence
  have hheader : (pure () : Run Unit) m.openLoop = .done () m.openLoop := rfl
  obtain ⟨k, hk⟩ := Runner.loop_of_turns hheader hn ht
  have hturn : r.whileTurn cond s m₁ = (r.exec s m'.enterScope).andThen Machine.exitScope
      fun f => Run.bracket id Machine.exitScope (pure f.ending?) := by
    rw [Runner.whileTurn, Run.bind_of_done (checkInterrupt_of_not hi), Run.bind_of_done hcond]
    exact turnBody_andThen r s m'
  refine ⟨_, hk.trans (mapMachine_turn hturn k), ?_⟩
  refine rest_turn rfl (Run.Keeps.grows (hc.whileTurn hr cond s)) k ?_ ?_
  · intro f hf m
    rw [Flow.ending?_of_ne hf]
    rfl
  · intro f
    exact (Run.Grows.pure _).bracket (k := 0) (by simp) (by simp)

theorem reaches_do {cond : Expr} {s : Stmt} {n : Nat} {m m' : Machine} (hn : n < r.turns)
    (ht : Turns (r.doTurn s cond) n m.openLoop m') (hi : m'.interrupted = false) :
    ∃ rest, r.doWhile s cond m = (r.exec s m'.enterScope).andThen (·.exitScope.closeLoop) rest ∧
      Rest (.doWhile s cond) .inner (·.exitScope.closeLoop) rest := by
  have hc := SameStacks.effects.congruence
  have hheader : (pure () : Run Unit) m.openLoop = .done () m.openLoop := rfl
  obtain ⟨k, hk⟩ := Runner.loop_of_turns hheader hn ht
  have hturn : r.doTurn s cond m' = (r.exec s m'.enterScope).andThen Machine.exitScope
      fun f => Run.bracket id Machine.exitScope (pure f.ending?) >>= r.doNext cond := by
    rw [Runner.doTurn, Run.bind_of_done (checkInterrupt_of_not hi)]
    exact Run.bind_andThen (turnBody_andThen r s m') _
  refine ⟨_, hk.trans (mapMachine_turn hturn k), ?_⟩
  refine rest_turn rfl (Run.Keeps.grows (hc.doTurn hr s cond)) k ?_ ?_
  · intro f hf m
    rw [Flow.ending?_of_ne hf]
    rfl
  · intro f
    have hnext (o : Option Flow) : (r.doNext cond o).Grows 0 := Run.Keeps.grows (hc.doNext hr cond o)
    exact ((Run.Grows.pure _).bracket (k := 0) (by simp) (by simp)).bind hnext

omit hr in
theorem ForBody.round {init : Option Stmt} {cond : Option Expr} {next : Option Stmt} {s : Stmt}
    {m m' : Machine} (h : ForBody r init cond next s m m') :
    ∃ m₁ k, r.forLoop init cond next s m =
      ((r.forTurn cond next s >>= Runner.nextTurn (r.forTurn cond next s) k) m₁).mapMachine
        Machine.closeLoop ∧
      r.forTurn cond next s m₁ =
        ((r.exec s >>= r.forNext next) m').mapMachine Machine.exitScope := by
  rcases h with ⟨hh, hn, ht, hi, hcond⟩
  rename_i m₀ m₁
  obtain ⟨k, hk⟩ := Runner.loop_of_turns hh hn ht
  refine ⟨m₁, k, hk, ?_⟩
  rw [Runner.forTurn, Run.bind_of_done (checkInterrupt_of_not hi)]
  exact Run.inScope_of_done hcond

theorem reaches_forBody {init : Option Stmt} {cond : Option Expr} {next : Option Stmt} {s : Stmt}
    {m m' : Machine} (h : ForBody r init cond next s m m') :
    ∃ rest, r.forLoop init cond next s m = (r.exec s m').andThen (·.exitScope.closeLoop) rest ∧
      Rest (.forLoop init cond next s) .inner (·.exitScope.closeLoop) rest := by
  have hc := SameStacks.effects.congruence
  obtain ⟨m₁, k, hloop, hturn⟩ := h.round
  rw [Run.bind_mapMachine] at hturn
  refine ⟨_, hloop.trans (mapMachine_turn hturn k), ?_⟩
  refine rest_turn rfl (Run.Keeps.grows (hc.forTurn hr cond next s)) k ?_ ?_
  · intro f hf m
    rw [Runner.forNext, Flow.ending?_of_ne hf]
    rfl
  · intro f
    have hnext : (r.forNext next f).Grows 0 := Run.Keeps.grows (hc.forNext hr next f)
    exact hnext.bracket (k := 0) (by simp) (by simp)

theorem reaches_forNext {init : Option Stmt} {cond : Option Expr} {s body : Stmt}
    {m m₁ m' : Machine} (h : ForBody r init cond (some s) body m m₁)
    (hb : r.exec body m₁ = .done .normal m') :
    ∃ rest, r.forLoop init cond (some s) body m =
        (r.exec s m').andThen (·.exitScope.closeLoop) rest ∧
      Rest (.forLoop init cond (some s) body) .header (·.exitScope.closeLoop) rest := by
  obtain ⟨m₀, k, hloop, hturn⟩ := h.round
  have hnext : (r.exec body >>= r.forNext (some s)) m₁ =
      (r.exec s >>= fun _ => pure none) m' := by
    rw [Run.bind_of_done hb]
    show (r.headerPart (some s) >>= fun _ => pure none) m' = _
    rw [Runner.headerPart, bind_assoc]
    rfl
  rw [hnext, Run.bind_mapMachine] at hturn
  refine ⟨_, hloop.trans (mapMachine_turn hturn k), ?_, ?_⟩
  · intro f hp
    cases hp
  · intro f
    refine Run.Grows.bracket (n := 1) (k := 0) ?_ (by simp) (by simp)
    intro m m' g hm
    have hturns := (grows_forTurn hr cond (some s) body).iterate k
    have he := hturns (m := m.exitScope) hm
    simpa using he

theorem reaches_forInit (s : Stmt) (cond : Option Expr) (next : Option Stmt) (body : Stmt)
    (m : Machine) :
    ∃ rest, r.forLoop (some s) cond next body m =
        (r.exec s m.openLoop).andThen (·.closeLoop) rest ∧
      Rest (.forLoop (some s) cond next body) .header (·.closeLoop) rest := by
  have hturns := (grows_forTurn hr cond next body).iterate r.turns
  refine ⟨fun _ => Run.bracket id Machine.closeLoop
    (Runner.iterate (r.forTurn cond next body) r.turns), ?_, ?_, ?_⟩
  · rw [← Run.bind_mapMachine]
    show (((r.headerPart (some s) >>= fun _ => _) m.openLoop).mapMachine
      Machine.exitScope).mapMachine Machine.popFrame = _
    rw [Outcome.mapMachine_mapMachine, Runner.headerPart, bind_assoc]
    rfl
  · intro f hp
    cases hp
  · intro f
    exact hturns.bracket (k := 0) (by simp) (by simp)

theorem reaches_case {scrutinee : Expr} {cases rest : List Case} {c : Case} {n : Int32}
    {before behind : List Stmt} {s : Stmt} {m m₀ m₁ m' : Machine}
    (he : r.evalInt scrutinee m = .done n m₀)
    (ha : Arrives r n false cases (m₀.pushFrame .switch) c rest m₁)
    (hs : c.body = before ++ s :: behind) (hb : r.execAll before m₁ = .done .normal m') :
    ∃ rest, r.switch scrutinee cases m = (r.exec s m').andThen Machine.popFrame rest ∧
      Rest (.switch scrutinee cases) .inner Machine.popFrame rest := by
  have hc := SameStacks.effects.congruence
  have hbody := Runner.execAll_append_cons s behind hb
  rw [Run.bind_apply_andThen] at hbody
  refine ⟨fun f => Run.bracket id Machine.popFrame
    (f.andThen (r.execAll behind) >>= Runner.afterCase c (r.runCases n true rest)), ?_, ?_, ?_⟩
  · rw [Runner.switch, Run.bind_of_done he]
    show (r.runCases n false cases (m₀.pushFrame .switch)).mapMachine Machine.popFrame = _
    rw [ha.runCases, hs, Run.bind_andThen hbody]
    cases r.exec s m' <;> rfl
  · intro f _ hf m
    rw [Flow.andThen_of_ne hf, pure_bind]
    cases f with
    | normal => exact absurd rfl hf
    | leave => rfl
    | giveBack v => rfl
  · intro f
    have hcases : (r.runCases n true rest).Grows 0 := Run.Keeps.grows (hc.runCases hr n true rest)
    have hbehind : (r.execAll behind).Grows 0 := Run.Keeps.grows (hc.execAll hr behind)
    exact ((hbehind.andThen f).bind (hcases.afterCase c)).bracket (k := 0) (by simp) (by simp)

/-- Behind a part, a compound statement does what it does with the end of the part. -/
theorem Reaches.act {a : Action} {m m' : Machine} {place : Place} {s : Stmt}
    {close : Machine → Machine} (h : Reaches r a m place s m' close) :
    ∃ rest, r.act a m = (r.exec s m').andThen close rest ∧ Rest a place close rest := by
  have hc := SameStacks.effects.congruence
  cases h with
  | element hb =>
    rename_i before behind
    refine ⟨fun f => f.andThen (r.execAll behind), ?_, ?_, ?_⟩
    · rw [← Run.bind_apply_andThen]
      exact Runner.execAll_append_cons s behind hb
    · intro f _ hf m
      rw [Flow.andThen_of_ne hf]
      rfl
    · intro f
      exact (Run.Keeps.grows (hc.execAll hr behind)).andThen f
  | thenBranch hcond =>
    refine ⟨_, ?_, rest_branch _ _ _⟩
    exact (Run.inScope_of_done hcond).trans (Outcome.mapMachine_eq_andThen (r.exec s m') _)
  | elseBranch hcond =>
    refine ⟨_, ?_, rest_branch _ _ _⟩
    exact (Run.inScope_of_done hcond).trans (Outcome.mapMachine_eq_andThen (r.exec s m') _)
  | whileBody hn ht hi hcond => exact reaches_while hr hn ht hi hcond
  | doBody hn ht hi => exact reaches_do hr hn ht hi
  | forInit => exact reaches_forInit hr s _ _ _ m
  | forBody hf => exact reaches_forBody hr hf
  | forNext hf hb => exact reaches_forNext hr hf hb
  | caseElement he ha hs hb => exact reaches_case hr he ha hs hb

theorem Reaches.passes {a : Action} {m m' m'' : Machine} {s : Stmt} {close : Machine → Machine}
    {f : Flow} (h : Reaches r a m .inner s m' close) (hs : r.exec s m' = .done f m'')
    (hf : f ≠ .normal) : r.act a m = .done (a.passes f) (close m'') := by
  obtain ⟨rest, hact, hrest⟩ := h.act hr
  rw [hact, hs]
  exact hrest.passes rfl hf m''

/-- A statement that ends has executed its part to the end, and a turn behind every header. -/
theorem Reaches.grows {a : Action} {m m' m₁ : Machine} {place : Place} {s : Stmt}
    {close : Machine → Machine} {f : Flow} (h : Reaches r a m place s m' close)
    (ha : r.act a m = .done f m₁) :
    ∃ g m'', r.exec s m' = .done g m'' ∧
      m''.chain.entered + place.headers ≤ m₁.chain.entered := by
  obtain ⟨rest, hact, hrest⟩ := h.act hr
  rw [hact] at ha
  obtain ⟨g, m'', hs, hd⟩ := Outcome.andThen_eq_done ha
  exact ⟨g, m'', hs, hrest.grows g hd⟩

end Parts

end Yap
