import Yap.Proofs.Binding
import Yap.Proofs.Shadowing
import Yap.Proofs.Signals

/-! Calls are isolated. As long as the scope of its parameters is live, what the caller of a
function has under their names is out of reach of the body, and of whatever the body calls. -/
namespace Yap

/-- A computation does no more than effects and brackets: what all of them keep, it keeps. -/
def Run.Proper {α : Type} (x : Run α) : Prop :=
  ∀ P Q : Machine → Machine → Prop, Effects P Q → x.Keeps Q

/-- The machines met from one on as long as its current scope is live. Whatever is computed there
counts, from its end or from within its brackets. -/
inductive During (m₀ : Machine) : Machine → Prop
  | start : During m₀ m₀
  | run {α : Type} {x : Run α} {m m' : Machine} :
      x.Proper → During m₀ m → (x m).machine? = some m' → During m₀ m'
  | interrupt {m : Machine} (b : Bool) : During m₀ m → During m₀ { m with interrupted := b }
  | line {m : Machine} (l : Option Line) : During m₀ m → During m₀ { m with line := l }
  | enterScope {m : Machine} : During m₀ m → During m₀ m.enterScope
  | exitScope {m : Machine} :
      m₀.chain.depth < m.chain.depth → During m₀ m → During m₀ m.exitScope
  | pushFrame {m : Machine} (k : FrameKind) : During m₀ m → During m₀ (m.pushFrame k)
  | popFrame {m : Machine} : During m₀ m → During m₀ m.popFrame
  | enterCall {m : Machine} {c : Chain} :
      m.chain.enterCall = .ok c → During m₀ m → During m₀ { m with chain := c }
  | exitCall {m : Machine} : During m₀ m → During m₀ { m with chain := m.chain.exitCall }

/-- What every congruence relates to itself is made of effects and brackets. -/
theorem Run.Proper.of_congruence {α : Type} {x : Run α} (n : Nat)
    (h : ∀ {E S : ∀ ⦃α : Type⦄, Run α → Run α → Prop}, Congruence E S →
      (Runner.ofFuel n).Related E S (Runner.ofFuel n) → S x x) : x.Proper :=
  fun _ _ he => h he.congruence (he.ofFuel n)

/-- What the current scope of a machine hides stays out of reach on another one, on which that scope
is as far out as this one is deeper. -/
structure OutOfReach (m₀ m : Machine) : Prop where
  depth : m₀.chain.depth ≤ m.chain.depth
  binds {name : String} : m₀.chain.Binds 0 name →
    m.chain.Binds (m.chain.depth - m₀.chain.depth) name
  kept {i j : Nat} {x : Variable} : m₀.chain.var? (i + 1) j = some x → m₀.chain.Binds 0 x.name →
    m.chain.var? (i + 1 + (m.chain.depth - m₀.chain.depth)) j = some x

namespace OutOfReach

variable {m₀ m m' : Machine}

theorem refl (m : Machine) : OutOfReach m m where
  depth := Nat.le_refl _
  binds hb := by simpa using hb
  kept hx _ := by simpa using hx

theorem of_chain_eq (hc : m'.chain = m.chain) (h : OutOfReach m₀ m) : OutOfReach m₀ m' := by
  obtain ⟨hd, hb, hk⟩ := h
  rw [← hc] at hd hb hk
  exact ⟨hd, hb, hk⟩

theorem run {α : Type} {x : Run α} (hx : x.Proper) (h : OutOfReach m₀ m)
    (hm : (x m).machine? = some m') : OutOfReach m₀ m' := by
  have hstacks : SameStacks m m' := hx _ _ SameStacks.effects hm
  obtain ⟨hextends, hhidden⟩ : ExtendsCurrent m m' ∧ HiddenKept m m' := hx _ _ HiddenKept.effects hm
  have hd := hstacks.depth
  refine ⟨?_, ?_, ?_⟩
  · rw [hd]
    exact h.depth
  · intro name hb
    rw [hd]
    exact hextends.binds (h.binds hb)
  · intro i j y hy hb
    rw [hd]
    apply hhidden _ _ _ (h.kept hy hb)
    exact ⟨_, by omega, h.binds hb⟩

theorem enterScope (h : OutOfReach m₀ m) : OutOfReach m₀ m.enterScope := by
  have hd : m.enterScope.chain.depth = m.chain.depth + 1 := by
    simp [Chain.depth, Chain.enterScope]
  have hsub : m.chain.depth + 1 - m₀.chain.depth = m.chain.depth - m₀.chain.depth + 1 :=
    Nat.sub_add_comm h.depth
  refine ⟨?_, ?_, ?_⟩
  · rw [hd]
    exact Nat.le_succ_of_le h.depth
  · intro name hb
    rw [hd, hsub, Machine.chain_enterScope]
    exact Chain.binds_enterScope.2 (h.binds hb)
  · intro i j x hx hb
    rw [hd, hsub, ← Nat.add_assoc, Machine.chain_enterScope, Chain.var?_enterScope]
    exact h.kept hx hb

theorem exitScope (hd : m₀.chain.depth < m.chain.depth) (h : OutOfReach m₀ m) :
    OutOfReach m₀ m.exitScope := by
  have hexit : m.exitScope.chain.depth + 1 = m.chain.depth := by
    rw [Machine.chain_exitScope]
    apply Chain.depth_exitScope
    rw [Chain.depth] at hd
    omega
  have hsub : m.chain.depth - m₀.chain.depth = m.exitScope.chain.depth - m₀.chain.depth + 1 := by
    omega
  refine ⟨by omega, ?_, ?_⟩
  · intro name hb
    have hin := h.binds hb
    rw [hsub] at hin
    rw [Machine.chain_exitScope] at hin ⊢
    exact Chain.binds_exitScope hin
  · intro i j x hx hb
    have hin := h.kept hx hb
    rw [hsub, ← Nat.add_assoc] at hin
    rw [Machine.chain_exitScope] at hin ⊢
    exact Chain.var?_exitScope hin

end OutOfReach

theorem During.outOfReach {m₀ m : Machine} (h : During m₀ m) : OutOfReach m₀ m := by
  induction h with
  | start => exact .refl m₀
  | run hx _ hm ih => exact ih.run hx hm
  | interrupt b _ ih => exact ⟨ih.depth, ih.binds, ih.kept⟩
  | line l _ ih => exact ⟨ih.depth, ih.binds, ih.kept⟩
  | enterScope _ ih => exact ih.enterScope
  | exitScope hd _ ih => exact ih.exitScope hd
  | pushFrame k _ ih => exact ih.of_chain_eq (by simp)
  | popFrame _ ih => exact ih.of_chain_eq (by simp)
  | enterCall hc _ ih =>
    obtain ⟨-, rfl⟩ := Chain.enterCall_eq_ok.1 hc
    exact ⟨ih.depth, ih.binds, ih.kept⟩
  | exitCall _ ih => exact ⟨ih.depth, ih.binds, ih.kept⟩

namespace During

variable {m₀ m m' : Machine} {n : Nat}

theorem of_done {α : Type} {x : Run α} {a : α} (hx : x.Proper) (h : During m₀ m)
    (hm : x m = .done a m') : During m₀ m' := h.run hx (by rw [hm]; rfl)

theorem begin (s : Stmt) (h : During m₀ m) : During m₀ (m.begin s) := by
  have hnote : (Run.modify (·.note (.exec (s.line.or m.line) s.action.description))).Proper :=
    .of_congruence 0 fun hc _ => hc.weaken (hc.note fun _ => _)
  exact of_done hnote (h.line (s.line.or m.line)) rfl

theorem turns {turn : Run (Option Flow)} {k : Nat} (ht : turn.Proper) (h : During m₀ m)
    (hm : Turns turn k m m') : During m₀ m' := by
  induction hm with
  | zero => exact h
  | succ hturn _ ih => exact ih (of_done ht h hturn)

theorem forBody {init : Option Stmt} {cond : Option Expr} {next : Option Stmt} {s : Stmt}
    (h : During m₀ m) (hm : ForBody (.ofFuel n) init cond next s m m') : During m₀ m' := by
  obtain ⟨hh, -, ht, -, hcond⟩ := hm
  have hinit := of_done (.of_congruence n fun hc hr => hc.headerPart hr init)
    (h.pushFrame .loop).enterScope hh
  have hturns := turns (.of_congruence n fun hc hr => hc.weaken (hc.forTurn hr cond next s)) hinit ht
  exact of_done (.of_congruence n fun hc hr => hc.weaken (hc.holdsOr hr cond)) hturns.enterScope hcond

theorem arrives {k : Int32} {matched : Bool} {cs ds : List Case} {d : Case} (h : During m₀ m)
    (hm : Arrives (.ofFuel n) k matched cs m d ds m') : During m₀ m' := by
  have hhits (matched : Bool) (c : Case) : ((Runner.ofFuel n).hits k matched c).Proper :=
    .of_congruence n fun hc hr => hc.weaken (hc.hits hr k matched c)
  induction hm with
  | here hh => exact of_done (hhits _ _) h hh
  | miss hh _ ih => exact ih (of_done (hhits _ _) h hh)
  | fall hh hb _ _ ih =>
    have hbody := of_done (.of_congruence n fun hc hr => hc.execAll hr _)
      (of_done (hhits _ _) h hh) hb
    exact ih hbody

/-- Every part of a compound statement is met. -/
theorem reaches {a : Action} {place : Place} {s : Stmt} {close : Machine → Machine}
    (h : During m₀ m) (hm : Reaches (.ofFuel n) a m place s m' close) : During m₀ m' := by
  have hholds (cond : Expr) : ((Runner.ofFuel n).holds cond).Proper :=
    .of_congruence n fun hc hr => hc.weaken (hc.holds hr cond)
  have hall (ss : List Stmt) : ((Runner.ofFuel n).execAll ss).Proper :=
    .of_congruence n fun hc hr => hc.execAll hr ss
  cases hm with
  | element hb => exact of_done (hall _) h hb
  | thenBranch hc => exact of_done (hholds _) h.enterScope hc
  | elseBranch hc => exact of_done (hholds _) h.enterScope hc
  | whileBody _ ht _ hc =>
    have hturns := turns (.of_congruence n fun hc hr => hc.weaken (hc.whileTurn hr _ s))
      (h.pushFrame .loop).enterScope ht
    exact (of_done (hholds _) hturns hc).enterScope
  | doBody _ ht _ =>
    have hturns := turns (.of_congruence n fun hc hr => hc.weaken (hc.doTurn hr s _))
      (h.pushFrame .loop).enterScope ht
    exact hturns.enterScope
  | forInit => exact (h.pushFrame .loop).enterScope
  | forBody hb => exact h.forBody hb
  | forNext hb he =>
    exact of_done (.of_congruence n fun _ hr => hr.exec _) (h.forBody hb) he
  | caseElement hv ha _ hb =>
    have hn := of_done (.of_congruence n fun hc hr => hc.weaken (hc.evalInt hr _)) h hv
    exact of_done (hall _) ((hn.pushFrame .switch).arrives ha) hb

/-- Every statement that a body comes to is met. -/
theorem inside {j k : Nat} {s t : Stmt} {close : Machine → Machine} (h : During m₀ m)
    (hm : Inside n s m j k t m' close) : During m₀ m' := by
  induction hm with
  | here => exact h
  | within _ hr _ ih => exact ih ((h.begin _).reaches hr)

/-- Every body that a call comes to is met. -/
theorem enters {name : String} {args : List Expr} {d : Definition} (h : During m₀ m)
    (hm : Enters (.ofFuel n) name args m d m') : During m₀ m' := by
  obtain ⟨-, -, ha, hc, hp⟩ := hm
  have hnote : (Run.modify (·.note (.call name))).Proper :=
    .of_congruence 0 fun hc _ => hc.weaken (hc.note fun _ => _)
  have hargs := of_done (.of_congruence n fun hc hr => hc.weaken (hc.arguments hr d.params args))
    (of_done hnote h rfl) ha
  have hbody := ((hargs.enterCall hc).pushFrame (.call d.name d.returns)).enterScope
  exact of_done (.of_congruence n fun hc _ => hc.bindParams d.params _) hbody hp

end During

/-- The machine on which the parameters of a call are bound. -/
def Machine.openCall (m : Machine) (c : Chain) (d : Definition) : Machine :=
  ({ m with chain := c }.pushFrame (.call d.name d.returns)).enterScope

theorem Machine.current_openCall (m : Machine) (c : Chain) (d : Definition) :
    (m.openCall c d).chain.current = .empty := by
  simp [openCall, Chain.enterScope]

theorem Machine.outer_openCall {m : Machine} {c : Chain} (hc : m.chain.enterCall = .ok c)
    (d : Definition) : (m.openCall c d).chain.outer = m.chain.scopes := by
  obtain ⟨-, rfl⟩ := Chain.enterCall_eq_ok.1 hc
  simp [openCall, Chain.enterScope, Chain.scopes]

/-- The scope of the parameters is within those of the caller. -/
structure Bound (d : Definition) (values : List Value) (m₁ m₀ : Machine) : Prop where
  current : m₀.chain.current.vars = boundTo d.params values
  outer : m₀.chain.outer = m₁.chain.scopes

namespace Bound

variable {d : Definition} {values : List Value} {m m₀ m₁ m₂ : Machine}

theorem of_bindParams {c : Chain} (hl : values.length = d.params.length)
    (hc : m₁.chain.enterCall = .ok c)
    (hp : Runner.bindParams d.params values (m₁.openCall c d) = .done () m₀) :
    Bound d values m₁ m₀ where
  current := by
    rw [Runner.current_of_bindParams hl hp, Machine.current_openCall]
    rfl
  outer := by
    rw [Runner.outer_of_bindParams (by rw [hp]; rfl), Machine.outer_openCall hc]

/-- While the parameters are bound, what the caller has under their names is out of reach. -/
theorem isolates (h : Bound d values m₁ m₀) (hl : values.length = d.params.length)
    (hm : During m₀ m₂) {i j : Nat} {x : Variable} (hx : m₁.chain.var? i j = some x)
    (hn : x.name ∈ d.params.map (·.name)) :
    m₂.chain.var? (i + 1 + (m₂.chain.depth - m₀.chain.depth)) j = some x := by
  apply hm.outOfReach.kept
  · rw [Chain.var?_succ, h.outer]
    exact hx
  · refine ⟨m₀.chain.current, rfl, ?_⟩
    rw [Scope.names, h.current, names_boundTo hl]
    exact hn

end Bound

theorem Machine.var?_closeCall {m : Machine} {i j : Nat} {x : Variable}
    (h : m.chain.var? (i + 1) j = some x) : m.closeCall.chain.var? i j = some x := by
  have hexit : m.closeCall.chain = m.chain.exitScope.exitCall := by simp [closeCall]
  rw [hexit]
  exact Chain.var?_exitScope h

namespace Runner

variable {n : Nat} {d : Definition} {values : List Value} {m₁ m' : Machine}

theorem machine?_body {c : Chain} (hc : m₁.chain.enterCall = .ok c)
    (h : ((ofFuel n).body d values m₁).machine? = some m') :
    ∃ m₂, ((bindParams d.params values >>= fun _ => (ofFuel n).exec d.body)
      (m₁.openCall c d)).machine? = some m₂ ∧ m₂.closeCall = m' := by
  rw [body, Run.inCall, hc] at h
  simp only [Outcome.machine?_mapMachine, Run.underFrame, bound, Run.inScope,
    Run.bracket_machine?, Option.map_map, Option.map_eq_some_iff] at h
  exact h

/-- However a body ends, the caller has under the names of the parameters what it had before. -/
theorem body_isolates (hl : values.length = d.params.length)
    (h : ((ofFuel n).body d values m₁).machine? = some m') {i j : Nat} {x : Variable}
    (hx : m₁.chain.var? i j = some x) (hn : x.name ∈ d.params.map (·.name)) :
    m'.chain.var? i j = some x := by
  cases hc : m₁.chain.enterCall with
  | error cause =>
    rw [body, Run.inCall, hc] at h
    cases h
    exact hx
  | ok c =>
    obtain ⟨m₂, hm₂, rfl⟩ := machine?_body hc h
    apply Machine.var?_closeCall
    rcases Run.machine?_bind_eq_some hm₂ with ⟨s, hs⟩ | ⟨u, m₀, hp, hexec⟩
    · -- A parameter could not be bound.
      rw [Chain.var?_succ, outer_of_bindParams (congrArg Outcome.machine? hs),
        Machine.outer_openCall hc]
      exact hx
    · have hbound := Bound.of_bindParams hl hc hp
      have hduring : During m₀ m₂ :=
        During.start.run (.of_congruence n fun _ hr => hr.exec d.body) hexec
      have hdepth : m₂.chain.depth = m₀.chain.depth :=
        ((SameStacks.effects.ofFuel n).exec d.body hexec).depth
      have hkept := hbound.isolates hl hduring hx hn
      rwa [hdepth, Nat.sub_self] at hkept

theorem machine?_call {name : String} {args : List Expr} {m : Machine}
    (hd : m.function? name = some d) (hl : args.length = d.params.length)
    (ha : (ofFuel n).arguments d.params args (m.note (.call name)) = .done values m₁) :
    ((ofFuel n).call name args m).machine? = ((ofFuel n).body d values m₁).machine? := by
  have hnote : (m.note (.call name)).function? name = some d := by
    simpa [Machine.function?] using hd
  rw [call, Run.bind_of_done (x := Run.modify _) rfl, Run.bind_of_done (x := Run.gets _) rfl, hnote]
  simp only [hl, ne_eq, not_true_eq_false, if_false]
  rw [Run.bind_of_done ha, Run.bind_apply]
  cases (ofFuel n).body d values m₁ <;> rfl

end Runner

/-- What a call binds its parameters to, and where. -/
theorem Enters.bound {n : Nat} {name : String} {args : List Expr} {d : Definition}
    {values : List Value} {m m₀ m₁ : Machine} (h : Enters (.ofFuel n) name args m d m₀)
    (hl : values.length = d.params.length)
    (ha : (Runner.ofFuel n).arguments d.params args (m.note (.call name)) = .done values m₁) :
    Bound d values m₁ m₀ := by
  obtain ⟨-, -, ha', hc, hp⟩ := h
  rw [ha] at ha'
  obtain ⟨rfl, rfl⟩ := Outcome.done.inj ha'
  exact .of_bindParams hl hc hp

/-- A call below the limit comes to its body if its parameters have names of their own. -/
theorem Enters.of_arguments {n : Nat} {name : String} {args : List Expr} {d : Definition}
    {values : List Value} {m m₁ : Machine} (hd : m.function? name = some d)
    (hl : args.length = d.params.length) (hv : values.length = d.params.length)
    (ha : (Runner.ofFuel n).arguments d.params args (m.note (.call name)) = .done values m₁)
    (hc : m₁.chain.calls < m₁.chain.limit) (hn : (d.params.map (·.name)).Nodup) :
    ∃ m₀, Enters (.ofFuel n) name args m d m₀ := by
  obtain ⟨c, henter⟩ : ∃ c, m₁.chain.enterCall = .ok c := ⟨_, Chain.enterCall_eq_ok.2 ⟨hc, rfl⟩⟩
  have hfree : ((m₁.openCall c d).chain.names ++ d.params.map (·.name)).Nodup := by
    rw [Chain.names, Machine.current_openCall]
    exact hn
  obtain ⟨m₀, hp⟩ := Runner.bindParams_ends hv hfree
  exact ⟨m₀, .intro hd hl ha henter hp⟩

/-- The arguments of a call are evaluated from left to right in the scopes of the caller. Behind
them, each parameter is bound to its argument at its kind, in a scope within those of the caller,
and the call ends as its body does there. While that scope is live, and however the call ends, every
variable that the caller has under the name of a parameter stays what it is. -/
theorem calls_isolated (n : Nat) (name : String) (args : List Expr) (d : Definition)
    (values : List Value) (m m₁ : Machine) (hd : m.function? name = some d)
    (hl : args.length = d.params.length)
    (ha : (Runner.ofFuel n).arguments d.params args (m.note (.call name)) = .done values m₁) :
    (∃ vs, InOrder (.ofFuel n) m.chain.shapes args vs (m.note (.call name)) m₁ ∧
      (m₁.chain.calls < m₁.chain.limit → (d.params.map (·.name)).Nodup →
        ∃ m₀, Enters (.ofFuel n) name args m d m₀) ∧
      ∀ m₀, Enters (.ofFuel n) name args m d m₀ →
        ((Runner.ofFuel n).call name args m =
          ((Runner.ofFuel n).exec d.body m₀).andThen Machine.closeCall
            fun f => Run.bracket id Machine.closeCall (pure f.result)) ∧
        m₀.chain.current.vars = boundTo d.params vs ∧ m₀.chain.outer = m₁.chain.scopes ∧
        ∀ (m₂ : Machine) (i j : Nat) (x : Variable), During m₀ m₂ →
          m₁.chain.var? i j = some x → x.name ∈ d.params.map (·.name) →
          m₂.chain.var? (i + 1 + (m₂.chain.depth - m₀.chain.depth)) j = some x) ∧
    ∀ m', ((Runner.ofFuel n).call name args m).machine? = some m' →
      ∀ (i j : Nat) (x : Variable), m₁.chain.var? i j = some x →
        x.name ∈ d.params.map (·.name) → m'.chain.var? i j = some x := by
  obtain ⟨vs, hvs, rfl⟩ := Runner.arguments_inOrder hl ha
  have hv : (List.zipWith (fun p v => v.convert p.kind) d.params vs).length = d.params.length := by
    simp [hvs.length_eq, hl]
  rw [Machine.chain_note] at hvs
  constructor
  · refine ⟨vs, hvs, fun hc hn => Enters.of_arguments hd hl hv ha hc hn, ?_⟩
    intro m₀ he
    have hbound := he.bound hv ha
    refine ⟨he.call, ?_, hbound.outer, ?_⟩
    · rw [hbound.current, boundTo_convert]
    · intro m₂ i j x hm hx hn
      exact hbound.isolates hv hm hx hn
  · intro m' hm i j x hx hn
    rw [Runner.machine?_call hd hl ha] at hm
    exact Runner.body_isolates hv hm hx hn

def callOf (name : String) : Stmt := ⟨.expr (.call name []), none⟩

/-- A function that changes its parameter, and then calls one that changes what it finds under the
names of both. -/
def meddling : Definition :=
  ⟨1, "f", none, [⟨"x", .int⟩, ⟨"a", .int⟩],
    ⟨.block [⟨.assign "x" (.literal (.int 100)), none⟩, callOf "g"], none⟩⟩

def meddled : Definition :=
  ⟨2, "g", none, [], ⟨.block [⟨.expr (.unary .preInc (.ident "x")), none⟩,
    ⟨.assign "a" (.literal (.int 3)), none⟩], none⟩⟩

def zeros : Variable := .array "a" ⟨.int, #[.int 0, .int 0]⟩ .none

def Machine.ofMeddling (x : Int32) : Machine :=
  { Machine.new 9 .report false [] with
    functions := [meddling, meddled]
    chain := { Chain.new 9 with current := ⟨[.scalar "x" .int (.int x) .none, zeros]⟩ } }

def Machine.inMeddling (x : Int32) : Machine :=
  let m := (Machine.ofMeddling 6).openCall { Chain.new 9 with calls := 1 } meddling
  { m with
    chain := { m.chain with
      current := ⟨[.scalar "x" .int (.int x) .none, .scalar "a" .int (.int 6) .none]⟩
      outer := (Machine.ofMeddling 6).chain.scopes } }

/-- The arguments of `f(x++, x)`. -/
def meddlingArgs : List Expr := [.unary .postInc (.ident "x"), .ident "x"]

theorem calls_isolated_meddling : ∃ (m₀ m₂ m₃ m' : Machine) (close : Machine → Machine),
    Enters (.ofFuel 9) "f" meddlingArgs (.ofMeddling 5) meddling m₀ ∧
    m₀.chain.current.vars = [.scalar "x" .int (.int 5) .none, .scalar "a" .int (.int 6) .none] ∧
    Inside 9 meddling.body m₀ 0 8 (callOf "g") m₂ close ∧
    Enters (.ofFuel 7) "g" [] (m₂.begin (callOf "g")) meddled m₃ ∧
    m₃.chain.var? 2 1 = some zeros ∧
    ((Runner.ofFuel 9).call "f" meddlingArgs (.ofMeddling 5)).machine? = some m' ∧
    m'.chain.var? 0 0 = some (.scalar "x" .int (.int 6) .none) ∧
    m'.chain.var? 0 1 = some zeros := by
  have ha : (Runner.ofFuel 9).arguments meddling.params meddlingArgs
      ((Machine.ofMeddling 5).note (.call "f")) = .done [.int 5, .int 6] (.ofMeddling 6) := rfl
  obtain ⟨⟨vs, -, -, hduring⟩, hcall⟩ :=
    calls_isolated 9 "f" meddlingArgs meddling _ (.ofMeddling 5) _ rfl rfl ha
  have hends : ((Runner.ofFuel 9).call "f" meddlingArgs (.ofMeddling 5)).machine?.isSome := by
    decide +kernel
  obtain ⟨m', hm'⟩ := Option.isSome_iff_exists.1 hends
  have hf : Enters (.ofFuel 9) "f" meddlingArgs (.ofMeddling 5) meddling (.inMeddling 5) :=
    .intro rfl rfl ha rfl rfl
  have hreaches : Reaches (.ofFuel 8) meddling.body.action
      ((Machine.inMeddling 5).begin meddling.body) .inner (callOf "g") (.inMeddling 100) id :=
    @Reaches.element _ [⟨.assign "x" (.literal (.int 100)), none⟩] [] _ _ _ rfl
  have hin := Inside.within rfl hreaches .here
  have hg : Enters (.ofFuel 7) "g" [] ((Machine.inMeddling 100).begin (callOf "g")) meddled _ :=
    .intro rfl rfl rfl rfl rfl
  have hmet := ((During.start.inside hin).begin (callOf "g")).enters hg
  obtain ⟨-, -, -, hkept⟩ := hduring _ hf
  exact ⟨_, _, _, m', _, hf, rfl, hin, hg, hkept _ 0 1 zeros hmet rfl (by decide), hm',
    hcall m' hm' 0 0 _ rfl (by decide), hcall m' hm' 0 1 _ rfl (by decide)⟩

end Yap
