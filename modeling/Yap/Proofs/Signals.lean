import Yap.Proofs.Parts

/-! How a break or a return travels outward: from the part of a compound statement that ends with
it to the end of that statement, and from there to the call around it. -/
namespace Yap

/-- Where an interruption was asked for no statement begins. -/
theorem Stmt.exec_of_interrupted (n : Nat) (s : Stmt) {m : Machine} (hi : m.interrupted = true) :
    s.exec (n + 1) m = .stopped .interrupted m := by
  have hcheck : Run.checkInterrupt m = .stopped .interrupted m := by
    rw [Run.checkInterrupt, Run.bind_of_done (x := Run.gets _) rfl, hi]
    rfl
  rw [Stmt.exec_succ, Runner.execNode, Run.bind_apply, hcheck]

theorem Stmt.exec_begin (n : Nat) (c : Stmt) {m : Machine} (hi : m.interrupted = false) :
    c.exec (n + 1) m = (((Runner.ofFuel n).act c.action (m.begin c)).mapMachine
      fun m' => { m' with line := m.line }).mapStop (·.orLine (c.line.or m.line)) := by
  rw [Stmt.exec_succ, Runner.execNode, Run.bind_of_done (checkInterrupt_of_not hi)]
  rfl

theorem Stmt.exec_eq_done {n : Nat} {c : Stmt} {m m' : Machine} {f : Flow}
    (hi : m.interrupted = false) : c.exec (n + 1) m = .done f m' ↔
      ∃ m₁, (Runner.ofFuel n).act c.action (m.begin c) = .done f m₁ ∧
        { m₁ with line := m.line } = m' := by
  rw [Stmt.exec_begin n c hi, Outcome.mapStop_eq_done, Outcome.mapMachine_eq_done]

/-- From a statement to one somewhere in it, under so many headers. -/
inductive Inside : Nat → Stmt → Machine → Nat → Nat → Stmt → Machine → (Machine → Machine) → Prop
  | here {n : Nat} {s : Stmt} {m : Machine} : Inside n s m 0 n s m id
  | within {n k : Nat} {c s t : Stmt} {m m₁ m₂ : Machine} {j : Nat} {place : Place}
      {close close' : Machine → Machine} : m.interrupted = false →
      Reaches (.ofFuel n) c.action (m.begin c) place s m₁ close →
      Inside n s m₁ j k t m₂ close' →
      Inside (n + 1) c m (place.headers + j) k t m₂
        fun m' => { close (close' m') with line := m.line }

namespace Inside

variable {n k j : Nat} {s t : Stmt} {m m' m'' : Machine} {close : Machine → Machine}

theorem entered_close (h : Inside n s m j k t m' close) (m'' : Machine) :
    (close m'').chain.entered = m''.chain.entered := by
  induction h with
  | here => rfl
  | within _ hr _ ih => exact (hr.entered_close _).trans ih

theorem giveBack {v : Option Value} (h : Inside n s m j k t m' close) (hj : j = 0)
    (ht : t.exec k m' = .done (.giveBack v) m'') :
    s.exec n m = .done (.giveBack v) (close m'') := by
  induction h with
  | here => exact ht
  | @within n k c s t m m₁ m₂ j place close close' hi hr hin ih =>
    cases place with
    | header =>
      simp only [Place.headers] at hj
      omega
    | inner =>
      have hs := ih (by simpa [Place.headers] using hj) ht
      have ha := hr.passes (SameStacks.effects.ofFuel n) hs (by simp)
      rw [Action.passes_giveBack] at ha
      exact (Stmt.exec_eq_done hi).2 ⟨_, ha, rfl⟩

theorem grows {f g : Flow} {m₁ : Machine} (h : Inside n s m j k t m' close)
    (ht : t.exec k m' = .done f m'') (hs : s.exec n m = .done g m₁) :
    m''.chain.entered + j ≤ m₁.chain.entered := by
  induction h generalizing g m₁ with
  | here =>
    rw [ht] at hs
    cases hs
    exact Nat.le_refl _
  | within hi hr _ ih =>
    obtain ⟨m₂, ha, rfl⟩ := (Stmt.exec_eq_done hi).1 hs
    obtain ⟨g', m₃, hs', hg⟩ := hr.grows (SameStacks.effects.ofFuel _) ha
    have he := ih ht hs'
    show _ ≤ m₂.chain.entered
    omega

end Inside

namespace Machine

def closeCall (m : Machine) : Machine :=
  let m := m.exitScope.popFrame
  { m with chain := m.chain.exitCall }

@[simp] theorem entered_closeCall (m : Machine) :
    m.closeCall.chain.entered = m.chain.entered := by simp [closeCall, Chain.exitCall]

end Machine

/-- A call comes to the body of its function. -/
inductive Enters (r : Runner) (name : String) (args : List Expr) (m : Machine) (d : Definition)
    (m' : Machine) : Prop
  | intro {values : List Value} {m₁ : Machine} {chain : Chain} : m.function? name = some d →
      args.length = d.params.length →
      r.arguments d.params args (m.note (.call name)) = .done values m₁ →
      m₁.chain.enterCall = .ok chain →
      Runner.bindParams d.params values
        (({ m₁ with chain := chain }.pushFrame (.call d.name d.returns)).enterScope) =
          .done () m' →
      Enters r name args m d m'

theorem Enters.call {r : Runner} {name : String} {args : List Expr} {m m' : Machine}
    {d : Definition} (h : Enters r name args m d m') :
    r.call name args m = (r.exec d.body m').andThen Machine.closeCall
      fun f => Run.bracket id Machine.closeCall (pure f.result) := by
  obtain ⟨hd, hl, ha, hc, hp⟩ := h
  rename_i values m₁ chain
  have hname : (m.note (.call name)).function? name = some d := by
    simpa [Machine.function?] using hd
  have hbody : r.body d values m₁ = (r.exec d.body m').mapMachine Machine.closeCall := by
    rw [Runner.body, Run.inCall, hc]
    show (((( Runner.bindParams d.params values >>= fun _ => r.exec d.body) _).mapMachine
      Machine.exitScope).mapMachine Machine.popFrame).mapMachine _ = _
    rw [Run.bind_of_done hp, Outcome.mapMachine_mapMachine, Outcome.mapMachine_mapMachine]
    rfl
  rw [Runner.call, Run.bind_of_done (x := Run.modify _) rfl,
    Run.bind_of_done (x := Run.gets _) rfl, hname]
  simp only [hl, ne_eq, not_true_eq_false, if_false]
  rw [Run.bind_of_done ha, Run.bind_apply, hbody]
  cases r.exec d.body m' <;> rfl

theorem Enters.call_eq_done {n k j : Nat} {name : String} {args : List Expr} {d : Definition}
    {t : Stmt} {m m₁ m₂ m₃ : Machine} {close : Machine → Machine} {v : Option Value}
    (he : Enters (.ofFuel n) name args m d m₁) (hin : Inside n d.body m₁ j k t m₂ close)
    (ht : t.exec k m₂ = .done (.giveBack v) m₃) :
    (Runner.ofFuel n).call name args m = .done v (close m₃).closeCall ↔ j = 0 := by
  rw [he.call]
  constructor
  · intro hc
    obtain ⟨f, m', hs, hm'⟩ := Outcome.andThen_eq_done hc
    have hg := hin.grows ht hs
    have hm : m'.closeCall = (close m₃).closeCall := (Outcome.done.inj hm').2
    have hentered : m'.chain.entered = m₃.chain.entered := by
      rw [← hin.entered_close m₃, ← Machine.entered_closeCall, hm, Machine.entered_closeCall]
    omega
  · intro hj
    show ((d.body.exec n m₁).andThen _ _) = _
    rw [hin.giveBack hj ht]
    rfl

/-- A break or return of a part ends its compound statement at once, and a break ends a loop or
switch normally, exactly if the part does not stand in a header. A return in the body of a function
ends the call at once with its value, exactly if it stands in no header on the way. -/
theorem signals_pass_iff (n : Nat) :
    (∀ (c s : Stmt) (m m₁ m₂ : Machine) (place : Place) (close : Machine → Machine) (f : Flow),
      m.interrupted = false → Reaches (.ofFuel n) c.action (m.begin c) place s m₁ close →
      s.exec n m₁ = .done f m₂ → f ≠ .normal →
      (c.exec (n + 1) m = .done (c.action.passes f) { close m₂ with line := m.line } ↔
        place = .inner)) ∧
    ∀ (name : String) (args : List Expr) (d : Definition) (t : Stmt) (j k : Nat)
      (m m₁ m₂ m₃ : Machine) (close : Machine → Machine) (v : Option Value),
      Enters (.ofFuel n) name args m d m₁ → Inside n d.body m₁ j k t m₂ close →
      t.exec k m₂ = .done (.giveBack v) m₃ →
      ((Runner.ofFuel n).call name args m = .done v (close m₃).closeCall ↔ j = 0) := by
  constructor
  · intro c s m m₁ m₂ place close f hi hr hs hf
    have hrun := SameStacks.effects.ofFuel n
    rw [Stmt.exec_eq_done hi]
    constructor
    · rintro ⟨m', ha, hm'⟩
      obtain ⟨g, m₃, hs', hg⟩ := hr.grows hrun ha
      have hm : m₃ = m₂ := by
        have hsame := hs.symm.trans hs'
        cases hsame
        rfl
      have he : m'.chain.entered = m₂.chain.entered := by
        rw [← hr.entered_close m₂]
        exact congrArg (·.chain.entered) hm'
      cases place with
      | inner => rfl
      | header =>
        rw [hm, he] at hg
        simp only [Place.headers] at hg
        omega
    · rintro rfl
      exact ⟨close m₂, hr.passes hrun hs hf, rfl⟩
  · intro name args d t j k m m₁ m₂ m₃ close v he hin ht
    exact he.call_eq_done hin ht

/-- A machine that knows one function, and the one in the body of that function. -/
def Machine.ofFunction (d : Definition) : Machine :=
  { Machine.new 9 .report false [] with functions := [d] }

def Machine.inBody (d : Definition) : Machine :=
  let m := ofFunction d
  ({ m with chain := { m.chain with calls := 1 } }.pushFrame (.call d.name d.returns)).enterScope

theorem enters_inBody (d : Definition) (hd : d.params = []) (n : Nat) :
    Enters (.ofFuel n) d.name [] (.ofFunction d) d (.inBody d) := by
  have hf : (Machine.ofFunction d).function? d.name = some d := by
    simp [Machine.function?, Machine.ofFunction]
  have ha : (Runner.ofFuel n).arguments d.params []
      ((Machine.ofFunction d).note (.call d.name)) = .done [] (.ofFunction d) := by
    rw [hd]
    rfl
  have hc : (Machine.ofFunction d).chain.enterCall =
      .ok { (Machine.ofFunction d).chain with calls := 1 } := rfl
  refine .intro hf ?_ ha hc ?_
  · rw [hd]
    rfl
  · rw [hd]
    rfl

def five : Stmt := ⟨.giveBack (some (.literal (.int 5))), none⟩

/-- A function that leaves an endless loop by a return, and one with a return in a header. -/
def returnInLoop : Definition :=
  ⟨1, "f", some .int, [], ⟨.whileDo (.literal (.int 1)) five, none⟩⟩

def returnInHeader : Definition :=
  ⟨1, "f", some .int, [], ⟨.block
    [⟨.forLoop (some five) (some (.literal (.int 0))) none ⟨.block [], none⟩, none⟩,
      ⟨.giveBack (some (.literal (.int 7))), none⟩], none⟩⟩

theorem signals_pass_iff_returnInLoop :
    ∃ (m₁ m₂ : Machine) (close : Machine → Machine),
      Inside 8 returnInLoop.body (.inBody returnInLoop) 0 7 five m₁ close ∧
      five.exec 7 m₁ = .done (.giveBack (some (.int 5))) m₂ ∧
      returnInLoop.body.exec 8 (.inBody returnInLoop) =
        .done (.giveBack (some (.int 5))) (close m₂) ∧
      (Runner.ofFuel 8).call "f" [] (.ofFunction returnInLoop) =
        .done (some (.int 5)) (close m₂).closeCall := by
  let m := ((Machine.inBody returnInLoop).begin returnInLoop.body).openLoop.enterScope
  have hr : Reaches (.ofFuel 7) returnInLoop.body.action
      ((Machine.inBody returnInLoop).begin returnInLoop.body) .inner five m
      (·.exitScope.closeLoop) :=
    .whileBody (n := 0) (by decide) (.zero _) rfl rfl
  have hin := Inside.within rfl hr .here
  have hv : five.exec 7 m = .done (.giveBack (some (.int 5))) m := rfl
  have he : Enters (.ofFuel 8) "f" [] (.ofFunction returnInLoop) returnInLoop
      (.inBody returnInLoop) := enters_inBody returnInLoop rfl 8
  obtain ⟨hpart, -⟩ := signals_pass_iff 7
  obtain ⟨-, hcall⟩ := signals_pass_iff 8
  have hloop := (hpart _ _ _ _ _ _ _ _ rfl hr hv (by decide)).2 rfl
  exact ⟨m, m, _, hin, hv, hloop, (hcall _ _ _ _ _ _ _ _ _ _ _ _ he hin hv).2 rfl⟩

theorem not_signals_pass_returnInHeader :
    ∃ (m₁ m₂ m₃ : Machine) (close : Machine → Machine),
      Enters (.ofFuel 8) "f" [] (.ofFunction returnInHeader) returnInHeader
        (.inBody returnInHeader) ∧
      Inside 8 returnInHeader.body (.inBody returnInHeader) 1 6 five m₁ close ∧
      five.exec 6 m₁ = .done (.giveBack (some (.int 5))) m₂ ∧
      (Runner.ofFuel 8).call "f" [] (.ofFunction returnInHeader) = .done (some (.int 7)) m₃ := by
  have hblock : Reaches (.ofFuel 7) returnInHeader.body.action
      ((Machine.inBody returnInHeader).begin returnInHeader.body) .inner _ _ id :=
    @Reaches.element _ [] _ _ _ _ rfl
  have hin := Inside.within rfl hblock (.within rfl .forInit .here)
  have he : Enters (.ofFuel 8) "f" [] (.ofFunction returnInHeader) returnInHeader
      (.inBody returnInHeader) := enters_inBody returnInHeader rfl 8
  exact ⟨_, _, _, _, he, hin, rfl, rfl⟩

end Yap
