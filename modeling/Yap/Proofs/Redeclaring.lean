import Yap.Proofs.Constants
import Yap.Proofs.Signals

/-! Where a constant array may be replaced: only by an array declaration of its name that is
executed in its own scope. Everything else leaves all constants as they are. -/
namespace Yap

/-- A task executes an array declaration of a name in the scope it was begun in. -/
inductive Redeclares (fuel : Nat) : Task → Machine → String → Prop
  | exec {j k length : Nat} {s t : Stmt} {m m₁ m₂ : Machine} {close : Machine → Machine}
      {name : String} {kind : Kind} {modifiers : Modifiers} {init : Option (List Expr)} :
      Inside fuel s m j k t m₁ close → m₁.chain.depth = m.chain.depth →
      t.action = .declareArray name kind modifiers length init → t.exec k m₁ = .done .normal m₂ →
      Redeclares fuel (.exec s) m name
  | element {before behind : List Stmt} {s : Stmt} {m m₁ : Machine} {name : String} :
      (Runner.ofFuel fuel).execAll before m = .done .normal m₁ →
      Redeclares fuel (.exec s) m₁ name →
      Redeclares fuel (.execAll (before ++ s :: behind)) m name
  | statement {before behind : List Stmt} {s : Stmt} {m m₁ : Machine} {name : String} :
      (Runner.ofFuel fuel).executeAll before m = .done () m₁ →
      Redeclares fuel (.exec s) m₁ name →
      Redeclares fuel (.execute ⟨before ++ s :: behind⟩) m name
  | run {p : Program} {m m₁ : Machine} {name : String} : p.load m = .done () m₁ →
      Redeclares fuel (.execute p) m₁ name → Redeclares fuel (.run p) m name

namespace Redeclares

variable {n : Nat}

/-- What a part executes in the scope of the whole, the whole executes. -/
theorem within {c s : Stmt} {m m₁ : Machine} {place : Place} {close : Machine → Machine}
    {name : String} (hi : m.interrupted = false)
    (hr : Reaches (.ofFuel n) c.action (m.begin c) place s m₁ close)
    (hd : m₁.chain.depth = m.chain.depth) (h : Redeclares n (.exec s) m₁ name) :
    Redeclares (n + 1) (.exec c) m name := by
  cases h with
  | exec hin hdepth ht hdone => exact .exec (.within hi hr hin) (hdepth.trans hd) ht hdone

theorem first {s : Stmt} {ss : List Stmt} {m : Machine} {name : String}
    (h : Redeclares n (.exec s) m name) : Redeclares n (.execAll (s :: ss)) m name :=
  @element n [] ss s m m name rfl h

theorem split {ss : List Stmt} {m : Machine} {name : String}
    (h : Redeclares n (.execAll ss) m name) :
    ∃ before s behind m₁, ss = before ++ s :: behind ∧
      (Runner.ofFuel n).execAll before m = .done .normal m₁ ∧ Redeclares n (.exec s) m₁ name := by
  cases h with
  | element hb h => exact ⟨_, _, _, _, rfl, hb, h⟩

theorem cons {s : Stmt} {ss : List Stmt} {m m₁ : Machine} {name : String}
    (hs : s.exec n m = .done .normal m₁) (h : Redeclares n (.execAll ss) m₁ name) :
    Redeclares n (.execAll (s :: ss)) m name := by
  obtain ⟨before, t, behind, m₂, rfl, hb, h⟩ := h.split
  have hbefore : (Runner.ofFuel n).execAll (s :: before) m = .done .normal m₂ := by
    rw [Runner.execAll]
    exact (Run.bind_of_done hs _).trans hb
  exact .element hbefore h

theorem later {s : Stmt} {ss : List Stmt} {m m₁ : Machine} {f : Flow} {name : String}
    (hs : s.exec n m = .done f m₁) (h : Redeclares n (.execute ⟨ss⟩) m₁ name) :
    Redeclares n (.execute ⟨s :: ss⟩) m name := by
  cases h with
  | @statement before behind t _ m₂ _ hb h =>
    have hbefore : (Runner.ofFuel n).executeAll (s :: before) m = .done () m₂ := by
      rw [Runner.executeAll]
      exact (Run.bind_of_done hs _).trans hb
    exact .statement hbefore h

end Redeclares

theorem Arrives.keeps {n : Nat} {i : Int32} {matched : Bool} {cs rest : List Case} {c : Case}
    {m m' : Machine} (h : Arrives (.ofFuel n) i matched cs m c rest m') : SameStacks m m' := by
  have hc := SameStacks.effects.congruence
  have hr := SameStacks.effects.ofFuel n
  have hhits (matched : Bool) (c : Case) :
      ((Runner.ofFuel n).hits i matched c).Keeps SameStacks := hc.hits hr i matched c
  have hbody (c : Case) : ((Runner.ofFuel n).execAll c.body).Keeps SameStacks :=
    hc.execAll hr c.body
  induction h with
  | here hh => exact (hhits _ _).of_done hh
  | miss hh _ ih => exact ((hhits _ _).of_done hh).trans ih
  | fall hh hb _ _ ih => exact ((hhits _ _).of_done hh).trans (((hbody _).of_done hb).trans ih)

namespace SameConstants

theorem declareVariable (x : Variable) : (Run.declare x).Keeps SameConstants := by
  intro m m' h
  cases hd : m.chain.declare x with
  | ok c =>
    simp only [Run.declare, hd] at h
    cases h
    exact declare hd
  | error c =>
    simp only [Run.declare, hd] at h
    cases h
    exact of_chain_eq rfl

theorem declareScalar (n : Nat) (name : String) (kind : Kind) (modifiers : Modifiers)
    (init : Option Expr) :
    ((Runner.ofFuel n).declare name kind modifiers init).Keeps SameConstants := by
  have hc := ConstantsBut.effects.congruence
  have hbind (v : Value) : (Run.declare (.scalar name kind v modifiers) >>= fun _ =>
      Pure.pure Flow.normal).Keeps SameConstants :=
    Run.Keeps.bind (P := SameConstants) trans (declareVariable _) fun _ => hc.done Flow.normal
  cases init with
  | none => exact hbind _
  | some e =>
    exact Run.Keeps.bind (P := SameConstants) trans (hc.evalAs (ofFuel n) e kind) hbind

end SameConstants

namespace ConstantsBut

/-- An array that is bound leaves all constants alone, or takes the place of one array to the
end. -/
theorem install {name : String} {kind : Kind} {modifiers : Modifiers} {length : Nat}
    {values : List Value} {m m' : Machine}
    (h : (Runner.install name kind modifiers length values m).machine? = some m') :
    SameConstants m m' ∨ Runner.install name kind modifiers length values m = .done () m' ∧
      ConstantsBut (· = name) m m' := by
  rw [Runner.install, Run.bind_of_done (x := Run.gets _) rfl] at h ⊢
  cases hx : m.chain.current.find? name with
  | none =>
    rw [hx] at h
    cases hb : Runner.filled? kind length values with
    | none =>
      rw [hb] at h
      cases h
      exact Or.inl (SameConstants.of_chain_eq rfl)
    | some b =>
      rw [hb] at h
      exact Or.inl (SameConstants.declareVariable _ h)
  | some x =>
    rw [hx] at h
    by_cases ha : x.isArray
    · cases hb : Runner.filled? kind length values with
      | none =>
        rw [hb] at h
        simp only [ha, if_true] at h
        exact Or.inl (effects.report _ h)
      | some b =>
        rw [hb] at h
        simp only [ha, if_true] at h
        cases h
        refine Or.inr ⟨by simp only [ha, if_true]; rfl, ?_⟩
        have hreplace : ConstantsBut (· = name) m
            { m with chain := m.chain.replaceCurrent (.array name b modifiers) } :=
          replaceCurrent (y := .array name b modifiers) fun y hy => by
            obtain rfl := Option.some.inj (hx.symm.trans hy)
            exact ha
        exact hreplace
    · simp only [ha] at h
      cases h
      exact Or.inl (SameConstants.of_chain_eq rfl)

theorem declareArray {n : Nat} {name : String} {kind : Kind} {modifiers : Modifiers}
    {length : Nat} {init : List Expr} {m m' : Machine}
    (h : ((Runner.ofFuel n).declareArray name kind modifiers length init m).machine? = some m') :
    SameConstants m m' ∨
      (Runner.ofFuel n).declareArray name kind modifiers length init m = .done .normal m' ∧
        ConstantsBut (· = name) m m' := by
  have hc := effects.congruence
  have hinit : ((Runner.ofFuel n).evalAll kind init).Keeps SameConstants :=
    hc.evalAll (SameConstants.ofFuel n) kind init
  rw [Runner.declareArray] at h ⊢
  by_cases hl : length < init.length
  · rw [if_pos hl] at h
    cases h
    exact Or.inl (SameConstants.of_chain_eq rfl)
  · rw [if_neg hl] at h ⊢
    rcases Run.machine?_bind_eq_some h with ⟨s, hs⟩ | ⟨values, m₁, hv, h⟩
    · exact Or.inl (hinit.of_stopped hs)
    have hsame := hinit.of_done hv
    have hinstalled : (Runner.install name kind modifiers length values m₁).machine? = some m' := by
      rcases Run.machine?_bind_eq_some h with ⟨s, hs⟩ | ⟨u, m₂, hu, h⟩
      · rw [hs]
        rfl
      · cases h
        rw [hu]
        rfl
    rcases install hinstalled with hconst | ⟨hdone, hbut⟩
    · exact Or.inl (hsame.trans hconst)
    · refine Or.inr ⟨?_, (hsame.but _).trans hbut⟩
      rw [Run.bind_of_done hv, Run.bind_of_done hdone]
      rfl

section Statements

variable {n : Nat} (hs : ∀ (s : Stmt) (m m' : Machine), (s.exec n m).machine? = some m' →
  ConstantsBut (Redeclares n (.exec s) m) m m')
include hs

theorem execAll {ss : List Stmt} {m m' : Machine}
    (h : ((Runner.ofFuel n).execAll ss m).machine? = some m') :
    ConstantsBut (Redeclares n (.execAll ss) m) m m' := by
  induction ss generalizing m with
  | nil =>
    cases h
    exact (SameConstants.of_chain_eq rfl).but _
  | cons s ss ih =>
    have hfirst {m₁ : Machine} (h₁ : (s.exec n m).machine? = some m₁) :
        ConstantsBut (Redeclares n (.execAll (s :: ss)) m) m m₁ :=
      (hs s m m₁ h₁).mono fun name hname => hname.first
    rcases Run.machine?_bind_eq_some h with ⟨t, ht⟩ | ⟨f, m₁, hf, h⟩
    · exact hfirst (congrArg Outcome.machine? ht)
    have hm₁ := hfirst (congrArg Outcome.machine? hf)
    by_cases hn : f = .normal
    · subst hn
      exact hm₁.trans ((ih h).mono fun name hname => .cons hf hname)
    · rw [Flow.andThen_of_ne hn] at h
      cases h
      exact hm₁

/-- The names of arrays that cases redeclare are those that the bodies they come to do. -/
theorem runCases {i : Int32} {matched : Bool} {cs : List Case} {m m' : Machine}
    (h : ((Runner.ofFuel n).runCases i matched cs m).machine? = some m') :
    ConstantsBut (fun name => ∃ c rest m₁, Arrives (.ofFuel n) i matched cs m c rest m₁ ∧
      Redeclares n (.execAll c.body) m₁ name) m m' := by
  have hc := effects.congruence
  induction cs generalizing matched m with
  | nil =>
    cases h
    exact (SameConstants.of_chain_eq rfl).but _
  | cons c cs ih =>
    have hhits : ((Runner.ofFuel n).hits i matched c).Keeps SameConstants :=
      hc.hits (SameConstants.ofFuel n) i matched c
    rcases Run.machine?_bind_eq_some h with ⟨t, ht⟩ | ⟨hit, m₁, hh, h⟩
    · exact (hhits.of_stopped ht).but _
    refine ((hhits.of_done hh).but _).trans ?_
    cases hit with
    | false =>
      refine (ih h).mono ?_
      rintro name ⟨d, ds, m₂, hd, hname⟩
      exact ⟨d, ds, m₂, .miss hh hd, hname⟩
    | true =>
      have hnames (name : String) (hname : Redeclares n (.execAll c.body) m₁ name) :
          ∃ d rest m₂, Arrives (.ofFuel n) i matched (c :: cs) m d rest m₂ ∧
            Redeclares n (.execAll d.body) m₂ name := ⟨c, cs, m₁, .here hh, hname⟩
      rcases Run.machine?_bind_eq_some h with ⟨t, ht⟩ | ⟨f, m₂, hf, h⟩
      · exact (execAll hs (congrArg Outcome.machine? ht)).mono hnames
      refine ((execAll hs (congrArg Outcome.machine? hf)).mono hnames).trans ?_
      by_cases hlast : f = .normal ∧ c.label.isNone = false
      · obtain ⟨rfl, hl⟩ := hlast
        simp only [Runner.afterCase, hl] at h
        refine (ih h).mono ?_
        rintro name ⟨d, ds, m₃, hd, hname⟩
        exact ⟨d, ds, m₃, .fall hh hf hl hd, hname⟩
      · have hend : m' = m₂ := by
          cases f with
          | normal =>
            have hl : c.label.isNone = true := by simpa using hlast
            simp only [Runner.afterCase, hl, if_true] at h
            cases h
            rfl
          | leave => cases h; rfl
          | giveBack v => cases h; rfl
        rw [hend]
        exact (SameConstants.of_chain_eq rfl).but _

end Statements
end ConstantsBut

namespace ConstantsBut

section Statements

variable {n : Nat} (hs : ∀ (s : Stmt) (m m' : Machine), (s.exec n m).machine? = some m' →
  ConstantsBut (Redeclares n (.exec s) m) m m')
include hs

theorem block {body : List Stmt} {line : Option Line} {m m' : Machine}
    (hi : m.interrupted = false)
    (h : ((Runner.ofFuel n).execAll body (m.begin ⟨.block body, line⟩)).machine? = some m') :
    ConstantsBut (Redeclares (n + 1) (.exec ⟨.block body, line⟩) m) m m' := by
  have hbegin : SameConstants m (m.begin ⟨.block body, line⟩) :=
    SameConstants.of_chain_eq (by simp [Machine.begin])
  refine (hbegin.but _).trans ((execAll hs h).mono fun name hname => ?_)
  obtain ⟨before, s, behind, m₁, rfl, hb, hname⟩ := hname.split
  have hdepth := (SameStacks.effects.congruence.execAll (SameStacks.effects.ofFuel n) before :
    Run.Keeps SameStacks _).of_done hb
  refine .within hi (.element hb) ?_ hname
  rw [hdepth.depth]
  simp [Machine.begin]

theorem switch {scrutinee : Expr} {cases : List Case} {line : Option Line} {m m' : Machine}
    (hi : m.interrupted = false)
    (h : ((Runner.ofFuel n).switch scrutinee cases
      (m.begin ⟨.switch scrutinee cases, line⟩)).machine? = some m') :
    ConstantsBut (Redeclares (n + 1) (.exec ⟨.switch scrutinee cases, line⟩) m) m m' := by
  have hc := effects.congruence
  have hstacks := SameStacks.effects.congruence
  have hbegin : SameConstants m (m.begin ⟨.switch scrutinee cases, line⟩) :=
    SameConstants.of_chain_eq (by simp [Machine.begin])
  have hvalue : ((Runner.ofFuel n).evalInt scrutinee).Keeps SameConstants :=
    hc.evalInt (SameConstants.ofFuel n) scrutinee
  refine (hbegin.but _).trans ?_
  rcases Run.machine?_bind_eq_some h with ⟨t, ht⟩ | ⟨i, m₀, hv, h⟩
  · exact (hvalue.of_stopped ht).but _
  refine ((hvalue.of_done hv).but _).trans ?_
  rw [Run.underFrame, Run.bracket_machine?] at h
  obtain ⟨m₁, hm₁, rfl⟩ := Option.map_eq_some_iff.1 h
  have hcases := runCases hs hm₁
  have hframe : ConstantsBut (Redeclares (n + 1) (.exec ⟨.switch scrutinee cases, line⟩) m)
      (m₀.pushFrame .switch) m₁ := by
    refine hcases.mono ?_
    rintro name ⟨c, rest, m₂, harrive, hname⟩
    obtain ⟨before, s, behind, m₃, hbody, hb, hname⟩ := hname.split
    have h₀ := (hstacks.evalInt (SameStacks.effects.ofFuel n) scrutinee :
      Run.Keeps SameStacks _).of_done hv
    have h₃ := (hstacks.execAll (SameStacks.effects.ofFuel n) before :
      Run.Keeps SameStacks _).of_done hb
    refine .within hi (.caseElement hv harrive hbody hb) ?_ hname
    rw [h₃.depth, harrive.keeps.depth, Machine.chain_pushFrame, h₀.depth]
    simp [Machine.begin]
  simpa [ConstantsBut] using hframe

theorem act {s : Stmt} {m m' : Machine} (hi : m.interrupted = false)
    (h : ((Runner.ofFuel n).act s.action (m.begin s)).machine? = some m') :
    ConstantsBut (Redeclares (n + 1) (.exec s) m) m m' := by
  have hc := effects.congruence
  have hr := SameConstants.ofFuel n
  have hbegin : SameConstants m (m.begin s) := SameConstants.of_chain_eq (by simp [Machine.begin])
  have hplain {x : Run Flow} (hx : x.Keeps SameConstants)
      (hm : (x (m.begin s)).machine? = some m') :
      ConstantsBut (Redeclares (n + 1) (.exec s) m) m m' := (hbegin.trans (hx hm)).but _
  obtain ⟨action, line⟩ := s
  cases action with
  | declare name kind modifiers init =>
    exact hplain (SameConstants.declareScalar n name kind modifiers init) h
  | declareArray name kind modifiers length init =>
    rcases declareArray h with hsame | ⟨hdone, hbut⟩
    · exact (hbegin.trans hsame).but _
    · have hexec := (Stmt.exec_eq_done (c := ⟨.declareArray name kind modifiers length init, line⟩)
        hi).2 ⟨m', hdone, rfl⟩
      refine ((hbegin.but _).trans hbut).mono ?_
      rintro _ rfl
      exact .exec .here rfl rfl hexec
  | assign name value => exact hplain (hc.assign hr name value) h
  | assignElement name index value =>
    exact hplain (SameConstants.assignElement hr name index value) h
  | expr e => exact hplain (hc.discard hr e) h
  | ifElse _ _ _ => exact hplain (hc.actScoped hr rfl) h
  | whileDo _ _ => exact hplain (hc.actScoped hr rfl) h
  | doWhile _ _ => exact hplain (hc.actScoped hr rfl) h
  | forLoop _ _ _ _ => exact hplain (hc.actScoped hr rfl) h
  | switch scrutinee cases => exact switch hs hi h
  | leave => exact hplain hc.leave h
  | giveBack value => exact hplain (hc.giveBack hr value) h
  | define d => exact hplain (SameConstants.define d) h
  | print e => exact hplain (hc.print hr .out e) h
  | printError e => exact hplain (hc.print hr .err e) h
  | block body => exact block hs hi h

end Statements

/-- The constants behind a statement are those before it, but for arrays that it redeclares. -/
theorem exec {n : Nat} {s : Stmt} {m m' : Machine} (h : (s.exec n m).machine? = some m') :
    ConstantsBut (Redeclares n (.exec s) m) m m' := by
  induction n generalizing s m m' with
  | zero => cases h
  | succ n ih =>
    by_cases hi : m.interrupted
    · have hstop : s.exec (n + 1) m = .stopped .interrupted m := by
        rw [Stmt.exec_succ, Runner.execNode, Run.checkInterrupt, Run.bind_assoc_run,
          Run.bind_of_done (x := Run.gets _) rfl, hi]
        rfl
      rw [hstop] at h
      cases h
      exact (SameConstants.of_chain_eq rfl).but _
    · have hi' : m.interrupted = false := by simpa using hi
      rw [Stmt.exec_begin n s hi', Outcome.machine?_mapStop, Outcome.machine?_mapMachine] at h
      obtain ⟨m₁, hm₁, rfl⟩ := Option.map_eq_some_iff.1 h
      have hact := act (fun s m m' => ih) hi' hm₁
      exact hact

end ConstantsBut

namespace SameConstants

theorem loadAll (ss : List Stmt) : (Stmt.loadAll ss).Keeps SameConstants := by
  have hc := ConstantsBut.effects.congruence
  have hline (l : Option Line) : (Run.modify fun m => { m with line := l }).Keeps SameConstants := by
    intro m m' h
    cases h
    exact of_chain_eq rfl
  induction ss with
  | nil => exact hc.done ()
  | cons s ss ih =>
    rw [Stmt.loadAll]
    dsimp only
    split
    · refine Run.Keeps.bind (P := SameConstants) trans (hline s.line) fun _ => ?_
      exact Run.Keeps.bind (P := SameConstants) trans (register _) fun _ => ih
    · exact Run.Keeps.bind (P := SameConstants) trans (hc.done ()) fun _ => ih

theorem load (p : Program) : p.load.Keeps SameConstants := by
  refine Run.Keeps.bind (P := SameConstants) trans (loadAll p.statements) fun _ => ?_
  intro m m' h
  cases h
  exact of_chain_eq rfl

end SameConstants

namespace ConstantsBut

theorem execute {n : Nat} {ss : List Stmt} {m m' : Machine}
    (h : ((Runner.ofFuel n).executeAll ss m).machine? = some m') :
    ConstantsBut (Redeclares n (.execute ⟨ss⟩) m) m m' := by
  induction ss generalizing m with
  | nil =>
    cases h
    exact (SameConstants.of_chain_eq rfl).but _
  | cons s ss ih =>
    have hnames (name : String) (hname : Redeclares n (.exec s) m name) :
        Redeclares n (.execute ⟨s :: ss⟩) m name :=
      @Redeclares.statement n [] ss s m m name rfl hname
    rcases Run.machine?_bind_eq_some h with ⟨t, ht⟩ | ⟨f, m₁, hf, h⟩
    · exact (exec (congrArg Outcome.machine? ht)).mono hnames
    refine ((exec (congrArg Outcome.machine? hf)).mono hnames).trans ((ih h).mono ?_)
    intro name hname
    exact hname.later hf

theorem task {n : Nat} {t : Task} {m m' : Machine} (h : (t.perform n m).machine? = some m') :
    ConstantsBut (Redeclares n t m) m m' := by
  have hc := effects.congruence
  have hr := SameConstants.ofFuel n
  cases t with
  | eval e => exact (hr.eval e h).but _
  | exec s => exact exec h
  | execAll ss => exact execAll (fun _ _ _ => exec) h
  | call name args => exact (hc.call hr name args h : SameConstants m m').but _
  | load p => exact (SameConstants.load p h).but _
  | execute p => exact execute h
  | run p =>
    obtain ⟨m₁, hm₁, hend⟩ := Program.machine?_exitStatus h
    have hchain : m'.chain = m₁.chain := by
      rcases hend with rfl | ⟨code, rfl⟩ <;> simp
    have hrun : ConstantsBut (Redeclares n (.run p) m) m m₁ := by
      rcases Run.machine?_bind_eq_some hm₁ with ⟨s, hs⟩ | ⟨u, m₂, hu, hm₂⟩
      · exact ((SameConstants.load p).of_stopped hs).but _
      · refine (((SameConstants.load p).of_done hu).but _).trans ((execute hm₂).mono ?_)
        intro name hname
        exact .run hu hname
    exact hrun.trans ((SameConstants.of_chain_eq hchain).but _)

end ConstantsBut

/-- However a task ends, every constant that was live at its begin is the same variable as it was,
its value or its elements included. Only an array of the scope that the task was begun in may be
another, if an array declaration of its name was executed in that scope. -/
theorem constants_kept (fuel : Nat) (t : Task) (m m' : Machine)
    (h : (t.perform fuel m).machine? = some m') (i j : Nat) (x : Variable)
    (hx : m.chain.var? i j = some x) (hc : x.modifiers.const = true) :
    m'.chain.var? i j = some x ∨
      i = 0 ∧ x.isArray = true ∧ Redeclares fuel t m x.name := by
  have hbut := ConstantsBut.task h
  exact hbut i j x hx hc

def seven : Variable := .scalar "k" .int (.int 7) { Modifiers.none with const := true }

def pair : Variable := .array "a" ⟨.int, #[.int 1, .int 2]⟩ { Modifiers.none with const := true }

def Machine.ofConstants : Machine :=
  { Machine.new 9 .report false [] with
    chain := { Chain.new 9 with current := ⟨[seven, pair]⟩ } }

def rebind : Stmt :=
  ⟨.block [⟨.declareArray "a" .int .none 3 none, none⟩,
    ⟨.assign "k" (.literal (.int 8)), none⟩], none⟩

theorem constants_kept_rebind : ∃ m' : Machine,
    ((Task.exec rebind).perform 9 .ofConstants).machine? = some m' ∧
    m'.chain.var? 0 0 = some seven ∧ m'.chain.var? 0 1 ≠ some pair ∧
    Redeclares 9 (.exec rebind) .ofConstants "a" := by
  have hends : (match ((Task.exec rebind).perform 9 .ofConstants).machine? with
      | some m => decide ((m.chain.var? 0 1).map (·.byteSize) = some 12)
      | none => false) = true := by decide +kernel
  split at hends
  · rename_i m' hm'
    have hsize := of_decide_eq_true hends
    have hpair : m'.chain.var? 0 1 ≠ some pair := by
      intro h
      rw [h] at hsize
      revert hsize
      decide
    have hseven := constants_kept 9 _ _ _ hm' 0 0 seven rfl rfl
    have hother := constants_kept 9 _ _ _ hm' 0 1 pair rfl rfl
    refine ⟨m', hm', ?_, hpair, (hother.resolve_left hpair).2.2⟩
    exact hseven.resolve_right fun h => by cases h.2.1
  · cases hends

end Yap
