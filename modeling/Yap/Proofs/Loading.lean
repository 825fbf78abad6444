import Yap.Proofs.Lines

/-! Loading registers the definitions of a program one after another, each at its line. If warnings
abort the run, it stops at the first one whose name is taken, and the line of that definition is left
behind. Main statement: apart from this, no task leaves a line. -/
namespace Yap

def Machine.functionNames (m : Machine) : List String := m.functions.map (·.name)

def Stmt.definitions (ss : List Stmt) : List (Definition × Option Line) :=
  ss.filterMap fun s =>
    match s.action with
    | .define d => some (d, s.line)
    | _ => none

/-- The first definition whose name is taken, from the start or by an earlier one. -/
def clash? (names : List String) :
    List (Definition × Option Line) → Option (Definition × Option Line)
  | [] => none
  | d :: ds => if d.1.name ∈ names then some d else clash? (names ++ [d.1.name]) ds

def Program.clash? (p : Program) (m : Machine) : Option (Definition × Option Line) :=
  if m.policy = .abort then Yap.clash? m.functionNames (Stmt.definitions p.statements) else none

def Run.loadEach : List (Definition × Option Line) → Run Unit
  | [] => pure ()
  | d :: ds => do
    Run.modify fun m => { m with line := d.2 }
    Runner.register d.1
    Run.loadEach ds

namespace Machine

theorem isSome_function? (m : Machine) (name : String) :
    (m.function? name).isSome = true ↔ name ∈ m.functionNames := by
  simp [function?, functionNames, List.find?_isSome]

@[simp] theorem functionNames_register (m : Machine) (d : Definition) :
    (m.register d).functionNames = m.functionNames ++ [d.name] := by
  simp [functionNames, register]

@[simp] theorem functionNames_record (m : Machine) (w : Warning) :
    (m.record w).functionNames = m.functionNames := by simp [functionNames]

@[simp] theorem policy_register (m : Machine) (d : Definition) :
    (m.register d).policy = m.policy := by simp [register]

def load (m : Machine) (d : Definition × Option Line) : Machine :=
  { m with line := d.2 }.register d.1

@[simp] theorem functionNames_load (m : Machine) (d : Definition × Option Line) :
    (m.load d).functionNames = m.functionNames ++ [d.1.name] := functionNames_register _ d.1

@[simp] theorem policy_load (m : Machine) (d : Definition × Option Line) :
    (m.load d).policy = m.policy := policy_register _ d.1

@[simp] theorem line_load (m : Machine) (d : Definition × Option Line) :
    (m.load d).line = d.2 := line_register _ d.1

end Machine

theorem Stmt.loadAll_eq (ss : List Stmt) : Stmt.loadAll ss = Run.loadEach (definitions ss) := by
  induction ss with
  | nil => rfl
  | cons s ss ih =>
    obtain ⟨a, l⟩ := s
    rw [loadAll, ih]
    cases a <;> rfl

namespace Run

theorem loadEach_cons (d : Definition × Option Line) (ds : List (Definition × Option Line))
    (m : Machine) : loadEach (d :: ds) m = ((if d.1.name ∈ m.functionNames then
      report (.functionRedefined d.1.name) else pure ()) >>= fun _ => loadEach ds) (m.load d) := by
  have hregister : Runner.register d.1 { m with line := d.2 } =
      (if ({ m with line := d.2 }.function? d.1.name).isSome then
        report (.functionRedefined d.1.name) else pure ()) (m.load d) := rfl
  rw [loadEach, bind_of_done (x := modify _) rfl, bind_apply, hregister, bind_apply]
  simp only [Machine.isSome_function?]
  rfl

variable {m : Machine} {d : Definition × Option Line} (ds : List (Definition × Option Line))

theorem loadEach_of_new (h : d.1.name ∉ m.functionNames) :
    loadEach (d :: ds) m = loadEach ds (m.load d) := by
  rw [loadEach_cons, if_neg h]
  rfl

theorem loadEach_of_aborts (h : d.1.name ∈ m.functionNames) (hp : m.policy = .abort) :
    loadEach (d :: ds) m =
      .stopped (.fault (.aborted (.functionRedefined d.1.name)) d.2) (m.load d) := by
  have hp' : (m.load d).policy = .abort := by rw [Machine.policy_load, hp]
  rw [loadEach_cons, if_pos h, bind_apply, report, if_pos hp', Machine.line_load]

theorem loadEach_of_taken (h : d.1.name ∈ m.functionNames) (hp : m.policy ≠ .abort) :
    loadEach (d :: ds) m = loadEach ds ((m.load d).record (.functionRedefined d.1.name)) := by
  have hp' : (m.load d).policy ≠ .abort := by rwa [Machine.policy_load]
  rw [loadEach_cons, if_pos h, bind_apply, report, if_neg hp']

/-- Loading ends at the first definition whose name is taken, if it aborts the run, and otherwise it
comes to its end. -/
theorem loadEach_ends (m : Machine) :
    (∃ d n, m.policy = .abort ∧ clash? m.functionNames ds = some d ∧ n.line = d.2 ∧
      loadEach ds m = .stopped (.fault (.aborted (.functionRedefined d.1.name)) d.2) n) ∨
    ((m.policy = .abort → clash? m.functionNames ds = none) ∧ ∃ n, loadEach ds m = .done () n) := by
  induction ds generalizing m with
  | nil => exact .inr ⟨fun _ => rfl, m, rfl⟩
  | cons d ds ih =>
    by_cases hd : d.1.name ∈ m.functionNames
    · by_cases hp : m.policy = .abort
      · refine .inl ⟨d, m.load d, hp, ?_, Machine.line_load m d, loadEach_of_aborts ds hd hp⟩
        rw [clash?, if_pos hd]
      · have hp' : ((m.load d).record (.functionRedefined d.1.name)).policy ≠ .abort := by
          rwa [Machine.policy_record, Machine.policy_load]
        rw [loadEach_of_taken ds hd hp]
        rcases ih ((m.load d).record (.functionRedefined d.1.name)) with ⟨-, -, h, -⟩ | ⟨-, hn⟩
        · exact absurd h hp'
        · exact .inr ⟨fun h => absurd h hp, hn⟩
    · have hclash : clash? m.functionNames (d :: ds) = clash? (m.load d).functionNames ds := by
        rw [clash?, if_neg hd, Machine.functionNames_load]
      rw [loadEach_of_new ds hd, hclash, ← Machine.policy_load m d]
      exact ih (m.load d)

end Run

/-- The line that a task leaves behind when it starts without one. -/
def Task.lineLeft : Task → Machine → Option Line
  | .load p, m | .run p, m => (p.clash? m).bind (·.2)
  | _, _ => none

namespace Program

/-- A load stops at the definition that clashes, or comes to its end without a line. -/
theorem load_ends (p : Program) (m : Machine) :
    (∃ d n, p.clash? m = some d ∧ n.line = d.2 ∧
      p.load m = .stopped (.fault (.aborted (.functionRedefined d.1.name)) d.2) n) ∨
    (p.clash? m = none ∧ ∃ n, p.load m = .done () n ∧ n.line = none) := by
  have hload : p.load m = (Run.loadEach (Stmt.definitions p.statements) >>= fun _ =>
      Run.modify fun m => { m with line := none }) m := by
    rw [load, Stmt.loadAll_eq]
  rw [hload, Run.bind_apply]
  rcases Run.loadEach_ends (Stmt.definitions p.statements) m with
    ⟨d, n, hp, hc, hl, hs⟩ | ⟨hc, n, hn⟩
  · refine .inl ⟨d, n, ?_, hl, ?_⟩
    · rw [clash?, if_pos hp, hc]
    · rw [hs]
  · refine .inr ⟨?_, { n with line := none }, ?_, rfl⟩
    · rw [clash?]
      split
      · exact hc ‹_›
      · rfl
    · rw [hn]
      rfl

theorem line_execute {fuel : Nat} {p : Program} : (p.execute fuel).Keeps SameLine :=
  SameLine.effects.congruence.executeAll (SameLine.effects.ofFuel fuel) p.statements

end Program

/-- A task that starts without a line ends without one, unless it loads a program and stops at a
definition that has one. -/
theorem Task.line_perform {fuel : Nat} {t : Task} {m m' : Machine} (hl : m.line = none)
    (hm : (t.perform fuel m).machine? = some m') : m'.line = t.lineLeft m := by
  have hr := SameLine.effects.ofFuel fuel
  have hc := SameLine.effects.congruence
  have hload (p : Program) {n : Machine} (hn : (p.load m).machine? = some n) :
      n.line = (p.clash? m).bind (·.2) := by
    rcases p.load_ends m with ⟨d, n', hd, hline, hs⟩ | ⟨hnone, n', hs, hline⟩
    · rw [hs] at hn
      cases hn
      rw [hd, hline]
      rfl
    · rw [hs] at hn
      cases hn
      rw [hnone, hline]
      rfl
  cases t with
  | eval e => exact (hr.eval e hm).trans hl
  | exec s => exact (hr.exec s hm).trans hl
  | execAll ss => exact (hc.execAll hr ss hm).trans hl
  | call name args => exact (hc.call hr name args hm).trans hl
  | load p => exact hload p hm
  | execute p => exact (Program.line_execute hm).trans hl
  | run p =>
    obtain ⟨n, hn, hexit⟩ := Program.machine?_exitStatus hm
    have hline : n.line = (p.clash? m).bind (·.2) := by
      rcases Run.machine?_bind_eq_some hn with ⟨s, hs⟩ | ⟨u, n', hu, hn'⟩
      · exact hload p (by rw [hs]; rfl)
      · have hafter : n.line = n'.line := Program.line_execute hn'
        rw [hafter]
        exact hload p (by rw [hu]; rfl)
    rcases hexit with rfl | ⟨code, rfl⟩
    · exact hline
    · exact (Machine.line_note n _).trans hline

/-- The machines met from one on, behind tasks that leave no line. -/
inductive Unlined (m₀ : Machine) : Machine → Prop
  | start : Unlined m₀ m₀
  | task {m m' : Machine} (fuel : Nat) (t : Task) : Unlined m₀ m → t.lineLeft m = none →
      (t.perform fuel m).machine? = some m' → Unlined m₀ m'

theorem Unlined.line {m₀ m : Machine} (h : Unlined m₀ m) (hl : m₀.line = none) : m.line = none := by
  induction h with
  | start => exact hl
  | task fuel t _ ht hm ih =>
    have hline := Task.line_perform ih hm
    exact hline.trans ht

/-- There is no line around a run: what it meets carries the line of a statement in execution, and
none if none of these has one. -/
def Run.NoLineAround {α : Type} (x : Run α) (m : Machine) : Prop :=
  ∃ es, Trail x m es ∧ (x m).faults = raised none es ∧
    ∀ m', (x m).machine? = some m' →
      m'.diagnostics.toList = m.diagnostics.toList ++ recorded none es

theorem Run.Trailed.noLineAround {α : Type} {x : Run α} (hx : x.Trailed) {m : Machine}
    (hl : m.line = none) : x.NoLineAround m := by
  obtain ⟨es, hes⟩ := hx m
  have hfaults := hes.faults
  refine ⟨es, hes, ?_, fun m' hm => ?_⟩
  · simpa [hl] using hfaults
  · have hmachine := (hes.machine hm).2
    rwa [hl] at hmachine

/-- A task that starts without a line ends without one, except for a load that is aborted by a
definition with a line whose name is taken: then this is the line at the end. If there is none at the
end, then there is none around the expressions and statements that follow, as long as no other load
ends like that. -/
theorem line_left (fuel : Nat) (t : Task) (m m' : Machine) (hl : m.line = none)
    (hm : (t.perform fuel m).machine? = some m') : m'.line = t.lineLeft m ∧
      (m'.line = none → ∀ m₁, Unlined m' m₁ → ∀ n, (∀ e : Expr, (e.eval n).NoLineAround m₁) ∧
        ∀ s : Stmt, (s.exec n).NoLineAround m₁) := by
  refine ⟨Task.line_perform hl hm, fun hnone m₁ h n => ?_⟩
  have hline : m₁.line = none := h.line hnone
  have hr := Run.Trailed.ofFuel n
  exact ⟨fun e => (hr.eval e).noLineAround hline, fun s => (hr.exec s).noLineAround hline⟩

def idle (id : Nat) (name : String) : Definition := ⟨id, name, none, [], ⟨.block [], none⟩⟩

def breaking : Program :=
  ⟨[⟨.define (idle 1 "f"), some 1⟩, ⟨.define (idle 2 "g"), some 2⟩, ⟨.leave, some 3⟩]⟩

def unlinedDivision : Stmt := ⟨.print (quotient .div), none⟩

theorem line_left_breaking : ∃ (m' : Machine) (es : List Sighting),
    ((Task.run breaking).perform 9 (.new 9 .abort false [])).machine? = some m' ∧
    m'.line = none ∧ Trail (unlinedDivision.exec 9) m' es ∧
    raised none es = [.fault (.aborted .divisionByZero) none] := by
  obtain ⟨m', hm', hfaults⟩ : ∃ m', ((Task.run breaking).perform 9
      (.new 9 .abort false [])).machine? = some m' ∧ (unlinedDivision.exec 9 m').faults =
        [.fault (.aborted .divisionByZero) none] := ⟨_, rfl, rfl⟩
  obtain ⟨hleft, hafter⟩ := line_left 9 (.run breaking) (.new 9 .abort false []) m' rfl hm'
  have hline : m'.line = none := hleft
  obtain ⟨-, hexec⟩ := hafter hline m' .start 9
  obtain ⟨es, hes, hraised, -⟩ := hexec unlinedDivision
  exact ⟨m', es, hm', hline, hes, hraised.symm.trans hfaults⟩

def clashing : Program :=
  ⟨[⟨.define (idle 1 "f"), some 1⟩, ⟨.define (idle 2 "f"), some 2⟩]⟩

theorem not_line_left_clashing : ∃ m' : Machine,
    ((Task.load clashing).perform 9 (.new 9 .abort false [])).machine? = some m' ∧
    m'.line = some 2 ∧
    ((quotient .div).eval 9 m').faults = [.fault (.aborted .divisionByZero) (some 2)] :=
  ⟨_, rfl, rfl, rfl⟩

end Yap
