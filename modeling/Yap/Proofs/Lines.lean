import Yap.Proofs.History
import Yap.Proofs.Records
import Yap.Proofs.Signals

/-! Where warnings and errors are met. The trail of a run keeps the statements in execution for each
of them, and does not look at the current line. Main statement: a warning that is recorded and an
error that is raised carry the line of the innermost of these statements that has one. -/
namespace Yap

/-- What is given a line: a warning that is recorded, or an error that is raised. -/
inductive Finding
  | warned (w : Warning)
  | raised (c : Cause)

/-- A finding with the lines of the statements in execution at that moment, the innermost first. The
statements around one another count, and those whose calls are active. -/
structure Sighting where
  finding : Finding
  within : List (Option Line)

namespace Sighting

def inside (l : Option Line) (e : Sighting) : Sighting := { e with within := e.within ++ [l] }

/-- The line of the innermost statement that has one, or the one around them all. -/
def line (around : Option Line) (e : Sighting) : Option Line := (e.within.findSome? id).or around

def diagnostic? (around : Option Line) (e : Sighting) : Option Diagnostic :=
  match e.finding with
  | .warned w => some ⟨w, e.line around⟩
  | .raised _ => none

def fault? (around : Option Line) (e : Sighting) : Option Stop :=
  match e.finding with
  | .warned _ => none
  | .raised c => some (.fault c (e.line around))

@[simp] theorem line_inside (l around : Option Line) (e : Sighting) :
    (e.inside l).line around = e.line (l.or around) := by
  have hone : [l].findSome? id = l := by cases l <;> rfl
  rw [line, inside, List.findSome?_append, hone, Option.or_assoc, line]

@[simp] theorem diagnostic?_inside (l around : Option Line) (e : Sighting) :
    (e.inside l).diagnostic? around = e.diagnostic? (l.or around) := by
  rw [diagnostic?, line_inside]
  rfl

@[simp] theorem fault?_inside (l around : Option Line) (e : Sighting) :
    (e.inside l).fault? around = e.fault? (l.or around) := by
  rw [fault?, line_inside]
  rfl

end Sighting

/-- The warnings among sightings, each at its line. -/
def recorded (around : Option Line) (es : List Sighting) : List Diagnostic :=
  es.filterMap (·.diagnostic? around)

def raised (around : Option Line) (es : List Sighting) : List Stop :=
  es.filterMap (·.fault? around)

section

variable (around : Option Line) (es fs : List Sighting)

@[simp] theorem recorded_append : recorded around (es ++ fs) =
    recorded around es ++ recorded around fs := List.filterMap_append

@[simp] theorem raised_append : raised around (es ++ fs) =
    raised around es ++ raised around fs := List.filterMap_append

@[simp] theorem recorded_inside (l : Option Line) :
    recorded around (es.map (·.inside l)) = recorded (l.or around) es := by
  have hinside : Sighting.diagnostic? around ∘ Sighting.inside l = Sighting.diagnostic? (l.or around) :=
    funext (Sighting.diagnostic?_inside l around)
  rw [recorded, List.filterMap_map]
  exact congrArg (es.filterMap ·) hinside

@[simp] theorem raised_inside (l : Option Line) :
    raised around (es.map (·.inside l)) = raised (l.or around) es := by
  have hinside : Sighting.fault? around ∘ Sighting.inside l = Sighting.fault? (l.or around) :=
    funext (Sighting.fault?_inside l around)
  rw [raised, List.filterMap_map]
  exact congrArg (es.filterMap ·) hinside

end

namespace Outcome

variable {α : Type}

def faults : Outcome α → List Stop
  | stopped (.fault c l) _ => [.fault c l]
  | _ => []

@[simp] theorem faults_mapMachine (f : Machine → Machine) (o : Outcome α) :
    (o.mapMachine f).faults = o.faults := by
  cases o with
  | done a m => rfl
  | stopped s m => cases s <;> rfl
  | outOfFuel => rfl

@[simp] theorem faults_orLine (l : Option Line) (o : Outcome α) :
    (o.mapStop (·.orLine l)).faults = o.faults.map (·.orLine l) := by
  cases o with
  | done a m => rfl
  | stopped s m =>
    cases s with
    | fault c k => cases k <;> rfl
    | interrupted => rfl
    | exit code => rfl
  | outOfFuel => rfl

end Outcome

structure SameMarks (m n : Machine) : Prop where
  line : n.line = m.line
  diagnostics : n.diagnostics = m.diagnostics

namespace SameMarks

theorem refl (m : Machine) : SameMarks m m := ⟨rfl, rfl⟩

theorem of_quiet {m n : Machine} (h : Quiet m n) (hl : n.line = m.line) : SameMarks m n :=
  ⟨hl, h.diagnostics⟩

theorem note (m : Machine) (e : Event) : SameMarks m (m.note e) :=
  .of_quiet (.note m e) (Machine.line_note m e)

theorem enterScope (m : Machine) : SameMarks m m.enterScope :=
  .of_quiet (.enterScope m) (Machine.line_enterScope m)

theorem exitScope (m : Machine) : SameMarks m m.exitScope :=
  .of_quiet (.exitScope m) (Machine.line_exitScope m)

theorem pushFrame (m : Machine) (k : FrameKind) : SameMarks m (m.pushFrame k) :=
  .of_quiet (.pushFrame m k) (Machine.line_pushFrame m k)

theorem popFrame (m : Machine) : SameMarks m m.popFrame :=
  .of_quiet (.popFrame m) (Machine.line_popFrame m)

theorem replaceArray (m : Machine) (x : Variable) (length : Nat) :
    SameMarks m (m.replaceArray x length) :=
  .of_quiet (.replaceArray m x length) (by simp [Machine.replaceArray])

theorem register (m : Machine) (d : Definition) : SameMarks m (m.register d) where
  line := Machine.line_register m d
  diagnostics := by simp [Machine.register]

end SameMarks

/-- The trail of a run from a machine on: the warnings that it records and the error that it raises,
in order. It is put together from the trails of the parts of the run that are carried out; what is met
at a line is met within one more statement. -/
inductive Trail : {α : Type} → Run α → Machine → List Sighting → Prop
  | quiet {α : Type} {x : Run α} {m : Machine} : (x m).faults = [] →
      (∀ m', (x m).machine? = some m' → SameMarks m m') → Trail x m []
  | fail {α : Type} (c : Cause) (m : Machine) : Trail (Run.fail c : Run α) m [⟨.raised c, []⟩]
  | warned (w : Warning) {m : Machine} : m.policy ≠ .abort →
      Trail (Run.report w) m [⟨.warned w, []⟩]
  | aborted (w : Warning) {m : Machine} : m.policy = .abort →
      Trail (Run.report w) m [⟨.raised (.aborted w), []⟩]
  | bind {α β : Type} {x : Run α} {f : α → Run β} {m n : Machine} {a : α} {es fs : List Sighting} :
      Trail x m es → x m = .done a n → Trail (f a) n fs → Trail (x >>= f) m (es ++ fs)
  | cut {α β : Type} {x : Run α} {f : α → Run β} {m : Machine} {es : List Sighting} :
      Trail x m es → (∀ a n, x m ≠ .done a n) → Trail (x >>= f) m es
  | bracket {α : Type} {up down : Machine → Machine} {x : Run α} {m : Machine}
      {es : List Sighting} : (∀ n, SameMarks n (up n)) → (∀ n, SameMarks n (down n)) →
      Trail x (up m) es → Trail (Run.bracket up down x) m es
  | atLine {α : Type} (l : Option Line) {x : Run α} {m : Machine} {es : List Sighting} :
      Trail x { m with line := l.or m.line } es → Trail (Run.atLine l x) m (es.map (·.inside l))

namespace Trail

variable {α : Type}

/-- The trail is empty where a run ends without an error and the marks stay as they are. -/
theorem of_done {x : Run α} {a : α} {m n : Machine} (hx : x m = .done a n) (h : SameMarks m n) :
    Trail x m [] := by
  refine .quiet (by rw [hx]; rfl) fun m' hm => ?_
  rw [hx] at hm
  cases hm
  exact h

/-- A run leaves the line as it was, and its trail tells what it adds to the warnings. -/
theorem machine {x : Run α} {m m' : Machine} {es : List Sighting} (h : Trail x m es)
    (hm : (x m).machine? = some m') : m'.line = m.line ∧
      m'.diagnostics.toList = m.diagnostics.toList ++ recorded m.line es := by
  induction h generalizing m' with
  | quiet _ hsame =>
    obtain ⟨hl, hd⟩ := hsame m' hm
    simp [hl, hd, recorded]
  | fail c m =>
    cases hm
    simp [recorded, Sighting.diagnostic?]
  | warned w hp =>
    rw [Run.report, if_neg hp] at hm
    cases hm
    simp [recorded, Sighting.diagnostic?, Sighting.line]
  | aborted w hp =>
    rw [Run.report, if_pos hp] at hm
    cases hm
    simp [recorded, Sighting.diagnostic?]
  | bind _ hn _ ihx ihf =>
    rw [Run.bind_of_done hn] at hm
    obtain ⟨hl, hd⟩ := ihx (by rw [hn]; rfl)
    obtain ⟨hl', hd'⟩ := ihf hm
    rw [hl', hd', hl, hd, recorded_append, List.append_assoc]
    exact ⟨rfl, rfl⟩
  | cut _ hc ih =>
    rcases Run.machine?_bind_eq_some hm with ⟨s, hs⟩ | ⟨a, n, ha, -⟩
    · exact ih (by rw [hs]; rfl)
    · exact absurd ha (hc a n)
  | @bracket _ up down x m es hu hd _ ih =>
    rw [Run.bracket_machine?] at hm
    obtain ⟨n, hn, rfl⟩ := Option.map_eq_some_iff.1 hm
    obtain ⟨hl', hd'⟩ := ih hn
    rw [(hd n).line, (hd n).diagnostics, hl', hd', (hu m).line, (hu m).diagnostics]
    exact ⟨rfl, rfl⟩
  | atLine l _ ih =>
    obtain ⟨n, hn, rfl⟩ := Run.machine?_atLine_eq_some.1 hm
    obtain ⟨-, hd⟩ := ih hn
    rw [recorded_inside]
    exact ⟨rfl, hd⟩

/-- The trail tells the error that a run ends with, once that has been given the line around. -/
theorem faults {x : Run α} {m : Machine} {es : List Sighting} (h : Trail x m es) :
    (x m).faults.map (·.orLine m.line) = raised m.line es := by
  induction h with
  | quiet hf _ => simp [hf, raised]
  | fail c m => rfl
  | @warned w m hp =>
    rw [Run.report, if_neg hp]
    rfl
  | @aborted w m hp =>
    rw [Run.report, if_pos hp]
    cases hl : m.line <;> rfl
  | bind hx hn _ ihx ihf =>
    have hline := (hx.machine (by rw [hn]; rfl)).1
    rw [Run.bind_of_done hn, raised_append, ← ihx, hn, ← hline, ihf]
    rfl
  | @cut _ _ x f m es _ hc ih =>
    rw [← ih, Run.bind_apply]
    cases hn : x m with
    | done a n => exact absurd hn (hc a n)
    | stopped s n => cases s <;> rfl
    | outOfFuel => rfl
  | @bracket _ up down x m es hu _ _ ih =>
    rw [(hu m).line] at ih
    rw [Run.bracket, Outcome.faults_mapMachine, ih]
  | @atLine _ l x m es _ ih =>
    -- The line of the statement is the one around its body, so it is given first.
    have hhere : (l.or m.line).or m.line = l.or m.line := by
      rw [Option.or_assoc, Option.or_self]
    rw [Run.atLine, Outcome.faults_orLine, Outcome.faults_mapMachine, List.map_map, raised_inside]
    simp only [Function.comp_def, Stop.orLine_orLine, hhere]
    exact ih

end Trail

/-- A run that has a trail wherever it starts. -/
def Run.Trailed {α : Type} (x : Run α) : Prop := ∀ m, ∃ es, Trail x m es

namespace Run.Trailed

variable {α β : Type}

theorem pure (a : α) : (Pure.pure a : Run α).Trailed := fun m => ⟨[], .of_done rfl (.refl m)⟩

theorem gets (q : Machine → α) : (gets q).Trailed := fun m => ⟨[], .of_done rfl (.refl m)⟩

theorem modify {f : Machine → Machine} (hf : ∀ m, SameMarks m (f m)) : (modify f).Trailed :=
  fun m => ⟨[], .of_done rfl (hf m)⟩

theorem stop {s : Stop} (hs : s.line = none) : (stop s : Run α).Trailed := by
  intro m
  have hsame (m' : Machine) (hm : (Run.stop s m : Outcome α).machine? = some m') :
      SameMarks m m' := by
    cases hm
    exact .refl m
  cases s with
  | fault c l =>
    cases hs
    exact ⟨_, .fail c m⟩
  | interrupted => exact ⟨_, .quiet rfl hsame⟩
  | exit code => exact ⟨_, .quiet rfl hsame⟩

theorem exhausted : (exhausted : Run α).Trailed := fun _ => ⟨[], .quiet rfl nofun⟩

theorem report (w : Warning) : (report w).Trailed := by
  intro m
  by_cases hp : m.policy = .abort
  · exact ⟨_, .aborted w hp⟩
  · exact ⟨_, .warned w hp⟩

theorem bind {x : Run α} {f : α → Run β} (hx : x.Trailed) (hf : ∀ a, (f a).Trailed) :
    (x >>= f).Trailed := by
  intro m
  obtain ⟨es, hes⟩ := hx m
  cases hr : x m with
  | done a n =>
    obtain ⟨fs, hfs⟩ := hf a n
    exact ⟨es ++ fs, .bind hes hr hfs⟩
  | stopped s n => exact ⟨es, .cut hes fun a n' h => by rw [hr] at h; cases h⟩
  | outOfFuel => exact ⟨es, .cut hes fun a n' h => by rw [hr] at h; cases h⟩

theorem bracket {up down : Machine → Machine} {x : Run α} (hx : x.Trailed)
    (hu : ∀ n, SameMarks n (up n)) (hd : ∀ n, SameMarks n (down n)) :
    (Run.bracket up down x).Trailed := by
  intro m
  obtain ⟨es, hes⟩ := hx (up m)
  exact ⟨es, .bracket hu hd hes⟩

theorem atLine (l : Option Line) {x : Run α} (hx : x.Trailed) : (Run.atLine l x).Trailed := by
  intro m
  obtain ⟨es, hes⟩ := hx { m with line := l.or m.line }
  exact ⟨_, .atLine l hes⟩

theorem basis : Basis fun _ x _ => Trailed x where
  done := pure
  stop hs := stop (Stop.line_of_isBare hs)
  bind := bind
  gets _ := gets _
  note _ := modify fun m => .note m _
  write _ _ := modify fun _ => ⟨rfl, rfl⟩
  report _ := report _
  mapChain _ := modify fun _ => ⟨rfl, rfl⟩
  advance _ := modify fun _ => ⟨rfl, rfl⟩
  replaceArray x length := modify fun m => .replaceArray m x length
  inScope hx := bracket hx .enterScope .exitScope
  underFrame k _ _ hx := bracket hx (fun m => .pushFrame m k) .popFrame
  onChain _ _ _ hx := bracket hx (fun _ => ⟨rfl, rfl⟩) fun _ => ⟨rfl, rfl⟩
  atLine l _ _ hx := atLine l hx

theorem ofFuel (n : Nat) : (Runner.ofFuel n).Related (fun _ x _ => Trailed x)
    (fun _ x _ => Trailed x) (Runner.ofFuel n) := by
  have hc := basis.congruence (fun d => modify fun m => .register m d) report
  exact hc.ofFuel exhausted n

end Run.Trailed

/-- The error that a statement ends with has been given the line around already. -/
theorem Stmt.faults_exec (n : Nat) (s : Stmt) (m : Machine) :
    (s.exec n m).faults.map (·.orLine m.line) = (s.exec n m).faults := by
  have hhere : (s.line.or m.line).or m.line = s.line.or m.line := by
    rw [Option.or_assoc, Option.or_self]
  cases n with
  | zero => rfl
  | succ n =>
    by_cases hi : m.interrupted = true
    · have hstop : s.exec (n + 1) m = .stopped .interrupted m := by
        rw [Stmt.exec_succ, Runner.execNode, Run.bind_apply, Run.checkInterrupt,
          Run.bind_of_done (x := Run.gets _) rfl, hi]
        rfl
      rw [hstop]
      rfl
    · rw [Stmt.exec_begin n s (by simpa using hi)]
      simp [Function.comp_def, hhere]

/-- What a statement does is done within one more statement. -/
theorem Trail.exec {n : Nat} {s : Stmt} {m : Machine} {es : List Sighting}
    (hi : m.interrupted = false) (h : Trail ((Runner.ofFuel n).act s.action) (m.begin s) es) :
    Trail (s.exec (n + 1)) m (es.map (·.inside s.line)) := by
  have hcheck : Run.checkInterrupt m = .done () m := checkInterrupt_of_not hi
  let note := Run.modify fun m => m.note (.exec m.line s.action.description)
  have hnote : Trail note { m with line := s.line.or m.line } [] := .of_done rfl (.note _ _)
  have hbody : Trail (note >>= fun _ => (Runner.ofFuel n).act s.action)
      { m with line := s.line.or m.line } es := hnote.bind rfl h
  exact (Trail.of_done hcheck (.refl m)).bind hcheck (hbody.atLine s.line)

/-- The run of a statement has a trail; what the statement does is within it and within the statements
around. Whichever trail that is, and however the run ends, the line is again what it was, and the
warnings recorded on the way and the error raised at the end are those of the trail: each carries the
line of the innermost statement in execution that has one, or else the line that the run started
with. -/
theorem lines_innermost (n : Nat) (s : Stmt) (m : Machine) :
    (∃ es, Trail (s.exec n) m es) ∧
    (∀ es, Trail (s.exec n) m es → (s.exec n m).faults = raised m.line es ∧
      ∀ m', (s.exec n m).machine? = some m' → m'.line = m.line ∧
        m'.diagnostics.toList = m.diagnostics.toList ++ recorded m.line es) ∧
    ∀ es, m.interrupted = false → Trail ((Runner.ofFuel n).act s.action) (m.begin s) es →
      Trail (s.exec (n + 1)) m (es.map (·.inside s.line)) := by
  refine ⟨(Run.Trailed.ofFuel n).exec s m, fun es h => ?_, fun es hi h => h.exec hi⟩
  constructor
  · rw [← Stmt.faults_exec, h.faults]
  · intro m' hm
    exact h.machine hm

def quotient (op : BinaryOp) : Expr :=
  .binary op (.literal (.int 1)) (.literal (.int 0)) .none

/-- A function with a line for the first of three statements that fail. -/
def failing : Definition :=
  ⟨1, "f", none, [], ⟨.block [⟨.print (quotient .div), some 7⟩, ⟨.print (quotient .mod), none⟩,
    ⟨.leave, none⟩], none⟩⟩

/-- A statement that fails in the same way before it calls that function at a line of its own. -/
def callsFailing : Stmt :=
  ⟨.block [⟨.print (quotient .div), none⟩, ⟨.expr (.call "f" []), some 3⟩], none⟩

def Machine.ofFailing : Machine :=
  { Machine.new 9 .collect false [] with functions := [failing], line := some 1 }

theorem lines_innermost_callsFailing : ∃ (es : List Sighting) (m' : Machine),
    Trail (callsFailing.exec 9) .ofFailing es ∧
    (callsFailing.exec 9 .ofFailing).machine? = some m' ∧ m'.line = some 1 ∧
    recorded (some 1) es =
      [⟨.divisionByZero, some 1⟩, ⟨.divisionByZero, some 7⟩, ⟨.moduloByZero, some 3⟩] ∧
    raised (some 1) es = [.fault .breakOutsideLoop (some 3)] := by
  obtain ⟨⟨es, hes⟩, htrail, -⟩ := lines_innermost 9 callsFailing .ofFailing
  obtain ⟨hfaults, hends⟩ := htrail es hes
  have hrun : (callsFailing.exec 9 .ofFailing).machine?.map (·.diagnostics.toList) =
      some [⟨.divisionByZero, some 1⟩, ⟨.divisionByZero, some 7⟩, ⟨.moduloByZero, some 3⟩] := by
    decide +kernel
  have hfault : (callsFailing.exec 9 .ofFailing).faults =
      [.fault .breakOutsideLoop (some 3)] := by decide +kernel
  obtain ⟨m', hm', hdiagnostics⟩ := Option.map_eq_some_iff.1 hrun
  obtain ⟨hline, hrecorded⟩ := hends m' hm'
  rw [hdiagnostics] at hrecorded
  exact ⟨es, m', hes, hm', hline, hrecorded.symm, hfaults.symm.trans hfault⟩

end Yap
