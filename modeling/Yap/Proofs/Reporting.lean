import Yap.Proofs.Records
import Yap.Proofs.Session

/-! What a run adds to its records is told by its course, which follows the run from one write and
one warning to the next. A run that reports its warnings and one that collects them have the same
course, so they differ by the lines that report a warning, each where the warning was met. -/
namespace Yap

/-- The line that reports a warning. -/
def Diagnostic.text (d : Diagnostic) : String := diagnosticText d.line d.warning.message ++ "\n"

/-- What a run adds to its records at a time: a text that it writes, or a warning. -/
inductive Entry
  | wrote (s : Stream) (text : String)
  | warned (d : Diagnostic)

namespace Entry

def out : Entry → String
  | wrote .out t => t
  | wrote .err _ => ""
  | warned _ => ""

def err (p : Policy) : Entry → String
  | wrote .out _ => ""
  | wrote .err t => t
  | warned d => if p = .report then d.text else ""

def diagnostic? : Entry → Option Diagnostic
  | wrote .. => none
  | warned d => some d

end Entry

def written (es : List Entry) : String := String.join (es.map (·.out))

/-- The error output of entries. Warnings have a line there only if they are reported. -/
def errors (p : Policy) (es : List Entry) : String := String.join (es.map (·.err p))

def warnings (es : List Entry) : List Diagnostic := es.filterMap (·.diagnostic?)

def Records.after (r : Records) (es : List Entry) : Records where
  policy := r.policy
  out := r.out ++ written es
  err := r.err ++ errors r.policy es
  diagnostics := r.diagnostics ++ (warnings es).toArray

namespace Records

@[simp] theorem after_nil (r : Records) : r.after [] = r := by
  simp [after, written, errors, warnings]

theorem after_append (r : Records) (es fs : List Entry) :
    r.after (es ++ fs) = (r.after es).after fs := by
  simp [after, written, errors, warnings, String.append_assoc]

theorem after_wrote (r : Records) (m : Machine) (s : Stream) (t : String) :
    (m.withRecords r).write s t = (m.write s t).withRecords (r.after [.wrote s t]) := by
  cases s <;> simp [after, written, errors, warnings, Entry.out, Entry.err, Entry.diagnostic?,
    Machine.write, Machine.withRecords, Console.write]

/-- Beside the trace, a warning is a matter of the records. -/
theorem withRecords_record (m : Machine) (w : Warning) (r : Records) :
    (m.record w).withRecords r = (m.note (.warned m.line w)).withRecords r := by
  by_cases h : m.policy = .report <;>
    simp [Machine.record, Machine.write, Machine.withRecords, Console.write, h]

theorem after_warned (r : Records) (m : Machine) (w : Warning) :
    (m.withRecords r).record w = (m.record w).withRecords (r.after [.warned ⟨w, m.line⟩]) := by
  have hnote : (m.withRecords r).note (.warned m.line w) =
      (m.note (.warned m.line w)).withRecords r := Machine.Aside.note (.warned · w) m r
  have hline : (m.withRecords r).line = m.line := rfl
  rw [withRecords_record, Machine.record, hline, hnote]
  by_cases h : r.policy = .report <;>
    simp [Machine.withRecords, Machine.write, Console.write, after, written, errors, warnings,
      Entry.out, Entry.err, Entry.diagnostic?, Diagnostic.text, h]

end Records

namespace Outcome

variable {α : Type}

theorem mapStop_mapMachine (f : Stop → Stop) (g : Machine → Machine) (o : Outcome α) :
    (o.mapStop f).mapMachine g = (o.mapMachine g).mapStop f := by cases o <;> rfl

theorem mapMachine_congr {f g : Machine → Machine} {o : Outcome α}
    (h : ∀ m, o.machine? = some m → f m = g m) : o.mapMachine f = o.mapMachine g := by
  cases o with
  | done a m => exact congrArg (Outcome.done a) (h m rfl)
  | stopped s m => exact congrArg (Outcome.stopped s) (h m rfl)
  | outOfFuel => rfl

end Outcome

namespace Run

variable {α β : Type}

/-- The run does the same whatever the records are, and leaves them alone. -/
def Silent (x : Run α) : Prop :=
  ∀ m r, x (m.withRecords r) = (x m).mapMachine (·.withRecords r)

theorem Silent.gets {q : Machine → α} (h : ∀ m r, q (m.withRecords r) = q m) :
    (gets q).Silent := by
  intro m r
  exact congrArg (Outcome.done · (m.withRecords r)) (h m r)

theorem Silent.modify {f : Machine → Machine} (h : Machine.Aside f) : (modify f).Silent := by
  intro m r
  exact congrArg (Outcome.done ()) (h m r)

/-- A bracket that is set up and taken down aside hands on what its body adds to the records. -/
theorem bracket_withRecords {up down : Machine → Machine} (hu : Machine.Aside up)
    (hd : Machine.Aside down) {x : Run α} {m : Machine} {r r' : Records}
    (hx : x ((up m).withRecords r) = (x (up m)).mapMachine (·.withRecords r')) :
    bracket up down x (m.withRecords r) = (bracket up down x m).mapMachine (·.withRecords r') := by
  have hdown : (fun n : Machine => down (n.withRecords r')) = fun n => (down n).withRecords r' :=
    funext fun n => hd n r'
  rw [bracket, bracket, hu, hx, Outcome.mapMachine_mapMachine, Outcome.mapMachine_mapMachine, hdown]

theorem records_of_withRecords {x : Run α} {m m' : Machine} {r : Records}
    (hx : x (m.withRecords m.records) = (x m).mapMachine (·.withRecords r))
    (hm : (x m).machine? = some m') : m'.records = r := by
  rw [Machine.withRecords_records] at hx
  rw [hx, Outcome.machine?_mapMachine] at hm
  obtain ⟨n, -, rfl⟩ := Option.map_eq_some_iff.1 hm
  rfl

/-- For a given machine, a body at a line is one between setting two lines. -/
theorem atLine_apply (l : Option Line) (x : Run α) (m : Machine) :
    atLine l x m =
      (bracket ({ · with line := l.or m.line }) ({ · with line := m.line }) x m).mapStop
        (·.orLine (l.or m.line)) := rfl

end Run

/-- The course of a run from a machine on: what it adds to its records, in order. It is put
together from the courses of the parts of the run that are carried out. -/
inductive Course : {α : Type} → Run α → Machine → List Entry → Prop
  | silent {α : Type} {x : Run α} (m : Machine) : x.Silent → Course x m []
  | wrote (s : Stream) (t : String) (m : Machine) : Course (Run.modify (·.write s t)) m [.wrote s t]
  | warned (w : Warning) {m : Machine} : m.policy ≠ .abort →
      Course (Run.report w) m [.warned ⟨w, m.line⟩]
  | bind {α β : Type} {x : Run α} {f : α → Run β} {m n : Machine} {a : α} {es fs : List Entry} :
      Course x m es → x m = .done a n → Course (f a) n fs → Course (x >>= f) m (es ++ fs)
  | cut {α β : Type} {x : Run α} {f : α → Run β} {m : Machine} {es : List Entry} :
      Course x m es → (∀ a n, x m ≠ .done a n) → Course (x >>= f) m es
  | bracket {α : Type} {up down : Machine → Machine} {x : Run α} {m : Machine} {es : List Entry} :
      Machine.Aside up → Machine.Aside down → Course x (up m) es →
      Course (Run.bracket up down x) m es
  | atLine {α : Type} (l : Option Line) {x : Run α} {m : Machine} {es : List Entry} :
      Course x { m with line := l.or m.line } es → Course (Run.atLine l x) m es
  | exitStatus {x : Run Unit} {m : Machine} {es : List Entry} :
      Course x m es → Course (Program.exitStatus x) m es

namespace Course

variable {α : Type}

/-- A run that does not abort does the same whatever the records are, and adds its course to
them. -/
theorem run {x : Run α} {m : Machine} {es : List Entry} (h : Course x m es)
    (hm : m.policy ≠ .abort) {r : Records} (hr : r.policy ≠ .abort) :
    x (m.withRecords r) = (x m).mapMachine (·.withRecords (r.after es)) := by
  induction h generalizing r with
  | silent m hx => rw [Records.after_nil, hx]
  | wrote s t m => exact congrArg (Outcome.done ()) (Records.after_wrote r m s t)
  | @warned w m hp =>
    have hp' : (m.withRecords r).policy ≠ .abort := hr
    rw [Run.report, if_neg hp', Run.report, if_neg hp, Records.after_warned]
    rfl
  | @bind α β x f m n a es fs hx hn hf ihx ihf =>
    have hrun : x (m.withRecords r) = .done a (n.withRecords (r.after es)) := by
      rw [ihx hm hr, hn]
      rfl
    -- The policy is among the records, so what follows does not abort either.
    have hrec : n.records = m.records.after es :=
      Run.records_of_withRecords (ihx hm (r := m.records) hm) (by rw [hn]; rfl)
    have hp : n.policy ≠ .abort := by
      have hpol : n.policy = m.policy := congrArg Records.policy hrec
      rw [hpol]
      exact hm
    have hr' : (r.after es).policy ≠ .abort := hr
    rw [Run.bind_of_done hrun, Run.bind_of_done hn, ihf hp hr', Records.after_append]
  | @cut α β x f m es hx hc ih =>
    rw [Run.bind_apply, Run.bind_apply, ih hm hr]
    cases hn : x m with
    | done a n => exact absurd hn (hc a n)
    | stopped s n => rfl
    | outOfFuel => rfl
  | @bracket α up down x m es hu hd hx ih =>
    have hp : (up m).policy ≠ .abort := by
      rw [hu.policy]
      exact hm
    exact Run.bracket_withRecords hu hd (ih hp hr)
  | @atLine α l x m es hx ih =>
    have hbracket :=
      Run.bracket_withRecords (.line (l.or m.line)) (.line m.line) (m := m) (ih hm hr)
    have hline : (m.withRecords r).line = m.line := rfl
    rw [Run.atLine_apply, Run.atLine_apply, hline, hbracket, Outcome.mapStop_mapMachine]
  | @exitStatus x m es hx ih =>
    rw [Program.exitStatus, Program.exitStatus, ih hm hr]
    cases hn : x m with
    | done u n => rfl
    | outOfFuel => rfl
    | stopped s n =>
      cases s with
      | fault c l => rfl
      | interrupted => rfl
      | exit code =>
        have hnote := Machine.Aside.note (fun _ => .exited code) n (r.after es)
        exact congrArg (Outcome.done code) hnote

theorem records {x : Run α} {m m' : Machine} {es : List Entry} (h : Course x m es)
    (hm : m.policy ≠ .abort) (hr : (x m).machine? = some m') : m'.records = m.records.after es :=
  Run.records_of_withRecords (h.run hm (r := m.records) hm) hr

end Course

/-- A run that has a course wherever it does not abort. -/
def Run.Followed {α : Type} (x : Run α) : Prop :=
  ∀ m : Machine, m.policy ≠ .abort → ∃ es, Course x m es

namespace Run.Followed

variable {α β : Type}

theorem silent {x : Run α} (h : x.Silent) : x.Followed := fun m _ => ⟨[], .silent m h⟩

theorem bind {x : Run α} {f : α → Run β} (hx : x.Followed) (hf : ∀ a, (f a).Followed) :
    (x >>= f).Followed := by
  intro m hm
  obtain ⟨es, hes⟩ := hx m hm
  cases hr : x m with
  | done a n =>
    have hrec : n.records = m.records.after es := hes.records hm (by rw [hr]; rfl)
    have hpol : n.policy = m.policy := congrArg Records.policy hrec
    obtain ⟨fs, hfs⟩ := hf a n (by rw [hpol]; exact hm)
    exact ⟨es ++ fs, .bind hes hr hfs⟩
  | stopped s n => exact ⟨es, .cut hes fun a n' h => by rw [hr] at h; cases h⟩
  | outOfFuel => exact ⟨es, .cut hes fun a n' h => by rw [hr] at h; cases h⟩

theorem bracket {up down : Machine → Machine} {x : Run α} (hx : x.Followed)
    (hu : Machine.Aside up) (hd : Machine.Aside down) : (Run.bracket up down x).Followed := by
  intro m hm
  obtain ⟨es, hes⟩ := hx (up m) (by rw [hu.policy]; exact hm)
  exact ⟨es, .bracket hu hd hes⟩

theorem atLine (l : Option Line) {x : Run α} (hx : x.Followed) : (Run.atLine l x).Followed := by
  intro m hm
  obtain ⟨es, hes⟩ := hx { m with line := l.or m.line } hm
  exact ⟨es, .atLine l hes⟩

theorem exitStatus {x : Run Unit} (hx : x.Followed) : (Program.exitStatus x).Followed := by
  intro m hm
  obtain ⟨es, hes⟩ := hx m hm
  exact ⟨es, .exitStatus hes⟩

theorem report (w : Warning) : (Run.report w).Followed :=
  fun m hm => ⟨[.warned ⟨w, m.line⟩], .warned w hm⟩

theorem basis : Basis fun _ x _ => Followed x where
  done _ := silent fun _ _ => rfl
  stop _ := silent fun _ _ => rfl
  bind hx hf := bind hx hf
  gets hq := silent (.gets hq)
  note e := silent (.modify (.note e))
  write s t m _ := ⟨[.wrote s t], .wrote s t m⟩
  report _ := report _
  mapChain f := silent (.modify (.chain f))
  advance n := silent (.modify (.advance n))
  replaceArray x length := silent (.modify (.replaceArray x length))
  inScope hx := bracket hx .enterScope .exitScope
  underFrame k _ _ hx := bracket hx (.pushFrame k) .popFrame
  onChain c _ _ hx := bracket hx (.chain fun _ => c) (.chain (·.exitCall))
  atLine l _ _ hx := atLine l hx

theorem task (fuel : Nat) (t : Task) : (t.perform fuel).Followed := by
  have hc := basis.congruence (fun d => silent (.modify (.register d))) report
  refine hc.task ?_ (silent fun _ _ => rfl) ?_ fuel t
  · intro l
    exact silent (.modify (.line l))
  · intro x y hx
    exact exitStatus hx

end Run.Followed

/-- To report the warnings is to collect them and write a line for each. The task ends in the same
way with the same machine, but for the policy and the error stream: there the lines of the warnings
stand among what the program writes, each where the course of the run meets the warning. -/
theorem report_inserts_lines (fuel : Nat) (t : Task) (m : Machine) :
    ∃ es, Course (t.perform fuel) (m.under .collect) es ∧
      (∀ m', (t.perform fuel (m.under .collect)).machine? = some m' →
        m'.console.out = m.console.out ++ written es ∧
        m'.console.err = m.console.err ++ errors .collect es ∧
        m'.diagnostics = m.diagnostics ++ (warnings es).toArray) ∧
      t.perform fuel (m.under .report) = (t.perform fuel (m.under .collect)).mapMachine fun m' =>
        { m' with policy := .report,
                  console := { m'.console with err := m.console.err ++ errors .report es } } := by
  have hcollect : (m.under .collect).policy ≠ .abort := by
    show Policy.collect ≠ .abort
    decide
  have hreport : (m.under .report).policy ≠ .abort := by
    show Policy.report ≠ .abort
    decide
  obtain ⟨es, hes⟩ := Run.Followed.task fuel t (m.under .collect) hcollect
  have hends : ∀ m', (t.perform fuel (m.under .collect)).machine? = some m' →
      m'.console.out = m.console.out ++ written es ∧
      m'.console.err = m.console.err ++ errors .collect es ∧
      m'.diagnostics = m.diagnostics ++ (warnings es).toArray := by
    intro m' hm'
    have hr := hes.records hcollect hm'
    exact ⟨congrArg Records.out hr, congrArg Records.err hr, congrArg Records.diagnostics hr⟩
  have hrun := hes.run hcollect (r := (m.under .report).records) hreport
  have hunder : (m.under .collect).withRecords (m.under .report).records = m.under .report := rfl
  refine ⟨es, hes, hends, ?_⟩
  rw [← hunder, hrun]
  refine Outcome.mapMachine_congr fun m' hm' => ?_
  obtain ⟨hout, -, hdiag⟩ := hends m' hm'
  dsimp only
  rw [hout, hdiag]
  rfl

/-- A division by zero between two lines that the program itself writes to the error stream. -/
def betweenErrors : Program :=
  let zero : Expr := .binary .div (.literal (.int 1)) (.literal (.int 0)) .none
  ⟨[⟨.printError (.text "before"), some 1⟩, ⟨.print zero, some 2⟩,
    ⟨.printError (.text "after"), some 3⟩]⟩

theorem report_inserts_lines_betweenErrors : ∃ (es : List Entry) (m' : Machine),
    ((Task.run betweenErrors).perform 5
      ((Machine.new 9 .report false []).under .collect)).machine? = some m' ∧
    m'.diagnostics.toList = [⟨.divisionByZero, some 2⟩] ∧ warnings es = m'.diagnostics.toList ∧
    errors .collect es = "before\nafter\n" ∧
    errors .report es = "before\nError at line 2: division by zero\nafter\n" := by
  have hrun : ((Task.run betweenErrors).perform 5
      ((Machine.new 9 .report false []).under .collect)).machine?.isSome := by decide +kernel
  obtain ⟨m', hm'⟩ := Option.isSome_iff_exists.1 hrun
  obtain ⟨es, -, hends, hreport⟩ :=
    report_inserts_lines 5 (.run betweenErrors) (Machine.new 9 .report false [])
  obtain ⟨-, herr, hdiag⟩ := hends m' hm'
  have hwarned : (((Task.run betweenErrors).perform 5
      ((Machine.new 9 .report false []).under .collect)).machine?.map fun m =>
        (m.console.err, m.diagnostics.toList)) =
      some ("before\nafter\n", [⟨.divisionByZero, some 2⟩]) := by decide +kernel
  have hlines : (((Task.run betweenErrors).perform 5
      ((Machine.new 9 .report false []).under .report)).machine?.map (·.console.err)) =
      some "before\nError at line 2: division by zero\nafter\n" := by decide +kernel
  rw [hm'] at hwarned
  rw [hreport, Outcome.machine?_mapMachine, hm'] at hlines
  obtain ⟨hwritten, hlist⟩ := Prod.mk.inj (Option.some.inj hwarned)
  have hnew : m'.diagnostics.toList = warnings es := by
    rw [hdiag]
    simp [Machine.new]
  have hempty (s : String) : (Machine.new 9 .report false []).console.err ++ s = s :=
    String.empty_append
  refine ⟨es, m', hm', hlist, hnew.symm, ?_, ?_⟩
  · rw [← hempty (errors .collect es), ← herr]
    exact hwritten
  · rw [← hempty (errors .report es)]
    exact Option.some.inj hlines

end Yap
