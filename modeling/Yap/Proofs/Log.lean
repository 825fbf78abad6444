import Yap.Proofs.Padding
import Yap.Proofs.Parts

/-! The log of a machine is written and never looked at. Main statement: all that evaluates or
executes does the same on machines that differ in nothing but the log. -/
namespace Yap
namespace Machine

def unlogged (m : Machine) : Machine := { m with events := if m.tracing then #[] else m.events }

/-- Machines that are the same but for the log, if one is written. -/
def SameButLog (m m' : Machine) : Prop :=
  ∃ events, m' = { m with events := events } ∧ (m.tracing = false → events = m.events)

theorem sameButLog_iff {m m' : Machine} : m.SameButLog m' ↔ m'.unlogged = m.unlogged := by
  constructor
  · rintro ⟨events, rfl, he⟩
    cases ht : m.tracing with
    | true => simp [unlogged, ht]
    | false => simp [unlogged, ht, he ht]
  · intro h
    refine ⟨m'.events, ?_, fun ht => ?_⟩
    · have hm : m' = { m'.unlogged with events := m'.events } := rfl
      rw [hm, h]
      rfl
    · have htracing : m'.unlogged.tracing = m.unlogged.tracing := congrArg Machine.tracing h
      have hevents : m'.unlogged.events = m.unlogged.events := congrArg Machine.events h
      have htracing' : m'.tracing = m.tracing := htracing
      simpa [unlogged, htracing', ht] using hevents

/-- A change of a machine that does the same whatever the log is. -/
def Blind (f : Machine → Machine) : Prop := ∀ m, (f m.unlogged).unlogged = (f m).unlogged

/-- What has nothing to do with the log is blind to it. -/
theorem blind_of_commutes {f : Machine → Machine}
    (h : ∀ m es, f { m with events := es } = { f m with events := es })
    (ht : ∀ m, (f m).tracing = m.tracing) : Blind f := by
  intro m
  have hevents : (f m).events = m.events := by
    have hm : f m = { f m with events := m.events } := h m m.events
    rw [hm]
  have hunlogged : f m.unlogged = { f m with events := m.unlogged.events } := h m _
  rw [hunlogged]
  cases hm : m.tracing <;> simp [unlogged, ht, hm, hevents]

namespace SameButLog

variable {m m' m'' : Machine}

theorem refl (m : Machine) : m.SameButLog m := sameButLog_iff.2 rfl

theorem symm (h : m.SameButLog m') : m'.SameButLog m :=
  sameButLog_iff.2 (sameButLog_iff.1 h).symm

theorem trans (h : m.SameButLog m') (h' : m'.SameButLog m'') : m.SameButLog m'' :=
  sameButLog_iff.2 ((sameButLog_iff.1 h').trans (sameButLog_iff.1 h))

/-- What does not look at the log keeps machines the same but for it. -/
theorem map {f : Machine → Machine} (hf : Blind f)
    (h : m.SameButLog m') : (f m).SameButLog (f m') := by
  rw [sameButLog_iff] at *
  rw [← hf m', h, hf m]

end SameButLog

/-- An entry of the log shows nowhere else. -/
@[simp] theorem unlogged_note (m : Machine) (e : Event) : (m.note e).unlogged = m.unlogged := by
  by_cases h : m.tracing <;> simp [note, unlogged, h]

theorem sameButLog_note (m : Machine) (e : Event) : m.SameButLog (m.note e) :=
  sameButLog_iff.2 (m.unlogged_note e)

/-- A statement that is begun, with nothing done, shows in the log alone. -/
theorem sameButLog_begin (m : Machine) (s : Stmt) :
    m.SameButLog { m.begin s with line := m.line } := by
  rw [begin, note]
  split
  · refine ⟨_, rfl, fun ht => ?_⟩
    simp_all
  · exact .refl m

end Machine

/-- What a construct asks of a machine is not in the log. -/
theorem Visible.unlogged {β : Type} {q : Machine → β} (hq : Visible q) (m : Machine) :
    q m.unlogged = q m := by
  cases hq <;> rfl

/-- Two computations do the same on machines that differ in nothing but the log. -/
def Run.LogBlind {α : Type} (x y : Run α) : Prop := x.Respects Machine.SameButLog y

namespace Run.LogBlind

variable {α β : Type} {x y : Run α}

theorem gets {q : Machine → β} (hq : ∀ m, q m.unlogged = q m) :
    (Run.gets q).LogBlind (Run.gets q) := by
  refine Respects.gets fun {m m'} h => ?_
  rw [← hq m', Machine.sameButLog_iff.1 h, hq m]

theorem modify {f : Machine → Machine} (hf : Machine.Blind f) :
    (Run.modify f).LogBlind (Run.modify f) := Respects.modify fun h => h.map hf

theorem bracket {up down : Machine → Machine} (hx : x.LogBlind y)
    (hu : Machine.Blind up) (hd : Machine.Blind down) :
    (Run.bracket up down x).LogBlind (Run.bracket up down y) :=
  Respects.bracket hx (fun h => h.map hu) fun h => h.map hd

theorem report (w : Warning) : (Run.report w).LogBlind (Run.report w) := by
  intro m m' h
  have hrecord : Machine.Blind (·.record w) := by
    intro m
    by_cases hp : m.policy = .report <;> by_cases ht : m.tracing <;>
      simp [Machine.record, Machine.note, Machine.write, Machine.unlogged, hp, ht]
  have hmap : (m.record w).SameButLog (m'.record w) := h.map hrecord
  obtain ⟨events, rfl, -⟩ := id h
  rw [Run.report, Run.report]
  dsimp only
  split
  · exact .stopped _ h
  · exact .done () hmap

theorem atLine (l : Option Line) (hx : x.LogBlind y) :
    (Run.atLine l x).LogBlind (Run.atLine l y) := by
  intro m m' h
  have hblind (k : Option Line) : Machine.Blind ({ · with line := k }) :=
    Machine.blind_of_commutes (fun _ _ => rfl) fun _ => rfl
  have hset (k : Option Line) {m m' : Machine} (h : m.SameButLog m') :
      Machine.SameButLog { m with line := k } { m' with line := k } := h.map (hblind k)
  have hin := hx (hset (l.or m.line) h)
  obtain ⟨events, rfl, -⟩ := id h
  exact (hin.mapMachine (hset m.line)).mapStop _

theorem steps : Steps.Local fun _ x y => LogBlind x y where
  done := Respects.pure
  stop _ := Respects.stop _
  bind := Respects.bind
  gets hq := gets hq.unlogged
  report _ := report _
  update _ _ := modify (Machine.blind_of_commutes (fun _ _ => rfl) fun _ => rfl)
  current _ := gets fun _ => rfl
  insert _ := modify (Machine.blind_of_commutes (fun _ _ => rfl) fun _ => rfl)
  replaceArray x length := modify fun m => by
    by_cases h : m.tracing <;> simp [Machine.replaceArray, Machine.note, Machine.unlogged, h]

theorem readWith (reader : Reader α) :
    (Run.readWith reader).LogBlind (Run.readWith reader) := by
  rw [Run.readWith_eq]
  refine Respects.bind (gets fun _ => rfl) fun result => ?_
  refine Respects.bind (gets fun _ => rfl) fun n => ?_
  refine Respects.bind (modify (Machine.blind_of_commutes (fun _ _ => rfl) fun _ => rfl))
    fun _ => ?_
  cases result with
  | ok a => exact Respects.pure a
  | error c => exact Respects.stop _

theorem register (d : Definition) : (Runner.register d).LogBlind (Runner.register d) := by
  have hadd : Machine.Blind (·.register d) := by
    intro m
    by_cases h : m.tracing <;>
      simp [Machine.register, Machine.note, Machine.function?, Machine.unlogged, h]
  refine Respects.bind (gets (Visible.function d.name).unlogged) fun earlier => ?_
  refine Respects.bind (modify hadd) fun _ => ?_
  split
  · exact report _
  · exact Respects.pure ()

theorem inScope (hx : x.LogBlind y) : (Run.inScope x).LogBlind (Run.inScope y) := by
  refine hx.bracket (fun m => ?_) fun m => ?_
  · by_cases h : m.tracing <;> simp [Machine.enterScope, Machine.note, Machine.unlogged, h]
  · by_cases hg : m.chain.isGlobal <;> by_cases h : m.tracing <;>
      simp [Machine.exitScope, Machine.note, Machine.unlogged, hg, h]

theorem underFrame (k : FrameKind) (hx : x.LogBlind y) :
    (Run.underFrame k x).LogBlind (Run.underFrame k y) := by
  refine hx.bracket (fun m => ?_) fun m => ?_
  · by_cases h : m.tracing <;> simp [Machine.pushFrame, Machine.note, Machine.unlogged, h]
  · cases hf : m.frames with
    | nil => by_cases h : m.tracing <;> simp [Machine.popFrame, Machine.unlogged, hf, h]
    | cons f fs =>
      by_cases h : m.tracing <;> simp [Machine.popFrame, Machine.note, Machine.unlogged, hf, h]

theorem inCall (hx : x.LogBlind y) : (Run.inCall x).LogBlind (Run.inCall y) := by
  rw [Run.inCall_guarded, Run.inCall_guarded]
  refine Respects.bind (gets fun _ => rfl) fun c => ?_
  split
  · exact Respects.stop _
  · exact hx.bracket (Machine.blind_of_commutes (fun _ _ => rfl) fun _ => rfl)
      (Machine.blind_of_commutes (fun _ _ => rfl) fun _ => rfl)

theorem congruence : Congruence (fun _ x y => LogBlind x y) fun _ x y => LogBlind x y where
  done := steps.done
  stop := steps.stop
  bind := steps.bind
  sequence := steps.bind
  weaken hx := hx
  gets := steps.gets
  current := steps.current
  note e := modify fun m => by
    rw [Machine.unlogged_note, Machine.unlogged_note]
    cases ht : m.tracing <;> simp [Machine.unlogged, ht]
  write _ _ := modify (Machine.blind_of_commutes (fun _ _ => rfl) fun _ => rfl)
  report := steps.report
  readWith := readWith
  overwrite := steps.overwrite
  writeElement := steps.writeElement
  storeText := steps.storeText
  declare _ := steps.declare _
  replaceArray length _ _ := steps.replaceLocal _ length
  register := register
  inScope := inScope
  underFrame k _ _ hx := hx.underFrame k
  overFrame k _ _ hx := hx.underFrame k
  inCall := inCall
  atLine l _ _ hx := hx.atLine l

/-- Whatever a runner with fuel runs does the same whatever the log is. -/
theorem ofFuel (n : Nat) : (Runner.ofFuel n).Related (fun _ x y => LogBlind x y)
    (fun _ x y => LogBlind x y) (Runner.ofFuel n) := congruence.ofFuel (fun _ => .outOfFuel) n

/-- A code asked for is a result, and noted in the log. -/
theorem exitStatus {x y : Run Unit} {m m' : Machine}
    (h : (x m).Alike Machine.SameButLog (y m')) :
    (Program.exitStatus x m).Alike Machine.SameButLog (Program.exitStatus y m') := by
  rw [Program.exitStatus, Program.exitStatus]
  generalize x m = o, y m' = o' at h
  cases h with
  | done u h => exact .done 0 h
  | @stopped s n n' h =>
    cases s with
    | exit code =>
      have hn := (n.sameButLog_note (.exited code)).symm
      exact .done code ((hn.trans h).trans (n'.sameButLog_note _))
    | fault c l => exact .stopped _ h
    | interrupted => exact .stopped _ h
  | outOfFuel => exact .outOfFuel

end Run.LogBlind
end Yap
