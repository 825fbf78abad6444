import Yap.Proofs.History
import Yap.Proofs.Records

/-! A run that is aborted by its first warning is the run that collects them, cut there: up to the
first warning neither the machine nor what is computed differs. -/
namespace Yap
/-- From a machine on, a run stopped at a warning and a line, and one that went on from there. -/
structure Cutoff (m : Machine) (w : Warning) (l : Option Line) (stopped final : Machine) : Prop where
  unrecorded : stopped.diagnostics = m.diagnostics
  first : m.diagnostics.toList ++ [⟨w, l⟩] <+: final.diagnostics.toList
  out : stopped.console.out.toList <+: final.console.out.toList
  err : stopped.console.err.toList <+: final.console.err.toList

/-- How a run under abort ends, by how it ends under collect. -/
inductive Cut {α : Type} (L : Option Line → Prop) (m : Machine) : Outcome α → Outcome α → Prop
  | outOfFuel (o : Outcome α) : Cut L m o .outOfFuel
  | done {a : α} {n : Machine} : n.diagnostics = m.diagnostics →
      Cut L m (.done a (n.under .abort)) (.done a n)
  | stopped {s : Stop} {n : Machine} : n.diagnostics = m.diagnostics →
      Cut L m (.stopped s (n.under .abort)) (.stopped s n)
  | cut {w : Warning} {l : Option Line} {n n' : Machine} {o : Outcome α} : L l →
      o.machine? = some n' → Cutoff m w l n n' → Cut L m (.stopped (.fault (.aborted w) l) n) o

namespace Cutoff

variable {m n n' : Machine} {w : Warning} {l : Option Line}

theorem later (h : Cutoff m w l n n') {n'' : Machine} (hh : History n' n'') : Cutoff m w l n n'' :=
  ⟨h.unrecorded, h.first.trans hh.diagnostics, h.out.trans hh.out, h.err.trans hh.err⟩

theorem of_start (h : Cutoff m w l n n') {m₀ : Machine} (hm : m.diagnostics = m₀.diagnostics) :
    Cutoff m₀ w l n n' := ⟨h.unrecorded.trans hm, hm ▸ h.first, h.out, h.err⟩

theorem map (h : Cutoff m w l n n') {p p' : Machine} (hp : Quiet n p) (hp' : Quiet n' p') :
    Cutoff m w l p p' := by
  have hh := History.of_quiet hp'
  rw [hp]
  exact ⟨h.unrecorded, h.first.trans hh.diagnostics, h.out.trans hh.out, h.err.trans hh.err⟩

end Cutoff

namespace Cut

variable {α β : Type} {L : Option Line → Prop} {m : Machine}

/-- Before the first warning, a start further on will do. -/
theorem of_start {L' : Option Line → Prop} {n : Machine} {a c : Outcome α} (h : Cut L n a c)
    (hn : n.diagnostics = m.diagnostics) (hl : ∀ l, L l → L' l) : Cut L' m a c := by
  cases h with
  | outOfFuel o => exact .outOfFuel _
  | done hd => exact .done (hd.trans hn)
  | stopped hd => exact .stopped (hd.trans hn)
  | cut hL ho hc => exact .cut (hl _ hL) ho (hc.of_start hn)

theorem map {down : Machine → Machine} (ha : Machine.Aside down) (hq : ∀ n, Quiet n (down n))
    {a c : Outcome α} (h : Cut L m a c) : Cut L m (a.mapMachine down) (c.mapMachine down) := by
  have hd (n : Machine) : down (n.under .abort) = (down n).under .abort := ha.under n .abort
  have hdiag (n : Machine) : (down n).diagnostics = n.diagnostics := (hq n).diagnostics
  cases h with
  | outOfFuel o => exact .outOfFuel _
  | done hn =>
    simp only [Outcome.mapMachine, hd]
    exact .done ((hdiag _).trans hn)
  | stopped hn =>
    simp only [Outcome.mapMachine, hd]
    exact .stopped ((hdiag _).trans hn)
  | @cut w l n n' o hL ho hc =>
    have ho' : (c.mapMachine down).machine? = some (down n') := by
      rw [Outcome.machine?_mapMachine, ho]
      rfl
    exact .cut hL ho' (hc.map (hq n) (hq n'))

theorem mapStop {f : Stop → Stop}
    (hf : ∀ w l, L l → f (.fault (.aborted w) l) = .fault (.aborted w) l) {a c : Outcome α}
    (h : Cut L m a c) : Cut L m (a.mapStop f) (c.mapStop f) := by
  cases h with
  | outOfFuel o => exact .outOfFuel _
  | done hn => exact .done hn
  | stopped hn => exact .stopped hn
  | @cut w l n n' o hL ho hc =>
    simp only [Outcome.mapStop, hf w l hL]
    exact .cut hL (by rw [← ho]; exact Outcome.machine?_mapStop f c) hc

theorem bind {x y : Run α} {f g : α → Run β} (hx : Cut L m (y (m.under .abort)) (x m))
    (hk : ∀ a, (f a).Keeps History)
    (hf : ∀ a n, x m = .done a n → Cut L n (g a (n.under .abort)) (f a n)) :
    Cut L m ((y >>= g) (m.under .abort)) ((x >>= f) m) := by
  rw [Run.bind_apply, Run.bind_apply]
  generalize hy : y (m.under .abort) = oy at hx
  generalize hxm : x m = ox at hx
  cases hx with
  | outOfFuel o => exact .outOfFuel _
  | done hd => exact (hf _ _ hxm).of_start hd fun _ h => h
  | stopped hd => exact .stopped hd
  | @cut w l n n' o hL ho hc =>
    cases ox with
    | outOfFuel => cases ho
    | stopped s p =>
      cases ho
      exact .cut hL rfl hc
    | done a p =>
      cases ho
      dsimp only
      cases hfa : f a n' with
      | outOfFuel => exact .outOfFuel _
      | done b q =>
        have hh : History n' q := hk a (by rw [hfa]; rfl)
        exact .cut hL rfl (hc.later hh)
      | stopped s q =>
        have hh : History n' q := hk a (by rw [hfa]; rfl)
        exact .cut hL rfl (hc.later hh)

end Cut

/-- A computation under abort is the one under collect, cut at its first warning. A warning
without a line is met only where no line is known. -/
structure Aborts {α : Type} (x y : Run α) : Prop where
  history : x.Keeps History
  line : x.Keeps SameLine
  cut (m : Machine) : m.policy = .collect →
    Cut (fun l => l = none → m.line = none) m (y (m.under .abort)) (x m)

namespace Aborts

variable {α β : Type}

theorem bind {x y : Run α} {f g : α → Run β} (hx : Aborts x y) (hf : ∀ a, Aborts (f a) (g a)) :
    Aborts (x >>= f) (y >>= g) where
  history := Run.Keeps.bind (P := History) History.effects.trans hx.history fun a => (hf a).history
  line := Run.Keeps.bind (P := SameLine) SameLine.effects.trans hx.line fun a => (hf a).line
  cut m hm := by
    refine (hx.cut m hm).bind (fun a => (hf a).history) fun a n hn => ?_
    have hh : History m n := hx.history (by rw [hn]; rfl)
    have hl : n.line = m.line := hx.line (by rw [hn]; rfl)
    rw [← hl]
    exact (hf a).cut n (hh.policy.trans hm)

theorem modify {f : Machine → Machine} (ha : Machine.Aside f) (hh : ∀ m, History m (f m))
    (hl : ∀ m, SameLine m (f m)) : Aborts (Run.modify f) (Run.modify f) where
  history := by intro m m' hm; cases hm; exact hh m
  line := by intro m m' hm; cases hm; exact hl m
  cut m _ := by
    have hrun : Run.modify f (m.under .abort) = .done () ((f m).under .abort) :=
      congrArg (Outcome.done ()) (ha.under m .abort)
    rw [hrun]
    exact .done (congrArg Records.diagnostics (ha.records m))

theorem report (w : Warning) : Aborts (Run.report w) (Run.report w) where
  history := History.effects.report w
  line := SameLine.effects.report w
  cut m hm := by
    have habort : Run.report w (m.under .abort) =
        .stopped (.fault (.aborted w) m.line) (m.under .abort) := rfl
    have hcollect : Run.report w m = .done () (m.record w) := by
      rw [Run.report, if_neg (by rw [hm]; decide)]
    rw [habort, hcollect]
    have hh := History.record m w
    refine .cut (fun hl => hl) rfl ⟨rfl, ?_, hh.out, hh.err⟩
    have hnew : (m.record w).diagnostics.toList = m.diagnostics.toList ++ [⟨w, m.line⟩] := by
      rw [Machine.diagnostics_record, Array.toList_push]
    exact hnew ▸ List.prefix_rfl

theorem write (s : Stream) (t : String) :
    Aborts (Run.modify (·.write s t)) (Run.modify (·.write s t)) where
  history := by intro m m' hm; cases hm; exact History.write m s t
  line := by intro m m' hm; cases hm; rfl
  cut m _ := by
    have hrun : Run.modify (·.write s t) (m.under .abort) =
        .done () ((m.write s t).under .abort) := rfl
    rw [hrun]
    exact .done rfl

/-- A part between a machine change and its undoing. -/
theorem bracket {up down : Machine → Machine} {x y : Run α} (hx : Aborts x y)
    (hu : Machine.Aside up) (hd : Machine.Aside down)
    (hup : ∀ m, Quiet m (up m)) (hdown : ∀ m, Quiet m (down m))
    (hlup : ∀ m, (up m).line = m.line) (hldown : ∀ m, (down m).line = m.line) :
    Aborts (Run.bracket up down x) (Run.bracket up down y) where
  history := hx.history.bracket fun h => History.bracket (hup _) (hdown _) h
  line := hx.line.bracket fun {m m'} h => (hldown m').trans (h.trans (hlup m))
  cut m hm := by
    have hum : up (m.under .abort) = (up m).under .abort := hu.under m .abort
    rw [Run.bracket, hum]
    have hcut := hx.cut (up m) ((hup m).policy.trans hm)
    rw [hlup] at hcut
    exact (hcut.of_start (hup m).diagnostics fun _ h => h).map hd hdown

theorem done (a : α) : Aborts (pure a : Run α) (pure a) where
  history := by intro m m' hm; cases hm; exact History.refl m
  line := by intro m m' hm; cases hm; rfl
  cut _ _ := .done rfl

theorem stop (s : Stop) : Aborts (Run.stop s : Run α) (Run.stop s) where
  history := by intro m m' hm; cases hm; exact History.refl m
  line := by intro m m' hm; cases hm; rfl
  cut _ _ := .stopped rfl

theorem gets {q : Machine → α} (hq : ∀ m r, q (m.withRecords r) = q m) :
    Aborts (Run.gets q) (Run.gets q) where
  history := by intro m m' hm; cases hm; exact History.refl m
  line := by intro m m' hm; cases hm; rfl
  cut m _ := by
    have hrun : Run.gets q (m.under .abort) = .done (q m) (m.under .abort) :=
      congrArg (fun a => Outcome.done a (m.under .abort)) (hq m { m.records with policy := .abort })
    rw [hrun]
    exact .done rfl

/-- The line of a warning that aborts is not replaced on the way out. -/
theorem atLine (l : Option Line) {x y : Run α} (hx : Aborts x y) :
    Aborts (Run.atLine l x) (Run.atLine l y) where
  history := hx.history.atLine fun _ _ _ h => History.effects.line _ h
  line := by
    intro m m' hm
    exact Run.line_of_atLine hm
  cut m hm := by
    have hcut := hx.cut { m with line := l.or m.line } hm
    have hstop (w : Warning) (l' : Option Line) (hl : l' = none → l.or m.line = none) :
        (Stop.fault (.aborted w) l').orLine (l.or m.line) = .fault (.aborted w) l' := by
      cases l' with
      | none =>
        rw [hl rfl]
        exact Stop.orLine_none _
      | some k => rfl
    have hline : l.or m.line = none → m.line = none := by
      cases l with
      | none => exact id
      | some k => intro h; cases h
    refine ((hcut.of_start (m := m) rfl fun _ h => h).map (.line m.line) (fun n => Quiet.line n _)
      |>.mapStop hstop).of_start rfl ?_
    intro l' hl h
    exact hline (hl h)

theorem basis : Basis fun _ x y => Aborts x y where
  done := done
  stop _ := stop _
  bind := bind
  gets := gets
  note e := modify (.note e) (fun m => History.of_quiet (Quiet.note m _))
    fun m => by simp [SameLine]
  write s t := write s t
  report _ := report _
  mapChain f := modify (.chain f) (fun m => History.of_quiet (Quiet.chain m _)) fun _ => rfl
  advance n := modify (.advance n) (fun m => History.advance m n) fun _ => rfl
  replaceArray x length := modify (.replaceArray x length)
    (fun m => History.of_quiet (Quiet.replaceArray m x length))
    fun m => by simp [SameLine, Machine.replaceArray]
  inScope hx := hx.bracket .enterScope .exitScope Quiet.enterScope Quiet.exitScope (by simp)
    (by simp)
  underFrame k _ _ hx := hx.bracket (.pushFrame k) .popFrame (fun m => Quiet.pushFrame m k)
    Quiet.popFrame (by simp) (by simp)
  onChain c _ _ hx := hx.bracket (.chain fun _ => c) (.chain (·.exitCall))
    (fun m => Quiet.chain m c) (fun m => Quiet.chain m _) (fun _ => rfl) fun _ => rfl
  atLine l _ _ := atLine l

theorem congruence : Congruence (fun _ x y => Aborts x y) (fun _ x y => Aborts x y) :=
  basis.congruence
    (fun d => modify (.register d) (fun m => History.register m d) fun m => by simp [SameLine])
    report

theorem exhausted : Aborts (Run.exhausted : Run α) Run.exhausted where
  history := by intro m m' hm; cases hm
  line := by intro m m' hm; cases hm
  cut _ _ := .outOfFuel _

theorem ofFuel (n : Nat) : (Runner.ofFuel n).Related (fun _ x y => Aborts x y)
    (fun _ x y => Aborts x y) (Runner.ofFuel n) := congruence.ofFuel exhausted n

end Aborts

/-- The same for a computation that may leave another line, whatever the line of the warning. -/
structure AbortsLoose {α : Type} (x : Run α) : Prop where
  history : x.Keeps History
  cut (m : Machine) : m.policy = .collect → Cut (fun _ => True) m (x (m.under .abort)) (x m)

namespace AbortsLoose

variable {α β : Type}

theorem of_aborts {x : Run α} (hx : Aborts x x) : AbortsLoose x where
  history := hx.history
  cut m hm := (hx.cut m hm).of_start rfl fun _ _ => trivial

theorem bind {x : Run α} {f : α → Run β} (hx : AbortsLoose x) (hf : ∀ a, AbortsLoose (f a)) :
    AbortsLoose (x >>= f) where
  history := Run.Keeps.bind (P := History) History.effects.trans hx.history fun a => (hf a).history
  cut m hm := by
    refine (hx.cut m hm).bind (fun a => (hf a).history) fun a n hn => ?_
    have hh : History m n := hx.history (by rw [hn]; rfl)
    exact (hf a).cut n (hh.policy.trans hm)

theorem setLine (l : Option Line) : AbortsLoose (Run.modify fun m => { m with line := l }) where
  history := by intro m m' hm; cases hm; exact History.of_quiet (Quiet.line m l)
  cut m _ := by
    show Cut _ m (.done () (Machine.under { m with line := l } .abort)) (.done () { m with line := l })
    exact .done rfl

theorem loadAll (ss : List Stmt) : AbortsLoose (Stmt.loadAll ss) := by
  induction ss with
  | nil => exact of_aborts (Aborts.done ())
  | cons s ss ih =>
    rw [Stmt.loadAll]
    dsimp only
    split
    · refine bind (setLine s.line) fun _ => bind ?_ fun _ => ih
      exact of_aborts (Aborts.congruence.register _)
    · exact bind (of_aborts (Aborts.done ())) fun _ => ih

theorem exitStatus {x : Run Unit} (hx : AbortsLoose x) : AbortsLoose (Program.exitStatus x) where
  history := History.effects.exitStatus hx.history
  cut m hm := by
    have hcut := hx.cut m hm
    unfold Program.exitStatus
    generalize x (m.under .abort) = oy at hcut
    generalize x m = ox at hcut
    cases hcut with
    | outOfFuel o => exact .outOfFuel _
    | done hd => exact .done hd
    | @stopped s n hd =>
      cases s with
      | exit code =>
        have hnote : (n.under .abort).note (.exited code) = (n.note (.exited code)).under .abort :=
          (Machine.Aside.note fun _ => .exited code).under n .abort
        dsimp only
        rw [hnote]
        exact .done ((Quiet.note n _).diagnostics.trans hd)
      | fault c l => exact .stopped hd
      | interrupted => exact .stopped hd
    | @cut w l n n' o hL ho hc =>
      cases ox with
      | outOfFuel => cases ho
      | done u p =>
        cases ho
        exact .cut hL rfl hc
      | stopped s p =>
        cases ho
        cases s with
        | exit code => exact .cut hL rfl (hc.later (History.of_quiet (Quiet.note _ _)))
        | fault c l => exact .cut hL rfl hc
        | interrupted => exact .cut hL rfl hc

theorem task (fuel : Nat) (t : Task) : AbortsLoose (t.perform fuel) := by
  have hc := Aborts.congruence
  have hr := Aborts.ofFuel fuel
  have hload (p : Program) : AbortsLoose p.load := bind (loadAll p.statements) fun _ => setLine none
  have hexecute (p : Program) : AbortsLoose (p.execute fuel) :=
    of_aborts (hc.executeAll hr p.statements)
  cases t with
  | eval e => exact of_aborts (hr.eval e)
  | exec s => exact of_aborts (hr.exec s)
  | execAll ss => exact of_aborts (hc.execAll hr ss)
  | call name args => exact of_aborts (hc.call hr name args)
  | load p => exact hload p
  | execute p => exact hexecute p
  | run p => exact exitStatus (bind (hload p) fun _ => hexecute p)

end AbortsLoose

/-- Abort is collect, cut at the first warning. If a task that collects warnings ends and meets
none, the task under abort ends in the same way on the same machine, but for the policy. If it
meets one, the task under abort stops with the first one at its line, records nothing, and has
written no more than the other. -/
theorem abort_cuts_collect (fuel : Nat) (t : Task) {m m' : Machine}
    (h : (t.perform fuel (m.under .collect)).machine? = some m') :
    ∃ new, m'.diagnostics.toList = m.diagnostics.toList ++ new ∧
      (new = [] → t.perform fuel (m.under .abort) =
        (t.perform fuel (m.under .collect)).mapMachine (·.under .abort)) ∧
      ∀ d rest, new = d :: rest → ∃ n : Machine,
        t.perform fuel (m.under .abort) = .stopped (.fault (.aborted d.warning) d.line) n ∧
        n.diagnostics = m.diagnostics ∧ n.console.out.toList <+: m'.console.out.toList ∧
        n.console.err.toList <+: m'.console.err.toList := by
  have hcut := (AbortsLoose.task fuel t).cut (m.under .collect) rfl
  have habort : (m.under .collect).under .abort = m.under .abort := rfl
  rw [habort] at hcut
  generalize t.perform fuel (m.under .abort) = oa at hcut ⊢
  generalize t.perform fuel (m.under .collect) = oc at hcut h ⊢
  cases hcut with
  | outOfFuel o => cases h
  | done hd =>
    cases h
    refine ⟨[], ?_, fun _ => rfl, fun d rest hn => by cases hn⟩
    rw [hd, List.append_nil]
    rfl
  | stopped hd =>
    cases h
    refine ⟨[], ?_, fun _ => rfl, fun d rest hn => by cases hn⟩
    rw [hd, List.append_nil]
    rfl
  | @cut w l n n' o hL ho hc =>
    have hn : n' = m' := Option.some.inj (ho.symm.trans h)
    subst hn
    obtain ⟨rest, hrest⟩ := hc.first
    refine ⟨⟨w, l⟩ :: rest, ?_, ?_, ?_⟩
    · rw [← hrest, List.append_assoc]
      rfl
    · intro hnil
      cases hnil
    · intro d rest' hd
      cases hd
      exact ⟨n, rfl, hc.unrecorded, hc.out, hc.err⟩

def twoDivisions : Program :=
  let zero : Expr := .binary .div (.literal (.int 1)) (.literal (.int 0)) .none
  ⟨[⟨.print zero, some 1⟩, ⟨.print (.text "between"), some 2⟩, ⟨.print zero, some 3⟩]⟩

theorem abort_cuts_collect_twoDivisions : ∃ (m' n : Machine),
    ((Task.run twoDivisions).perform 5 ((Machine.new 9 .report false []).under .collect)).machine? =
      some m' ∧
    m'.diagnostics.toList = [⟨.divisionByZero, some 1⟩, ⟨.divisionByZero, some 3⟩] ∧
    (Task.run twoDivisions).perform 5 ((Machine.new 9 .report false []).under .abort) =
      .stopped (.fault (.aborted .divisionByZero) (some 1)) n ∧ n.console.out.toList <+:
      m'.console.out.toList := by
  have hrun : ((Task.run twoDivisions).perform 5
      ((Machine.new 9 .report false []).under .collect)).machine?.isSome := by decide +kernel
  obtain ⟨m', hm'⟩ := Option.isSome_iff_exists.1 hrun
  obtain ⟨new, hnew, -, hcut⟩ := abort_cuts_collect 5 (.run twoDivisions) hm'
  have hdiag : (((Task.run twoDivisions).perform 5
      ((Machine.new 9 .report false []).under .collect)).machine?.map (·.diagnostics.toList)) =
      some [⟨.divisionByZero, some 1⟩, ⟨.divisionByZero, some 3⟩] := by decide +kernel
  rw [hm'] at hdiag
  have hlist := Option.some.inj hdiag
  have hn : new = [⟨.divisionByZero, some 1⟩, ⟨.divisionByZero, some 3⟩] := hnew.symm.trans hlist
  obtain ⟨n, hn', -, hout, -⟩ := hcut _ _ hn
  exact ⟨m', n, hm', hlist, hn', hout⟩

end Yap
