import Yap.Proofs.Effects
import Yap.Proofs.Fuel

/-! The limit on nested calls shows only where a call finds it reached. A run that does not stop
there does the same under every higher limit, and one that does tells how deep it was. -/
namespace Yap

namespace Chain

def withLimit (c : Chain) (l : Nat) : Chain := { c with limit := l }

theorem update_withLimit (c : Chain) (l : Nat) (name : String) (f : Variable → Variable) :
    (c.withLimit l).update name f = (c.update name f).withLimit l := by
  unfold update withLimit
  split <;> rfl

theorem exitScope_withLimit (c : Chain) (l : Nat) :
    (c.withLimit l).exitScope = c.exitScope.withLimit l := by
  rcases c with ⟨current, outer, entered, exited, calls, limit⟩
  cases outer <;> rfl

end Chain

namespace Machine

def withLimit (m : Machine) (l : Nat) : Machine := { m with chain := m.chain.withLimit l }

/-- The machine with one more active call, whatever the limit, and with one less. -/
def countCall (m : Machine) : Machine :=
  { m with chain := { m.chain with calls := m.chain.calls + 1 } }

def uncountCall (m : Machine) : Machine := { m with chain := m.chain.exitCall }

/-- A change of a machine that has nothing to do with active calls and their limit. -/
structure Uncounted (f : Machine → Machine) : Prop where
  withLimit (m : Machine) (l : Nat) : f (m.withLimit l) = (f m).withLimit l
  calls (m : Machine) : (f m).chain.calls = m.chain.calls

namespace Uncounted

theorem limit {f : Machine → Machine} (h : Uncounted f) (m : Machine) :
    (f m).chain.limit = m.chain.limit := by
  have hm : f m = (f m).withLimit m.chain.limit := h.withLimit m m.chain.limit
  rw [hm]
  rfl

theorem note (e : Option Line → Event) : Uncounted fun m => m.note (e m.line) where
  withLimit m l := by
    by_cases h : m.tracing <;> simp [Machine.note, Machine.withLimit, h]
  calls m := by simp

theorem write (s : Stream) (t : String) : Uncounted (·.write s t) := ⟨fun _ _ => rfl, fun _ => rfl⟩

theorem record (w : Warning) : Uncounted (·.record w) where
  withLimit m l := by
    by_cases hp : m.policy = .report <;> by_cases h : m.tracing <;>
      simp [Machine.record, Machine.note, Machine.write, Machine.withLimit, h, hp]
  calls m := by simp

theorem advance (n : Nat) : Uncounted fun m => { m with console := m.console.advance n } :=
  ⟨fun _ _ => rfl, fun _ => rfl⟩

theorem line (l : Option Line) : Uncounted fun m => { m with line := l } :=
  ⟨fun _ _ => rfl, fun _ => rfl⟩

theorem update (name : String) (f : Variable → Variable) :
    Uncounted fun m => { m with chain := m.chain.update name f } where
  withLimit m l := by simp [Machine.withLimit, Chain.update_withLimit]
  calls m := by simp

theorem insert (x : Variable) : Uncounted fun m => { m with chain := m.chain.replaceCurrent x } :=
  ⟨fun _ _ => rfl, fun _ => rfl⟩

theorem replaceArray (x : Variable) (length : Nat) : Uncounted (·.replaceArray x length) where
  withLimit m l := by
    by_cases h : m.tracing <;>
      simp [Machine.replaceArray, Machine.note, Machine.withLimit, Chain.withLimit,
        Chain.replaceCurrent, h]
  calls m := by simp [Machine.replaceArray, Chain.replaceCurrent]

theorem register (d : Definition) : Uncounted (·.register d) where
  withLimit m l := by
    by_cases h : m.tracing <;>
      simp [Machine.register, Machine.note, Machine.withLimit, Machine.function?, h]
  calls m := by simp

theorem enterScope : Uncounted Machine.enterScope where
  withLimit m l := by
    by_cases h : m.tracing <;>
      simp [Machine.enterScope, Machine.note, Machine.withLimit, Chain.withLimit, Chain.enterScope,
        Chain.depth, h]
  calls m := by simp [Chain.enterScope]

theorem exitScope : Uncounted Machine.exitScope where
  withLimit m l := by
    have hd (c : Chain) : (c.withLimit l).depth = c.depth := rfl
    have hg (c : Chain) : (c.withLimit l).isGlobal = c.isGlobal := rfl
    by_cases hm : m.chain.isGlobal
    · simp [Machine.exitScope, Machine.withLimit, hg, hm]
    · by_cases h : m.tracing <;>
        simp [Machine.exitScope, Machine.note, Machine.withLimit, Chain.exitScope_withLimit, hd, hg,
          hm, h]
  calls m := by simp

theorem pushFrame (k : FrameKind) : Uncounted (·.pushFrame k) where
  withLimit m l := by
    by_cases h : m.tracing <;>
      simp [Machine.pushFrame, Machine.note, Machine.withLimit, Chain.withLimit, Chain.depth, h]
  calls m := by simp

theorem popFrame : Uncounted Machine.popFrame where
  withLimit m l := by
    cases hf : m.frames with
    | nil => simp [Machine.popFrame, Machine.withLimit, hf]
    | cons f fs =>
      by_cases h : m.tracing <;> simp [Machine.popFrame, Machine.note, Machine.withLimit, hf, h]
  calls m := by simp

end Uncounted
end Machine

theorem Stop.isOverflow_of_isPlain {s : Stop} (h : s.isPlain = true) : s.isOverflow = false := by
  cases s with
  | fault c l => cases c <;> simp [isPlain, isOverflow] at h ⊢
  | interrupted => rfl
  | exit code => rfl

theorem Stop.isOverflow_orLine (s : Stop) (l : Option Line) :
    (s.orLine l).isOverflow = s.isOverflow := by
  cases s with
  | fault c k => cases k <;> cases c <;> rfl
  | interrupted => rfl
  | exit code => rfl

def Outcome.overflows {α : Type} : Outcome α → Bool
  | .stopped s _ => s.isOverflow
  | _ => false

theorem Outcome.overflows_eq_true {α : Type} {o : Outcome α} : o.overflows = true ↔
    ∃ depth limit line m, o = .stopped (.fault (.stackOverflow depth limit) line) m := by
  constructor
  · intro h
    cases o with
    | stopped s m =>
      cases s with
      | fault c line =>
        cases c with
        | stackOverflow depth limit => exact ⟨depth, limit, line, m, rfl⟩
        | _ => cases h
      | _ => cases h
    | _ => cases h
  · rintro ⟨depth, limit, line, m, rfl⟩
    rfl

theorem Outcome.overflows_mapMachine {α : Type} (f : Machine → Machine) (o : Outcome α) :
    (o.mapMachine f).overflows = o.overflows := by cases o <;> rfl

/-- What the limit on calls has to do with a computation on a machine: that stops at it, at the
depth behind it, or goes on in the same way under every higher one. -/
inductive Run.Capped {α : Type} (x : Run α) (m : Machine) : Prop
  | overflow {line : Option Line} {m' : Machine} :
      x m = .stopped (.fault (.stackOverflow (max m.chain.calls m.chain.limit + 1) m.chain.limit)
        line) m' → Capped x m
  | free : (x m).overflows = false →
      (∀ m', (x m).machine? = some m' →
        m'.chain.calls = m.chain.calls ∧ m'.chain.limit = m.chain.limit) →
      (∀ l, m.chain.limit ≤ l → x (m.withLimit l) = (x m).mapMachine (·.withLimit l)) → Capped x m

namespace Run.Capped

variable {α β : Type} {m : Machine}

theorem pure (a : α) : (pure a : Run α).Capped m :=
  .free rfl (fun m' hm => by cases hm; exact ⟨rfl, rfl⟩) fun _ _ => rfl

theorem stop {s : Stop} (hs : s.isOverflow = false) : (Run.stop s : Run α).Capped m :=
  .free hs (fun m' hm => by cases hm; exact ⟨rfl, rfl⟩) fun _ _ => rfl

theorem exhausted : (Run.exhausted : Run α).Capped m :=
  .free rfl (fun m' hm => by cases hm) fun _ _ => rfl

theorem gets {q : Machine → β} (hq : ∀ m l, q (m.withLimit l) = q m) : (Run.gets q).Capped m := by
  refine .free rfl (fun m' hm => by cases hm; exact ⟨rfl, rfl⟩) fun l _ => ?_
  rw [Run.gets, hq]
  rfl

theorem modify {f : Machine → Machine} (hf : Machine.Uncounted f) : (Run.modify f).Capped m := by
  refine .free rfl (fun m' hm => by cases hm; exact ⟨hf.calls m, hf.limit m⟩) fun l _ => ?_
  rw [Run.modify, hf.withLimit]
  rfl

theorem bind {x : Run α} {f : α → Run β} (hx : x.Capped m) (hf : ∀ a n, (f a).Capped n) :
    (x >>= f).Capped m := by
  cases hx with
  | overflow h => exact .overflow (by rw [bind_apply, h])
  | free ho hk hl =>
    cases hr : x m with
    | done a n =>
      have hb : (x >>= f) m = f a n := bind_of_done hr f
      obtain ⟨hcalls, hlimit⟩ := hk n (by rw [hr]; rfl)
      cases hf a n with
      | overflow h => exact .overflow (by rw [hb, h, hcalls, hlimit])
      | free ho' hk' hl' =>
        refine .free (by rw [hb, ho']) ?_ fun l hle => ?_
        · intro m' hm
          rw [hb] at hm
          obtain ⟨hcalls', hlimit'⟩ := hk' m' hm
          exact ⟨hcalls'.trans hcalls, hlimit'.trans hlimit⟩
        · have hxl := hl l hle
          rw [hr] at hxl
          rw [hb, bind_of_done hxl]
          exact hl' l (by omega)
    | stopped s n =>
      have hb : (x >>= f) m = .stopped s n := by rw [bind_apply, hr]
      rw [hr] at ho hk hl
      refine .free (by rw [hb]; exact ho) (by rw [hb]; exact hk) fun l hle => ?_
      rw [hb, bind_apply, hl l hle]
      rfl
    | outOfFuel =>
      have hb : (x >>= f) m = .outOfFuel := by rw [bind_apply, hr]
      rw [hr] at hl
      refine .free (by rw [hb]; rfl) (by rw [hb]; intro m' hm; cases hm) fun l hle => ?_
      rw [hb, bind_apply, hl l hle]
      rfl

theorem congr {x y : Run α}
    (h : ∀ l, m.chain.limit ≤ l → x (m.withLimit l) = y (m.withLimit l)) (hy : y.Capped m) :
    x.Capped m := by
  have hm : x m = y m := h m.chain.limit (Nat.le_refl _)
  cases hy with
  | overflow hs => exact .overflow (hm.trans hs)
  | free ho hk hl =>
    refine .free (by rw [hm, ho]) (by rw [hm]; exact hk) fun l hle => ?_
    rw [h l hle, hm, hl l hle]

/-- Something set up and taken down around a computation. The way up may count a call below the
limit if the way down takes it back. -/
theorem bracket {up down : Machine → Machine} (hu : ∀ l, up (m.withLimit l) = (up m).withLimit l)
    (hlimit : (up m).chain.limit = m.chain.limit)
    (hmax : max (up m).chain.calls m.chain.limit = max m.chain.calls m.chain.limit)
    (hd : ∀ n l, down (n.withLimit l) = (down n).withLimit l)
    (hcalls : ∀ n, n.chain.calls = (up m).chain.calls → (down n).chain.calls = m.chain.calls)
    {x : Run α} (hx : x.Capped (up m)) : (Run.bracket up down x).Capped m := by
  have hdl (n : Machine) : (down n).chain.limit = n.chain.limit := by
    have hn : down n = (down n).withLimit n.chain.limit := hd n n.chain.limit
    rw [hn]
    rfl
  cases hx with
  | overflow h =>
    rw [hlimit, hmax] at h
    exact .overflow (by rw [Run.bracket, h]; rfl)
  | free ho hk hl =>
    refine .free ?_ ?_ fun l hle => ?_
    · rw [Run.bracket, Outcome.overflows_mapMachine, ho]
    · intro m' hm
      rw [bracket_machine?] at hm
      obtain ⟨n, hn, rfl⟩ := Option.map_eq_some_iff.1 hm
      obtain ⟨hc, hl'⟩ := hk n hn
      exact ⟨hcalls n hc, by rw [hdl, hl', hlimit]⟩
    · rw [Run.bracket, hu, hl l (by omega), Run.bracket, Outcome.mapMachine_mapMachine,
        Outcome.mapMachine_mapMachine]
      congr 1
      funext n
      exact hd n l

theorem around {up down : Machine → Machine} (hu : Machine.Uncounted up)
    (hd : Machine.Uncounted down) {x : Run α} (hx : ∀ n, x.Capped n) :
    (Run.bracket up down x).Capped m := by
  have hc := hu.calls m
  exact bracket (hu.withLimit m) (hu.limit m) (by rw [hc]) hd.withLimit
    (fun n hn => by rw [hd.calls, hn, hc]) (hx _)

/-- A call refused at the limit is one at the depth behind it. One let in is let in under every
higher limit, and its body comes as close to the limit as the caller. -/
theorem inCall {x : Run α} (hx : ∀ n, x.Capped n) : (Run.inCall x).Capped m := by
  by_cases hc : m.chain.limit ≤ m.chain.calls
  · have hstop : Run.inCall x m =
        .stopped (.fault (.stackOverflow (m.chain.calls + 1) m.chain.limit) none) m := by
      simp only [Run.inCall, Chain.enterCall, if_pos hc]
    rw [← Nat.max_eq_left hc] at hstop
    exact .overflow hstop
  · have hin (l : Nat) (hl : m.chain.limit ≤ l) : Run.inCall x (m.withLimit l) =
        Run.bracket Machine.countCall Machine.uncountCall x (m.withLimit l) := by
      have henter : (m.withLimit l).chain.enterCall = .ok (m.withLimit l).countCall.chain :=
        Chain.enterCall_eq_ok.2 ⟨by show m.chain.calls < l; omega, rfl⟩
      rw [Run.inCall, henter]
      rfl
    have hmax : max m.countCall.chain.calls m.chain.limit = max m.chain.calls m.chain.limit := by
      show max (m.chain.calls + 1) m.chain.limit = _
      omega
    have hdown (n : Machine) (hn : n.chain.calls = m.countCall.chain.calls) :
        n.uncountCall.chain.calls = m.chain.calls := by
      show n.chain.calls - 1 = m.chain.calls
      rw [hn]
      rfl
    exact congr hin (bracket (fun _ => rfl) rfl hmax (fun _ _ => rfl) hdown (hx _))

/-- What becomes of the end of a computation, if a stop at the limit stays one and the machine is no
other to the limit. -/
theorem mapOutcome {g : Outcome α → Outcome β} {x : Run α}
    (hover : ∀ depth limit line n, ∃ line', g (.stopped (.fault (.stackOverflow depth limit) line) n) =
      .stopped (.fault (.stackOverflow depth limit) line') n)
    (hfree : ∀ o, o.overflows = false → (g o).overflows = false)
    (hchain : ∀ o m', (g o).machine? = some m' → ∃ n, o.machine? = some n ∧ m'.chain = n.chain)
    (hlimit : ∀ o l, g (o.mapMachine (·.withLimit l)) = (g o).mapMachine (·.withLimit l))
    (hx : x.Capped m) : Run.Capped (fun n => g (x n)) m := by
  cases hx with
  | @overflow line m' h =>
    obtain ⟨line', hg⟩ := hover (max m.chain.calls m.chain.limit + 1) m.chain.limit line m'
    rw [← h] at hg
    exact .overflow hg
  | free ho hk hl =>
    refine .free (hfree _ ho) ?_ fun l hle => ?_
    · intro m' hm
      obtain ⟨n, hn, hc⟩ := hchain _ _ hm
      rw [hc]
      exact hk n hn
    · rw [hl l hle, hlimit]

theorem orLine (l : Option Line) {x : Run α} (hx : x.Capped m) :
    Run.Capped (fun n => (x n).mapStop (·.orLine l)) m := by
  refine mapOutcome ?_ ?_ ?_ ?_ hx
  · intro depth limit line n
    exact ⟨line.or l, by cases line <;> rfl⟩
  · intro o ho
    cases o with
    | stopped s n => exact (s.isOverflow_orLine l).trans ho
    | _ => rfl
  · intro o m' hm
    exact ⟨m', by simpa using hm, rfl⟩
  · intro o l'
    cases o <;> rfl

theorem atLine (l : Option Line) {x : Run α} (hx : ∀ n, x.Capped n) :
    (Run.atLine l x).Capped m := by
  have hline := around (.line (l.or m.line)) (.line m.line) hx (m := m)
  refine congr ?_ (hline.orLine (l.or m.line))
  intro l' _
  rfl

theorem readWith (reader : Reader α) : (Run.readWith reader).Capped m := by
  rw [Run.readWith_eq]
  refine bind (gets fun _ _ => rfl) fun result _ => bind (gets fun _ _ => rfl) fun n _ =>
    bind (modify (.advance n)) fun _ _ => ?_
  cases result with
  | ok a => exact pure a
  | error e => exact stop rfl

theorem report (w : Warning) : (Run.report w).Capped m := by
  by_cases hp : m.policy = .abort
  · refine congr (y := Run.stop (.fault (.aborted w) m.line)) ?_ (stop rfl)
    intro l _
    exact if_pos hp
  · refine congr (y := Run.modify (·.record w)) ?_ (modify (.record w))
    intro l _
    exact if_neg hp

theorem steps : Steps.Local fun _ x _ => ∀ m, x.Capped m where
  done a _ := pure a
  stop hs _ := stop (Stop.isOverflow_of_isPlain hs)
  bind hx hf m := bind (hx m) hf
  gets hq _ := gets fun _ _ => by cases hq <;> rfl
  report _ _ := report _
  update name _ _ := modify (.update name _)
  current _ _ := gets fun _ _ => rfl
  insert x _ := modify (.insert x)
  replaceArray x length _ := modify (.replaceArray x length)

theorem congruence :
    Congruence (fun _ x _ => ∀ m, x.Capped m) fun _ x _ => ∀ m, x.Capped m where
  done := steps.done
  stop := steps.stop
  bind hx hf m := bind (hx m) hf
  sequence hx hf m := bind (hx m) hf
  weaken hx := hx
  gets := steps.gets
  current := steps.current
  note e _ := modify (.note e)
  write s t _ := modify (.write s t)
  report := steps.report
  readWith reader _ := readWith reader
  overwrite := steps.overwrite
  writeElement := steps.writeElement
  storeText := steps.storeText
  declare _ := steps.declare _
  replaceArray length _ _ := steps.replaceLocal _ length
  register d m := by
    refine bind (gets fun _ _ => rfl) fun earlier n => bind (modify (.register d)) fun _ n => ?_
    split
    · exact report _
    · exact pure ()
  inScope hx _ := around .enterScope .exitScope hx
  underFrame k _ _ hx _ := around (.pushFrame k) .popFrame hx
  overFrame k _ _ hx _ := around (.pushFrame k) .popFrame hx
  inCall hx _ := inCall hx
  atLine l _ _ hx _ := atLine l hx

theorem exitStatus {x : Run Unit} (hx : x.Capped m) : (Program.exitStatus x).Capped m := by
  refine mapOutcome (g := fun o => Program.exitStatus (fun _ => o) m) ?_ ?_ ?_ ?_ hx
  · intro depth limit line n
    exact ⟨line, rfl⟩
  · intro o ho
    cases o with
    | stopped s n =>
      cases s with
      | fault c line => exact ho
      | _ => rfl
    | _ => rfl
  · intro o m' hm
    obtain ⟨n, hn, rfl | ⟨code, rfl⟩⟩ := Program.machine?_exitStatus hm
    · exact ⟨_, hn, rfl⟩
    · exact ⟨n, hn, by simp⟩
  · intro o l
    cases o with
    | stopped s n =>
      cases s with
      | exit code => exact congrArg _ ((Machine.Uncounted.note fun _ => .exited code).withLimit n l)
      | _ => rfl
    | _ => rfl

theorem task (fuel : Nat) (t : Task) (m : Machine) : (t.perform fuel).Capped m := by
  have hline (l : Option Line) (m : Machine) :
      (Run.modify fun m => { m with line := l }).Capped m := modify (.line l)
  exact congruence.task hline (fun _ => exhausted) (fun hx m => exitStatus (hx m)) fuel t m

end Run.Capped

/-- A task that ends under a limit on nested calls, and not for that limit, ends in the same way
under every higher limit and with any fuel from there on: nothing of the machine is different but
the limit. One that stops at the limit, and was started in no call, tells the depth behind it. -/
theorem limit_unseen (t : Task) (m : Machine) (l n : Nat) :
    (∀ l' k : Nat, l ≤ l' → n ≤ k → t.perform n (m.withLimit l) ≠ .outOfFuel →
      (t.perform n (m.withLimit l)).overflows = false →
      t.perform k (m.withLimit l') =
        (t.perform n (m.withLimit l)).mapMachine (·.withLimit l')) ∧
    ∀ (depth limit : Nat) (line : Option Line) (m' : Machine), m.chain.calls = 0 →
      t.perform n (m.withLimit l) = .stopped (.fault (.stackOverflow depth limit) line) m' →
      depth = l + 1 ∧ limit = l := by
  have hcapped := Run.Capped.task n t (m.withLimit l)
  constructor
  · intro l' k hl hk hfuel hover
    have hend : t.perform n (m.withLimit l') =
        (t.perform n (m.withLimit l)).mapMachine (·.withLimit l') := by
      cases hcapped with
      | overflow h =>
        rw [h] at hover
        cases hover
      | free _ _ hraise => exact hraise l' hl
    have hfuel' : t.perform n (m.withLimit l') ≠ .outOfFuel := by
      rw [hend]
      cases hr : t.perform n (m.withLimit l) with
      | outOfFuel => exact absurd hr hfuel
      | _ => simp [Outcome.mapMachine]
    rw [t.perform_of_le hk hfuel', hend]
  · intro depth limit line m' hcalls hm
    cases hcapped with
    | overflow h =>
      have hdepth : max m.chain.calls l + 1 = l + 1 := by omega
      cases hm.symm.trans h
      exact ⟨hdepth, rfl⟩
    | free hover _ _ =>
      rw [hm] at hover
      cases hover

/-- A function that calls itself as often as its argument says. -/
def countdown : Program :=
  let rest : Expr := .binary .sub (.ident "n") (.literal (.int 1)) .none
  let again : Stmt := ⟨.giveBack (some (.call "f" [rest])), some 2⟩
  let stop : Stmt := ⟨.giveBack (some (.ident "n")), some 3⟩
  ⟨[⟨.define ⟨1, "f", some .int, [⟨"n", .int⟩],
      ⟨.ifElse (.ident "n") again (some stop), some 2⟩⟩, some 1⟩,
    ⟨.expr (.call "ragequit" [.call "f" [.literal (.int 3)]]), some 5⟩]⟩

theorem limit_unseen_countdown : ∃ (line : Option Line) (m m' : Machine),
    (Task.run countdown).perform 30 ((Machine.new 0 .report true []).withLimit 4) =
      .done (0 : Int32) m ∧
    (Task.run countdown).perform 40 ((Machine.new 0 .report true []).withLimit 9) =
      .done (0 : Int32) (m.withLimit 9) ∧
    (Task.run countdown).perform 30 ((Machine.new 0 .report true []).withLimit 2) =
      .stopped (.fault (.stackOverflow 3 2) line) m' := by
  have hdone : (match (Task.run countdown).perform 30
      ((Machine.new 0 .report true []).withLimit 4) with
      | .done (c : Int32) _ => decide (c = 0)
      | _ => false) = true := by decide +kernel
  have hstop : ((Task.run countdown).perform 30
      ((Machine.new 0 .report true []).withLimit 2)).overflows = true := by decide +kernel
  obtain ⟨depth, limit, line, m', hm'⟩ := Outcome.overflows_eq_true.1 hstop
  obtain ⟨hraise, -⟩ := limit_unseen (.run countdown) (.new 0 .report true []) 4 30
  obtain ⟨-, hdepth⟩ := limit_unseen (.run countdown) (.new 0 .report true []) 2 30
  split at hdone
  · rename_i c m hm
    obtain rfl := of_decide_eq_true hdone
    obtain ⟨rfl, rfl⟩ := hdepth _ _ _ _ rfl hm'
    refine ⟨line, m, m', hm, ?_, hm'⟩
    have hsame := hraise 9 40 (by omega) (by omega) (by rw [hm]; simp) (by rw [hm]; rfl)
    rw [hsame, hm]
    rfl
  · cases hdone

end Yap
