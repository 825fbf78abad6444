import Yap.Proofs.Landing
import Yap.Proofs.Session

/-! Nothing that takes a break or a return is ever missing. Where no frame is live statements end
normally, so that a program may drop how they end, and the body of a function never ends with a
break. -/
namespace Yap
namespace Frame

def isCall (f : Frame) : Bool :=
  match f.kind with
  | .call .. => true
  | .loop | .switch => false

/-- A break lands on a loop or switch above the innermost call. -/
theorem canBreak_iff (fs : List Frame) :
    canBreak fs = true ↔ ∃ f ∈ fs.takeWhile (!·.isCall), f.kind = .loop ∨ f.kind = .switch := by
  cases fs with
  | nil => simp [canBreak]
  | cons f fs =>
    rcases f with ⟨kind, depth⟩
    cases kind with
    | loop => simp [isCall]
    | switch => simp [isCall]
    | call function returns => simp [isCall]

end Frame

namespace Flow

/-- Without frames there is nothing that takes a break or a return. -/
theorem lands_nil {f : Flow} : f.Lands [] ↔ f = normal := by
  cases f with
  | normal => simp [Lands]
  | leave => simp [Lands, Frame.canBreak]
  | giveBack v => simp [Lands, Frame.currentCall]

end Flow

theorem Stmt.normal_of_frames_nil {n : Nat} {s : Stmt} {m m' : Machine} {f : Flow}
    (hm : m.frames = []) (h : s.exec n m = .done f m') : f = .normal := by
  have hf := s.exec_lands n h
  rw [hm] at hf
  exact Flow.lands_nil.1 hf

/-- Under no frame it makes no difference that a program goes on however a statement ends. -/
theorem Runner.executeAll_eq_execAll (n : Nat) (ss : List Stmt) {m : Machine} (hm : m.frames = []) :
    (ofFuel n).executeAll ss m = ((ofFuel n).execAll ss >>= fun _ => pure ()) m := by
  induction ss generalizing m with
  | nil => rfl
  | cons s ss ih =>
    rw [executeAll, execAll, bind_assoc]
    refine Run.bind_congr_done fun f m' hs => ?_
    have hnormal : f = .normal := Stmt.normal_of_frames_nil hm hs
    have hkept : m'.frames = m.frames :=
      ((SameStacks.effects.ofFuel n).exec s (by rw [hs]; rfl)).frames
    rw [hnormal]
    exact ih (hkept.trans hm)

/-- The body of a function never ends with a break. -/
theorem Runner.body_ne_leave (n : Nat) (d : Definition) (values : List Value) :
    ((ofFuel n).body d values).Ends fun _ f => f ≠ .leave := by
  refine (body_lands n d values).mono ?_
  rintro fs f ⟨depth, hf⟩ rfl
  simp [Flow.Lands] at hf

/-- A break arises only under a loop or switch above the innermost call. A return arises only in a
call, and gives a value only if the function has a return kind, at which the value is. So under no
frame every statement ends normally, a program loses nothing by dropping how its statements end,
and the body of a function never ends with a break. -/
theorem signals_have_targets (n : Nat) :
    (∀ (s : Stmt) (m m' : Machine), s.exec n m = .done .leave m' →
      Frame.canBreak m.frames = true ∧
        ∃ f ∈ m.frames.takeWhile (!·.isCall), f.kind = .loop ∨ f.kind = .switch) ∧
    (∀ (s : Stmt) (m m' : Machine) (r : Option Value), s.exec n m = .done (.giveBack r) m' →
      ∃ function k, Frame.currentCall m.frames = some (function, k) ∧
        ∀ v, r = some v → ∃ k', k = some k' ∧ v.At k') ∧
    (∀ (s : Stmt) (m m' : Machine) (f : Flow), m.frames = [] → s.exec n m = .done f m' →
      f = .normal) ∧
    (∀ (p : Program) (m : Machine), m.frames = [] →
      p.execute n m = ((Runner.ofFuel n).execAll p.statements >>= fun _ => pure ()) m) ∧
    ∀ (d : Definition) (values : List Value) (m m' : Machine) (f : Flow),
      (Runner.ofFuel n).body d values m = .done f m' → f ≠ .leave := by
  refine ⟨?_, ?_, ?_, ?_, ?_⟩
  · intro s m m' h
    have hbreak : Frame.canBreak m.frames = true := s.exec_lands n h
    exact ⟨hbreak, (Frame.canBreak_iff m.frames).1 hbreak⟩
  · intro s m m' r h
    exact s.exec_lands n h
  · intro s m m' f hm h
    exact Stmt.normal_of_frames_nil hm h
  · intro p m hm
    exact Runner.executeAll_eq_execAll n p.statements hm
  · intro d values m m' f h
    exact Runner.body_ne_leave n d values h

def Machine.inLoopOfShort : Machine :=
  ((Machine.new 9 .report false []).pushFrame (.call "f" (some .short))).pushFrame .loop

def leftLoop : Stmt := ⟨.whileDo (.literal (.int 1)) ⟨.leave, none⟩, none⟩

theorem signals_have_targets_inLoopOfShort :
    (⟨.leave, none⟩ : Stmt).exec 4 .inLoopOfShort = .done .leave .inLoopOfShort ∧
    Frame.canBreak Machine.inLoopOfShort.frames = true ∧
    (⟨.giveBack (some (.literal (.int 70000))), none⟩ : Stmt).exec 4 .inLoopOfShort =
      .done (.giveBack (some (.short 4464))) .inLoopOfShort ∧
    (∃ function k, Frame.currentCall Machine.inLoopOfShort.frames = some (function, some k) ∧
      (Value.short 4464).At k) ∧
    (∃ f m', leftLoop.exec 4 (.new 9 .report false []) = .done f m' ∧ f = .normal) ∧
    Program.execute 4 ⟨[leftLoop, leftLoop]⟩ (.new 9 .report false []) =
      ((Runner.ofFuel 4).execAll [leftLoop, leftLoop] >>= fun _ => pure ())
        (.new 9 .report false []) ∧
    ∃ f m', (Runner.ofFuel 4).body ⟨1, "f", none, [], leftLoop⟩ [] (.new 9 .report false []) =
      .done f m' ∧ f ≠ .leave := by
  obtain ⟨hbreak, hreturn, hnormal, hexecute, hbody⟩ := signals_have_targets 4
  have hleave : (⟨.leave, none⟩ : Stmt).exec 4 .inLoopOfShort = .done .leave .inLoopOfShort := rfl
  have hback : (⟨.giveBack (some (.literal (.int 70000))), none⟩ : Stmt).exec 4 .inLoopOfShort =
      .done (.giveBack (some (.short 4464))) .inLoopOfShort := rfl
  have hloop : leftLoop.exec 4 (.new 9 .report false []) = .done .normal _ := rfl
  have hcall : (Runner.ofFuel 4).body ⟨1, "f", none, [], leftLoop⟩ [] (.new 9 .report false []) =
      .done .normal _ := rfl
  obtain ⟨function, k, hcurrent, hkind⟩ := hreturn _ _ _ _ hback
  obtain ⟨k', rfl, hat⟩ := hkind _ rfl
  exact ⟨hleave, (hbreak _ _ _ hleave).1, hback, ⟨function, k', hcurrent, hat⟩,
    ⟨_, _, hloop, hnormal _ _ _ _ rfl hloop⟩, hexecute ⟨_⟩ _ rfl,
    ⟨_, _, hcall, hbody _ _ _ _ _ hcall⟩⟩

end Yap
