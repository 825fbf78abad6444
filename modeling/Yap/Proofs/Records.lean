import Yap.Proofs.Congruence

/-! The records of a machine: both outputs and the warnings, under a policy. What is asked of a
machine does not depend on them, and apart from writing and warning nothing touches them. -/
namespace Yap

/-- What a run has written and the warnings it has met, and the policy it follows. -/
structure Records where
  policy : Policy
  out : String
  err : String
  diagnostics : Array Diagnostic

namespace Machine

def records (m : Machine) : Records := ⟨m.policy, m.console.out, m.console.err, m.diagnostics⟩

def withRecords (m : Machine) (r : Records) : Machine :=
  { m with
    policy := r.policy
    console := { m.console with out := r.out, err := r.err }
    diagnostics := r.diagnostics }

@[simp] theorem withRecords_records (m : Machine) : m.withRecords m.records = m := rfl

@[simp] theorem records_withRecords (m : Machine) (r : Records) :
    (m.withRecords r).records = r := rfl

def under (m : Machine) (p : Policy) : Machine := { m with policy := p }

/-- A change of a machine that has nothing to do with the records. -/
def Aside (f : Machine → Machine) : Prop := ∀ m r, f (m.withRecords r) = (f m).withRecords r

namespace Aside

theorem records {f : Machine → Machine} (h : Aside f) (m : Machine) :
    (f m).records = m.records := by
  have hm : f m = (f m).withRecords m.records := h m m.records
  rw [hm, records_withRecords]

theorem policy {f : Machine → Machine} (h : Aside f) (m : Machine) :
    (f m).policy = m.policy := congrArg Records.policy (h.records m)

theorem under {f : Machine → Machine} (h : Aside f) (m : Machine) (p : Policy) :
    f (m.under p) = (f m).under p := by
  have hm : f (m.under p) = (f m).withRecords { m.records with policy := p } :=
    h m { m.records with policy := p }
  rw [hm, ← h.records m]
  rfl

theorem note (e : Option Line → Event) : Aside fun m => m.note (e m.line) := by
  intro m r
  by_cases h : m.tracing <;> simp [Machine.note, withRecords, h]

theorem enterScope : Aside enterScope := by
  intro m r
  by_cases h : m.tracing <;> simp [Machine.enterScope, Machine.note, withRecords, h]

theorem exitScope : Aside exitScope := by
  intro m r
  by_cases hg : m.chain.isGlobal
  · simp [Machine.exitScope, withRecords, hg]
  · by_cases h : m.tracing <;> simp [Machine.exitScope, Machine.note, withRecords, hg, h]

theorem pushFrame (k : FrameKind) : Aside (·.pushFrame k) := by
  intro m r
  by_cases h : m.tracing <;> simp [Machine.pushFrame, Machine.note, withRecords, h]

theorem popFrame : Aside popFrame := by
  intro m r
  cases hf : m.frames with
  | nil => simp [Machine.popFrame, withRecords, hf]
  | cons f fs =>
    by_cases h : m.tracing <;> simp [Machine.popFrame, Machine.note, withRecords, hf, h]

theorem register (d : Definition) : Aside (·.register d) := by
  intro m r
  by_cases h : m.tracing <;>
    simp [Machine.register, Machine.note, Machine.function?, withRecords, h]

theorem replaceArray (x : Variable) (length : Nat) : Aside (·.replaceArray x length) := by
  intro m r
  by_cases h : m.tracing <;> simp [Machine.replaceArray, Machine.note, withRecords, h]

theorem chain (f : Chain → Chain) : Aside fun m => { m with chain := f m.chain } := fun _ _ => rfl

theorem line (l : Option Line) : Aside fun m => { m with line := l } := fun _ _ => rfl

theorem advance (n : Nat) : Aside fun m => { m with console := m.console.advance n } :=
  fun _ _ => rfl

end Aside
end Machine

/-- What a congruence comes down to that treats statements as it does expressions, if it relates
the same questions and changes whatever the records are. -/
structure Basis (E : ∀ ⦃α : Type⦄, Run α → Run α → Prop) : Prop where
  done {α : Type} (a : α) : E (pure a) (pure a)
  stop {α : Type} {s : Stop} : s.isBare = true → E (Run.stop s : Run α) (Run.stop s)
  bind {α β : Type} {x y : Run α} {f g : α → Run β} :
    E x y → (∀ a, E (f a) (g a)) → E (x >>= f) (y >>= g)
  gets {β : Type} {q : Machine → β} : (∀ m r, q (m.withRecords r) = q m) →
    E (Run.gets q) (Run.gets q)
  note (e : Option Line → Event) :
    E (Run.modify fun m => m.note (e m.line)) (Run.modify fun m => m.note (e m.line))
  write (s : Stream) (t : String) : E (Run.modify (·.write s t)) (Run.modify (·.write s t))
  report {w : Warning} : w.isPlain = true → E (Run.report w) (Run.report w)
  mapChain (f : Chain → Chain) : E (Run.modify fun m => { m with chain := f m.chain })
    (Run.modify fun m => { m with chain := f m.chain })
  advance (n : Nat) : E (Run.modify fun m => { m with console := m.console.advance n })
    (Run.modify fun m => { m with console := m.console.advance n })
  replaceArray (x : Variable) (length : Nat) :
    E (Run.modify (·.replaceArray x length)) (Run.modify (·.replaceArray x length))
  inScope {α : Type} {x y : Run α} : E x y → E (Run.inScope x) (Run.inScope y)
  underFrame {α : Type} (k : FrameKind) {x y : Run α} :
    E x y → E (Run.underFrame k x) (Run.underFrame k y)
  onChain {α : Type} (c : Chain) {x y : Run α} : E x y →
    E (Run.bracket ({ · with chain := c }) (fun m => { m with chain := m.chain.exitCall }) x)
      (Run.bracket ({ · with chain := c }) (fun m => { m with chain := m.chain.exitCall }) y)
  atLine {α : Type} (l : Option Line) {x y : Run α} :
    E x y → E (Run.atLine l x) (Run.atLine l y)

namespace Basis

variable {E : ∀ ⦃α : Type⦄, Run α → Run α → Prop} (h : Basis E)
include h

theorem visible {β : Type} {q : Machine → β} (hq : Visible q) : E (Run.gets q) (Run.gets q) := by
  apply h.gets
  cases hq <;> exact fun _ _ => rfl

theorem steps : Steps.Local E where
  done := h.done
  stop hs := h.stop (Stop.isBare_of_isPlain hs)
  bind := h.bind
  gets := h.visible
  report := h.report
  update name f := h.mapChain (·.update name f)
  current _ := h.gets fun _ _ => rfl
  insert x := h.mapChain (·.replaceCurrent x)
  replaceArray := h.replaceArray

theorem readWith {α : Type} (reader : Reader α) :
    E (Run.readWith reader) (Run.readWith reader) := by
  rw [Run.readWith_eq]
  refine h.bind (h.gets fun _ _ => rfl) fun a => h.bind (h.gets fun _ _ => rfl) fun n =>
    h.bind (h.advance n) fun _ => ?_
  cases a with
  | ok a => exact h.done a
  | error c => exact h.stop rfl

theorem inCall {α : Type} {x y : Run α} (hx : E x y) : E (Run.inCall x) (Run.inCall y) := by
  rw [Run.inCall_guarded, Run.inCall_guarded]
  refine h.bind (h.gets fun _ _ => rfl) fun c => ?_
  split
  · exact h.stop rfl
  · exact h.onChain { c with calls := c.calls + 1 } hx

theorem core : Congruence.Core E E where
  done := h.done
  stop hs := h.stop (Stop.isBare_of_isPlain hs)
  bind := h.bind
  sequence := h.bind
  weaken hx := hx
  gets := h.visible
  current := h.steps.current
  note := h.note
  write := h.write
  report := h.report
  readWith := h.readWith
  overwrite := h.steps.overwrite
  storeText := h.steps.storeText
  declare _ := h.steps.declare _
  replaceArray length _ _ := h.steps.replaceLocal _ length
  inScope := h.inScope
  underFrame := h.underFrame
  overFrame := h.underFrame
  inCall := h.inCall
  atLine := h.atLine

theorem registerOnce (ha : ∀ d, E (Run.modify (·.register d)) (Run.modify (·.register d)))
    (hw : ∀ w, E (Run.report w) (Run.report w)) (d : Definition) :
    E (Runner.register d) (Runner.register d) := by
  refine h.bind (h.gets fun _ _ => rfl) fun earlier => h.bind (ha d) fun _ => ?_
  split
  · exact hw _
  · exact h.done ()

/-- What relates the registering of functions as well is a congruence. -/
theorem congruence (ha : ∀ d, E (Run.modify (·.register d)) (Run.modify (·.register d)))
    (hw : ∀ w, E (Run.report w) (Run.report w)) : Congruence E E where
  toCore := h.core
  writeElement := h.steps.writeElement
  register := h.registerOnce ha hw

end Basis
end Yap
