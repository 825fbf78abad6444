import Yap.Proofs.Session

/-! What a computation can do to a machine, one effect after another and bracket in bracket. A
relation between the machine before and the machine after holds of every run as soon as it holds
of each effect and survives the brackets. -/
namespace Yap

/-- The machine that a computation leaves, however it ends, is related to the one before. -/
def Run.Keeps {α : Type} (P : Machine → Machine → Prop) (x : Run α) : Prop :=
  ∀ ⦃m m' : Machine⦄, (x m).machine? = some m' → P m m'

/-- A relation `P` that every effect of expressions respects, and a weaker one `Q` that the
effects of statements respect. Writing elements and registering functions are left out. -/
structure Effects.Core (P Q : Machine → Machine → Prop) : Prop where
  refl (m : Machine) : P m m
  trans {a b c : Machine} : P a b → P b c → P a c
  transQ {a b c : Machine} : Q a b → Q b c → Q a c
  weaken {a b : Machine} : P a b → Q a b
  note (m : Machine) (e : Event) : P m (m.note e)
  write (m : Machine) (s : Stream) (t : String) : P m (m.write s t)
  record (m : Machine) (w : Warning) : P m (m.record w)
  advance (m : Machine) (n : Nat) : P m { m with console := m.console.advance n }
  setValue {m : Machine} {name : String} {x : Variable} (v : Value) :
    m.chain.find? name = some x → x.modifiers.const = false → x.isArray = false →
      P m { m with chain := m.chain.update name (·.setValue v) }
  setText {m : Machine} {name : String} {x : Variable} {b b' : Buffer} {bytes : List UInt8} :
    m.chain.find? name = some x → x.storage = .array b → x.kind = .char →
      x.modifiers.const = false → b.store? bytes = some b' →
      P m { m with chain := m.chain.update name (·.setBuffer b') }
  declare {m : Machine} {x : Variable} {c : Chain} :
    x.WellKinded → m.chain.declare x = .ok c → Q m { m with chain := c }
  replaceArray {m : Machine} {x y : Variable} (length : Nat) : x.WellKinded → x.isArray →
    m.chain.current.find? x.name = some y → y.isArray → Q m (m.replaceArray x length)
  scope {m m' : Machine} : Q m.enterScope m' → P m m'.exitScope
  frame (k : FrameKind) {m m' : Machine} : P (m.pushFrame k) m' → P m m'.popFrame
  frameQ (k : FrameKind) {m m' : Machine} : Q (m.pushFrame k) m' → Q m m'.popFrame
  call {m m' : Machine} {c : Chain} : m.chain.enterCall = .ok c →
    P { m with chain := c } m' → P m { m' with chain := m'.chain.exitCall }
  line (l : Option Line) {m m' : Machine} :
    Q { m with line := l } m' → Q m { m' with line := m.line }

/-- The same with writing elements and registering functions. -/
structure Effects (P Q : Machine → Machine → Prop) : Prop extends Effects.Core P Q where
  setElement {m : Machine} {name : String} {x : Variable} {b : Buffer} (i : Int32) (v : Value) :
    m.chain.find? name = some x → x.storage = .array b →
      P m { m with chain := m.chain.update name (·.setBuffer (b.write name i v).1) }
  register (m : Machine) (d : Definition) : Q m (m.register d)

namespace Run

variable {α β : Type} {P Q : Machine → Machine → Prop}

/-- The machine behind a sequence is that of its first part, if that stops, or of the rest. -/
theorem machine?_bind_eq_some {x : Run α} {f : α → Run β} {m m' : Machine}
    (h : ((x >>= f) m).machine? = some m') :
    (∃ s, x m = .stopped s m') ∨ ∃ a n, x m = .done a n ∧ (f a n).machine? = some m' := by
  rw [bind_apply] at h
  cases hr : x m with
  | done a n =>
    rw [hr] at h
    exact Or.inr ⟨a, n, rfl, h⟩
  | stopped s n =>
    rw [hr] at h
    cases h
    exact Or.inl ⟨s, rfl⟩
  | outOfFuel =>
    rw [hr] at h
    cases h

theorem Keeps.of_done {x : Run α} (hx : x.Keeps P) {m m' : Machine} {a : α}
    (h : x m = .done a m') : P m m' := hx (by rw [h]; rfl)

theorem Keeps.of_stopped {x : Run α} (hx : x.Keeps P) {m m' : Machine} {s : Stop}
    (h : x m = .stopped s m') : P m m' := hx (by rw [h]; rfl)

theorem Keeps.bind (ht : ∀ {a b c}, P a b → P b c → P a c) {x : Run α} {f : α → Run β}
    (hx : x.Keeps P) (hf : ∀ a, (f a).Keeps P) : (x >>= f).Keeps P := by
  intro m m' hm
  rcases machine?_bind_eq_some hm with ⟨s, hs⟩ | ⟨a, n, ha, hn⟩
  · exact hx.of_stopped hs
  · exact ht (hx.of_done ha) (hf a hn)

theorem Keeps.bracket {up down : Machine → Machine} {x : Run α} (hx : x.Keeps P)
    (hb : ∀ {m m'}, P (up m) m' → Q m (down m')) : (bracket up down x).Keeps Q := by
  intro m m' hm
  rw [bracket_machine?] at hm
  obtain ⟨n, hn, rfl⟩ := Option.map_eq_some_iff.1 hm
  exact hb (hx hn)

theorem Keeps.atLine {l : Option Line} {x : Run α} (hx : x.Keeps P)
    (hl : ∀ k {m m' : Machine}, P { m with line := k } m' → Q m { m' with line := m.line }) :
    (atLine l x).Keeps Q := by
  intro m m' hm
  obtain ⟨n, hn, rfl⟩ := machine?_atLine_eq_some.1 hm
  exact hl _ (hx hn)

theorem Keeps.weaken {x : Run α} (hx : x.Keeps P) (hpq : ∀ {a b}, P a b → Q a b) : x.Keeps Q :=
  fun _ _ hm => hpq (hx hm)

end Run

/-- The machine behind a run of a program is that behind its statements, with the exit noted. -/
theorem Program.machine?_exitStatus {x : Run Unit} {m m' : Machine}
    (h : (Program.exitStatus x m).machine? = some m') :
    ∃ n, (x m).machine? = some n ∧ (m' = n ∨ ∃ code, m' = n.note (.exited code)) := by
  rw [exitStatus] at h
  cases hr : x m with
  | done u n =>
    rw [hr] at h
    cases h
    exact ⟨_, rfl, Or.inl rfl⟩
  | stopped s n =>
    rw [hr] at h
    cases s with
    | exit code =>
      cases h
      exact ⟨n, rfl, Or.inr ⟨code, rfl⟩⟩
    | _ =>
      cases h
      exact ⟨_, rfl, Or.inl rfl⟩
  | outOfFuel =>
    rw [hr] at h
    cases h

namespace Effects

theorem and {P Q P' Q' : Machine → Machine → Prop} (h : Effects P Q) (h' : Effects P' Q') :
    Effects (fun m m' => P m m' ∧ P' m m') fun m m' => Q m m' ∧ Q' m m' where
  refl m := ⟨h.refl m, h'.refl m⟩
  trans h₁ h₂ := ⟨h.trans h₁.1 h₂.1, h'.trans h₁.2 h₂.2⟩
  transQ h₁ h₂ := ⟨h.transQ h₁.1 h₂.1, h'.transQ h₁.2 h₂.2⟩
  weaken h₁ := ⟨h.weaken h₁.1, h'.weaken h₁.2⟩
  note m e := ⟨h.note m e, h'.note m e⟩
  write m s t := ⟨h.write m s t, h'.write m s t⟩
  record m w := ⟨h.record m w, h'.record m w⟩
  advance m n := ⟨h.advance m n, h'.advance m n⟩
  setValue v hx hc ha := ⟨h.setValue v hx hc ha, h'.setValue v hx hc ha⟩
  setElement i v hx hs := ⟨h.setElement i v hx hs, h'.setElement i v hx hs⟩
  setText hx hs hk hc hb := ⟨h.setText hx hs hk hc hb, h'.setText hx hs hk hc hb⟩
  declare hx hc := ⟨h.declare hx hc, h'.declare hx hc⟩
  replaceArray length hx ha hy hya :=
    ⟨h.replaceArray length hx ha hy hya, h'.replaceArray length hx ha hy hya⟩
  register m d := ⟨h.register m d, h'.register m d⟩
  scope hs := ⟨h.scope hs.1, h'.scope hs.2⟩
  frame k _ _ hs := ⟨h.frame k hs.1, h'.frame k hs.2⟩
  frameQ k _ _ hs := ⟨h.frameQ k hs.1, h'.frameQ k hs.2⟩
  call hc hs := ⟨h.call hc hs.1, h'.call hc hs.2⟩
  line l _ _ hs := ⟨h.line l hs.1, h'.line l hs.2⟩

variable {α : Type} {P Q : Machine → Machine → Prop}

namespace Core

variable (h : Core P Q)
include h

theorem report (w : Warning) : (Run.report w).Keeps P := by
  intro m m' hm
  by_cases hp : m.policy = .abort
  · rw [Run.report, if_pos hp] at hm
    cases hm
    exact h.refl m
  · rw [Run.report, if_neg hp] at hm
    cases hm
    exact h.record m w

theorem reportAny (w : Option Warning) : (Run.reportAny w).Keeps P := by
  cases w with
  | none => intro m m' hm; cases hm; exact h.refl m
  | some w => exact h.report w

theorem readWith (reader : Reader α) : (Run.readWith reader).Keeps P := by
  intro m m' hm
  rw [Run.machine?_readWith] at hm
  cases hm
  exact h.advance m _

theorem overwrite (name : String) (v : Value) : (Run.overwrite name v).Keeps P := by
  intro m m' hm
  cases hx : m.chain.find? name with
  | none =>
    simp only [Run.overwrite, Chain.assign, hx] at hm
    cases hm
    exact h.refl m
  | some x =>
    simp only [Run.overwrite, Chain.assign, hx] at hm
    by_cases hc : x.modifiers.const
    · simp only [hc, if_true] at hm
      cases hm
      exact h.refl m
    · by_cases ha : x.isArray
      · simp only [hc, ha, if_true] at hm
        exact h.reportAny _ hm
      · simp only [hc, ha] at hm
        cases hm
        exact h.setValue v hx (by simpa using hc) (by simpa using ha)

theorem storeText (name : String) (bytes : List UInt8) : (Run.storeText name bytes).Keeps P := by
  intro m m' hm
  cases ht : m.chain.storeText? name bytes with
  | none =>
    simp only [Run.storeText, ht] at hm
    cases hm
    exact h.refl m
  | some c =>
    simp only [Run.storeText, ht] at hm
    cases hm
    obtain ⟨x, hx, ho⟩ := Option.bind_eq_some_iff.1 ht
    obtain ⟨b, hb, hc⟩ := Option.bind_eq_some_iff.1 ho
    split at hc
    · rename_i hk
      obtain ⟨b', hb', rfl⟩ := Option.map_eq_some_iff.1 hc
      exact h.setText hx (Variable.buffer?_eq_some.1 hb) hk.1 hk.2 hb'
    · cases hc

theorem inScope {x : Run α} (hx : x.Keeps Q) : (Run.inScope x).Keeps P := hx.bracket h.scope

theorem congruence : Congruence.Core (fun _ x _ => Run.Keeps P x) (fun _ x _ => Run.Keeps Q x) where
  done a := by intro m m' hm; cases hm; exact h.refl m
  stop _ := by intro m m' hm; cases hm; exact h.refl m
  bind hx hf := Run.Keeps.bind (P := P) h.trans hx hf
  sequence hx hf := Run.Keeps.bind (P := Q) h.transQ hx hf
  weaken hx := hx.weaken h.weaken
  gets _ := by intro m m' hm; cases hm; exact h.refl m
  current _ := by intro m m' hm; cases hm; exact h.weaken (h.refl m)
  note e := by intro m m' hm; cases hm; exact h.note m _
  write s t := by intro m m' hm; cases hm; exact h.write m s t
  report _ := h.report _
  readWith := h.readWith
  overwrite := h.overwrite
  storeText := h.storeText
  declare {x} hx := by
    intro m m' hm
    cases hc : m.chain.declare x with
    | ok c =>
      simp only [Run.declare, hc] at hm
      cases hm
      exact h.declare hx hc
    | error c =>
      simp only [Run.declare, hc] at hm
      cases hm
      exact h.weaken (h.refl m)
  replaceArray {x} length hx ha := by
    intro m m' hm
    cases hy : m.chain.current.find? x.name with
    | none =>
      simp only [Run.replaceArray, hy] at hm
      cases hm
      exact h.weaken (h.refl m)
    | some y =>
      simp only [Run.replaceArray, hy] at hm
      by_cases hya : y.isArray
      · rw [if_pos hya] at hm
        cases hm
        exact h.replaceArray length hx ha hy hya
      · rw [if_neg hya] at hm
        cases hm
        exact h.weaken (h.refl m)
  inScope := h.inScope
  underFrame k _ _ hx := hx.bracket (h.frame k)
  overFrame k _ _ hx := hx.bracket (h.frameQ k)
  inCall hx := by
    intro m m' hm
    cases hc : m.chain.enterCall with
    | error c =>
      simp only [Run.inCall, hc] at hm
      cases hm
      exact h.refl m
    | ok c =>
      simp only [Run.inCall, hc, Outcome.machine?_mapMachine] at hm
      obtain ⟨n, hn, rfl⟩ := Option.map_eq_some_iff.1 hm
      exact h.call hc (hx hn)
  atLine l _ _ hx := hx.atLine h.line

end Core

variable (h : Effects P Q)
include h

theorem writeElement (name : String) (i : Int32) (v : Value) :
    (Run.writeElement name i v).Keeps P := by
  intro m m' hm
  cases hx : m.chain.find? name with
  | none =>
    simp only [Run.writeElement, Chain.writeElement, hx] at hm
    cases hm
    exact h.refl m
  | some x =>
    simp only [Run.writeElement, Chain.writeElement, hx] at hm
    cases hs : x.storage with
    | scalar w =>
      simp only [hs] at hm
      cases hm
      exact h.refl m
    | array b =>
      simp only [hs] at hm
      exact h.trans (h.setElement i v hx hs) (h.reportAny _ hm)

theorem registerOnce (d : Definition) : (Runner.register d).Keeps Q := by
  have hadd : (Run.modify (·.register d)).Keeps Q := by
    intro m m' hm
    cases hm
    exact h.register m d
  have hwarned (earlier : Option Definition) : Run.Keeps Q (if earlier.isSome then
      Run.report (.functionRedefined d.name) else pure ()) := by
    split
    · exact (h.report _).weaken h.weaken
    · intro m m' hm
      cases hm
      exact h.weaken (h.refl m)
  intro m m' hm
  rw [Runner.register, Run.bind_of_done (x := Run.gets _) rfl] at hm
  exact Run.Keeps.bind (P := Q) h.transQ hadd (fun _ => hwarned _) hm

theorem congruence : Congruence (fun _ x _ => Run.Keeps P x) (fun _ x _ => Run.Keeps Q x) where
  toCore := h.toCore.congruence
  writeElement := h.writeElement
  register := h.registerOnce

theorem ofFuel (n : Nat) : (Runner.ofFuel n).Related (fun _ x _ => Run.Keeps P x)
    (fun _ x _ => Run.Keeps Q x) (Runner.ofFuel n) :=
  h.congruence.ofFuel (fun hm => by cases hm) n

theorem headed (n : Nat) {header : Run Unit} {turn : Run (Option Flow)} (hh : header.Keeps Q)
    (ht : turn.Keeps P) : ((Runner.ofFuel n).headed header turn).Keeps P :=
  @Congruence.Core.headed _ _ _ _ h.toCore.congruence (h.ofFuel n) header header turn turn hh ht

theorem exitStatus {x : Run Unit} (hx : x.Keeps Q) : (Program.exitStatus x).Keeps Q := by
  intro m m' hm
  obtain ⟨n, hn, rfl | ⟨code, rfl⟩⟩ := Program.machine?_exitStatus hm
  · exact hx hn
  · exact h.transQ (hx hn) (h.weaken (h.note n _))

/-- Every task keeps the relation, if setting the line keeps it as well. -/
theorem task (hl : ∀ (m : Machine) l, Q m { m with line := l }) (fuel : Nat) (t : Task) :
    (t.perform fuel).Keeps Q := by
  refine h.congruence.task ?_ (fun hm => by cases hm) ?_ fuel t
  · intro l m m' hm
    cases hm
    exact hl m l
  · intro x y hx
    exact h.exitStatus hx

end Effects
end Yap
