import Yap.Proofs.Effects

/-! What a machine keeps a record of only grows: both outputs, the warnings and the registered
functions. Input that has been read stays read, and the line is again what it was. -/
namespace Yap

/-- The second machine was made from the first by adding to its records. -/
structure History (m m' : Machine) : Prop where
  functions : m.functions <+: m'.functions
  out : m.console.out.toList <+: m'.console.out.toList
  err : m.console.err.toList <+: m'.console.err.toList
  diagnostics : m.diagnostics.toList <+: m'.diagnostics.toList
  input : m'.console.input = m.console.input
  position : m.console.position ≤ m'.console.position
  policy : m'.policy = m.policy

def Quiet (m m' : Machine) : Prop :=
  m' = { m with chain := m'.chain, frames := m'.frames, line := m'.line, events := m'.events }

namespace Quiet

theorem diagnostics {m m' : Machine} (h : Quiet m m') : m'.diagnostics = m.diagnostics := by rw [h]

theorem functions {m m' : Machine} (h : Quiet m m') : m'.functions = m.functions := by rw [h]

theorem policy {m m' : Machine} (h : Quiet m m') : m'.policy = m.policy := by rw [h]

theorem refl (m : Machine) : Quiet m m := rfl

theorem note (m : Machine) (e : Event) : Quiet m (m.note e) := by
  by_cases h : m.tracing
  · rw [Machine.note, if_pos h]
    rfl
  · rw [Machine.note, if_neg h]
    exact refl m

theorem trans {a b c : Machine} (h₁ : Quiet a b) (h₂ : Quiet b c) : Quiet a c := by
  rw [Quiet, h₂, h₁]

theorem chain (m : Machine) (c : Chain) : Quiet m { m with chain := c } := rfl

theorem frames (m : Machine) (fs : List Frame) : Quiet m { m with frames := fs } := rfl

theorem line (m : Machine) (l : Option Line) : Quiet m { m with line := l } := rfl

theorem enterScope (m : Machine) : Quiet m m.enterScope := (chain m _).trans (note _ _)

theorem exitScope (m : Machine) : Quiet m m.exitScope := by
  by_cases h : m.chain.isGlobal
  · simpa [Machine.exitScope, h] using refl m
  · simpa [Machine.exitScope, h] using (chain m m.chain.exitScope).trans (note _ _)

theorem pushFrame (m : Machine) (k : FrameKind) : Quiet m (m.pushFrame k) :=
  (note m _).trans (frames _ _)

theorem popFrame (m : Machine) : Quiet m m.popFrame := by
  cases h : m.frames with
  | nil => simpa [Machine.popFrame, h] using refl m
  | cons f fs => simpa [Machine.popFrame, h] using (frames m fs).trans (note _ _)

theorem replaceArray (m : Machine) (x : Variable) (length : Nat) :
    Quiet m (m.replaceArray x length) := (note m _).trans (chain _ _)

end Quiet

namespace History

theorem refl (m : Machine) : History m m :=
  ⟨List.prefix_rfl, List.prefix_rfl, List.prefix_rfl, List.prefix_rfl, rfl, Nat.le_refl _, rfl⟩

theorem trans {a b c : Machine} (h₁ : History a b) (h₂ : History b c) : History a c where
  functions := h₁.functions.trans h₂.functions
  out := h₁.out.trans h₂.out
  err := h₁.err.trans h₂.err
  diagnostics := h₁.diagnostics.trans h₂.diagnostics
  input := h₂.input.trans h₁.input
  position := Nat.le_trans h₁.position h₂.position
  policy := h₂.policy.trans h₁.policy

theorem of_quiet {m m' : Machine} (h : Quiet m m') : History m m' := by
  rw [h]
  exact ⟨List.prefix_rfl, List.prefix_rfl, List.prefix_rfl, List.prefix_rfl, rfl, Nat.le_refl _,
    rfl⟩

theorem write (m : Machine) (s : Stream) (t : String) : History m (m.write s t) where
  functions := List.prefix_rfl
  out := by cases s <;> simp [Machine.write, Console.write]
  err := by cases s <;> simp [Machine.write, Console.write]
  diagnostics := List.prefix_rfl
  input := by simp [Machine.write]
  position := by simp [Machine.write]
  policy := rfl

theorem record (m : Machine) (w : Warning) : History m (m.record w) := by
  have hn := of_quiet (Quiet.note m (.warned m.line w))
  have hp (n : Machine) (d : Diagnostic) : History n { n with diagnostics := n.diagnostics.push d } :=
    ⟨List.prefix_rfl, List.prefix_rfl, List.prefix_rfl, by simp, rfl, Nat.le_refl _, rfl⟩
  by_cases h : m.policy = .report
  · simpa [Machine.record, h] using (hn.trans (write _ _ _)).trans (hp _ _)
  · simpa [Machine.record, h] using hn.trans (hp _ _)

theorem advance (m : Machine) (n : Nat) :
    History m { m with console := m.console.advance n } :=
  ⟨List.prefix_rfl, List.prefix_rfl, List.prefix_rfl, List.prefix_rfl, rfl,
    Nat.le_add_right _ _, rfl⟩

theorem register (m : Machine) (d : Definition) : History m (m.register d) := by
  have hn := of_quiet (Quiet.note m (.register d.name d.params.length (m.function? d.name).isSome))
  refine ⟨?_, hn.out, hn.err, hn.diagnostics, hn.input, hn.position, hn.policy⟩
  exact List.prefix_append _ _

theorem bracket {m n n' m' : Machine} (hu : Quiet m n) (hd : Quiet n' m') (h : History n n') :
    History m m' := ((of_quiet hu).trans h).trans (of_quiet hd)

theorem effects : Effects History History where
  refl := refl
  trans := trans
  transQ := trans
  weaken h := h
  note m e := of_quiet (Quiet.note m e)
  write := write
  record := record
  advance := advance
  setValue _ _ _ _ := of_quiet (Quiet.chain _ _)
  setElement _ _ _ _ := of_quiet (Quiet.chain _ _)
  setText _ _ _ _ _ := of_quiet (Quiet.chain _ _)
  declare _ _ := of_quiet (Quiet.chain _ _)
  replaceArray length _ _ _ _ := of_quiet (Quiet.replaceArray _ _ length)
  register := register
  scope h := bracket (Quiet.enterScope _) (Quiet.exitScope _) h
  frame k _ _ h := bracket (Quiet.pushFrame _ k) (Quiet.popFrame _) h
  frameQ k _ _ h := bracket (Quiet.pushFrame _ k) (Quiet.popFrame _) h
  call _ h := bracket (Quiet.chain _ _) (Quiet.chain _ _) h
  line _ _ _ h := bracket (Quiet.line _ _) (Quiet.line _ _) h

/-- A function that is found once is found again. -/
theorem function?_eq_some {m m' : Machine} (h : History m m') {name : String} {d : Definition}
    (hd : m.function? name = some d) : m'.function? name = some d := by
  obtain ⟨new, hn⟩ := h.functions
  unfold Machine.function? at *
  rw [← hn, List.find?_append, hd]
  rfl

theorem task (fuel : Nat) (t : Task) : (t.perform fuel).Keeps History :=
  effects.task (fun m l => of_quiet (Quiet.line m l)) fuel t

end History

def SameLine (m m' : Machine) : Prop := m'.line = m.line

theorem SameLine.effects : Effects SameLine SameLine where
  refl _ := rfl
  trans h₁ h₂ := Eq.trans h₂ h₁
  transQ h₁ h₂ := Eq.trans h₂ h₁
  weaken h := h
  note m e := by simp [SameLine]
  write _ _ _ := rfl
  record m w := by simp [SameLine]
  advance _ _ := rfl
  setValue _ _ _ _ := rfl
  setElement _ _ _ _ := rfl
  setText _ _ _ _ _ := rfl
  declare _ _ := rfl
  replaceArray _ _ _ _ _ := by simp [SameLine, Machine.replaceArray]
  register m d := by simp [SameLine]
  scope h := by simpa [SameLine] using h
  frame k _ _ h := by simpa [SameLine] using h
  frameQ k _ _ h := by simpa [SameLine] using h
  call _ h := h
  line _ _ _ _ := rfl

end Yap
