import Yap.Proofs.Effects

/-! Scopes, frames and calls are stacks: whatever is done on a machine, and however it ends, they
are afterwards what they were before. -/
namespace Yap

/-- Depth, frames and active calls are the same, and as many scopes were exited as entered. -/
structure SameStacks (m m' : Machine) : Prop where
  depth : m'.chain.depth = m.chain.depth
  frames : m'.frames = m.frames
  calls : m'.chain.calls = m.chain.calls
  scopes : ∃ n, m'.chain.entered = m.chain.entered + n ∧ m'.chain.exited = m.chain.exited + n

namespace SameStacks

theorem refl (m : Machine) : SameStacks m m := ⟨rfl, rfl, rfl, 0, rfl, rfl⟩

theorem trans {a b c : Machine} (h₁ : SameStacks a b) (h₂ : SameStacks b c) : SameStacks a c := by
  obtain ⟨n, hn, hn'⟩ := h₁.scopes
  obtain ⟨k, hk, hk'⟩ := h₂.scopes
  refine ⟨h₂.depth.trans h₁.depth, h₂.frames.trans h₁.frames, h₂.calls.trans h₁.calls, n + k, ?_⟩
  constructor <;> omega

theorem of_chain_eq {m m' : Machine} (hc : m'.chain = m.chain) (hf : m'.frames = m.frames) :
    SameStacks m m' := ⟨by rw [hc], hf, by rw [hc], 0, by rw [hc]; simp⟩

theorem update (m : Machine) (name : String) (f : Variable → Variable) :
    SameStacks m { m with chain := m.chain.update name f } :=
  ⟨by simp, rfl, by simp, 0, by simp⟩

/-- A scope entered on the way in is the one exited on the way out. -/
theorem scope {m m' : Machine} (h : SameStacks m.enterScope m') : SameStacks m m'.exitScope := by
  obtain ⟨n, hn, hn'⟩ := h.scopes
  have hd := h.depth
  have hf := h.frames
  have hc := h.calls
  simp only [Machine.chain_enterScope, Machine.frames_enterScope, Chain.enterScope, Chain.depth,
    List.length_cons] at hn hn' hd hf hc
  obtain ⟨s, rest, ho⟩ : ∃ s rest, m'.chain.outer = s :: rest := by
    cases ho : m'.chain.outer with
    | nil => simp [ho] at hd
    | cons s rest => exact ⟨s, rest, rfl⟩
  have hx : m'.exitScope.chain =
      { m'.chain with current := s, outer := rest, exited := m'.chain.exited + 1 } := by
    simp [Chain.exitScope, ho]
  rw [ho, List.length_cons] at hd
  refine ⟨?_, by simpa using hf, by rw [hx]; exact hc, n + 1, ?_, ?_⟩
  · rw [hx]; simp only [Chain.depth]; omega
  · rw [hx]; simp only; omega
  · rw [hx]; simp only; omega

theorem frame (k : FrameKind) {m m' : Machine} (h : SameStacks (m.pushFrame k) m') :
    SameStacks m m'.popFrame := by
  have hs := h.scopes
  refine ⟨?_, ?_, ?_, ?_⟩
  · simpa using h.depth
  · simp [h.frames]
  · simpa using h.calls
  · simpa using hs

theorem call {m m' : Machine} {c : Chain} (hc : m.chain.enterCall = .ok c)
    (h : SameStacks { m with chain := c } m') :
    SameStacks m { m' with chain := m'.chain.exitCall } := by
  obtain ⟨-, rfl⟩ := Chain.enterCall_eq_ok.1 hc
  have hn := h.calls
  exact ⟨h.depth, h.frames, by simp only [Chain.exitCall] at *; omega, h.scopes⟩

theorem effects : Effects SameStacks SameStacks where
  refl := refl
  trans := trans
  transQ := trans
  weaken h := h
  note m e := of_chain_eq (by simp) (by simp)
  write m s t := of_chain_eq rfl rfl
  record m w := of_chain_eq (by simp) (by simp)
  advance _ _ := of_chain_eq rfl rfl
  setValue _ _ _ _ := update _ _ _
  setElement _ _ _ _ := update _ _ _
  setText _ _ _ _ _ := update _ _ _
  declare _ hc := by
    obtain ⟨-, rfl⟩ := Chain.declare_eq_ok.1 hc
    exact ⟨rfl, rfl, rfl, 0, rfl, rfl⟩
  replaceArray _ _ _ _ _ := ⟨by simp [Machine.replaceArray, Chain.replaceCurrent, Chain.depth],
    by simp [Machine.replaceArray], by simp [Machine.replaceArray, Chain.replaceCurrent], 0,
    by simp [Machine.replaceArray, Chain.replaceCurrent]⟩
  register m d := of_chain_eq (by simp) (by simp)
  scope := scope
  frame := frame
  frameQ := frame
  call := call
  line _ _ _ h := ⟨h.depth, h.frames, h.calls, h.scopes⟩

theorem task (fuel : Nat) (t : Task) : (t.perform fuel).Keeps SameStacks :=
  effects.task (fun _ _ => of_chain_eq rfl rfl) fuel t

end SameStacks

/-- What a runner runs under a frame of each kind. -/
inductive Framed (r : Runner) : FrameKind → Run Flow → Prop
  | call (d : Definition) (values : List Value) :
      Framed r (.call d.name d.returns) (r.bound d values)
  | whileDo (cond : Expr) (body : Stmt) :
      Framed r .loop (r.headed (pure ()) (r.whileTurn cond body))
  | doWhile (body : Stmt) (cond : Expr) :
      Framed r .loop (r.headed (pure ()) (r.doTurn body cond))
  | forLoop (init : Option Stmt) (cond : Option Expr) (next : Option Stmt) (body : Stmt) :
      Framed r .loop (r.headed (r.headerPart init) (r.forTurn cond next body))
  | switch (n : Int32) (cases : List Case) : Framed r .switch (r.runCases n false cases)

theorem Framed.keeps {fuel : Nat} {k : FrameKind} {x : Run Flow}
    (h : Framed (.ofFuel fuel) k x) : x.Keeps SameStacks := by
  have hc := SameStacks.effects.congruence
  have hr := SameStacks.effects.ofFuel fuel
  cases h with
  | call d values => exact hc.bound hr d values
  | whileDo cond body => exact SameStacks.effects.headed fuel (hc.done ()) (hc.whileTurn hr cond body)
  | doWhile body cond => exact SameStacks.effects.headed fuel (hc.done ()) (hc.doTurn hr body cond)
  | forLoop init cond next body =>
    exact SameStacks.effects.headed fuel (hc.headerPart hr init) (hc.forTurn hr cond next body)
  | switch n cases => exact hc.runCases hr n false cases

/-- A frame that is popped is the one that was pushed, at the scope depth of that time, which is
the depth now. -/
theorem Framed.top {fuel : Nat} {k : FrameKind} {x : Run Flow} (h : Framed (.ofFuel fuel) k x)
    {m m' : Machine} (hm : (x (m.pushFrame k)).machine? = some m') :
    m'.frames = ⟨k, m'.chain.depth⟩ :: m.frames := by
  have hs := h.keeps hm
  have hd : m'.chain.depth = m.chain.depth := by simpa using hs.depth
  rw [hs.frames, hd, Machine.frames_pushFrame]

theorem SameStacks.of_new {limit : Nat} {policy : Policy} {tracing : Bool} {input : List UInt8}
    {m : Machine} (h : SameStacks (.new limit policy tracing input) m) :
    m.chain.isGlobal ∧ m.chain.entered = m.chain.exited ∧ m.frames = [] ∧ m.chain.calls = 0 := by
  obtain ⟨n, hn, hn'⟩ := h.scopes
  have hd := h.depth
  simp only [Machine.new, Chain.new, Chain.depth, List.length_nil] at hn hn' hd
  refine ⟨?_, by omega, h.frames, h.calls⟩
  have ho : m.chain.outer.length = 0 := by omega
  simpa [Chain.isGlobal] using ho

/-- Every task leaves the stacks as it found them, every frame is popped at the depth at which it
was pushed, and what starts on a new machine ends in the global scope with nothing live. -/
theorem stacks_kept (fuel : Nat) :
    (∀ (t : Task) (m m' : Machine), (t.perform fuel m).machine? = some m' → SameStacks m m') ∧
    (∀ (k : FrameKind) (x : Run Flow), Framed (.ofFuel fuel) k x → ∀ m m' : Machine,
      (x (m.pushFrame k)).machine? = some m' → m'.frames = ⟨k, m'.chain.depth⟩ :: m.frames) ∧
    ∀ (t : Task) (limit : Nat) (policy : Policy) (tracing : Bool) (input : List UInt8)
      (m : Machine), (t.perform fuel (.new limit policy tracing input)).machine? = some m →
      m.chain.isGlobal ∧ m.chain.entered = m.chain.exited ∧ m.frames = [] ∧ m.chain.calls = 0 := by
  refine ⟨?_, ?_, ?_⟩
  · intro t m m' hm
    exact SameStacks.task fuel t hm
  · intro k x hx m m' hm
    exact hx.top hm
  · intro t limit policy tracing input m hm
    exact (SameStacks.task fuel t hm).of_new

/-- A loop that a return leaves from inside a branch, in a function whose value is an exit code. -/
def exitThroughLoop : Program :=
  let branch : Stmt := ⟨.ifElse (.ident "n") ⟨.giveBack (some (.ident "n")), some 3⟩ none, some 3⟩
  let body : Stmt := ⟨.whileDo (.literal (.int 1)) ⟨.block [branch], some 2⟩, some 2⟩
  ⟨[⟨.define ⟨1, "f", some .int, [⟨"n", .int⟩], body⟩, some 1⟩,
    ⟨.expr (.call "ragequit" [.call "f" [.literal (.int 7)]]), some 5⟩]⟩

theorem stacks_kept_exitThroughLoop : ∃ m' m'' : Machine,
    ((Task.run exitThroughLoop).perform 12 (.new 1 .report false [])).machine? = some m' ∧
    SameStacks (.new 1 .report false []) m' ∧ m'.chain.entered = m'.chain.exited ∧
    (Runner.runCases (.ofFuel 12) 0 false [⟨none, [⟨.leave, none⟩]⟩]
      ((Machine.new 1 .report false []).pushFrame .switch)).machine? = some m'' ∧
    m''.frames = [⟨.switch, m''.chain.depth⟩] := by
  have hrun : ((Task.run exitThroughLoop).perform 12
      (.new 1 .report false [])).machine?.isSome := by decide +kernel
  have hcases : (Runner.runCases (.ofFuel 12) 0 false [⟨none, [⟨.leave, none⟩]⟩]
      ((Machine.new 1 .report false []).pushFrame .switch)).machine?.isSome := by decide +kernel
  obtain ⟨m', hm'⟩ := Option.isSome_iff_exists.1 hrun
  obtain ⟨m'', hm''⟩ := Option.isSome_iff_exists.1 hcases
  obtain ⟨htask, hframe, hnew⟩ := stacks_kept 12
  obtain ⟨-, hscopes, -, -⟩ := hnew _ _ _ _ _ _ hm'
  exact ⟨m', m'', hm', htask _ _ _ hm', hscopes, hm'', hframe _ _ (.switch 0 _) _ _ hm''⟩

end Yap
