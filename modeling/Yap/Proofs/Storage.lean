import Yap.Proofs.Effects

/-! What is stored is at the kind it was declared with, on every machine that can be met. -/
namespace Yap

/-- A value at char is an int of eight bits. -/
theorem Value.At.int_of_char {v : Value} (h : v.At .char) :
    ∃ n : Int32, v = .int n ∧ -128 ≤ n.toInt ∧ n.toInt ≤ 127 := by
  have hlow := v.toInt32.toInt8.le_toInt
  have hhigh := v.toInt32.toInt8.toInt_lt
  refine ⟨v.toInt32.toInt8.toInt32, h.symm, ?_, ?_⟩
  · rw [Int8.toInt_toInt32]
    omega
  · rw [Int8.toInt_toInt32]
    omega

def Chain.WellKinded (c : Chain) : Prop := ∀ x, c.Has x → x.WellKinded

def KeepsKinds (m m' : Machine) : Prop := m.chain.WellKinded → m'.chain.WellKinded

namespace Chain

variable {c : Chain}

theorem WellKinded.update {name : String} {f : Variable → Variable} {x : Variable}
    (h : c.WellKinded) (hx : c.find? name = some x) (hf : (f x).WellKinded) :
    (c.update name f).WellKinded := by
  intro y hy
  rcases has_update hx hy with hy | rfl
  · exact h y hy
  · exact hf

theorem WellKinded.insert {x : Variable} (h : c.WellKinded) (hx : x.WellKinded) :
    WellKinded { c with current := c.current.insert x } := by
  rintro y ⟨s, hs, hy⟩
  rcases List.mem_cons.1 hs with rfl | hs
  · rcases Scope.mem_insert hy with hy | rfl
    · exact h y ⟨c.current, List.mem_cons_self, hy⟩
    · exact hx
  · exact h y ⟨s, List.mem_cons_of_mem _ hs, hy⟩

end Chain

namespace KeepsKinds

theorem of_chain_eq {m m' : Machine} (hc : m'.chain = m.chain) : KeepsKinds m m' := by
  intro h
  rw [hc]
  exact h

theorem enterScope (m : Machine) : KeepsKinds m m.enterScope := by
  intro h x hx
  rw [Machine.chain_enterScope, Chain.has_enterScope] at hx
  exact h x hx

theorem exitScope (m : Machine) : KeepsKinds m m.exitScope := by
  intro h x hx
  rw [Machine.chain_exitScope] at hx
  exact h x (Chain.has_exitScope hx)

theorem enterCall {m : Machine} {c : Chain} (hc : m.chain.enterCall = .ok c) :
    KeepsKinds m { m with chain := c } := by
  obtain ⟨-, rfl⟩ := Chain.enterCall_eq_ok.1 hc
  exact id

theorem effects : Effects KeepsKinds KeepsKinds where
  refl _ h := h
  trans h₁ h₂ h := h₂ (h₁ h)
  transQ h₁ h₂ h := h₂ (h₁ h)
  weaken h := h
  note m e := of_chain_eq (by simp)
  write _ _ _ := of_chain_eq rfl
  record m w := of_chain_eq (by simp)
  advance _ _ := of_chain_eq rfl
  setValue v hx _ _ h := h.update hx ((h _ (Chain.has_of_find? hx)).setValue v)
  setElement {m name x b} i v hx hs h := by
    have hb := h x (Chain.has_of_find? hx)
    simp only [Variable.WellKinded, hs] at hb
    refine h.update hx ?_
    simpa [Variable.WellKinded, Variable.setBuffer, hs, hb.1] using hb.2.write name i v
  setText {m name x b b' bytes} hx hs _ _ hb' h := by
    have hb := h x (Chain.has_of_find? hx)
    simp only [Variable.WellKinded, hs] at hb
    refine h.update hx ?_
    have hk := (Buffer.store?_eq_some hb').1
    simpa [Variable.WellKinded, Variable.setBuffer, hs, hb.1, hk] using hb.2.store? hb'
  declare hx hc h := by
    obtain ⟨-, rfl⟩ := Chain.declare_eq_ok.1 hc
    exact h.insert hx
  replaceArray {m x y} length hx _ _ _ h := by
    have hc : (m.replaceArray x length).chain = m.chain.replaceCurrent x := rfl
    rw [hc]
    exact h.insert hx
  register m d := of_chain_eq (by simp)
  scope {m m'} hs h := exitScope m' (hs (enterScope m h))
  frame k {m m'} hs h := by simpa using hs (by simpa using h)
  frameQ k {m m'} hs h := by simpa using hs (by simpa using h)
  call hc hs h := hs (enterCall hc h)
  line _ _ _ hs h := hs h

theorem task (fuel : Nat) (t : Task) : (t.perform fuel).Keeps KeepsKinds :=
  effects.task (fun _ _ => of_chain_eq rfl) fuel t

end KeepsKinds

theorem Chain.wellKinded_new (limit : Nat) : (Chain.new limit).WellKinded := by
  rintro x ⟨s, hs, hx⟩
  simp only [scopes, new, List.mem_singleton] at hs
  subst hs
  cases hx

theorem Reachable.wellKinded {m : Machine} (h : Reachable m) : m.chain.WellKinded := by
  induction h with
  | new limit => exact Chain.wellKinded_new limit
  | task fuel t _ hm ih => exact KeepsKinds.task fuel t hm ih
  | interrupt b _ ih => exact ih
  | line l _ ih => exact ih
  | note e _ ih => exact KeepsKinds.effects.note _ e ih
  | write s t _ ih => exact ih
  | record w _ ih => exact KeepsKinds.effects.record _ w ih
  | bindParams ps vs _ hm ih => exact KeepsKinds.effects.congruence.bindParams ps vs hm ih
  | enterScope _ ih => exact KeepsKinds.enterScope _ ih
  | exitScope _ ih => exact KeepsKinds.exitScope _ ih
  | pushFrame k _ ih => simpa using ih
  | popFrame _ ih => simpa using ih
  | enterCall _ hc ih => exact KeepsKinds.enterCall hc ih
  | exitCall _ ih => exact ih

/-- On a machine that can be met, what a scalar of a live scope holds is unchanged by converting it
to the declared kind, in eight bits if that is char, and an array has cells of the declared kind. -/
theorem stored_at_kind {m : Machine} (hm : Reachable m) {s : Scope} (hs : s ∈ m.chain.scopes)
    {x : Variable} (hx : x ∈ s.vars) :
    (∀ v, x.storage = .scalar v → v.convert x.kind = v ∧
      (x.kind = .char → ∃ n : Int32, v = .int n ∧ -128 ≤ n.toInt ∧ n.toInt ≤ 127)) ∧
    ∀ b, x.storage = .array b → b.kind = x.kind ∧ ∀ v ∈ b.cells, v.convert x.kind = v := by
  have hw : x.WellKinded := hm.wellKinded x ⟨s, hs, hx⟩
  refine ⟨?_, ?_⟩
  · intro v hv
    have hat : v.At x.kind := by simpa [Variable.WellKinded, hv] using hw
    refine ⟨hat, fun hk => ?_⟩
    rw [hk] at hat
    exact hat.int_of_char
  · intro b hb
    have hbuffer : b.kind = x.kind ∧ b.WellKinded := by simpa [Variable.WellKinded, hb] using hw
    refine ⟨hbuffer.1, fun v hv => ?_⟩
    rw [← hbuffer.1]
    exact hbuffer.2 v hv

/-- An array declared again with another kind and length, and a char that starts out of range. -/
def redeclared : Program :=
  ⟨[⟨.declareArray "a" .short .none 2 none, none⟩,
    ⟨.declareArray "a" .char .none 3 (some [.literal (.int 300)]), none⟩,
    ⟨.declare "c" .char .none (some (.literal (.int 456))), none⟩]⟩

theorem stored_at_kind_redeclared : ∃ (m : Machine) (s t : Scope) (x y : Variable) (b : Buffer),
    ((Task.run redeclared).perform 5 (.new 9 .report false [])).machine? = some m ∧
    Reachable m ∧ s ∈ m.chain.scopes ∧ x ∈ s.vars ∧ x.storage = .array b ∧ b.kind = .char ∧
    t ∈ m.chain.scopes ∧ y ∈ t.vars ∧ ∃ n : Int32, y.storage = .scalar (.int n) ∧
      -128 ≤ n.toInt ∧ n.toInt ≤ 127 := by
  have hx : (((Task.run redeclared).perform 5 (.new 9 .report false [])).machine?.bind
      (·.chain.find? "a")).map (fun x => (x.kind, x.isArray)) = some (.char, true) := by
    decide +kernel
  have hy : (((Task.run redeclared).perform 5 (.new 9 .report false [])).machine?.bind
      (·.chain.find? "c")).map (fun y => (y.kind, y.isArray)) = some (.char, false) := by
    decide +kernel
  obtain ⟨x, hx, hxk⟩ := Option.map_eq_some_iff.1 hx
  obtain ⟨m, hm, hx⟩ := Option.bind_eq_some_iff.1 hx
  obtain ⟨y, hy, hyk⟩ := Option.map_eq_some_iff.1 hy
  rw [hm] at hy
  obtain ⟨s, hs, hxs⟩ := Chain.has_of_find? hx
  obtain ⟨t, ht, hyt⟩ := Chain.has_of_find? hy
  have hr : Reachable m := .task 5 _ (.new 9 .report false []) hm
  obtain ⟨-, harray⟩ := stored_at_kind hr hs hxs
  obtain ⟨hscalar, -⟩ := stored_at_kind hr ht hyt
  cases hb : x.storage with
  | scalar v => simp [Variable.isArray, hb] at hxk
  | array b =>
    cases hv : y.storage with
    | array b' => simp [Variable.isArray, hv] at hyk
    | scalar v =>
      obtain ⟨n, rfl, hlow, hhigh⟩ := (hscalar v hv).2 (congrArg Prod.fst hyk)
      exact ⟨m, s, t, x, y, b, hm, hr, hs, hxs, hb, (harray b hb).1.trans (congrArg Prod.fst hxk),
        ht, hyt, n, hv, hlow, hhigh⟩

end Yap
