import Yap.Proofs.Places
import Yap.Proofs.Shapes

/-! Constants keep their values. Every way to write to a variable looks first whether it is one, and
what it has looked at is still what it writes to. Only statements may put another array in the place
of a constant one, and only in the current scope. -/
namespace Yap

/-- Every constant is the same variable in the same place, but for arrays of some names in the
current scope. -/
def ConstantsBut (N : String → Prop) (m m' : Machine) : Prop :=
  ∀ (i j : Nat) (x : Variable), m.chain.var? i j = some x → x.modifiers.const = true →
    m'.chain.var? i j = some x ∨ i = 0 ∧ x.isArray = true ∧ N x.name

/-- Every constant is the same variable in the same place. -/
def SameConstants (m m' : Machine) : Prop :=
  ∀ (i j : Nat) (x : Variable), m.chain.var? i j = some x → x.modifiers.const = true →
    m'.chain.var? i j = some x

namespace SameConstants

theorem of_chain_eq {m m' : Machine} (h : m'.chain = m.chain) : SameConstants m m' := by
  intro i j x hx _
  rw [h]
  exact hx

theorem trans {a b c : Machine} (h₁ : SameConstants a b) (h₂ : SameConstants b c) :
    SameConstants a c := fun i j x hx hc => h₂ i j x (h₁ i j x hx hc) hc

theorem but {m m' : Machine} (h : SameConstants m m') (N : String → Prop) : ConstantsBut N m m' :=
  fun i j x hx hc => Or.inl (h i j x hx hc)

/-- A write to what is not a constant. -/
theorem update {m : Machine} {name : String} {y : Variable} (f : Variable → Variable)
    (hy : m.chain.find? name = some y) (hc : y.modifiers.const = false) :
    SameConstants m { m with chain := m.chain.update name f } := by
  intro i j x hx hconst
  rcases Chain.var?_update f hx with h | h
  · exact h
  · obtain rfl := Option.some.inj (hy.symm.trans h)
    rw [hc] at hconst
    cases hconst

theorem declare {m : Machine} {y : Variable} {c : Chain} (h : m.chain.declare y = .ok c) :
    SameConstants m { m with chain := c } := by
  obtain ⟨hfree, rfl⟩ := Chain.declare_eq_ok.1 h
  intro i j x hx _
  rcases Chain.var?_replaceCurrent y hx with h | ⟨-, h⟩
  · exact h
  · rw [← Scope.find?_isSome, h] at hfree
    cases hfree

end SameConstants

namespace ConstantsBut

variable {N N' : String → Prop}

theorem trans {a b c : Machine} (h₁ : ConstantsBut N a b) (h₂ : ConstantsBut N b c) :
    ConstantsBut N a c := by
  intro i j x hx hc
  rcases h₁ i j x hx hc with h | h
  · exact h₂ i j x h hc
  · exact Or.inr h

theorem mono {m m' : Machine} (h : ConstantsBut N m m') (hn : ∀ name, N name → N' name) :
    ConstantsBut N' m m' := by
  intro i j x hx hc
  rcases h i j x hx hc with h | ⟨hi, ha, hname⟩
  · exact Or.inl h
  · exact Or.inr ⟨hi, ha, hn _ hname⟩

/-- An array put in the place of one of its name. -/
theorem replaceCurrent {m : Machine} {y : Variable}
    (h : ∀ x, m.chain.current.find? y.name = some x → x.isArray = true) :
    ConstantsBut (· = y.name) m { m with chain := m.chain.replaceCurrent y } := by
  intro i j x hx _
  rcases Chain.var?_replaceCurrent y hx with hx' | ⟨rfl, hx'⟩
  · exact Or.inl hx'
  · exact Or.inr ⟨rfl, h x hx', Scope.name_of_find? hx'⟩

theorem effects : Effects.Core SameConstants (ConstantsBut fun _ => True) where
  refl _ := SameConstants.of_chain_eq rfl
  trans := SameConstants.trans
  transQ := trans
  weaken h := h.but _
  note m e := SameConstants.of_chain_eq (by simp)
  write _ _ _ := SameConstants.of_chain_eq rfl
  record m w := SameConstants.of_chain_eq (by simp)
  advance _ _ := SameConstants.of_chain_eq rfl
  setValue _ hx hc _ := SameConstants.update _ hx hc
  setText hx _ _ hc _ := SameConstants.update _ hx hc
  declare _ h := (SameConstants.declare h).but _
  replaceArray {m x y} length _ _ hy hya := by
    have h : ConstantsBut (· = x.name) m (m.replaceArray x length) := by
      refine replaceCurrent fun z hz => ?_
      obtain rfl := Option.some.inj (hy.symm.trans hz)
      exact hya
    exact h.mono fun _ _ => trivial
  scope {m m'} h := by
    intro i j x hx hc
    have henter : m.enterScope.chain.var? (i + 1) j = some x := by
      rw [Machine.chain_enterScope, Chain.var?_enterScope]
      exact hx
    rcases h (i + 1) j x henter hc with h | ⟨hi, -, -⟩
    · rw [Machine.chain_exitScope]
      exact Chain.var?_exitScope h
    · cases hi
  frame k {m m'} h := by simpa [SameConstants] using h
  frameQ k {m m'} h := by simpa [ConstantsBut] using h
  call hc h := by
    obtain ⟨-, rfl⟩ := Chain.enterCall_eq_ok.1 hc
    exact h
  line _ _ _ h := h

end ConstantsBut

/-- From a machine with a property, the machine that a computation leaves is related to it. -/
def Run.KeepsFrom {α : Type} (I : Machine → Prop) (P : Machine → Machine → Prop) (x : Run α) :
    Prop :=
  ∀ ⦃m m' : Machine⦄, I m → (x m).machine? = some m' → P m m'

theorem Run.KeepsFrom.bind {α β : Type} {I : Machine → Prop} {P : Machine → Machine → Prop}
    (ht : ∀ {a b c}, P a b → P b c → P a c) {x : Run α} {f : α → Run β} (hx : x.Keeps P)
    (hi : x.Keeps fun a b => I a → I b) (hf : ∀ a, (f a).KeepsFrom I P) :
    (x >>= f).KeepsFrom I P := by
  intro m m' hm h
  rcases machine?_bind_eq_some h with ⟨s, hs⟩ | ⟨a, n, ha, hn⟩
  · exact hx.of_stopped hs
  · exact ht (hx.of_done ha) (hf a (hi.of_done ha hm) hn)

theorem Run.Keeps.from {α : Type} {I : Machine → Prop} {P : Machine → Machine → Prop} {x : Run α}
    (hx : x.Keeps P) : x.KeepsFrom I P := fun _ _ _ h => hx h

/-- A name stands for a variable that may be written to. -/
def Machine.MayWrite (name : String) (m : Machine) : Prop :=
  ∃ x, m.chain.find? name = some x ∧ x.modifiers.const = false

theorem SameShapes.mayWrite {m m' : Machine} (h : SameShapes m m') {name : String}
    (hw : m.MayWrite name) : m'.MayWrite name := by
  obtain ⟨x, hx, hc⟩ := hw
  obtain ⟨y, hy, hyx⟩ := Chain.find?_of_shapes h hx
  have hmodifiers : y.modifiers = x.modifiers := congrArg Variable.Shape.modifiers hyx
  exact ⟨y, hy, by rw [hmodifiers, hc]⟩

namespace SameConstants

theorem writeElement (name : String) (i : Int32) (v : Value) :
    (Run.writeElement name i v).KeepsFrom (Machine.MayWrite name) SameConstants := by
  rintro m m' ⟨x, hx, hc⟩ h
  rw [Run.writeElement_guarded, Run.bind_of_done (x := Run.gets _) rfl, hx, Option.bind_some] at h
  cases hb : x.buffer? with
  | none =>
    rw [hb] at h
    cases h
    exact of_chain_eq rfl
  | some b =>
    rw [hb] at h
    exact (update _ hx hc).trans (ConstantsBut.effects.reportAny _ h)

section Elements

variable {n : Nat}
  (hr : (Runner.ofFuel n).Related (fun _ x _ => Run.Keeps SameConstants x)
    (fun _ x _ => Run.Keeps (ConstantsBut fun _ => True) x) (Runner.ofFuel n))
include hr

/-- What may be written to still may behind the value that is written. -/
theorem assignAt (name : String) (kind : Kind) (i : Int32) (value : Expr) :
    ((Runner.ofFuel n).assignAt name kind i value).KeepsFrom (Machine.MayWrite name)
      SameConstants := by
  have hc := ConstantsBut.effects.congruence
  have hshapes := SameShapes.effects.congruence.evalAs (SameShapes.effects.ofFuel n) value kind
  refine Run.KeepsFrom.bind (P := SameConstants) trans (hc.gets (.variable name)) ?_ fun o => ?_
  · intro m m' h hw
    cases h
    exact hw
  · cases o.bind (·.buffer?) with
    | none => exact Run.Keeps.from (ConstantsBut.effects.report _)
    | some b =>
      dsimp only
      split
      · refine Run.KeepsFrom.bind (P := SameConstants) trans (hc.evalAs hr value kind) ?_ fun v => ?_
        · exact Run.Keeps.weaken (P := SameShapes) hshapes fun h hw => h.mayWrite hw
        · exact writeElement name i v
      · exact Run.Keeps.from (ConstantsBut.effects.report _)

/-- A constant is refused before the index is evaluated, and behind the index what is written to
is still no constant. -/
theorem assignElement (name : String) (index value : Expr) :
    ((Runner.ofFuel n).assignElement name index value).Keeps SameConstants := by
  intro m m' h
  have hc := ConstantsBut.effects.congruence
  have hshapes := SameShapes.effects.congruence.evalInt (SameShapes.effects.ofFuel n) index
  have hlookup : (Run.lookupArray name).Keeps SameConstants := hc.lookupArray name
  rcases Run.machine?_bind_eq_some h with ⟨s, hs⟩ | ⟨x, m₀, hx, h⟩
  · exact hlookup.of_stopped hs
  obtain ⟨hfind, rfl⟩ := Run.lookupArray_eq_done.1 hx
  have hwritable : (Run.writable x).Keeps SameConstants := hc.writable x
  rcases Run.machine?_bind_eq_some h with ⟨s, hs⟩ | ⟨u, m₀, hu, h⟩
  · exact hwritable.of_stopped hs
  obtain ⟨hconst, rfl⟩ := Run.writable_eq_done.1 hu
  have hw : m.MayWrite name := ⟨x, hfind, hconst⟩
  by_cases ha : x.isArray
  · rw [if_pos ha] at h
    refine Run.KeepsFrom.bind (P := SameConstants) trans (hc.evalInt hr index) ?_ (fun i => ?_) hw h
    · exact Run.Keeps.weaken (P := SameShapes) hshapes fun h hw => h.mayWrite hw
    · intro n n' hn h'
      rcases Run.machine?_bind_eq_some h' with ⟨s, hs⟩ | ⟨u, n₁, hu, hn'⟩
      · exact assignAt hr name x.kind i value hn (by rw [hs]; rfl)
      · cases hn'
        exact assignAt hr name x.kind i value hn (by rw [hu]; rfl)
  · rw [if_neg ha] at h
    have hreport : (Run.report (.notAnArray name)).Keeps SameConstants :=
      ConstantsBut.effects.report _
    exact Run.Keeps.bind (P := SameConstants) trans hreport (fun _ => hc.done Flow.normal) h

end Elements

theorem register (d : Definition) : (Runner.register d).Keeps SameConstants := by
  have hc := ConstantsBut.effects.congruence
  have hadd : (Run.modify (·.register d)).Keeps SameConstants := by
    intro m m' h
    cases h
    exact of_chain_eq (by simp)
  refine Run.Keeps.bind (P := SameConstants) trans (hc.gets (.function d.name)) fun earlier => ?_
  refine Run.Keeps.bind (P := SameConstants) trans hadd fun _ => ?_
  split
  · exact ConstantsBut.effects.report _
  · exact hc.done ()

theorem define (d : Definition) : (Runner.define d).Keeps SameConstants := by
  have hc := ConstantsBut.effects.congruence
  refine Run.Keeps.bind (P := SameConstants) trans (hc.gets (.known d)) fun known => ?_
  split
  · exact hc.done Flow.normal
  · exact Run.Keeps.bind (P := SameConstants) trans (register d) fun _ => hc.done Flow.normal

theorem ofFuel (n : Nat) :
    (Runner.ofFuel n).Related (fun _ x _ => Run.Keeps SameConstants x)
      (fun _ x _ => Run.Keeps (ConstantsBut fun _ => True) x) (Runner.ofFuel n) := by
  have hc := ConstantsBut.effects.congruence
  refine hc.ofFuel (fun hm => by cases hm) (fun n hr => assignElement hr) ?_ n
  intro d
  exact (define d).weaken fun h => h.but _

end SameConstants

end Yap
