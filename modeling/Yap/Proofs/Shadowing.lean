import Yap.Proofs.Places
import Yap.Proofs.Scoping

/-! A variable whose name is bound further in is out of reach. Whatever is done on a machine, and
however it ends, it stays the same variable in the same place as long as that scope is live. -/
namespace Yap
namespace Chain

/-- A name is bound in the scope at a place, counted from the current one outward. -/
def Binds (c : Chain) (i : Nat) (name : String) : Prop :=
  ∃ s, c.scopes[i]? = some s ∧ name ∈ s.names

/-- A name is bound in a scope that is further in. -/
def Hides (c : Chain) (i : Nat) (name : String) : Prop := ∃ k, k < i ∧ c.Binds k name

theorem binds_iff_shapes {c : Chain} {i : Nat} {name : String} :
    c.Binds i name ↔ ∃ xs, c.shapes[i]? = some xs ∧ name ∈ xs.map (·.name) := by
  rw [shapes, List.getElem?_map]
  constructor
  · rintro ⟨s, hs, hn⟩
    refine ⟨s.shapes, by rw [hs]; rfl, ?_⟩
    rw [Scope.names_shapes]
    exact hn
  · rintro ⟨xs, hxs, hn⟩
    obtain ⟨s, hs, rfl⟩ := Option.map_eq_some_iff.1 hxs
    rw [← Scope.shapes, Scope.names_shapes] at hn
    exact ⟨s, hs, hn⟩

theorem getElem?_updateIn {name : String} (f : Variable → Variable) {ss : List Scope} {s : Scope}
    {i k : Nat} (hk : k < i) (hs : ss[k]? = some s) (hn : name ∈ s.names) :
    (updateIn name f ss)[i]? = ss[i]? := by
  induction ss generalizing i k with
  | nil => rfl
  | cons t ss ih =>
    obtain ⟨i, rfl⟩ := Nat.exists_eq_add_one.2 (Nat.zero_lt_of_lt hk)
    rw [updateIn]
    by_cases ht : t.contains name
    · rw [if_pos ht]
      rfl
    · rw [if_neg ht]
      cases k with
      | zero =>
        obtain rfl := Option.some.inj hs
        exact absurd ((Scope.contains_iff t name).2 hn) ht
      | succ k => exact ih (Nat.lt_of_succ_lt_succ hk) hs

/-- An update changes no variable whose name is bound further in. -/
theorem var?_update_of_hides {c : Chain} {name : String} (f : Variable → Variable) {i j : Nat}
    {x : Variable} (hx : c.var? i j = some x) (h : c.Hides i x.name) :
    (c.update name f).var? i j = some x := by
  by_cases hn : x.name = name
  · obtain ⟨k, hk, s, hs, hmem⟩ := h
    rw [hn] at hmem
    rw [var?, scopes_update, getElem?_updateIn f hk hs hmem]
    exact hx
  · rcases var?_update f hx with h | h
    · exact h
    · exact absurd (name_of_find? h) hn

theorem var?_replaceCurrent_of_hides {c : Chain} (y : Variable) {i j : Nat} {x : Variable}
    (hx : c.var? i j = some x) (h : c.Hides i x.name) :
    (c.replaceCurrent y).var? i j = some x := by
  obtain ⟨k, hk, -⟩ := h
  rcases var?_replaceCurrent y hx with h | ⟨rfl, -⟩
  · exact h
  · omega

theorem binds_enterScope {c : Chain} {i : Nat} {name : String} :
    c.enterScope.Binds (i + 1) name ↔ c.Binds i name := Iff.rfl

theorem hides_enterScope {c : Chain} {i : Nat} {name : String} (h : c.Hides i name) :
    c.enterScope.Hides (i + 1) name := by
  obtain ⟨k, hk, hb⟩ := h
  exact ⟨k + 1, by omega, binds_enterScope.2 hb⟩

theorem binds_exitScope {c : Chain} {i : Nat} {name : String} (h : c.Binds (i + 1) name) :
    c.exitScope.Binds i name := by
  obtain ⟨s, hs, hn⟩ := h
  rw [exitScope]
  cases ho : c.outer with
  | nil => simp [scopes, ho] at hs
  | cons t rest =>
    rw [scopes, ho] at hs
    exact ⟨s, hs, hn⟩

theorem depth_exitScope {c : Chain} (h : 1 < c.depth) : c.exitScope.depth + 1 = c.depth := by
  rw [depth] at h
  rw [exitScope]
  cases ho : c.outer with
  | nil => simp [ho] at h
  | cons s rest => simp [depth, ho]

end Chain

theorem SameShapes.binds {m m' : Machine} (h : SameShapes m m') {i : Nat} {name : String}
    (hb : m.chain.Binds i name) : m'.chain.Binds i name := by
  rw [Chain.binds_iff_shapes] at hb ⊢
  rw [h]
  exact hb

theorem Variable.Shape.Extends.names {xs ys : List Variable.Shape} (h : Extends xs ys)
    {name : String} (hn : name ∈ xs.map (·.name)) : name ∈ ys.map (·.name) := by
  obtain ⟨kept, new, rfl, hkept, -, -⟩ := h
  rw [List.map_append, ← Succeeds.names_eq hkept]
  exact List.mem_append_left _ hn

/-- Statements unbind no name. -/
theorem ExtendsCurrent.binds {m m' : Machine} (h : ExtendsCurrent m m') {i : Nat} {name : String}
    (hb : m.chain.Binds i name) : m'.chain.Binds i name := by
  obtain ⟨houter, hcurrent⟩ := h
  rw [Chain.binds_iff_shapes] at hb ⊢
  obtain ⟨xs, hxs, hn⟩ := hb
  cases i with
  | zero =>
    obtain rfl := Option.some.inj hxs
    exact ⟨_, rfl, hcurrent.names hn⟩
  | succ i =>
    have htail : m.chain.shapes.tail[i]? = some xs := hxs
    rw [← houter] at htail
    exact ⟨xs, htail, hn⟩

/-- Every variable whose name is bound further in is the same in the same place. -/
def HiddenKept (m m' : Machine) : Prop :=
  ∀ (i j : Nat) (x : Variable), m.chain.var? i j = some x → m.chain.Hides i x.name →
    m'.chain.var? i j = some x

namespace HiddenKept

theorem of_chain_eq {m m' : Machine} (h : m'.chain = m.chain) : HiddenKept m m' := by
  intro i j x hx _
  rw [h]
  exact hx

/-- What is hidden and stays the same is still hidden, as the names further in stay. -/
theorem trans {a b c : Machine} (hb : ∀ {i name}, a.chain.Binds i name → b.chain.Binds i name)
    (h₁ : HiddenKept a b) (h₂ : HiddenKept b c) : HiddenKept a c := by
  intro i j x hx hh
  have hx' := h₁ i j x hx hh
  obtain ⟨k, hk, hn⟩ := hh
  exact h₂ i j x hx' ⟨k, hk, hb hn⟩

theorem update (m : Machine) (name : String) (f : Variable → Variable) :
    HiddenKept m { m with chain := m.chain.update name f } :=
  fun _ _ _ hx hh => Chain.var?_update_of_hides f hx hh

theorem replaceCurrent (m : Machine) (y : Variable) :
    HiddenKept m { m with chain := m.chain.replaceCurrent y } :=
  fun _ _ _ hx hh => Chain.var?_replaceCurrent_of_hides y hx hh

theorem scope {m m' : Machine} (h : HiddenKept m.enterScope m') : HiddenKept m m'.exitScope := by
  intro i j x hx hh
  have hin : m'.chain.var? (i + 1) j = some x := by
    refine h (i + 1) j x ?_ ?_
    · rw [Machine.chain_enterScope, Chain.var?_enterScope]
      exact hx
    · rw [Machine.chain_enterScope]
      exact Chain.hides_enterScope hh
  rw [Machine.chain_exitScope]
  exact Chain.var?_exitScope hin

theorem effects : Effects (fun m m' => SameShapes m m' ∧ HiddenKept m m')
    fun m m' => ExtendsCurrent m m' ∧ HiddenKept m m' where
  refl m := ⟨ExtendsCurrent.effects.refl m, of_chain_eq rfl⟩
  trans h₁ h₂ := ⟨ExtendsCurrent.effects.trans h₁.1 h₂.1, trans h₁.1.binds h₁.2 h₂.2⟩
  transQ h₁ h₂ := ⟨ExtendsCurrent.effects.transQ h₁.1 h₂.1, trans h₁.1.binds h₁.2 h₂.2⟩
  weaken h := ⟨ExtendsCurrent.of_sameShapes h.1, h.2⟩
  note m e := ⟨ExtendsCurrent.effects.note m e, of_chain_eq (by simp)⟩
  write m s t := ⟨ExtendsCurrent.effects.write m s t, of_chain_eq rfl⟩
  record m w := ⟨ExtendsCurrent.effects.record m w, of_chain_eq (by simp)⟩
  advance m n := ⟨ExtendsCurrent.effects.advance m n, of_chain_eq rfl⟩
  setValue v hx hc ha := ⟨ExtendsCurrent.effects.setValue v hx hc ha, update _ _ _⟩
  setElement i v hx hs := ⟨ExtendsCurrent.effects.setElement i v hx hs, update _ _ _⟩
  setText hx hs hk hc hb := ⟨ExtendsCurrent.effects.setText hx hs hk hc hb, update _ _ _⟩
  declare {m x c} hx hc := by
    refine ⟨ExtendsCurrent.effects.declare hx hc, ?_⟩
    obtain ⟨-, rfl⟩ := Chain.declare_eq_ok.1 hc
    exact replaceCurrent m x
  replaceArray {m x y} length hx ha hy hya :=
    ⟨ExtendsCurrent.effects.replaceArray length hx ha hy hya, replaceCurrent m x⟩
  register m d := ⟨ExtendsCurrent.effects.register m d, of_chain_eq (by simp)⟩
  scope h := ⟨ExtendsCurrent.effects.scope h.1, scope h.2⟩
  frame k {m m'} h := by
    refine ⟨ExtendsCurrent.effects.frame k h.1, ?_⟩
    simpa [HiddenKept] using h.2
  frameQ k {m m'} h := by
    refine ⟨ExtendsCurrent.effects.frameQ k h.1, ?_⟩
    simpa [HiddenKept] using h.2
  call hc h := by
    refine ⟨ExtendsCurrent.effects.call hc h.1, ?_⟩
    obtain ⟨-, rfl⟩ := Chain.enterCall_eq_ok.1 hc
    exact h.2
  line l _ _ h := ⟨ExtendsCurrent.effects.line l h.1, h.2⟩

theorem task (fuel : Nat) (t : Task) :
    (t.perform fuel).Keeps fun m m' => ExtendsCurrent m m' ∧ HiddenKept m m' := by
  refine effects.task ?_ fuel t
  intro m l
  exact ⟨ExtendsCurrent.of_sameShapes rfl, of_chain_eq rfl⟩

end HiddenKept
end Yap
