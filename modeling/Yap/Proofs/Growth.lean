import Yap.Proofs.Stacks

/-! What follows a computation that has ended, and how many scopes a computation enters at
least. -/
namespace Yap

namespace Outcome

variable {α β : Type}

def andThen (o : Outcome α) (close : Machine → Machine) (rest : α → Run β) : Outcome β :=
  match o with
  | done a m => rest a m
  | stopped s m => .stopped s (close m)
  | outOfFuel => .outOfFuel

theorem andThen_eq_done {o : Outcome α} {close : Machine → Machine} {rest : α → Run β} {b : β}
    {m : Machine} (h : o.andThen close rest = done b m) :
    ∃ a m', o = done a m' ∧ rest a m' = done b m := by
  cases o with
  | done a m' => exact ⟨a, m', rfl, h⟩
  | stopped s m' => cases h
  | outOfFuel => cases h

theorem mapMachine_eq_andThen (o : Outcome α) (close : Machine → Machine) :
    o.mapMachine close = o.andThen close fun a => Run.bracket id close (pure a) := by
  cases o <;> rfl

end Outcome

namespace Run

variable {α β : Type}

def Grows (n : Nat) (x : Run α) : Prop :=
  ∀ ⦃m m' : Machine⦄ ⦃a : α⦄, x m = .done a m' → m.chain.entered + n ≤ m'.chain.entered

theorem Keeps.grows {x : Run α} (h : x.Keeps SameStacks) : x.Grows 0 := by
  intro m m' a hm
  obtain ⟨n, hn, -⟩ := (h (by rw [hm]; rfl)).scopes
  omega

theorem Grows.mono {x : Run α} {n k : Nat} (h : x.Grows n) (hk : k ≤ n) : x.Grows k := by
  intro m m' a hm
  have hn := h hm
  omega

theorem Grows.bind {x : Run α} {f : α → Run β} {n k : Nat} (hx : x.Grows n)
    (hf : ∀ a, (f a).Grows k) : (x >>= f).Grows (n + k) := by
  intro m m' b hm
  obtain ⟨a, m₁, hm₁, hm'⟩ := bind_eq_done.1 hm
  have h₁ := hx hm₁
  have h₂ := hf a hm'
  omega

theorem Grows.pure (a : α) : (Pure.pure a : Run α).Grows 0 := by
  intro m m' b hm
  cases hm
  exact Nat.le_refl _

theorem Grows.andThen {x : Run Flow} (hx : x.Grows 0) (f : Flow) : (f.andThen x).Grows 0 := by
  cases f with
  | normal => exact hx
  | leave => exact Grows.pure _
  | giveBack v => exact Grows.pure _

theorem Grows.iterate {turn : Run (Option Flow)} {n : Nat} (ht : turn.Grows n) (k : Nat) :
    (Runner.iterate turn k).Grows n := by
  induction k with
  | zero => intro m m' f hm; cases hm
  | succ k ih =>
    rw [Runner.iterate_succ]
    refine ht.bind (k := 0) fun o => ?_
    cases o with
    | none => exact ih.mono (Nat.zero_le n)
    | some f => exact Grows.pure f

theorem Grows.nextTurn {turn : Run (Option Flow)} (ht : turn.Grows 0) (k : Nat) (o : Option Flow) :
    (Runner.nextTurn turn k o).Grows 0 := by
  cases o with
  | none => exact ht.iterate k
  | some f => exact Grows.pure f

theorem Grows.afterCase {x : Run Flow} (hx : x.Grows 0) (c : Case) (f : Flow) :
    (Runner.afterCase c x f).Grows 0 := by
  cases f with
  | normal =>
    by_cases hl : c.label.isNone
    · simpa [Runner.afterCase, hl] using Grows.pure Flow.normal
    · simpa [Runner.afterCase, hl] using hx
  | leave => exact Grows.pure _
  | giveBack v => exact Grows.pure _

theorem Grows.bracket {up down : Machine → Machine} {x : Run α} {n k : Nat} (hx : x.Grows n)
    (hu : ∀ m, (up m).chain.entered = m.chain.entered + k)
    (hd : ∀ m, (down m).chain.entered = m.chain.entered) : (bracket up down x).Grows (n + k) := by
  intro m m' a hm
  obtain ⟨m₁, hr, rfl⟩ := bracket_eq_done.1 hm
  have h₁ := hx hr
  have h₂ := hu m
  have h₃ := hd m₁
  omega

theorem bind_apply_andThen (x : Run α) (f : α → Run β) (m : Machine) :
    (x >>= f) m = (x m).andThen id f := by
  rw [bind_apply]
  cases x m <;> rfl

theorem bind_mapMachine (x : Run α) (f : α → Run β) (g : Machine → Machine) (m : Machine) :
    ((x >>= f) m).mapMachine g = (x m).andThen g fun a => Run.bracket id g (f a) := by
  rw [bind_apply]
  cases x m <;> rfl

theorem bind_andThen {γ : Type} {o : Outcome α} {x : Run β} {m : Machine}
    {close : Machine → Machine} {after : α → Run β} (h : x m = o.andThen close after)
    (f : β → Run γ) : (x >>= f) m = o.andThen close fun a => after a >>= f := by
  rw [bind_apply, h]
  cases o <;> rfl

/-- A scope behind whose first part the rest is still to come. -/
theorem inScope_of_done {x : Run α} {f : α → Run β} {a : α} {m m' : Machine}
    (h : x m.enterScope = .done a m') :
    inScope (x >>= f) m = (f a m').mapMachine Machine.exitScope := by
  rw [inScope, bracket, bind_of_done h]

end Run
end Yap
