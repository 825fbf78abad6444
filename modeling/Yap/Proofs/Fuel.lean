import Yap.Proofs.Session

/-! Fuel decides only whether a run ends. With more of it, a run that has ended ends in the same
way, so any two runs of a task that end agree. -/
namespace Yap

/-- Where the first computation ends, the second ends in the same way. -/
def Run.Approximates {α : Type} (x y : Run α) : Prop := ∀ m, x m ≠ .outOfFuel → y m = x m

namespace Run.Approximates

variable {α β : Type}

theorem refl (x : Run α) : x.Approximates x := fun _ _ => rfl

theorem exhausted (y : Run α) : (Run.exhausted : Run α).Approximates y := fun _ hm => absurd rfl hm

theorem bind {x y : Run α} {f g : α → Run β} (hx : x.Approximates y)
    (hf : ∀ a, (f a).Approximates (g a)) : (x >>= f).Approximates (y >>= g) := by
  intro m hm
  have hxm : x m ≠ .outOfFuel := by
    intro h
    rw [bind_apply, h] at hm
    exact hm rfl
  rw [bind_apply] at hm
  rw [bind_apply, bind_apply, hx m hxm]
  cases hr : x m with
  | done a n =>
    rw [hr] at hm
    exact hf a n hm
  | stopped s n => rfl
  | outOfFuel => rfl

/-- What is made of an outcome is an outcome only where there is one. -/
theorem map {x y : Run α} {n : Machine} {f : Outcome α → Outcome β} (hx : x.Approximates y)
    (hf : f .outOfFuel = .outOfFuel) (hm : f (x n) ≠ .outOfFuel) : f (y n) = f (x n) := by
  have hxn : x n ≠ .outOfFuel := by
    intro h
    rw [h] at hm
    exact hm hf
  rw [hx n hxn]

theorem bracket (up down : Machine → Machine) {x y : Run α} (hx : x.Approximates y) :
    (Run.bracket up down x).Approximates (Run.bracket up down y) := by
  intro m hm
  exact hx.map (f := (·.mapMachine down)) rfl hm

theorem inCall {x y : Run α} (hx : x.Approximates y) :
    (Run.inCall x).Approximates (Run.inCall y) := by
  rw [inCall_eq, inCall_eq]
  refine bind (refl _) fun o => ?_
  cases o with
  | ok chain => exact hx.bracket _ _
  | error c => exact refl _

theorem atLine (l : Option Line) {x y : Run α} (hx : x.Approximates y) :
    (Run.atLine l x).Approximates (Run.atLine l y) := by
  intro m hm
  exact hx.map (f := fun o => (o.mapMachine _).mapStop _) rfl hm

theorem exitStatus {x y : Run Unit} (hx : x.Approximates y) :
    (Program.exitStatus x).Approximates (Program.exitStatus y) := by
  intro m hm
  have hxm : x m ≠ .outOfFuel := by
    intro h
    rw [Program.exitStatus, h] at hm
    exact hm rfl
  rw [Program.exitStatus, Program.exitStatus, hx m hxm]

theorem congruence : Congruence (fun _ x y => x.Approximates y) fun _ x y => x.Approximates y where
  done _ := refl _
  stop _ := refl _
  bind := bind
  sequence := bind
  weaken hx := hx
  gets _ := refl _
  current _ := refl _
  note _ := refl _
  write _ _ := refl _
  report _ := refl _
  readWith _ := refl _
  overwrite _ _ := refl _
  writeElement _ _ _ := refl _
  storeText _ _ := refl _
  declare _ := refl _
  replaceArray _ _ _ := refl _
  register _ := refl _
  inScope hx := hx.bracket _ _
  underFrame _ _ _ hx := hx.bracket _ _
  overFrame _ _ _ hx := hx.bracket _ _
  inCall := inCall
  atLine l _ _ := atLine l

theorem iterate {turn turn' : Run (Option Flow)} (ht : turn.Approximates turn') {n k : Nat}
    (h : n ≤ k) : (Runner.iterate turn n).Approximates (Runner.iterate turn' k) := by
  induction n generalizing k with
  | zero => exact exhausted _
  | succ n ih =>
    obtain ⟨k, rfl⟩ : ∃ j, k = j + 1 := Nat.exists_eq_add_one.2 (by omega)
    rw [Runner.iterate_succ, Runner.iterate_succ]
    refine bind ht fun o => ?_
    cases o with
    | none => exact ih (by omega)
    | some f => exact refl _

/-- With more fuel the parts of a statement or expression end as they did. -/
theorem ofFuel {n k : Nat} (h : n ≤ k) : (Runner.ofFuel n).Related (fun _ x y => x.Approximates y)
    (fun _ x y => x.Approximates y) (Runner.ofFuel k) := by
  induction n generalizing k with
  | zero => exact ⟨fun _ => exhausted _, fun _ => exhausted _, fun ht => iterate ht h⟩
  | succ n ih =>
    obtain ⟨k, rfl⟩ : ∃ j, k = j + 1 := Nat.exists_eq_add_one.2 (by omega)
    have hr := ih (k := k) (by omega)
    exact ⟨congruence.evalNode hr, congruence.execNode hr, fun ht => iterate ht h⟩

end Run.Approximates

/-- More fuel does not change how a task ends. -/
theorem Task.perform_of_le (t : Task) {n k : Nat} (h : n ≤ k) {m : Machine}
    (hm : t.perform n m ≠ .outOfFuel) : t.perform k m = t.perform n m := by
  have hline (l : Option Line) : (Run.modify fun m => { m with line := l }).Approximates
      (Run.modify fun m => { m with line := l }) := .refl _
  have hrun := Run.Approximates.congruence.perform hline (Run.Approximates.ofFuel h)
    Run.Approximates.exitStatus t
  exact hrun m hm

end Yap
