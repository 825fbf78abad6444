import Yap.Proofs.Halting
import Yap.Proofs.Scoping

/-! Programs without loops end, whatever their functions call, because the active calls are
limited. The fuel they need is told by the size of the text and the calls that are left: every
call takes at most the size of a body and leaves one call less. -/
namespace Yap

theorem sizeOf_expr_pos (e : Expr) : 0 < sizeOf e := by cases e <;> simp +arith

theorem sizeOf_stmt_pos (s : Stmt) : 0 < sizeOf s := by cases s; simp +arith

theorem Definition.loopFree_body (d : Definition) : d.body.loopFree = d.loopFree := by cases d; rfl

/-- Fuel for a part of a size and for so many calls is enough. The call that a body takes pays for
the size of the body. -/
theorem Halting.ofFuel {b k n j : Nat} (hj : j ≤ k) (hn : j + b * (k + 1) ≤ n) :
    Halting (.ofFuel n) b k j := by
  induction n generalizing b j with
  | zero =>
    refine ⟨hj, fun {e} he => ?_, fun {s} _ hs => ?_, fun {d} hb _ _ => ?_⟩
    · have he' := sizeOf_expr_pos e
      omega
    · have hs' := sizeOf_stmt_pos s
      omega
    · have hpos : 0 < b * (k + 1) := Nat.mul_pos hb (Nat.succ_pos k)
      omega
  | succ n ih =>
    refine ⟨hj, fun {e} he => ?_, fun {s} hs hsj => ?_, fun {d} hb hd hk => ?_⟩
    · have he' := sizeOf_expr_pos e
      exact (ih (j := j - 1) (by omega) (by omega)).evalNode (by omega)
    · have hs' := sizeOf_stmt_pos s
      exact (ih (j := j - 1) (by omega) (by omega)).execNode hs (by omega)
    · obtain ⟨b, rfl⟩ := Nat.exists_eq_add_one.2 hb
      have hd' := sizeOf_stmt_pos d.body
      have hpay : (b + 1) * (k + 1) = b * (k + 1) + (k + 1) := Nat.succ_mul b (k + 1)
      have hbody : d.body.loopFree = true := d.loopFree_body.trans hd
      exact (ih (b := b) (j := k - 1) (by omega) (by omega)).execNode hbody (by omega)

theorem Halting.executeAll {r : Runner} {b k n : Nat} (h : Halting r b k n) {ss : List Stmt}
    (hf : loopFreeAll ss = true) (hn : sizeOf ss ≤ n) :
    (r.executeAll ss).Halts b k := by
  induction ss with
  | nil => exact .pure ()
  | cons s ss ih =>
    simp only [loopFreeAll, Bool.and_eq_true] at hf
    simp only [List.cons.sizeOf_spec] at hn
    exact .bind (h.exec hf.1 (by omega)) fun _ => ih hf.2 (by omega)

theorem Stmt.halts_loadAll {b k : Nat} {ss : List Stmt} (hf : loopFreeAll ss = true)
    (hk : sizeOf ss ≤ k) : (Stmt.loadAll ss).Halts b k := by
  induction ss with
  | nil => exact .pure ()
  | cons s ss ih =>
    simp only [loopFreeAll, Bool.and_eq_true] at hf
    simp only [List.cons.sizeOf_spec] at hk
    have hrest := ih hf.2 (by omega)
    obtain ⟨action, line⟩ := s
    rw [Stmt.loadAll]
    cases action with
    | define d =>
      have hbody : sizeOf d.body ≤ k := by
        obtain ⟨id, name, returns, params, body⟩ := d
        simp only [Stmt.mk.sizeOf_spec, Action.define.sizeOf_spec, Definition.mk.sizeOf_spec] at hk
        dsimp only
        omega
      have hline := Run.Halts.modify (b := b) (k := k) (.line line) fun _ => rfl
      exact .bind hline fun _ => .bind (Halting.register hf.1 hbody) fun _ => hrest
    | _ => exact .bind (.pure ()) fun _ => hrest

/-- A run of a program that ends, ends with a status or an error. -/
theorem Program.halts_run {b k n : Nat} {p : Program} (hp : p.loopFree = true)
    (hk : sizeOf p.statements ≤ k) (hn : k + b * (k + 1) ≤ n) {m : Machine} (hm : m.Bounded b k) :
    p.run n m ≠ .outOfFuel := by
  have hload : p.load.Halts b k :=
    .bind (Stmt.halts_loadAll hp hk) fun _ => .modify (.line none) fun _ => rfl
  have hexecute : (p.execute n).Halts b k :=
    (Halting.ofFuel (Nat.le_refl k) hn).executeAll hp hk
  obtain ⟨m', hm', -⟩ := (hload.bind fun _ => hexecute) hm
  rw [Program.run, Program.exitStatus]
  split
  · simp
  · simp
  · simp
  · rename_i hr
    rw [hr] at hm'
    cases hm'

theorem sizeOf_body_le {ds : List Definition} {d : Definition} (h : d ∈ ds) :
    sizeOf d.body ≤ sizeOf ds := by
  have hd := List.sizeOf_lt_of_mem h
  obtain ⟨id, name, returns, params, body⟩ := d
  simp only [Definition.mk.sizeOf_spec] at hd
  dsimp only
  omega

/-- A program without loops ends on every machine whose functions have none either, with a status
or with a reason to stop. -/
theorem run_ends_of_loopFree (p : Program) (m : Machine) (hp : p.loopFree = true)
    (hm : ∀ d ∈ m.functions, d.loopFree = true) :
    ∃ (fuel : Nat) (o : Outcome Int32),
      ((∃ status m', o = .done status m') ∨ ∃ s m', o = .stopped s m') ∧
      ∀ n, fuel ≤ n → p.run n m = o := by
  let k := sizeOf p.statements + sizeOf m.functions
  let fuel := k + m.chain.limit * (k + 1)
  have hbounded : m.Bounded m.chain.limit k := by
    refine ⟨by omega, fun d hd => ⟨hm d hd, ?_⟩⟩
    exact Nat.le_trans (sizeOf_body_le hd) (Nat.le_add_left _ _)
  have hends : p.run fuel m ≠ .outOfFuel :=
    p.halts_run hp (Nat.le_add_right _ _) (Nat.le_refl _) hbounded
  refine ⟨fuel, p.run fuel m, ?_, fun n hn => (Task.run p).perform_of_le hn hends⟩
  cases hr : p.run fuel m with
  | done status m' => exact Or.inl ⟨status, m', rfl⟩
  | stopped s m' => exact Or.inr ⟨s, m', rfl⟩
  | outOfFuel => exact absurd hr hends

/-- Two functions, one defined in the other, that call each other for ever. -/
def runaway : Program :=
  let back : Stmt := ⟨.giveBack (some (.call "f" [.call "f" [.ident "n"]])), none⟩
  let inner : Definition := ⟨2, "g", some .int, [⟨"n", .int⟩], back⟩
  let there : Stmt := ⟨.giveBack (some (.call "g" [.ident "n"])), none⟩
  ⟨[⟨.define ⟨1, "f", some .int, [⟨"n", .int⟩], ⟨.block [⟨.define inner, none⟩, there], none⟩⟩,
      none⟩, ⟨.print (.call "f" [.literal (.int 0)]), none⟩]⟩

theorem run_ends_of_loopFree_runaway : ∃ (fuel : Nat) (o : Outcome Int32),
    runaway.loopFree = true ∧ shadowing.loopFree = true ∧
    ((∃ status m', o = .done status m') ∨ ∃ s m', o = .stopped s m') ∧
    ∀ n, fuel ≤ n → runaway.run n .ofShadowed = o := by
  have hp : runaway.loopFree = true := by decide
  have hd : shadowing.loopFree = true := by decide
  have hm : ∀ d ∈ Machine.ofShadowed.functions, d.loopFree = true := by
    intro d hmem
    obtain rfl := List.mem_singleton.1 hmem
    exact hd
  obtain ⟨fuel, o, ho, hrun⟩ := run_ends_of_loopFree runaway .ofShadowed hp hm
  exact ⟨fuel, o, hp, hd, ho, hrun⟩

end Yap
