import Mathlib
import Yap.Machine.Evaluation
import Yap.Machine.Printing
import Yap.Proofs.Integers
import Yap.Proofs.Shapes

/-! Unsigned variables in divisions. A quotient takes the number that is stored, with its sign, and
a remainder takes the pattern at 32 bits, while what is shown is the pattern at the bits of the
variable. Main statement: these are the quotient and remainder by any positive int, and exactly when
they are those of the number shown. -/
namespace Yap

open Numeral

/-- A stored number of so many bits, and the number its pattern shows without sign. -/
structure Patterned (w : Nat) (a U : Int) : Prop where
  width : w = 16 ∨ w = 32
  lower : -2 ^ (w - 1) ≤ a
  upper : a < 2 ^ (w - 1)
  shown : U = a % 2 ^ w

namespace Patterned

variable {w : Nat} {a U n : Int} (h : Patterned w a U)
include h

theorem power_eq : (2 : Int) ^ w = 2 * 2 ^ (w - 1) ∧ (2 : Int) ^ (w - 1) ≤ 2 ^ 31 := by
  obtain ⟨rfl | rfl, -⟩ := h <;> norm_num

theorem bounds : -2 ^ 31 ≤ a ∧ a < 2 ^ 31 := by
  have hpower := h.power_eq
  have hlower := h.lower
  have hupper := h.upper
  omega

theorem of_nonneg (ha : 0 ≤ a) : U = a := by
  have hpower := h.power_eq
  have hupper := h.upper
  rw [h.shown]
  exact Int.emod_eq_of_lt ha (by omega)

theorem of_neg (ha : a < 0) : U = a + 2 ^ w := by
  have hpower := h.power_eq
  have hlower := h.lower
  rw [h.shown, ← Int.add_emod_right]
  exact Int.emod_eq_of_lt (by omega) (by omega)

theorem shown_nonneg : 0 ≤ U := by
  rw [h.shown]
  exact Int.emod_nonneg a (by positivity)

theorem neg_le_shown (ha : a < 0) : -a ≤ U := by
  have hU := h.of_neg ha
  have hpower := h.power_eq
  have hlower := h.lower
  omega

theorem quotients_mul_le (ha : a < 0) (hn : 0 < n) : (U / n + -a / n) * n ≤ 2 ^ w := by
  have hU := h.of_neg ha
  have hshown := Int.ediv_mul_le U hn.ne'
  have hstored := Int.ediv_mul_le (-a) hn.ne'
  rw [add_mul]
  omega

/-- For a negative number the two quotients differ by the sum of those of both magnitudes. The
magnitudes make up the power of two, so only a quotient by one can differ by all of it. -/
theorem quotient_of_neg (ha : a < 0) (hn : 0 < n) :
    a.tdiv n ≡ U / n [ZMOD 2 ^ 32] ↔ U < n ∨ w = 32 ∧ n = 1 := by
  have hquotient : a.tdiv n = -(-a / n) := by
    rw [← Int.tdiv_eq_ediv_of_nonneg (by omega), Int.neg_tdiv, neg_neg]
  have hpos : 0 ≤ U / n ∧ 0 ≤ -a / n :=
    ⟨Int.ediv_nonneg h.shown_nonneg hn.le, Int.ediv_nonneg (by omega) hn.le⟩
  have hle := h.quotients_mul_le ha hn
  rw [hquotient, Int.modEq_iff_dvd, sub_neg_eq_add]
  constructor
  · intro hdvd
    by_cases hone : n = 1
    · subst hone
      rw [Int.ediv_one, Int.ediv_one, h.of_neg ha] at hdvd
      obtain ⟨rfl | rfl, -⟩ := h
      · omega
      · exact .inr ⟨rfl, rfl⟩
    · -- at least halved, the magnitudes no longer reach the power of two
      have hpower := h.power_eq
      have hdouble : (U / n + -a / n) * 2 ≤ (U / n + -a / n) * n :=
        mul_le_mul_of_nonneg_left (by omega) (by omega)
      have hlt : U / n + -a / n < 2 ^ 32 := by omega
      have hzero := Int.eq_zero_of_dvd_of_nonneg_of_lt (by omega) hlt hdvd
      have hshown : U / n < 1 := by omega
      exact .inl (by simpa using (Int.ediv_lt_iff_lt_mul hn).1 hshown)
  · rintro (hlt | ⟨rfl, rfl⟩)
    · have hstored := h.neg_le_shown ha
      rw [Int.ediv_eq_zero_of_lt h.shown_nonneg hlt,
        Int.ediv_eq_zero_of_lt (by omega) (by omega)]
      exact dvd_zero _
    · rw [Int.ediv_one, Int.ediv_one, h.of_neg ha]
      exact ⟨1, by omega⟩

theorem quotient_iff (hn : 0 < n) :
    a.tdiv n ≡ U / n [ZMOD 2 ^ 32] ↔ 0 ≤ a ∨ U < n ∨ w = 32 ∧ n = 1 := by
  by_cases ha : 0 ≤ a
  · rw [h.of_nonneg ha, Int.tdiv_eq_ediv_of_nonneg ha]
    exact ⟨fun _ => .inl ha, fun _ => rfl⟩
  · rw [h.quotient_of_neg (by omega) hn]
    simp [ha]

theorem bmod_quotient (hn : 0 < n) : (a.tdiv n).bmod (2 ^ 32) = a.tdiv n := by
  have hbounds := h.bounds
  have hmagnitude : (a.tdiv n).natAbs ≤ a.natAbs := by
    rw [Int.natAbs_tdiv]
    exact Nat.div_le_self _ _
  have hsign (ha : a < 0) : a.tdiv n ≤ 0 := by
    have hneg := Int.tdiv_nonneg (Int.neg_nonneg_of_nonpos ha.le) hn.le
    rw [Int.neg_tdiv] at hneg
    omega
  exact Int.bmod_eq_of_le (by omega) (by omega)

theorem remainder_iff (hn : 0 < n) (hlt : n < 2 ^ 31) :
    a % 2 ^ 32 % n ≡ U % n [ZMOD 2 ^ 32] ↔ 0 ≤ a ∨ n ∣ 2 ^ 32 - 2 ^ w := by
  have hbound (x : Int) : 0 ≤ x % n ∧ x % n < 2 ^ 32 :=
    ⟨Int.emod_nonneg x hn.ne', (Int.emod_lt_of_pos x hn).trans (hlt.trans (by norm_num))⟩
  have hresidue : a % 2 ^ 32 % n ≡ U % n [ZMOD 2 ^ 32] ↔ a % 2 ^ 32 % n = U % n := by
    rw [Int.ModEq, Int.emod_eq_of_lt (hbound _).1 (hbound _).2,
      Int.emod_eq_of_lt (hbound _).1 (hbound _).2]
  rw [hresidue]
  have hbounds := h.bounds
  by_cases ha : 0 ≤ a
  · have hwide : a % 2 ^ 32 = a := by omega
    rw [hwide, h.of_nonneg ha]
    exact ⟨fun _ => .inl ha, fun _ => rfl⟩
  · have hU := h.of_neg (by omega)
    have hwide : a % 2 ^ 32 - U = 2 ^ 32 - 2 ^ w := by omega
    rw [Int.emod_eq_emod_iff_emod_sub_eq_zero, hwide, ← Int.dvd_iff_emod_eq_zero]
    simp [ha]

end Patterned

namespace Format

def Spec.decimal : Spec := ⟨.none, none, none, .signed, ['%', 'd']⟩

theorem parse_decimal : parse "%d" = .ok [.spec .decimal] := by cbv

theorem Spec.render_decimal (n : Nat) :
    Spec.decimal.render (.integer n) = .ok (Numeral.decimal n) := by
  have hsign : ¬ (n : Int) < 0 := by omega
  simp [render, decimal, Conversion.argClass, renderInteger, renderSigned, pad, sign, hsign,
    integerDigits, Numeral.decimal, padZeros, Flags.none]

end Format

/-- The pattern of a stored short or int at the bits of its kind. -/
theorem Value.patterned {v : Value} {k : Kind} {w : Nat} (hv : v.At k) (hk : k.bits? = some w) :
    ∃ (a : Int) (U : Nat), v.number? = some a ∧ Patterned w a U ∧
      (if k.asRead.numeric = .short then (v.toInt16.toUInt16.toNat : Int)
        else (v.toInt32.toUInt32.toNat : Int)) = U := by
  have hkind := hv.kind_eq
  cases k with
  | short =>
    cases hk
    cases v with
    | short n =>
      exact ⟨n.toInt, n.toUInt16.toNat, rfl,
        ⟨.inl rfl, n.le_toInt, n.toInt_lt, (Wrapping.toInt_emod n.toBitVec).symm⟩, rfl⟩
    | _ => cases hkind
  | int =>
    cases hk
    cases v with
    | int n =>
      exact ⟨n.toInt, n.toUInt32.toNat, rfl,
        ⟨.inr rfl, n.le_toInt, n.toInt_lt, (Wrapping.toInt_emod n.toBitVec).symm⟩, rfl⟩
    | _ => cases hkind
  | _ => cases hk

/-- What an operator on an int gives where the int is not zero. -/
theorem Value.binary_int {v : Value} {a : Int} {n : Int32} (hk : v.kind.promote .int = .int)
    (ha : v.number? = some a) (hn : n.toInt ≠ 0) (op : BinaryOp) (u : Bool) :
    (binary op v (int n) u).warning = none ∧ ∃ q : Int32, (binary op v (int n) u).value = int q ∧
      q.toInt = (op.exact u 32 a n.toInt).bmod (2 ^ 32) := by
  have hexact := Wrapping.int.computesExactly (r := int n) hk op u
  obtain rfl : a = _ := Option.some.inj (ha.symm.trans hexact.left.1)
  have hnumber := hexact.exact (.inl hn)
  have hkind := hexact.kind.trans hk
  refine ⟨hexact.unwarned hn, ?_⟩
  generalize (binary op v (int n) u).value = y at hkind hnumber
  cases y with
  | int q => exact ⟨q, rfl, Option.some.inj hnumber⟩
  | _ => cases hkind

def Machine.Shows (m : Machine) (name : String) (U : Nat) : Prop :=
  ∀ k, (Runner.ofFuel (k + 1)).render "%d" [.ident name] m =
    .done (String.ofList (decimal U)) m

section

variable {m m' : Machine} {name : String} {x : Variable} {v : Value}

theorem Runner.eval_ident (hx : m.chain.find? name = some x) (hs : x.storage = .scalar v)
    (k : Nat) : (ofFuel (k + 1)).eval (.ident name) m = .done v m := by
  have hlookup : Run.lookup name m = .done x m := Run.lookup_eq_done.2 ⟨hx, rfl⟩
  have hvalue : x.value = .clean v := by rw [Variable.value, hs]
  change Run.read name m = _
  rw [Run.read, Run.bind_of_done hlookup, hvalue]
  rfl

theorem Machine.isUnsigned_ident (hx : m.chain.find? name = some x) :
    m.isUnsigned (.ident name) = x.modifiers.unsigned := by
  rw [isUnsigned, hx]

theorem Machine.shows (hx : m.chain.find? name = some x) (hu : x.modifiers.unsigned = true)
    (hs : x.storage = .scalar v) {U : Nat}
    (hU : (if x.kind.asRead.numeric = .short then (v.toInt16.toUInt16.toNat : Int)
      else (v.toInt32.toUInt32.toNat : Int)) = U) : m.Shows name U := by
  intro k
  have hkind : Run.kindOf (.ident name) m = .done x.kind.asRead m :=
    Run.kindOf_eq_done.2 ⟨by rw [Machine.kindOf, hx], rfl⟩
  have harg : (Runner.ofFuel (k + 1)).formatArg .decimal (.ident name) m =
      .done (.integer U) m := by
    change (Runner.ofFuel (k + 1)).integerArg (.ident name) m = _
    rw [Runner.integerArg, Run.bind_of_done (x := Run.gets _) rfl, Run.bind_of_done hkind,
      Run.bind_of_done (Runner.eval_ident hx hs k), isUnsigned_ident hx, hu]
    simp only [if_true, hU]
    rfl
  have htext : Run.ofExcept ((Format.Spec.decimal.render (.integer U)).mapError .format) m =
      .done (decimal U) m := by
    rw [Format.Spec.render_decimal]
    rfl
  have hpieces : (Runner.ofFuel (k + 1)).renderPieces [.spec .decimal] [.ident name] m =
      .done (decimal U) m := by
    rw [Runner.renderPieces, Run.bind_of_done harg, Run.bind_of_done htext, Runner.renderPieces]
    simp [Run.pure_apply]
  rw [Runner.render, Format.parse_decimal]
  change ((Runner.ofFuel (k + 1)).renderPieces [.spec .decimal] [.ident name] >>= _) m = _
  rw [Run.bind_of_done hpieces]
  rfl

/-- An operator on a variable and an int, where the result needs no fallback. -/
theorem Expr.eval_binary_ident {op : BinaryOp} {e : Expr} {n : Int32} {f : Modifiers} {k : Nat}
    (hx : m.chain.find? name = some x) (hu : x.modifiers.unsigned = true)
    (hs : x.storage = .scalar v) (he : (Runner.ofFuel (k + 1)).eval e m = .done (.int n) m')
    (hw : (Value.binary op v (.int n) (op = .mod)).warning = none) :
    (Expr.binary op (.ident name) e f).eval (k + 2) m =
      .done (Value.binary op v (.int n) (op = .mod)).value m' := by
  have hshapes : SameShapes m m' :=
    ((SameShapes.effects.ofFuel (k + 1)).eval e).of_done he
  obtain ⟨y, hy, hyx⟩ := Chain.find?_of_shapes hshapes hx
  have hflag : m'.isUnsigned (.ident name) = true := by
    rw [Machine.isUnsigned_ident hy]
    exact (congrArg (·.modifiers.unsigned) hyx).trans hu
  rw [Expr.eval_succ, Runner.evalNode, Run.bind_of_done (Runner.eval_ident hx hs k),
    Run.bind_of_done he, Run.bind_of_done (x := Run.gets _) rfl,
    Run.bind_of_done (x := Run.gets _) rfl, hflag]
  simp only [Bool.or_true, Bool.true_or, Bool.and_true]
  exact Run.settle_of_warning_none hw m'

end

/-- By a positive int, an unsigned variable gives the quotient of the number that is stored and the
remainder of its pattern at 32 bits. The quotient is that of the number shown where nothing negative
is stored, where the number shown is below the divisor, or where an int is divided by one; the
remainder is where nothing negative is stored or the divisor divides what the patterns differ by. -/
theorem unsigned_division {m m' : Machine} {name : String} {x : Variable} {v : Value} {w k : Nat}
    {e : Expr} {n : Int32} (hx : m.chain.find? name = some x) (hu : x.modifiers.unsigned = true)
    (hw : x.kind.bits? = some w) (hs : x.storage = .scalar v) (hv : v.At x.kind)
    (he : e.eval (k + 1) m = .done (.int n) m') (hn : 0 < n.toInt) (f : Modifiers) :
    ∃ (a : Int) (U : Nat) (q r : Int32),
      v.number? = some a ∧ U = a % 2 ^ w ∧ m.Shows name U ∧
      (Expr.binary .div (.ident name) e f).eval (k + 2) m = .done (.int q) m' ∧
      (Expr.binary .mod (.ident name) e f).eval (k + 2) m = .done (.int r) m' ∧
      q.toInt = a.tdiv n.toInt ∧ r.toInt = a % 2 ^ 32 % n.toInt ∧
      (q.toInt ≡ U / n.toInt [ZMOD 2 ^ 32] ↔ 0 ≤ a ∨ U < n.toInt ∨ w = 32 ∧ n = 1) ∧
      (r.toInt ≡ U % n.toInt [ZMOD 2 ^ 32] ↔ 0 ≤ a ∨ n.toInt ∣ 2 ^ 32 - 2 ^ w) := by
  obtain ⟨a, U, ha, hp, hU⟩ := Value.patterned hv hw
  have hpromote : v.kind.promote .int = .int := by
    rw [hv.kind_eq]
    generalize x.kind = j at hw
    cases j <;> cases hw <;> rfl
  obtain ⟨hqw, q, hqv, hq⟩ := Value.binary_int hpromote ha hn.ne' .div false
  obtain ⟨hrw, r, hrv, hr⟩ := Value.binary_int hpromote ha hn.ne' .mod true
  have hquotient : q.toInt = a.tdiv n.toInt := hq.trans (hp.bmod_quotient hn)
  have hremainder : r.toInt = a % 2 ^ 32 % n.toInt := by
    have hlt : n.toInt % 2 ^ 32 = n.toInt := Int.emod_eq_of_lt hn.le (by have := n.toInt_lt; omega)
    have hres := Int.emod_nonneg (a % 2 ^ 32) hn.ne'
    have hres' := Int.emod_lt_of_pos (a % 2 ^ 32) hn
    have hbound := n.toInt_lt
    rw [hr, BinaryOp.exact, if_pos rfl, hlt]
    exact Int.bmod_eq_of_le (by omega) (by omega)
  have hone : n.toInt = 1 ↔ n = 1 := Int32.toInt_inj (y := 1)
  refine ⟨a, U, q, r, ha, hp.shown, Machine.shows hx hu hs hU, ?_, ?_, hquotient, hremainder,
    ?_, ?_⟩
  · exact (Expr.eval_binary_ident hx hu hs he hqw).trans (by rw [← hqv]; rfl)
  · exact (Expr.eval_binary_ident hx hu hs he hrw).trans (by rw [← hrv]; rfl)
  · rw [hquotient, hp.quotient_iff hn, hone]
  · rw [hremainder]
    exact hp.remainder_iff hn n.toInt_lt

def Machine.ofMinusOnes : Machine :=
  { Machine.new 9 .report false [] with
    chain := {
      current := ⟨[.scalar "s" .short (.short (-1)) { unsigned := true },
        .scalar "u" .int (.int (-1)) { unsigned := true }]⟩ } }

theorem unsigned_division_short : ∃ (x : Variable) (v : Value) (q r : Int32),
    Machine.ofMinusOnes.chain.find? "s" = some x ∧ x.modifiers.unsigned = true ∧
      x.kind.bits? = some 16 ∧ x.storage = .scalar v ∧ v.At x.kind ∧
      (Expr.literal (.int 7)).eval 1 .ofMinusOnes = .done (.int 7) .ofMinusOnes ∧
      0 < (7 : Int32).toInt ∧ Machine.ofMinusOnes.Shows "s" 65535 ∧
      q.toInt = 0 ∧ r.toInt = 3 ∧ ¬ r.toInt ≡ 65535 % 7 [ZMOD 2 ^ 32] := by
  have hx : Machine.ofMinusOnes.chain.find? "s" =
      some (.scalar "s" .short (.short (-1)) { unsigned := true }) := rfl
  have hv : Value.At (.short (-1)) .short := by decide
  have he : (Expr.literal (.int 7)).eval 1 .ofMinusOnes = .done (.int 7) .ofMinusOnes := rfl
  obtain ⟨a, U, q, r, ha, hU, hshows, -, -, hq, hr, -, hriff⟩ :=
    unsigned_division hx rfl (w := 16) rfl rfl hv (k := 0) he (by decide) .none
  obtain rfl : -1 = a := Option.some.inj ha
  obtain rfl : U = 65535 := by omega
  exact ⟨_, _, q, r, hx, rfl, rfl, rfl, hv, he, by decide, hshows, hq, hr,
    fun h => absurd (hriff.1 h) (by decide)⟩

/-- A variable divides as the number it shows. -/
def Machine.DividesAsShown (m : Machine) (name : String) (n : Int32) : Prop :=
  ∀ U : Nat, m.Shows name U → ∃ (k : Nat) (q r : Int32) (m₁ m₂ : Machine),
    (Expr.binary .div (.ident name) (.literal (.int n)) .none).eval k m = .done (.int q) m₁ ∧
    (Expr.binary .mod (.ident name) (.literal (.int n)) .none).eval k m = .done (.int r) m₂ ∧
    q.toInt ≡ U / n.toInt [ZMOD 2 ^ 32] ∧ r.toInt ≡ U % n.toInt [ZMOD 2 ^ 32]

/-- Half of the greatest unsigned int is not nothing. -/
theorem unsigned_half_not_as_shown :
    (∃ x, Machine.ofMinusOnes.chain.find? "u" = some x ∧ x.modifiers.unsigned = true ∧
      x.kind = .int ∧ x.storage = .scalar (.int (-1))) ∧
    ¬ Machine.ofMinusOnes.DividesAsShown "u" 2 := by
  refine ⟨⟨_, rfl, rfl, rfl, rfl⟩, fun h => ?_⟩
  have hshows : Machine.ofMinusOnes.Shows "u" 4294967295 := Machine.shows rfl rfl rfl rfl
  obtain ⟨k, q, r, m₁, m₂, hq, -, hmod, -⟩ := h _ hshows
  have hzero : q = 0 := by
    match k with
    | 0 | 1 => cases hq
    | k + 2 =>
      cases hq
      rfl
  rw [hzero] at hmod
  exact absurd hmod (by decide)

end Yap
