import Yap.Proofs.Floats

/-! Division guarded against tiny divisors. Main statement: the guard does what is asked of it,
a warning exactly for a divisor below the least normal value and an infinity only of a number,
unless the divisor is no number, or the numerator is none and the divisor is tiny. -/
namespace Yap

namespace Numeral

open Float.Model (Format UnpackedFloat)
open Float.Model.UnpackedFloat

namespace Datum

/-- A number whose magnitude is below the least normal value of a format. -/
def IsTiny (f : BinaryFormat) : Datum → Prop
  | .finite _ m q => (m : ℚ) * 2 ^ q < 2 ^ (f.least + f.fraction)
  | _ => False

def isNegative : Datum → Bool
  | .nan => false
  | .infinite s => s
  | .finite s _ _ => s

theorem isTiny_zero (f : BinaryFormat) (s : Bool) (q : Int) : (finite s 0 q).IsTiny f := by
  rw [IsTiny, Nat.cast_zero, zero_mul]
  positivity

/-- A number is tiny when its significand lacks the leading bit. -/
theorem isTiny_iff {f : BinaryFormat} {s : Bool} {m : Nat} {q : Int} (h : f.Canonical m q) :
    (finite s m q).IsTiny f ↔ m < twoTo f.fraction := by
  have hpos : (0 : ℚ) < 2 ^ f.least := by positivity
  have hmid : (2 : ℚ) ^ (f.least + f.fraction) = twoTo f.fraction * 2 ^ f.least := by
    rw [zpow_add₀ two_ne_zero, zpow_natCast, twoTo_eq_pow, mul_comm]
    push_cast
    rfl
  rw [IsTiny, hmid]
  constructor
  · intro hlt
    by_contra hge
    have hscale : (2 : ℚ) ^ f.least ≤ 2 ^ q := zpow_le_zpow_right₀ one_le_two h.least_le
    have hm : (twoTo f.fraction : ℚ) ≤ m := by exact_mod_cast not_lt.1 hge
    have hle : (twoTo f.fraction : ℚ) * 2 ^ f.least ≤ m * 2 ^ q :=
      mul_le_mul hm hscale hpos.le (Nat.cast_nonneg m)
    exact absurd hlt (not_lt.2 hle)
  · intro hm
    rw [h.eq_least hm]
    have hm' : (m : ℚ) < twoTo f.fraction := by exact_mod_cast hm
    exact mul_lt_mul_of_pos_right hm' hpos

end Datum

/-- Against the least normal value the order of exponents and then significands comes down to
the leading bit. -/
theorem compare_leastNormal {f : BinaryFormat} {m : Nat} {q : Int} (h : f.Canonical m q) :
    ((compare f.least q).then (compare (twoTo f.fraction) m)).isLE = true ↔
      ¬ m < twoTo f.fraction := by
  rcases Int.lt_or_eq_of_le h.least_le with hlt | heq
  · have hm : ¬ m < twoTo f.fraction := fun hm => by
      have := h.eq_least hm
      omega
    simp [compare_lt_iff_lt.2 hlt, hm]
  · simp [compare_eq_iff_eq.2 heq, Nat.isLE_compare]

def leastNormal (spec : Format) : UnpackedFloat :=
  .finite .positive (twoTo spec.mantissaBitsWithoutImplicit) (BinaryFormat.ofFormat spec).least
    (twoTo_pos _)

namespace Native

variable {α : Type} [Add α] [Sub α] [Div α] [LE α] [LT α] {spec : Format} (N : Native α spec)
variable {least zero : α}

theorem least_le_abs_iff (hl : N.unpack least = leastNormal spec) (a : α) :
    least ≤ N.abs a ↔ N.value a ≠ .nan ∧ ¬ (N.value a).IsTiny (.ofFormat spec) := by
  rw [N.le_iff, ← unpack, ← unpack, hl, unpack_abs, value_eq]
  cases hu : N.unpack a with
  | notANumber => exact ⟨fun h => absurd h Bool.false_ne_true, fun h => absurd rfl h.1⟩
  | infinity s => exact ⟨fun _ => ⟨by rintro ⟨⟩, id⟩, fun _ => rfl⟩
  | zero s =>
    exact ⟨fun h => absurd h Bool.false_ne_true, fun h => absurd (Datum.isTiny_zero ..) h.2⟩
  | finite s m q hm =>
    have hc := canonical_of_unpack _ hu
    have hcompare := compare_leastNormal hc
    rw [Datum.ofUnpacked, Datum.isTiny_iff hc]
    exact hcompare.trans ⟨fun h => ⟨by rintro ⟨⟩, h⟩, fun h => h.2⟩

theorem abs_lt_least_iff (hl : N.unpack least = leastNormal spec) (a : α) :
    N.abs a < least ↔ (N.value a).IsTiny (.ofFormat spec) := by
  rw [N.lt_iff, ← unpack, ← unpack, hl, unpack_abs, value_eq]
  cases hu : N.unpack a with
  | notANumber => exact ⟨fun h => absurd h Bool.false_ne_true, False.elim⟩
  | infinity s => exact ⟨fun h => absurd h Bool.false_ne_true, False.elim⟩
  | zero s => exact ⟨fun _ => Datum.isTiny_zero .., fun _ => rfl⟩
  | finite s m q hm =>
    have hc := canonical_of_unpack _ hu
    have hcompare := compare_leastNormal hc
    have hswap (o : Ordering) : (some o.swap == some .lt) = true ↔ ¬ o.isLE = true := by
      cases o <;> decide
    have hlt := hswap ((compare (BinaryFormat.ofFormat spec).least q).then
      (compare (twoTo spec.mantissaBitsWithoutImplicit) m))
    rw [Ordering.swap_then, Std.OrientedOrd.eq_swap.symm, Std.OrientedOrd.eq_swap.symm] at hlt
    rw [Datum.ofUnpacked, Datum.isTiny_iff hc]
    exact hlt.trans ((not_congr hcompare).trans not_not)

/-- A number that is not tiny is above zero exactly when its sign says so. -/
theorem zero_lt_iff (hz : N.unpack zero = .zero .positive) {a : α}
    (h : ¬ (N.value a).IsTiny (.ofFormat spec)) :
    zero < a ↔ N.value a ≠ .nan ∧ (N.value a).isNegative = false := by
  rw [N.lt_iff, ← unpack, ← unpack, hz]
  rw [value_eq] at h ⊢
  cases hu : N.unpack a with
  | notANumber => exact ⟨fun h => absurd h Bool.false_ne_true, fun h => absurd rfl h.1⟩
  | infinity s => cases s <;> simp [Datum.ofUnpacked, Datum.isNegative] <;> decide
  | zero s => exact absurd (hu ▸ Datum.isTiny_zero ..) h
  | finite s m q hm => cases s <;> simp [Datum.ofUnpacked, Datum.isNegative] <;> rfl

end Native

end Numeral

open Numeral

section Guard

variable {α : Type} [Add α] [Sub α] [Div α] [LE α] [LT α] {spec : Float.Model.Format}

/-- What division guarded against tiny divisors is to give. -/
structure Guarded (N : Native α spec) (a b : α) (c : Checked α) : Prop where
  quotient : ¬ (N.value b).IsTiny (.ofFormat spec) → c = .clean (a / b)
  warned : (N.value b).IsTiny (.ofFormat spec) → c.warning = some .nearZeroDivisor
  not_number : (N.value b).IsTiny (.ofFormat spec) →
    N.value a = .nan ∨ (N.value a).IsTiny (.ofFormat spec) → N.value c.value = .nan
  infinity : (N.value b).IsTiny (.ofFormat spec) →
    N.value a ≠ .nan → ¬ (N.value a).IsTiny (.ofFormat spec) →
      N.value c.value = .infinite (N.value a).isNegative
  nan_kept : N.value a = .nan ∨ N.value b = .nan → ∀ s, N.value c.value ≠ .infinite s

/-- What the guard makes of a division. It asks whether the divisor reaches the least normal
value, which a divisor that is no number does not, and whether the numerator is positive. -/
structure Divides (N : Native α spec) (a b : α) (c : Checked α) : Prop where
  reached : N.value b ≠ .nan → ¬ (N.value b).IsTiny (.ofFormat spec) → c = .clean (a / b)
  warned : N.value b = .nan ∨ (N.value b).IsTiny (.ofFormat spec) →
    c.warning = some .nearZeroDivisor
  not_number : N.value b = .nan ∨ (N.value b).IsTiny (.ofFormat spec) →
    (N.value a).IsTiny (.ofFormat spec) → N.value c.value = .nan
  infinity : N.value b = .nan ∨ (N.value b).IsTiny (.ofFormat spec) →
    ¬ (N.value a).IsTiny (.ofFormat spec) →
      ∃ s, N.value c.value = .infinite s ∧
        (s = false ↔ N.value a ≠ .nan ∧ (N.value a).isNegative = false)

namespace Divides

variable {N : Native α spec} {a b least zero : α} {c : Checked α}

theorem of_comparisons [Decidable (least ≤ N.abs b)] [Decidable (N.abs a < least)]
    [Decidable (zero < a)] {round : Datum → α}
    (hl : N.unpack least = leastNormal spec) (hz : N.unpack zero = .zero .positive)
    (hnan : N.value (round .nan) = .nan)
    (hinf : ∀ s, N.value (round (.infinite s)) = .infinite s) :
    Divides N a b
      (if least ≤ N.abs b then .clean (a / b)
      else if N.abs a < least then .fallback (round .nan) .nearZeroDivisor
      else .fallback (round (.infinite !(zero < a))) .nearZeroDivisor) := by
  have hreaches := N.least_le_abs_iff hl b
  have hsmall := N.abs_lt_least_iff hl a
  have hmissed (hb : N.value b = .nan ∨ (N.value b).IsTiny (.ofFormat spec)) :
      ¬ least ≤ N.abs b := fun h => hb.elim (hreaches.1 h).1 (hreaches.1 h).2
  refine ⟨fun hb htiny => if_pos (hreaches.2 ⟨hb, htiny⟩), fun hb => ?_, fun hb htiny => ?_,
    fun hb htiny => ?_⟩
  · rw [if_neg (hmissed hb)]
    split <;> rfl
  · rw [if_neg (hmissed hb), if_pos (hsmall.2 htiny)]
    exact hnan
  · rw [if_neg (hmissed hb), if_neg (mt hsmall.1 htiny)]
    refine ⟨_, hinf _, ?_⟩
    rw [← N.zero_lt_iff hz htiny]
    simp

theorem double (a b : Float) : Divides .double a b (Value.divide a b) :=
  of_comparisons (N := .double) rfl rfl (by decide) (by decide)

theorem single (a b : Float32) : Divides .single a b (Value.divideSingle a b) :=
  of_comparisons (N := .single) rfl rfl (by decide) (by decide)

theorem guarded (h : Divides N a b c) (hb : N.value b ≠ .nan)
    (ha : N.value a = .nan → ¬ (N.value b).IsTiny (.ofFormat spec)) : Guarded N a b c where
  quotient := h.reached hb
  warned tiny := h.warned (.inr tiny)
  not_number tiny := by
    rintro (hnan | htiny)
    · exact absurd tiny (ha hnan)
    · exact h.not_number (.inr tiny) htiny
  infinity tiny hnan hnot := by
    obtain ⟨s, hs, hsign⟩ := h.infinity (.inr tiny) hnot
    rw [hs]
    cases hneg : (N.value a).isNegative <;> cases s <;> simp_all
  nan_kept hnan s := by
    have hnan := hnan.resolve_right hb
    have hc := h.reached hb (ha hnan)
    rw [hc, Checked.clean_value, N.value_div_nan b hnan]
    nofun

theorem divisor_ne_nan (h : Divides N a b c) (hg : Guarded N a b c) : N.value b ≠ .nan := by
  intro hnan
  have hc := hg.quotient (by rw [hnan]; exact id)
  have hw := h.warned (.inl hnan)
  rw [hc] at hw
  cases hw

theorem divisor_not_tiny (h : Divides N a b c) (hg : Guarded N a b c) (ha : N.value a = .nan) :
    ¬ (N.value b).IsTiny (.ofFormat spec) := by
  intro tiny
  obtain ⟨s, hs, _⟩ := h.infinity (.inr tiny) (by rw [ha]; exact id)
  have hnan := hg.not_number tiny (.inl ha)
  rw [hs] at hnan
  cases hnan

theorem guarded_iff (h : Divides N a b c) :
    Guarded N a b c ↔
      N.value b ≠ .nan ∧ (N.value a = .nan → ¬ (N.value b).IsTiny (.ofFormat spec)) :=
  ⟨fun hg => ⟨h.divisor_ne_nan hg, h.divisor_not_tiny hg⟩, fun hg => h.guarded hg.1 hg.2⟩

end Divides

end Guard

/-- At either width the guard does what is asked of it exactly when the divisor is a number, and
not a tiny one where the numerator is none. -/
theorem division_guarded_iff (a b : Float) (x y : Float32) :
    (Guarded .double a b (Value.divide a b) ↔
      ofDouble b ≠ .nan ∧ (ofDouble a = .nan → ¬ (ofDouble b).IsTiny binary64)) ∧
    (Guarded .single x y (Value.divideSingle x y) ↔
      ofSingle y ≠ .nan ∧ (ofSingle x = .nan → ¬ (ofSingle y).IsTiny binary32)) :=
  ⟨(Divides.double a b).guarded_iff, (Divides.single x y).guarded_iff⟩

/-- One divided by no number is an infinity, with a warning. -/
theorem nan_divisor_unguarded : ¬ Guarded .double 1 (toDouble .nan)
    (Value.divide 1 (toDouble .nan)) := by
  intro h
  have hdivisor : Native.double.value (toDouble .nan) = .nan := by decide
  have hinf : Native.double.value (Value.divide 1 (toDouble .nan)).value = .infinite false := by
    decide
  exact h.nan_kept (.inr hdivisor) false hinf

end Yap
