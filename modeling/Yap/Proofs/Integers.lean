import Mathlib.Data.Int.ModEq
import Yap.Value.Arithmetic

/-! Integer operators as arithmetic modulo a power of two. Operands keep the numbers they stand for
when they are promoted, and a result stands for the exact one, reduced to the bits of its kind.
Main statement: this holds of every operator, with a warning exactly for a zero divisor, and
quotients and remainders fit together. -/
namespace Yap

/-- The bits that integers of a kind are computed with. -/
def Kind.bits? : Kind → Option Nat
  | .short => some 16
  | .int => some 32
  | _ => none

namespace BinaryOp

/-- The result on numbers: quotients toward zero and remainders with the sign of the dividend, or,
if so asked, the remainder of the patterns of so many bits. -/
def exact (unsigned : Bool) (w : Nat) : BinaryOp → Int → Int → Int
  | add, a, b => a + b
  | sub, a, b => a - b
  | mul, a, b => a * b
  | div, a, b => a.tdiv b
  | mod, a, b => if unsigned then a % 2 ^ w % (b % 2 ^ w) else a.tmod b
  | lt, a, b => if a < b then 1 else 0
  | gt, a, b => if a > b then 1 else 0
  | le, a, b => if a ≤ b then 1 else 0
  | ge, a, b => if a ≥ b then 1 else 0
  | eq, a, b => if a = b then 1 else 0
  | ne, a, b => if a ≠ b then 1 else 0
  | and, a, b => if a ≠ 0 ∧ b ≠ 0 then 1 else 0
  | or, a, b => if a ≠ 0 ∨ b ≠ 0 then 1 else 0

def warningAtZero? : BinaryOp → Option Warning
  | div => some .divisionByZero
  | mod => some .moduloByZero
  | _ => none

end BinaryOp

namespace Value

/-- The number that an integer or truth value stands for. -/
def number? : Value → Option Int
  | short n => some n.toInt
  | int n => some n.toInt
  | bool b => some (if b then 1 else 0)
  | float _ | double _ => none

theorem number?_toInt16 {v : Value} (h : v.kind.numeric = .short) :
    v.number? = some v.toInt16.toInt := by
  cases v with
  | short n => rfl
  | bool b => cases b <;> rfl
  | _ => cases h

theorem number?_toInt32 {v : Value} (h : v.kind.isFloating = false) :
    v.number? = some v.toInt32.toInt := by
  cases v with
  | short n => exact congrArg some n.toInt_toInt32.symm
  | int n => rfl
  | bool b => cases b <;> rfl
  | _ => cases h

theorem truth_short (b : Bool) : truth .short b = short (bit b) := by cases b <;> rfl

theorem truth_int (b : Bool) : truth .int b = int (bit b) := by cases b <;> rfl

theorem binary_of_short {l r : Value} (h : l.kind.promote r.kind = .short) (op : BinaryOp)
    (u : Bool) : binary op l r u = (integer (remainder16 u) op l.toInt16 r.toInt16).map short := by
  simp only [binary, h, convert]
  cases op with
  | and | or =>
    simp [isTruthy, truth_short, integer, bne, Checked.map, Checked.clean, beq_eq_decide]
  | _ => rfl

theorem binary_of_int {l r : Value} (h : l.kind.promote r.kind = .int) (op : BinaryOp)
    (u : Bool) : binary op l r u = (integer (remainder32 u) op l.toInt32 r.toInt32).map int := by
  simp only [binary, h, convert]
  cases op with
  | and | or =>
    simp [isTruthy, truth_int, integer, bne, Checked.map, Checked.clean, beq_eq_decide]
  | _ => rfl

end Value

/-- An operator on two values that stand for numbers and are promoted to so many bits. -/
structure ComputesExactly (w : Nat) (op : BinaryOp) (unsigned : Bool) (l r : Value) (a b : Int)
    (c : Checked Value) : Prop where
  left : l.number? = some a ∧ (l.convert (l.kind.promote r.kind)).number? = some a
  right : r.number? = some b ∧ (r.convert (l.kind.promote r.kind)).number? = some b
  kind : c.value.kind = l.kind.promote r.kind
  warned : b = 0 → c.warning = op.warningAtZero?
  unwarned : b ≠ 0 → c.warning = none
  fallback : b = 0 → op.warningAtZero? ≠ none → c.value.number? = some 0
  exact : b ≠ 0 ∨ op.warningAtZero? = none →
    c.value.number? = some ((op.exact unsigned w a b).bmod (2 ^ w))

/-- A native type of integers, those of a kind, reads as the numbers of so many bits around zero and
computes modulo the power of two. -/
structure Wrapping (α : Type) [DecidableEq α] [Add α] [Sub α] [Mul α] [Div α] [LT α] [LE α]
    [DecidableLT α] [DecidableLE α] [OfNat α 0] [OfNat α 1] (k : Kind) (w : Nat) where
  toInt : α → Int
  remainder : Bool → α → α → α
  toValue : α → Value
  ofValue : Value → α
  zero : toInt 0 = 0
  one : toInt 1 = 1
  reduced (a : α) : (toInt a).bmod (2 ^ w) = toInt a
  inj {a b : α} : toInt a = toInt b ↔ a = b
  add (a b : α) : toInt (a + b) = (toInt a + toInt b).bmod (2 ^ w)
  sub (a b : α) : toInt (a - b) = (toInt a - toInt b).bmod (2 ^ w)
  mul (a b : α) : toInt (a * b) = (toInt a * toInt b).bmod (2 ^ w)
  div (a b : α) : toInt (a / b) = ((toInt a).tdiv (toInt b)).bmod (2 ^ w)
  mod (a b : α) : toInt (remainder false a b) = (toInt a).tmod (toInt b)
  unsignedMod (a b : α) : toInt (remainder true a b) =
    (toInt a % 2 ^ w % (toInt b % 2 ^ w)).bmod (2 ^ w)
  lt_iff {a b : α} : a < b ↔ toInt a < toInt b
  le_iff {a b : α} : a ≤ b ↔ toInt a ≤ toInt b
  number?_toValue (a : α) : (toValue a).number? = some (toInt a)
  convert_eq (v : Value) : v.convert k = toValue (ofValue v)
  number?_eq {l r : Value} : l.kind.promote r.kind = k →
    l.number? = some (toInt (ofValue l)) ∧ r.number? = some (toInt (ofValue r))
  binary_eq {l r : Value} : l.kind.promote r.kind = k → ∀ (op : BinaryOp) (u : Bool),
    Value.binary op l r u =
      (Value.integer (remainder u) op (ofValue l) (ofValue r)).map toValue

namespace Wrapping

/-- The pattern of a word is the number it stands for modulo the power of two. -/
theorem toInt_emod {w : Nat} (x : BitVec w) : x.toInt % 2 ^ w = x.toNat := by
  have h : x.toInt % (2 ^ w : Nat) = x.toNat % (2 ^ w : Nat) := by
    rw [BitVec.toInt_eq_toNat_bmod, Int.bmod_emod]
  rw [Nat.cast_pow, Nat.cast_ofNat] at h
  rw [h]
  exact_mod_cast Nat.mod_eq_of_lt x.isLt

theorem toInt_umod {w : Nat} (x y : BitVec w) :
    (x % y).toInt = (x.toInt % 2 ^ w % (y.toInt % 2 ^ w)).bmod (2 ^ w) := by
  rw [toInt_emod, toInt_emod, BitVec.toInt_umod]

def short : Wrapping Int16 .short 16 where
  toInt := Int16.toInt
  remainder := Value.remainder16
  toValue := .short
  ofValue := Value.toInt16
  zero := rfl
  one := rfl
  reduced := Int16.toInt_bmod
  inj := Int16.toInt_inj
  add := Int16.toInt_add
  sub := Int16.toInt_sub
  mul := Int16.toInt_mul
  div := Int16.toInt_div
  mod := Int16.toInt_mod
  unsignedMod a b := toInt_umod a.toBitVec b.toBitVec
  lt_iff := Int16.lt_iff_toInt_lt
  le_iff := Int16.le_iff_toInt_le
  number?_toValue _ := rfl
  convert_eq _ := rfl
  number?_eq {l r} h := by
    have hk : l.kind.numeric = .short ∧ r.kind.numeric = .short := by
      generalize l.kind = j, r.kind = k at h
      cases j <;> cases k <;> cases h <;> exact ⟨rfl, rfl⟩
    exact ⟨Value.number?_toInt16 hk.1, Value.number?_toInt16 hk.2⟩
  binary_eq := Value.binary_of_short

def int : Wrapping Int32 .int 32 where
  toInt := Int32.toInt
  remainder := Value.remainder32
  toValue := .int
  ofValue := Value.toInt32
  zero := rfl
  one := rfl
  reduced := Int32.toInt_bmod
  inj := Int32.toInt_inj
  add := Int32.toInt_add
  sub := Int32.toInt_sub
  mul := Int32.toInt_mul
  div := Int32.toInt_div
  mod := Int32.toInt_mod
  unsignedMod a b := toInt_umod a.toBitVec b.toBitVec
  lt_iff := Int32.lt_iff_toInt_lt
  le_iff := Int32.le_iff_toInt_le
  number?_toValue _ := rfl
  convert_eq _ := rfl
  number?_eq {l r} h := by
    have hk : l.kind.isFloating = false ∧ r.kind.isFloating = false := by
      generalize l.kind = j, r.kind = k at h
      cases j <;> cases k <;> cases h <;> exact ⟨rfl, rfl⟩
    exact ⟨Value.number?_toInt32 hk.1, Value.number?_toInt32 hk.2⟩
  binary_eq := Value.binary_of_int

variable {α : Type} [DecidableEq α] [Add α] [Sub α] [Mul α] [Div α] [LT α] [LE α]
  [DecidableLT α] [DecidableLE α] [OfNat α 0] [OfNat α 1]

/-- An operator that takes quotients and remainders from elsewhere. -/
def integerBy (quotient remainder : α → α → α) (op : BinaryOp) (a b : α) : Checked α :=
  @Value.integer α _ _ _ _ ⟨quotient⟩ _ _ _ _ _ _ remainder op a b

variable {k : Kind} {w : Nat} (W : Wrapping α k w)

/-- Whatever quotients and remainders by zero may be, the operator gives the same: it does not ask
for them. -/
def DividesByNonzero (op : BinaryOp) (u : Bool) (l r : Value) : Prop :=
  ∀ quotient remainder : α → α → α,
    (∀ a b, b ≠ 0 → quotient a b = a / b ∧ remainder a b = W.remainder u a b) →
    Value.binary op l r u =
      (integerBy quotient remainder op (W.ofValue l) (W.ofValue r)).map W.toValue

section Laws

include W

theorem toInt_eq_zero {a : α} : W.toInt a = 0 ↔ a = 0 := by rw [← W.zero, W.inj]

theorem toInt_bit (p : Prop) [Decidable p] :
    W.toInt (Value.bit (decide p)) = (if p then 1 else 0 : Int).bmod (2 ^ w) := by
  by_cases h : p
  · have hone := W.reduced 1
    rw [W.one] at hone
    simp [Value.bit, h, W.one, hone]
  · simp [Value.bit, h, W.zero]

/-- What a native operator gives stands for the exact result, reduced. -/
theorem toInt_integer (op : BinaryOp) (u : Bool) (a b : α)
    (h : b ≠ 0 ∨ op.warningAtZero? = none) :
    W.toInt (Value.integer (W.remainder u) op a b).value =
      (op.exact u w (W.toInt a) (W.toInt b)).bmod (2 ^ w) := by
  cases op with
  | add => exact W.add a b
  | sub => exact W.sub a b
  | mul => exact W.mul a b
  | div =>
    have hb : b ≠ 0 := h.resolve_right nofun
    simpa [Value.integer, BinaryOp.exact, hb] using W.div a b
  | mod =>
    have hb : b ≠ 0 := h.resolve_right nofun
    cases u with
    | false =>
      have hmod := W.reduced (W.remainder false a b)
      rw [W.mod] at hmod
      simpa [Value.integer, BinaryOp.exact, hb, hmod] using W.mod a b
    | true => simpa [Value.integer, BinaryOp.exact, hb] using W.unsignedMod a b
  | lt => simpa [Value.integer, BinaryOp.exact, W.lt_iff] using W.toInt_bit (a < b)
  | gt => simpa [Value.integer, BinaryOp.exact, W.lt_iff] using W.toInt_bit (b < a)
  | le => simpa [Value.integer, BinaryOp.exact, W.le_iff] using W.toInt_bit (a ≤ b)
  | ge => simpa [Value.integer, BinaryOp.exact, W.le_iff] using W.toInt_bit (b ≤ a)
  | eq => simpa [Value.integer, BinaryOp.exact, W.inj] using W.toInt_bit (a = b)
  | ne => simpa [Value.integer, BinaryOp.exact, W.inj] using W.toInt_bit (a ≠ b)
  | and =>
    simpa [Value.integer, BinaryOp.exact, W.toInt_eq_zero] using W.toInt_bit (a ≠ 0 ∧ b ≠ 0)
  | or =>
    simpa [Value.integer, BinaryOp.exact, W.toInt_eq_zero] using W.toInt_bit (a ≠ 0 ∨ b ≠ 0)

/-- Quotient and remainder fit together. -/
theorem toInt_div_mul_add_mod (a b : α) :
    W.toInt (a / b) * W.toInt b + W.toInt (W.remainder false a b) ≡ W.toInt a [ZMOD 2 ^ w] := by
  have hbmod (x : Int) : x.bmod (2 ^ w) ≡ x [ZMOD 2 ^ w] := by
    have h : x.bmod (2 ^ w) % (2 ^ w : Nat) = x % (2 ^ w : Nat) := Int.bmod_emod
    rwa [Nat.cast_pow, Nat.cast_ofNat] at h
  rw [W.div, W.mod]
  calc ((W.toInt a).tdiv (W.toInt b)).bmod (2 ^ w) * W.toInt b + (W.toInt a).tmod (W.toInt b)
      ≡ (W.toInt a).tdiv (W.toInt b) * W.toInt b + (W.toInt a).tmod (W.toInt b) [ZMOD 2 ^ w] :=
        ((hbmod _).mul_right _).add_right _
    _ = W.toInt a := Int.tdiv_mul_add_tmod _ _

variable {l r : Value} (h : l.kind.promote r.kind = k)
include h

theorem computesExactly (op : BinaryOp) (u : Bool) :
    ComputesExactly w op u l r (W.toInt (W.ofValue l)) (W.toInt (W.ofValue r))
      (Value.binary op l r u) where
  left := ⟨(W.number?_eq h).1, by rw [h, W.convert_eq, W.number?_toValue]⟩
  right := ⟨(W.number?_eq h).2, by rw [h, W.convert_eq, W.number?_toValue]⟩
  kind := Value.kind_binary op l r u
  warned hb := by
    rw [W.toInt_eq_zero] at hb
    rw [W.binary_eq h]
    cases op <;> simp [Value.integer, BinaryOp.warningAtZero?, hb]
  unwarned hb := by
    rw [ne_eq, W.toInt_eq_zero] at hb
    rw [W.binary_eq h]
    cases op <;> simp [Value.integer, hb]
  fallback hb hop := by
    rw [W.toInt_eq_zero] at hb
    rw [W.binary_eq h]
    cases op <;>
      simp_all [Value.integer, BinaryOp.warningAtZero?, W.number?_toValue, W.zero]
  exact hb := by
    rw [ne_eq, W.toInt_eq_zero] at hb
    rw [W.binary_eq h, Checked.map_value, W.number?_toValue, W.toInt_integer op u _ _ hb]

theorem quotient_mul_add_remainder (hr : W.toInt (W.ofValue r) ≠ 0) : ∃ q m : Int,
    (Value.binary .div l r false).value.number? = some q ∧
    (Value.binary .mod l r false).value.number? = some m ∧
    q * W.toInt (W.ofValue r) + m ≡ W.toInt (W.ofValue l) [ZMOD 2 ^ w] := by
  rw [ne_eq, W.toInt_eq_zero] at hr
  refine ⟨_, _, ?_, ?_, W.toInt_div_mul_add_mod _ _⟩
  · rw [W.binary_eq h, Checked.map_value, W.number?_toValue]
    simp [Value.integer, hr]
  · rw [W.binary_eq h, Checked.map_value, W.number?_toValue]
    simp [Value.integer, hr]

theorem dividesByNonzero (op : BinaryOp) (u : Bool) : W.DividesByNonzero op u l r := by
  intro quotient remainder hagree
  rw [W.binary_eq h]
  congr 1
  by_cases hb : W.ofValue r = 0
  · cases op <;> simp [integerBy, Value.integer, hb]
  · obtain ⟨hq, hm⟩ := hagree (W.ofValue l) (W.ofValue r) hb
    cases op with
    | div =>
      simp only [integerBy, Value.integer, hb, if_false]
      exact congrArg Checked.clean hq.symm
    | mod => simp only [integerBy, Value.integer, hb, if_false, hm]
    | _ => rfl

end Laws

end Wrapping

/-- Integer operators are exact modulo the power of two that their kind has bits for. Operands stand
for the same numbers before and after they are promoted, a zero divisor is what there are warnings
of, no quotient or remainder by zero is taken, and a nonzero divisor gives back the dividend. -/
theorem integers_exact (op : BinaryOp) (l r : Value) (u : Bool) (w : Nat)
    (hw : (l.kind.promote r.kind).bits? = some w) :
    ∃ a b : Int, ComputesExactly w op u l r a b (Value.binary op l r u) ∧
      (b ≠ 0 → ∃ q m : Int, (Value.binary .div l r false).value.number? = some q ∧
        (Value.binary .mod l r false).value.number? = some m ∧ q * b + m ≡ a [ZMOD 2 ^ w]) ∧
      (l.kind.promote r.kind = .short → Wrapping.short.DividesByNonzero op u l r) ∧
      (l.kind.promote r.kind = .int → Wrapping.int.DividesByNonzero op u l r) := by
  cases hk : l.kind.promote r.kind with
  | short =>
    rw [hk] at hw
    cases hw
    exact ⟨_, _, Wrapping.short.computesExactly hk op u,
      Wrapping.short.quotient_mul_add_remainder hk,
      fun _ => Wrapping.short.dividesByNonzero hk op u, nofun⟩
  | int =>
    rw [hk] at hw
    cases hw
    exact ⟨_, _, Wrapping.int.computesExactly hk op u,
      Wrapping.int.quotient_mul_add_remainder hk,
      nofun, fun _ => Wrapping.int.dividesByNonzero hk op u⟩
  | _ =>
    rw [hk] at hw
    cases hw

/-- The least int by minus one, where the quotient is a power of two too great. -/
theorem integers_exact_leastByMinusOne :
    ((Value.int (-2147483648)).kind.promote (Value.short (-1)).kind).bits? = some 32 ∧
    (Value.binary .div (.int (-2147483648)) (.short (-1)) false).value.number? =
      some ((BinaryOp.exact false 32 .div (-2147483648) (-1)).bmod (2 ^ 32)) ∧
    (BinaryOp.exact false 32 .div (-2147483648) (-1)).bmod (2 ^ 32) = -2147483648 ∧
    ∃ q m : Int, q * -1 + m ≡ -2147483648 [ZMOD 2 ^ 32] ∧
      (Value.binary .mod (.int (-2147483648)) (.short (-1)) false).value.number? = some m := by
  have hbits : ((Value.int (-2147483648)).kind.promote (Value.short (-1)).kind).bits? = some 32 :=
    rfl
  obtain ⟨a, b, hc, hsplit, -⟩ :=
    integers_exact .div (.int (-2147483648)) (.short (-1)) false 32 hbits
  obtain rfl : -2147483648 = a := Option.some.inj hc.left.1
  obtain rfl : -1 = b := Option.some.inj hc.right.1
  obtain ⟨q, m, -, hm, hqm⟩ := hsplit (by decide)
  exact ⟨hbits, hc.exact (.inl (by decide)), by decide, q, m, hqm, hm⟩

end Yap
