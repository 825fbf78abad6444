import Mathlib
import Yap.Value.Arithmetic

/-! Floats as exact values. The arithmetic of floats unpacks bit patterns, computes and packs;
values are read off the same patterns by decoding. Main statements: decoding gives the value
that unpacking gives, a format writes each finite value with as many bits as it can, and what
is packed after dropping the sign is read back. -/
namespace Yap.Numeral

open Float.Model (Format UnpackedFloat)
open Float.Model.UnpackedFloat

theorem twoTo_eq_pow (n : Nat) : twoTo n = 2 ^ n := rfl

namespace BinaryFormat

def ofFormat (spec : Format) : BinaryFormat :=
  ⟨spec.mantissaBitsWithoutImplicit, spec.exponentBits⟩

@[simp] theorem fraction_ofFormat (spec : Format) :
    (ofFormat spec).fraction = spec.mantissaBitsWithoutImplicit := rfl

@[simp] theorem exponent_ofFormat (spec : Format) :
    (ofFormat spec).exponent = spec.exponentBits := rfl

theorem least_ofFormat (spec : Format) :
    (ofFormat spec).least =
      1 - ((spec.exponentBias : Int) + (spec.mantissaBitsWithoutImplicit : Int)) := by
  have hpos : 0 < 2 ^ (spec.exponentBits - 1) := Nat.two_pow_pos _
  simp only [least, ofFormat, twoTo_eq_pow, Format.exponentBias]
  omega

/-- The finite values as a format writes them: a significand of at most one bit more than are
stored, and of exactly so many unless the exponent is the least. -/
structure Canonical (f : BinaryFormat) (m : Nat) (q : Int) : Prop where
  significand_lt : m < 2 * twoTo f.fraction
  least_le : f.least ≤ q
  eq_least : m < twoTo f.fraction → q = f.least

theorem canonical_of_decode {f : BinaryFormat} {bits : Nat} {s : Bool} {m : Nat} {q : Int}
    (h : f.decode bits = .finite s m q) : f.Canonical m q := by
  have hlt : bits % twoTo f.fraction < twoTo f.fraction := Nat.mod_lt _ (twoTo_pos _)
  simp only [decode] at h
  split_ifs at h with hinf hfrac hsub
  · injection h with _ hm hq
    subst hm hq
    exact ⟨by omega, le_refl _, fun _ => rfl⟩
  · injection h with _ hm hq
    subst hm hq
    exact ⟨by omega, by omega, fun hm => by omega⟩

end BinaryFormat

def Datum.ofUnpacked (spec : Format) : UnpackedFloat → Datum
  | .notANumber => .nan
  | .infinity s => .infinite (s == .negative)
  | .zero s => .finite (s == .negative) 0 (BinaryFormat.ofFormat spec).least
  | .finite s m q _ => .finite (s == .negative) m q

theorem toNat_one_append {w : Nat} (v : BitVec w) : (1#1 ++ v).toNat = twoTo w + v.toNat := by
  have h := Nat.shiftLeft_add_eq_or_of_lt v.isLt 1
  rw [BitVec.toNat_append, BitVec.toNat_ofNat, Nat.mod_eq_of_lt (by decide), ← h,
    Nat.one_shiftLeft, twoTo_eq_pow]

section Fields

variable {spec : Format} (b : BitVec spec.numBits)

theorem toNat_unpackMantissa :
    (unpackMantissa b).toNat = b.toNat % twoTo spec.mantissaBitsWithoutImplicit := by
  rw [unpackMantissa_def, BitVec.extractLsb'_toNat, Nat.shiftRight_zero, twoTo_eq_pow]

theorem toNat_unpackExponent :
    (unpackExponent b).toNat =
      b.toNat / twoTo spec.mantissaBitsWithoutImplicit % twoTo spec.exponentBits := by
  rw [unpackExponent_def, BitVec.extractLsb'_toNat, Nat.shiftRight_eq_div_pow, twoTo_eq_pow,
    twoTo_eq_pow]

theorem ofBitVec_unpackSign :
    (Sign.ofBitVec (unpackSign b) == .negative) =
      decide (b.toNat / (BinaryFormat.ofFormat spec).signBit % 2 = 1) := by
  have h : (unpackSign b).toNat = b.toNat / (BinaryFormat.ofFormat spec).signBit % 2 := by
    rw [unpackSign_def, BitVec.extractLsb'_toNat, Nat.shiftRight_eq_div_pow]
    rfl
  rw [← h]
  generalize unpackSign b = v
  revert v
  decide

/-- Decoding reads the same value off a bit pattern as the arithmetic of floats does. -/
theorem decode_toNat :
    (BinaryFormat.ofFormat spec).decode b.toNat = .ofUnpacked spec (unpack spec b) := by
  have hleast := BinaryFormat.least_ofFormat spec
  have htop : unpackExponent b = -1#(spec.exponentBits) ↔
      (unpackExponent b).toNat = twoTo spec.exponentBits - 1 := by
    rw [← BitVec.toNat_inj, BitVec.neg_one_eq_allOnes, BitVec.toNat_allOnes, twoTo_eq_pow]
  have hlow : unpackExponent b = 0#(spec.exponentBits) ↔ (unpackExponent b).toNat = 0 := by
    rw [← BitVec.toNat_inj, BitVec.toNat_ofNat, Nat.zero_mod]
  have hnone : unpackMantissa b = 0#(spec.mantissaBitsWithoutImplicit) ↔
      (unpackMantissa b).toNat = 0 := by
    rw [← BitVec.toNat_inj, BitVec.toNat_ofNat, Nat.zero_mod]
  unfold BinaryFormat.decode unpack
  simp only [htop, hlow, hnone, ← ofBitVec_unpackSign, BinaryFormat.fraction_ofFormat,
    BinaryFormat.exponent_ofFormat, ← toNat_unpackMantissa, ← toNat_unpackExponent]
  split_ifs with hinf hfrac hsub hzero
  · rfl
  · rfl
  · rw [hzero]
    rfl
  · simp only [Datum.ofUnpacked, Datum.finite.injEq, true_and]
    omega
  · simp only [Datum.ofUnpacked, Datum.finite.injEq, true_and, toNat_one_append]
    omega

theorem canonical_of_unpack {s : Sign} {m : Nat} {q : Int} {h : 0 < m}
    (hu : unpack spec b = .finite s m q h) : (BinaryFormat.ofFormat spec).Canonical m q := by
  have hdecode := decode_toNat b
  rw [hu] at hdecode
  exact BinaryFormat.canonical_of_decode hdecode

/-- Packing an unpacked float and unpacking it again gives it back, no number included. -/
theorem unpack_pack_unpack (he : 2 ≤ spec.exponentBits) :
    unpack spec (pack spec (unpack spec b)) = unpack spec b := by
  rw [pack_unpack b he]
  split_ifs with hnan
  · rw [unpack_packedNaN, unpack]
    rw [isNaNBits, decide_eq_true_eq] at hnan
    rw [if_pos hnan.1, if_neg hnan.2]
  · rfl

def clearSign : BitVec spec.numBits :=
  packComponents spec .positive (unpackExponent b) (unpackMantissa b)

theorem unpack_clearSign : unpack spec (clearSign b) = (unpack spec b).abs := by
  have hsign : Sign.ofBitVec (unpackSign (clearSign b)) = .positive := by
    rw [clearSign, unpackSign_packComponents]
    rfl
  unfold unpack
  simp only [hsign]
  simp only [clearSign, unpackExponent_packComponents, unpackMantissa_packComponents]
  split_ifs <;> rfl

theorem unpack_pack_abs (he : 2 ≤ spec.exponentBits) :
    unpack spec (pack spec (unpack spec b).abs) = (unpack spec b).abs := by
  rw [← unpack_clearSign, unpack_pack_unpack _ he]

end Fields

/-- A native type of floats computes by unpacking bit patterns and packing the result. -/
structure Native (α : Type) [Add α] [Sub α] [Div α] [LE α] [LT α] (spec : Format) where
  bits : α → BitVec spec.numBits
  pack : UnpackedFloat → α
  abs : α → α
  two_le_exponentBits : 2 ≤ spec.exponentBits
  bits_pack (u : UnpackedFloat) : bits (pack u) = UnpackedFloat.pack spec u
  abs_eq (a : α) : abs a = pack (unpack spec (bits a)).abs
  add_eq (a b : α) : a + b = pack ((unpack spec (bits a)).add spec (unpack spec (bits b)))
  sub_eq (a b : α) : a - b = pack ((unpack spec (bits a)).sub spec (unpack spec (bits b)))
  div_eq (a b : α) : a / b = pack ((unpack spec (bits a)).div spec (unpack spec (bits b)))
  le_iff (a b : α) : a ≤ b ↔ (unpack spec (bits a)).le (unpack spec (bits b)) = true
  lt_iff (a b : α) : a < b ↔ (unpack spec (bits a)).lt (unpack spec (bits b)) = true

namespace Native

def double : Native Float .binary64 where
  bits x := x.toBits.toBitVec
  pack u := ⟨.pack u⟩
  abs := Float.abs
  two_le_exponentBits := by decide
  bits_pack _ := rfl
  abs_eq _ := rfl
  add_eq _ _ := rfl
  sub_eq _ _ := rfl
  div_eq _ _ := rfl
  le_iff _ _ := decide_eq_true_iff
  lt_iff _ _ := decide_eq_true_iff

def single : Native Float32 .binary32 where
  bits x := x.toBits.toBitVec
  pack u := ⟨.pack u⟩
  abs := Float32.abs
  two_le_exponentBits := by decide
  bits_pack _ := rfl
  abs_eq _ := rfl
  add_eq _ _ := rfl
  sub_eq _ _ := rfl
  div_eq _ _ := rfl
  le_iff _ _ := decide_eq_true_iff
  lt_iff _ _ := decide_eq_true_iff

variable {α : Type} [Add α] [Sub α] [Div α] [LE α] [LT α] {spec : Format} (N : Native α spec)

def unpack (a : α) : UnpackedFloat := UnpackedFloat.unpack spec (N.bits a)

def value (a : α) : Datum := (BinaryFormat.ofFormat spec).decode (N.bits a).toNat

theorem value_eq (a : α) : N.value a = .ofUnpacked spec (N.unpack a) := decode_toNat _

theorem unpack_eq_notANumber {a : α} (h : N.value a = .nan) : N.unpack a = .notANumber := by
  rw [N.value_eq] at h
  generalize N.unpack a = u at h ⊢
  cases u with
  | notANumber => rfl
  | infinity _ => cases h
  | zero _ => cases h
  | finite _ _ _ _ => cases h

theorem unpack_abs (a : α) : N.unpack (N.abs a) = (N.unpack a).abs := by
  rw [unpack, N.abs_eq, N.bits_pack, unpack_pack_abs _ N.two_le_exponentBits]
  rfl

theorem value_div_nan {a : α} (b : α) (h : N.value a = .nan) : N.value (a / b) = .nan := by
  have hdiv : (N.unpack a).div spec (N.unpack b) = .notANumber := by
    rw [N.unpack_eq_notANumber h]
    rfl
  rw [value_eq, unpack, N.div_eq, N.bits_pack]
  unfold unpack at hdiv
  rw [hdiv, UnpackedFloat.pack, unpack_packedNaN]
  rfl

/-- Subtracting a float is adding one that unpacks to its negation. -/
theorem sub_eq_add {b c : α} (h : N.unpack c = (N.unpack b).neg) (a : α) : a - b = a + c := by
  have hsign (s : Sign) (n : Int) : (-s).apply n = -(s.apply n) := by
    cases s with
    | positive => rfl
    | negative => exact (Int.neg_neg n).symm
  have hsub (u v : UnpackedFloat) : u.sub spec v = u.add spec v.neg := by
    cases u <;> cases v <;>
      simp only [UnpackedFloat.sub, UnpackedFloat.add, UnpackedFloat.neg, hsign,
        Int.sub_eq_add_neg]
  unfold unpack at h
  rw [N.sub_eq, N.add_eq, hsub, h]

end Native

end Yap.Numeral
