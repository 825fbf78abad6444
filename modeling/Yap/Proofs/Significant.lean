import Mathlib.Algebra.Order.Field.Power
import Mathlib.Tactic.Linarith
import Mathlib.Tactic.NormNum
import Yap.Proofs.Positional

/-! Values rounded to significant digits. The exponent of the first digit is found before the value
is rounded, and a carry moves it. Main statement: the general form of a value shows the number that
its exponential form shows, with an exponent or without one as that form's exponent tells. -/
namespace Yap.Numeral

section Scaling

variable {m : Nat} {q k : Int}

theorem zpow_eq_div (b : ℚ) (q : Int) : b ^ q = b ^ q.toNat / b ^ (-q).toNat := by
  rcases Int.le_total 0 q with hq | hq
  · obtain ⟨n, rfl⟩ := Int.eq_ofNat_of_zero_le hq
    simp
  · obtain ⟨n, rfl⟩ := Int.exists_eq_neg_ofNat hq
    simp

/-- The rounded value is within half a unit of the exact one. -/
theorem scaled_near (m : Nat) (q k : Int) : |(scaled m q k : ℚ) - m * 2 ^ q * 10 ^ k| ≤ 1 / 2 := by
  have hden : 0 < twoTo (-q).toNat * tenTo (-k).toNat := Nat.mul_pos (twoTo_pos _) (tenTo_pos _)
  have hexact : (m * 2 ^ q * 10 ^ k : ℚ) =
      (m * twoTo q.toNat * tenTo k.toNat : Nat) / (twoTo (-q).toNat * tenTo (-k).toNat : Nat) := by
    rw [zpow_eq_div 2, zpow_eq_div 10]
    simp only [twoTo, tenTo, Nat.pow_eq]
    push_cast
    ring
  obtain ⟨hle, hge⟩ := roundDiv_near (m * twoTo q.toNat * tenTo k.toNat) _ hden
  rw [hexact, scaled]
  generalize m * twoTo q.toNat * tenTo k.toNat = num at hle hge
  generalize twoTo (-q).toNat * tenTo (-k).toNat = den at hden hle hge
  generalize roundDiv num den = n at hle hge
  have hden' : (0 : ℚ) < den := by exact_mod_cast hden
  have hle' : (2 * (n * den) : ℚ) ≤ 2 * num + den := by exact_mod_cast hle
  have hge' : (2 * num : ℚ) ≤ 2 * (n * den) + den := by exact_mod_cast hge
  have hdiv : (num / den : ℚ) * den = num := div_mul_cancel₀ _ hden'.ne'
  rw [abs_le]
  constructor
  · refine le_of_mul_le_mul_right ?_ hden'
    linarith
  · refine le_of_mul_le_mul_right ?_ hden'
    linarith

/-- A number within less than half a unit is what the value is rounded to. -/
theorem scaled_eq_of_near {n : Nat} (h : |(n : ℚ) - m * 2 ^ q * 10 ^ k| < 1 / 2) :
    scaled m q k = n := by
  have hnear := scaled_near m q k
  rw [abs_le] at hnear
  rw [abs_lt] at h
  have hlt : (scaled m q k : ℚ) < n + 1 := by linarith
  have hgt : (n : ℚ) < scaled m q k + 1 := by linarith
  have hlt' : scaled m q k < n + 1 := by exact_mod_cast hlt
  have hgt' : n < scaled m q k + 1 := by exact_mod_cast hgt
  omega

end Scaling

section Leading

theorem length_digitsOnto {fuel n : Nat} (acc : List Nat) (hn : 0 < n) (hfuel : n < twoTo fuel) :
    ∃ k, (digitsOnto 10 fuel n acc).length = acc.length + k + 1 ∧
      tenTo k ≤ n ∧ n < tenTo (k + 1) := by
  induction fuel generalizing n acc with
  | zero =>
    rw [twoTo_zero] at hfuel
    omega
  | succ fuel ih =>
    rw [digitsOnto]
    split
    · rename_i hlt
      refine ⟨0, rfl, hn, ?_⟩
      rwa [tenTo_succ, tenTo_zero, Nat.one_mul]
    · rw [twoTo_succ] at hfuel
      obtain ⟨k, hk, hle, hlt⟩ := ih (n % 10 :: acc) (n := n / 10) (by omega) (by omega)
      refine ⟨k + 1, ?_, ?_, ?_⟩
      · rw [hk, List.length_cons]
        omega
      · rw [tenTo_succ]
        omega
      · rw [tenTo_succ]
        omega

/-- The number of digits is told by the powers of ten around a number. -/
theorem decimalLength_bounds {n : Nat} (hn : 0 < n) :
    ∃ k, decimalLength n = k + 1 ∧ tenTo k ≤ n ∧ n < tenTo (k + 1) := by
  obtain ⟨k, hk, hbounds⟩ := length_digitsOnto [] hn (lt_twoTo_log2_succ n)
  rw [List.length_nil, Nat.zero_add] at hk
  exact ⟨k, hk, hbounds⟩

variable {m : Nat} (hm : m ≠ 0) (q : Int)
include hm

/-- The exponent of the first digit is told by the powers of ten around a value. -/
theorem leading_bounds :
    (10 : ℚ) ^ leading m q ≤ m * 2 ^ q ∧ (m * 2 ^ q : ℚ) < 10 ^ (leading m q + 1) := by
  have hexact : (m * 2 ^ q : ℚ) = (m * twoTo q.toNat : Nat) / (twoTo (-q).toNat : Nat) := by
    rw [zpow_eq_div 2]
    simp only [twoTo, Nat.pow_eq]
    push_cast
    ring
  have hnum : 0 < m * twoTo q.toNat := Nat.mul_pos (Nat.pos_of_ne_zero hm) (twoTo_pos _)
  have hden := twoTo_pos (-q).toNat
  rw [hexact, leading]
  generalize m * twoTo q.toNat = num at hnum
  generalize twoTo (-q).toNat = den at hden
  have hden' : (0 : ℚ) < den := by exact_mod_cast hden
  split
  · rename_i hle
    obtain ⟨k, hk, hlow, hhigh⟩ := decimalLength_bounds (Nat.div_pos hle hden)
    rw [Nat.le_div_iff_mul_le hden] at hlow
    rw [Nat.div_lt_iff_lt_mul hden] at hhigh
    have hx : ((k + 1 : Nat) : Int) - 1 = k := by omega
    rw [hk, hx, le_div_iff₀ hden', div_lt_iff₀ hden']
    exact ⟨by exact_mod_cast hlow, by exact_mod_cast hhigh⟩
  · rename_i hlt
    obtain ⟨k, hk, hlow, hhigh⟩ := decimalLength_bounds (n := (den - 1) / num)
      (Nat.div_pos (by omega) hnum)
    rw [Nat.le_div_iff_mul_le hnum] at hlow
    rw [Nat.div_lt_iff_lt_mul hnum] at hhigh
    have hlow' : tenTo k * num < den := by omega
    have hhigh' : den ≤ tenTo (k + 1) * num := by omega
    have hx : -((k + 1 : Nat) : Int) + 1 = -(k : Int) := by omega
    rw [hk, hx, zpow_neg, zpow_neg, zpow_natCast, zpow_natCast, le_div_iff₀ hden',
      div_lt_iff₀ hden', inv_mul_le_iff₀ (by positivity), lt_inv_mul_iff₀ (by positivity)]
    exact ⟨by exact_mod_cast hhigh', by exact_mod_cast hlow'⟩

end Leading

section Significand

variable (m : Nat) (q : Int) (places : Nat)

/-- A carry does not change what the value is rounded to: to as many places as the significand has
behind its first digit, it is rounded to the significand. -/
theorem scaled_exponent :
    scaled m q (places - exponent m q places) = (significand m q places).1 := by
  rw [exponent, significand]
  split
  · rename_i hm
    exact scaled_eq_of_near (by simp [hm])
  · rename_i hm
    dsimp only
    split
    · rfl
    · rename_i hcarry
      obtain ⟨-, hlt⟩ := leading_bounds hm q
      have hnear := (abs_le.1 (scaled_near m q (places - leading m q))).2
      have hpower : (0 : ℚ) < 10 ^ (places - leading m q) := by positivity
      have hbelow : (m * 2 ^ q * 10 ^ (places - leading m q) : ℚ) < tenTo places * 10 := by
        calc (m * 2 ^ q * 10 ^ (places - leading m q) : ℚ)
            < 10 ^ (leading m q + 1) * 10 ^ (places - leading m q) := by gcongr
          _ = 10 ^ ((places + 1 : Nat) : Int) := by
            rw [← zpow_add₀ (by norm_num)]
            congr 1
            omega
          _ = tenTo places * 10 := by
            rw [zpow_natCast, pow_succ]
            simp [tenTo]
      have habove : (tenTo places * 10 : ℚ) ≤ scaled m q (places - leading m q) := by
        exact_mod_cast not_lt.1 hcarry
      have hscale : (m * 2 ^ q * 10 ^ (places - (leading m q + 1)) : ℚ) * 10 =
          m * 2 ^ q * 10 ^ (places - leading m q) := by
        rw [mul_assoc, ← zpow_add_one₀ (by norm_num)]
        congr 2
        omega
      refine scaled_eq_of_near (abs_lt.2 ⟨?_, ?_⟩)
      · linarith
      · linarith

/-- The significand of a value that is not zero has one digit in front of its places. -/
theorem significand_bounds (hm : m ≠ 0) :
    tenTo places ≤ (significand m q places).1 ∧
      (significand m q places).1 < tenTo (places + 1) := by
  rw [significand, if_neg hm]
  dsimp only
  split
  · rename_i hlt
    refine ⟨?_, hlt⟩
    obtain ⟨hle, -⟩ := leading_bounds hm q
    have hnear := (abs_le.1 (scaled_near m q (places - leading m q))).1
    have hpower : (0 : ℚ) < 10 ^ (places - leading m q) := by positivity
    have hexact : (tenTo places : ℚ) ≤ m * 2 ^ q * 10 ^ (places - leading m q) := by
      calc (tenTo places : ℚ) = 10 ^ leading m q * 10 ^ (places - leading m q) := by
            rw [← zpow_add₀ (by norm_num), add_sub_cancel, zpow_natCast]
            simp [tenTo]
        _ ≤ m * 2 ^ q * 10 ^ (places - leading m q) := by gcongr
    have hrounded : (tenTo places : ℚ) < scaled m q (places - leading m q) + 1 := by linarith
    have hrounded' : tenTo places < scaled m q (places - leading m q) + 1 := by
      exact_mod_cast hrounded
    omega
  · have hpos := tenTo_pos places
    rw [tenTo_succ]
    omega

def significant : ℚ := (significand m q places).1 * 10 ^ (exponent m q places - places)

/-- It is the value within half a unit of its last place. -/
theorem significant_near :
    2 * |significant m q places - m * 2 ^ q| ≤ 10 ^ (exponent m q places - places) := by
  have hnear := scaled_near m q (places - exponent m q places)
  have hpower : (0 : ℚ) < 10 ^ (exponent m q places - places) := by positivity
  have hinverse : (10 : ℚ) ^ (places - exponent m q places) *
      10 ^ (exponent m q places - places) = 1 := by
    rw [← zpow_add₀ (by norm_num)]
    simp
  rw [scaled_exponent] at hnear
  have hsplit : significant m q places - m * 2 ^ q =
      ((significand m q places).1 - m * 2 ^ q * 10 ^ (places - exponent m q places)) *
        10 ^ (exponent m q places - places) := by
    rw [significant, sub_mul, mul_assoc _ (_ ^ _), hinverse, mul_one]
  rw [hsplit, abs_mul, abs_of_pos hpower, ← mul_assoc]
  exact mul_le_of_le_one_left hpower.le (by linarith)

theorem significant_bounds (hm : m ≠ 0) :
    10 ^ exponent m q places ≤ significant m q places ∧
      significant m q places < 10 ^ (exponent m q places + 1) := by
  obtain ⟨hle, hlt⟩ := significand_bounds m q places hm
  have hpower : (0 : ℚ) < 10 ^ (exponent m q places - places) := by positivity
  have hscale (k : Nat) : (10 : ℚ) ^ (exponent m q places - places + k) =
      tenTo k * 10 ^ (exponent m q places - places) := by
    rw [zpow_add₀ (by norm_num), zpow_natCast, mul_comm]
    simp [tenTo]
  have hlow : (10 : ℚ) ^ exponent m q places =
      tenTo places * 10 ^ (exponent m q places - places) := by
    rw [← hscale, sub_add_cancel]
  have hhigh : (10 : ℚ) ^ (exponent m q places + 1) =
      tenTo (places + 1) * 10 ^ (exponent m q places - places) := by
    rw [← hscale]
    congr 1
    omega
  rw [hlow, hhigh, significant]
  constructor
  · exact mul_le_mul_of_nonneg_right (by exact_mod_cast hle) hpower.le
  · exact mul_lt_mul_of_pos_right (by exact_mod_cast hlt) hpower

/-- With decimals down to the last place of the significand the value shows as that number. -/
theorem shows_fixedText {k : Nat} (hk : (k : Int) = places - exponent m q places) (alt : Bool) :
    Shows (significant m q places) (Format.fixedText m q k alt) := by
  have hvalue : significant m q places = (significand m q places).1 / 10 ^ k := by
    have hexp : exponent m q places - places = -(k : Int) := by omega
    rw [significant, hexp, zpow_neg, zpow_natCast, div_eq_mul_inv]
  rw [Format.fixedText, fixed, hk, scaled_exponent, hvalue]
  exact shows_withPoint alt k _

/-- In the exponential form the exponent scales what the digits in front of it show. -/
theorem shows_mantissa (alt : Bool) :
    ∃ w, Shows w (Format.withPoint alt places (mantissa m q places)) ∧
      w * 10 ^ exponent m q places = significant m q places := by
  refine ⟨_, shows_withPoint alt places (significand m q places).1, ?_⟩
  rw [significant, zpow_sub₀ (by norm_num), zpow_natCast]
  ring

end Significand

end Yap.Numeral

namespace Yap.Format

open Numeral

/-- How many of so many significant digits are behind the first one. There is always that one. -/
def decimals (precision : Nat) : Nat := max precision 1 - 1

/-- The general form of a value shows the number that the exponential form shows which has as many
significant digits. That number is the value rounded there, and the exponent is that of its first
digit; the general form has no exponent exactly if this one is at least -4 and below the number of
significant digits. Without the alternate flag nothing that it ends in could be left out. -/
theorem general_as_exponential (m : Nat) (q : Int) (precision : Nat) (alt upper : Bool) :
    ∃ (v : ℚ) (x : Int) (mantissa number : List Char) (a b : ℚ),
      2 * |v - m * 2 ^ q| ≤ 10 ^ (x - decimals precision) ∧
      (m ≠ 0 → 10 ^ x ≤ v ∧ v < 10 ^ (x + 1)) ∧
      Shows a mantissa ∧ exponentialText m q (decimals precision) alt upper =
        mantissa ++ exponentText upper x ∧
      numberOf? (exponentialText m q (decimals precision) alt upper) = some v ∧
      Shows b number ∧ generalText m q precision alt upper =
        number ++ (if -4 ≤ x ∧ x < (max precision 1 : Nat) then [] else exponentText upper x) ∧
      numberOf? (generalText m q precision alt upper) = some v ∧
      (alt = false → Stripped number) := by
  set places := decimals precision with hdecimals
  have hplaces : ((max precision 1 : Nat) : Int) - 1 = places := by
    rw [hdecimals, decimals]
    omega
  have hstrip {v : ℚ} {s : List Char} (h : Shows v s) :
      Shows v (if alt then s else stripFraction s) ∧
        (alt = false → Stripped (if alt then s else stripFraction s)) := by
    cases alt with
    | true => exact ⟨h, nofun⟩
    | false => exact ⟨h.stripFraction.1, fun _ => h.stripFraction.2⟩
  obtain ⟨w, hmantissa, hw⟩ := shows_mantissa m q places alt
  have hexponent := readExponent?_exponentText upper (exponent m q places)
  have hread {s : List Char} (h : Shows w s) : numberOf? (s ++ exponentText upper
      (exponent m q places)) = some (significant m q places) := by
    rw [h.numberOf? hexponent, hw]
  by_cases hx : -4 ≤ exponent m q places ∧ exponent m q places < (max precision 1 : Nat)
  · have hk : ((((max precision 1 : Nat) : Int) - 1 - exponent m q places).toNat : Int) =
        places - exponent m q places := by omega
    obtain ⟨hshows, hstripped⟩ := hstrip (shows_fixedText m q places hk alt)
    have hnumber := hshows.numberOf? (t := []) (x := 0) rfl
    rw [List.append_nil, zpow_zero, mul_one] at hnumber
    have htext : generalText m q precision alt upper = _ := if_pos hx
    refine ⟨_, exponent m q places, _, _, w, _, significant_near m q places,
      significant_bounds m q places, hmantissa, rfl, hread hmantissa, hshows, ?_, ?_, hstripped⟩
    · rw [if_pos hx, List.append_nil]
      exact htext
    · rw [htext]
      exact hnumber
  · obtain ⟨hshows, hstripped⟩ := hstrip hmantissa
    have htext : generalText m q precision alt upper = _ := if_neg hx
    refine ⟨_, exponent m q places, _, _, w, _, significant_near m q places,
      significant_bounds m q places, hmantissa, rfl, hread hmantissa, hshows, ?_, ?_, hstripped⟩
    · rw [if_neg hx]
      exact htext
    · rw [htext]
      exact hread hshows

/-- A carry takes 999.5 to four digits before the point, which three significant ones do not
reach. -/
example : generalText 1999 (-1) 3 false false = "1e+03".toList ∧
    generalText 1999 (-1) 4 false false = "999.5".toList := by decide

end Yap.Format
