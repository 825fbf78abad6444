import Yap.Numeral.Digits
import Yap.Numeral.Rounded

/-! The shortest decimal that reads back to a given float. The reals that round to the float
form an interval around it; of the coarsest decimal grid with a point in the interval the
point nearest to the float is taken, at a tie the upper one. -/
namespace Yap.Numeral

/-- A decimal, `digits * 10 ^ exp`. -/
structure Decimal where
  digits : Nat
  exp : Int
deriving DecidableEq, Repr

namespace Decimal

/-- Compares the decimal with `n * 2 ^ j`. -/
def compareBinary (d : Decimal) (n : Nat) (j : Int) : Ordering :=
  compare (d.digits * tenTo d.exp.toNat * twoTo (-j).toNat)
    (n * twoTo j.toNat * tenTo (-d.exp).toNat)

/-- Whether the decimal rounds to `m * 2 ^ q`, in a format with this many fraction bits and this
least exponent. The bounds lie half way to the neighbours and count when `m` is even. -/
def readsBack (f : BinaryFormat) (m : Nat) (q : Int) (d : Decimal) : Bool :=
  let below := if m = twoTo f.fraction ∧ f.least < q then 4 * m - 1 else 4 * m - 2
  let above := 4 * m + 2
  let lo := d.compareBinary below (q - 2)
  let hi := d.compareBinary above (q - 2)
  (lo == .gt || (m % 2 == 0 && lo == .eq)) && (hi == .lt || (m % 2 == 0 && hi == .eq))

def stripZeros : Nat → Decimal → Decimal
  | 0, d => d
  | fuel + 1, d =>
    if d.digits ≠ 0 ∧ d.digits % 10 = 0 then stripZeros fuel ⟨d.digits / 10, d.exp + 1⟩ else d

/-- The point of the grid `10 ^ k` that stands for `m * 2 ^ q`, if one reads back. -/
def onGrid? (f : BinaryFormat) (m : Nat) (q k : Int) : Option Decimal :=
  let num := m * twoTo q.toNat * tenTo (-k).toNat
  let den := twoTo (-q).toNat * tenTo k.toNat
  let lower : Decimal := ⟨num / den, k⟩
  let upper : Decimal := ⟨num / den + 1, k⟩
  match lower.readsBack f m q, upper.readsBack f m q with
  | false, false => none
  | true, false => some lower
  | false, true => some upper
  | true, true => if 2 * (num % den) < den then some lower else some upper

/-- The shortest decimal that reads back to `m * 2 ^ q`, for a positive `m`. Seventeen digits
are enough for the formats in use; beyond them the exact value would stand. -/
def shortest (f : BinaryFormat) (m : Nat) (q : Int) : Decimal :=
  let x := leading m q
  match (List.range 17).findSome? fun n : Nat => onGrid? f m q (x - n) with
  | some d => stripZeros 17 d
  | none => ⟨m * twoTo q.toNat * Nat.pow 5 (-q).toNat, min q 0⟩

theorem onGrid?_readsBack {f : BinaryFormat} {m : Nat} {q k : Int} {d : Decimal}
    (h : onGrid? f m q k = some d) : d.readsBack f m q = true := by
  unfold onGrid? at h
  simp only at h
  split at h
  · cases h
  · rename_i hl _; cases h; exact hl
  · rename_i _ hu; cases h; exact hu
  · rename_i hl hu
    split at h <;> cases h
    · exact hl
    · exact hu

def positional (d : Decimal) : List Char :=
  if 0 ≤ d.exp then decimal d.digits ++ List.replicate d.exp.toNat '0'
  else pointed (-d.exp).toNat (decimal d.digits)

def leadingExponent (d : Decimal) : Int := d.exp + decimalLength d.digits - 1

/-- The decimal with one digit before the point and a power of ten. -/
def scientific (d : Decimal) : List Char :=
  let s := decimal d.digits
  let x := d.leadingExponent
  (if s.length = 1 then s else pointed (s.length - 1) s) ++ 'e' ::
    (if x < 0 then ['-'] else []) ++ decimal x.natAbs

end Decimal
end Yap.Numeral
