import Yap.Numeral.Digits
import Yap.Numeral.Binary

/-! Decimal renderings of an exact value `m * 2 ^ q`, correctly rounded to a given number of
places with ties to even: fixed places, and one digit before the point with an exponent. -/
namespace Yap.Numeral

/-- The value `m * 2 ^ q * 10 ^ k` rounded to a natural number. -/
def scaled (m : Nat) (q k : Int) : Nat :=
  roundDiv (m * twoTo q.toNat * tenTo k.toNat) (twoTo (-q).toNat * tenTo (-k).toNat)

/-- The decimal exponent of the leading digit of `m * 2 ^ q`, for a positive `m`: the number of
digits before the point less one, or for a value below one the least power of ten that
brings it up to one, negated. -/
def leading (m : Nat) (q : Int) : Int :=
  let num := m * twoTo q.toNat
  let den := twoTo (-q).toNat
  if den ≤ num then (decimalLength (num / den) : Int) - 1
  else -(decimalLength ((den - 1) / num) : Int)

def pointed (places : Nat) (s : List Char) : List Char :=
  let s := padZeros (places + 1) s
  if places = 0 then s else s.take (s.length - places) ++ '.' :: s.drop (s.length - places)

def fixed (m : Nat) (q : Int) (places : Nat) : List Char :=
  pointed places (decimal (scaled m q places))

/-- The first `places + 1` digits of the value as one number, and the exponent of the first.
A carry into a further digit moves the exponent. Zero has exponent zero. -/
def significand (m : Nat) (q : Int) (places : Nat) : Nat × Int :=
  if m = 0 then (0, 0)
  else
    let x := leading m q
    let d := scaled m q (places - x)
    if d < tenTo (places + 1) then (d, x) else (tenTo places, x + 1)

def mantissa (m : Nat) (q : Int) (places : Nat) : List Char :=
  pointed places (decimal (significand m q places).1)

def exponent (m : Nat) (q : Int) (places : Nat) : Int := (significand m q places).2

end Yap.Numeral
