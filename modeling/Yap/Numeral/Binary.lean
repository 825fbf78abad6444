import Yap.Numeral.Power

/-! Binary floating numbers as exact values: a bit pattern stands for a signed `m * 2 ^ q`, an
infinity or no number. Values are rounded to a format once, to the nearest representable one
and at a tie to the even one. Widening, narrowing, truncation and the remainder are exact
operations on values followed by that rounding. -/
namespace Yap.Numeral

structure BinaryFormat where
  fraction : Nat
  exponent : Nat
deriving DecidableEq, Repr

def binary32 : BinaryFormat := ⟨23, 8⟩
def binary64 : BinaryFormat := ⟨52, 11⟩

/-- What a bit pattern stands for. -/
inductive Datum
  | nan
  | infinite (negative : Bool)
  | finite (negative : Bool) (m : Nat) (q : Int)
deriving DecidableEq, Repr

/-- The quotient rounded to the nearest natural number, at a tie to the even one. -/
def roundDiv (num den : Nat) : Nat :=
  match compare (2 * (num % den)) den with
  | .lt => num / den
  | .gt => num / den + 1
  | .eq => if num / den % 2 = 0 then num / den else num / den + 1

/-- The rounded quotient is within half a unit of the exact one. -/
theorem roundDiv_near (num den : Nat) (h : 0 < den) :
    2 * (roundDiv num den * den) ≤ 2 * num + den ∧
      2 * num ≤ 2 * (roundDiv num den * den) + den := by
  have e : den * (num / den) + num % den = num := Nat.div_add_mod num den
  have l : num % den < den := Nat.mod_lt _ h
  have hq : (num / den + 1) * den = den * (num / den) + den := by
    rw [Nat.add_mul, Nat.mul_comm]; simp
  have hq0 : num / den * den = den * (num / den) := Nat.mul_comm ..
  unfold roundDiv
  split
  · rename_i hc; rw [Nat.compare_eq_lt] at hc; omega
  · rename_i hc; rw [Nat.compare_eq_gt] at hc; omega
  · rename_i hc; rw [Nat.compare_eq_eq] at hc; split <;> omega

/-- At a tie the rounded quotient is even. -/
theorem roundDiv_even_of_tie (num den : Nat) (h : 2 * (num % den) = den) :
    roundDiv num den % 2 = 0 := by
  have hc : compare (2 * (num % den)) den = .eq := by rw [Nat.compare_eq_eq]; exact h
  rw [roundDiv, hc]
  dsimp only
  split <;> omega

namespace BinaryFormat

/-- The exponent of the least positive value. -/
def least (f : BinaryFormat) : Int := 2 - twoTo (f.exponent - 1) - f.fraction

/-- The bits of positive infinity; every finite magnitude has smaller ones. -/
def infinity (f : BinaryFormat) : Nat := (twoTo f.exponent - 1) * twoTo f.fraction

def signBit (f : BinaryFormat) : Nat := twoTo (f.fraction + f.exponent)

def decode (f : BinaryFormat) (bits : Nat) : Datum :=
  let m := bits % twoTo f.fraction
  let e := bits / twoTo f.fraction % twoTo f.exponent
  let negative := bits / f.signBit % 2 = 1
  if e = twoTo f.exponent - 1 then if m = 0 then .infinite negative else .nan
  else if e = 0 then .finite negative m f.least
  else .finite negative (twoTo f.fraction + m) (f.least + (e - 1 : Nat))

/-- The bits of the value nearest to `m * 2 ^ q`. The stored fields read as one number count
the representable values from zero up, so a carry out of the fraction needs no care. -/
def magnitude (f : BinaryFormat) (m : Nat) (q : Int) : Nat :=
  if m = 0 then 0
  else
    let unit := max f.least (q + m.log2 - f.fraction)
    let count :=
      if unit ≤ q then m * twoTo (q - unit).toNat else roundDiv m (twoTo (unit - q).toNat)
    min f.infinity ((unit - f.least).toNat * twoTo f.fraction + count)

@[simp] theorem magnitude_zero (f : BinaryFormat) (q : Int) : f.magnitude 0 q = 0 := by
  simp [magnitude]

theorem magnitude_le (f : BinaryFormat) (m : Nat) (q : Int) : f.magnitude m q ≤ f.infinity := by
  unfold magnitude
  split
  · exact Nat.zero_le _
  · exact Nat.min_le_left _ _

/-- The bits of the value nearest to `num / den`. The quotient is cut two bits below the
rounding place and a last bit tells whether anything was cut off. -/
def quotient (f : BinaryFormat) (num den : Nat) : Nat :=
  let shift := den.log2 + f.fraction + 3 - num.log2
  let scaled := num * twoTo shift
  f.magnitude (2 * (scaled / den) + if scaled % den = 0 then 0 else 1) (-(shift : Int) - 1)

def withSign (f : BinaryFormat) (negative : Bool) (bits : Nat) : Nat :=
  if negative then f.signBit + bits else bits

def encode (f : BinaryFormat) : Datum → Nat
  | .nan => f.infinity + twoTo (f.fraction - 1)
  | .infinite negative => f.withSign negative f.infinity
  | .finite negative m q => f.withSign negative (f.magnitude m q)

end BinaryFormat

namespace Datum

/-- The integer part, toward zero, clamped to a range; no number counts as zero. -/
def truncate (lo hi : Int) : Datum → Int
  | .nan => 0
  | .infinite negative => if negative then lo else hi
  | .finite negative m q =>
    let whole : Int := if 0 ≤ q then m * twoTo q.toNat else m / twoTo (-q).toNat
    max lo (min hi (if negative then -whole else whole))

/-- The remainder of the exact quotient cut toward zero. It has the dividend's sign. -/
def remainder : Datum → Datum → Datum
  | .nan, _ => .nan
  | .infinite _, _ => .nan
  | .finite .., .nan => .nan
  | .finite s m q, .infinite _ => .finite s m q
  | .finite s m q, .finite _ n p =>
    if n = 0 then .nan
    else
      let unit := min q p
      .finite s (m * twoTo (q - unit).toNat % (n * twoTo (p - unit).toNat)) unit

end Datum

def ofDouble (x : Float) : Datum := binary64.decode x.toBits.toNat

def toDouble (d : Datum) : Float := Float.ofBits (UInt64.ofNat (binary64.encode d))

def ofSingle (x : Float32) : Datum := binary32.decode x.toBits.toNat

def toSingle (d : Datum) : Float32 := Float32.ofBits (UInt32.ofNat (binary32.encode d))

def widen (x : Float32) : Float := toDouble (ofSingle x)

def narrow (x : Float) : Float32 := toSingle (ofDouble x)

def ofInt (n : Int) : Datum := .finite (n < 0) n.natAbs 0

def fmod (x y : Float) : Float := toDouble ((ofDouble x).remainder (ofDouble y))

def fmodSingle (x y : Float32) : Float32 := toSingle ((ofSingle x).remainder (ofSingle y))

end Yap.Numeral
