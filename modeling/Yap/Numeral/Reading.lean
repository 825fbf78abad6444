import Yap.Numeral.Digits
import Yap.Numeral.Binary

/-! Numbers read from text. An integer is an optional sign and decimal digits, refused at the
first character that is no digit or that takes it out of 64 bits. A float is an optional sign
and a word for infinity or for no number, or digits with an optional point and exponent; its
exact decimal value is rounded once. -/
namespace Yap.Numeral

def digitValue (c : Char) : Nat := c.toNat - 48

def natOf (s : List Char) : Nat := ofDigits 10 (s.map digitValue)

inductive IntegerFault
  | malformed
  | tooLarge
deriving DecidableEq, Repr

/-- Reads digits to the right of a number, in the direction of its sign. -/
def readDigits (sign : Int) : List Char → Int → Except IntegerFault Int
  | [], n => .ok n
  | c :: s, n =>
    if c.isDigit then
      let n' := n * 10 + sign * digitValue c
      if -9223372036854775808 ≤ n' ∧ n' < 9223372036854775808 then readDigits sign s n'
      else .error .tooLarge
    else .error .malformed

/-- An optional sign, as a factor, and the rest. -/
def takeSign : List Char → Int × List Char
  | '-' :: s => (-1, s)
  | '+' :: s => (1, s)
  | s => (1, s)

def readInteger (s : List Char) : Except IntegerFault Int :=
  match takeSign s with
  | (_, []) => .error .malformed
  | (sign, digits) => readDigits sign digits 0

inductive Written
  | nan
  | infinite (negative : Bool)
  | number (negative : Bool) (digits : Nat) (exp : Int)
deriving DecidableEq, Repr

/-- The exponent at the end of a float text, zero if there is none. -/
def readExponent? : List Char → Option Int
  | [] => some 0
  | c :: s =>
    if c = 'e' ∨ c = 'E' then
      match takeSign s with
      | (_, []) => none
      | (sign, digits) => if digits.all Char.isDigit then some (sign * natOf digits) else none
    else none

/-- Digits, perhaps a point and more digits, perhaps an exponent, with a digit somewhere before
the exponent. -/
def readDecimal? (negative : Bool) (s : List Char) : Option Written :=
  let whole := s.takeWhile Char.isDigit
  let rest := s.dropWhile Char.isDigit
  let (part, tail) :=
    match rest with
    | '.' :: t => (t.takeWhile Char.isDigit, t.dropWhile Char.isDigit)
    | t => ([], t)
  if whole.isEmpty && part.isEmpty then none
  else (readExponent? tail).map fun x => .number negative (natOf (whole ++ part)) (x - part.length)

def readFloat? (s : List Char) : Option Written :=
  let (sign, body) := takeSign s
  match body.map Char.toLower with
  | ['n', 'a', 'n'] => some .nan
  | ['i', 'n', 'f'] => some (.infinite (sign < 0))
  | ['i', 'n', 'f', 'i', 'n', 'i', 't', 'y'] => some (.infinite (sign < 0))
  | _ => readDecimal? (sign < 0) body

namespace Written

/-- The bits of the magnitude nearest to `digits * 10 ^ exp`. A value from `10 ^ 400` up is
beyond every format in use and one below `10 ^ (-400)` is nothing in it. -/
def magnitude (f : BinaryFormat) (digits : Nat) (exp : Int) : Nat :=
  if digits = 0 then 0
  else
    let places := decimalLength digits + exp
    if 400 < places then f.infinity
    else if places < -400 then 0
    else f.quotient (digits * tenTo exp.toNat) (tenTo (-exp).toNat)

def bits (f : BinaryFormat) : Written → Nat
  | nan => f.encode .nan
  | infinite negative => f.encode (.infinite negative)
  | number negative digits exp => f.withSign negative (magnitude f digits exp)

def toDouble (w : Written) : Float := Float.ofBits (UInt64.ofNat (w.bits binary64))

def toSingle (w : Written) : Float32 := Float32.ofBits (UInt32.ofNat (w.bits binary32))

end Written
end Yap.Numeral
