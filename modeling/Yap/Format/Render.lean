import Yap.Format.Spec
import Yap.Numeral.Rounded

/-! One argument rendered by a specification. Integers are written in the conversion's base,
floats by their exact decimal digits, text cut to the precision; the result is padded to the
width. Main statement: the padded text has the greater of both lengths. -/
namespace Yap.Format

open Numeral

/-- An evaluated argument. Whether an integer shows as unsigned is settled before. -/
inductive Arg
  | integer (v : Int)
  | float (x : Float)
  | str (s : List Char)

namespace Spec

def sign (s : Spec) (negative : Bool) : List Char :=
  if negative then ['-'] else if s.flags.plus then ['+'] else if s.flags.space then [' '] else []

/-- Fills a field up to the width: at the right end, with zeros behind the lead, or in front. -/
def pad (s : Spec) (lead body : List Char) (zeroAllowed : Bool) : List Char :=
  let fill := s.width.getD 0 - (lead.length + body.length)
  if s.flags.left then lead ++ body ++ List.replicate fill ' '
  else if zeroAllowed && s.flags.zero then lead ++ List.replicate fill '0' ++ body
  else List.replicate fill ' ' ++ lead ++ body

theorem length_pad (s : Spec) (lead body : List Char) (z : Bool) :
    (s.pad lead body z).length = max (s.width.getD 0) (lead.length + body.length) := by
  unfold pad
  dsimp only
  split
  · simp; omega
  · split <;> simp <;> omega

/-- Digits brought up to the precision. A zero with precision zero has no digit. -/
def integerDigits (s : Spec) (base : Nat) (digit : Nat → Char) (n : Nat) : List Char :=
  if s.precision = some 0 ∧ n = 0 then []
  else padZeros (s.precision.getD 0) ((digits base n).map digit)

def renderSigned (s : Spec) (v : Int) : List Char :=
  s.pad (s.sign (v < 0)) (s.integerDigits 10 digitChar v.natAbs) s.precision.isNone

/-- An unsigned conversion in a base; `lead` stands in front of the alternate form of a number
that is not zero. -/
def renderUnsigned (s : Spec) (base : Nat) (digit : Nat → Char) (lead : List Char) (n : Nat) :
    List Char :=
  s.pad (if s.flags.alt && n != 0 then lead else []) (s.integerDigits base digit n)
    s.precision.isNone

/-- The octal conversion. Its alternate form starts with a zero. -/
def renderOctal (s : Spec) (n : Nat) : List Char :=
  let body := s.integerDigits 8 digitChar n
  s.pad [] (if s.flags.alt && body.head? != some '0' then '0' :: body else body)
    s.precision.isNone

def renderInteger (s : Spec) (v : Int) : List Char :=
  let n := (v % 4294967296).toNat
  match s.conversion with
  | .char => s.pad [] [Char.ofNat (v % 256).toNat] false
  | .bool => s.pad [] [if v = 0 then 'L' else 'W'] false
  | .signed => s.renderSigned v
  | .octal => s.renderOctal n
  | .hex => s.renderUnsigned 16 digitChar ['0', 'x'] n
  | .hexUpper => s.renderUnsigned 16 upperDigitChar ['0', 'X'] n
  | _ => s.renderUnsigned 10 digitChar [] n

end Spec

def exponentText (upper : Bool) (x : Int) : List Char :=
  (if upper then 'E' else 'e') :: (if x < 0 then '-' else '+') :: padZeros 2 (decimal x.natAbs)

/-- A point at the end, for the alternate form of a number without one. -/
def withPoint (alt : Bool) (places : Nat) (s : List Char) : List Char :=
  if alt && places == 0 then s ++ ['.'] else s

/-- Text without zeros behind a point, and without a point behind which nothing is left. -/
def stripFraction (s : List Char) : List Char :=
  if s.contains '.' then
    (((s.reverse).dropWhile (· == '0')).dropWhile (· == '.')).reverse
  else s

def fixedText (m : Nat) (q : Int) (places : Nat) (alt : Bool) : List Char :=
  withPoint alt places (fixed m q places)

def exponentialText (m : Nat) (q : Int) (places : Nat) (alt upper : Bool) : List Char :=
  withPoint alt places (mantissa m q places) ++ exponentText upper (exponent m q places)

/-- The general form: so many significant digits, with an exponent where that of the
exponential form is below -4 or not below their number. -/
def generalText (m : Nat) (q : Int) (precision : Nat) (alt upper : Bool) : List Char :=
  let significant := max precision 1
  let x := exponent m q (significant - 1)
  let strip := fun s => if alt then s else stripFraction s
  if -4 ≤ x ∧ x < significant then
    strip (fixedText m q ((significant : Int) - 1 - x).toNat alt)
  else
    strip (withPoint alt (significant - 1) (mantissa m q (significant - 1))) ++ exponentText upper x

namespace Spec

def magnitudeText (s : Spec) (m : Nat) (q : Int) : List Char :=
  let precision := s.precision.getD 6
  match s.conversion with
  | .fixed | .fixedUpper => fixedText m q precision s.flags.alt
  | .exponent | .exponentUpper => exponentialText m q precision s.flags.alt s.conversion.isUpper
  | _ => generalText m q precision s.flags.alt s.conversion.isUpper

def renderDatum (s : Spec) : Datum → List Char
  | .nan =>
    s.pad (s.sign false) (if s.conversion.isUpper then "NAN".toList else "nan".toList) false
  | .infinite negative =>
    s.pad (s.sign negative) (if s.conversion.isUpper then "INF".toList else "inf".toList) false
  | .finite negative m q => s.pad (s.sign negative) (s.magnitudeText m q) true

def renderFloat (s : Spec) (x : Float) : List Char := s.renderDatum (ofDouble x)

def renderText (s : Spec) (t : List Char) : List Char :=
  s.pad [] (match s.precision with | some n => t.take n | none => t) false

def render (s : Spec) (a : Arg) : Except FormatFault (List Char) :=
  match s.conversion.argClass, a with
  | .integer, .integer v => .ok (s.renderInteger v)
  | .floating, .float x => .ok (s.renderFloat x)
  | .str, .str t => .ok (s.renderText t)
  | .integer, _ => .error (.needsInteger s.source)
  | .floating, _ => .error (.needsFloat s.source)
  | .str, _ => .error (.needsLiteral s.source)

end Spec
end Yap.Format
