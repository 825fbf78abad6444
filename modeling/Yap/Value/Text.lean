import Yap.Value
import Yap.Numeral.Shortest

/-! The two texts of a value. The plain one writes floats with the fewest digits that read
back and no exponent. The exact one tells the kinds apart: an integral float keeps a point,
and one below `0.0001` or from `10 ^ 16` up has an exponent. -/
namespace Yap.Value

open Numeral

def integerText (n : Int) : List Char := (if n < 0 then ['-'] else []) ++ decimal n.natAbs

def boolText (b : Bool) : List Char := (if b then "true" else "false").toList

def floatText (f : BinaryFormat) (layout : Decimal → List Char) : Datum → List Char
  | .nan => "NaN".toList
  | .infinite negative => (if negative then "-inf" else "inf").toList
  | .finite negative m q =>
    (if negative then ['-'] else []) ++ layout (if m = 0 then ⟨0, 0⟩ else Decimal.shortest f m q)

def exactLayout (d : Decimal) : List Char :=
  if d.digits ≠ 0 ∧ (d.leadingExponent < -4 ∨ 16 ≤ d.leadingExponent) then d.scientific
  else d.positional ++ (if 0 ≤ d.exp then ".0".toList else [])

def display : Value → String
  | short n => .ofList (integerText n.toInt)
  | int n => .ofList (integerText n.toInt)
  | float x => .ofList (floatText binary32 Decimal.positional (ofSingle x))
  | double x => .ofList (floatText binary64 Decimal.positional (ofDouble x))
  | bool b => .ofList (boolText b)

/-- The exact text: an `s` after a short, an `f` after a single-width float. -/
def debug : Value → String
  | short n => .ofList (integerText n.toInt ++ ['s'])
  | int n => .ofList (integerText n.toInt)
  | float x => .ofList (floatText binary32 exactLayout (ofSingle x) ++ ['f'])
  | double x => .ofList (floatText binary64 exactLayout (ofDouble x))
  | bool b => .ofList (boolText b)

end Yap.Value
