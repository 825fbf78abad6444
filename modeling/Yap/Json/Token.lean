import Yap.Json
import Yap.Numeral.Reading

/-! The tokens of a document's text: the six marks, and the values that have no parts.
Main statement: a token and the rest behind it are shorter than the text, so reading ends. -/
namespace Yap.Json

inductive Token
  | openArray | closeArray | openObject | closeObject | comma | colon
  | atom (j : Json)

namespace Token

def isBlank (c : Char) : Bool := c == ' ' || c == '\t' || c == '\n' || c == '\r'

def hexValue? (c : Char) : Option Nat :=
  if c.isDigit then some (c.toNat - 48)
  else if 'a' ≤ c ∧ c ≤ 'f' then some (c.toNat - 87)
  else if 'A' ≤ c ∧ c ≤ 'F' then some (c.toNat - 55)
  else none

def hexUnit? (a b c d : Char) : Option Nat :=
  match hexValue? a, hexValue? b, hexValue? c, hexValue? d with
  | some a, some b, some c, some d => some (((a * 16 + b) * 16 + c) * 16 + d)
  | _, _, _, _ => none

def escaped? : Char → Option Char
  | '"' => some '"'
  | '\\' => some '\\'
  | '/' => some '/'
  | 'b' => some '\x08'
  | 'f' => some '\x0c'
  | 'n' => some '\n'
  | 'r' => some '\r'
  | 't' => some '\t'
  | _ => none

/-- The code points and escaped code units up to the closing quote, and the rest behind it. -/
def takeUnits : List Char → Option (List Nat × List Char)
  | '"' :: s => some ([], s)
  | '\\' :: 'u' :: a :: b :: c :: d :: s =>
    match hexUnit? a b c d, takeUnits s with
    | some n, some (ns, rest) => some (n :: ns, rest)
    | _, _ => none
  | '\\' :: c :: s =>
    match escaped? c, takeUnits s with
    | some e, some (ns, rest) => some (e.toNat :: ns, rest)
    | _, _ => none
  | c :: s =>
    if c.toNat < 32 then none
    else
      match takeUnits s with
      | some (ns, rest) => some (c.toNat :: ns, rest)
      | none => none
  | [] => none

/-- Joins the halves of surrogate pairs. A half alone is refused. -/
def joinUnits : List Nat → Option (List Char)
  | [] => some []
  | [n] => if 0xD800 ≤ n ∧ n ≤ 0xDFFF then none else some [Char.ofNat n]
  | n :: m :: ns =>
    if 0xD800 ≤ n ∧ n ≤ 0xDBFF ∧ 0xDC00 ≤ m ∧ m ≤ 0xDFFF then
      (joinUnits ns).map (Char.ofNat (0x10000 + (n - 0xD800) * 0x400 + (m - 0xDC00)) :: ·)
    else if 0xD800 ≤ n ∧ n ≤ 0xDFFF then none
    else (joinUnits (m :: ns)).map (Char.ofNat n :: ·)

/-- The text behind an opening quote, and the rest behind the closing one. -/
def takeText (s : List Char) : Option (String × List Char) :=
  match takeUnits s with
  | some (ns, rest) => (joinUnits ns).map fun cs => (String.ofList cs, rest)
  | none => none

/-- Digits, at least one, and the rest. -/
def takeDigits (s : List Char) : Option (List Char × List Char) :=
  if (s.takeWhile Char.isDigit).isEmpty then none
  else some (s.takeWhile Char.isDigit, s.dropWhile Char.isDigit)

/-- The digits behind a point, none if there is no point, and the rest. -/
def takeFraction : List Char → Option (List Char × List Char)
  | '.' :: s => takeDigits s
  | s => some ([], s)

def takeExponent : List Char → Option (Option Int × List Char)
  | [] => some (none, [])
  | c :: s =>
    if c = 'e' ∨ c = 'E' then
      (takeDigits (Numeral.takeSign s).2).map fun (ds, rest) =>
        (some ((Numeral.takeSign s).1 * Numeral.natOf ds), rest)
    else some (none, c :: s)

def real? (negative : Bool) (digits : List Char) (exp : Int) : Option Json :=
  let n := Numeral.natOf digits
  if Numeral.Written.magnitude Numeral.binary64 n exp = Numeral.binary64.infinity then none
  else some (.real (Numeral.Written.number negative n exp).toDouble)

/-- A number without point and exponent is an integer if it fits in 64 bits, signed or unsigned;
`-0` is a float. -/
def number? (negative : Bool) (whole part : List Char) (exp : Option Int) : Option Json :=
  let n := Numeral.natOf whole
  if part.isEmpty && exp.isNone
      && (if negative then 0 < n && n ≤ 9223372036854775808 else n < 18446744073709551616) then
    some (.int (if negative then -n else n))
  else real? negative (whole ++ part) (exp.getD 0 - part.length)

def takeMinus : List Char → Bool × List Char
  | '-' :: s => (true, s)
  | s => (false, s)

/-- A number and the rest. Nothing but a lone zero starts with a zero. -/
def takeNumber (s : List Char) : Option (Json × List Char) := do
  let (whole, s₁) ← takeDigits (takeMinus s).2
  if whole.head? = some '0' ∧ 1 < whole.length then none
  else
    let (part, s₂) ← takeFraction s₁
    let (exp, s₃) ← takeExponent s₂
    let j ← number? (takeMinus s).1 whole part exp
    some (j, s₃)

/-- The first token of a text that does not start with a blank, and the rest. -/
def next? : List Char → Option (Token × List Char)
  | '[' :: s => some (openArray, s)
  | ']' :: s => some (closeArray, s)
  | '\x7b' :: s => some (openObject, s)
  | '\x7d' :: s => some (closeObject, s)
  | ',' :: s => some (comma, s)
  | ':' :: s => some (colon, s)
  | '"' :: s => (takeText s).map fun (t, rest) => (atom (.str t), rest)
  | 'n' :: 'u' :: 'l' :: 'l' :: s => some (atom .null, s)
  | 't' :: 'r' :: 'u' :: 'e' :: s => some (atom (.bool true), s)
  | 'f' :: 'a' :: 'l' :: 's' :: 'e' :: s => some (atom (.bool false), s)
  | s => (takeNumber s).map fun (j, rest) => (atom j, rest)

theorem takeUnits_length {s rest : List Char} {ns : List Nat}
    (h : takeUnits s = some (ns, rest)) : rest.length < s.length := by
  fun_induction takeUnits s generalizing ns rest <;> simp_all <;> grind

theorem takeDigits_length {s rest ds : List Char} (h : takeDigits s = some (ds, rest)) :
    rest.length < s.length := by
  unfold takeDigits at h
  split at h
  · cases h
  · rename_i hd
    cases h
    have := congrArg List.length (List.takeWhile_append_dropWhile (p := Char.isDigit) (l := s))
    have hp : 0 < (s.takeWhile Char.isDigit).length := by
      rw [List.length_pos_iff]; simpa using hd
    rw [List.length_append] at this
    omega

theorem takeFraction_length {s rest ds : List Char} (h : takeFraction s = some (ds, rest)) :
    rest.length ≤ s.length := by
  unfold takeFraction at h
  split at h
  · have := takeDigits_length h
    simp only [List.length_cons]; omega
  · cases h; exact Nat.le_refl _

theorem takeSign_length (s : List Char) : (Numeral.takeSign s).2.length ≤ s.length := by
  unfold Numeral.takeSign; split <;> simp

theorem takeExponent_length {s rest : List Char} {x : Option Int}
    (h : takeExponent s = some (x, rest)) : rest.length ≤ s.length := by
  unfold takeExponent at h
  split at h
  · cases h; exact Nat.le_refl _
  · split at h
    · obtain ⟨⟨ds, r⟩, hd, he⟩ := Option.map_eq_some_iff.1 h
      cases he
      have h₁ := takeDigits_length hd
      rename_i c s _
      have h₂ := takeSign_length s
      simp only [List.length_cons]; omega
    · cases h; exact Nat.le_refl _

theorem takeMinus_length (s : List Char) : (takeMinus s).2.length ≤ s.length := by
  unfold takeMinus; split <;> simp

theorem takeNumber_length {s rest : List Char} {j : Json} (h : takeNumber s = some (j, rest)) :
    rest.length < s.length := by
  unfold takeNumber at h
  obtain ⟨⟨whole, s₁⟩, hw, h⟩ := Option.bind_eq_some_iff.1 h
  dsimp only at h
  split at h
  · cases h
  · obtain ⟨⟨part, s₂⟩, hp, h⟩ := Option.bind_eq_some_iff.1 h
    obtain ⟨⟨exp, s₃⟩, he, h⟩ := Option.bind_eq_some_iff.1 h
    obtain ⟨j', _, h⟩ := Option.bind_eq_some_iff.1 h
    cases h
    have := takeDigits_length hw
    have := takeFraction_length hp
    have := takeExponent_length he
    have := takeMinus_length s
    dsimp only at *
    omega

theorem next?_length {s rest : List Char} {t : Token} (h : next? s = some (t, rest)) :
    rest.length < s.length := by
  unfold next? at h
  split at h
  all_goals try (cases h; simp only [List.length_cons]; omega)
  · obtain ⟨⟨t', r⟩, ht, he⟩ := Option.map_eq_some_iff.1 h
    cases he
    unfold takeText at ht
    split at ht
    · rename_i hu
      obtain ⟨cs, _, he⟩ := Option.map_eq_some_iff.1 ht
      cases he
      have := takeUnits_length hu
      simp only [List.length_cons]; omega
    · cases ht
  · obtain ⟨⟨j, r⟩, hj, he⟩ := Option.map_eq_some_iff.1 h
    cases he
    exact takeNumber_length hj

/-- The tokens of a text behind tokens already read, the last of them first. -/
def allFrom (read : List Token) (s : List Char) : Option (List Token) :=
  match s with
  | [] => some read.reverse
  | c :: s' =>
    if isBlank c then allFrom read s'
    else
      match h : next? (c :: s') with
      | none => none
      | some (t, rest) =>
        have : rest.length < (c :: s').length := next?_length h
        allFrom (t :: read) rest
termination_by s.length
decreasing_by all_goals simp only [List.length_cons] at *; omega

def all? (s : List Char) : Option (List Token) := allFrom [] s

end Token
end Yap.Json
