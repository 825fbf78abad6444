/-! The printf language: a format is literal text and conversion specifications
`%[flags][width][.precision][length]conversion`. Lengths are accepted and change nothing, and
`%%` is a percent sign. Main statements: a specification consumes the text that
its source shows, and a conversion is read off its own letter. -/
namespace Yap.Format

/-- Flags of a specification, in the order in which they are listed. -/
structure Flags where
  left : Bool := false
  plus : Bool := false
  space : Bool := false
  zero : Bool := false
  alt : Bool := false
deriving DecidableEq, Repr

namespace Flags

def none : Flags := {}

def union (a b : Flags) : Flags :=
  ⟨a.left || b.left, a.plus || b.plus, a.space || b.space, a.zero || b.zero, a.alt || b.alt⟩

def ofChar? : Char → Option Flags
  | '-' => some { left := true }
  | '+' => some { plus := true }
  | ' ' => some { space := true }
  | '0' => some { zero := true }
  | '#' => some { alt := true }
  | _ => Option.none

def text (f : Flags) : List Char :=
  (if f.left then ['-'] else []) ++ (if f.plus then ['+'] else []) ++
    (if f.space then [' '] else []) ++ (if f.zero then ['0'] else []) ++
    (if f.alt then ['#'] else [])

end Flags

inductive Conversion
  | signed | octal | unsigned | hex | hexUpper | fixed | fixedUpper | exponent | exponentUpper
  | general | generalUpper | char | str | bool
deriving DecidableEq, Repr

inductive ArgClass
  | integer | floating | str
deriving DecidableEq, Repr

def ArgClass.name : ArgClass → String
  | integer => "integer"
  | floating => "floating"
  | str => "str"

namespace Conversion

def ofChar? : Char → Option Conversion
  | 'd' | 'i' => some signed
  | 'o' => some octal
  | 'u' => some unsigned
  | 'x' => some hex
  | 'X' => some hexUpper
  | 'f' => some fixed
  | 'F' => some fixedUpper
  | 'e' => some exponent
  | 'E' => some exponentUpper
  | 'g' => some general
  | 'G' => some generalUpper
  | 'c' => some char
  | 's' => some str
  | 'b' => some bool
  | _ => none

def letter : Conversion → Char
  | signed => 'd'
  | octal => 'o'
  | unsigned => 'u'
  | hex => 'x'
  | hexUpper => 'X'
  | fixed => 'f'
  | fixedUpper => 'F'
  | exponent => 'e'
  | exponentUpper => 'E'
  | general => 'g'
  | generalUpper => 'G'
  | char => 'c'
  | str => 's'
  | bool => 'b'

theorem ofChar?_letter (c : Conversion) : ofChar? c.letter = some c := by cases c <;> rfl

def argClass : Conversion → ArgClass
  | fixed | fixedUpper | exponent | exponentUpper | general | generalUpper => .floating
  | str => .str
  | _ => .integer

def isUpper : Conversion → Bool
  | hexUpper | fixedUpper | exponentUpper | generalUpper => true
  | _ => false

end Conversion

structure Spec where
  flags : Flags
  width : Option Nat
  precision : Option Nat
  conversion : Conversion
  source : List Char
deriving DecidableEq, Repr

inductive Piece
  | literal (text : List Char)
  | spec (s : Spec)
deriving DecidableEq, Repr

inductive FormatFault
  | starWidth
  | starPrecision
  | incomplete
  | unsupported (found : Char)
  | needsInteger (source : List Char)
  | needsFloat (source : List Char)
  | needsLiteral (source : List Char)
deriving DecidableEq, Repr

def FormatFault.message : FormatFault → String
  | starWidth => "`*` field width is not supported"
  | starPrecision => "`*` precision is not supported"
  | incomplete => "incomplete format specifier"
  | unsupported found => "unsupported format specifier `%" ++ String.ofList [found] ++ "`"
  | needsInteger source => "`" ++ String.ofList source ++ "` expects an integer argument"
  | needsFloat source => "`" ++ String.ofList source ++ "` expects a float or double argument"
  | needsLiteral source => "`" ++ String.ofList source ++ "` expects a string literal"

/-- The greatest width or precision; greater numbers count as this one. -/
def limit : Nat := 18446744073709551615

def takeFlags : List Char → Flags × List Char
  | [] => (Flags.none, [])
  | c :: s =>
    match Flags.ofChar? c with
    | some f => (f.union (takeFlags s).1, (takeFlags s).2)
    | none => (Flags.none, c :: s)

/-- The number at the start of a text, none if there is no digit, and the rest. -/
def takeNumber (s : List Char) : Option Nat × List Char :=
  let ds := s.takeWhile Char.isDigit
  (if ds.isEmpty then none
   else some (min limit (ds.foldl (fun n c => n * 10 + (c.toNat - 48)) 0)),
   s.dropWhile Char.isDigit)

def isLength (c : Char) : Bool :=
  c == 'h' || c == 'l' || c == 'L' || c == 'z' || c == 'j' || c == 't'

/-- The precision at the start of a text, none if there is no point, and the rest. -/
def takePrecision : List Char → Except FormatFault (Option Nat × List Char)
  | '.' :: '*' :: _ => .error .starPrecision
  | '.' :: s => .ok (some ((takeNumber s).1.getD 0), (takeNumber s).2)
  | s => .ok (none, s)

/-- The specification that a text behind a percent sign starts with, and the rest. -/
def takeSpec (s : List Char) : Except FormatFault (Spec × List Char) :=
  let (flags, s₁) := takeFlags s
  let (width, s₂) := takeNumber s₁
  if s₂.head? = some '*' then .error .starWidth
  else
    match takePrecision s₂ with
    | .error e => .error e
    | .ok (precision, s₃) =>
      match s₃.dropWhile isLength with
      | [] => .error .incomplete
      | c :: rest =>
        match Conversion.ofChar? c with
        | none => .error (.unsupported c)
        | some conversion =>
          .ok (⟨flags, width, precision, conversion, '%' :: s.take (s.length - rest.length)⟩, rest)

theorem takeFlags_suffix (s : List Char) : (takeFlags s).2 <:+ s := by
  induction s with
  | nil => exact List.suffix_refl _
  | cons c s ih =>
    unfold takeFlags
    split
    · exact ih.trans (List.suffix_cons c s)
    · exact List.suffix_refl _

theorem takeNumber_suffix (s : List Char) : (takeNumber s).2 <:+ s := List.dropWhile_suffix _

theorem takePrecision_suffix {s rest : List Char} {p : Option Nat}
    (h : takePrecision s = .ok (p, rest)) : rest <:+ s := by
  unfold takePrecision at h
  split at h
  · cases h
  · cases h
    exact (takeNumber_suffix _).trans (List.suffix_cons _ _)
  · cases h
    exact List.suffix_refl _

/-- A specification and the rest make up the text it was read from. -/
theorem takeSpec_source {s rest : List Char} {spec : Spec} (h : takeSpec s = .ok (spec, rest)) :
    '%' :: s = spec.source ++ rest ∧ rest.length < s.length := by
  unfold takeSpec at h
  dsimp only at h
  split at h
  · cases h
  · split at h
    · cases h
    · rename_i hp
      split at h
      · cases h
      · rename_i c rest' hd
        split at h
        · cases h
        · cases h
          have h₁ : (c :: rest) <:+ s := by
            rw [← hd]
            exact ((List.dropWhile_suffix _).trans (takePrecision_suffix hp)).trans
              ((takeNumber_suffix _).trans (takeFlags_suffix s))
          have h₂ : rest <:+ s := (List.suffix_cons c rest).trans h₁
          have hl := h₁.length_le
          simp only [List.length_cons] at hl
          refine ⟨?_, by omega⟩
          obtain ⟨t, rfl⟩ := h₂
          simp

def consLiteral (text : List Char) (ps : List Piece) : List Piece :=
  if text.isEmpty then ps else .literal text :: ps

/-- The pieces of a format, behind literal text already read (last character first). A percent
sign that ends the format stands for itself. -/
def parseFrom (literal : List Char) (s : List Char) : Except FormatFault (List Piece) :=
  match s with
  | [] => .ok (consLiteral literal.reverse [])
  | c :: s' =>
    if c = '%' then
      match s' with
      | [] => .ok (consLiteral ('%' :: literal).reverse [])
      | d :: s'' =>
        if d = '%' then parseFrom ('%' :: literal) s''
        else
          match h : takeSpec (d :: s'') with
          | .error e => .error e
          | .ok (spec, rest) =>
            have := (takeSpec_source h).2
            (parseFrom [] rest).map fun ps => consLiteral literal.reverse (.spec spec :: ps)
    else parseFrom (c :: literal) s'
termination_by s.length
decreasing_by all_goals simp_all; try omega

def parse (format : String) : Except FormatFault (List Piece) := parseFrom [] format.toList

def specCount (ps : List Piece) : Nat :=
  (ps.filter fun p => match p with | .spec _ => true | .literal _ => false).length

end Yap.Format
