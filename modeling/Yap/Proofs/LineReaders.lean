import Yap.Machine.Input

/-! Readers that take one line off the input. Main statement: each of the readers takes the line
that comes next, whatever it makes of it, and looks at nothing else. -/
namespace Yap
namespace Reader

/-- The bytes up to the first newline. -/
def rawLine (input : List UInt8) : List UInt8 := input.takeWhile (· != 10)

/-- How many bytes the first line takes, its newline counted. -/
def lineLength (input : List UInt8) : Nat := min input.length ((rawLine input).length + 1)

/-- The first line without its ending: a newline, with a carriage return in front of it if there
is one. A carriage return that ends the input belongs to the line. -/
def line (input : List UInt8) : List UInt8 :=
  let raw := rawLine input
  if raw.length < input.length then
    match raw.reverse with
    | 13 :: r => r.reverse
    | _ => raw
  else raw

variable {input raw : List UInt8}

theorem lineLength_le (input : List UInt8) : lineLength input ≤ input.length := Nat.min_le_left _ _

theorem rawLine_append (h : (10 : UInt8) ∉ raw) (rest : List UInt8) :
    rawLine (raw ++ rest) = raw ++ rawLine rest :=
  List.takeWhile_append_of_pos fun _ hb => bne_iff_ne.2 (ne_of_mem_of_not_mem hb h)

theorem rawLine_newline (h : (10 : UInt8) ∉ raw) (rest : List UInt8) :
    rawLine (raw ++ 10 :: rest) = raw := (rawLine_append h _).trans (List.append_nil raw)

theorem rawLine_of_not_mem (h : (10 : UInt8) ∉ input) : rawLine input = input := by
  simpa [rawLine] using rawLine_append h []

theorem take_newline (raw rest : List UInt8) :
    (raw ++ 10 :: rest).take (raw.length + 1) = raw ++ [10] := List.take_length_add_append 1

/-- An input has a first line that ends with a newline, or it is all one line. -/
theorem lineLength_cases (input : List UInt8) :
    (∃ raw rest, input = raw ++ 10 :: rest ∧ (10 : UInt8) ∉ raw ∧
      lineLength input = raw.length + 1) ∨
    (10 : UInt8) ∉ input ∧ lineLength input = input.length := by
  by_cases h : (10 : UInt8) ∈ input
  · obtain ⟨raw, rest, rfl, hraw⟩ := List.eq_append_cons_of_mem h
    refine .inl ⟨raw, rest, rfl, hraw, ?_⟩
    rw [lineLength, rawLine_newline hraw, List.length_append, List.length_cons]
    omega
  · refine .inr ⟨h, ?_⟩
    rw [lineLength, rawLine_of_not_mem h]
    omega

theorem splitLine_eq (input : List UInt8) :
    splitLine input = (input.take (lineLength input), input.drop (lineLength input)) := by
  induction input with
  | nil => rfl
  | cons b bytes ih =>
    rw [splitLine]
    by_cases hb : b = 10
    · subst hb
      simp [lineLength, rawLine]
    · have hlength : lineLength (b :: bytes) = lineLength bytes + 1 := by
        have hraw : rawLine (b :: bytes) = b :: rawLine bytes :=
          List.takeWhile_cons_of_pos (bne_iff_ne.2 hb)
        rw [lineLength, hraw, lineLength, List.length_cons, List.length_cons]
        omega
      rw [if_neg hb, ih, hlength]
      rfl

theorem chomp_newline (raw : List UInt8) : chomp (raw ++ [10]) =
    match raw.reverse with
    | 13 :: r => r.reverse
    | _ => raw := by
  rw [chomp, if_pos List.getLast?_concat, List.dropLast_concat]
  obtain ⟨l, rfl⟩ : ∃ l : List UInt8, raw = l.reverse := ⟨raw.reverse, raw.reverse_reverse.symm⟩
  dsimp only
  rw [List.getLast?_reverse, List.dropLast_reverse, List.reverse_reverse]
  rcases l with _ | ⟨last, l⟩
  · rfl
  · by_cases hlast : last = 13
    · subst hlast
      rfl
    · rw [List.head?_cons, if_neg fun h => hlast (Option.some.inj h)]
      split
      · rename_i heq
        exact absurd (List.cons.inj heq).1 hlast
      · rfl

theorem chomp_of_not_mem (h : (10 : UInt8) ∉ input) : chomp input = input :=
  if_neg fun hlast => h (List.mem_of_getLast? hlast)

theorem chomp_splitLine (input : List UInt8) : chomp (splitLine input).1 = line input := by
  rw [splitLine_eq]
  dsimp only
  rcases lineLength_cases input with ⟨raw, rest, rfl, hraw, hlength⟩ | ⟨hnone, hlength⟩
  · rw [hlength, take_newline, line, rawLine_newline hraw, chomp_newline]
    exact (if_pos (by simp)).symm
  · rw [hlength, List.take_length, line, rawLine_of_not_mem hnone, chomp_of_not_mem hnone]
    exact (if_neg (Nat.lt_irrefl _)).symm

variable {α β : Type}

/-- A reader that takes the line that comes next, whatever it makes of it, and looks at nothing but
that line without its ending. -/
structure TakesLine (reader : Reader α) : Prop where
  rest (input : List UInt8) : (reader input).2 = input.drop (lineLength input)
  answer {input input' : List UInt8} :
    line input = line input' → (reader input).1 = (reader input').1

theorem text_apply (capacity : Nat) (input : List UInt8) : text capacity input =
    (if capacity < (line input).length then .error (.truncated capacity)
      else .ok (String.ofList (Text.Utf8.decode (line input))),
      input.drop (lineLength input)) := by
  have htext : text capacity input =
      (if capacity < (chomp (splitLine input).1).length then throw (.truncated capacity)
        else pure (String.ofList (Text.Utf8.decode (chomp (splitLine input).1))) : Reader String)
        (splitLine input).2 := rfl
  rw [htext, chomp_splitLine, splitLine_eq]
  split <;> rfl

theorem takesLine_text (capacity : Nat) : TakesLine (text capacity) where
  rest input := by rw [text_apply]
  answer h := by rw [text_apply, text_apply, h]

section Parsed

variable {reader : Reader α}

theorem TakesLine.bind_lift (h : TakesLine reader) (f : α → Except ReadFault β) :
    TakesLine (do f (← reader) : Reader β) where
  rest input := by rw [bind_lift_apply, ← h.rest]
  answer hline := by rw [bind_lift_apply, bind_lift_apply, h.answer hline]

theorem TakesLine.map (h : TakesLine reader) (f : α → β) : TakesLine (f <$> reader) where
  rest input := by rw [map_apply, ← h.rest]
  answer hline := by rw [map_apply, map_apply, h.answer hline]

theorem takesLine_char : TakesLine char := (takesLine_text _).bind_lift _

theorem takesLine_integer (kind : Kind) (lo hi : Int) : TakesLine (integer kind lo hi) :=
  (takesLine_text _).bind_lift _

theorem takesLine_written (kind : Kind) (f : Numeral.BinaryFormat) (capacity : Nat) :
    TakesLine (written kind f capacity) := (takesLine_text _).bind_lift _

theorem takesLine_short : TakesLine short := (takesLine_integer ..).map _

theorem takesLine_int : TakesLine int := (takesLine_integer ..).map _

theorem takesLine_float : TakesLine float := (takesLine_written ..).map _

theorem takesLine_double : TakesLine double := (takesLine_written ..).map _

end Parsed

end Reader

/-- The console behind the line that comes next. -/
def Console.skipLine (c : Console) : Console := c.advance (Reader.lineLength c.rest)

theorem Reader.TakesLine.read {α : Type} {reader : Reader α} (h : TakesLine reader)
    (c : Console) : c.read reader = ((reader c.rest).1, c.skipLine) := by
  rw [Console.read_eq, Console.taken, h.rest, List.length_drop,
    Nat.sub_sub_self (lineLength_le c.rest), Console.skipLine]

namespace Run

theorem readWith_of_takesLine {α : Type} {reader : Reader α} (h : Reader.TakesLine reader)
    (m : Machine) : readWith reader m =
      ofExcept ((reader m.console.rest).1.mapError .input)
        { m with console := m.console.skipLine } := by
  rw [readWith, h.read]

theorem readScalar?_eq {kind : Kind} (h : kind ≠ .bool) :
    ∃ reader : Reader Value, Reader.TakesLine reader ∧
      readScalar? kind = some (readWith reader) := by
  cases kind with
  | bool => exact absurd rfl h
  | char => exact ⟨_, Reader.takesLine_char.map Buffer.ofByte, by rw [readWith_map]; rfl⟩
  | short => exact ⟨_, Reader.takesLine_short.map Value.short, by rw [readWith_map]; rfl⟩
  | int => exact ⟨_, Reader.takesLine_int.map Value.int, by rw [readWith_map]; rfl⟩
  | float => exact ⟨_, Reader.takesLine_float.map Value.float, by rw [readWith_map]; rfl⟩
  | double => exact ⟨_, Reader.takesLine_double.map Value.double, by rw [readWith_map]; rfl⟩

end Run
end Yap
