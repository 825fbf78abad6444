import Yap.Proofs.LineReaders
import Yap.Proofs.Shapes

/-! Console input is taken line by line. Whatever a reader makes of it, a read uses up the line that
comes next and looks at nothing else. Main statement: behind any reads the position is just past the
newline of their number, or at the end of the input, and reading into variables counts as a read
exactly for those that there is a reader for and that are no constants. -/
namespace Yap
namespace Reader

/-- The position just past the newline of a number, the first being 1, or the end of the input if
there are fewer. It is the start for 0. -/
def IsPast (input : List UInt8) : Nat → Nat → Prop
  | 0, p => p = 0
  | k + 1, p =>
    (∃ before behind, input = before ++ 10 :: behind ∧ before.count 10 = k ∧
      p = before.length + 1) ∨ input.count 10 ≤ k ∧ p = input.length

def wholeLine (input : List UInt8) : List UInt8 := input.take (lineLength input)

variable {input raw : List UInt8} {k p : Nat}

/-- What is behind the first line is no part of it. -/
theorem line_wholeLine (input : List UInt8) : line (wholeLine input) = line input := by
  rw [wholeLine]
  rcases lineLength_cases input with ⟨raw, rest, rfl, hraw, hlength⟩ | ⟨-, hlength⟩
  · rw [hlength, take_newline, line, line, rawLine_newline hraw, rawLine_newline hraw]
    simp
  · rw [hlength, List.take_length]

/-- How many newlines there are up to such a position. -/
theorem IsPast.count_take (h : IsPast input k p) : p ≤ input.length ∧
    (input.take p).count 10 ≤ k ∧ (p < input.length → (input.take p).count 10 = k) := by
  cases k with
  | zero =>
    cases h
    simp
  | succ k =>
    rcases h with ⟨before, behind, rfl, hcount, rfl⟩ | ⟨hcount, rfl⟩
    · simp [take_newline, List.count_append, hcount]
    · simpa using Nat.le_succ_of_le hcount

/-- One more line is used up. -/
theorem IsPast.next (h : IsPast input k p) :
    IsPast input (k + 1) (p + lineLength (input.drop p)) := by
  obtain ⟨hle, hcount, hexact⟩ := h.count_take
  rcases lineLength_cases (input.drop p) with ⟨raw, rest, hdrop, hraw, hlength⟩ | ⟨hnone, hlength⟩
  · have hlt : p < input.length := by
      have := congrArg List.length hdrop
      simp only [List.length_drop, List.length_append, List.length_cons] at this
      omega
    refine .inl ⟨input.take p ++ raw, rest, ?_, ?_, ?_⟩
    · rw [List.append_assoc, ← hdrop, List.take_append_drop]
    · rw [List.count_append, hexact hlt, List.count_eq_zero_of_not_mem hraw, Nat.add_zero]
    · rw [hlength, List.length_append, List.length_take, Nat.min_eq_left hle, Nat.add_assoc]
  · refine .inr ⟨?_, ?_⟩
    · rw [← List.take_append_drop p input, List.count_append,
        List.count_eq_zero_of_not_mem hnone, Nat.add_zero]
      exact hcount
    · rw [hlength, List.length_drop, Nat.add_sub_cancel' hle]

def storeLine (b : Buffer) (t : String) : Except ReadFault Buffer :=
  match b.store? (Text.Utf8.encode t.toList) with
  | none => .error (.truncated (b.length - 1))
  | some b' => .ok b'

def stored (b : Buffer) : Reader Buffer := do storeLine b (← text (b.length - 1))

theorem takesLine_stored (b : Buffer) : TakesLine (stored b) := (takesLine_text _).bind_lift _

end Reader

inductive Reading
  | line (capacity : Nat)
  | char
  | short
  | int
  | float
  | double

namespace Reading

def Answer : Reading → Type
  | line _ => String
  | char => UInt8
  | short => Int16
  | int => Int32
  | float => Float32
  | double => Float

def reader : (r : Reading) → Reader r.Answer
  | line capacity => Reader.text capacity
  | char => Reader.char
  | short => Reader.short
  | int => Reader.int
  | float => Reader.float
  | double => Reader.double

theorem takesLine (r : Reading) : Reader.TakesLine r.reader := by
  cases r with
  | line capacity => exact Reader.takesLine_text capacity
  | char => exact Reader.takesLine_char
  | short => exact Reader.takesLine_short
  | int => exact Reader.takesLine_int
  | float => exact Reader.takesLine_float
  | double => exact Reader.takesLine_double

end Reading

namespace Console

variable {c : Console} {k : Nat}

/-- So many lines have been used up. -/
def AtLine (c : Console) (k : Nat) : Prop := Reader.IsPast c.input k c.position

theorem AtLine.skipLine (h : c.AtLine k) : c.skipLine.AtLine (k + 1) := Reader.IsPast.next h

theorem rest_eq_nil (h : c.position = c.input.length) : c.rest = [] := by
  rw [rest, h, List.drop_length]

/-- The console behind reads, of which any may fail. -/
def after (c : Console) (rs : List Reading) : Console :=
  rs.foldl (fun c r => (c.read r.reader).2) c

theorem input_after (c : Console) (rs : List Reading) : (c.after rs).input = c.input := by
  induction rs generalizing c with
  | nil => rfl
  | cons r rs ih =>
    rw [after, List.foldl_cons, ← after, ih, r.takesLine.read]
    rfl

theorem AtLine.after (h : c.AtLine k) (rs : List Reading) :
    (c.after rs).AtLine (k + rs.length) := by
  induction rs generalizing c k with
  | nil => exact h
  | cons r rs ih =>
    rw [List.length_cons, Nat.add_comm rs.length, ← Nat.add_assoc, Console.after,
      List.foldl_cons, ← Console.after, r.takesLine.read]
    exact ih h.skipLine

/-- A read behind so many lines uses up one more. -/
structure ReadsNext {α : Type} (reader : Reader α) (c : Console)
    (k : Nat) : Prop where
  input : (c.read reader).2.input = c.input
  position : Reader.IsPast c.input (k + 1) (c.read reader).2.position
  /-- What it answers is told by the bytes that it uses up. -/
  own : (c.read reader).1 =
    (reader ((c.input.drop c.position).take ((c.read reader).2.position - c.position))).1
  /-- If there are none it answers as for an empty line. -/
  atEnd : c.position = c.input.length → (c.read reader).1 = (reader [10]).1

theorem readsNext {α : Type} {reader : Reader α}
    (hr : Reader.TakesLine reader) (h : c.AtLine k) : ReadsNext reader c k where
  input := rfl
  position := by
    rw [hr.read]
    exact h.skipLine
  own := by
    have hlength : c.skipLine.position - c.position = Reader.lineLength c.rest :=
      Nat.add_sub_cancel_left ..
    rw [hr.read]
    dsimp only
    rw [hlength]
    exact (hr.answer (Reader.line_wholeLine c.rest)).symm
  atEnd hend := by
    have hempty : Reader.line [] = Reader.line [10] := rfl
    rw [hr.read, rest_eq_nil hend]
    exact hr.answer hempty

end Console

/-- Whether lines are read into a variable: constants are refused, and there is no reader for bools
and for arrays other than of chars. -/
def Variable.readable (x : Variable) : Bool :=
  !x.modifiers.const && if x.isArray then x.kind = .char else x.kind ≠ .bool

theorem Variable.readable_of_shape {x y : Variable} (h : y.shape = x.shape) :
    y.readable = x.readable := by
  have hkind : y.kind = x.kind := congrArg Shape.kind h
  have hmodifiers : y.modifiers = x.modifiers := congrArg Shape.modifiers h
  rw [readable, readable, isArray_eq_shape, isArray_eq_shape, h, hkind, hmodifiers]

/-- Whether arguments are one name, of a variable that lines are read into. -/
def Machine.readable (m : Machine) : List Expr → Bool
  | [.ident name] => (m.chain.find? name).any (·.readable)
  | _ => false

theorem Machine.readable_eq_true {m : Machine} {args : List Expr} : m.readable args = true ↔
    ∃ name x, args = [.ident name] ∧ m.chain.find? name = some x ∧ x.readable = true := by
  constructor
  · intro h
    unfold readable at h
    split at h
    · rename_i name
      cases hx : m.chain.find? name with
      | none => simp [hx] at h
      | some x => exact ⟨name, x, rfl, hx, by simpa [hx] using h⟩
    · cases h
  · rintro ⟨name, x, rfl, hx, hr⟩
    simp [readable, hx, hr]

/-- Which variables are read into is told by the shapes. -/
theorem SameShapes.readable {m m' : Machine} (h : SameShapes m m') : m'.readable = m.readable := by
  funext args
  unfold Machine.readable
  split
  · rename_i name
    have hmap := Chain.map_find?_of_shapes h name
    cases hx : m.chain.find? name with
    | none =>
      rw [hx] at hmap
      rw [Option.map_eq_none_iff.1 hmap]
    | some x =>
      obtain ⟨y, hy, hyx⟩ := Chain.find?_of_shapes h hx
      rw [hy]
      exact Variable.readable_of_shape hyx
  · rfl

/-- Reading into something behind so many lines uses up one more. -/
structure Run.ReadsNext (x : Run Unit) (m : Machine) (k : Nat) : Prop where
  ends : ∃ m', (x m).machine? = some m' ∧ m'.console.input = m.console.input ∧
    Reader.IsPast m.console.input (k + 1) m'.console.position
  /-- How it ends, and what it leaves but the console, is told by the bytes that it uses up. -/
  own (c : Console) : Reader.wholeLine c.rest = Reader.wholeLine m.console.rest →
    x { m with console := c } = (x m).mapMachine ({ · with console := c.skipLine })
  /-- If there are none it does as for an empty line. -/
  atEnd (c : Console) : m.console.position = m.console.input.length →
    Reader.wholeLine c.rest = [10] →
    x { m with console := c } = (x m).mapMachine ({ · with console := c.skipLine })

def Outcome.ReadsNothing (m : Machine) (o : Outcome Unit) : Prop :=
  ∃ m', o.machine? = some m' ∧ m'.console.input = m.console.input ∧
    m'.console.position = m.console.position

namespace Run

variable {m n : Machine} {name : String} {x : Variable}

def takeLine (reader : Reader Chain) : Run Unit := do
  let c ← readWith reader
  modify ({ · with chain := c })

theorem machine?_takeLine {reader : Reader Chain} (h : Reader.TakesLine reader) (m : Machine) :
    ∃ m', (takeLine reader m).machine? = some m' ∧ m'.console = m.console.skipLine := by
  rw [takeLine, bind_apply, readWith_of_takesLine h]
  cases (reader m.console.rest).1 with
  | error e => exact ⟨_, rfl, rfl⟩
  | ok c => exact ⟨_, rfl, rfl⟩

/-- Another console with the same line makes no difference but to what is left of it. -/
theorem takeLine_console {reader : Reader Chain}
    (h : Reader.TakesLine reader) {c : Console}
    (hc : Reader.line c.rest = Reader.line m.console.rest) :
    takeLine reader { m with console := c } =
      (takeLine reader m).mapMachine ({ · with console := c.skipLine }) := by
  rw [takeLine, bind_apply, bind_apply, readWith_of_takesLine h, readWith_of_takesLine h,
    h.answer hc]
  cases (reader m.console.rest).1 <;> rfl

theorem overwrite_of_scalar (hx : m.chain.find? name = some x) (hc : x.modifiers.const = false)
    (ha : x.isArray = false) (v : Value) : overwrite name v m =
      .done () { m with chain := m.chain.update name (·.setValue v) } := by
  rw [overwrite, Chain.assign, hx]
  simp [hc, ha, reportAny, pure_apply]

/-- Where what follows a line writes to the variables, the two are one reader of variables. -/
theorem takeLine_of_writes {α : Type} {reader : Reader α} {f : α → Run Unit}
    {g : α → Chain} (hreader : Reader.TakesLine reader)
    (h : ∀ a, f a { m with console := m.console.skipLine } =
      .done () { m with console := m.console.skipLine, chain := g a }) :
    (readWith reader >>= f) m = takeLine (g <$> reader) m := by
  rw [takeLine, readWith_map, bind_apply, bind_apply, bind_apply, readWith_of_takesLine hreader]
  cases (reader m.console.rest).1 with
  | error e => rfl
  | ok a => exact h a

theorem readText_eq (name : String) (b : Buffer) : readText name b = (do
    let b' ← readWith (Reader.stored b)
    modify fun m => { m with chain := m.chain.update name (·.setBuffer b') }) := by
  rw [readText, Reader.stored, readWith_bind_lift, bind_assoc]
  refine congrArg _ (funext fun t => ?_)
  rw [Reader.storeLine]
  cases b.store? (Text.Utf8.encode t.toList) <;> rfl

theorem readInto_of_readable (hx : m.chain.find? name = some x) (hr : x.readable = true) :
    ∃ reader : Reader Chain, Reader.TakesLine reader ∧
      ∀ n : Machine, n.chain = m.chain → readInto (.ident name) n = takeLine reader n := by
  obtain ⟨hc, hk⟩ := Bool.and_eq_true_iff.1 hr
  rw [Bool.not_eq_true'] at hc
  cases hb : x.buffer? with
  | some b =>
    have ha : x.isArray = true := by rw [Variable.isArray_eq_isSome, hb]; rfl
    have hchar : x.kind = .char := by simpa [ha] using hk
    refine ⟨_, (Reader.takesLine_stored b).map fun b' =>
      m.chain.update name (·.setBuffer b'), fun n hn => ?_⟩
    rw [readInto_of_find? (hn ▸ hx) hc, hb]
    dsimp only
    rw [if_pos hchar, readText_eq, ← hn]
    exact takeLine_of_writes (Reader.takesLine_stored b) fun _ => rfl
  | none =>
    have ha : x.isArray = false := by rw [Variable.isArray_eq_isSome, hb]; rfl
    obtain ⟨reader, hreader, hscalar⟩ := @readScalar?_eq x.kind (by simpa [ha] using hk)
    refine ⟨_, hreader.map fun v => m.chain.update name (·.setValue v), fun n hn => ?_⟩
    rw [readInto_of_find? (hn ▸ hx) hc, hb, ← hn]
    dsimp only
    rw [hscalar]
    exact takeLine_of_writes hreader fun v =>
      overwrite_of_scalar (m := { n with console := n.console.skipLine }) (hn ▸ hx) hc ha v

theorem report_readsNothing (w : Warning) (m : Machine) : (report w m).ReadsNothing m := by
  rw [report]
  split
  · exact ⟨m, rfl, rfl, rfl⟩
  · refine ⟨_, rfl, ?_⟩
    by_cases h : m.policy = .report <;> simp [Machine.record, Machine.write, h]

theorem readInto_of_not_readable {e : Expr} (h : m.readable [e] = false) :
    (readInto e m).ReadsNothing m := by
  have hkept : ∀ c, (fail c m : Outcome Unit).ReadsNothing m := fun c => ⟨m, rfl, rfl, rfl⟩
  cases e with
  | ident name =>
    cases hx : m.chain.find? name with
    | none =>
      rw [readInto, bind_apply, lookup_of_none hx]
      exact hkept _
    | some x =>
      have hr : x.readable = false := by simpa [Machine.readable, hx] using h
      cases hc : x.modifiers.const with
      | true =>
        have hl : lookup name m = .done x m := lookup_eq_done.2 ⟨hx, rfl⟩
        rw [readInto, bind_of_done hl, bind_apply, writable, if_pos hc]
        exact hkept _
      | false =>
        rw [readInto_of_find? hx hc]
        rw [Variable.readable, hc, Variable.isArray_eq_isSome] at hr
        cases hb : x.buffer? with
        | some b =>
          have hk : ¬ x.kind = .char := by simpa [hb] using hr
          dsimp only
          rw [if_neg hk]
          exact report_readsNothing _ m
        | none =>
          have hk : x.kind = .bool := by simpa [hb] using hr
          dsimp only
          rw [hk]
          exact report_readsNothing _ m
  | _ => exact hkept _

end Run

namespace Runner

variable {r : Runner} {m : Machine} {k : Nat} {args : List Expr}

/-- Reading into a variable that lines are read into is one reader of variables. -/
theorem slorp_of_readable (r : Runner) (h : m.readable args = true) :
    ∃ reader : Reader Chain, Reader.TakesLine reader ∧
      ∀ n : Machine, n.chain = m.chain →
        r.builtin .slorp args n = Run.takeLine reader (n.note (.builtin .slorp 1)) := by
  obtain ⟨name, x, rfl, hx, hr⟩ := Machine.readable_eq_true.1 h
  obtain ⟨reader, hreader, hread⟩ := Run.readInto_of_readable hx hr
  exact ⟨reader, hreader, fun n hn => hread _ ((n.chain_note _).trans hn)⟩

theorem slorp_readsNothing (r : Runner) (h : m.readable args = false) :
    (r.builtin .slorp args m).ReadsNothing m := by
  have hkept (c : Cause) (n : Nat) :
      (Run.fail c (m.note (.builtin .slorp n)) : Outcome Unit).ReadsNothing m :=
    ⟨_, rfl, by simp⟩
  rcases args with _ | ⟨e, _ | ⟨e', es⟩⟩
  · exact hkept _ _
  · have hnoted : (m.note (.builtin .slorp 1)).readable [e] = false :=
      (SameShapes.of_chain_eq (m.chain_note _)).readable ▸ h
    obtain ⟨m', hm, hinput, hposition⟩ := Run.readInto_of_not_readable hnoted
    exact ⟨m', hm, hinput.trans (by simp), hposition.trans (by simp)⟩
  · exact hkept _ _

theorem slorp_readsNext (r : Runner) (h : m.readable args = true) (hk : m.console.AtLine k) :
    (r.builtin .slorp args).ReadsNext m k := by
  obtain ⟨reader, hreader, hslorp⟩ := slorp_of_readable r h
  have hother {c : Console} (hc : Reader.line c.rest = Reader.line m.console.rest) :
      r.builtin .slorp args { m with console := c } =
        (r.builtin .slorp args m).mapMachine ({ · with console := c.skipLine }) := by
    have hnote : ({ m with console := c } : Machine).note (.builtin .slorp 1) =
        { m.note (.builtin .slorp 1) with console := c } := by
      by_cases ht : m.tracing <;> simp [Machine.note, ht]
    calc r.builtin .slorp args { m with console := c }
      _ = Run.takeLine reader { m.note (.builtin .slorp 1) with console := c } :=
        (hslorp { m with console := c } rfl).trans (congrArg (Run.takeLine reader) hnote)
      _ = (Run.takeLine reader (m.note (.builtin .slorp 1))).mapMachine
          ({ · with console := c.skipLine }) := Run.takeLine_console hreader (by simpa using hc)
      _ = (r.builtin .slorp args m).mapMachine ({ · with console := c.skipLine }) :=
        congrArg (Outcome.mapMachine _) (hslorp m rfl).symm
  refine ⟨?_, fun c hc => hother ?_, fun c hend hc => hother ?_⟩
  · obtain ⟨m', hm, hconsole⟩ := Run.machine?_takeLine hreader (m.note (.builtin .slorp 1))
    rw [Machine.console_note] at hconsole
    refine ⟨m', (congrArg Outcome.machine? (hslorp m rfl)).trans hm, ?_⟩
    rw [hconsole]
    exact ⟨rfl, hk.skipLine⟩
  · rw [← Reader.line_wholeLine, hc, Reader.line_wholeLine]
  · rw [← Reader.line_wholeLine, hc, Console.rest_eq_nil hend]
    rfl

/-- Reading into variables changes no shape. -/
theorem keeps_slorp (r : Runner) (args : List Expr) :
    (r.builtin .slorp args).Keeps SameShapes := by
  intro m m' hm
  have hnote (n : Nat) : SameShapes m (m.note (.builtin .slorp n)) :=
    .of_chain_eq (m.chain_note _)
  rcases args with _ | ⟨e, _ | ⟨e', es⟩⟩
  · cases hm
    exact hnote _
  · exact SameShapes.effects.trans (hnote 1) (SameShapes.effects.congruence.readInto e hm)
  · cases hm
    exact hnote _

end Runner

namespace Machine

variable {m : Machine} {k : Nat}

def afterSlorps (r : Runner) (m : Machine) (calls : List (List Expr)) : Machine :=
  calls.foldl (fun m args => (r.builtin .slorp args m).machine?.getD m) m

/-- One more line is used up by a reading that there is a reader for. -/
theorem slorp_atLine (r : Runner) (args : List Expr) (h : m.console.AtLine k) :
    ∃ m', (r.builtin .slorp args m).machine? = some m' ∧ m'.console.input = m.console.input ∧
      m'.console.AtLine (k + if m.readable args then 1 else 0) := by
  cases hr : m.readable args with
  | true =>
    obtain ⟨m', hm, hinput, hposition⟩ := (Runner.slorp_readsNext r hr h).ends
    refine ⟨m', hm, hinput, ?_⟩
    rw [Console.AtLine, hinput]
    exact hposition
  | false =>
    obtain ⟨m', hm, hinput, hposition⟩ := Runner.slorp_readsNothing r hr
    refine ⟨m', hm, hinput, ?_⟩
    rw [Console.AtLine, hinput, hposition]
    exact h

theorem afterSlorps_atLine (r : Runner) (calls : List (List Expr)) (h : m.console.AtLine k) :
    (m.afterSlorps r calls).console.input = m.console.input ∧
      (m.afterSlorps r calls).console.AtLine (k + calls.countP m.readable) := by
  induction calls generalizing m k with
  | nil => exact ⟨rfl, h⟩
  | cons args calls ih =>
    obtain ⟨m', hm, hinput, hline⟩ := slorp_atLine r args h
    have hreadable := (Runner.keeps_slorp r args hm).readable
    have hnext := ih hline
    rw [afterSlorps, List.foldl_cons, hm, Option.getD_some, ← afterSlorps, List.countP_cons,
      Nat.add_comm (calls.countP _), ← Nat.add_assoc, ← hreadable]
    rw [hreadable] at hnext ⊢
    exact ⟨hnext.1.trans hinput, hnext.2⟩

end Machine

/-- Every read takes one line. Behind any typed reads the position is just past the newline of their
number, or at the end of the input, and the next one answers as its own line says, or as for an
empty line if there is none. The same holds of reading into variables that lines are read into, and
any other reading into something takes nothing. -/
theorem lines_taken_in_turn :
    (∀ (input : List UInt8) (rs : List Reading) (r : Reading),
      (Console.after { input := input } rs).input = input ∧
        Reader.IsPast input rs.length (Console.after { input := input } rs).position ∧
        Console.ReadsNext r.reader (Console.after { input := input } rs) rs.length) ∧
    ∀ (r : Runner) (m : Machine) (k : Nat), m.console.AtLine k →
      (∀ calls : List (List Expr), (m.afterSlorps r calls).console.input = m.console.input ∧
        (m.afterSlorps r calls).console.AtLine (k + calls.countP m.readable)) ∧
      ∀ args : List Expr, if m.readable args then (r.builtin .slorp args).ReadsNext m k
        else (r.builtin .slorp args m).ReadsNothing m := by
  refine ⟨fun input rs r => ?_, fun r m k hk => ⟨fun calls => m.afterSlorps_atLine r calls hk,
    fun args => ?_⟩⟩
  · have hstart : Console.AtLine { input := input } 0 := rfl
    have hline := hstart.after rs
    have hinput := Console.input_after { input := input } rs
    rw [Nat.zero_add] at hline
    refine ⟨hinput, ?_, Console.readsNext r.takesLine hline⟩
    rw [Console.AtLine, hinput] at hline
    exact hline
  · cases hr : m.readable args with
    | true => exact Runner.slorp_readsNext r hr hk
    | false => exact Runner.slorp_readsNothing r hr

/-- Four variables in front of some lines: one of them ends with a carriage return, too, the second
one is empty, and the third one lacks an ending. -/
def Machine.ofLines : Machine :=
  { Machine.new 9 .report false [49, 50, 13, 10, 10, 104, 105] with
    chain := {
      current := ⟨[.scalar "n" .int (.int 0) {}, .scalar "b" .bool (.int 0) {},
        .scalar "c" .char (.int 0) {}, .array "s" ⟨.char, #[.int 1, .int 2, .int 3]⟩ {}]⟩ } }

theorem lines_taken_in_turn_failing :
    Machine.ofLines.console.AtLine 0 ∧
      (Machine.ofLines.afterSlorps (.ofFuel 1)
        [[.ident "n"], [.ident "b"], [.ident "c"], [.ident "x"], []]).console.AtLine 2 ∧
      ((Runner.ofFuel 1).builtin .slorp [.ident "b"] .ofLines).ReadsNothing .ofLines := by
  have hstart : Machine.ofLines.console.AtLine 0 := rfl
  obtain ⟨hcalls, hargs⟩ := lines_taken_in_turn.2 (.ofFuel 1) .ofLines 0 hstart
  exact ⟨hstart, (hcalls _).2, hargs [.ident "b"]⟩

end Yap
