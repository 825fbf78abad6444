import Yap.Proofs.CharArrays

/-! Lines read into variables, as writes. Main statement: assignments, steps and reads from the
console change one variable, and there only what is asked for, or nothing. For a read into an array
of chars that is the bytes of the line, exactly if these are the bytes of a text or are not stored
at all. -/
namespace Yap

open Text

/-- What a variable becomes when a line is read into it, and bytes are stored for the line if it is
an array. -/
def Variable.SetsLine (bytes : List UInt8) (x x' : Variable) : Prop :=
  match x.buffer? with
  | none => ∃ v, x.SetsValue v x'
  | some _ => x.kind = .char ∧ x.SetsText bytes x'

/-- What reading from the console into a variable comes to if these bytes are stored for the line.
It takes one name. -/
def ReadWrites (bytes : List UInt8) (args : List Expr) (m : Machine) (o : Outcome Unit) : Prop :=
  match args with
  | [.ident name] =>
    Targets name (.undefinedVariable name) (fun _ => WritesOnce name (Variable.SetsLine bytes)) m o
  | _ => ∃ c, o = .stopped (.fault c none) m

/-- A name stands for an array of chars that has room for a line, and for the bytes that it is
stored as, with a zero behind them. -/
structure Chain.HasRoom (c : Chain) (line : List UInt8) (name : String) (x : Variable)
    (b : Buffer) : Prop where
  find : c.find? name = some x
  const : x.modifiers.const = false
  buffer : x.buffer? = some b
  kind : x.kind = .char
  cells : b.kind = .char
  fits : line.length < b.length
  stored : (Reader.storedBytes line).length < b.length

/-- The next line is stored, but other bytes are stored for it as its own are not those of a
text. -/
def Machine.ReplacesLine (m : Machine) (args : List Expr) : Prop :=
  (∃ name x b, args = [.ident name] ∧ m.chain.HasRoom m.nextLine name x b) ∧
    ¬ ∃ s, m.nextLine = Utf8.encode s

variable {m : Machine} {name : String} {bytes : List UInt8} {x : Variable} {b : Buffer}

theorem Variable.setsLine_of_setsValue {v : Value} {x x' : Variable} (h : x.SetsValue v x') :
    x.SetsLine bytes x' := by
  have hb : x.buffer? = none := by
    have ha := h.1
    rw [isArray_eq_isSome] at ha
    simpa using ha
  rw [SetsLine, hb]
  exact ⟨v, h⟩

namespace Run

theorem readScalar?_writes {kind : Kind} {read : Run Value} (h : readScalar? kind = some read) :
    WritesOnce name (Variable.SetsLine bytes) m ((read >>= fun v => overwrite name v) m) := by
  have hkind : kind ≠ .bool := by
    rintro rfl
    cases h
  obtain ⟨reader, hreader, hscalar⟩ := readScalar?_eq hkind
  cases h.symm.trans hscalar
  rw [bind_apply, readWith_of_takesLine hreader]
  cases (reader m.console.rest).1 with
  | error e => exact rfl
  | ok v =>
    have hwrite := WritesOnce.overwrite name v { m with console := m.console.skipLine }
    exact hwrite.mono fun _ _ => Variable.setsLine_of_setsValue

theorem readText_writes (hx : m.chain.find? name = some x) (hc : x.modifiers.const = false)
    (hb : x.buffer? = some b) (hk : x.kind = .char)
    (h : m.chain.HasRoom m.nextLine name x b → bytes = Reader.storedBytes m.nextLine) :
    WritesOnce name (Variable.SetsLine bytes) m (readText name b m) := by
  by_cases hline : m.nextLine.length ≤ b.length - 1
  · rw [readText_of_short hline]
    cases hs : b.store? (Reader.storedBytes m.nextLine) with
    | none => exact rfl
    | some b' =>
      obtain ⟨hcells, hstored⟩ := Buffer.store?_isSome.1 (Option.isSome_of_mem hs)
      have hroom : m.chain.HasRoom m.nextLine name x b :=
        ⟨hx, hc, hb, hk, hcells, by omega, hstored⟩
      rw [h hroom]
      refine .inl ⟨rfl, .update hx ?_⟩
      rw [Variable.SetsLine, hb]
      exact ⟨hk, Variable.setsText_setBuffer (Variable.buffer?_eq_some.1 hb) hs⟩
  · rw [readText_of_long hline]
    exact rfl

theorem readInto_writes
    (h : ∀ x b, m.chain.HasRoom m.nextLine name x b → bytes = Reader.storedBytes m.nextLine) :
    Targets name (.undefinedVariable name) (fun _ => WritesOnce name (Variable.SetsLine bytes)) m
      (readInto (.ident name) m) := by
  refine targets_bind lookup_of_none (fun x hx => lookup_eq_done.2 ⟨hx, rfl⟩) fun x hx hc => ?_
  cases hb : x.buffer? with
  | none =>
    cases hr : readScalar? x.kind with
    | none => exact .report _
    | some read => exact readScalar?_writes hr
  | some b =>
    by_cases hk : x.kind = .char
    · simp only [hk, if_true]
      exact readText_writes hx hc hb hk (h x b)
    · simp only [hk, if_false]
      exact .report _

/-- Only the bytes of a text are both the line's and those that are stored for it. -/
theorem wellFormed_of_readWrites (h : m.chain.HasRoom m.nextLine name x b)
    (hline : ReadWrites m.nextLine [.ident name] m (readInto (.ident name) m)) :
    Utf8.WellFormed m.nextLine := by
  have hfits : m.nextLine.length ≤ b.length - 1 := Nat.le_sub_one_of_lt h.fits
  obtain ⟨b', hs⟩ := Option.isSome_iff_exists.1 (Buffer.store?_isSome.2 ⟨h.cells, h.stored⟩)
  rw [readInto_of_find? h.find h.const, h.buffer] at hline
  dsimp only at hline
  rw [if_pos h.kind, readText_of_short hfits, hs, ReadWrites, Targets, h.find] at hline
  dsimp only at hline
  rw [h.const, if_neg Bool.false_ne_true] at hline
  rcases hline with ⟨-, hchanged⟩ | ⟨hwarned, -⟩
  · have hline := hchanged.of_update h.find
    rw [Variable.SetsLine, h.buffer] at hline
    have hset := hline.2
    have hstored := Variable.setsText_setBuffer (Variable.buffer?_eq_some.1 h.buffer) hs
    exact Utf8.wellFormed_of_prefix (hset.prefix_or_prefix hstored)
  · exact absurd rfl hwarned

end Run

namespace Runner

variable (r : Runner) (args : List Expr) (m : Machine)

theorem slorp_readWrites
    (h : ∀ name x b, args = [.ident name] → m.chain.HasRoom m.nextLine name x b →
      bytes = Reader.storedBytes m.nextLine) :
    ReadWrites bytes args (m.note (.builtin .slorp args.length)) (r.builtin .slorp args m) := by
  rcases args with _ | ⟨e, _ | ⟨e', es⟩⟩
  · exact ⟨_, rfl⟩
  · cases e with
    | ident name =>
      refine Run.readInto_writes fun x b hroom => ?_
      rw [m.chain_note, m.nextLine_note] at hroom
      rw [m.nextLine_note]
      exact h name x b rfl hroom
    | _ => exact ⟨_, rfl⟩
  · cases e <;> exact ⟨_, rfl⟩

theorem readWrites_nextLine_iff :
    ReadWrites m.nextLine args (m.note (.builtin .slorp args.length)) (r.builtin .slorp args m) ↔
      ¬ m.ReplacesLine args := by
  constructor
  · rintro hline ⟨⟨name, x, b, rfl, hroom⟩, hill⟩
    rw [← m.chain_note (.builtin .slorp 1), ← m.nextLine_note (.builtin .slorp 1)] at hroom
    rw [← m.nextLine_note (.builtin .slorp 1)] at hline hill
    exact hill (Run.wellFormed_of_readWrites hroom hline)
  · intro h
    refine slorp_readWrites r args m fun name x b hargs hroom => ?_
    have hw : Utf8.WellFormed m.nextLine := by
      by_contra hill
      exact h ⟨⟨name, x, b, hargs, hroom⟩, hill⟩
    exact (Utf8.wellFormed_iff.1 hw).symm

end Runner

/-- Assignments, steps and reads from the console write all or nothing. Behind the parts they
evaluate they change one variable, the innermost one of a name, and there only its value, the
element addressed or the bytes stored; or there is an error or a warning of their own, and then all
variables are as those parts left them. Outside the array the value of an assignment is not
evaluated, and nothing is for a name that is unbound or a constant. The bytes stored are those of
the line, exactly if it is not one that others are stored for, and they are always those of the text
that the line is read as. -/
theorem writes_all_or_nothing (n : Nat) (m : Machine) :
    (∀ (name : String) (value : Expr),
      Targets name (.undefinedVariable name)
        (fun x => Follows ((Runner.ofFuel n).evalAs value x.kind) fun v =>
          WritesOnce name (·.SetsValue v))
        m ((Runner.ofFuel n).act (.assign name value) m)) ∧
    (∀ (name : String) (index value : Expr),
      Targets name (.undefinedArray name)
        (fun x => match x.buffer? with
          | none => OnlyWarns (.notAnArray name) .normal
          | some b => Follows ((Runner.ofFuel n).evalInt index) fun i =>
            if b.contains i then
              Follows ((Runner.ofFuel n).evalAs value x.kind) fun v =>
                WritesOnce name (·.SetsElement i v)
            else OnlyWarns (b.outOfBounds name i) .normal)
        m ((Runner.ofFuel n).act (.assignElement name index value) m)) ∧
    (∀ operand : Expr,
      StepWrites operand m ((Expr.unary .preInc operand).eval (n + 1) m) ∧
      StepWrites operand m ((Expr.unary .preDec operand).eval (n + 1) m) ∧
      StepWrites operand m ((Expr.unary .postInc operand).eval (n + 1) m) ∧
      StepWrites operand m ((Expr.unary .postDec operand).eval (n + 1) m)) ∧
    ∀ args : List Expr,
      (ReadWrites m.nextLine args (m.note (.builtin .slorp args.length))
        ((Runner.ofFuel n).builtin .slorp args m) ↔ ¬ m.ReplacesLine args) ∧
      ReadWrites (Utf8.encode (Utf8.decode m.nextLine)) args
        (m.note (.builtin .slorp args.length)) ((Runner.ofFuel n).builtin .slorp args m) := by
  refine ⟨Runner.assign_writes n m, Runner.assignElement_writes n m, fun operand => ?_,
    fun args => ⟨Runner.readWrites_nextLine_iff _ args m, ?_⟩⟩
  · have hstep := Runner.step_stepWrites operand
    exact ⟨hstep 1 false m, hstep (-1) false m, hstep 1 true m, hstep (-1) true m⟩
  · exact Runner.slorp_readWrites _ args m fun _ _ _ _ _ => rfl

theorem illFormed_line_overwrites :
    ¬ ReadWrites [0xFF] [.ident "a"] ((Machine.ofChars [0xFF, 10]).note (.builtin .slorp 1))
      ((Runner.ofFuel 1).builtin .slorp [.ident "a"] (.ofChars [0xFF, 10])) := by
  have hline : (Machine.ofChars [0xFF, 10]).nextLine = [0xFF] := by decide
  have hstored : Reader.storedBytes [0xFF] = [0xEF, 0xBF, 0xBD] := by
    rw [Reader.storedBytes, Utf8.decode_cons, List.drop_nil, Utf8.decode_nil]
    decide
  have hill : ¬ Utf8.WellFormed [0xFF] := by
    rw [Utf8.wellFormed_iff, ← Reader.storedBytes, hstored]
    decide
  have hroom : (Machine.ofChars [0xFF, 10]).chain.HasRoom [0xFF] "a"
      (.array "a" ⟨.char, #[.int 1, .int 2, .int 3, .int 4]⟩ {})
      ⟨.char, #[.int 1, .int 2, .int 3, .int 4]⟩ :=
    ⟨rfl, rfl, rfl, rfl, rfl, by decide, by rw [hstored]; decide⟩
  rw [← hline]
  rw [← hline] at hroom hill
  exact fun h => (Runner.readWrites_nextLine_iff _ _ _).1 h ⟨⟨"a", _, _, rfl, hroom⟩, hill⟩

end Yap

