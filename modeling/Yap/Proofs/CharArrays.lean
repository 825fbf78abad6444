import Yap.Proofs.Decoding
import Yap.Proofs.LineReaders
import Yap.Proofs.Writes

/-! Lines read into arrays of chars. A line is read as text, and the bytes of that text are stored.
Main statement: a line that leaves room for a zero is stored with one behind it, and a longer one is
refused, exactly if the line is too long or its bytes are those of a text. -/
namespace Yap

open Text

def Machine.nextLine (m : Machine) : List UInt8 := Reader.line m.console.rest

/-- The bytes that are stored for a line. -/
def Reader.storedBytes (line : List UInt8) : List UInt8 := Utf8.encode (Utf8.decode line)

/-- Bytes are stored in an array of so many chars, with a zero behind them, and no other element and
no other variable changes; or there is no room for both, and then they are refused and all variables
stay. -/
def StoresBytes (name : String) (length : Nat) (bytes : List UInt8) (m : Machine)
    (o : Outcome Unit) : Prop :=
  if bytes.length ≤ length - 1 then
    ∃ m', o = .done () m' ∧ m.chain.ChangedAt name (·.SetsText bytes) m'.chain
  else
    ∃ m', o = .stopped (.fault (.input (.truncated (length - 1))) none) m' ∧ m'.chain = m.chain

theorem Buffer.prefix_of_cells {l l' : List UInt8} {rest : Nat → Option Value}
    (hle : l.length ≤ l'.length)
    (h : ∀ j, ((l.map ofByte)[j]?).or (rest j) = ((l'.map ofByte)[j]?).or (rest j)) : l <+: l' := by
  rw [List.prefix_iff_getElem?]
  intro i hi
  have hi' : i < l'.length := Nat.lt_of_lt_of_le hi hle
  have hcell : ofByte l[i] = ofByte l'[i] := by simpa [hi, hi'] using h i
  have hbyte : l[i] = l'[i] := by simpa using congrArg toByte hcell
  rw [List.getElem?_eq_getElem hi', hbyte]

/-- Where two texts make the same of an array, one of them with its zero starts the other. -/
theorem Variable.SetsText.prefix_or_prefix {s t : List UInt8} {x x' : Variable}
    (hs : x.SetsText s x') (ht : x.SetsText t x') :
    s ++ [0] <+: t ++ [0] ∨ t ++ [0] <+: s ++ [0] := by
  obtain ⟨b, b₁, hb, hx₁, -, -, -, hcells₁⟩ := hs
  obtain ⟨c, b₂, hc, hx₂, -, -, -, hcells₂⟩ := ht
  cases hb.symm.trans hc
  have heq : b₁ = b₂ := by
    injection congrArg Variable.storage (hx₁.symm.trans hx₂)
  subst heq
  have hzero (u : List UInt8) :
      u.map Buffer.ofByte ++ [Value.int 0] = (u ++ [0]).map Buffer.ofByte := by
    rw [List.map_append]
    rfl
  have hcells (j : Nat) := (hcells₁ j).symm.trans (hcells₂ j)
  simp only [hzero] at hcells
  rcases Nat.le_total (s ++ [0]).length (t ++ [0]).length with hle | hle
  · exact .inl (Buffer.prefix_of_cells hle hcells)
  · exact .inr (Buffer.prefix_of_cells hle fun j => (hcells j).symm)

namespace Run

variable {m : Machine} {name : String} {b : Buffer} {modifiers : Modifiers}

theorem readInto_charArray (hx : m.chain.find? name = some (.array name b modifiers))
    (hk : b.kind = .char) (hc : modifiers.const = false) :
    readInto (.ident name) m = readText name b m := by
  rw [readInto_of_find? hx hc]
  exact congrFun (if_pos hk) m

theorem readText_of_long (h : ¬ m.nextLine.length ≤ b.length - 1) :
    readText name b m = .stopped (.fault (.input (.truncated (b.length - 1))) none)
      { m with console := m.console.skipLine } := by
  rw [readText, bind_apply, readWith_of_takesLine (Reader.takesLine_text _), Reader.text_apply,
    ← Machine.nextLine, if_pos (Nat.not_le.1 h)]
  rfl

theorem readText_of_short (h : m.nextLine.length ≤ b.length - 1) :
    readText name b m = (match b.store? (Reader.storedBytes m.nextLine) with
      | none => .stopped (.fault (.input (.truncated (b.length - 1))) none)
          { m with console := m.console.skipLine }
      | some b' => .done () { m with
          console := m.console.skipLine, chain := m.chain.update name (·.setBuffer b') }) := by
  have hread : readWith (Reader.text (b.length - 1)) m =
      .done (String.ofList (Utf8.decode m.nextLine)) { m with console := m.console.skipLine } := by
    rw [readWith_of_takesLine (Reader.takesLine_text _), Reader.text_apply, ← Machine.nextLine,
      if_neg (Nat.not_lt.2 h)]
    rfl
  rw [readText, bind_of_done hread, String.toList_ofList, ← Reader.storedBytes]
  cases b.store? (Reader.storedBytes m.nextLine) <;> rfl

/-- A line that leaves room for a zero is stored as the text it is read as, if that leaves room for
one, too. -/
theorem storesBytes_of_short (hx : m.chain.find? name = some (.array name b modifiers))
    (hk : b.kind = .char) (hn : 1 ≤ b.length) (hc : modifiers.const = false)
    (h : m.nextLine.length ≤ b.length - 1) :
    StoresBytes name b.length (Reader.storedBytes m.nextLine) m (readInto (.ident name) m) := by
  rw [readInto_charArray hx hk hc, readText_of_short h, StoresBytes]
  cases hs : b.store? (Reader.storedBytes m.nextLine) with
  | none =>
    have hlong : ¬ (Reader.storedBytes m.nextLine).length ≤ b.length - 1 := fun hle => by
      have hsome := Buffer.store?_isSome.2 ⟨hk, Nat.lt_of_le_pred hn hle⟩
      rw [hs] at hsome
      cases hsome
    rw [if_neg hlong]
    exact ⟨_, rfl, rfl⟩
  | some b' =>
    have hstored := Variable.setsText_setBuffer (x := .array name b modifiers) rfl hs
    obtain ⟨-, hroom⟩ := Buffer.store?_isSome.1 (Option.isSome_of_mem hs)
    rw [if_pos (Nat.le_sub_one_of_lt hroom)]
    exact ⟨_, rfl, .update hx hstored⟩

/-- What becomes of an array of chars. -/
theorem storesBytes_nextLine_iff (hx : m.chain.find? name = some (.array name b modifiers))
    (hk : b.kind = .char) (hn : 1 ≤ b.length) (hc : modifiers.const = false) :
    StoresBytes name b.length m.nextLine m (readInto (.ident name) m) ↔
      b.length ≤ m.nextLine.length ∨ Utf8.WellFormed m.nextLine := by
  by_cases hfits : m.nextLine.length ≤ b.length - 1
  · have hstored := storesBytes_of_short hx hk hn hc hfits
    rw [or_iff_right (by omega)]
    constructor
    · intro hline
      rw [StoresBytes, if_pos hfits] at hline
      obtain ⟨m', hdone, hchanged⟩ := hline
      rw [StoresBytes, hdone] at hstored
      split at hstored
      · obtain ⟨_, heq, hchanged'⟩ := hstored
        cases heq
        obtain ⟨x, x', hs, ht⟩ := hchanged.both hchanged'
        exact Utf8.wellFormed_of_prefix (hs.prefix_or_prefix ht)
      · obtain ⟨_, hstopped, -⟩ := hstored
        cases hstopped
    · intro hw
      rwa [Reader.storedBytes, Utf8.wellFormed_iff.1 hw] at hstored
  · rw [StoresBytes, if_neg hfits, readInto_charArray hx hk hc, readText_of_long hfits]
    exact ⟨fun _ => .inl (by omega), fun _ => ⟨_, rfl, rfl⟩⟩

end Run

theorem Machine.nextLine_note (m : Machine) (e : Event) : (m.note e).nextLine = m.nextLine := by
  rw [nextLine, console_note, nextLine]

/-- The next line is read into an array of chars that is no constant as it should be, whole with a
zero behind it or not at all, exactly if there is no room for it or its bytes are those of a text.
If there is room, the bytes that are stored or refused are those of the text it is read as. -/
theorem line_stored_iff {m : Machine} {name : String} {b : Buffer} {modifiers : Modifiers}
    (hx : m.chain.find? name = some (.array name b modifiers)) (hk : b.kind = .char)
    (hn : 1 ≤ b.length) (hc : modifiers.const = false) (r : Runner) :
    (StoresBytes name b.length m.nextLine m (r.builtin .slorp [.ident name] m) ↔
      b.length ≤ m.nextLine.length ∨ ∃ s, m.nextLine = Utf8.encode s) ∧
    (m.nextLine.length ≤ b.length - 1 →
      StoresBytes name b.length (Utf8.encode (Utf8.decode m.nextLine)) m
        (r.builtin .slorp [.ident name] m)) := by
  have hx' : (m.note (.builtin .slorp 1)).chain.find? name = some (.array name b modifiers) := by
    rw [Machine.chain_note, hx]
  have hiff := Run.storesBytes_nextLine_iff hx' hk hn hc
  have hstored := Run.storesBytes_of_short hx' hk hn hc
  simp only [StoresBytes, Machine.nextLine_note, Machine.chain_note] at hiff hstored ⊢
  exact ⟨hiff, hstored⟩

/-- Four chars in the middle one of three scopes, in front of some input. -/
def Machine.ofChars (input : List UInt8) : Machine :=
  { Machine.new 9 .report false input with
    chain := {
      current := ⟨[.scalar "i" .int (.int 1) {}]⟩
      outer := [⟨[.array "a" ⟨.char, #[.int 1, .int 2, .int 3, .int 4]⟩ {}]⟩,
        ⟨[.scalar "a" .int (.int 5) {}]⟩] } }

theorem line_stored_iff_accented :
    (Machine.ofChars [0xC3, 0xA9, 10]).chain.find? "a" =
        some (.array "a" ⟨.char, #[.int 1, .int 2, .int 3, .int 4]⟩ {}) ∧
      StoresBytes "a" 4 [0xC3, 0xA9] (.ofChars [0xC3, 0xA9, 10])
        ((Runner.ofFuel 1).builtin .slorp [.ident "a"] (.ofChars [0xC3, 0xA9, 10])) := by
  have hx : (Machine.ofChars [0xC3, 0xA9, 10]).chain.find? "a" =
      some (.array "a" ⟨.char, #[.int 1, .int 2, .int 3, .int 4]⟩ {}) := rfl
  have h := line_stored_iff hx rfl (by decide) rfl (Runner.ofFuel 1)
  exact ⟨hx, h.1.2 (.inr ⟨['é'], by decide⟩)⟩

theorem illFormed_line_replaced :
    ¬ StoresBytes "a" 4 [0xFF] (.ofChars [0xFF, 10])
      ((Runner.ofFuel 1).builtin .slorp [.ident "a"] (.ofChars [0xFF, 10])) := by
  have hx : (Machine.ofChars [0xFF, 10]).chain.find? "a" =
      some (.array "a" ⟨.char, #[.int 1, .int 2, .int 3, .int 4]⟩ {}) := rfl
  have hline : (Machine.ofChars [0xFF, 10]).nextLine = [0xFF] := by decide
  intro h
  rcases (Run.storesBytes_nextLine_iff hx rfl (by decide) rfl).1 h with hlong | hw
  · rw [hline] at hlong
    exact absurd hlong (by decide)
  · rw [hline, Utf8.wellFormed_iff, Utf8.decode_cons] at hw
    exact absurd (congrArg List.length hw) (by decide)

end Yap
