import Yap.Machine.Variables

/-! Console input into a variable: one line, read as the variable's kind asks. -/
namespace Yap.Run

def readWith {α : Type} (reader : Reader α) : Run α := fun m =>
  let (result, console) := m.console.read reader
  ofExcept (result.mapError .input) { m with console := console }

theorem readWith_eq {α : Type} (reader : Reader α) : readWith reader = (do
    let result ← gets fun m => (m.console.read reader).1
    let n ← gets fun m => m.console.taken reader
    modify fun m => { m with console := m.console.advance n }
    ofExcept (result.mapError .input)) := rfl

theorem readWith_bind_lift {α β : Type} (reader : Reader α) (f : α → Except ReadFault β) :
    readWith (do f (← reader)) =
      (do ofExcept ((f (← readWith reader)).mapError .input)) := by
  funext m
  rw [bind_apply, readWith, readWith, Console.read, Console.read, Reader.bind_lift_apply]
  rcases reader m.console.rest with ⟨_ | a, rest⟩ <;> rfl

theorem readWith_map {α β : Type} (reader : Reader α) (f : α → β) :
    readWith (f <$> reader) = (do pure (f (← readWith reader))) := by
  rw [← bind_pure_comp]
  exact readWith_bind_lift reader fun a => .ok (f a)

theorem machine?_readWith {α : Type} (reader : Reader α) (m : Machine) :
    (readWith reader m).machine? =
      some { m with console := m.console.advance (m.console.taken reader) } :=
  machine?_ofExcept _ _

/-- Reads a line into the innermost array of a name, with a zero behind it. -/
def readText (name : String) (b : Buffer) : Run Unit := do
  let t ← readWith (Reader.text (b.length - 1))
  match b.store? (Text.Utf8.encode t.toList) with
  | none => fail (.input (.truncated (b.length - 1)))
  | some b' => modify fun m => { m with chain := m.chain.update name (·.setBuffer b') }

/-- Reads a line as a value of a kind; bools have no reader. -/
def readScalar? : Kind → Option (Run Value)
  | .short => some (do pure (.short (← readWith Reader.short)))
  | .int => some (do pure (.int (← readWith Reader.int)))
  | .float => some (do pure (.float (← readWith Reader.float)))
  | .double => some (do pure (.double (← readWith Reader.double)))
  | .char => some (do pure (Buffer.ofByte (← readWith Reader.char)))
  | .bool => none

/-- Reads a line into a variable. Arrays other than of chars, and bools, are not read into, with a
warning. -/
def readInto (target : Expr) : Run Unit :=
  match target with
  | .ident name => do
    let x ← lookup name
    writable x
    match x.buffer? with
    | some b =>
      if x.kind = .char then readText name b else report (.unsupportedSlorpTarget name x.kind)
    | none =>
      match readScalar? x.kind with
      | some read => do
        let v ← read
        overwrite name v
      | none => report (.unsupportedSlorpTarget name x.kind)
  | e => fail (.builtinArgument .slorp (.notAVariable e.description))

/-- What is read into a variable that is no constant. -/
theorem readInto_of_find? {m : Machine} {name : String} {x : Variable}
    (hx : m.chain.find? name = some x) (hc : x.modifiers.const = false) :
    readInto (.ident name) m = (match x.buffer? with
      | some b =>
        if x.kind = Kind.char then readText name b
        else report (.unsupportedSlorpTarget name x.kind)
      | none =>
        match readScalar? x.kind with
        | some read => do
          let v ← read
          overwrite name v
        | none => report (.unsupportedSlorpTarget name x.kind)) m := by
  have hl : lookup name m = .done x m := lookup_eq_done.2 ⟨hx, rfl⟩
  have hw : writable x m = .done () m := writable_eq_done.2 ⟨hc, rfl⟩
  rw [readInto, bind_of_done hl, bind_of_done hw]

end Yap.Run
