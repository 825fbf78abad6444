import Yap.Text.Blank

/-! Declaration modifiers and their written form, names joined by bars.
Main statement: reading the written form gives the modifiers back. -/
namespace Yap

/-- The flags a declaration may carry. `volatile` and `signed` are kept and change nothing. -/
structure Modifiers where
  volatile : Bool := false
  signed : Bool := false
  unsigned : Bool := false
  const : Bool := false
deriving DecidableEq, Repr

namespace Modifiers

def none : Modifiers := {}

def union (a b : Modifiers) : Modifiers :=
  ⟨a.volatile || b.volatile, a.signed || b.signed, a.unsigned || b.unsigned, a.const || b.const⟩

/-- The flags that are set, in the order volatile, signed, unsigned, const. -/
def names (m : Modifiers) : List String :=
  (if m.volatile then ["VOLATILE"] else []) ++ (if m.signed then ["SIGNED"] else []) ++
    (if m.unsigned then ["UNSIGNED"] else []) ++ (if m.const then ["CONST"] else [])

/-- The modifiers with the one flag of this name. -/
def ofName? : List Char → Option Modifiers
  | ['V', 'O', 'L', 'A', 'T', 'I', 'L', 'E'] => some { volatile := true }
  | ['S', 'I', 'G', 'N', 'E', 'D'] => some { signed := true }
  | ['U', 'N', 'S', 'I', 'G', 'N', 'E', 'D'] => some { unsigned := true }
  | ['C', 'O', 'N', 'S', 'T'] => some { const := true }
  | _ => Option.none

/-- Names joined by ` | `; no flag is the empty text. -/
def render (m : Modifiers) : String := " | ".intercalate m.names

def pieces : List Char → List (List Char)
  | [] => [[]]
  | c :: s =>
    match pieces s with
    | [] => [[c]]
    | p :: ps => if c = '|' then [] :: p :: ps else (c :: p) :: ps

/-- Reads names between bars, blanks around a name aside; a blank text is no flag. -/
def parse? (text : String) : Option Modifiers :=
  if (Text.trim text.toList).isEmpty then some none
  else (pieces text.toList).foldl
    (fun acc p => acc.bind fun m => (ofName? (Text.trim p)).map m.union) (some none)

theorem parse?_render (m : Modifiers) : parse? m.render = some m := by
  rcases m with ⟨v, s, u, c⟩
  cases v <;> cases s <;> cases u <;> cases c <;> decide +kernel

end Modifiers
end Yap
