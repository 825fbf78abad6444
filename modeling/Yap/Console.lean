import Yap.Console.Reader

/-! The console: two output streams and the input, of which the first bytes have been read.
Main statements: a read goes forward and stays within the input, and a write leaves the input
alone. -/
namespace Yap

inductive Stream
  | out | err
deriving DecidableEq, Repr

structure Console where
  out : String := ""
  err : String := ""
  input : List UInt8 := []
  position : Nat := 0

namespace Console

def write (c : Console) (s : Stream) (text : String) : Console :=
  match s with
  | .out => { c with out := c.out ++ text }
  | .err => { c with err := c.err ++ text }

def rest (c : Console) : List UInt8 := c.input.drop c.position

def advance (c : Console) (n : Nat) : Console := { c with position := c.position + n }

/-- Lends what has not been read to a reader. What the reader does not leave has been read then,
even if it refuses it. -/
def read {α : Type} (reader : Reader α) (c : Console) : Except ReadFault α × Console :=
  let (result, rest) := reader c.rest
  (result, c.advance (c.rest.length - rest.length))

def taken {α : Type} (reader : Reader α) (c : Console) : Nat :=
  c.rest.length - (reader c.rest).2.length

theorem read_eq {α : Type} (reader : Reader α) (c : Console) :
    c.read reader = ((reader c.rest).1, c.advance (c.taken reader)) := rfl

theorem position_read_le {α : Type} (reader : Reader α) {c : Console}
    (h : c.position ≤ c.input.length) : (c.read reader).2.position ≤ c.input.length := by
  rw [read_eq, advance, taken, rest, List.length_drop]
  dsimp only
  omega

@[simp] theorem input_write (c : Console) (s : Stream) (t : String) :
    (c.write s t).input = c.input := by cases s <;> rfl

@[simp] theorem position_write (c : Console) (s : Stream) (t : String) :
    (c.write s t).position = c.position := by cases s <;> rfl

@[simp] theorem out_write_err (c : Console) (t : String) : (c.write .err t).out = c.out := rfl

@[simp] theorem err_write_out (c : Console) (t : String) : (c.write .out t).err = c.err := rfl

end Console
end Yap
