import Yap.Kind
import Yap.Text.Quoted
import Yap.Text.Utf8
import Yap.Numeral.Reading

/-! Typed readers of console input. Each takes one line off the input and turns it, without its
ending, into a value or says why it cannot; the end of input reads as an empty line. -/
namespace Yap

inductive ReadFault
  | truncated (capacity : Nat)
  | conversion (text : String) (kind : Kind)
  | overflow (kind : Kind)
  | notOneChar
deriving DecidableEq, Repr

def ReadFault.message : ReadFault → String
  | truncated capacity => "input exceeds " ++ toString capacity ++ " characters"
  | conversion text kind => "cannot convert " ++ Text.Quoted.quote text ++ " to " ++ kind.name
  | overflow kind => "value out of range for " ++ kind.name
  | notOneChar => "expected exactly one character"

/-- From the input a value, or the reason that there is none, and what is left of the input in
either case. -/
abbrev Reader (α : Type) : Type := ExceptT ReadFault (StateM (List UInt8)) α

namespace Reader

/-- The bytes up to a first newline, which is one of them, and those behind it. -/
def splitLine : List UInt8 → List UInt8 × List UInt8
  | [] => ([], [])
  | b :: bytes =>
    if b = 10 then ([b], bytes)
    else
      let (taken, rest) := splitLine bytes
      (b :: taken, rest)

/-- Bytes without the newline at their end, and without a carriage return in front of that. -/
def chomp (bytes : List UInt8) : List UInt8 :=
  if bytes.getLast? = some 10 then
    let raw := bytes.dropLast
    if raw.getLast? = some 13 then raw.dropLast else raw
  else bytes

/-- A line that fits in so many bytes, as text. It is taken whole even if it does not fit. -/
def text (capacity : Nat) : Reader String := do
  let bytes := chomp (← modifyGet splitLine)
  if capacity < bytes.length then throw (.truncated capacity)
  return String.ofList (Text.Utf8.decode bytes)

def numberCapacity : Nat := 31

def doubleCapacity : Nat := 63

def parseChar (t : String) : Except ReadFault UInt8 :=
  match Text.Utf8.encode t.toList with
  | [b] => .ok b
  | _ => .error .notOneChar

def parseInteger (kind : Kind) (lo hi : Int) (t : String) : Except ReadFault Int :=
  match Numeral.readInteger (Text.trimStart t.toList) with
  | .ok n => if lo ≤ n ∧ n ≤ hi then .ok n else .error (.overflow kind)
  | .error .tooLarge => .error (.overflow kind)
  | .error .malformed => .error (.conversion t kind)

/-- A number too large for the format is refused, a word for infinity is not. -/
def parseFloat (kind : Kind) (f : Numeral.BinaryFormat) (t : String) :
    Except ReadFault Numeral.Written :=
  match Numeral.readFloat? (Text.trimStart t.toList) with
  | none => .error (.conversion t kind)
  | some (.number negative ds exp) =>
    if Numeral.Written.magnitude f ds exp = f.infinity then .error (.overflow kind)
    else .ok (.number negative ds exp)
  | some w => .ok w

def char : Reader UInt8 := do parseChar (← text numberCapacity)

def integer (kind : Kind) (lo hi : Int) : Reader Int := do
  parseInteger kind lo hi (← text numberCapacity)

def short : Reader Int16 := Int16.ofInt <$> integer .short (-32768) 32767

def int : Reader Int32 := Int32.ofInt <$> integer .int (-2147483648) 2147483647

def written (kind : Kind) (f : Numeral.BinaryFormat) (capacity : Nat) : Reader Numeral.Written := do
  parseFloat kind f (← text capacity)

def float : Reader Float32 :=
  Numeral.Written.toSingle <$> written .float Numeral.binary32 numberCapacity

def double : Reader Float :=
  Numeral.Written.toDouble <$> written .double Numeral.binary64 doubleCapacity

variable {α β : Type}

/-- What is made of a value without the input leaves the input alone. -/
theorem bind_lift_apply (reader : Reader α) (f : α → Except ReadFault β) (input : List UInt8) :
    (do f (← reader) : Reader β) input = ((reader input).1 >>= f, (reader input).2) := by
  change (match reader input with
    | (result, rest) => ExceptT.bindCont (fun a => (liftM (f a) : Reader β)) result rest) = _
  rcases reader input with ⟨_ | a, rest⟩ <;> rfl

theorem map_apply (f : α → β) (reader : Reader α) (input : List UInt8) :
    (f <$> reader) input = ((reader input).1.map f, (reader input).2) := by
  rw [← bind_pure_comp]
  exact bind_lift_apply reader (fun a => .ok (f a)) input

end Reader
end Yap
