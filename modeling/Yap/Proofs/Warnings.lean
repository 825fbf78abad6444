import Yap.Machine.Variables

/-! What a construct stops for and warns of by itself. Only the registering of a function warns
that a name is taken; only a call finds the limit of calls, and only a warning that is not to be
survived stops with a line. Main statement: computing with values warns of nothing else. -/
namespace Yap

def Warning.isPlain : Warning → Bool
  | .functionRedefined _ => false
  | _ => true

/-- Every reason to stop but a warning; a fault has no line yet. -/
def Stop.isBare : Stop → Bool
  | .fault (.aborted _) _ => false
  | .fault _ l => l.isNone
  | _ => true

def Stop.isPlain : Stop → Bool
  | .fault (.stackOverflow ..) _ => false
  | s => s.isBare

theorem Stop.isBare_of_isPlain {s : Stop} (h : s.isPlain = true) : s.isBare = true := by
  cases s with
  | fault c l => cases c <;> first | exact h | simp [isPlain] at h
  | interrupted => rfl
  | exit code => rfl

theorem Stop.line_of_isBare {s : Stop} (h : s.isBare = true) : s.line = none := by
  cases s with
  | fault c l => cases c <;> simp_all [isBare, line]
  | interrupted => rfl
  | exit code => rfl

namespace Checked

variable {α β : Type}

def isPlain (c : Checked α) : Bool := c.warning.all Warning.isPlain

@[simp] theorem isPlain_clean (a : α) : (clean a).isPlain = true := rfl

@[simp] theorem isPlain_fallback (a : α) (w : Warning) :
    (fallback a w).isPlain = w.isPlain := rfl

@[simp] theorem isPlain_map (f : α → β) (c : Checked α) : (c.map f).isPlain = c.isPlain := rfl

end Checked

theorem Variable.isPlain_value (x : Variable) : x.value.isPlain = true := by
  rw [value]
  split <;> simp [Warning.isPlain]

theorem Buffer.isPlain_read (b : Buffer) (name : String) (i : Int32) :
    (b.read name i).isPlain = true := by
  rw [read]
  split <;> simp [outOfBounds, Warning.isPlain]

theorem Buffer.isPlain_write (b : Buffer) (name : String) (i : Int32) (v : Value) :
    (b.write name i v).2.all Warning.isPlain = true := by
  rw [write]
  split <;> rfl

namespace Value

theorem isPlain_divide (a b : Float) : (divide a b).isPlain = true := by
  rw [divide]
  split
  · simp
  · split <;> simp [Warning.isPlain]

theorem isPlain_divideSingle (a b : Float32) : (divideSingle a b).isPlain = true := by
  rw [divideSingle]
  split
  · simp
  · split <;> simp [Warning.isPlain]

/-- An operator warns of a divisor and of nothing else. -/
theorem isPlain_binary (op : BinaryOp) (l r : Value) (u : Bool) :
    (binary op l r u).isPlain = true := by
  have hinteger {α : Type} [DecidableEq α] [Add α] [Sub α] [Mul α] [Div α] [LT α] [LE α]
      [DecidableLT α] [DecidableLE α] [OfNat α 0] [OfNat α 1] (remainder : α → α → α) (a b : α) :
      (integer remainder op a b).isPlain = true := by
    by_cases hb : b = 0 <;> cases op <;> simp [integer, hb, Warning.isPlain]
  have hfloat (a b : Float32) : (floating divideSingle Numeral.fmodSingle op a b).isPlain = true := by
    cases op <;> simp [floating, isPlain_divideSingle]
  have hdouble (a b : Float) : (floating divide Numeral.fmod op a b).isPlain = true := by
    cases op <;> simp [floating, isPlain_divide]
  simp only [binary]
  generalize l.kind.promote r.kind = k
  generalize l.convert k = x
  generalize r.convert k = y
  cases op <;> cases x <;> cases y <;> simp [hinteger, hfloat, hdouble]

end Value
end Yap
