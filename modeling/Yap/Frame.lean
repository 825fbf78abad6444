import Yap.Kind

/-! Frames: the live loops, switches and calls, the innermost first. They tell where a break or
a return would land. -/
namespace Yap

/-- What a frame belongs to. A function without return kind returns nothing. -/
inductive FrameKind
  | loop
  | switch
  | call (function : String) (returns : Option Kind)
deriving DecidableEq, Repr

/-- A live construct and the scope depth at which it started. -/
structure Frame where
  kind : FrameKind
  scopeDepth : Nat
deriving DecidableEq, Repr

namespace Frame

/-- Whether a break has a loop or switch to land on inside the innermost call. -/
def canBreak : List Frame → Bool
  | [] => false
  | f :: _ =>
    match f.kind with
    | .loop | .switch => true
    | .call .. => false

def currentCall : List Frame → Option (String × Option Kind)
  | [] => none
  | f :: fs =>
    match f.kind with
    | .call function returns => some (function, returns)
    | .loop | .switch => currentCall fs

@[simp] theorem canBreak_loop (d : Nat) (fs : List Frame) :
    canBreak (⟨.loop, d⟩ :: fs) = true := rfl

@[simp] theorem canBreak_switch (d : Nat) (fs : List Frame) :
    canBreak (⟨.switch, d⟩ :: fs) = true := rfl

@[simp] theorem canBreak_call (f : String) (k : Option Kind) (d : Nat) (fs : List Frame) :
    canBreak (⟨.call f k, d⟩ :: fs) = false := rfl

@[simp] theorem currentCall_loop (d : Nat) (fs : List Frame) :
    currentCall (⟨.loop, d⟩ :: fs) = currentCall fs := rfl

@[simp] theorem currentCall_switch (d : Nat) (fs : List Frame) :
    currentCall (⟨.switch, d⟩ :: fs) = currentCall fs := rfl

@[simp] theorem currentCall_call (f : String) (k : Option Kind) (d : Nat) (fs : List Frame) :
    currentCall (⟨.call f k, d⟩ :: fs) = some (f, k) := rfl

end Frame
end Yap
