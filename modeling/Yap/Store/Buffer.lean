import Yap.Text.Utf8
import Yap.Value
import Yap.Warning

/-! Arrays: so many cells of one kind. Each cell holds a value at that kind. Main statements:
writing changes no length and keeps the cells at their kind, a cell reads back what was last
written to it, and text stored in chars reads back up to its first zero. -/
namespace Yap

structure Buffer where
  kind : Kind
  cells : Array Value

namespace Buffer

def length (b : Buffer) : Nat := b.cells.size

/-- The greatest number of bytes that storage can have. -/
def byteLimit : Nat := 9223372036854775807

/-- A buffer of zeros, unless it takes more bytes than there can be. -/
def allocate? (kind : Kind) (length : Nat) : Option Buffer :=
  if kind.size * length ≤ byteLimit then some ⟨kind, Array.replicate length (Value.zero kind)⟩
  else none

def byteSize (b : Buffer) : Nat := b.kind.size * b.length

def get? (b : Buffer) (i : Nat) : Option Value := b.cells[i]?

/-- The buffer with a cell overwritten by a value, converted to the kind of the cells. -/
def set? (b : Buffer) (i : Nat) (v : Value) : Option Buffer :=
  if i < b.length then some { b with cells := b.cells.setIfInBounds i (v.convert b.kind) } else none

def place? (index : Int32) : Option Nat :=
  if 0 ≤ index.toInt then some index.toInt.toNat else none

def outOfBounds (b : Buffer) (name : String) (index : Int32) : Warning :=
  .indexOutOfBounds name index.toInt b.length

def contains (b : Buffer) (index : Int32) : Bool :=
  match place? index with
  | some i => i < b.length
  | none => false

/-- Reads a cell. Outside the array the answer is a zero, with a warning. -/
def read (b : Buffer) (name : String) (index : Int32) : Checked Value :=
  match (place? index).bind b.get? with
  | some v => .clean v
  | none => .fallback (Value.zero b.kind) (b.outOfBounds name index)

/-- Writes a cell. Outside the array nothing changes, with a warning. -/
def write (b : Buffer) (name : String) (index : Int32) (v : Value) : Buffer × Option Warning :=
  match (place? index).bind fun i => b.set? i v with
  | some b' => (b', none)
  | none => (b, some (b.outOfBounds name index))

def ofByte (byte : UInt8) : Value := .int byte.toInt8.toInt32

def toByte (v : Value) : UInt8 := v.toInt32.toInt8.toUInt8

@[simp] theorem toByte_ofByte (byte : UInt8) : toByte (ofByte byte) = byte := by
  simp [toByte, ofByte, Value.toInt32]

def putAll (cells : Array Value) (i : Nat) : List Value → Array Value
  | [] => cells
  | v :: vs => putAll (cells.setIfInBounds i v) (i + 1) vs

/-- Stores bytes and a zero behind them, if the array is of chars and they fit. -/
def store? (b : Buffer) (bytes : List UInt8) : Option Buffer :=
  if b.kind = .char ∧ bytes.length < b.length then
    some { b with cells := putAll b.cells 0 (bytes.map ofByte ++ [.int 0]) }
  else none

/-- The bytes of a char array up to its first zero. -/
def text? (b : Buffer) : Option (List UInt8) :=
  if b.kind = .char then some ((b.cells.toList.takeWhile (· ≠ .int 0)).map toByte) else none

def WellKinded (b : Buffer) : Prop := ∀ v ∈ b.cells, v.At b.kind

@[simp] theorem size_putAll (cells : Array Value) (i : Nat) (vs : List Value) :
    (putAll cells i vs).size = cells.size := by
  induction vs generalizing cells i with
  | nil => rfl
  | cons v vs ih => rw [putAll, ih]; simp

theorem allocate?_eq_some {kind : Kind} {length : Nat} {b : Buffer}
    (h : allocate? kind length = some b) :
    b.kind = kind ∧ b.length = length ∧ b.WellKinded := by
  rw [allocate?] at h
  split at h
  · cases h
    refine ⟨rfl, by simp [Buffer.length], ?_⟩
    intro v hv
    rw [Array.mem_replicate] at hv
    exact hv.2 ▸ Value.at_zero kind
  · cases h

theorem set?_isSome (b : Buffer) (i : Nat) (v : Value) :
    (b.set? i v).isSome = decide (i < b.length) := by
  unfold set?; split <;> simp_all

theorem set?_eq_some {b b' : Buffer} {i : Nat} {v : Value} (h : b.set? i v = some b') :
    b'.kind = b.kind ∧ b'.length = b.length ∧
      ∀ j, b'.get? j = if j = i then some (v.convert b.kind) else b.get? j := by
  rw [set?] at h
  split at h
  · rename_i hi
    cases h
    refine ⟨rfl, by simp [Buffer.length], ?_⟩
    intro j
    by_cases hj : j = i
    · subst hj
      have hi' : j < b.cells.size := hi
      simp [get?, hi']
    · simp [get?, hj, Array.getElem?_setIfInBounds_ne (Ne.symm hj)]
  · cases h

theorem WellKinded.set? {b b' : Buffer} {i : Nat} {v : Value} (hb : b.WellKinded)
    (h : b.set? i v = some b') : b'.WellKinded := by
  rw [Buffer.set?] at h
  split at h
  · cases h
    intro w hw
    rcases Array.mem_or_eq_of_mem_setIfInBounds hw with hw | hw
    · exact hb w hw
    · exact hw ▸ Value.at_convert v b.kind
  · cases h

theorem mem_putAll {v : Value} {vs : List Value} {cells : Array Value} {i : Nat}
    (h : v ∈ putAll cells i vs) : v ∈ cells ∨ v ∈ vs := by
  induction vs generalizing cells i with
  | nil => exact Or.inl h
  | cons w vs ih =>
    rcases ih h with h | h
    · rcases Array.mem_or_eq_of_mem_setIfInBounds h with h | h
      · exact Or.inl h
      · exact Or.inr (h ▸ List.mem_cons_self)
    · exact Or.inr (List.mem_cons_of_mem w h)

theorem WellKinded.putAll {b : Buffer} (hb : b.WellKinded) (i : Nat) {vs : List Value}
    (hvs : ∀ v ∈ vs, v.At b.kind) : WellKinded { b with cells := Buffer.putAll b.cells i vs } := by
  intro v hv
  rcases mem_putAll hv with h | h
  · exact hb v h
  · exact hvs v h

theorem at_ofByte (byte : UInt8) : (ofByte byte).At .char := by
  simp [Value.At, ofByte, Value.convert, Value.toInt32]

theorem WellKinded.store? {b b' : Buffer} {bytes : List UInt8} (hb : b.WellKinded)
    (h : b.store? bytes = some b') : b'.WellKinded := by
  rw [Buffer.store?] at h
  split at h
  · rename_i hk
    cases h
    refine hb.putAll 0 fun v hv => hk.1 ▸ ?_
    rcases List.mem_append.1 hv with hv | hv
    · obtain ⟨byte, -, rfl⟩ := List.mem_map.1 hv
      exact at_ofByte byte
    · exact List.mem_singleton.1 hv ▸ Value.at_zero .char
  · cases h

@[simp] theorem kind_write (b : Buffer) (name : String) (i : Int32) (v : Value) :
    (b.write name i v).1.kind = b.kind := by
  rw [write]
  split
  · rename_i b' h
    obtain ⟨j, _, hj⟩ := Option.bind_eq_some_iff.1 h
    exact (set?_eq_some hj).1
  · rfl

@[simp] theorem length_write (b : Buffer) (name : String) (i : Int32) (v : Value) :
    (b.write name i v).1.length = b.length := by
  rw [write]
  split
  · rename_i b' h
    obtain ⟨j, _, hj⟩ := Option.bind_eq_some_iff.1 h
    exact (set?_eq_some hj).2.1
  · rfl

/-- Whether an index addresses a cell is told by the length. -/
theorem contains_of_length {b b' : Buffer} (h : b'.length = b.length) (i : Int32) :
    b'.contains i = b.contains i := by
  rw [contains, contains, h]

/-- A write inside the array has no warning and is read back. -/
theorem write_of_contains {b : Buffer} {i : Int32} (h : b.contains i = true) (name : String)
    (v : Value) :
    ∃ b', b.write name i v = (b', none) ∧ b'.read name i = .clean (v.convert b.kind) := by
  cases hp : place? i with
  | none => simp [contains, hp] at h
  | some j =>
    have hj : j < b.length := by simpa [contains, hp] using h
    obtain ⟨b', hb'⟩ := Option.isSome_iff_exists.1 ((set?_isSome b j v).trans (decide_eq_true hj))
    have hget := (set?_eq_some hb').2.2 j
    refine ⟨b', ?_, ?_⟩
    · simp [write, hp, hb']
    · simp [read, hp, hget]

theorem WellKinded.write {b : Buffer} (hb : b.WellKinded) (name : String) (i : Int32) (v : Value) :
    (b.write name i v).1.WellKinded := by
  rw [Buffer.write]
  split
  · rename_i b' h
    obtain ⟨j, _, hj⟩ := Option.bind_eq_some_iff.1 h
    exact hb.set? hj
  · exact hb

theorem WellKinded.kind_read {b : Buffer} (hb : b.WellKinded) (name : String) (i : Int32) :
    (b.read name i).value.kind = b.kind.asRead := by
  rw [read]
  split
  · rename_i v hv
    obtain ⟨j, -, hj⟩ := Option.bind_eq_some_iff.1 hv
    exact (hb v (Array.mem_of_getElem? hj)).kind_eq
  · exact Value.kind_zero b.kind

theorem store?_eq_some {b b' : Buffer} {bytes : List UInt8} (h : b.store? bytes = some b') :
    b'.kind = b.kind ∧ b'.length = b.length := by
  rw [store?] at h
  split at h
  · cases h; exact ⟨rfl, by simp [Buffer.length]⟩
  · cases h

end Buffer
end Yap
