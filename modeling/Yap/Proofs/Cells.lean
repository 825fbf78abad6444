import Mathlib.Data.List.Induction
import Mathlib.Data.List.TakeWhile
import Yap.Proofs.Slots

/-! What the cells of an array hold. An array is a map of all its places: each holds what was stored
there last, and what is asked for outside is a zero. An array of chars holds bytes up to a zero.
Main statements: after any stores the cells are read back at every index, and a text that has room
is read back up to its first zero while the cells behind it stay. -/
namespace Yap
namespace Buffer

/-- A value stored in an array, at a place or at an index that is checked first. -/
inductive Store
  | set (i : Nat) (v : Value)
  | write (name : String) (index : Int32) (v : Value)

namespace Store

/-- The array behind a store, taken or refused. -/
def apply (b : Buffer) : Store → Buffer
  | set i v => (b.set? i v).getD b
  | write name index v => (b.write name index v).1

def applyAll (b : Buffer) (ss : List Store) : Buffer := ss.foldl apply b

def index : Store → Int
  | set i _ => i
  | write _ index _ => index.toInt

def value : Store → Value
  | set _ v => v
  | write _ _ v => v

/-- The value that was stored last at an index of an array of a kind, which starts with zeros. -/
def last (k : Kind) (ss : List Store) (i : Int) : Value :=
  match ss.reverse.find? (·.index = i) with
  | some s => s.value.convert k
  | none => .zero k

theorem last_concat (k : Kind) (ss : List Store) (s : Store) (i : Int) :
    last k (ss ++ [s]) i = if s.index = i then s.value.convert k else last k ss i := by
  rw [last, List.reverse_append, List.reverse_singleton, List.singleton_append, List.find?_cons]
  by_cases hi : s.index = i <;> simp [hi, last]

end Store

/-- Whether an index is inside is told by its value, wherever it is asked. -/
theorem contains_iff {b : Buffer} {index : Int32} :
    b.contains index = true ↔ 0 ≤ index.toInt ∧ index.toInt < b.length := by
  rw [contains]
  cases hp : place? index with
  | none => simp [place?_eq_none.1 hp]
  | some i =>
    have hi := place?_eq_some.1 hp
    simp only [decide_eq_true_eq]
    omega

theorem set?_eq_none {b : Buffer} {i : Nat} {v : Value} : b.set? i v = none ↔ b.length ≤ i := by
  rw [← Option.isNone_iff_eq_none, ← Option.not_isSome, set?_isSome]
  simp

theorem get?_set? (b : Buffer) (i : Nat) (v : Value) (j : Nat) :
    ((b.set? i v).getD b).get? j =
      if i = j ∧ j < b.length then some (v.convert b.kind) else b.get? j := by
  cases hs : b.set? i v with
  | none =>
    have hi := set?_eq_none.1 hs
    exact (if_neg fun h => by omega).symm
  | some b' =>
    have hi : i < b.length := by
      refine Nat.lt_of_not_le fun hle => ?_
      rw [set?_eq_none.2 hle] at hs
      cases hs
    rw [Option.getD_some, (set?_eq_some hs).2.2 j]
    exact if_congr ⟨fun h => ⟨h.symm, h ▸ hi⟩, fun h => h.1.symm⟩ rfl rfl

/-- A write is a store at the place of its index. -/
theorem fst_write (b : Buffer) (name : String) (index : Int32) (v : Value) :
    (b.write name index v).1 = ((place? index).bind (b.set? · v)).getD b := by
  rw [write]
  cases (place? index).bind (b.set? · v) <;> rfl

/-- A write outside changes nothing and has the warning that a read has there. -/
theorem write_of_not_contains {b : Buffer} {index : Int32} (h : b.contains index = false)
    (name : String) (v : Value) : b.write name index v = (b, some (b.outOfBounds name index)) := by
  cases hp : place? index with
  | none => rw [write, hp]; rfl
  | some i =>
    have hi : b.length ≤ i := by simpa [contains, hp] using h
    rw [write, hp, Option.bind_some, set?_eq_none.2 hi]

/-- The array is of this kind and length, and each of its places holds what the map has there. -/
structure Holds (b : Buffer) (k : Kind) (n : Nat) (f : Int → Value) : Prop where
  kind : b.kind = k
  length : b.length = n
  get? (i : Nat) : b.get? i = if i < n then some (f i) else none

namespace Holds

variable {b : Buffer} {k : Kind} {n : Nat} {f : Int → Value}

theorem set (h : b.Holds k n f) (i : Nat) (v : Value) :
    ((b.set? i v).getD b).Holds k n fun j => if (i : Int) = j then v.convert k else f j where
  kind := by
    cases hs : b.set? i v with
    | none => exact h.kind
    | some b' => exact (set?_eq_some hs).1.trans h.kind
  length := by
    cases hs : b.set? i v with
    | none => exact h.length
    | some b' => exact (set?_eq_some hs).2.1.trans h.length
  get? j := by
    rw [get?_set?, h.length, h.kind, h.get?]
    by_cases hj : j < n
    · by_cases hij : i = j
      · simp [hj, hij]
      · have hcast : ¬ (i : Int) = j := by omega
        simp only [hj, hij, hcast, false_and, if_true, if_false]
    · simp [hj]

theorem store (h : b.Holds k n f) (s : Store) :
    (s.apply b).Holds k n fun j => if s.index = j then s.value.convert k else f j := by
  cases s with
  | set i v => exact h.set i v
  | write name index v =>
    rw [Store.apply, fst_write]
    cases hp : place? index with
    | none =>
      have hnegative (i : Nat) : index.toInt ≠ i := fun hi =>
        place?_eq_none.1 hp (hi ▸ Int.natCast_nonneg i)
      refine ⟨h.kind, h.length, fun i => ?_⟩
      rw [Store.index, if_neg (hnegative i)]
      exact h.get? i
    | some i =>
      rw [Option.bind_some, Store.index, place?_eq_some.1 hp]
      exact h.set i v

theorem of_allocate? (h : allocate? k n = some b) : b.Holds k n fun _ => .zero k := by
  rw [allocate?] at h
  split at h
  · cases h
    refine ⟨rfl, by simp [Buffer.length], fun i => ?_⟩
    rw [Buffer.get?, Array.getElem?_replicate]
  · cases h

/-- Any number of stores leave behind what was stored last. -/
theorem applyAll (h : b.Holds k n (Store.last k [])) (ss : List Store) :
    (Store.applyAll b ss).Holds k n (Store.last k ss) := by
  induction ss using List.reverseRecOn with
  | nil => exact h
  | append_singleton ss s ih =>
    have hlast : Store.last k (ss ++ [s]) =
        fun j => if s.index = j then s.value.convert k else Store.last k ss j :=
      funext fun j => Store.last_concat k ss s j
    rw [Store.applyAll, List.foldl_append, hlast]
    exact ih.store s

/-- What an index reads is told by the map inside, and outside by the index alone. -/
theorem read (h : b.Holds k n f) (name : String) (index : Int32) :
    b.read name index =
      if 0 ≤ index.toInt ∧ index.toInt < n then .clean (f index.toInt)
      else .fallback (.zero k) (.indexOutOfBounds name index.toInt n) := by
  cases hp : place? index with
  | none =>
    rw [Buffer.read, hp, if_neg fun hin => place?_eq_none.1 hp hin.1, outOfBounds, h.kind, h.length]
    rfl
  | some i =>
    have hi := place?_eq_some.1 hp
    rw [Buffer.read, hp, Option.bind_some, h.get?, hi, outOfBounds, h.kind, h.length, hi]
    by_cases hin : i < n <;> simp [hin]

theorem contains_eq (h : b.Holds k n f) (index : Int32) :
    b.contains index = true ↔ 0 ≤ index.toInt ∧ index.toInt < n := by
  rw [contains_iff, h.length]

end Holds

/-- An array that is a map of its places, whatever is asked of it. Outside, a read is a zero with a
warning, a write changes nothing and has that warning, and a place is refused. -/
structure IsMap (b : Buffer) (k : Kind) (n : Nat) (f : Int → Value) : Prop where
  kind : b.kind = k
  length : b.length = n
  get? (i : Nat) : b.get? i = if i < n then some (f i) else none
  set? (i : Nat) (v : Value) : b.set? i v = none ↔ n ≤ i
  inside (name : String) (index : Int32) (v : Value) : 0 ≤ index.toInt ∧ index.toInt < n →
    b.read name index = .clean (f index.toInt) ∧ (b.write name index v).2 = none
  outside (name : String) (index : Int32) (v : Value) : ¬ (0 ≤ index.toInt ∧ index.toInt < n) →
    b.read name index = .fallback (.zero k) (.indexOutOfBounds name index.toInt n) ∧
      b.write name index v = (b, some (.indexOutOfBounds name index.toInt n))

theorem Holds.isMap {b : Buffer} {k : Kind} {n : Nat} {f : Int → Value} (h : b.Holds k n f) :
    b.IsMap k n f where
  kind := h.kind
  length := h.length
  get? := h.get?
  set? i v := by rw [set?_eq_none, h.length]
  inside name index v hin := by
    obtain ⟨b', hw, -⟩ := write_of_contains ((h.contains_eq index).2 hin) name v
    rw [h.read, if_pos hin, hw]
    exact ⟨rfl, rfl⟩
  outside name index v hout := by
    have hcontains : b.contains index = false :=
      Bool.eq_false_iff.2 fun hc => hout ((h.contains_eq index).1 hc)
    rw [h.read, if_neg hout, write_of_not_contains hcontains, outOfBounds, h.length]
    exact ⟨rfl, rfl⟩

/-- An array that takes no more bytes than there can be can be had, and behind any stores, at
whatever places and indices and of whatever values, it is of the kind and length that it was asked
for, and a map of its places to the values that were stored there last, at that kind, and to zeros
where there were none. -/
theorem arrays_total (k : Kind) (n : Nat) (hn : k.size * n ≤ byteLimit) :
    ∃ b, allocate? k n = some b ∧
      ∀ ss : List Store, (Store.applyAll b ss).IsMap k n (Store.last k ss) := by
  have hb : allocate? k n = some ⟨k, Array.replicate n (.zero k)⟩ := if_pos hn
  exact ⟨_, hb, fun ss => ((Holds.of_allocate? hb).applyAll ss).isMap⟩

/-- Stores in three chars: one is narrowed, two are outside, and one is stored over. -/
def stores : List Store :=
  [.set 1 (.int 300), .write "a" (-1) (.int 7), .set 4294967297 (.int 8), .write "a" 2 (.int 456),
    .write "a" 1 (.short 200)]

theorem arrays_total_chars :
    Kind.char.size * 3 ≤ byteLimit ∧ ∃ b, allocate? .char 3 = some b ∧
      (Store.applyAll b stores).get? 0 = some (.int 0) ∧
      (Store.applyAll b stores).read "a" 1 = .clean (.int (-56)) ∧
      (Store.applyAll b stores).read "a" 2 = .clean (.int (-56)) ∧
      (Store.applyAll b stores).write "a" (-1) (.int 7) =
        (Store.applyAll b stores, some (.indexOutOfBounds "a" (-1) 3)) := by
  have hn : Kind.char.size * 3 ≤ byteLimit := by decide
  obtain ⟨b, hb, hmap⟩ := arrays_total .char 3 hn
  have h := hmap stores
  exact ⟨hn, b, hb, h.get? 0, (h.inside "a" 1 (.int 0) (by decide)).1,
    (h.inside "a" 2 (.int 0) (by decide)).1, (h.outside "a" (-1) _ (by decide)).2⟩

/-- Only a zero is stored as a zero: a byte that is not ascii becomes negative. -/
theorem ofByte_eq_zero {byte : UInt8} : ofByte byte = .int 0 ↔ byte = 0 := by
  constructor
  · intro h
    have hbyte : byte = toByte (.int 0) := by rw [← h, toByte_ofByte]
    exact hbyte
  · rintro rfl
    rfl

/-- In front of the zero behind them, bytes are read up to their own first zero. -/
theorem takeWhile_map_ofByte (bytes : List UInt8) (rest : List Value) :
    (bytes.map ofByte ++ .int 0 :: rest).takeWhile (· ≠ .int 0) =
      (bytes.takeWhile (· ≠ 0)).map ofByte := by
  induction bytes with
  | nil => rfl
  | cons byte bytes ih =>
    rw [List.map_cons, List.cons_append, List.takeWhile_cons, List.takeWhile_cons]
    by_cases hzero : byte = 0
    · simp [hzero, ofByte_eq_zero]
    · have hstored : ofByte byte ≠ .int 0 := fun h => hzero (ofByte_eq_zero.1 h)
      rw [if_pos (decide_eq_true hstored), if_pos (decide_eq_true hzero), List.map_cons, ih]

/-- The bytes come first, then a zero, and behind that the cells are those there were. -/
theorem toList_cells_of_store? {b b' : Buffer} {bytes : List UInt8}
    (h : b.store? bytes = some b') : b'.cells.toList =
      bytes.map ofByte ++ .int 0 :: b.cells.toList.drop (bytes.length + 1) := by
  refine List.ext_getElem? fun i => ?_
  have hcell : b'.cells.toList[i]? = b'.get? i := Array.getElem?_toList
  rw [hcell, get?_of_store? h]
  rcases Nat.lt_trichotomy i bytes.length with hi | rfl | hi
  · simp [hi, List.getElem?_append_left]
  · simp
  · have hbehind : (bytes.map ofByte).length ≤ i := by simpa using Nat.le_of_lt hi
    obtain ⟨j, hj⟩ : ∃ j, i - bytes.length = j + 1 := ⟨i - bytes.length - 1, by omega⟩
    have hplace : bytes.length + 1 + j = i := by omega
    rw [List.getElem?_append_right hbehind, List.getElem?_append_right hbehind, List.length_map, hj,
      List.getElem?_cons_succ, List.getElem?_cons_succ, List.getElem?_nil, Option.none_or,
      List.getElem?_drop, hplace, Array.getElem?_toList]
    rfl

theorem kind_of_store? {b b' : Buffer} {bytes : List UInt8} (h : b.store? bytes = some b') :
    b'.kind = .char :=
  (store?_eq_some h).1.trans (store?_isSome.1 (Option.isSome_of_mem h)).1

theorem text?_of_store? {b b' : Buffer} {bytes : List UInt8} (h : b.store? bytes = some b') :
    b'.text? = some (bytes.takeWhile (· ≠ 0)) := by
  rw [text?, if_pos (kind_of_store? h), toList_cells_of_store? h, takeWhile_map_ofByte,
    List.map_map]
  simp [Function.comp_def]

/-- Bytes are stored in an array exactly if it is of chars and longer than they are. Then they are
read back up to their first zero, the array is as long as it was, and the elements behind the zero
that ends them are what they were. If not, the array stays. -/
theorem bytes_read_back (b : Buffer) (bytes : List UInt8) :
    ((b.store? bytes).isSome ↔ b.kind = .char ∧ bytes.length < b.length) ∧
    (∀ b', b.store? bytes = some b' →
      b'.text? = some (bytes.takeWhile (· ≠ 0)) ∧ (0 ∉ bytes → b'.text? = some bytes) ∧
      b'.kind = .char ∧ b'.length = b.length ∧ ∀ i, bytes.length < i → b'.get? i = b.get? i) ∧
    (¬ (b.kind = .char ∧ bytes.length < b.length) → (b.store? bytes).getD b = b) := by
  refine ⟨store?_isSome, fun b' h => ?_, fun hroom => ?_⟩
  · have htext := text?_of_store? h
    refine ⟨htext, fun hzero => ?_, kind_of_store? h, (store?_eq_some h).2, ?_⟩
    · rw [htext, List.takeWhile_eq_self_iff.2]
      intro byte hbyte
      exact decide_eq_true fun heq => hzero (heq ▸ hbyte)
    · intro i hi
      rw [get?_of_store? h, List.getElem?_eq_none (by simp; omega), Option.none_or]
  · rw [store?, if_neg hroom]
    rfl

def fiveChars : Buffer := ⟨.char, #[.int 1, .int 2, .int 3, .int 4, .int 5]⟩

def twoShorts : Buffer := ⟨.short, #[.short 1, .short 2]⟩

theorem bytes_read_back_negative : ∃ b, fiveChars.store? [0xC3, 0, 0x41] = some b ∧
    b.text? = some [0xC3] ∧ b.get? 4 = some (.int 5) ∧
    ¬ (twoShorts.kind = .char ∧ [0x41].length < twoShorts.length) ∧
    (twoShorts.store? [0x41]).getD twoShorts = twoShorts := by
  obtain ⟨hroom, hstored, -⟩ := bytes_read_back fiveChars [0xC3, 0, 0x41]
  obtain ⟨b, hb⟩ := Option.isSome_iff_exists.1 (hroom.2 (by decide))
  obtain ⟨htext, -, -, -, hbehind⟩ := hstored b hb
  have hshort : ¬ (twoShorts.kind = .char ∧ [0x41].length < twoShorts.length) := by decide
  obtain ⟨-, -, hkept⟩ := bytes_read_back twoShorts [0x41]
  exact ⟨b, hb, htext, hbehind 4 (by decide), hshort, hkept hshort⟩

end Buffer
end Yap
