/-! Bytes and characters. Text becomes its UTF-8 bytes; bytes become text with one
replacement character for each maximal ill-formed part. -/
namespace Yap.Text.Utf8

/-- The character that stands for an ill-formed part. -/
def replacement : Char := '\uFFFD'

def encode (s : List Char) : List UInt8 := s.flatMap String.utf8EncodeChar

@[simp] theorem encode_nil : encode [] = [] := rfl

@[simp] theorem encode_cons (c : Char) (s : List Char) :
    encode (c :: s) = String.utf8EncodeChar c ++ encode s := rfl

@[simp] theorem encode_append (s t : List Char) : encode (s ++ t) = encode s ++ encode t := by
  simp [encode]

def isTail (b : UInt8) : Bool := 0x80 ≤ b && b ≤ 0xBF

/-- The range of the second byte after a lead byte of three or four. -/
def secondRange (lead : UInt8) : UInt8 × UInt8 :=
  if lead = 0xE0 then (0xA0, 0xBF)
  else if lead = 0xED then (0x80, 0x9F)
  else if lead = 0xF0 then (0x90, 0xBF)
  else if lead = 0xF4 then (0x80, 0x8F)
  else (0x80, 0xBF)

def isSecond (lead b : UInt8) : Bool := (secondRange lead).1 ≤ b && b ≤ (secondRange lead).2

def low (b : UInt8) : Nat := b.toNat % 64

/-- The first character of some bytes and the number of bytes after the first that it takes.
An ill-formed start is the replacement character and takes the longest part that some
well-formed sequence begins with. -/
def head (lead : UInt8) (rest : List UInt8) : Char × Nat :=
  if lead < 0x80 then (Char.ofNat lead.toNat, 0)
  else if 0xC2 ≤ lead && lead ≤ 0xDF then
    match rest with
    | b :: _ =>
      if isTail b then (Char.ofNat (lead.toNat % 32 * 64 + low b), 1) else (replacement, 0)
    | [] => (replacement, 0)
  else if 0xE0 ≤ lead && lead ≤ 0xEF then
    match rest with
    | b :: c :: _ =>
      if isSecond lead b then
        if isTail c then (Char.ofNat (lead.toNat % 16 * 4096 + low b * 64 + low c), 2)
        else (replacement, 1)
      else (replacement, 0)
    | [b] => (replacement, if isSecond lead b then 1 else 0)
    | [] => (replacement, 0)
  else if 0xF0 ≤ lead && lead ≤ 0xF4 then
    match rest with
    | b :: c :: d :: _ =>
      if isSecond lead b then
        if isTail c then
          if isTail d then
            (Char.ofNat (lead.toNat % 8 * 262144 + low b * 4096 + low c * 64 + low d), 3)
          else (replacement, 2)
        else (replacement, 1)
      else (replacement, 0)
    | [b, c] => (replacement, if isSecond lead b then (if isTail c then 2 else 1) else 0)
    | [b] => (replacement, if isSecond lead b then 1 else 0)
    | [] => (replacement, 0)
  else (replacement, 0)

def decode : List UInt8 → List Char
  | [] => []
  | b :: bs => (head b bs).1 :: decode (bs.drop (head b bs).2)
termination_by bs => bs.length
decreasing_by simp only [List.length_drop, List.length_cons]; omega

@[simp] theorem decode_nil : decode [] = [] := by rw [decode]

theorem decode_cons (b : UInt8) (bs : List UInt8) :
    decode (b :: bs) = (head b bs).1 :: decode (bs.drop (head b bs).2) := by rw [decode]

/-- ASCII bytes are their own characters. -/
theorem decode_ascii (bs : List UInt8) (h : ∀ b ∈ bs, b < 0x80) :
    decode bs = bs.map fun b => Char.ofNat b.toNat := by
  induction bs with
  | nil => simp
  | cons b bs ih =>
    have hb := h b (by simp)
    have hd : head b bs = (Char.ofNat b.toNat, 0) := by simp [head, hb]
    rw [decode_cons, hd]
    simpa using ih fun c hc => h c (by simp [hc])

end Yap.Text.Utf8
