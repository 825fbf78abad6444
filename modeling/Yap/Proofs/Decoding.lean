import Mathlib.Tactic.SplitIfs
import Yap.Text.Utf8

/-! Bytes that are the bytes of some text. Main statement: the bytes of a text stand for that text,
whatever is behind them, so bytes are those of a text exactly if they are what becomes of them when
they are read as text and written again. -/
namespace Yap.Text.Utf8

/-- The bytes are those of a text. -/
def WellFormed (bs : List UInt8) : Prop := ∃ s, bs = encode s

section Bytes

variable {l n v : Nat}

theorem toNat_byte (h : n < 256) : (UInt8.ofNat n).toNat = n := UInt8.toNat_ofNat_of_lt h

theorem byte_eq_iff (h : l < 256) (b : UInt8) : UInt8.ofNat l = b ↔ l = b.toNat := by
  rw [← UInt8.toNat_inj, toNat_byte h]

theorem not_ascii_byte (h : n < 256) (h' : 128 ≤ n) : ¬ UInt8.ofNat n < 0x80 := by
  rw [UInt8.lt_iff_toNat_lt, toNat_byte h]
  exact Nat.not_lt.2 h'

theorem between_byte {a b : UInt8} (h : n < 256) (ha : a.toNat ≤ n) (hb : n ≤ b.toNat) :
    (a ≤ UInt8.ofNat n && UInt8.ofNat n ≤ b) = true := by
  simp [UInt8.le_iff_toNat_le, Nat.mod_eq_of_lt h, ha, hb]

theorem not_between_byte {b : UInt8} (h : n < 256) (hb : b.toNat < n) (a : UInt8) :
    ¬ (a ≤ UInt8.ofNat n && UInt8.ofNat n ≤ b) = true := by
  simp [UInt8.le_iff_toNat_le, Nat.mod_eq_of_lt h, hb]

theorem isTail_tail (n : Nat) : isTail (UInt8.ofNat (n % 64 + 128)) = true :=
  between_byte (by omega) (show 128 ≤ _ by omega) (show _ ≤ 191 by omega)

theorem low_tail (n : Nat) : low (UInt8.ofNat (n % 64 + 128)) = n % 64 := by
  rw [low, toNat_byte (by omega)]
  omega

/-- A byte behind a lead is in the range that the lead allows. -/
theorem isSecond_tail (h : l < 256) (hE0 : l = 0xE0 → 0x20 ≤ n % 64)
    (hED : l = 0xED → n % 64 < 0x20) (hF0 : l = 0xF0 → 0x10 ≤ n % 64) (hF4 : l = 0xF4 → n % 64 < 0x10) :
    isSecond (UInt8.ofNat l) (UInt8.ofNat (n % 64 + 128)) = true := by
  have hn : n % 64 + 128 < 256 := by omega
  rw [isSecond, secondRange]
  simp only [byte_eq_iff h]
  split_ifs with h₁ h₂ h₃ h₄
  · have := hE0 h₁
    exact between_byte hn (show 0xA0 ≤ _ by omega) (show _ ≤ 0xBF by omega)
  · have := hED h₂
    exact between_byte hn (show 0x80 ≤ _ by omega) (show _ ≤ 0x9F by omega)
  · have := hF0 h₃
    exact between_byte hn (show 0x90 ≤ _ by omega) (show _ ≤ 0xBF by omega)
  · have := hF4 h₄
    exact between_byte hn (show 0x80 ≤ _ by omega) (show _ ≤ 0x8F by omega)
  · exact isTail_tail n

theorem head_ascii {b : UInt8} (h : b < 0x80) (rest : List UInt8) :
    head b rest = (Char.ofNat b.toNat, 0) := by
  unfold head
  exact if_pos h

theorem head_two (h : 0x7F < v) (h' : v ≤ 0x7FF) (rest : List UInt8) :
    head (UInt8.ofNat (v / 64 % 32 + 192)) (UInt8.ofNat (v % 64 + 128) :: rest) =
      (Char.ofNat v, 1) := by
  have hl : v / 64 % 32 + 192 < 256 := by omega
  have hv : (v / 64 % 32 + 192) % 32 * 64 + v % 64 = v := by omega
  rw [head, if_neg (not_ascii_byte hl (by omega)),
    if_pos (between_byte hl (show 0xC2 ≤ _ by omega) (show _ ≤ 0xDF by omega))]
  simp only [isTail_tail, if_true, low_tail, toNat_byte hl, hv]

theorem head_three (h : 0x7FF < v) (h' : v ≤ 0xFFFF) (hs : v < 0xD800 ∨ 0xDFFF < v)
    (rest : List UInt8) :
    head (UInt8.ofNat (v / 4096 % 16 + 224))
      (UInt8.ofNat (v / 64 % 64 + 128) :: UInt8.ofNat (v % 64 + 128) :: rest) =
      (Char.ofNat v, 2) := by
  have hl : v / 4096 % 16 + 224 < 256 := by omega
  have hv : (v / 4096 % 16 + 224) % 16 * 4096 + v / 64 % 64 * 64 + v % 64 = v := by omega
  have hsecond := isSecond_tail (n := v / 64) hl (by omega) (by omega) (by omega) (by omega)
  rw [head, if_neg (not_ascii_byte hl (by omega)),
    if_neg (not_between_byte hl (show 0xDF < _ by omega) _),
    if_pos (between_byte hl (show 0xE0 ≤ _ by omega) (show _ ≤ 0xEF by omega))]
  simp only [hsecond, isTail_tail, if_true, low_tail, toNat_byte hl, hv]

theorem head_four (h : 0xFFFF < v) (h' : v < 0x110000) (rest : List UInt8) :
    head (UInt8.ofNat (v / 262144 % 8 + 240)) (UInt8.ofNat (v / 4096 % 64 + 128) ::
      UInt8.ofNat (v / 64 % 64 + 128) :: UInt8.ofNat (v % 64 + 128) :: rest) =
      (Char.ofNat v, 3) := by
  have hl : v / 262144 % 8 + 240 < 256 := by omega
  have hv : (v / 262144 % 8 + 240) % 8 * 262144 + v / 4096 % 64 * 4096 + v / 64 % 64 * 64 +
      v % 64 = v := by omega
  have hsecond := isSecond_tail (n := v / 4096) hl (by omega) (by omega) (by omega) (by omega)
  rw [head, if_neg (not_ascii_byte hl (by omega)),
    if_neg (not_between_byte hl (show 0xDF < _ by omega) _),
    if_neg (not_between_byte hl (show 0xEF < _ by omega) _),
    if_pos (between_byte hl (show 0xF0 ≤ _ by omega) (show _ ≤ 0xF4 by omega))]
  simp only [hsecond, isTail_tail, if_true, low_tail, toNat_byte hl, hv]

end Bytes

section Characters

variable {c : Char}

theorem encodeChar_ascii (hc : c.toNat < 128) :
    String.utf8EncodeChar c = [UInt8.ofNat c.toNat] := by
  have hc' : c.val.toNat ≤ 127 := Nat.le_of_lt_succ hc
  simp only [String.utf8EncodeChar, hc', if_true]
  rfl

/-- The bytes of a character beyond the first 128 stand for no such character. -/
theorem encodeChar_wide (hc : ¬ c.toNat < 128) : ∀ b ∈ String.utf8EncodeChar c, ¬ b < 0x80 := by
  have hc' : ¬ c.val.toNat ≤ 127 := fun h => hc (Nat.lt_succ_of_le h)
  have hb {n : Nat} (h : n < 256 ∧ 128 ≤ n) : ¬ UInt8.ofNat n < 0x80 := not_ascii_byte h.1 h.2
  simp only [String.utf8EncodeChar, hc', if_false]
  split
  · simp only [List.forall_mem_cons]
    exact ⟨hb (by omega), hb (by omega), nofun⟩
  · split
    · simp only [List.forall_mem_cons]
      exact ⟨hb (by omega), hb (by omega), hb (by omega), nofun⟩
    · simp only [List.forall_mem_cons]
      exact ⟨hb (by omega), hb (by omega), hb (by omega), hb (by omega), nofun⟩

end Characters

/-- The bytes of a character stand for it, whatever is behind them. -/
theorem head_encodeChar (c : Char) :
    ∃ b bs, String.utf8EncodeChar c = b :: bs ∧ ∀ rest, head b (bs ++ rest) = (c, bs.length) := by
  have hc (n : Nat) : (Char.ofNat c.val.toNat, n) = (c, n) := congrArg (·, n) (Char.ofNat_toNat c)
  have hmax : c.val.toNat < 0x110000 := by
    have := c.valid
    omega
  have hs : c.val.toNat < 0xD800 ∨ 0xDFFF < c.val.toNat := c.valid.imp id And.left
  simp only [String.utf8EncodeChar]
  split
  · rename_i h
    have hn : c.val.toNat < 256 := by omega
    have hlt : UInt8.ofNat c.val.toNat < 0x80 := by
      rw [UInt8.lt_iff_toNat_lt, toNat_byte hn]
      exact Nat.lt_succ_of_le h
    refine ⟨_, _, rfl, fun rest => (head_ascii hlt rest).trans ?_⟩
    rw [toNat_byte hn]
    exact hc 0
  · split
    · exact ⟨_, _, rfl, fun rest => (head_two (by omega) (by omega) rest).trans (hc 1)⟩
    · split
      · exact ⟨_, _, rfl, fun rest => (head_three (by omega) (by omega) hs rest).trans (hc 2)⟩
      · exact ⟨_, _, rfl, fun rest => (head_four (by omega) hmax rest).trans (hc 3)⟩

theorem decode_encode_append (s : List Char) (bs : List UInt8) :
    decode (encode s ++ bs) = s ++ decode bs := by
  induction s with
  | nil => rfl
  | cons c s ih =>
    obtain ⟨b, tail, hb, hhead⟩ := head_encodeChar c
    rw [encode_cons, hb, List.append_assoc, List.cons_append, decode_cons, hhead, List.drop_left,
      ih]
    rfl

theorem decode_encode (s : List Char) : decode (encode s) = s := by
  simpa using decode_encode_append s []

theorem wellFormed_iff {bs : List UInt8} : WellFormed bs ↔ encode (decode bs) = bs := by
  constructor
  · rintro ⟨s, rfl⟩
    rw [decode_encode]
  · exact fun h => ⟨decode bs, h.symm⟩

/-- What is in front of a byte below 128 are the bytes of a text by themselves. -/
theorem WellFormed.of_append {bs rest : List UInt8} {b : UInt8} (h : WellFormed (bs ++ b :: rest))
    (hb : b < 0x80) : WellFormed bs := by
  obtain ⟨s, hs⟩ := h
  induction s generalizing bs with
  | nil => simp at hs
  | cons c s ih =>
    rw [encode_cons, List.append_eq_append_iff] at hs
    rcases hs with ⟨d, hd, hrest⟩ | ⟨d, rfl, hrest⟩
    · cases d with
      | nil => exact ⟨[c], by simpa using hd.symm⟩
      | cons b' d =>
        obtain ⟨rfl, -⟩ := List.cons_eq_cons.1 hrest
        by_cases hc : c.toNat < 128
        · have hone := hd.symm.trans (encodeChar_ascii hc)
          obtain ⟨rfl, -⟩ | ⟨-, hnil⟩ := List.append_eq_singleton_iff.1 hone
          · exact ⟨[], rfl⟩
          · cases hnil
        · exact absurd hb (encodeChar_wide hc b (by simp [hd]))
    · obtain ⟨t, rfl⟩ := ih hrest.symm
      exact ⟨c :: t, rfl⟩

/-- Bytes that are read as text and written again become others, and neither with a zero behind
starts with the other one, unless they are the bytes of a text. -/
theorem wellFormed_of_prefix {bs : List UInt8}
    (h : bs ++ [0] <+: encode (decode bs) ++ [0] ∨ encode (decode bs) ++ [0] <+: bs ++ [0]) :
    WellFormed bs := by
  rcases h with h | h
  · rcases List.prefix_concat_iff.1 h with heq | ⟨u, hu⟩
    · exact ⟨decode bs, List.append_cancel_right heq⟩
    · -- the zero ends a character of the text that is written
      rw [List.append_assoc] at hu
      exact WellFormed.of_append ⟨_, hu⟩ (by decide)
  · rcases List.prefix_concat_iff.1 h with heq | ⟨u, hu⟩
    · exact ⟨decode bs, (List.append_cancel_right heq).symm⟩
    · -- the zero would be a character more than there are
      exfalso
      rw [List.append_assoc] at hu
      have hd := decode_encode_append (decode bs) ([0] ++ u)
      rw [hu, List.singleton_append, decode_cons] at hd
      exact List.cons_ne_nil _ _ (List.self_eq_append_right.1 hd)

end Yap.Text.Utf8
