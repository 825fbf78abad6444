import Yap.Text.Printable

/-! Quoted text: what a message shows of an offending input. A quote, a backslash and the
usual controls are written as a letter after a backslash, other unprintable characters by
their code point. Main statement: what is written between the quotes holds no bare quote. -/
namespace Yap.Text.Quoted

def letter? : Char → Option Char
  | '\t' => some 't'
  | '\r' => some 'r'
  | '\n' => some 'n'
  | '\x00' => some '0'
  | '\\' => some '\\'
  | '"' => some '"'
  | _ => none

def hexDigit (d : Nat) : Char := if d < 10 then Char.ofNat (48 + d) else Char.ofNat (87 + d)

def hex (n : Nat) : List Char := (go (n + 1) n).reverse
where
  go : Nat → Nat → List Char
    | 0, _ => []
    | fuel + 1, n => if n < 16 then [hexDigit n] else hexDigit (n % 16) :: go fuel (n / 16)

def escape (c : Char) : List Char :=
  match letter? c with
  | some l => ['\\', l]
  | none =>
    if isPrintable c then [c] else ['\\', 'u', '\x7b'] ++ hex c.toNat ++ ['\x7d']

def body (s : List Char) : List Char := s.flatMap escape

def quote (s : String) : String := String.ofList ('"' :: body s.toList ++ ['"'])

/-- Every quote stands right behind a backslash that no other backslash takes. -/
def noBareQuote : List Char → Bool
  | [] => true
  | '\\' :: _ :: r => noBareQuote r
  | c :: r => c != '"' && noBareQuote r

theorem noBareQuote_append {a b : List Char} (ha : ∀ c ∈ a, c ≠ '\\' ∧ c ≠ '"')
    (hb : noBareQuote b = true) : noBareQuote (a ++ b) = true := by
  induction a with
  | nil => exact hb
  | cons c a ih =>
    have hc := ha c (by simp)
    have := ih fun d hd => ha d (by simp [hd])
    rw [List.cons_append]
    unfold noBareQuote
    split <;> simp_all

theorem hexDigit_plain (d : Nat) (h : d < 16) : hexDigit d ≠ '\\' ∧ hexDigit d ≠ '"' := by
  have key : ∀ d < 16, hexDigit d ≠ '\\' ∧ hexDigit d ≠ '"' := by decide
  exact key d h

theorem hex_plain (n : Nat) : ∀ c ∈ hex n, c ≠ '\\' ∧ c ≠ '"' := by
  have key : ∀ fuel n, ∀ c ∈ hex.go fuel n, c ≠ '\\' ∧ c ≠ '"' := by
    intro fuel
    induction fuel with
    | zero => simp [hex.go]
    | succ fuel ih =>
      intro n c hc
      unfold hex.go at hc
      split at hc
      · rename_i hn
        rw [List.mem_singleton] at hc
        exact hc ▸ hexDigit_plain n hn
      · rcases List.mem_cons.1 hc with hc | hc
        · exact hc ▸ hexDigit_plain _ (Nat.mod_lt _ (by decide))
        · exact ih _ c hc
  intro c hc
  exact key _ _ c (by simpa [hex] using hc)

theorem noBareQuote_body (s : List Char) : noBareQuote (body s) = true := by
  induction s with
  | nil => rfl
  | cons c s ih =>
    have hb : body (c :: s) = escape c ++ body s := rfl
    rw [hb]
    unfold escape
    split
    · simpa [noBareQuote] using ih
    · rename_i hl
      split
      · apply noBareQuote_append _ ih
        intro d hd
        rw [List.mem_singleton] at hd
        subst hd
        constructor <;> (rintro rfl; simp [letter?] at hl)
      · rw [List.append_assoc, List.append_assoc]
        have ht := noBareQuote_append (hex_plain c.toNat)
          (noBareQuote_append (b := body s) (a := ['\x7d']) (by simp) ih)
        simpa [noBareQuote] using ht

end Yap.Text.Quoted
