import Yap.Numeral.Power

/-! Digits of a natural number in a base, most significant first, and their texts.
Main statements: the digits denote the number again, and each is below the base. -/
namespace Yap.Numeral

/-- Puts the digits of `n` in front of `acc`; the fuel bounds their count. -/
def digitsOnto (base : Nat) : Nat → Nat → List Nat → List Nat
  | 0, _, acc => acc
  | fuel + 1, n, acc =>
    if n < base then n :: acc else digitsOnto base fuel (n / base) (n % base :: acc)

/-- The digits of `n`, most significant first; zero has the one digit zero. -/
def digits (base n : Nat) : List Nat := digitsOnto base (n.log2 + 1) n []

/-- The number that some digits denote, most significant first. -/
def ofDigits (base : Nat) (ds : List Nat) : Nat := ds.foldl (fun acc d => acc * base + d) 0

theorem foldl_digitsOnto (base : Nat) (hb : 2 ≤ base) (fuel n : Nat) (acc : List Nat)
    (h : n < twoTo fuel) :
    ofDigits base (digitsOnto base fuel n acc) = acc.foldl (fun acc d => acc * base + d) n := by
  induction fuel generalizing n acc with
  | zero => simp at h; subst h; rfl
  | succ fuel ih =>
    unfold digitsOnto
    split
    · simp [ofDigits]
    · have hlt : n / base < twoTo fuel := by
        rw [Nat.div_lt_iff_lt_mul (by omega)]
        calc n < twoTo fuel * 2 := by rw [← twoTo_succ]; exact h
          _ ≤ twoTo fuel * base := Nat.mul_le_mul_left _ hb
      rw [ih _ _ hlt, List.foldl_cons, Nat.mul_comm, Nat.div_add_mod]

theorem ofDigits_digits (base : Nat) (hb : 2 ≤ base) (n : Nat) :
    ofDigits base (digits base n) = n := by
  rw [digits, foldl_digitsOnto base hb _ n [] (lt_twoTo_log2_succ n)]
  rfl

theorem digitsOnto_lt (base : Nat) (hb : 0 < base) (fuel n : Nat) (acc : List Nat)
    (ha : ∀ d ∈ acc, d < base) : ∀ d ∈ digitsOnto base fuel n acc, d < base := by
  induction fuel generalizing n acc with
  | zero => exact ha
  | succ fuel ih =>
    unfold digitsOnto
    split
    · intro d hd
      rcases List.mem_cons.1 hd with rfl | hd
      · assumption
      · exact ha d hd
    · apply ih
      intro d hd
      rcases List.mem_cons.1 hd with rfl | hd
      · exact Nat.mod_lt _ hb
      · exact ha d hd

theorem digits_lt (base : Nat) (hb : 0 < base) (n : Nat) : ∀ d ∈ digits base n, d < base :=
  digitsOnto_lt base hb _ n [] (by simp)

theorem digitsOnto_ne_nil (base fuel n : Nat) (acc : List Nat) (h : 0 < fuel ∨ acc ≠ []) :
    digitsOnto base fuel n acc ≠ [] := by
  induction fuel generalizing n acc with
  | zero => simpa [digitsOnto] using h
  | succ fuel ih =>
    unfold digitsOnto
    split
    · simp
    · exact ih _ _ (.inr (by simp))

theorem digits_ne_nil (base n : Nat) : digits base n ≠ [] :=
  digitsOnto_ne_nil _ _ _ _ (.inl (by omega))

def digitChar (d : Nat) : Char := if d < 10 then Char.ofNat (48 + d) else Char.ofNat (87 + d)

def upperDigitChar (d : Nat) : Char := if d < 10 then Char.ofNat (48 + d) else Char.ofNat (55 + d)

def decimal (n : Nat) : List Char := (digits 10 n).map digitChar

/-- How many decimal digits a number has; zero has one. -/
def decimalLength (n : Nat) : Nat := (digits 10 n).length

def padZeros (length : Nat) (s : List Char) : List Char :=
  List.replicate (length - s.length) '0' ++ s

theorem length_padZeros (length : Nat) (s : List Char) :
    (padZeros length s).length = max length s.length := by
  simp [padZeros]; omega

end Yap.Numeral
