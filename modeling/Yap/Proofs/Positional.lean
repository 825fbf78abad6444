import Mathlib.Data.List.DropRight
import Mathlib.Tactic.NormNum
import Mathlib.Tactic.Ring
import Yap.Format.Render
import Yap.Numeral.Reading

/-! Numbers in positional notation: digits, and behind a point perhaps more of them. Main statement:
the digits of a number with a point among them show that number scaled, the text without the zeros
at the end of its fraction shows the same one, and what a text shows is read back from it, with an
exponent behind it or without. -/
namespace Yap.Numeral

section Digits

variable {s t : List Char}

def AllDigits (s : List Char) : Prop := ∀ c ∈ s, c.isDigit = true

theorem AllDigits.append (hs : AllDigits s) (ht : AllDigits t) : AllDigits (s ++ t) :=
  List.forall_mem_append.2 ⟨hs, ht⟩

theorem AllDigits.left (h : AllDigits (s ++ t)) : AllDigits s := (List.forall_mem_append.1 h).1

theorem AllDigits.right (h : AllDigits (s ++ t)) : AllDigits t := (List.forall_mem_append.1 h).2

theorem allDigits_zeros (k : Nat) : AllDigits (List.replicate k '0') := by
  intro c hc
  rw [List.eq_of_mem_replicate hc]
  rfl

theorem isDigit_digitChar {d : Nat} (h : d < 10) : (digitChar d).isDigit = true := by
  decide +revert

theorem digitValue_digitChar {d : Nat} (h : d < 10) : digitValue (digitChar d) = d := by
  decide +revert

theorem allDigits_decimal (n : Nat) : AllDigits (decimal n) := by
  intro c hc
  obtain ⟨d, hd, rfl⟩ := List.mem_map.1 hc
  exact isDigit_digitChar (digits_lt 10 (by decide) n d hd)

theorem decimal_ne_nil (n : Nat) : decimal n ≠ [] := by
  simp [decimal, digits_ne_nil]

theorem natOf_decimal (n : Nat) : natOf (decimal n) = n := by
  have hvalues : (decimal n).map digitValue = (digits 10 n).map id := by
    rw [decimal, List.map_map]
    exact List.map_congr_left fun d hd =>
      digitValue_digitChar (digits_lt 10 (by decide) n d hd)
  rw [natOf, hvalues, List.map_id, ofDigits_digits 10 (by decide)]

theorem foldl_digits_eq (ds : List Nat) (n : Nat) :
    ds.foldl (fun n d => n * 10 + d) n = n * tenTo ds.length + ofDigits 10 ds := by
  induction ds generalizing n with
  | nil => simp [ofDigits]
  | cons d ds ih =>
    have hd : ofDigits 10 (d :: ds) = (0 * 10 + d) * tenTo ds.length + ofDigits 10 ds := ih _
    rw [List.foldl_cons, ih, hd, List.length_cons, tenTo_succ]
    ring

/-- Digits behind others add to the number that these denote, scaled. -/
theorem natOf_append (s t : List Char) : natOf (s ++ t) = natOf s * tenTo t.length + natOf t := by
  rw [natOf, List.map_append, ofDigits, List.foldl_append, foldl_digits_eq, List.length_map]
  rfl

theorem natOf_cons (c : Char) (s : List Char) :
    natOf (c :: s) = digitValue c * tenTo s.length + natOf s := by
  have h := natOf_append [c] s
  rw [List.singleton_append] at h
  rw [h]
  simp [natOf, ofDigits]

theorem natOf_zeros (k : Nat) : natOf (List.replicate k '0') = 0 := by
  induction k with
  | zero => rfl
  | succ k ih => rw [List.replicate_succ', natOf_append, ih]; rfl

theorem natOf_padZeros (k : Nat) (s : List Char) : natOf (padZeros k s) = natOf s := by
  rw [padZeros, natOf_append, natOf_zeros, Nat.zero_mul, Nat.zero_add]

theorem allDigits_padZeros (k : Nat) (h : AllDigits s) : AllDigits (padZeros k s) :=
  (allDigits_zeros _).append h

theorem padZeros_ne_nil (k : Nat) (h : s ≠ []) : padZeros k s ≠ [] := by
  simp [padZeros, h]

end Digits

/-- A text of digits, perhaps with more of them behind a point, and the number that it shows. -/
inductive Shows : ℚ → List Char → Prop
  | whole {w : List Char} : AllDigits w → w ≠ [] → Shows (natOf w) w
  | point {w p : List Char} : AllDigits w → w ≠ [] → AllDigits p →
      Shows (natOf (w ++ p) / 10 ^ p.length) (w ++ '.' :: p)

section Showing

variable {v : ℚ} {s : List Char}

theorem shows_pointed (places n : Nat) : Shows (n / 10 ^ places) (pointed places (decimal n)) := by
  have hdigits := allDigits_padZeros (places + 1) (allDigits_decimal n)
  have hvalue : natOf (padZeros (places + 1) (decimal n)) = n := by
    rw [natOf_padZeros, natOf_decimal]
  have hlength := length_padZeros (places + 1) (decimal n)
  rw [pointed]
  generalize padZeros (places + 1) (decimal n) = s at hdigits hvalue hlength
  split
  · rename_i hzero
    have hne : s ≠ [] := List.ne_nil_of_length_pos (by omega)
    simpa [hzero, hvalue] using Shows.whole hdigits hne
  · have hsplit := List.take_append_drop (s.length - places) s
    have hp : (s.drop (s.length - places)).length = places := by
      rw [List.length_drop]
      omega
    have hne : s.take (s.length - places) ≠ [] :=
      List.ne_nil_of_length_pos (by rw [List.length_take]; omega)
    rw [← hsplit] at hdigits
    have hshows := Shows.point hdigits.left hne hdigits.right
    rwa [hsplit, hvalue, hp] at hshows

end Showing

/-- A text with no zero at the end of a fraction, and no point with nothing behind it. -/
def Stripped (s : List Char) : Prop := '.' ∈ s → ∀ c ∈ s.getLast?, c ≠ '0' ∧ c ≠ '.'

section Stripping

open Format (stripFraction)

variable {s w : List Char} {c : Char}

theorem AllDigits.point_notMem (h : AllDigits s) : '.' ∉ s := fun hmem => by
  have hdigit := h '.' hmem
  revert hdigit
  decide

theorem stripFraction_of_mem (h : '.' ∈ s) :
    stripFraction s = (s.rdropWhile (· == '0')).rdropWhile (· == '.') := by
  rw [stripFraction, if_pos (List.contains_iff_mem.2 h)]
  simp only [List.rdropWhile, List.reverse_reverse]

theorem stripFraction_zero (h : '.' ∈ s) : stripFraction (s ++ ['0']) = stripFraction s := by
  rw [stripFraction_of_mem h, stripFraction_of_mem (List.mem_append_left _ h),
    List.rdropWhile_concat_pos _ _ _ (by decide)]

theorem stripFraction_digit (h : '.' ∈ s) (hz : c ≠ '0') (hp : c ≠ '.') :
    stripFraction (s ++ [c]) = s ++ [c] := by
  rw [stripFraction_of_mem (List.mem_append_left _ h),
    List.rdropWhile_concat_neg _ _ _ (by simpa using hz),
    List.rdropWhile_concat_neg _ _ _ (by simpa using hp)]

theorem stripFraction_point (hw : AllDigits w) : stripFraction (w ++ ['.']) = w := by
  rw [stripFraction_of_mem (by simp), List.rdropWhile_concat_neg _ _ _ (by decide),
    List.rdropWhile_concat_pos _ _ _ (by decide), List.rdropWhile_eq_self_iff]
  intro hne hlast
  refine hw.point_notMem ?_
  rw [← eq_of_beq hlast]
  exact List.getLast_mem hne

/-- A zero at the end of a fraction adds nothing. -/
theorem value_fraction_zero (w p : List Char) :
    (natOf (w ++ (p ++ ['0'])) / 10 ^ (p ++ ['0']).length : ℚ) =
      natOf (w ++ p) / 10 ^ p.length := by
  have hzero : natOf (w ++ (p ++ ['0'])) = natOf (w ++ p) * 10 := by
    rw [← List.append_assoc, natOf_append]
    rfl
  rw [hzero, List.length_append, List.length_singleton, pow_succ, Nat.cast_mul]
  exact mul_div_mul_right _ _ (by norm_num)

/-- Without the zeros at the end of its fraction a text shows the same number. -/
theorem Shows.stripFraction {v : ℚ} (h : Shows v s) :
    Shows v (stripFraction s) ∧ Stripped (stripFraction s) := by
  cases h with
  | whole hw hne =>
    have hsame : Format.stripFraction s = s := if_neg (by simpa using hw.point_notMem)
    rw [hsame]
    exact ⟨.whole hw hne, fun hmem => absurd hmem hw.point_notMem⟩
  | @point w p hw hne hp =>
    -- From the end of the fraction: a zero is dropped, any other digit ends the text.
    induction p using List.reverseRecOn with
    | nil =>
      rw [stripFraction_point hw]
      refine ⟨?_, fun hmem => absurd hmem hw.point_notMem⟩
      simpa using Shows.whole hw hne
    | append_singleton p c ih =>
      have hmem : '.' ∈ w ++ '.' :: p := by simp
      have hassoc : w ++ '.' :: (p ++ [c]) = w ++ '.' :: p ++ [c] := by simp
      by_cases hz : c = '0'
      · subst hz
        rw [hassoc, stripFraction_zero hmem, value_fraction_zero]
        exact ih hp.left
      · have hdigit := hp.right c (by simp)
        have hpoint : c ≠ '.' := fun hc => by simp [hc] at hdigit
        have hshows := Shows.point hw hne hp
        rw [hassoc] at hshows ⊢
        rw [stripFraction_digit hmem hz hpoint]
        refine ⟨hshows, fun _ d hd => ?_⟩
        rw [List.getLast?_concat] at hd
        cases hd
        exact ⟨hz, hpoint⟩

end Stripping

section Reading

variable {v : ℚ} {s : List Char}

def Written.number? : Written → Option ℚ
  | .number negative ds exp => some ((if negative then -1 else 1) * (ds * 10 ^ exp))
  | _ => none

def numberOf? (s : List Char) : Option ℚ := (readFloat? s).bind Written.number?

theorem toLower_of_isDigit {c : Char} (h : c.isDigit = true) : c.toLower = c := by
  rw [Char.isDigit, Bool.and_eq_true, decide_eq_true_eq, decide_eq_true_eq] at h
  refine dif_neg fun hupper => ?_
  exact absurd (UInt32.le_trans hupper.1 h.2) (by decide)

theorem takeSign_of_isDigit {c : Char} (h : c.isDigit = true) (s : List Char) :
    takeSign (c :: s) = (1, c :: s) := by
  unfold takeSign
  split
  case h_3 => rfl
  all_goals
    rename_i heq
    cases heq
    cases h

/-- A text that starts with a digit is no word. -/
theorem readFloat?_of_isDigit {c : Char} (h : c.isDigit = true) (s : List Char) :
    readFloat? (c :: s) = readDecimal? false (c :: s) := by
  rw [readFloat?, takeSign_of_isDigit h]
  dsimp only
  rw [List.map_cons, toLower_of_isDigit h]
  split
  case h_4 => rfl
  all_goals
    rename_i heq
    obtain ⟨rfl, -⟩ := List.cons.inj heq
    cases h

/-- What an exponent is read from does not start with a digit or a point. -/
theorem head_of_readExponent? {t : List Char} {x : Int} (h : readExponent? t = some x) :
    ∀ c ∈ t.head?, c.isDigit = false ∧ c ≠ '.' := by
  rintro c hc
  obtain ⟨t, rfl⟩ := List.head?_eq_some_iff.1 hc
  have hmark : c = 'e' ∨ c = 'E' := by
    rw [readExponent?] at h
    split at h
    · assumption
    · cases h
  rcases hmark with rfl | rfl <;> decide

theorem takeWhile_digits {w t : List Char} (hw : AllDigits w)
    (ht : ∀ c ∈ t.head?, c.isDigit = false) :
    (w ++ t).takeWhile Char.isDigit = w ∧ (w ++ t).dropWhile Char.isDigit = t := by
  rw [List.takeWhile_append_of_pos hw, List.dropWhile_append_of_pos hw]
  cases t with
  | nil => simp
  | cons c t => simp [ht c rfl]

/-- What a text shows is read back from it, with an exponent behind it. -/
theorem Shows.readDecimal? (h : Shows v s) {t : List Char} {x : Int}
    (ht : readExponent? t = some x) :
    ∃ (n : Nat) (y : Int), readDecimal? false (s ++ t) = some (.number false n y) ∧
      (n * 10 ^ y : ℚ) = v * 10 ^ x := by
  have hhead := head_of_readExponent? ht
  have htail : ∀ c ∈ t.head?, c.isDigit = false := fun c hc => (hhead c hc).1
  cases h with
  | whole hw hne =>
    obtain ⟨htake, hdrop⟩ := takeWhile_digits hw htail
    refine ⟨natOf s, x, ?_, rfl⟩
    rw [Numeral.readDecimal?, htake, hdrop]
    split
    rename_i part tail hparts
    have hsplit : part = [] ∧ tail = t := by
      split at hparts
      · exact absurd rfl (hhead '.' rfl).2
      · cases hparts
        exact ⟨rfl, rfl⟩
    obtain ⟨rfl, rfl⟩ := hsplit
    simp [hne, ht]
  | @point w p hw hne hp =>
    obtain ⟨htake, hdrop⟩ := takeWhile_digits (t := '.' :: (p ++ t)) hw (by simp)
    obtain ⟨htake', hdrop'⟩ := takeWhile_digits hp htail
    refine ⟨natOf (w ++ p), x - p.length, ?_, ?_⟩
    · rw [List.append_assoc, List.cons_append, Numeral.readDecimal?, htake, hdrop]
      simp [htake', hdrop', ht, hne]
    · rw [zpow_sub₀ (by norm_num), zpow_natCast]
      ring

theorem Shows.starts (h : Shows v s) : ∃ c t, c.isDigit = true ∧ s = c :: t := by
  have hstart {w : List Char} (hw : AllDigits w) (hne : w ≠ []) :
      ∃ c t, c.isDigit = true ∧ w = c :: t := by
    obtain ⟨c, t, rfl⟩ := List.exists_cons_of_ne_nil hne
    exact ⟨c, t, hw c List.mem_cons_self, rfl⟩
  cases h with
  | whole hw hne => exact hstart hw hne
  | point hw hne hp =>
    obtain ⟨c, t, hc, rfl⟩ := hstart hw hne
    exact ⟨c, _, hc, rfl⟩

/-- What a text shows is the number that it reads back as. -/
theorem Shows.numberOf? (h : Shows v s) {t : List Char} {x : Int}
    (ht : readExponent? t = some x) : numberOf? (s ++ t) = some (v * 10 ^ x) := by
  obtain ⟨n, y, hread, hvalue⟩ := h.readDecimal? ht
  obtain ⟨c, s, hc, rfl⟩ := h.starts
  rw [List.cons_append] at hread ⊢
  rw [Numeral.numberOf?, readFloat?_of_isDigit hc, hread, ← hvalue]
  simp [Written.number?]

end Reading

/-- The exponent in a text is the one that it was written for. -/
theorem readExponent?_exponentText (upper : Bool) (x : Int) :
    readExponent? (Format.exponentText upper x) = some x := by
  have hdigits := allDigits_padZeros 2 (allDigits_decimal x.natAbs)
  have hvalue : natOf (padZeros 2 (decimal x.natAbs)) = x.natAbs := by
    rw [natOf_padZeros, natOf_decimal]
  have hne := padZeros_ne_nil 2 (decimal_ne_nil x.natAbs)
  have hmark : (if upper then 'E' else 'e') = 'e' ∨ (if upper then 'E' else 'e') = 'E' := by
    cases upper <;> decide
  obtain ⟨c, t, hcons⟩ := List.exists_cons_of_ne_nil hne
  rw [hcons] at hdigits hvalue
  have hall : (c :: t).all Char.isDigit = true := List.all_eq_true.2 hdigits
  rw [Format.exponentText, hcons, readExponent?, if_pos hmark]
  by_cases hx : x < 0
  · simp only [hx, if_true, takeSign, hall, hvalue, Option.some.injEq]
    omega
  · simp only [hx, if_false, takeSign, hall, if_true, hvalue, Option.some.injEq]
    omega

/-- A point behind a number without decimals adds nothing. -/
theorem shows_withPoint (alt : Bool) (places n : Nat) :
    Shows (n / 10 ^ places) (Format.withPoint alt places (pointed places (decimal n))) := by
  have hshows := shows_pointed places n
  rw [Format.withPoint]
  split
  · rename_i hpoint
    obtain ⟨-, hzero⟩ := Bool.and_eq_true_iff.1 hpoint
    obtain rfl := eq_of_beq hzero
    have hpointed : pointed 0 (decimal n) = padZeros 1 (decimal n) := rfl
    have hdigits := allDigits_padZeros 1 (allDigits_decimal n)
    have hne := padZeros_ne_nil 1 (decimal_ne_nil n)
    have hnone : AllDigits [] := by simp [AllDigits]
    simpa [hpointed, natOf_padZeros, natOf_decimal] using Shows.point hdigits hne hnone
  · exact hshows

end Yap.Numeral
