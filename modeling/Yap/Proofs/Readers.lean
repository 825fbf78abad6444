import Yap.Proofs.LineReaders
import Yap.Proofs.Positional

/-! Lines that denote integers. Digits are read one by one, and what is read must keep to 64 bits at
each of them. Main statement: a line that is short enough gives the integer that it denotes, or is
refused for its range or for its form, exactly if it does not go on behind digits that leave 64
bits. -/
namespace Yap

namespace Numeral

/-- A sign in front of digits, perhaps none, and the factor that it stands for. -/
inductive IsSign : List Char → Int → Prop
  | none : IsSign [] 1
  | plus : IsSign ['+'] 1
  | minus : IsSign ['-'] (-1)

/-- The integer that a text denotes: an optional sign, and one or more digits. -/
def Denotes (s : List Char) (n : Int) : Prop :=
  ∃ sign factor ds, IsSign sign factor ∧ s = sign ++ ds ∧ ds ≠ [] ∧ AllDigits ds ∧
    n = factor * natOf ds

/-- Integers of 64 bits. -/
def Fits (n : Int) : Prop := -9223372036854775808 ≤ n ∧ n < 9223372036854775808

instance (n : Int) : Decidable (Fits n) := instDecidableAnd

/-- A text that goes on behind digits that leave 64 bits. -/
def Overruns (s : List Char) : Prop :=
  ∃ sign factor ds c rest, IsSign sign factor ∧ s = sign ++ (ds ++ c :: rest) ∧ AllDigits ds ∧
    c.isDigit = false ∧ ¬ Fits (factor * natOf ds)

section Digits

variable {factor n : Int} {s t sign : List Char}

theorem IsSign.eq_one_or (h : IsSign sign factor) : factor = 1 ∨ factor = -1 := by
  cases h <;> decide

/-- Where there are no digits the number is zero. -/
theorem fits_natOf_nil (factor : Int) : Fits (factor * natOf []) := by
  have hzero : factor * natOf [] = 0 := mul_zero factor
  rw [hzero]
  decide

theorem Fits.of_le {a b : Nat} (hf : factor = 1 ∨ factor = -1) (hle : a ≤ b)
    (h : Fits (factor * b)) : Fits (factor * a) := by
  rw [Fits] at h ⊢
  rcases hf with rfl | rfl <;> omega

/-- Digits are read on as long as the number fits. -/
theorem readDigits_append (hf : factor = 1 ∨ factor = -1) {ds : List Char} (hd : AllDigits ds)
    (rest : List Char) {a : Nat} (ha : Fits (factor * a)) :
    readDigits factor (ds ++ rest) (factor * a) =
      if Fits (factor * (a * tenTo ds.length + natOf ds : Nat)) then
        readDigits factor rest (factor * (a * tenTo ds.length + natOf ds : Nat))
      else .error .tooLarge := by
  induction ds generalizing a with
  | nil =>
    have hnil : a * tenTo ([] : List Char).length + natOf [] = a := Nat.mul_one a
    rw [hnil, if_pos ha, List.nil_append]
  | cons c ds ih =>
    have hc : c.isDigit = true := hd c List.mem_cons_self
    have hds : AllDigits ds := fun x hx => hd x (List.mem_cons_of_mem c hx)
    have hnext :
        factor * a * 10 + factor * digitValue c = factor * (a * 10 + digitValue c : Nat) := by
      push_cast
      ring
    have hvalue : (a * 10 + digitValue c) * tenTo ds.length + natOf ds =
        a * tenTo (c :: ds).length + natOf (c :: ds) := by
      rw [natOf_cons, List.length_cons, tenTo_succ]
      ring
    have hle : a * 10 + digitValue c ≤ a * tenTo (c :: ds).length + natOf (c :: ds) := by
      rw [← hvalue]
      exact Nat.le_add_right_of_le (Nat.le_mul_of_pos_right _ (tenTo_pos _))
    rw [List.cons_append, readDigits, if_pos hc, hnext]
    change (if Fits _ then _ else _) = _
    by_cases hfits : Fits (factor * (a * 10 + digitValue c : Nat))
    · rw [if_pos hfits, ih hds hfits, hvalue]
    · rw [if_neg hfits, if_neg fun h => hfits (h.of_le hf hle)]

end Digits

section Texts

variable {factor n : Int} {s t sign : List Char}

def leadingDigits (s : List Char) : List Char := (takeSign s).2.takeWhile Char.isDigit

def afterDigits (s : List Char) : List Char := (takeSign s).2.dropWhile Char.isDigit

/-- What the digits at the start of a text denote with the sign in front of them. -/
def leadingValue (s : List Char) : Int := (takeSign s).1 * natOf (leadingDigits s)

theorem allDigits_leadingDigits (s : List Char) : AllDigits (leadingDigits s) :=
  List.all_eq_true.1 List.all_takeWhile

theorem isDigit_head_afterDigits (s : List Char) :
    ∀ c ∈ (afterDigits s).head?, c.isDigit = false := by
  intro c hc
  have h := List.head?_dropWhile_not Char.isDigit (takeSign s).2
  rw [← afterDigits, Option.mem_def.1 hc] at h
  simpa using h

theorem exists_isSign (s : List Char) :
    ∃ sign, IsSign sign (takeSign s).1 ∧ s = sign ++ (leadingDigits s ++ afterDigits s) := by
  rw [leadingDigits, afterDigits, List.takeWhile_append_dropWhile]
  unfold takeSign
  split
  · exact ⟨['-'], .minus, rfl⟩
  · exact ⟨['+'], .plus, rfl⟩
  · exact ⟨[], .none, rfl⟩

/-- A text is taken apart in one way only. -/
theorem IsSign.parts (h : IsSign sign factor) (hs : AllDigits s) (hne : s ≠ [])
    (ht : ∀ c ∈ t.head?, c.isDigit = false) :
    (takeSign (sign ++ (s ++ t))).1 = factor ∧ leadingDigits (sign ++ (s ++ t)) = s ∧
      afterDigits (sign ++ (s ++ t)) = t := by
  have htake : takeSign (sign ++ (s ++ t)) = (factor, s ++ t) := by
    cases h with
    | plus => rfl
    | minus => rfl
    | none =>
      obtain ⟨c, s, rfl⟩ := List.exists_cons_of_ne_nil hne
      exact takeSign_of_isDigit (hs c List.mem_cons_self) (s ++ t)
  obtain ⟨hw, hd⟩ := takeWhile_digits hs ht
  rw [leadingDigits, afterDigits, htake]
  exact ⟨rfl, hw, hd⟩

theorem denotes_iff :
    Denotes s n ↔ leadingDigits s ≠ [] ∧ afterDigits s = [] ∧ n = leadingValue s := by
  constructor
  · rintro ⟨sign, factor, ds, hsign, rfl, hne, hd, rfl⟩
    have h := hsign.parts (t := []) hd hne nofun
    rw [List.append_nil] at h
    obtain ⟨hf, hl, ha⟩ := h
    exact ⟨by rwa [hl], ha, by rw [leadingValue, hf, hl]⟩
  · rintro ⟨hne, ha, rfl⟩
    obtain ⟨sign, hsign, hs⟩ := exists_isSign s
    rw [ha, List.append_nil] at hs
    exact ⟨sign, _, leadingDigits s, hsign, hs, hne, allDigits_leadingDigits s, rfl⟩

theorem overruns_iff : Overruns s ↔ afterDigits s ≠ [] ∧ ¬ Fits (leadingValue s) := by
  constructor
  · rintro ⟨sign, factor, ds, c, rest, hsign, rfl, hd, hc, hfits⟩
    have hne : ds ≠ [] := fun h => by
      subst h
      exact hfits (fits_natOf_nil factor)
    obtain ⟨hf, hl, ha⟩ := hsign.parts (t := c :: rest) hd hne (by simpa using hc)
    rw [leadingValue, hf, hl, ha]
    exact ⟨List.cons_ne_nil c rest, hfits⟩
  · rintro ⟨hne, hfits⟩
    obtain ⟨sign, hsign, hs⟩ := exists_isSign s
    obtain ⟨c, rest, hrest⟩ := List.exists_cons_of_ne_nil hne
    have hc := isDigit_head_afterDigits s c (by rw [hrest]; rfl)
    rw [hrest] at hs
    exact ⟨sign, _, leadingDigits s, c, rest, hsign, hs, allDigits_leadingDigits s, hc, hfits⟩

/-- What is read is decided by the digits at the start, and only then by what is behind them. -/
theorem readInteger_eq (s : List Char) :
    readInteger s =
      if Fits (leadingValue s) then
        if leadingDigits s ≠ [] ∧ afterDigits s = [] then .ok (leadingValue s)
        else .error .malformed
      else .error .tooLarge := by
  obtain ⟨sign, hsign, -⟩ := exists_isSign s
  have hf := hsign.eq_one_or
  have hbody : (takeSign s).2 = leadingDigits s ++ afterDigits s :=
    (List.takeWhile_append_dropWhile).symm
  have hread := readDigits_append hf (allDigits_leadingDigits s) (afterDigits s) (a := 0)
    (fits_natOf_nil _)
  rw [Nat.zero_mul, Nat.zero_add, Nat.cast_zero, mul_zero, ← leadingValue, ← hbody] at hread
  rw [readInteger]
  split
  · rename_i factor heq
    have hnil : leadingDigits s = [] := by rw [leadingDigits, heq]; rfl
    have hfits : Fits (leadingValue s) := by
      rw [leadingValue, hnil]
      exact fits_natOf_nil _
    rw [if_pos hfits, if_neg fun h => h.1 hnil]
  · rename_i factor digits hne heq
    rw [heq] at hread
    rw [hread]
    refine if_congr Iff.rfl ?_ rfl
    cases ha : afterDigits s with
    | nil =>
      have hdigits : leadingDigits s ≠ [] := fun h => by
        rw [h, ha, heq] at hbody
        exact hne hbody
      rw [if_pos ⟨hdigits, rfl⟩]
      rfl
    | cons c rest =>
      have hc := isDigit_head_afterDigits s c (by rw [ha]; rfl)
      rw [if_neg fun h => List.cons_ne_nil c rest h.2, readDigits, if_neg (by simp [hc])]

end Texts

end Numeral

namespace Reader

open Numeral

def lineText (input : List UInt8) : List Char := Text.Utf8.decode (line input)

/-- The text of the next line behind the white space at its start. -/
def trimmed (input : List UInt8) : List Char := Text.trimStart (lineText input)

/-- What is to come of a line that is read as an integer of a kind with this range: the integer that
it denotes, or a fault that says whether it denotes one at all. -/
structure Classifies (kind : Kind) (lo hi : Int) (input : List UInt8) (o : Except ReadFault Int) :
    Prop where
  value : ∀ n, o = .ok n ↔ Denotes (trimmed input) n ∧ lo ≤ n ∧ n ≤ hi
  overflow : o = .error (.overflow kind) ↔ ∃ n, Denotes (trimmed input) n ∧ ¬ (lo ≤ n ∧ n ≤ hi)
  conversion : o = .error (.conversion (String.ofList (lineText input)) kind) ↔
    ∀ n, ¬ Denotes (trimmed input) n

variable {kind : Kind} {lo hi : Int} {input : List UInt8}

theorem integer_eq (h : (line input).length ≤ numberCapacity) :
    (integer kind lo hi input).1 = parseInteger kind lo hi (String.ofList (lineText input)) := by
  rw [integer, bind_lift_apply, text_apply, if_neg (Nat.not_lt.2 h), ← lineText]
  rfl

theorem parseInteger_eq (input : List UInt8) :
    parseInteger kind lo hi (String.ofList (lineText input)) =
      if Fits (leadingValue (trimmed input)) then
        if leadingDigits (trimmed input) ≠ [] ∧ afterDigits (trimmed input) = [] then
          if lo ≤ leadingValue (trimmed input) ∧ leadingValue (trimmed input) ≤ hi then
            .ok (leadingValue (trimmed input))
          else .error (.overflow kind)
        else .error (.conversion (String.ofList (lineText input)) kind)
      else .error (.overflow kind) := by
  rw [parseInteger, String.toList_ofList, ← trimmed, readInteger_eq]
  by_cases hfits : Fits (leadingValue (trimmed input))
  · rw [if_pos hfits, if_pos hfits]
    by_cases hform : leadingDigits (trimmed input) ≠ [] ∧ afterDigits (trimmed input) = []
    · rw [if_pos hform, if_pos hform]
    · rw [if_neg hform, if_neg hform]
  · rw [if_neg hfits, if_neg hfits]

theorem classifies_of_denotes {v : Int} (h : Denotes (trimmed input) v) :
    Classifies kind lo hi input (if lo ≤ v ∧ v ≤ hi then .ok v else .error (.overflow kind)) := by
  have hunique (n : Int) : Denotes (trimmed input) n ↔ n = v :=
    ⟨fun hn => (denotes_iff.1 hn).2.2.trans (denotes_iff.1 h).2.2.symm, fun hn => hn ▸ h⟩
  by_cases hrange : lo ≤ v ∧ v ≤ hi
  · rw [if_pos hrange]
    refine ⟨fun n => ?_, ?_, ?_⟩
    · rw [hunique]
      constructor
      · rintro ⟨⟩
        exact ⟨rfl, hrange⟩
      · rintro ⟨rfl, -⟩
        rfl
    · refine ⟨nofun, fun ⟨n, hn, hout⟩ => ?_⟩
      rw [hunique] at hn
      exact absurd (hn ▸ hrange) hout
    · exact ⟨nofun, fun hnone => absurd h (hnone v)⟩
  · rw [if_neg hrange]
    refine ⟨fun n => ⟨nofun, fun ⟨hn, hin⟩ => ?_⟩, ⟨fun _ => ⟨v, h, hrange⟩, fun _ => rfl⟩,
      nofun, fun hnone => absurd h (hnone v)⟩
    rw [hunique] at hn
    exact absurd (hn ▸ hin) hrange

theorem classifies_of_not_denotes (h : ∀ n, ¬ Denotes (trimmed input) n) :
    Classifies kind lo hi input (.error (.conversion (String.ofList (lineText input)) kind)) :=
  ⟨fun n => ⟨nofun, fun hn => absurd hn.1 (h n)⟩, ⟨nofun, fun ⟨n, hn, _⟩ => absurd hn (h n)⟩,
    fun _ => h, fun _ => rfl⟩

theorem integer_classifies_iff (hlo : -9223372036854775808 ≤ lo) (hhi : hi < 9223372036854775808)
    (h : (line input).length ≤ numberCapacity) :
    Classifies kind lo hi input (integer kind lo hi input).1 ↔ ¬ Overruns (trimmed input) := by
  rw [integer_eq h, parseInteger_eq, overruns_iff]
  by_cases hform : leadingDigits (trimmed input) ≠ [] ∧ afterDigits (trimmed input) = []
  · have hdenotes : Denotes (trimmed input) (leadingValue (trimmed input)) :=
      denotes_iff.2 ⟨hform.1, hform.2, rfl⟩
    refine iff_of_true ?_ fun hover => hover.1 hform.2
    have hclassifies : Classifies kind lo hi input _ := classifies_of_denotes hdenotes
    by_cases hfits : Fits (leadingValue (trimmed input))
    · rwa [if_pos hfits, if_pos hform]
    · have hout : ¬ (lo ≤ leadingValue (trimmed input) ∧ leadingValue (trimmed input) ≤ hi) :=
        fun hin => hfits ⟨by omega, by omega⟩
      rw [if_neg hout] at hclassifies
      rwa [if_neg hfits]
  · have hnone (n : Int) : ¬ Denotes (trimmed input) n := fun hn =>
      hform ⟨(denotes_iff.1 hn).1, (denotes_iff.1 hn).2.1⟩
    by_cases hfits : Fits (leadingValue (trimmed input))
    · rw [if_pos hfits, if_neg hform]
      exact iff_of_true (classifies_of_not_denotes hnone) fun hover => hover.2 hfits
    · -- the digits are too large before what is behind them is read
      have hdigits : leadingDigits (trimmed input) ≠ [] := fun hnil => by
        rw [leadingValue, hnil] at hfits
        exact hfits (fits_natOf_nil _)
      rw [if_neg hfits]
      refine iff_of_false (fun hc => ?_) fun hover =>
        hover ⟨fun hnil => hform ⟨hdigits, hnil⟩, hfits⟩
      obtain ⟨n, hn, -⟩ := hc.overflow.1 rfl
      exact hnone n hn

/-- Digits that leave 64 bits are refused for their range, whatever is behind them. -/
theorem integer_of_overruns (h : (line input).length ≤ numberCapacity)
    (hover : Overruns (trimmed input)) :
    (integer kind lo hi input).1 = .error (.overflow kind) := by
  rw [integer_eq h, parseInteger_eq, if_neg (overruns_iff.1 hover).2]

theorem range_of_parseInteger {t : String} {n : Int} (h : parseInteger kind lo hi t = .ok n) :
    lo ≤ n ∧ n ≤ hi := by
  rw [parseInteger] at h
  split at h
  · split at h
    · rename_i hin
      cases h
      exact hin
    · cases h
  · cases h
  · cases h

theorem range_of_integer {n : Int} (h : (integer kind lo hi input).1 = .ok n) :
    lo ≤ n ∧ n ≤ hi := by
  rw [integer, bind_lift_apply] at h
  cases ht : (text numberCapacity input).1 with
  | error e =>
    rw [ht] at h
    cases h
  | ok t =>
    rw [ht] at h
    exact range_of_parseInteger h

theorem toInt_short (input : List UInt8) :
    (short input).1.map Int16.toInt = (integer .short (-32768) 32767 input).1 := by
  rw [short, map_apply]
  cases hn : (integer .short (-32768) 32767 input).1 with
  | error e => rfl
  | ok n =>
    obtain ⟨hlo, hhi⟩ := range_of_integer hn
    exact congrArg Except.ok (Int16.toInt_ofInt_of_le hlo (Int.lt_add_one_of_le hhi))

theorem toInt_int (input : List UInt8) :
    (int input).1.map Int32.toInt = (integer .int (-2147483648) 2147483647 input).1 := by
  rw [int, map_apply]
  cases hn : (integer .int (-2147483648) 2147483647 input).1 with
  | error e => rfl
  | ok n =>
    obtain ⟨hlo, hhi⟩ := range_of_integer hn
    exact congrArg Except.ok (Int32.toInt_ofInt_of_le hlo (Int.lt_add_one_of_le hhi))

/-- A line that is short enough is read as the short or the int that it denotes, or it is refused
for its range if it denotes another integer and for its form if it denotes none, exactly if it does
not go on behind digits that leave 64 bits. One that does is refused for its range. -/
theorem integers_classified_iff {input : List UInt8}
    (h : (line input).length ≤ numberCapacity) :
    (Classifies .short (-32768) 32767 input ((short input).1.map Int16.toInt) ↔
      ¬ Overruns (trimmed input)) ∧
    (Classifies .int (-2147483648) 2147483647 input ((int input).1.map Int32.toInt) ↔
      ¬ Overruns (trimmed input)) ∧
    (Overruns (trimmed input) →
      (short input).1 = .error (.overflow .short) ∧ (int input).1 = .error (.overflow .int)) := by
  refine ⟨?_, ?_, fun hover => ⟨?_, ?_⟩⟩
  · rw [toInt_short]
    exact integer_classifies_iff (by decide) (by decide) h
  · rw [toInt_int]
    exact integer_classifies_iff (by decide) (by decide) h
  · rw [short, map_apply, integer_of_overruns h hover]
    rfl
  · rw [int, map_apply, integer_of_overruns h hover]
    rfl

theorem integers_classified_iff_signed :
    (line [32, 43, 52, 50, 13, 10]).length ≤ numberCapacity ∧
      Classifies .int (-2147483648) 2147483647 [32, 43, 52, 50, 13, 10]
        ((int [32, 43, 52, 50, 13, 10]).1.map Int32.toInt) := by
  have hlength : (line [32, 43, 52, 50, 13, 10]).length ≤ numberCapacity := by decide
  have htext : trimmed [32, 43, 52, 50, 13, 10] = ['+', '4', '2'] := by
    have hline : line [32, 43, 52, 50, 13, 10] = [32, 43, 52, 50] := by decide
    rw [trimmed, lineText, hline, Text.Utf8.decode_ascii _ (by simp)]
    decide
  have hends : ¬ Overruns (trimmed [32, 43, 52, 50, 13, 10]) := by
    rw [htext, overruns_iff]
    decide
  exact ⟨hlength, (integers_classified_iff hlength).2.1.2 hends⟩

def ninesAndLetter : List UInt8 := List.replicate 20 57 ++ [120, 10]

theorem ninesAndLetter_overflows :
    (line ninesAndLetter).length ≤ numberCapacity ∧
      ¬ Classifies .int (-2147483648) 2147483647 ninesAndLetter
        ((int ninesAndLetter).1.map Int32.toInt) := by
  have hlength : (line ninesAndLetter).length ≤ numberCapacity := by decide
  have htext : trimmed ninesAndLetter = List.replicate 20 '9' ++ ['x'] := by
    have hline : line ninesAndLetter = List.replicate 20 57 ++ [120] := by decide
    rw [trimmed, lineText, hline, Text.Utf8.decode_ascii _ (by simp)]
    decide
  have hover : Overruns (trimmed ninesAndLetter) := by
    rw [htext, overruns_iff]
    decide
  rw [toInt_int]
  exact ⟨hlength, fun hc =>
    (integer_classifies_iff (by decide) (by decide) hlength).1 hc hover⟩

end Reader

end Yap
