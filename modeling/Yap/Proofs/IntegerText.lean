import Mathlib.Data.List.DropRight
import Yap.Format.Render
import Yap.Numeral.Reading

/-! Integers as they are shown by conversions, read back from their text. Main statement: the text
fills its width, on the side that the flags tell, and without the spaces, the sign and the mark of
its base it is the number that the conversion shows. -/
namespace Yap.Format

open Numeral

def Conversion.base? : Conversion → Option Nat
  | signed | unsigned => some 10
  | octal => some 8
  | hex | hexUpper => some 16
  | _ => none

theorem Conversion.base?_pos {c : Conversion} {base : Nat} (h : c.base? = some base) :
    0 < base := by
  cases c <;> cases h <;> decide

def Conversion.shown (c : Conversion) (v : Int) : Int := if c = signed then v else v % 4294967296

/-- What a character counts as a digit, in some base up to sixteen. -/
def digitOf? (c : Char) : Option Nat :=
  if '0' ≤ c ∧ c ≤ '9' then some (c.toNat - 48)
  else if 'a' ≤ c ∧ c ≤ 'f' then some (c.toNat - 87)
  else if 'A' ≤ c ∧ c ≤ 'F' then some (c.toNat - 55)
  else none

def pushDigit? (base n : Nat) (c : Char) : Option Nat :=
  ((digitOf? c).filter (· < base)).map (n * base + ·)

/-- The number that digits of a base denote. There must be one, and nothing else. -/
def readDigits? (base : Nat) (t : List Char) : Option Nat :=
  if t.isEmpty then none else t.foldlM (pushDigit? base) 0

def trimmed (t : List Char) : List Char := (t.dropWhile (· = ' ')).rdropWhile (· = ' ')

def dropMark : List Char → List Char
  | '0' :: 'x' :: t => t
  | '0' :: 'X' :: t => t
  | t => t

/-- The sign of the number in a text, as a factor, and its digits. -/
def integerParts (t : List Char) : Int × List Char :=
  ((takeSign (trimmed t)).1, dropMark (takeSign (trimmed t)).2)

/-- The number in a text, spaces, a sign and a mark of its base aside. -/
def readInteger? (base : Nat) (t : List Char) : Option Int :=
  (readDigits? base (integerParts t).2).map fun n : Nat => (integerParts t).1 * n

/-- What can stand in front of the digits: a sign or the mark of a base. -/
def leads : List (List Char) := [[], ['-'], ['+'], [' '], ['0', 'x'], ['0', 'X']]

/-- A text is filled up to the width: behind it with spaces, between its lead and its digits with
zeros, or in front of it with spaces. -/
def Spec.Fills (s : Spec) (bare text : List Char) : Prop :=
  ∃ lead digits, lead ∈ leads ∧ (∀ c ∈ digits, (digitOf? c).isSome) ∧ bare = lead ++ digits ∧
    text =
      let fill := s.width.getD 0 - bare.length
      if s.flags.left then bare ++ List.replicate fill ' '
      else if s.flags.zero ∧ s.precision = none then lead ++ List.replicate fill '0' ++ digits
      else List.replicate fill ' ' ++ bare

section Digits

variable {base n : Nat} {c : Char} {t : List Char}

theorem digitOf?_digitChar {d : Nat} (h : d < 16) : digitOf? (digitChar d) = some d := by
  decide +revert

theorem digitOf?_of_base_le (hb : base ≤ 16) : ∀ d < base, digitOf? (digitChar d) = some d :=
  fun _ hd => digitOf?_digitChar (Nat.lt_of_lt_of_le hd hb)

theorem digitOf?_upperDigitChar {d : Nat} (h : d < 16) : digitOf? (upperDigitChar d) = some d := by
  decide +revert

theorem foldlM_digits {digit : Nat → Char} (hdigit : ∀ d < base, digitOf? (digit d) = some d)
    {ds : List Nat} (hds : ∀ d ∈ ds, d < base) (n : Nat) :
    (ds.map digit).foldlM (pushDigit? base) n =
      some (ds.foldl (fun n d => n * base + d) n) := by
  induction ds generalizing n with
  | nil => rfl
  | cons d ds ih =>
    have hd := hds d List.mem_cons_self
    have hpush : pushDigit? base n (digit d) = some (n * base + d) := by
      simp [pushDigit?, hdigit d hd, hd]
    rw [List.map_cons, List.foldlM_cons, hpush, List.foldl_cons]
    exact ih (fun e he => hds e (List.mem_cons_of_mem d he)) _

theorem readDigits?_digits {digit : Nat → Char} (hb : 2 ≤ base)
    (hdigit : ∀ d < base, digitOf? (digit d) = some d) (n : Nat) :
    readDigits? base ((digits base n).map digit) = some n := by
  have hne : ((digits base n).map digit).isEmpty = false := by
    simp [digits_ne_nil]
  rw [readDigits?, hne, foldlM_digits hdigit (digits_lt base (by omega) n)]
  exact congrArg some (ofDigits_digits base hb n)

/-- Zeros in front change no number. -/
theorem readDigits?_zeros (hb : 0 < base) (h : readDigits? base t = some n) (k : Nat) :
    readDigits? base (List.replicate k '0' ++ t) = some n := by
  have hpush : pushDigit? base 0 '0' = some 0 := by
    have hzero : digitOf? '0' = some 0 := rfl
    simp [pushDigit?, hzero, hb]
  have hzeros : (List.replicate k '0').foldlM (pushDigit? base) 0 = some 0 := by
    induction k with
    | zero => rfl
    | succ k ih =>
      rw [List.replicate_succ, List.foldlM_cons, hpush]
      exact ih
  rw [readDigits?] at h ⊢
  split at h
  · cases h
  · rename_i ht
    have hne : ¬ (List.replicate k '0' ++ t).isEmpty = true := by simp_all
    rw [if_neg hne, List.foldlM_append, hzeros]
    exact h

theorem isSome_of_readDigits? (h : readDigits? base t = some n) :
    ∀ c ∈ t, (digitOf? c).isSome := by
  have hfold (t : List Char) (m : Nat) (h : t.foldlM (pushDigit? base) m = some n) :
      ∀ c ∈ t, (digitOf? c).isSome := by
    induction t generalizing m with
    | nil => simp
    | cons c t ih =>
      obtain ⟨m', hm', hrest⟩ := Option.bind_eq_some_iff.1 h
      rw [List.forall_mem_cons]
      refine ⟨?_, ih m' hrest⟩
      cases hc : digitOf? c with
      | none => simp [pushDigit?, hc] at hm'
      | some d => rfl
  rw [readDigits?] at h
  split at h
  · cases h
  · exact hfold t 0 h

theorem ne_of_isSome {a : Char} (ha : digitOf? a = none) (hc : (digitOf? c).isSome) : c ≠ a := by
  rintro rfl
  simp [ha] at hc

end Digits

section Parts

variable {lead digits : List Char}

def factor (lead : List Char) : Int := if lead = ['-'] then -1 else 1

theorem rdropWhile_replicate {p : Char → Bool} {c : Char} (hc : p c = true) (t : List Char)
    (k : Nat) : (t ++ List.replicate k c).rdropWhile p = t.rdropWhile p := by
  induction k with
  | zero => simp
  | succ k ih =>
    rw [List.replicate_succ', ← List.append_assoc, List.rdropWhile_concat_pos p _ c hc, ih]

theorem trimmed_spaces {core : List Char} (h : ∀ c ∈ core, c ≠ ' ') (a b : Nat) :
    trimmed (List.replicate a ' ' ++ core ++ List.replicate b ' ') = core := by
  have hspaces (k : Nat) : ∀ c ∈ List.replicate k ' ', decide (c = ' ') = true := by simp
  rw [trimmed, List.append_assoc, List.dropWhile_append_of_pos (hspaces a)]
  cases core with
  | nil =>
    rw [List.nil_append, List.dropWhile_eq_nil_iff.2 (hspaces b), List.rdropWhile_nil]
  | cons c core =>
    have hc : c ≠ ' ' := h c List.mem_cons_self
    rw [List.cons_append, List.dropWhile_cons_of_neg (by simpa using hc), ← List.cons_append,
      rdropWhile_replicate (by simp), List.rdropWhile_eq_self_iff]
    intro hne
    simpa using h _ (List.getLast_mem hne)

theorem dropMark_digits (hd : ∀ c ∈ digits, (digitOf? c).isSome) : dropMark digits = digits := by
  unfold dropMark
  split
  · exact absurd rfl (ne_of_isSome rfl (hd 'x' (by simp)))
  · exact absurd rfl (ne_of_isSome rfl (hd 'X' (by simp)))
  · rfl

theorem takeSign_digits (hd : ∀ c ∈ digits, (digitOf? c).isSome) :
    takeSign digits = (1, digits) := by
  unfold takeSign
  split
  · exact absurd rfl (ne_of_isSome rfl (hd '-' (by simp)))
  · exact absurd rfl (ne_of_isSome rfl (hd '+' (by simp)))
  · rfl

/-- A text is taken apart where its lead ends. -/
theorem integerParts_fill (hl : lead ∈ leads) (hd : ∀ c ∈ digits, (digitOf? c).isSome)
    (a b : Nat) :
    integerParts (List.replicate a ' ' ++ (lead ++ digits) ++ List.replicate b ' ') =
      (factor lead, digits) := by
  have hplain : ∀ c ∈ digits, c ≠ ' ' := fun c hc => ne_of_isSome rfl (hd c hc)
  have htrim (core : List Char) (h : ∀ c ∈ core, c ≠ ' ') :
      trimmed (List.replicate a ' ' ++ (core ++ digits) ++ List.replicate b ' ') =
        core ++ digits :=
    trimmed_spaces (List.forall_mem_append.2 ⟨h, hplain⟩) a b
  simp only [leads, List.mem_cons, List.not_mem_nil, or_false] at hl
  rcases hl with rfl | rfl | rfl | rfl | rfl | rfl
  · rw [integerParts, htrim [] (by simp), List.nil_append, takeSign_digits hd, dropMark_digits hd]
    rfl
  · rw [integerParts, htrim ['-'] (by simp)]
    exact congrArg (Prod.mk _) (dropMark_digits hd)
  · rw [integerParts, htrim ['+'] (by simp)]
    exact congrArg (Prod.mk _) (dropMark_digits hd)
  · have hspace : List.replicate a ' ' ++ ([' '] ++ digits) =
        List.replicate (a + 1) ' ' ++ digits := by
      rw [List.replicate_succ', List.append_assoc]
    rw [integerParts, hspace, trimmed_spaces hplain, takeSign_digits hd, dropMark_digits hd]
    rfl
  · rw [integerParts, htrim ['0', 'x'] (by simp)]
    rfl
  · rw [integerParts, htrim ['0', 'X'] (by simp)]
    rfl

end Parts

section Rendering

/-- How a conversion shows an integer: what it fills up is a lead and digits, which are those of
the number, unless that is zero and the precision is zero. -/
structure Spec.Shows (s : Spec) (base : Nat) (v : Int) (lead digits : List Char) : Prop where
  rendered (w : Option Nat) : { s with width := w }.renderInteger v =
    { s with width := w }.pad lead digits s.precision.isNone
  lead_mem : lead ∈ leads
  number : ¬ (s.conversion.shown v = 0 ∧ s.precision = some 0) →
    ∃ n : Nat, readDigits? base digits = some n ∧ factor lead * n = s.conversion.shown v
  nothing : s.conversion.shown v = 0 ∧ s.precision = some 0 →
    digits = if s.conversion = .octal ∧ s.flags.alt = true then ['0'] else []

theorem readDigits?_integerDigits {base : Nat} {digit : Nat → Char} {s : Spec} {n : Nat}
    (hb : 2 ≤ base) (hdigit : ∀ d < base, digitOf? (digit d) = some d)
    (hn : ¬ (n = 0 ∧ s.precision = some 0)) :
    readDigits? base (s.integerDigits base digit n) = some n := by
  rw [Spec.integerDigits, if_neg (by simpa [and_comm] using hn), padZeros]
  exact readDigits?_zeros (by omega) (readDigits?_digits hb hdigit n) _

theorem integerDigits_nothing {base : Nat} {digit : Nat → Char} {s : Spec} {n : Nat}
    (hn : n = 0 ∧ s.precision = some 0) : s.integerDigits base digit n = [] :=
  if_pos hn.symm

theorem sign_mem (s : Spec) (negative : Bool) : s.sign negative ∈ leads := by
  unfold Spec.sign leads
  split
  · simp
  · split
    · simp
    · split <;> simp

theorem factor_sign (s : Spec) (v : Int) : factor (s.sign (v < 0)) * v.natAbs = v := by
  by_cases hv : v < 0
  · rw [Spec.sign, if_pos (by simpa using hv), factor, if_pos rfl]
    omega
  · have hsign : s.sign (v < 0) ≠ ['-'] := by
      rw [Spec.sign, if_neg (by simpa using hv)]
      split
      · decide
      · split <;> decide
    rw [factor, if_neg hsign]
    omega

theorem shows_signed {s : Spec} (hc : s.conversion = .signed) (v : Int) :
    s.Shows 10 v (s.sign (v < 0)) (s.integerDigits 10 digitChar v.natAbs) := by
  obtain ⟨flags, width, precision, conversion, source⟩ := s
  cases hc
  refine ⟨fun w => rfl, sign_mem _ _, fun hn => ?_, fun hn => ?_⟩
  · have hdigit := digitOf?_of_base_le (show 10 ≤ 16 by omega)
    have hread := readDigits?_integerDigits (by omega) hdigit
      (fun h => hn ⟨Int.natAbs_eq_zero.1 h.1, h.2⟩)
    exact ⟨_, hread, factor_sign _ v⟩
  · exact integerDigits_nothing ⟨Int.natAbs_eq_zero.2 hn.1, hn.2⟩

theorem shown_unsigned {c : Conversion} (hc : c ≠ .signed) (v : Int) :
    c.shown v = (v % 4294967296).toNat := by
  rw [Conversion.shown, if_neg hc]
  omega

/-- An unsigned conversion with the mark of its base. The octal one has none. -/
theorem shows_unsigned {s : Spec} {base : Nat} {digit : Nat → Char} {mark : List Char}
    (hb : 2 ≤ base) (hdigit : ∀ d < base, digitOf? (digit d) = some d) (hmark : mark ∈ leads)
    (hpositive : mark ≠ ['-']) (hs : s.conversion ≠ .signed) (ho : s.conversion ≠ .octal) {v : Int}
    (hrender : ∀ w, { s with width := w }.renderInteger v =
      { s with width := w }.renderUnsigned base digit mark (v % 4294967296).toNat) :
    s.Shows base v (if s.flags.alt && (v % 4294967296).toNat != 0 then mark else [])
      (s.integerDigits base digit (v % 4294967296).toNat) := by
  have hshown := shown_unsigned hs v
  refine ⟨hrender, ?_, fun hn => ?_, fun hn => ?_⟩
  · split
    · exact hmark
    · simp [leads]
  · rw [hshown, Int.natCast_eq_zero] at hn
    rw [hshown]
    refine ⟨_, readDigits?_integerDigits hb hdigit hn, ?_⟩
    have hfactor :
        factor (if s.flags.alt && (v % 4294967296).toNat != 0 then mark else []) = 1 := by
      split
      · exact if_neg hpositive
      · rfl
    rw [hfactor, Int.one_mul]
  · rw [hshown, Int.natCast_eq_zero] at hn
    rw [if_neg fun h => ho h.1]
    exact integerDigits_nothing hn

def Spec.octalDigits (s : Spec) (n : Nat) : List Char :=
  let body := s.integerDigits 8 digitChar n
  if s.flags.alt && body.head? != some '0' then '0' :: body else body

/-- The octal conversion, whose alternate form may have one more zero among the digits. -/
theorem shows_octal {s : Spec} (hc : s.conversion = .octal) (v : Int) :
    ∃ digits, s.Shows 8 v [] digits := by
  obtain ⟨flags, width, precision, conversion, source⟩ := s
  cases hc
  have hshown := shown_unsigned (c := .octal) (by decide) v
  refine ⟨Spec.octalDigits ⟨flags, width, precision, .octal, source⟩ (v % 4294967296).toNat,
    fun w => rfl, by simp [leads], fun hn => ?_, fun hn => ?_⟩
  · rw [hshown, Int.natCast_eq_zero] at hn
    have hdigit := digitOf?_of_base_le (show 8 ≤ 16 by omega)
    have hread := readDigits?_integerDigits (by omega) hdigit hn
    refine ⟨_, ?_, by rw [hshown, factor, if_neg (by simp), Int.one_mul]⟩
    unfold Spec.octalDigits
    dsimp only
    split
    · exact readDigits?_zeros (by omega) hread 1
    · exact hread
  · rw [hshown, Int.natCast_eq_zero] at hn
    rw [Spec.octalDigits, integerDigits_nothing hn]
    cases flags.alt <;> simp

theorem Spec.shows_of_base? {s : Spec} {base : Nat} (h : s.conversion.base? = some base) (v : Int) :
    ∃ lead digits, s.Shows base v lead digits := by
  obtain ⟨flags, width, precision, conversion, source⟩ := s
  cases conversion with
  | signed =>
    cases h
    exact ⟨_, _, shows_signed rfl v⟩
  | octal =>
    cases h
    exact ⟨_, shows_octal rfl v⟩
  | unsigned =>
    cases h
    have hmark : [] ∈ leads := by decide
    exact ⟨_, _, shows_unsigned (by omega) (digitOf?_of_base_le (by omega)) hmark (by decide)
      (by simp) (by simp) fun w => rfl⟩
  | hex =>
    cases h
    have hmark : ['0', 'x'] ∈ leads := by decide
    exact ⟨_, _, shows_unsigned (by omega) (digitOf?_of_base_le (by omega)) hmark (by decide)
      (by simp) (by simp) fun w => rfl⟩
  | hexUpper =>
    cases h
    have hmark : ['0', 'X'] ∈ leads := by decide
    exact ⟨_, _, shows_unsigned (by omega) (fun d hd => digitOf?_upperDigitChar hd) hmark
      (by decide) (by simp) (by simp) fun w => rfl⟩
  | _ => cases h

theorem Spec.pad_none (s : Spec) (lead digits : List Char) (z : Bool) :
    { s with width := none }.pad lead digits z = lead ++ digits := by
  unfold pad
  dsimp only
  split
  · simp
  · split <;> simp

theorem Spec.Shows.isSome {s : Spec} {base : Nat} {v : Int} {lead digits : List Char}
    (h : s.Shows base v lead digits) : ∀ c ∈ digits, (digitOf? c).isSome := by
  by_cases hn : s.conversion.shown v = 0 ∧ s.precision = some 0
  · have hzero : (digitOf? '0').isSome := rfl
    rw [h.nothing hn]
    split <;> simp [hzero]
  · obtain ⟨n, hread, -⟩ := h.number hn
    exact isSome_of_readDigits? hread

theorem Spec.fills_pad {s : Spec} {lead digits : List Char} (hl : lead ∈ leads)
    (hd : ∀ c ∈ digits, (digitOf? c).isSome) :
    s.Fills (lead ++ digits) (s.pad lead digits s.precision.isNone) := by
  refine ⟨lead, digits, hl, hd, rfl, ?_⟩
  have hzero : (s.precision.isNone && s.flags.zero) = true ↔
      s.flags.zero = true ∧ s.precision = none := by
    rw [Bool.and_eq_true, Option.isNone_iff_eq_none, and_comm]
  rw [pad, List.length_append]
  dsimp only
  split
  · rfl
  · simp only [hzero, List.append_assoc]

/-- Filling puts spaces around the lead and the digits, or zeros in front of the digits. -/
theorem integerParts_pad {lead digits : List Char} (hl : lead ∈ leads)
    (hd : ∀ c ∈ digits, (digitOf? c).isSome) (s : Spec) (z : Bool) :
    ∃ k, integerParts (s.pad lead digits z) = (factor lead, List.replicate k '0' ++ digits) ∧
      (z = false → k = 0) := by
  have hspaces := integerParts_fill hl hd
  unfold Spec.pad
  dsimp only
  split
  · refine ⟨0, ?_, fun _ => rfl⟩
    simpa using hspaces 0 (s.width.getD 0 - (lead.length + digits.length))
  · split
    · rename_i hzero
      have hzeros (k : Nat) : ∀ c ∈ List.replicate k '0' ++ digits, (digitOf? c).isSome := by
        refine List.forall_mem_append.2 ⟨fun c hc => ?_, hd⟩
        rw [List.eq_of_mem_replicate hc]
        rfl
      refine ⟨s.width.getD 0 - (lead.length + digits.length), ?_, fun hz => ?_⟩
      · simpa using integerParts_fill hl (hzeros _) 0 0
      · simp [hz] at hzero
    · refine ⟨0, ?_, fun _ => rfl⟩
      simpa using hspaces (s.width.getD 0 - (lead.length + digits.length)) 0

end Rendering

/-- The text of an integer fills its width, and is read back as the number that is shown. -/
theorem integers_read_back (s : Spec) (v : Int) {base : Nat}
    (h : s.conversion.base? = some base) :
    ∃ bare text, { s with width := none }.render (.integer v) = .ok bare ∧
      s.render (.integer v) = .ok text ∧
      text.length = max (s.width.getD 0) bare.length ∧ s.Fills bare text ∧
      if s.conversion.shown v = 0 ∧ s.precision = some 0 then
        (integerParts text).2 = if s.conversion = .octal ∧ s.flags.alt = true then ['0'] else []
      else readInteger? base text = some (s.conversion.shown v) := by
  obtain ⟨lead, digits, hshows⟩ := Spec.shows_of_base? h v
  have hclass : s.conversion.argClass = .integer := by
    cases hc : s.conversion <;> first | rfl | simp [hc, Conversion.base?] at h
  have hbare : { s with width := none }.render (.integer v) = .ok (lead ++ digits) := by
    simp only [Spec.render, hclass, hshows.rendered none, Spec.pad_none]
  have htext : s.render (.integer v) = .ok (s.pad lead digits s.precision.isNone) := by
    simp only [Spec.render, hclass]
    exact congrArg Except.ok (hshows.rendered s.width)
  refine ⟨_, _, hbare, htext, ?_, Spec.fills_pad hshows.lead_mem hshows.isSome, ?_⟩
  · rw [Spec.length_pad, List.length_append]
  obtain ⟨k, hparts, hk⟩ :=
    integerParts_pad hshows.lead_mem hshows.isSome s s.precision.isNone
  split
  · rename_i hn
    rw [hparts, hk (by rw [hn.2, Option.isNone_some])]
    exact hshows.nothing hn
  · rename_i hn
    obtain ⟨n, hread, hv⟩ := hshows.number hn
    rw [readInteger?, hparts, readDigits?_zeros (Conversion.base?_pos h) hread, Option.map_some,
      hv]

/-- A zero-filled field of the alternate form, where the number shown is not the argument. -/
theorem integers_read_back_negativeHex :
    Conversion.base? .hexUpper = some 16 ∧
      Spec.render ⟨{ zero := true, alt := true }, some 12, none, .hexUpper, "%#012X".toList⟩
        (.integer (-1)) = .ok "0X00FFFFFFFF".toList ∧
      readInteger? 16 "0X00FFFFFFFF".toList = some 4294967295 := by
  have htext : Spec.render ⟨{ zero := true, alt := true }, some 12, none, .hexUpper,
      "%#012X".toList⟩ (.integer (-1)) = .ok "0X00FFFFFFFF".toList := rfl
  obtain ⟨bare, text, -, htext', -, -, hread⟩ := integers_read_back
    ⟨{ zero := true, alt := true }, some 12, none, .hexUpper, "%#012X".toList⟩ (-1) rfl
  obtain rfl := Except.ok.inj (htext.symm.trans htext')
  rw [if_neg (by decide)] at hread
  exact ⟨rfl, htext, hread⟩

end Yap.Format
