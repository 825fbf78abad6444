import Yap.Proofs.Floats

/-! Values written in a format and read back. Main statements: the bits of a finite value are
those that it is encoded with, and a finite single-width float widened to a double and narrowed
again is itself. -/
namespace Yap.Numeral

theorem roundDiv_mul_right {den : Nat} (h : 0 < den) (num : Nat) :
    roundDiv (num * den) den = num := by
  rw [roundDiv, Nat.mul_mod_left, Nat.mul_zero, Nat.compare_eq_lt.2 h, Nat.mul_div_cancel num h]

theorem log2_mul_twoTo {m : Nat} (h : m ≠ 0) (k : Nat) : (m * twoTo k).log2 = m.log2 + k := by
  have hne : m * twoTo k ≠ 0 := Nat.mul_ne_zero h (twoTo_pos k).ne'
  obtain ⟨hle, hlt⟩ := (Nat.log2_eq_iff h).1 rfl
  rw [Nat.log2_eq_iff hne, twoTo_eq_pow, Nat.pow_add, Nat.add_right_comm, Nat.pow_add]
  exact ⟨Nat.mul_le_mul_right _ hle, Nat.mul_lt_mul_of_pos_right hlt (Nat.two_pow_pos k)⟩

namespace BinaryFormat

variable {f : BinaryFormat}

/-- The bits of a canonical value, the sign aside: the exponents counted from the least one, and
a significand whose topmost bit counts as one more of them. -/
def rankOf (f : BinaryFormat) (m : Nat) (q : Int) : Nat :=
  (q - f.least).toNat * twoTo f.fraction + m

namespace Canonical

variable {m : Nat} {q : Int} (h : f.Canonical m q)

include h

/-- A canonical value stands at the rounding place of its format. -/
theorem max_least (hm : m ≠ 0) : max f.least (q + m.log2 - f.fraction) = q := by
  have hlt := h.significand_lt
  have hle := h.least_le
  rw [twoTo_eq_pow, ← Nat.pow_succ', ← Nat.log2_lt hm] at hlt
  by_cases hsub : m < twoTo f.fraction
  · have hq := h.eq_least hsub
    rw [twoTo_eq_pow, ← Nat.log2_lt hm] at hsub
    omega
  · rw [twoTo_eq_pow, Nat.not_lt, ← Nat.le_log2 hm] at hsub
    omega

theorem eq_least_of_zero (hm : m = 0) : q = f.least :=
  h.eq_least (hm ▸ twoTo_pos _)

/-- Further digits of a canonical value that are zero change nothing. -/
theorem magnitude_mul_twoTo (k : Nat) :
    f.magnitude (m * twoTo k) (q - k) = min f.infinity (f.rankOf m q) := by
  by_cases hm : m = 0
  · simp [hm, rankOf, h.eq_least_of_zero hm]
  · have hunit : max f.least (q - k + ((m.log2 + k : Nat) : Int) - f.fraction) = q := by
      have hmax := h.max_least hm
      omega
    rw [magnitude, if_neg (Nat.mul_ne_zero hm (twoTo_pos k).ne')]
    simp only [log2_mul_twoTo hm, hunit, rankOf]
    have hk : (q - (q - k)).toNat = k := by omega
    split_ifs with hle
    · have hzero : k = 0 := by omega
      simp [hzero]
    · rw [hk, roundDiv_mul_right (twoTo_pos k)]

/-- The nearest value of the format is the value itself. -/
theorem magnitude_eq : f.magnitude m q = min f.infinity (f.rankOf m q) := by
  simpa using h.magnitude_mul_twoTo 0

end Canonical

/-- A value that a format has is encoded exactly, with whatever exponent it is given. -/
theorem magnitude_of_canonical {m : Nat} {q : Int} (k : Nat) (hm : m ≠ 0)
    (h : f.Canonical (m * twoTo k) (q - k)) :
    f.magnitude m q = min f.infinity (f.rankOf (m * twoTo k) (q - k)) := by
  have hunit : max f.least (q + m.log2 - f.fraction) = q - k := by
    have hmax := h.max_least (Nat.mul_ne_zero hm (twoTo_pos k).ne')
    rw [log2_mul_twoTo hm] at hmax
    omega
  have hk : (q - (q - k)).toNat = k := by omega
  rw [magnitude, if_neg hm]
  simp only [hunit, rankOf, hk]
  rw [if_pos (by omega)]

theorem infinity_lt_signBit (f : BinaryFormat) : f.infinity < f.signBit := by
  have hpos := twoTo_pos f.exponent
  rw [infinity, signBit, Nat.add_comm, twoTo_add]
  exact Nat.mul_lt_mul_of_pos_right (by omega) (twoTo_pos f.fraction)

theorem signBit_eq (f : BinaryFormat) : f.signBit = twoTo f.exponent * twoTo f.fraction := by
  rw [signBit, Nat.add_comm, twoTo_add]

theorem withSign_lt (s : Bool) {bits : Nat} (h : bits < f.signBit) :
    f.withSign s bits < 2 * f.signBit := by
  cases s <;> simp only [withSign, if_true, if_false, Bool.false_eq_true] <;> omega

/-- The fields of bits with a sign. -/
theorem fields_withSign (s : Bool) {bits : Nat} (h : bits < f.signBit) :
    f.withSign s bits % twoTo f.fraction = bits % twoTo f.fraction ∧
      f.withSign s bits / twoTo f.fraction % twoTo f.exponent = bits / twoTo f.fraction ∧
      (f.withSign s bits / f.signBit % 2 = 1 ↔ s = true) := by
  have hpos := twoTo_pos f.fraction
  have hexp : bits / twoTo f.fraction < twoTo f.exponent :=
    Nat.div_lt_of_lt_mul (by rwa [Nat.mul_comm, ← signBit_eq])
  cases s with
  | false => simp [withSign, Nat.mod_eq_of_lt hexp, Nat.div_eq_of_lt h]
  | true =>
    have hsign : f.signBit / f.signBit = 1 := Nat.div_self (by omega)
    refine ⟨?_, ?_, ?_⟩
    · simp [withSign, signBit_eq]
    · simp only [withSign, if_true, signBit_eq]
      rw [Nat.add_comm, Nat.add_mul_div_right _ _ hpos, Nat.add_mod_right, Nat.mod_eq_of_lt hexp]
    · simp only [withSign, if_true, iff_true]
      rw [Nat.add_comm, Nat.add_div_right _ (by omega), Nat.div_eq_of_lt h]

/-- A canonical value is read off its bits. -/
theorem Canonical.decode_withSign {m : Nat} {q : Int} (h : f.Canonical m q) (s : Bool)
    (hfinite : f.rankOf m q < f.infinity) :
    f.decode (f.withSign s (f.rankOf m q)) = .finite s m q := by
  obtain ⟨hfrac, hexp, hsign⟩ := fields_withSign s (hfinite.trans f.infinity_lt_signBit)
  have hpos := twoTo_pos f.fraction
  have hlt := h.significand_lt
  have hle := h.least_le
  have htop : f.rankOf m q / twoTo f.fraction < twoTo f.exponent - 1 :=
    Nat.div_lt_of_lt_mul (by rwa [Nat.mul_comm])
  rw [decode]
  simp only [hfrac, hexp, hsign, htop.ne, if_false, Bool.decide_eq_true]
  by_cases hsub : m < twoTo f.fraction
  · have hq := h.eq_least hsub
    simp [rankOf, hq, Nat.div_eq_of_lt hsub, Nat.mod_eq_of_lt hsub]
  · have hrank : f.rankOf m q =
        m - twoTo f.fraction + ((q - f.least).toNat + 1) * twoTo f.fraction := by
      rw [rankOf, Nat.add_mul, Nat.one_mul]
      omega
    have hmod : f.rankOf m q % twoTo f.fraction = m - twoTo f.fraction := by
      rw [hrank, Nat.add_mul_mod_self_right, Nat.mod_eq_of_lt (by omega)]
    have hdiv : f.rankOf m q / twoTo f.fraction = (q - f.least).toNat + 1 := by
      rw [hrank, Nat.add_mul_div_right _ _ hpos, Nat.div_eq_of_lt (by omega), Nat.zero_add]
    rw [hmod, hdiv, if_neg (Nat.succ_ne_zero _), Datum.finite.injEq]
    exact ⟨rfl, by omega, by omega⟩

/-- The bits of a finite value are its sign and its rank. -/
theorem rankOf_of_decode {bits : Nat} {s : Bool} {m : Nat} {q : Int}
    (h : f.decode bits = .finite s m q) :
    f.rankOf m q < f.infinity ∧ bits % f.signBit = f.rankOf m q ∧
      (bits / f.signBit % 2 = 1 ↔ s = true) := by
  have hsplit : bits % f.signBit =
      bits % twoTo f.fraction + bits / twoTo f.fraction % twoTo f.exponent * twoTo f.fraction := by
    rw [signBit_eq, Nat.mul_comm (twoTo f.exponent), Nat.mod_mul, Nat.mul_comm (twoTo f.fraction)]
  have hfrac := Nat.mod_lt bits (twoTo_pos f.fraction)
  have hexp := Nat.mod_lt (bits / twoTo f.fraction) (twoTo_pos f.exponent)
  have below {e : Nat} (he : e < twoTo f.exponent - 1) :
      bits % twoTo f.fraction + e * twoTo f.fraction < f.infinity := by
    have := Nat.mul_le_mul_right (twoTo f.fraction) (Nat.succ_le_of_lt he)
    rw [Nat.succ_mul] at this
    rw [infinity]
    omega
  rw [hsplit]
  rw [decode] at h
  split_ifs at h with hinf hnan hsub
  · injection h with hs hm hq
    subst hm hq
    have hrank : f.rankOf (bits % twoTo f.fraction) f.least =
        bits % twoTo f.fraction +
          bits / twoTo f.fraction % twoTo f.exponent * twoTo f.fraction := by
      simp [rankOf, hsub]
    rw [hrank, ← hs, decide_eq_true_iff]
    exact ⟨below (by omega), rfl, Iff.rfl⟩
  · injection h with hs hm hq
    subst hm hq
    generalize bits / twoTo f.fraction % twoTo f.exponent = e at *
    have hrank : f.rankOf (twoTo f.fraction + bits % twoTo f.fraction) (f.least + (e - 1 : Nat)) =
        bits % twoTo f.fraction + e * twoTo f.fraction := by
      obtain ⟨n, rfl⟩ := Nat.exists_eq_succ_of_ne_zero hsub
      simp only [rankOf, Nat.succ_eq_add_one, Nat.add_sub_cancel, Nat.add_mul, Nat.one_mul]
      rw [add_sub_cancel_left, Int.toNat_natCast]
      omega
    rw [hrank, ← hs, decide_eq_true_iff]
    exact ⟨below (by omega), rfl, Iff.rfl⟩

/-- Encoding the value of finite bits gives the bits back. -/
theorem encode_decode {bits : Nat} {s : Bool} {m : Nat} {q : Int} (hlt : bits < 2 * f.signBit)
    (h : f.decode bits = .finite s m q) : f.encode (.finite s m q) = bits := by
  obtain ⟨hfinite, hrank, hsign⟩ := rankOf_of_decode h
  have hdiv := Nat.div_add_mod bits f.signBit
  have htwo : bits / f.signBit < 2 := Nat.div_lt_of_lt_mul (by rwa [Nat.mul_comm])
  rw [Nat.mod_eq_of_lt htwo] at hsign
  rw [encode, (canonical_of_decode h).magnitude_eq, min_eq_right hfinite.le, ← hrank]
  cases s with
  | false =>
    have hne : bits / f.signBit ≠ 1 := fun h => Bool.false_ne_true (hsign.1 h)
    have hzero : bits / f.signBit = 0 := by
      generalize bits / f.signBit = d at htwo hne
      omega
    rw [hzero, Nat.mul_zero, Nat.zero_add] at hdiv
    exact hdiv
  | true =>
    rw [hsign.2 rfl, Nat.mul_one] at hdiv
    exact hdiv

end BinaryFormat

theorem ofDouble_ofBits (b : UInt64) : ofDouble (Float.ofBits b) = binary64.decode b.toNat := by
  have hpack := @unpack_pack_unpack .binary64 b.toBitVec (by decide)
  have hbits := @decode_toNat .binary64 b.toBitVec
  rw [← hpack, ← decode_toNat] at hbits
  exact hbits.symm

/-- A value that a double has is kept when it is encoded as one. -/
theorem ofDouble_toDouble {s : Bool} {m k : Nat} {q : Int} (hm : m ≠ 0)
    (h : binary64.Canonical (m * twoTo k) (q - k))
    (hfinite : binary64.rankOf (m * twoTo k) (q - k) < binary64.infinity) :
    ofDouble (toDouble (.finite s m q)) = .finite s (m * twoTo k) (q - k) := by
  have hlt := BinaryFormat.withSign_lt s (hfinite.trans binary64.infinity_lt_signBit)
  have hmagnitude := BinaryFormat.magnitude_of_canonical k hm h
  rw [min_eq_right hfinite.le] at hmagnitude
  rw [toDouble, BinaryFormat.encode, hmagnitude, ofDouble_ofBits, UInt64.toNat_ofNat_of_lt' hlt,
    h.decode_withSign s hfinite]

/-- A zero is read as one with the least exponent. -/
theorem ofDouble_toDouble_zero (s : Bool) (q : Int) :
    ofDouble (toDouble (.finite s 0 q)) = .finite s 0 binary64.least := by
  rw [toDouble, BinaryFormat.encode, BinaryFormat.magnitude_zero, ofDouble_ofBits]
  cases s <;> rfl

/-- Moved up, a significand of a single-width float has all the bits of a double. -/
theorem moved_bounds {m : Nat} (hm : m ≠ 0) (hlt : m < 2 ^ 24) :
    2 ^ 52 ≤ m * twoTo (52 - m.log2) ∧ m * twoTo (52 - m.log2) < 2 ^ 53 := by
  have hlog : m.log2 < 24 := (Nat.log2_lt hm).2 hlt
  have hmoved : (m * twoTo (52 - m.log2)).log2 = 52 := by
    rw [log2_mul_twoTo hm]
    omega
  exact (Nat.log2_eq_iff (Nat.mul_ne_zero hm (twoTo_pos _).ne')).1 hmoved

theorem rankOf_lt_infinity {n : Nat} {p : Int} (hn : n < 2 ^ 53) (hp : p ≤ 105) :
    binary64.rankOf n p < binary64.infinity := by
  have hrank : binary64.rankOf n p = (p + 1074).toNat * 2 ^ 52 + n := rfl
  have htop : binary64.infinity = 2047 * 2 ^ 52 := rfl
  rw [hrank, htop]
  omega

/-- Every finite single-width value is a double, with the significand moved up. -/
theorem ofDouble_widen {x : Float32} {s : Bool} {m : Nat} {q : Int} (hm : m ≠ 0)
    (h : ofSingle x = .finite s m q) :
    ∃ k : Nat, ofDouble (widen x) = .finite s (m * twoTo k) (q - k) := by
  have hcanonical := BinaryFormat.canonical_of_decode h
  have hlow : -149 ≤ q := hcanonical.least_le
  have hhigh : (q + 149).toNat * 2 ^ 23 + m < 255 * 2 ^ 23 := (BinaryFormat.rankOf_of_decode h).1
  obtain ⟨hle, hlt⟩ := moved_bounds hm hcanonical.significand_lt
  have hwide : binary64.Canonical (m * twoTo (52 - m.log2)) (q - (52 - m.log2 : Nat)) :=
    ⟨hlt, show (-1074 : Int) ≤ _ by omega, fun hsub => absurd hle hsub.not_ge⟩
  have hp : q - (52 - m.log2 : Nat) ≤ 105 := by omega
  have hfinite := rankOf_lt_infinity hlt hp
  rw [widen, h]
  exact ⟨_, ofDouble_toDouble hm hwide hfinite⟩

/-- A finite single-width float is a double, which narrows to it again. -/
theorem narrow_widen {x : Float32} {s : Bool} {m : Nat} {q : Int}
    (h : ofSingle x = .finite s m q) : narrow (widen x) = x := by
  have hbits : binary32.encode (.finite s m q) = x.toBits.toNat :=
    BinaryFormat.encode_decode x.toBits.toNat_lt h
  have hencode : binary32.encode (ofDouble (widen x)) = binary32.encode (.finite s m q) := by
    by_cases hm : m = 0
    · rw [widen, h, hm, ofDouble_toDouble_zero]
      simp only [BinaryFormat.encode, BinaryFormat.magnitude_zero]
    · obtain ⟨k, hwide⟩ := ofDouble_widen hm h
      have hcanonical := BinaryFormat.canonical_of_decode h
      rw [hwide, BinaryFormat.encode, BinaryFormat.encode, hcanonical.magnitude_mul_twoTo,
        hcanonical.magnitude_eq]
  rw [narrow, toSingle, hencode, hbits, UInt32.ofNat_toNat, Float32.ofBits_toBits]

end Yap.Numeral
