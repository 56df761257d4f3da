import Mathlib.Algebra.Order.Field.Power
import Mathlib.Data.Int.Log
import Mathlib.Data.Rat.Floor
import Mathlib.Tactic.Positivity
import Mathlib.Tactic.Ring
import ViewStream.Double.Text

/-!
# Rounding a fraction

A fraction can be written in many ways, and a decimal with more or fewer zeros at its end. **What a
fraction is rounded to depends on its value only** (`nearest_congr`, `ofDecimal_mul_pow`), and a
fraction that is the value of a magnitude is rounded to that magnitude (`nearest_exact`).

The one place where values are compared is the scale: `floorLog2` is the logarithm of the value.
Everything else is arithmetic of naturals.
-/

namespace ViewStream.Magnitude

/-! ## The scale of a fraction -/

/-- A power with an integer exponent as a fraction of two powers, one of which is 1. -/
theorem zpow_eq_div {b : ℚ} (hb : b ≠ 0) (e : Int) : b ^ e = b ^ e.toNat / b ^ (-e).toNat := by
  rw [eq_div_iff (pow_ne_zero _ hb), ← zpow_natCast, ← zpow_natCast, ← zpow_add₀ hb]
  congr 1
  omega

theorem le_log_iff {r : ℚ} (hr : 0 < r) (e : Int) : e ≤ Int.log 2 r ↔ (2 : ℚ) ^ e ≤ r := by
  exact_mod_cast (Int.zpow_le_iff_le_log (R := ℚ) (b := 2) (by decide) hr).symm

theorem log_lt_iff {r : ℚ} (hr : 0 < r) (e : Int) : Int.log 2 r < e ↔ r < (2 : ℚ) ^ e := by
  exact_mod_cast (Int.lt_zpow_iff_log_lt (R := ℚ) (b := 2) (by decide) hr).symm

/-- The lengths of two numbers tell the scale of their quotient but for one, from below. -/
theorem le_div_of_log2 {num den : Nat} (hnum : 0 < num) (hden : 0 < den) :
    (2 : ℚ) ^ (Int.ofNat num.log2 - Int.ofNat den.log2 - 1) ≤ num / den := by
  have hn : (2 : ℚ) ^ (num.log2 : Int) ≤ num := by exact_mod_cast Nat.log2_self_le hnum.ne'
  have hd : (den : ℚ) ≤ (2 : ℚ) ^ ((den.log2 : Int) + 1) := by exact_mod_cast Nat.lt_log2_self.le
  have heq : Int.ofNat num.log2 - Int.ofNat den.log2 - 1 + ((den.log2 : Int) + 1)
      = num.log2 := by simp
  rw [le_div_iff₀ (by exact_mod_cast hden)]
  calc (2 : ℚ) ^ (Int.ofNat num.log2 - Int.ofNat den.log2 - 1) * den
      ≤ (2 : ℚ) ^ (Int.ofNat num.log2 - Int.ofNat den.log2 - 1)
        * (2 : ℚ) ^ ((den.log2 : Int) + 1) := by
        gcongr
    _ = (2 : ℚ) ^ (num.log2 : Int) := by rw [← zpow_add₀ two_ne_zero, heq]
    _ ≤ num := hn

/-- And from above. -/
theorem div_lt_of_log2 (num : Nat) {den : Nat} (hden : 0 < den) :
    (num : ℚ) / den < (2 : ℚ) ^ (Int.ofNat num.log2 - Int.ofNat den.log2 + 1) := by
  have hn : (num : ℚ) < (2 : ℚ) ^ ((num.log2 : Int) + 1) := by exact_mod_cast Nat.lt_log2_self
  have hd : (2 : ℚ) ^ (den.log2 : Int) ≤ den := by exact_mod_cast Nat.log2_self_le hden.ne'
  have heq : Int.ofNat num.log2 - Int.ofNat den.log2 + 1 + (den.log2 : Int)
      = (num.log2 : Int) + 1 := by
    rw [Int.ofNat_eq_natCast, Int.ofNat_eq_natCast]
    omega
  rw [div_lt_iff₀ (by exact_mod_cast hden)]
  calc (num : ℚ) < (2 : ℚ) ^ ((num.log2 : Int) + 1) := hn
    _ = (2 : ℚ) ^ (Int.ofNat num.log2 - Int.ofNat den.log2 + 1) * (2 : ℚ) ^ (den.log2 : Int) := by
      rw [← zpow_add₀ two_ne_zero, heq]
    _ ≤ (2 : ℚ) ^ (Int.ofNat num.log2 - Int.ofNat den.log2 + 1) * den := by gcongr

/-- **The scale of a fraction is the logarithm of its value.** -/
theorem floorLog2_eq {num den : Nat} (hnum : 0 < num) (hden : 0 < den) :
    floorLog2 num den = Int.log 2 ((num : ℚ) / den) := by
  have hden' : (0 : ℚ) < den := by exact_mod_cast hden
  have hpos : (0 : ℚ) < num / den := div_pos (by exact_mod_cast hnum) hden'
  have hcompare : ∀ e : Int, num * Nat.pow 2 (-e).toNat < den * Nat.pow 2 e.toNat
      ↔ (num : ℚ) / den < 2 ^ e := by
    intro e
    rw [zpow_eq_div two_ne_zero, div_lt_div_iff₀ hden' (by positivity), Nat.pow_eq, Nat.pow_eq,
      Nat.mul_comm den]
    norm_cast
  have hlow := (le_log_iff hpos _).mpr (le_div_of_log2 hnum hden)
  have hhigh := (log_lt_iff hpos _).mpr (div_lt_of_log2 num hden)
  rw [floorLog2]
  split
  · rename_i hlt
    have hbelow := (log_lt_iff hpos _).mpr ((hcompare _).mp hlt)
    omega
  · rename_i hge
    have habove := (le_log_iff hpos _).mpr (not_lt.mp fun hlt => hge ((hcompare _).mpr hlt))
    omega

/-! ## Fractions of the same value -/

theorem roundHalfEven_mul {c : Nat} (hc : 0 < c) (num den : Nat) :
    roundHalfEven (num * c) (den * c) = roundHalfEven num den := by
  have hlt : ∀ a b : Nat, 2 * (a * c) < b * c ↔ 2 * a < b := by
    intro a b
    rw [← Nat.mul_assoc, Nat.mul_lt_mul_right hc]
  have hgt : ∀ a b : Nat, b * c < 2 * (a * c) ↔ b < 2 * a := by
    intro a b
    rw [← Nat.mul_assoc, Nat.mul_lt_mul_right hc]
  simp only [roundHalfEven, Nat.mul_div_mul_right _ _ hc, Nat.mul_mod_mul_right, hlt, hgt]

theorem roundHalfEven_congr {num den num' den' : Nat} (hden : 0 < den) (hden' : 0 < den')
    (h : num * den' = num' * den) : roundHalfEven num den = roundHalfEven num' den' := by
  rw [← roundHalfEven_mul hden', h, Nat.mul_comm den, roundHalfEven_mul hden]

/-- **Rounding looks at the value of a fraction only.** -/
theorem nearest_congr {num den num' den' : Nat} (hden : 0 < den) (hden' : 0 < den')
    (h : num * den' = num' * den) : nearest num den = nearest num' den' := by
  rcases Nat.eq_zero_or_pos num with hnum | hnum
  · subst hnum
    have hzero : num' = 0 := by
      rcases Nat.mul_eq_zero.mp (h.symm.trans (Nat.zero_mul den')) with hz | hz
      · exact hz
      · omega
    rw [hzero, nearest, nearest, if_pos rfl, if_pos rfl]
  · have hnum' : 0 < num' := by
      rcases Nat.eq_zero_or_pos num' with hz | hz
      · rw [hz, Nat.zero_mul] at h
        exact absurd h (Nat.mul_pos hnum hden').ne'
      · exact hz
    have hscale : floorLog2 num den = floorLog2 num' den' := by
      rw [floorLog2_eq hnum hden, floorLog2_eq hnum' hden']
      congr 1
      rw [div_eq_div_iff (by exact_mod_cast hden.ne') (by exact_mod_cast hden'.ne')]
      exact_mod_cast h
    rw [nearest, nearest, if_neg hnum.ne', if_neg hnum'.ne', hscale]
    dsimp only
    generalize max (floorLog2 num' den' - 52) (-1074) = q
    congr 1
    refine roundHalfEven_congr (Nat.mul_pos hden (Nat.two_pow_pos _))
      (Nat.mul_pos hden' (Nat.two_pow_pos _)) ?_
    rw [Nat.mul_mul_mul_comm, h, Nat.mul_mul_mul_comm]

/-! ## What is not rounded -/

theorem roundHalfEven_whole (n : Nat) {c : Nat} (hc : 0 < c) : roundHalfEven (n * c) c = n := by
  simp [roundHalfEven, Nat.mul_div_cancel _ hc, hc]

/-- A significand times a power of two is kept as it is, unless it is too long or too fine for a
double. -/
theorem nearest_scaled {sig : Nat} {q : Int} (hsig : 0 < sig) (hshort : sig < 2 ^ 53)
    (hq : -1074 ≤ q) (hfull : 2 ^ 52 ≤ sig ∨ q = -1074) :
    nearest (sig * Nat.pow 2 q.toNat) (Nat.pow 2 (-q).toNat)
      = (q + 1074).toNat * Nat.pow 2 52 + sig := by
  have hnum : 0 < sig * Nat.pow 2 q.toNat := Nat.mul_pos hsig (Nat.two_pow_pos _)
  have hden : 0 < Nat.pow 2 (-q).toNat := Nat.two_pow_pos _
  have hvalue : ((sig * Nat.pow 2 q.toNat : Nat) : ℚ) / (Nat.pow 2 (-q).toNat : Nat)
      = sig * 2 ^ q := by
    rw [zpow_eq_div two_ne_zero, Nat.pow_eq, Nat.pow_eq]
    push_cast
    rw [mul_div_assoc]
  have hsig' : (0 : ℚ) < sig := by exact_mod_cast hsig
  have hpos : (0 : ℚ) < sig * 2 ^ q := by positivity
  have hbelow : floorLog2 (sig * Nat.pow 2 q.toNat) (Nat.pow 2 (-q).toNat) < 53 + q := by
    rw [floorLog2_eq hnum hden, hvalue, log_lt_iff hpos, zpow_add₀ two_ne_zero]
    have hlt : (sig : ℚ) < 2 ^ (53 : Int) := by exact_mod_cast hshort
    gcongr
  have habove : 2 ^ 52 ≤ sig →
      52 + q ≤ floorLog2 (sig * Nat.pow 2 q.toNat) (Nat.pow 2 (-q).toNat) := by
    intro hle
    rw [floorLog2_eq hnum hden, hvalue, le_log_iff hpos, zpow_add₀ two_ne_zero]
    have hle' : (2 : ℚ) ^ (52 : Int) ≤ sig := by exact_mod_cast hle
    gcongr
  have hscale : max (floorLog2 (sig * Nat.pow 2 q.toNat) (Nat.pow 2 (-q).toNat) - 52) (-1074)
      = q := by
    rcases hfull with hle | hfine
    · have := habove hle
      omega
    · omega
  rw [nearest, if_neg hnum.ne', hscale]
  dsimp only
  have hround := roundHalfEven_whole sig (Nat.mul_pos hden (Nat.two_pow_pos q.toNat))
  rw [Nat.mul_assoc, Nat.mul_comm (Nat.pow 2 q.toNat)]
  exact congrArg _ hround

/-- The parts of a magnitude: how long its significand is and how fine its unit. -/
theorem parts (b : Nat) :
    significand b < 2 ^ 53 ∧ -1074 ≤ exponent b ∧ (2 ^ 52 ≤ significand b ∨ exponent b = -1074)
      ∧ (exponent b + 1074).toNat * 2 ^ 52 + significand b = b := by
  have hpow : Nat.pow 2 52 = 4503599627370496 := by decide
  simp only [significand, exponent, hpow, Int.ofNat_eq_natCast]
  split <;> omega

/-- **The value of a magnitude is rounded to that magnitude.** -/
theorem nearest_exact (b : Nat) : nearest (numerator b) (denominator b) = b := by
  obtain ⟨hshort, hq, hfull, hparts⟩ := parts b
  rcases Nat.eq_zero_or_pos (significand b) with hzero | hsig
  · have hnum : numerator b = 0 := by rw [numerator, hzero, Nat.zero_mul]
    rw [hnum, nearest, if_pos rfl]
    omega
  · rw [numerator, denominator, nearest_scaled hsig hshort hq hfull]
    exact hparts

/-! ## Decimals -/

/-- A power of ten in a number is so many zeros at its end. -/
theorem toDigits_mul_pow {d : Nat} (hd : 0 < d) (k : Nat) :
    Nat.toDigits 10 (d * 10 ^ k) = Nat.toDigits 10 d ++ List.replicate k '0' := by
  induction k with
  | zero => simp
  | succ k ih =>
    have hpos : 0 < d * 10 ^ k := Nat.mul_pos hd (Nat.pow_pos (by decide))
    have htimes : 10 * (d * 10 ^ k) + 0 = d * 10 ^ (k + 1) := by ring
    rw [List.replicate_succ', ← List.append_assoc, ← ih, ← Nat.toDigits_zero 10,
      Nat.toDigits_append_toDigits (by decide) hpos (by decide), htimes]

/-- **Zeros at the end of a decimal do not count**, with the exponent that belongs to them. -/
theorem ofDecimal_mul_pow (d k : Nat) (e : Int) :
    ofDecimal (d * 10 ^ k) (e - k) = ofDecimal d e := by
  rcases Nat.eq_zero_or_pos d with rfl | hd
  · rw [Nat.zero_mul, ofDecimal, ofDecimal, if_pos rfl, if_pos rfl]
  have hd' : d * 10 ^ k ≠ 0 := (Nat.mul_pos hd (Nat.pow_pos (by decide))).ne'
  have hleading : Int.ofNat (Nat.toDigits 10 (d * 10 ^ k)).length + (e - k)
      = Int.ofNat (Nat.toDigits 10 d).length + e := by
    rw [toDigits_mul_pow hd, List.length_append, List.length_replicate]
    simp
  have hnearest : nearest (d * 10 ^ k * Nat.pow 10 (e - k).toNat) (Nat.pow 10 (-(e - k)).toNat)
      = nearest (d * Nat.pow 10 e.toNat) (Nat.pow 10 (-e).toNat) := by
    refine nearest_congr (Nat.pow_pos (by decide)) (Nat.pow_pos (by decide)) ?_
    simp only [Nat.pow_eq, Nat.mul_assoc, ← Nat.pow_add]
    congr 2
    omega
  rw [ofDecimal, ofDecimal, hleading, hnearest, if_neg hd', if_neg hd.ne']

/-- No finite double reaches the decimals that are too great to be computed, written out with any
zeros. -/
theorem greatest_lt (m : Nat) : 2 ^ 53 * 2 ^ 971 * 10 ^ m < 10 ^ (310 + m) := by
  rw [pow_add]
  gcongr
  decide +kernel

/-- None but zero is as small as those that are too small. -/
theorem finest_le (n : Nat) : 10 ^ n * 2 ^ 1074 ≤ 10 ^ (n + 330) := by
  rw [pow_add]
  exact Nat.mul_le_mul_left _ (by decide +kernel)

/-- The value of a magnitude as a decimal, all of its digits. -/
def exactDigits (b : Nat) : Nat :=
  significand b * Nat.pow 5 (-exponent b).toNat * Nat.pow 2 (exponent b).toNat

theorem exactDigits_mul (b : Nat) :
    exactDigits b * 2 ^ (-exponent b).toNat = numerator b * 10 ^ (-exponent b).toNat := by
  have hten : (10 : Nat) = 5 * 2 := rfl
  simp only [exactDigits, numerator, Nat.pow_eq, hten, Nat.mul_pow]
  ring

theorem exponent_le {b : Nat} (h : b < infinity) : exponent b ≤ 971 := by
  have hpow : Nat.pow 2 52 = 4503599627370496 := by decide
  have hinfinity : infinity = 9218868437227405312 := by decide
  rw [hinfinity] at h
  simp only [exponent, hpow, Int.ofNat_eq_natCast]
  split <;> omega

theorem length_exactDigits_le {b : Nat} (h : b < infinity) :
    (Nat.toDigits 10 (exactDigits b)).length ≤ 310 + (-exponent b).toNat := by
  have hlarge := exponent_le h
  rw [Nat.length_toDigits_le_iff (by decide) (by omega)]
  calc exactDigits b ≤ exactDigits b * 2 ^ (-exponent b).toNat :=
        Nat.le_mul_of_pos_right _ (Nat.two_pow_pos _)
    _ = significand b * 2 ^ (exponent b).toNat * 10 ^ (-exponent b).toNat := exactDigits_mul b
    _ ≤ 2 ^ 53 * 2 ^ 971 * 10 ^ (-exponent b).toNat := by
      gcongr
      · exact (parts b).1.le
      · decide
      · omega
    _ < 10 ^ (310 + (-exponent b).toNat) := greatest_lt _

theorem le_length_exactDigits {b : Nat} (h : 0 < significand b) :
    (-exponent b).toNat ≤ (Nat.toDigits 10 (exactDigits b)).length + 330 := by
  have hfine := (parts b).2.1
  obtain ⟨n, hn⟩ : ∃ n, n = (Nat.toDigits 10 (exactDigits b)).length := ⟨_, rfl⟩
  have hlt : exactDigits b < 10 ^ n :=
    (Nat.length_toDigits_le_iff (by decide) (hn ▸ Nat.length_toDigits_pos)).mp hn.ge
  rw [← hn, ← Nat.pow_le_pow_iff_right (a := 10) (by decide)]
  calc 10 ^ (-exponent b).toNat ≤ numerator b * 10 ^ (-exponent b).toNat :=
        Nat.le_mul_of_pos_left _ (Nat.mul_pos h (Nat.two_pow_pos _))
    _ = exactDigits b * 2 ^ (-exponent b).toNat := (exactDigits_mul b).symm
    _ ≤ 10 ^ n * 2 ^ 1074 := by
      gcongr
      · decide
      · omega
    _ ≤ 10 ^ (n + 330) := finest_le n

/-- **The exact decimal of a magnitude is read as that magnitude**, however many digits it has. -/
theorem ofDecimal_exact {b : Nat} (hpos : 0 < b) (hfinite : b < infinity) :
    ofDecimal (exactDigits b) (min (exponent b) 0) = b := by
  have hsig : 0 < significand b := by
    have := parts b
    omega
  have hdigits : exactDigits b ≠ 0 := by
    have hnum : 0 < numerator b * 10 ^ (-exponent b).toNat :=
      Nat.mul_pos (Nat.mul_pos hsig (Nat.two_pow_pos _)) (Nat.pow_pos (by decide))
    rw [← exactDigits_mul] at hnum
    exact (Nat.pos_of_mul_pos_right hnum).ne'
  have hgreat := length_exactDigits_le hfinite
  have hsmall := le_length_exactDigits hsig
  have hvalue := exactDigits_mul b
  have hexact := nearest_exact b
  obtain ⟨m, hm⟩ : ∃ m, m = (-exponent b).toNat := ⟨_, rfl⟩
  have hexp : min (exponent b) 0 = -(m : Int) := by omega
  rw [denominator, ← hm] at hexact
  rw [← hm] at hgreat hsmall hvalue
  rw [hexp, ofDecimal, if_neg hdigits, if_neg (by simp; omega), if_neg (by simp; omega)]
  refine Eq.trans ?_ hexact
  refine nearest_congr (Nat.pow_pos (by decide)) (Nat.two_pow_pos _) ?_
  simpa using hvalue

end ViewStream.Magnitude
