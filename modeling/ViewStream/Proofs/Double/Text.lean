import ViewStream.Double.Numeral
import ViewStream.Proofs.Double.Rounding

/-!
# The text of a double is read back

A double is written with as few digits as will do, its point and its exponent set out in one of
four ways, and **read as a numeral its text stands for that double** (`ofNumeral?_chars`), whatever
search found the digits. So no two doubles have the same text.

The four ways come down to two kinds of numeral (`Numeral.Written`): digits with a point in them,
or digits with an exponent after them. What a numeral stands for is a matter of its digits and of
one number, the place of the last digit; zeros in front and at the end of the digits do not count.
-/

namespace ViewStream

namespace Numeral

/-! ## Numerals in their parts -/

/-- A minus sign, or none. -/
def signed (negative : Bool) : List Char := if negative then ['-'] else []

/-- Digits after a point; without digits there is no point. -/
def pointed (fraction : List Char) : List Char := if fraction = [] then [] else '.' :: fraction

/-- An exponent with its sign. -/
def power (exp : Int) : List Char :=
  'e' :: (if exp < 0 then '-' else '+') :: Nat.toDigits 10 exp.natAbs

/-- An unsigned numeral with these digits before the point, these after it, and this exponent. -/
inductive Written : List Char → List Char → List Char → Int → Prop
  /-- With a point and no exponent. -/
  | plain {whole fraction : List Char} : Written (whole ++ '.' :: fraction) whole fraction 0
  /-- With an exponent, and a point if there are digits after it. -/
  | scaled {whole fraction : List Char} {exp : Int} :
      Written (whole ++ (pointed fraction ++ power exp)) whole fraction exp

theorem sign_signed (negative : Bool) {c : Char} (hc : c.isDigit = true) (cs : List Char) :
    sign (signed negative ++ c :: cs) = (negative, c :: cs) := by
  cases negative with
  | true => rfl
  | false =>
    rw [signed, if_neg (by decide), List.nil_append]
    unfold sign
    split
    · rename_i heq
      rw [(List.cons.inj heq).1] at hc
      exact absurd hc (by decide)
    · rename_i heq
      rw [(List.cons.inj heq).1] at hc
      exact absurd hc (by decide)
    · rfl

theorem fraction_pointed {ds : List Char} (hds : ∀ c ∈ ds, c.isDigit = true) (exp : Int) :
    fraction (pointed ds ++ power exp) = (ds, power exp) := by
  rw [pointed]
  split
  · rename_i hnil
    rw [hnil]
    rfl
  · rw [List.cons_append, fraction, Text.digits_before hds]
    rintro c cs hc
    rw [← (List.cons.inj hc).1]
    rfl

theorem exponent?_mark (negative : Bool) (n : Nat) :
    exponent? ('e' :: (if negative then '-' else '+') :: Nat.toDigits 10 n)
      = some (if negative then -Int.ofNat n else Int.ofNat n) := by
  have hne : Nat.toDigits 10 n ≠ [] := Nat.toDigits_ne_nil
  have hvalue : Nat.ofDigitChars 10 (Nat.toDigits 10 n) 0 = n := Nat.ofDigitChars_ten_toDigits
  cases negative with
  | true => simpa [exponent?, sign, hne, hvalue] using Text.isDigit_toDigits n
  | false => simpa [exponent?, sign, hne, hvalue] using Text.isDigit_toDigits n

theorem exponent?_power (exp : Int) : exponent? (power exp) = some exp := by
  rw [power]
  by_cases hexp : exp < 0
  · rw [if_pos hexp]
    refine (exponent?_mark true exp.natAbs).trans (congrArg some ?_)
    rw [if_pos rfl, Int.ofNat_eq_natCast]
    omega
  · rw [if_neg hexp]
    refine (exponent?_mark false exp.natAbs).trans (congrArg some ?_)
    rw [if_neg (by decide), Int.ofNat_eq_natCast]
    omega

section Written

variable {cs whole frac : List Char} {exp : Int}

theorem Written.head (h : Written cs whole frac exp) (hwhole : whole ≠ [])
    (hdigits : ∀ c ∈ whole, c.isDigit = true) : ∃ c rest, cs = c :: rest ∧ c.isDigit = true := by
  cases whole with
  | nil => exact absurd rfl hwhole
  | cons c ds =>
    have hc := hdigits c List.mem_cons_self
    cases h with
    | plain => exact ⟨c, _, rfl, hc⟩
    | scaled => exact ⟨c, _, rfl, hc⟩

/-- It has a point or an exponent, which an integer has not. -/
theorem Written.mem (h : Written cs whole frac exp) : '.' ∈ cs ∨ 'e' ∈ cs := by
  cases h with
  | plain => exact Or.inl (by simp)
  | scaled => exact Or.inr (by simp [power])

theorem Written.of_mem (h : Written cs whole frac exp)
    (hdigits : ∀ c ∈ whole ++ frac, c.isDigit = true) :
    ∀ c ∈ cs, c.isDigit = true ∨ c ∈ ['.', 'e', '+', '-'] := by
  intro c hc
  cases h with
  | plain =>
    rcases List.mem_append.mp hc with hc | hc
    · exact Or.inl (hdigits c (List.mem_append_left _ hc))
    · rcases List.mem_cons.mp hc with rfl | hc
      · exact Or.inr (by decide)
      · exact Or.inl (hdigits c (List.mem_append_right _ hc))
  | scaled =>
    rcases List.mem_append.mp hc with hc | hc
    · exact Or.inl (hdigits c (List.mem_append_left _ hc))
    rcases List.mem_append.mp hc with hc | hc
    · rw [pointed] at hc
      split at hc
      · exact absurd hc List.not_mem_nil
      · rcases List.mem_cons.mp hc with rfl | hc
        · exact Or.inr (by decide)
        · exact Or.inl (hdigits c (List.mem_append_right _ hc))
    · rcases List.mem_cons.mp hc with rfl | hc
      · exact Or.inr (by decide)
      · rcases List.mem_cons.mp hc with rfl | hc
        · exact Or.inr (by split <;> decide)
        · exact Or.inl (Text.isDigit_toDigits _ c hc)

/-- **What a numeral stands for** is told by its digits, the exponent, and how many of the digits
are after the point. -/
theorem Written.ofNumeral? (h : Written cs whole frac exp) (hwhole : whole ≠ [])
    (hdigits : ∀ c ∈ whole ++ frac, c.isDigit = true) (negative : Bool) :
    Double.ofNumeral? (signed negative ++ cs) = Double.ofMagnitude? negative
      (Magnitude.ofDecimal (Nat.ofDigitChars 10 (whole ++ frac) 0)
        (exp - Int.ofNat frac.length)) := by
  have hwdigits : ∀ c ∈ whole, c.isDigit = true :=
    fun c hc => hdigits c (List.mem_append_left _ hc)
  have hfdigits : ∀ c ∈ frac, c.isDigit = true :=
    fun c hc => hdigits c (List.mem_append_right _ hc)
  obtain ⟨c, rest, hcs, hc⟩ := h.head hwhole hwdigits
  have hsign : sign (signed negative ++ cs) = (negative, cs) := by
    rw [hcs]
    exact sign_signed negative hc rest
  obtain ⟨tail, hwhole', tail', hfraction, hexp⟩ : ∃ tail, Text.digits cs = (whole, tail)
      ∧ ∃ tail', fraction tail = (frac, tail') ∧ exponent? tail' = some exp := by
    cases h with
    | plain =>
      refine ⟨_, Text.digits_before hwdigits ?_, [], ?_, rfl⟩
      · rintro c cs hc
        rw [← (List.cons.inj hc).1]
        rfl
      · rw [fraction, ← List.append_nil frac, Text.digits_before hfdigits (by simp),
          List.append_nil]
    | scaled =>
      refine ⟨_, Text.digits_before hwdigits ?_, _, fraction_pointed hfdigits exp,
        exponent?_power exp⟩
      rintro c cs hc
      rw [pointed, power] at hc
      split at hc
      · rw [← (List.cons.inj hc).1]
        rfl
      · rw [← (List.cons.inj hc).1]
        rfl
  rw [Double.ofNumeral?, hsign]
  dsimp only
  rw [hwhole']
  dsimp only
  rw [hfraction]
  dsimp only
  rw [if_neg (fun hnone => hwhole hnone.1), hexp]

end Written

end Numeral

namespace Double

open Numeral (Written signed)

/-! ## How the digits are laid out -/

theorem stripZeros_eq (digits : List Char) (exp : Int) : ∃ n : Nat,
    digits = (stripZeros digits exp).1 ++ List.replicate n '0'
      ∧ (stripZeros digits exp).2 = exp + n := by
  obtain ⟨kept, hkept⟩ : ∃ kept, kept = (digits.reverse.dropWhile (· == '0')).reverse := ⟨_, rfl⟩
  obtain ⟨zeros, hzeros⟩ : ∃ zeros, zeros = (digits.reverse.takeWhile (· == '0')).reverse :=
    ⟨_, rfl⟩
  have hsplit : digits = kept ++ zeros := by
    rw [hkept, hzeros, ← List.reverse_append, List.takeWhile_append_dropWhile,
      List.reverse_reverse]
  have hall : zeros = List.replicate zeros.length '0' := by
    refine List.eq_replicate_iff.mpr ⟨rfl, ?_⟩
    intro c hc
    rw [hzeros, List.mem_reverse] at hc
    exact beq_iff_eq.mp (List.all_eq_true.mp List.all_takeWhile c hc)
  refine ⟨zeros.length, ?_, ?_⟩
  · rw [stripZeros, ← hkept, ← hall]
    exact hsplit
  · rw [stripZeros, ← hkept, hsplit]
    simp

/-- **Every layout is a numeral of the same digits**, some zeros apart, and of the same place for
the last of them. -/
theorem layout_written {digits : List Char} (hne : digits ≠ []) (exp : Int) :
    ∃ (whole frac : List Char) (x : Int) (before after : Nat),
      Written (layout digits exp) whole frac x
      ∧ whole ≠ []
      ∧ whole ++ frac = List.replicate before '0' ++ digits ++ List.replicate after '0'
      ∧ x - Int.ofNat frac.length = exp - after := by
  have hlength : 0 < digits.length := List.length_pos_iff.mpr hne
  obtain ⟨lead, hlead⟩ : ∃ lead, lead = exp + Int.ofNat digits.length - 1 := ⟨_, rfl⟩
  rw [layout, ← hlead]
  dsimp only
  rw [Int.ofNat_eq_natCast] at hlead
  split
  · -- an integer
    rename_i hinteger
    refine ⟨digits ++ List.replicate exp.toNat '0', ['0'], 0, 0, exp.toNat + 1,
      .plain, by simp [hne], ?_, ?_⟩
    · rw [List.replicate_succ']
      simp
    · simp
      omega
  rename_i hfraction
  split
  · -- the point is between two digits
    rename_i hpoint
    refine ⟨digits.take (lead.toNat + 1), digits.drop (lead.toNat + 1), 0, 0, 0,
      .plain, by simp [hne], ?_, ?_⟩
    · simp
    · simp
      omega
  split
  · -- the point is in front of all digits
    rename_i hsmall
    refine ⟨['0'], List.replicate (-lead - 1).toNat '0' ++ digits, 0, (-lead - 1).toNat + 1, 0,
      @Written.plain ['0'] _, by simp, ?_, ?_⟩
    · rw [List.replicate_succ]
      simp
    · simp
      omega
  · -- one digit in front of the point, and an exponent
    have htext : digits.take 1 ++ (if digits.length ≤ 1 then [] else '.' :: digits.drop 1)
        ++ (if lead < 0 then ['e', '-'] else ['e', '+']) ++ Nat.toDigits 10 lead.natAbs
          = digits.take 1 ++ (Numeral.pointed (digits.drop 1) ++ Numeral.power lead) := by
      rw [Numeral.pointed, Numeral.power, if_congr List.drop_eq_nil_iff rfl rfl]
      by_cases hneg : lead < 0 <;> simp [hneg]
    rw [htext]
    refine ⟨digits.take 1, digits.drop 1, lead, 0, 0, .scaled, by simp [hne], ?_, ?_⟩
    · rw [List.take_append_drop]
      simp
    · simp
      omega

/-! ## What the digits stand for -/

/-- **Zeros around the digits do not count**, those at the end if the place of the last digit tells
of them. -/
theorem ofDecimal_zeros (digits : List Char) (before after : Nat) (exp : Int) :
    Magnitude.ofDecimal (Nat.ofDigitChars 10
        (List.replicate before '0' ++ digits ++ List.replicate after '0') 0) (exp - after)
      = Magnitude.ofDecimal (Nat.ofDigitChars 10 digits 0) exp := by
  have hvalue :
      Nat.ofDigitChars 10 (List.replicate before '0' ++ digits ++ List.replicate after '0') 0
        = Nat.ofDigitChars 10 digits 0 * 10 ^ after := by
    rw [Nat.ofDigitChars_append, Nat.ofDigitChars_replicate_zero, Nat.ofDigitChars_append,
      Nat.ofDigitChars_replicate_zero, Nat.mul_zero, Nat.mul_comm]
  rw [hvalue, Magnitude.ofDecimal_mul_pow]

theorem ofDecimal_stripZeros (digits : List Char) (exp : Int) :
    Magnitude.ofDecimal (Nat.ofDigitChars 10 (stripZeros digits exp).1 0) (stripZeros digits exp).2
      = Magnitude.ofDecimal (Nat.ofDigitChars 10 digits 0) exp := by
  obtain ⟨n, hdigits, hexp⟩ := stripZeros_eq digits exp
  have hsame := ofDecimal_zeros (stripZeros digits exp).1 0 n (stripZeros digits exp).2
  rw [List.replicate_zero, List.nil_append, ← hdigits] at hsame
  rw [← hsame, hexp, Int.add_sub_cancel]

/-- **However digits are laid out, the numeral stands for what they stand for.** -/
theorem layout_stands {digits : List Char} (hne : digits ≠ [])
    (hdigits : ∀ c ∈ digits, c.isDigit = true) (exp : Int) :
    ∃ whole frac x, Written (layout digits exp) whole frac x ∧ whole ≠ []
      ∧ (∀ c ∈ whole ++ frac, c.isDigit = true)
      ∧ Magnitude.ofDecimal (Nat.ofDigitChars 10 (whole ++ frac) 0) (x - Int.ofNat frac.length)
        = Magnitude.ofDecimal (Nat.ofDigitChars 10 digits 0) exp := by
  obtain ⟨whole, frac, x, before, after, hwritten, hwhole, happend, hplace⟩ :=
    layout_written hne exp
  refine ⟨whole, frac, x, hwritten, hwhole, ?_, ?_⟩
  · intro c hc
    rw [happend] at hc
    rcases List.mem_append.mp hc with hc | hc
    · rcases List.mem_append.mp hc with hc | hc
      · rw [(List.mem_replicate.mp hc).2]
        rfl
      · exact hdigits c hc
    · rw [(List.mem_replicate.mp hc).2]
      rfl
  · rw [happend, hplace, ofDecimal_zeros]

/-! ## Reading the text back -/

theorem ofDecimal_onGrid {b : Nat} {exp : Int} {r : Nat × Int}
    (h : Magnitude.onGrid b exp = some r) : Magnitude.ofDecimal r.1 r.2 = b := by
  have htried : ∀ near far : Nat, (if Magnitude.readsBack b near exp then some (near, exp)
      else if Magnitude.readsBack b far exp then some (far, exp) else none) = some r →
        Magnitude.ofDecimal r.1 r.2 = b := by
    intro near far hr
    split at hr
    · rename_i hback
      rw [← Option.some.inj hr]
      exact beq_iff_eq.mp hback
    split at hr
    · rename_i hback
      rw [← Option.some.inj hr]
      exact beq_iff_eq.mp hback
    · exact absurd hr (by simp)
  exact htried _ _ h

/-- **The digits that are found for a magnitude stand for it**, also where the search finds
none. -/
theorem ofDecimal_shortest {b : Nat} (hpos : 0 < b) (hfinite : b < Magnitude.infinity) :
    Magnitude.ofDecimal (Magnitude.shortest b).1 (Magnitude.shortest b).2 = b := by
  rw [Magnitude.shortest]
  cases hfound : (List.range 17).findSome? fun n => Magnitude.onGrid b
      (Magnitude.decimalScale (Magnitude.numerator b) (Magnitude.denominator b)
        - Int.ofNat (n + 1)) with
  | none => exact Magnitude.ofDecimal_exact hpos hfinite
  | some r =>
    obtain ⟨n, _, hr⟩ := List.exists_of_findSome?_eq_some hfound
    exact ofDecimal_onGrid hr

/-- The text of a double is a sign and a numeral of its value. -/
theorem chars_written (x : Double) : ∃ cs whole frac exp, x.chars = signed x.negative ++ cs
    ∧ Written cs whole frac exp ∧ whole ≠ [] ∧ (∀ c ∈ whole ++ frac, c.isDigit = true)
      ∧ Magnitude.ofDecimal (Nat.ofDigitChars 10 (whole ++ frac) 0) (exp - Int.ofNat frac.length)
        = x.magnitude := by
  by_cases hzero : x.magnitude = 0
  · refine ⟨['0', '.', '0'], ['0'], ['0'], 0, ?_, @Written.plain ['0'] ['0'], by simp, by simp, ?_⟩
    · rw [chars, if_pos hzero]
      rfl
    · rw [hzero]
      decide
  · rcases hde : Magnitude.shortest x.magnitude with ⟨d, e⟩
    rcases hkept : stripZeros (Nat.toDigits 10 d) e with ⟨kept, exp⟩
    have hvalue : Magnitude.ofDecimal (Nat.ofDigitChars 10 kept 0) exp = x.magnitude := by
      have hfound := ofDecimal_shortest (Nat.pos_of_ne_zero hzero) x.finite
      have hstripped := ofDecimal_stripZeros (Nat.toDigits 10 d) e
      rw [hkept, Nat.ofDigitChars_ten_toDigits] at hstripped
      rw [hde] at hfound
      exact hstripped.trans hfound
    have hne : kept ≠ [] := by
      rintro rfl
      exact hzero hvalue.symm
    have hdigits : ∀ c ∈ kept, c.isDigit = true := by
      obtain ⟨n, hsplit, _⟩ := stripZeros_eq (Nat.toDigits 10 d) e
      rw [hkept] at hsplit
      intro c hc
      exact Text.isDigit_toDigits d c (hsplit ▸ List.mem_append_left _ hc)
    obtain ⟨whole, frac, y, hwritten, hwhole, hall, hstands⟩ := layout_stands hne hdigits exp
    refine ⟨_, whole, frac, y, ?_, hwritten, hwhole, hall, hstands.trans hvalue⟩
    rw [chars, if_neg hzero, hde]
    dsimp only
    rw [hkept]
    rfl

/-- **The text of a double is read back as that double.** -/
theorem ofNumeral?_chars (x : Double) : ofNumeral? x.chars = some x := by
  obtain ⟨cs, whole, frac, exp, hcs, hwritten, hwhole, hdigits, hvalue⟩ := chars_written x
  rw [hcs, hwritten.ofNumeral? hwhole hdigits, hvalue, ofMagnitude?, dif_pos x.finite]

/-- **No two doubles have the same text.** -/
theorem chars_inj {x y : Double} (h : x.chars = y.chars) : x = y := by
  have hx := ofNumeral?_chars x
  rw [h, ofNumeral?_chars y] at hx
  exact (Option.some.inj hx).symm

/-- The text of a double begins with a digit or a minus sign. -/
theorem chars_head (x : Double) : ∃ c cs, x.chars = c :: cs ∧ (c.isDigit = true ∨ c = '-') := by
  obtain ⟨cs, whole, frac, exp, hcs, hwritten, hwhole, hdigits, _⟩ := chars_written x
  obtain ⟨c, rest, hrest, hc⟩ :=
    hwritten.head hwhole fun c hc => hdigits c (List.mem_append_left _ hc)
  rw [hcs, hrest]
  cases x.negative with
  | true => exact ⟨'-', c :: rest, rfl, Or.inr rfl⟩
  | false => exact ⟨c, rest, rfl, Or.inl hc⟩

/-- It has a point or an exponent in it, which the text of an integer has not. -/
theorem mem_chars (x : Double) : '.' ∈ x.chars ∨ 'e' ∈ x.chars := by
  obtain ⟨cs, whole, frac, exp, hcs, hwritten, _⟩ := chars_written x
  rw [hcs]
  rcases hwritten.mem with hpoint | hexp
  · exact Or.inl (List.mem_append_right _ hpoint)
  · exact Or.inr (List.mem_append_right _ hexp)

theorem of_mem_chars {x : Double} {c : Char} (h : c ∈ x.chars) :
    c.isDigit = true ∨ c ∈ ['.', 'e', '+', '-'] := by
  obtain ⟨cs, whole, frac, exp, hcs, hwritten, _, hdigits, _⟩ := chars_written x
  rw [hcs] at h
  rcases List.mem_append.mp h with hsign | hc
  · rw [signed] at hsign
    split at hsign
    · rw [List.mem_singleton.mp hsign]
      exact Or.inr (by decide)
    · exact absurd hsign List.not_mem_nil
  · exact hwritten.of_mem hdigits c hc

end Double

end ViewStream
