import SurveyLogic.Number.Shortest

/-!
# Rounding to a magnitude

A fraction that lies between the midpoints around a magnitude is rounded to this magnitude, and the
midpoints themselves are where the magnitude is even: `Number.nearestMagnitude_eq`.

All fractions count units of the smallest positive number.  The proof fixes the shift at which the
rounding happens.  It is the shift of the magnitude, but for a fraction just below a power of two:
it is rounded on the finer grid below that power, up to its end, and the carry gives the same bits.
-/

namespace SurveyLogic.Number

/-! ## The nearest whole number -/

/-- A fraction between the midpoints below and above `target` is rounded to `target`. -/
theorem roundHalfEven_eq {numerator denominator target : Nat} (hdenominator : 0 < denominator)
    (hlow : 2 * (denominator * target) ≤ 2 * numerator + denominator)
    (hhigh : 2 * numerator ≤ 2 * (denominator * target) + denominator)
    (hodd : target % 2 = 1 → 2 * (denominator * target) < 2 * numerator + denominator ∧
      2 * numerator < 2 * (denominator * target) + denominator) :
    roundHalfEven numerator denominator = target := by
  unfold roundHalfEven
  dsimp only
  have hcut := Nat.div_add_mod numerator denominator
  have hmod := Nat.mod_lt numerator hdenominator
  generalize numerator / denominator = quotient at *
  generalize numerator % denominator = remainder at *
  have hcases : quotient = target ∨ quotient + 1 = target := by
    rcases Nat.lt_or_ge target quotient with hlt | hge
    · have hstep : denominator * (target + 1) ≤ denominator * quotient :=
        Nat.mul_le_mul_left denominator hlt
      rw [Nat.mul_add] at hstep
      omega
    · by_cases hfar : quotient + 2 ≤ target
      · have hstep : denominator * (quotient + 2) ≤ denominator * target :=
          Nat.mul_le_mul_left denominator hfar
        rw [Nat.mul_add] at hstep
        omega
      · omega
  rcases hcases with rfl | rfl
  · -- rounding down
    split
    · rfl
    · split
      · omega
      · have heven : ¬quotient % 2 = 1 := by
          intro hparity
          have hstrict := hodd hparity
          omega
        omega
  · -- rounding up
    rw [Nat.mul_add] at hlow hhigh hodd
    split
    · omega
    · split
      · rfl
      · have heven : ¬(quotient + 1) % 2 = 1 := by
          intro hparity
          have hstrict := hodd hparity
          omega
        omega

/-! ## Shift and significand -/

theorem shift_mul_add_significand (magnitude : Nat) :
    shift magnitude * 2 ^ 52 + significand magnitude = magnitude := by
  unfold significand shift
  omega

theorem significand_lt (magnitude : Nat) : significand magnitude < 2 ^ 53 := by
  unfold significand shift
  omega

theorem le_significand {magnitude : Nat} (h : shift magnitude ≠ 0) :
    2 ^ 52 ≤ significand magnitude := by
  unfold significand
  unfold shift at h ⊢
  omega

/-- A fraction with its leading bit among the 53 bits above `2 ^ shift` is rounded at that shift. -/
theorem log2_div_sub_eq {numerator denominator shift : Nat} (hdenominator : 0 < denominator)
    (hlow : shift ≠ 0 → 2 ^ 52 * (denominator * 2 ^ shift) ≤ numerator)
    (hhigh : numerator < 2 ^ 53 * (denominator * 2 ^ shift)) :
    (numerator / denominator).log2 - 52 = shift := by
  have hlt : numerator / denominator < 2 ^ (53 + shift) := by
    apply Nat.div_lt_of_lt_mul
    calc numerator < 2 ^ 53 * (denominator * 2 ^ shift) := hhigh
      _ = denominator * 2 ^ (53 + shift) := by rw [Nat.pow_add, Nat.mul_left_comm]
  by_cases hzero : numerator / denominator = 0
  · by_cases hshift : shift = 0
    · rw [hzero, Nat.log2_zero, hshift]
    · have hpow := Nat.mul_pos hdenominator (Nat.two_pow_pos shift)
      have hle : denominator * 1 ≤ denominator * 2 ^ shift :=
        Nat.mul_le_mul_left denominator (Nat.two_pow_pos shift)
      have hsmall := (Nat.div_eq_zero_iff_lt hdenominator).mp hzero
      have hge := hlow hshift
      omega
  · have hupper : (numerator / denominator).log2 < 53 + shift := (Nat.log2_lt hzero).mpr hlt
    by_cases hshift : shift = 0
    · omega
    · have hge : 2 ^ (52 + shift) ≤ numerator / denominator := by
        rw [Nat.le_div_iff_mul_le hdenominator]
        calc 2 ^ (52 + shift) * denominator = 2 ^ 52 * (denominator * 2 ^ shift) := by
              rw [Nat.pow_add, Nat.mul_assoc, Nat.mul_comm (2 ^ shift)]
          _ ≤ numerator := hlow hshift
      have hlower : 52 + shift ≤ (numerator / denominator).log2 := (Nat.le_log2 hzero).mpr hge
      omega

/-! ## The nearest magnitude -/

/-- The fraction of units lies between the midpoints around a magnitude, or on one of them if the
magnitude is even. -/
structure Around (magnitude numerator denominator : Nat) : Prop where
  low : (4 * units magnitude - lowerGap magnitude) * denominator ≤ 4 * numerator
  high : 4 * numerator ≤ (4 * units magnitude + upperGap magnitude) * denominator
  strict : magnitude % 2 = 1 →
    (4 * units magnitude - lowerGap magnitude) * denominator < 4 * numerator ∧
      4 * numerator < (4 * units magnitude + upperGap magnitude) * denominator

theorem nearestMagnitude_of_shift {numerator denominator shift target : Nat}
    (hshift : (numerator / denominator).log2 - 52 = shift)
    (hround : roundHalfEven numerator (denominator * 2 ^ shift) = target)
    (hfinite : shift * 2 ^ 52 + target < infiniteMagnitude) :
    nearestMagnitude numerator denominator = shift * 2 ^ 52 + target := by
  unfold nearestMagnitude
  dsimp only
  rw [hshift, hround]
  exact Nat.min_eq_right (Nat.le_of_lt hfinite)

section Around

variable {magnitude numerator denominator : Nat}

/-- The upper bound, in steps of the significand. -/
theorem Around.two_mul_le (h : Around magnitude numerator denominator) :
    2 * numerator ≤ 2 * (denominator * 2 ^ shift magnitude * significand magnitude) +
        denominator * 2 ^ shift magnitude ∧
      (magnitude % 2 = 1 →
        2 * numerator < 2 * (denominator * 2 ^ shift magnitude * significand magnitude) +
          denominator * 2 ^ shift magnitude) := by
  have hbound : (4 * units magnitude + upperGap magnitude) * denominator =
      2 * (2 * (denominator * 2 ^ shift magnitude * significand magnitude) +
        denominator * 2 ^ shift magnitude) := by
    unfold units upperGap
    grind
  have hhigh := h.high
  have hstrict := h.strict
  rw [hbound] at hhigh hstrict
  exact ⟨by omega, fun hodd => by have := hstrict hodd; omega⟩

/-- The lower bound, in steps of the significand, away from the powers of two. -/
theorem Around.le_two_mul (h : Around magnitude numerator denominator)
    (hpower : ¬(significand magnitude = 2 ^ 52 ∧ shift magnitude ≠ 0)) :
    2 * (denominator * 2 ^ shift magnitude * significand magnitude) ≤
        2 * numerator + denominator * 2 ^ shift magnitude ∧
      (magnitude % 2 = 1 →
        2 * (denominator * 2 ^ shift magnitude * significand magnitude) <
          2 * numerator + denominator * 2 ^ shift magnitude) := by
  have hbound : (4 * units magnitude - lowerGap magnitude) * denominator =
      4 * (denominator * 2 ^ shift magnitude * significand magnitude) -
        2 * (denominator * 2 ^ shift magnitude) := by
    rw [lowerGap, if_neg hpower, Nat.sub_mul]
    unfold units
    congr 1 <;> grind
  have hlow := h.low
  have hstrict := h.strict
  rw [hbound] at hlow hstrict
  exact ⟨by omega, fun hodd => by have := hstrict hodd; omega⟩

/-- The lower bound at a power of two, in steps of the finer grid below it. -/
theorem Around.le_two_mul_of_power (h : Around magnitude numerator denominator) {finer : Nat}
    (hsignificand : significand magnitude = 2 ^ 52) (hshift : shift magnitude = finer + 1) :
    2 * (denominator * 2 ^ finer * 2 ^ 53) ≤ 2 * numerator + denominator * 2 ^ finer := by
  have hbound : (4 * units magnitude - lowerGap magnitude) * denominator =
      4 * (denominator * 2 ^ finer * 2 ^ 53) - 2 * (denominator * 2 ^ finer) := by
    rw [lowerGap, if_pos ⟨hsignificand, by omega⟩, Nat.sub_mul]
    unfold units
    rw [hsignificand, hshift, Nat.pow_succ]
    congr 1 <;> grind
  have hlow := h.low
  rw [hbound] at hlow
  omega

/-- At the shift of the magnitude, the fraction is rounded to its significand. -/
theorem Around.nearestMagnitude_at_shift (h : Around magnitude numerator denominator)
    (hdenominator : 0 < denominator) (hfinite : magnitude < infiniteMagnitude)
    (hlow : 2 * (denominator * 2 ^ shift magnitude * significand magnitude) ≤
      2 * numerator + denominator * 2 ^ shift magnitude)
    (hlow_odd : magnitude % 2 = 1 →
      2 * (denominator * 2 ^ shift magnitude * significand magnitude) <
        2 * numerator + denominator * 2 ^ shift magnitude)
    (hleading : shift magnitude ≠ 0 → 2 ^ 52 * (denominator * 2 ^ shift magnitude) ≤ numerator) :
    nearestMagnitude numerator denominator = magnitude := by
  have hmagnitude := shift_mul_add_significand magnitude
  obtain ⟨hhigh, hhigh_odd⟩ := h.two_mul_le
  have hstep : 0 < denominator * 2 ^ shift magnitude :=
    Nat.mul_pos hdenominator (Nat.two_pow_pos _)
  have hparity : significand magnitude % 2 = 1 → magnitude % 2 = 1 := by
    omega
  have hround : roundHalfEven numerator (denominator * 2 ^ shift magnitude) =
      significand magnitude := by
    refine roundHalfEven_eq hstep hlow hhigh fun hodd => ?_
    exact ⟨hlow_odd (hparity hodd), hhigh_odd (hparity hodd)⟩
  have hbelow : numerator < 2 ^ 53 * (denominator * 2 ^ shift magnitude) := by
    have hmul : denominator * 2 ^ shift magnitude * (significand magnitude + 1) ≤
        denominator * 2 ^ shift magnitude * 2 ^ 53 :=
      Nat.mul_le_mul_left _ (significand_lt magnitude)
    rw [Nat.mul_succ, Nat.mul_comm _ (2 ^ 53)] at hmul
    omega
  have hshift := log2_div_sub_eq hdenominator hleading hbelow
  calc nearestMagnitude numerator denominator
      = shift magnitude * 2 ^ 52 + significand magnitude :=
        nearestMagnitude_of_shift hshift hround (by rw [hmagnitude]; exact hfinite)
    _ = magnitude := hmagnitude

/-- Just below a power of two, the fraction is rounded up to the end of the finer grid. -/
theorem Around.nearestMagnitude_carry (h : Around magnitude numerator denominator)
    (hdenominator : 0 < denominator) (hfinite : magnitude < infiniteMagnitude)
    (hsignificand : significand magnitude = 2 ^ 52) (hshift : shift magnitude ≠ 0)
    (hcarry : numerator < 2 ^ 52 * (denominator * 2 ^ shift magnitude)) :
    nearestMagnitude numerator denominator = magnitude := by
  have hmagnitude := shift_mul_add_significand magnitude
  obtain ⟨finer, hfiner⟩ := Nat.exists_eq_add_one_of_ne_zero hshift
  have hbits : finer * 2 ^ 52 + 2 ^ 53 = magnitude := by
    rw [← hmagnitude, hfiner, hsignificand]
    grind
  have hlow := h.le_two_mul_of_power hsignificand hfiner
  have hstep : 0 < denominator * 2 ^ finer := Nat.mul_pos hdenominator (Nat.two_pow_pos _)
  have hbelow : numerator < 2 ^ 53 * (denominator * 2 ^ finer) := by
    calc numerator < 2 ^ 52 * (denominator * 2 ^ shift magnitude) := hcarry
      _ = 2 ^ 53 * (denominator * 2 ^ finer) := by rw [hfiner, Nat.pow_succ]; grind
  have hround : roundHalfEven numerator (denominator * 2 ^ finer) = 2 ^ 53 :=
    roundHalfEven_eq hstep hlow (by omega) (by omega)
  have hshift' : (numerator / denominator).log2 - 52 = finer :=
    log2_div_sub_eq hdenominator (fun _ => by omega) hbelow
  have hnearest := nearestMagnitude_of_shift hshift' hround (by rw [hbits]; exact hfinite)
  exact hnearest.trans hbits

/-- **A fraction around a magnitude is rounded to it.** -/
theorem nearestMagnitude_eq (hdenominator : 0 < denominator)
    (hfinite : magnitude < infiniteMagnitude) (h : Around magnitude numerator denominator) :
    nearestMagnitude numerator denominator = magnitude := by
  by_cases hpower : significand magnitude = 2 ^ 52 ∧ shift magnitude ≠ 0
  · by_cases hcarry : numerator < 2 ^ 52 * (denominator * 2 ^ shift magnitude)
    · exact h.nearestMagnitude_carry hdenominator hfinite hpower.1 hpower.2 hcarry
    · have hstep : 0 < denominator * 2 ^ shift magnitude :=
        Nat.mul_pos hdenominator (Nat.two_pow_pos _)
      have hlow : 2 * (denominator * 2 ^ shift magnitude * significand magnitude) <
          2 * numerator + denominator * 2 ^ shift magnitude := by
        rw [hpower.1]
        omega
      exact h.nearestMagnitude_at_shift hdenominator hfinite (Nat.le_of_lt hlow) (fun _ => hlow)
        fun _ => Nat.le_of_not_lt hcarry
  · obtain ⟨hlow, hlow_odd⟩ := h.le_two_mul hpower
    refine h.nearestMagnitude_at_shift hdenominator hfinite hlow hlow_odd fun hshift => ?_
    -- the significand is above `2 ^ 52`, by a whole step
    have habove : 2 ^ 52 + 1 ≤ significand magnitude := by
      have hle := le_significand hshift
      have hne : significand magnitude ≠ 2 ^ 52 := fun heq => hpower ⟨heq, hshift⟩
      omega
    have hmul := Nat.mul_le_mul_left (denominator * 2 ^ shift magnitude) habove
    rw [Nat.mul_succ] at hmul
    omega

end Around

end SurveyLogic.Number
