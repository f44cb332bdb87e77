import SurveyLogic.Number.Numeral
import SurveyLogic.Number.Text
import SurveyLogic.Proofs.Number.Rounding

/-!
# Numbers written and read

The text of a finite number without a sign is a numeral, digits with at most one point between them,
and reading that numeral gives the number back: `Number.exists_numeral`.

The search for the shortest decimal answers with a point that is read as the number, on whatever
grid it stops (`Number.shortestFrom_spec`), and such a point lies around the magnitude.
-/

namespace SurveyLogic

/-! ## Digits -/

theorem digitsValue_concat (digits : List Char) (c : Char) :
    digitsValue (digits ++ [c]) = 10 * digitsValue digits + digitValue c := by
  unfold digitsValue
  rw [List.foldl_append]
  rfl

theorem digitValue_digitChar {digit : Nat} (h : digit < 10) :
    digitValue (Nat.digitChar digit) = digit := by
  have hall : ∀ digit < 10, digitValue (Nat.digitChar digit) = digit := by decide
  exact hall digit h

theorem digitsValue_toDigits (n : Nat) : digitsValue (Nat.toDigits 10 n) = n := by
  induction n using Nat.strongRecOn with
  | ind n ih =>
      rw [Nat.toDigits_eq_if (by decide)]
      split
      · next hlt =>
          rw [← List.nil_append [Nat.digitChar n], digitsValue_concat, digitValue_digitChar hlt]
          simp [digitsValue]
      · next hge =>
          have hmod := Nat.mod_lt n (show 0 < 10 by decide)
          rw [digitsValue_concat, ih (n / 10) (by omega), digitValue_digitChar hmod]
          omega

theorem digitsValue_append_zeros (digits : List Char) (zeros : Nat) :
    digitsValue (digits ++ List.replicate zeros '0') = digitsValue digits * 10 ^ zeros := by
  induction zeros with
  | zero => simp
  | succ zeros ih =>
      rw [List.replicate_succ', ← List.append_assoc, digitsValue_concat, ih, Nat.pow_succ]
      have hzero : digitValue '0' = 0 := rfl
      rw [hzero, Nat.add_zero]
      grind

theorem digitsValue_zeros_append (zeros : Nat) (digits : List Char) :
    digitsValue (List.replicate zeros '0' ++ digits) = digitsValue digits := by
  induction zeros with
  | zero => rfl
  | succ zeros ih =>
      rw [List.replicate_succ]
      exact ih

theorem isDigit_of_mem_toDigits {n : Nat} {c : Char} (h : c ∈ Nat.toDigits 10 n) :
    Text.isDigit c = true := by
  have hdigit : c.isDigit = true := Nat.isDigit_of_mem_toDigits (by decide) (by decide) h
  exact hdigit

/-! ## Positional notation -/

/-- The characters of a numeral: digits, and a point with digits behind it if there are any. -/
def numeralChars (whole fraction : List Char) : List Char :=
  if fraction = [] then whole else whole ++ '.' :: fraction

namespace Decimal

/-- The digits of a decimal with `exponent + 1` places, with zeros in front if these are more than
the coefficient has. -/
def padded (coefficient exponent : Nat) : List Char :=
  List.replicate (exponent + 2 - (Nat.toDigits 10 coefficient).length) '0' ++
    Nat.toDigits 10 coefficient

theorem le_length_padded (coefficient exponent : Nat) :
    exponent + 2 ≤ (padded coefficient exponent).length := by
  unfold padded
  rw [List.length_append, List.length_replicate]
  omega

theorem isDigit_of_mem_padded {coefficient exponent : Nat} {c : Char}
    (h : c ∈ padded coefficient exponent) : Text.isDigit c = true := by
  rcases List.mem_append.mp h with hzero | hdigit
  · rw [List.eq_of_mem_replicate hzero]
    rfl
  · exact isDigit_of_mem_toDigits hdigit

theorem digitsValue_padded (coefficient exponent : Nat) :
    digitsValue (padded coefficient exponent) = coefficient := by
  rw [padded, digitsValue_zeros_append, digitsValue_toDigits]

/-- A decimal is written as a numeral of the same value.  With zeros written behind the coefficient,
the numeral has a larger coefficient instead of a power of ten. -/
theorem exists_numeral (decimal : Decimal) :
    ∃ whole fraction, decimal.toText.toList = numeralChars whole fraction ∧ whole ≠ [] ∧
      (∀ c ∈ whole, Text.isDigit c = true) ∧ (∀ c ∈ fraction, Text.isDigit c = true) ∧
      ofDigits whole fraction 0 =
        ⟨decimal.coefficient * 10 ^ decimal.exponent.toNat, min 0 decimal.exponent⟩ := by
  obtain ⟨coefficient, exponent⟩ := decimal
  cases exponent with
  | ofNat exponent =>
      -- no fraction: the power of ten is written out as zeros
      refine ⟨Nat.toDigits 10 coefficient ++ List.replicate exponent '0', [], ?_, ?_, ?_, by simp,
        ?_⟩
      · simp [toText, numeralChars]
      · intro hnil
        exact Nat.toDigits_ne_nil (List.append_eq_nil_iff.mp hnil).1
      · intro c hc
        rcases List.mem_append.mp hc with hdigit | hzero
        · exact isDigit_of_mem_toDigits hdigit
        · rw [List.eq_of_mem_replicate hzero]
          rfl
      · have hexponent : (0 : Int) = min 0 (Int.ofNat exponent) :=
          (Int.min_eq_left (Int.natCast_nonneg exponent)).symm
        unfold ofDigits
        rw [List.append_nil, digitsValue_append_zeros, digitsValue_toDigits]
        exact congrArg (Decimal.mk _) hexponent
  | negSucc exponent =>
      -- the padded digits are cut in two, the last `exponent + 1` of them behind the point
      have htext : (toText ⟨coefficient, .negSucc exponent⟩).toList =
          (padded coefficient exponent).take ((padded coefficient exponent).length - (exponent + 1))
            ++ '.' ::
          (padded coefficient exponent).drop
            ((padded coefficient exponent).length - (exponent + 1)) := by
        simp [toText, padded]
      have hlength := le_length_padded coefficient exponent
      have hpadded : ∀ c ∈ padded coefficient exponent, Text.isDigit c = true :=
        fun c hc => isDigit_of_mem_padded hc
      have hvalue := digitsValue_padded coefficient exponent
      generalize padded coefficient exponent = digits at *
      have hfraction : (digits.drop (digits.length - (exponent + 1))).length = exponent + 1 := by
        rw [List.length_drop]
        omega
      refine ⟨digits.take (digits.length - (exponent + 1)),
        digits.drop (digits.length - (exponent + 1)), ?_, ?_,
        fun c hc => hpadded c (List.mem_of_mem_take hc),
        fun c hc => hpadded c (List.mem_of_mem_drop hc), ?_⟩
      · rw [htext, numeralChars, if_neg]
        intro hnil
        rw [hnil] at hfraction
        simp at hfraction
      · intro hnil
        have hwhole := congrArg List.length hnil
        rw [List.length_take, List.length_nil] at hwhole
        omega
      · unfold ofDigits
        rw [List.take_append_drop, hvalue, hfraction]
        simp
        omega

end Decimal

namespace Number

/-! ## Points that are read as a number -/

theorem isReadAs_iff {magnitude point : Nat} : isReadAs magnitude point = true ↔
    ((4 * units magnitude - lowerGap magnitude) * 5 ^ 1074 ≤ point ∧
      point ≤ (4 * units magnitude + upperGap magnitude) * 5 ^ 1074) ∧
    (magnitude % 2 = 1 → (4 * units magnitude - lowerGap magnitude) * 5 ^ 1074 < point ∧
      point < (4 * units magnitude + upperGap magnitude) * 5 ^ 1074) := by
  unfold isReadAs
  dsimp only
  generalize 5 ^ 1074 = scale
  generalize (4 * units magnitude - lowerGap magnitude) * scale = low
  generalize (4 * units magnitude + upperGap magnitude) * scale = high
  by_cases heven : magnitude % 2 = 0
  · rw [if_pos heven, decide_eq_true_iff]
    omega
  · rw [if_neg heven, decide_eq_true_iff]
    omega

theorem five_pow_pos (exponent : Nat) : 0 < 5 ^ exponent := Nat.pow_pos (by decide)

/-- A point is around the magnitude it is read as.  Points count `10 ^ -1074`, fractions count
`2 ^ -1074`, which is `5 ^ 1074` of these. -/
theorem around_of_isReadAs {magnitude point numerator denominator : Nat}
    (h : isReadAs magnitude (4 * point) = true)
    (hvalue : numerator * 5 ^ 1074 = point * denominator) (hdenominator : 0 < denominator) :
    Around magnitude numerator denominator := by
  have hscale := five_pow_pos 1074
  rw [isReadAs_iff] at h
  generalize 5 ^ 1074 = scale at *
  have hpoint : 4 * numerator * scale = 4 * point * denominator := by
    rw [Nat.mul_assoc, hvalue, Nat.mul_assoc]
  have hcomm : ∀ bound : Nat, bound * denominator * scale = bound * scale * denominator :=
    fun bound => Nat.mul_right_comm bound denominator scale
  obtain ⟨⟨hlow, hhigh⟩, hstrict⟩ := h
  refine ⟨?_, ?_, fun hodd => ⟨?_, ?_⟩⟩
  · apply Nat.le_of_mul_le_mul_right _ hscale
    rw [hpoint, hcomm]
    exact Nat.mul_le_mul_right denominator hlow
  · apply Nat.le_of_mul_le_mul_right _ hscale
    rw [hpoint, hcomm]
    exact Nat.mul_le_mul_right denominator hhigh
  · apply Nat.lt_of_mul_lt_mul_right (a := scale)
    rw [hpoint, hcomm]
    exact Nat.mul_lt_mul_of_pos_right (hstrict hodd).1 hdenominator
  · apply Nat.lt_of_mul_lt_mul_right (a := scale)
    rw [hpoint, hcomm]
    exact Nat.mul_lt_mul_of_pos_right (hstrict hodd).2 hdenominator

theorem two_pow_shift_le_units {magnitude : Nat} (hpos : 0 < magnitude) :
    2 ^ shift magnitude ≤ units magnitude := by
  have hsignificand : 0 < significand magnitude := by
    by_cases hshift : shift magnitude = 0
    · have hmagnitude := shift_mul_add_significand magnitude
      rw [hshift] at hmagnitude
      omega
    · have hle := le_significand hshift
      omega
  exact Nat.le_mul_of_pos_left _ hsignificand

theorem lowerGap_le (magnitude : Nat) : lowerGap magnitude ≤ 2 * 2 ^ shift magnitude := by
  unfold lowerGap
  split <;> omega

theorem lowerGap_pos (magnitude : Nat) : 0 < lowerGap magnitude := by
  have hpow := Nat.two_pow_pos (shift magnitude)
  unfold lowerGap
  split <;> omega

/-- The number itself is read as itself. -/
theorem isReadAs_self {magnitude : Nat} (hpos : 0 < magnitude) :
    isReadAs magnitude (4 * (units magnitude * 5 ^ 1074)) = true := by
  have hscale := five_pow_pos 1074
  rw [isReadAs_iff, ← Nat.mul_assoc]
  generalize 5 ^ 1074 = scale at *
  have hunits := two_pow_shift_le_units hpos
  have hpow := Nat.two_pow_pos (shift magnitude)
  have hlow : (4 * units magnitude - lowerGap magnitude) * scale < 4 * units magnitude * scale := by
    have hgap := lowerGap_pos magnitude
    exact Nat.mul_lt_mul_of_pos_right (by omega) hscale
  have hhigh :
      4 * units magnitude * scale < (4 * units magnitude + upperGap magnitude) * scale := by
    have hgap : 0 < upperGap magnitude := Nat.mul_pos (by decide) hpow
    exact Nat.mul_lt_mul_of_pos_right (by omega) hscale
  exact ⟨⟨Nat.le_of_lt hlow, Nat.le_of_lt hhigh⟩, fun _ => ⟨hlow, hhigh⟩⟩

theorem isReadAs_of_onGrid? {magnitude grid coefficient : Nat}
    (h : onGrid? magnitude grid = some coefficient) :
    isReadAs magnitude (4 * (coefficient * 10 ^ grid)) = true := by
  unfold onGrid? at h
  dsimp only at h
  split at h
  · next hupper =>
      obtain rfl := Option.some.inj h
      exact (Bool.and_eq_true _ _ ▸ hupper).1
  · split at h
    · next hlower =>
        obtain rfl := Option.some.inj h
        exact hlower
    · contradiction

/-- Wherever the search stops, it has found a point that is read as the number. -/
theorem shortestFrom_spec {magnitude : Nat} (hpos : 0 < magnitude) (grid : Nat) :
    ∃ coefficient stop : Nat,
      shortestFrom magnitude grid = ⟨coefficient, (stop : Int) - 1074⟩ ∧
      isReadAs magnitude (4 * (coefficient * 10 ^ stop)) = true := by
  induction grid with
  | zero =>
      refine ⟨units magnitude * 5 ^ 1074, 0, ?_, ?_⟩
      · unfold shortestFrom
        exact congrArg (Decimal.mk _) (Int.zero_sub 1074).symm
      · rw [Nat.pow_zero, Nat.mul_one]
        exact isReadAs_self hpos
  | succ grid ih =>
      unfold shortestFrom
      split
      · next coefficient hfound =>
          exact ⟨coefficient, grid + 1, rfl, isReadAs_of_onGrid? hfound⟩
      · exact ih

/-! ## Reading such a point -/

section Reading

variable {magnitude coefficient : Nat}

theorem coefficient_ne_zero {grid : Nat} (hpos : 0 < magnitude)
    (h : isReadAs magnitude (4 * (coefficient * 10 ^ grid)) = true) : coefficient ≠ 0 := by
  rintro rfl
  have hlow := (isReadAs_iff.mp h).1.1
  have hunits := two_pow_shift_le_units hpos
  have hgap := lowerGap_le magnitude
  have hpow := Nat.two_pow_pos (shift magnitude)
  have hbelow : 0 < (4 * units magnitude - lowerGap magnitude) * 5 ^ 1074 :=
    Nat.mul_pos (by omega) (five_pow_pos 1074)
  omega

theorem two_pow_mul_five_pow (exponent : Nat) : 2 ^ exponent * 5 ^ exponent = 10 ^ exponent :=
  (Nat.mul_pow 2 5 exponent).symm

/-- A decimal that is read as a number is not so small that it would count for nothing. -/
theorem le_log2_add_of_around {places : Nat} (hpos : 0 < magnitude)
    (h : Around magnitude (coefficient * 2 ^ 1074) (10 ^ (places + 1))) :
    places ≤ coefficient.log2 + 400 := by
  rcases Nat.lt_or_ge (coefficient.log2 + 400) places with hfar | hnear
  · have hunits := two_pow_shift_le_units hpos
    have hgap := lowerGap_le magnitude
    have hpow := Nat.two_pow_pos (shift magnitude)
    have hlow : 2 * 10 ^ (places + 1) ≤ 4 * (coefficient * 2 ^ 1074) :=
      Nat.le_trans (Nat.mul_le_mul_right _ (by omega)) h.low
    have hcoefficient : coefficient * 2 ^ 1074 < 2 ^ (coefficient.log2 + 1) * 2 ^ 1074 :=
      Nat.mul_lt_mul_of_pos_right Nat.lt_log2_self (Nat.two_pow_pos 1074)
    -- `10` is more than `8`, so the power of ten has three bits for each place
    have hten : 2 ^ (3 * (places + 1)) ≤ 10 ^ (places + 1) := by
      rw [Nat.pow_mul]
      exact Nat.pow_le_pow_left (by decide) _
    have hbits : 2 ^ (coefficient.log2 + 1 + 1074 + 1) ≤ 2 ^ (3 * (places + 1)) :=
      Nat.pow_le_pow_right (by decide) (by omega)
    rw [Nat.pow_succ, Nat.pow_add _ _ 1074] at hbits
    omega
  · exact hnear

/-- **A point that is read as a number is rounded to it.** -/
theorem nearestMagnitude_of_isReadAs {grid : Nat} (hpos : 0 < magnitude)
    (hfinite : magnitude < infiniteMagnitude) (hgrid : grid ≤ 1074)
    (h : isReadAs magnitude (4 * (coefficient * 10 ^ grid)) = true) :
    (⟨coefficient, (grid : Int) - 1074⟩ : Decimal).nearestMagnitude = magnitude := by
  have hcoefficient := coefficient_ne_zero hpos h
  unfold Decimal.nearestMagnitude
  dsimp only
  rw [if_neg hcoefficient]
  by_cases hlast : grid = 1074
  · -- the finest grid of all: no power of ten is left to divide by
    subst hlast
    have hvalue : coefficient * 10 ^ 0 * 2 ^ 1074 * 5 ^ 1074 = coefficient * 10 ^ 1074 * 1 := by
      rw [Nat.mul_assoc, two_pow_mul_five_pow 1074, Nat.pow_zero, Nat.mul_one, Nat.mul_one]
    have hexponent : ((1074 : Nat) : Int) - 1074 = .ofNat 0 := rfl
    rw [hexponent]
    dsimp only
    rw [if_neg (by decide)]
    exact nearestMagnitude_eq (by decide) hfinite (around_of_isReadAs h hvalue (by decide))
  · obtain ⟨places, hplaces⟩ : ∃ places, grid + (places + 1) = 1074 :=
      ⟨1074 - grid - 1, by omega⟩
    have hexponent : (grid : Int) - 1074 = .negSucc places := by
      omega
    have hvalue : coefficient * 2 ^ 1074 * 5 ^ 1074 =
        coefficient * 10 ^ grid * 10 ^ (places + 1) := by
      rw [Nat.mul_assoc, two_pow_mul_five_pow 1074, Nat.mul_assoc, ← Nat.pow_add, hplaces]
    have hten : 0 < 10 ^ (places + 1) := Nat.pow_pos (by decide)
    have haround := around_of_isReadAs h hvalue hten
    have hnear := le_log2_add_of_around hpos haround
    rw [hexponent]
    dsimp only
    rw [if_neg (by omega)]
    exact nearestMagnitude_eq hten hfinite haround

end Reading

/-- The shortest decimal of a number, or the same with the zeros it is written with, is read as the
number. -/
theorem nearestMagnitude_shortest {magnitude : Nat} (hfinite : magnitude < infiniteMagnitude) :
    (⟨(shortest magnitude).coefficient * 10 ^ (shortest magnitude).exponent.toNat,
      min 0 (shortest magnitude).exponent⟩ : Decimal).nearestMagnitude = magnitude := by
  by_cases hzero : magnitude = 0
  · subst hzero
    rfl
  · have hpos : 0 < magnitude := Nat.pos_of_ne_zero hzero
    obtain ⟨coefficient, stop, hshortest, hread⟩ := shortestFrom_spec hpos (coarsestGrid magnitude)
    unfold shortest
    rw [if_neg hzero, hshortest]
    dsimp only
    rcases Nat.le_total stop 1074 with hfine | hcoarse
    · have hzeros : ((stop : Int) - 1074).toNat = 0 := by omega
      have hexponent : min 0 ((stop : Int) - 1074) = (stop : Int) - 1074 := by omega
      rw [hzeros, hexponent, Nat.pow_zero, Nat.mul_one]
      exact nearestMagnitude_of_isReadAs hpos hfinite hfine hread
    · have hzeros : ((stop : Int) - 1074).toNat = stop - 1074 := by omega
      have hexponent : min 0 ((stop : Int) - 1074) = ((1074 : Nat) : Int) - 1074 := by omega
      have hstop : stop - 1074 + 1074 = stop := Nat.sub_add_cancel hcoarse
      have hpoint : coefficient * 10 ^ (stop - 1074) * 10 ^ 1074 = coefficient * 10 ^ stop := by
        rw [Nat.mul_assoc, ← Nat.pow_add 10 (stop - 1074) 1074, hstop]
      rw [hzeros, hexponent]
      refine nearestMagnitude_of_isReadAs hpos hfinite (Nat.le_refl 1074) ?_
      rw [hpoint]
      exact hread

/-- Without the sign bit, a number is its magnitude. -/
theorem ofMagnitude_magnitude {n : Number} (hsign : n.isNegative = false) :
    ofMagnitude false n.magnitude = n := by
  have hlt : n.bits.toNat < 2 ^ 63 := by
    simpa [isNegative] using hsign
  unfold ofMagnitude magnitude
  rw [Nat.mod_eq_of_lt hlt]
  simp

/-- **A finite number without a sign is written as a numeral that is read back as the number.** -/
theorem exists_numeral {n : Number} (hfinite : n.isFinite = true) (hsign : n.isNegative = false) :
    ∃ whole fraction, n.toText.toList = numeralChars whole fraction ∧ whole ≠ [] ∧
      (∀ c ∈ whole, Text.isDigit c = true) ∧ (∀ c ∈ fraction, Text.isDigit c = true) ∧
      ofNumeral whole fraction = n := by
  have hmagnitude : n.magnitude < infiniteMagnitude := by
    simpa [isFinite] using hfinite
  have hnan : n.isNaN = false := by
    simpa [isNaN] using Nat.le_of_lt hmagnitude
  obtain ⟨whole, fraction, htext, hne, hwhole, hfraction, hdecimal⟩ :=
    (shortest n.magnitude).exists_numeral
  refine ⟨whole, fraction, ?_, hne, hwhole, hfraction, ?_⟩
  · rw [← htext]
    simp [toText, hnan, hfinite, hsign]
  · unfold ofNumeral Decimal.nearest
    rw [hdecimal, nearestMagnitude_shortest hmagnitude]
    exact ofMagnitude_magnitude hsign

end Number

end SurveyLogic
