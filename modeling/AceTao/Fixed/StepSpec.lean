import AceTao.Fixed.Rounding

/-!
# What increment and decrement are worth

`++` and `--` add and subtract one, and undo each other, for the numbers of `StepSafe`: those with an
integer part, and zero where it has one integer digit at most. For a number between minus one and
one `--` and `++` do not undo each other, because neither gets a negative number above zero
(`inc_nonpos`).
-/

namespace AceTao.Fixed

variable {f g r x y z : Fixed} {m s : ℕ}

/-! ### Up and down -/

/-- What is needed of a magnitude that is stepped. -/
structure Steady (f : Fixed) : Prop extends Decimal f where
  scale_le : f.scale ≤ f.digits
  digits_le : f.digits ≤ maxDigits
  mantissa_lt : f.mantissa < 10 ^ f.digits

theorem Valid.steady (h : Valid f) : Steady f := ⟨h.toDecimal, h.scale_le, h.digits_le, h.mantissa_lt⟩

theorem Steady.unsigned (h : Steady f) : Steady { f with negative := false } :=
  ⟨decimal_unsigned h.toDecimal, h.scale_le, h.digits_le, h.mantissa_lt⟩

theorem Stepped.steady (h : Stepped f r) (hf : Steady f) : Steady r :=
  ⟨h.toDecimal, h.scale ▸ hf.scale_le.trans h.digits_ge, h.digits_le, h.mantissa_lt⟩

/-- **Up, and down again.** -/
theorem up_down (h : Steady f) (hroom : HasRoom f.mantissa f.scale f.digits) :
    ∃ r z, incMagnitude f = .ok r ∧ Stepped f r ∧ r.mantissa = f.mantissa + 10 ^ f.scale ∧
      decMagnitude r = .ok z ∧ Stepped r z ∧ z.mantissa = f.mantissa := by
  obtain ⟨r, hr, hstep, hfit, -⟩ :=
    incMagnitude_spec h.toDecimal h.scale_le h.digits_le h.mantissa_lt
  have hs := hstep.steady h
  have hm := hfit hroom
  obtain ⟨z, hz, hstep', -, hm'⟩ :=
    (decMagnitude_spec hs.toDecimal hs.scale_le hs.digits_le hs.mantissa_lt).1 (by
      rw [hm, hstep.scale]
      exact Nat.le_add_left _ _)
  rw [hstep.scale] at hm'
  exact ⟨r, z, hr, hstep, hm, hz, hstep', by omega⟩

/-- **Down, and up again**, for a number with an integer part. -/
theorem down_up (h : Steady f) (hge : 10 ^ f.scale ≤ f.mantissa) :
    ∃ r z, decMagnitude f = .ok r ∧ Stepped f r ∧ r.digits = f.digits ∧
      r.mantissa + 10 ^ f.scale = f.mantissa ∧
      incMagnitude r = .ok z ∧ Stepped r z ∧ z.mantissa = f.mantissa := by
  obtain ⟨r, hr, hstep, hdigits, hm⟩ :=
    (decMagnitude_spec h.toDecimal h.scale_le h.digits_le h.mantissa_lt).1 hge
  have hs := hstep.steady h
  obtain ⟨z, hz, hstep', hfit, -⟩ :=
    incMagnitude_spec hs.toDecimal hs.scale_le hs.digits_le hs.mantissa_lt
  have hm' := hfit (Or.inl (by
    rw [hstep.scale, hm, hdigits]
    exact h.mantissa_lt))
  rw [hstep.scale, hm] at hm'
  exact ⟨r, z, hr, hstep, hdigits, hm, hz, hstep', hm'⟩

/-! ### The sign -/

theorem inc_of_pos (h : x.negative = false) : x.inc = incMagnitude x := by
  rw [inc, sign, h]
  rfl

theorem dec_of_pos (h : x.negative = false) : x.dec = decMagnitude x := by
  rw [dec, sign, h]
  rfl

theorem inc_of_neg (h : x.negative = true)
    (hg : decMagnitude { x with negative := false } = .ok g) :
    x.inc = .ok (if !g.isZero then { g with negative := true } else g) := by
  rw [inc, sign, h, if_pos rfl, hg]
  rfl

theorem dec_of_neg (h : x.negative = true)
    (hg : incMagnitude { x with negative := false } = .ok g) :
    x.dec = .ok { g with negative := true } := by
  rw [dec, sign, h, if_pos rfl, hg]
  rfl

/-- A number without its sign is itself where it is not negative. -/
theorem unsigned_eq (h : g.negative = false) : { g with negative := false } = g := by
  rw [← h]

/-- **`++` does not get a negative number above zero.** -/
theorem inc_nonpos (hneg : x.negative = true) (hz : x.inc = .ok z) : z.toRat ≤ 0 := by
  rw [inc, sign, hneg, if_pos rfl] at hz
  rcases hg : decMagnitude { x with negative := false } with fault | g
  · rw [hg] at hz
    exact absurd hz (fun h => by cases h)
  · rw [hg] at hz
    have heq : (if !g.isZero then { g with negative := true } else g) = z := Except.ok.inj hz
    cases hzero : g.isZero with
    | false =>
      rw [hzero] at heq
      rw [← heq]
      change (-1 : ℚ) * g.magnitude ≤ 0
      have hnonneg := g.magnitude_nonneg
      linarith
    | true =>
      rw [hzero] at heq
      rw [← heq]
      change g.toRat ≤ 0
      rw [toRat_eq, magnitude, mantissa_of_isZero hzero, Nat.cast_zero, zero_div, mul_zero]

theorem toRat_zero (h : f.mantissa = 0) : f.toRat = 0 := by
  rw [toRat_eq, magnitude, h, Nat.cast_zero, zero_div, mul_zero]

/-! ### Zero -/

theorem one_valid : Valid (fromInteger 1) := by decide +kernel

theorem scaledTo_one (s : ℕ) : (fromInteger 1).scaledTo s = 10 ^ s := by
  rw [scaledTo_of_le (show (fromInteger 1).scale ≤ s from Nat.zero_le s),
    show (fromInteger 1).mantissa = 1 by decide +kernel, Nat.mul_one]
  rfl

theorem scaledTo_zero (h : f.mantissa = 0) (s : ℕ) : f.scaledTo s = 0 := by
  rw [scaledTo, h, Nat.zero_mul, Nat.zero_div]

/-- Zero and one meet at the scale of zero. -/
theorem sumScale_one (hs : f.scale < maxDigits) : sumScale f (fromInteger 1) = f.scale := by
  have hshift : sumShift f (fromInteger 1) = 0 := if_neg (Nat.not_lt_zero f.scale)
  rw [sumScale, hshift, show (fromInteger 1).digits - (fromInteger 1).scale = 1 from rfl]
  omega

/-- A borrow from zero is lost where zero has more than one integer digit. -/
theorem stuck_one_iff (h : Steady f) (hzero : f.mantissa = 0) (hs : f.scale < maxDigits) :
    Stuck f (fromInteger 1) ↔ f.scale + 1 < f.digits := by
  have hle := h.digits_le
  have hshift : sumShift f (fromInteger 1) = 0 := if_neg (Nat.not_lt_zero f.scale)
  rw [Stuck, sumPlace, sumDigits, sumScale_one hs, hshift, scaledTo_zero hzero, scaledTo_one,
    Nat.zero_mod, Nat.zero_div, Nat.zero_mod,
    show (fromInteger 1).digits - (fromInteger 1).scale = 1 from rfl]
  have hpow : 0 < 10 ^ f.scale := Nat.pow_pos (by norm_num)
  constructor
  · rintro ⟨hlt, -, -⟩
    omega
  · exact fun hlt => ⟨by omega, hpow, rfl⟩

/-- **One less than zero.** -/
theorem dec_zero (h : Steady f) (hneg : f.negative = false) (hzero : f.mantissa = 0)
    (hs : f.scale < maxDigits) (hdigits : f.digits ≤ f.scale + 1) :
    ∃ y z, decMagnitude f = .ok y ∧ y.negative = true ∧ y.toRat = -1 ∧
      y.inc = .ok z ∧ z.toRat = 0 := by
  have hv : Valid f := valid_iff.mpr
    ⟨h.toDecimal, h.scale_le, h.digits_le, h.mantissa_lt, fun _ => hneg⟩
  have hpow : 0 < 10 ^ f.scale := Nat.pow_pos (by norm_num)
  have hstuck : ¬Stuck f (fromInteger 1) :=
    fun hc => absurd ((stuck_one_iff h hzero hs).mp hc) (by omega)
  have hlt : f.scaledTo (sumScale f (fromInteger 1)) <
      (fromInteger 1).scaledTo (sumScale f (fromInteger 1)) := by
    rw [scaledTo_zero hzero, scaledTo_one]
    exact Nat.pow_pos (by norm_num)
  have hstuck' : ¬Stuck (fromInteger 1) f := fun hc => by
    have hlow := hc.2.1
    rw [scaledTo_zero hzero] at hlow
    exact absurd hlow (Nat.not_lt_zero _)
  obtain ⟨r, hr, hdiff⟩ := subSame_direct one_valid hv hstuck'
    (by rw [scaledTo_zero hzero]; exact Nat.zero_le _) 0
  have hm := hdiff.mantissa
  rw [scaledTo_zero hzero, scaledTo_one, Nat.sub_zero, ← hdiff.scale] at hm
  have hdec : decMagnitude f = .ok r.neg := by
    rw [(decMagnitude_spec h.toDecimal h.scale_le h.digits_le h.mantissa_lt).2 (by omega),
      subSame_swap hv one_valid hstuck hlt, hr]
    rfl
  have hr1 : r.negative = false := hdiff.negative
  have hrs : Steady r := ⟨hdiff.toDecimal, hdiff.scale_le,
    hdiff.digits_le.trans (sumDigits_le hv), hdiff.mantissa ▸ hdiff.mantissa_lt⟩
  obtain ⟨z, hz, hstep, -, hzm⟩ :=
    (decMagnitude_spec hrs.toDecimal hrs.scale_le hrs.digits_le hrs.mantissa_lt).1 hm.ge
  have hzero' : z.mantissa = 0 := by omega
  have hinc : r.neg.inc = .ok z := by
    rw [inc_of_neg (x := r.neg) (g := z) (by rw [neg_negative, hr1]; rfl)
      ((congrArg decMagnitude (unsigned_eq hr1)).trans hz),
      (isZero_iff hstep.toDecimal (hstep.negative.trans hr1)).mpr hzero']
    rfl
  refine ⟨r.neg, z, hdec, by rw [neg_negative, hr1]; rfl, ?_, hinc, toRat_zero hzero'⟩
  have hpow' : (10 : ℚ) ^ r.scale ≠ 0 := by positivity
  rw [toRat_neg, toRat_eq, hr1, magnitude, hm, Nat.cast_pow, Nat.cast_ofNat, div_self hpow']
  norm_num

/-- **A lost borrow**: less than zero, but not by one. -/
theorem dec_zero_stuck (h : Steady f) (hneg : f.negative = false) (hzero : f.mantissa = 0)
    (hdigits : f.scale + 1 < f.digits) : ∃ y, decMagnitude f = .ok y ∧ y.toRat ≠ -1 := by
  have hv : Valid f := valid_iff.mpr
    ⟨h.toDecimal, h.scale_le, h.digits_le, h.mantissa_lt, fun _ => hneg⟩
  have hle := h.digits_le
  obtain ⟨y, hy, hfar⟩ := subSame_lost hv one_valid hneg
    (Or.inl ((stuck_one_iff h hzero (by omega)).mpr hdigits))
  refine ⟨y, ?_, fun hc => ?_⟩
  · rw [(decMagnitude_spec h.toDecimal h.scale_le h.digits_le h.mantissa_lt).2 (by
      rw [hzero]
      exact Nat.pow_pos (by norm_num)), hy]
  · rw [hc, toRat_zero hzero, show (fromInteger 1).toRat = 1 by decide +kernel] at hfar
    norm_num at hfar
    exact absurd hfar (not_le.mpr (by positivity))

/-! ### What is expected -/

/-- A number that fits in 31 digits. -/
def Fits (q : ℚ) : Prop := ∃ m t : ℕ, m < 10 ^ maxDigits ∧ t ≤ maxDigits ∧ |q| = m / 10 ^ t

/-- **What is expected** of `++` and `--`. -/
structure StepsAsClaimed (x : Fixed) : Prop where
  inc_ok : ∃ y, x.inc = .ok y
  dec_ok : ∃ y, x.dec = .ok y
  inc_value : Fits (x.toRat + 1) →
    ∃ y z, x.inc = .ok y ∧ y.toRat = x.toRat + 1 ∧ y.dec = .ok z ∧ z.toRat = x.toRat
  dec_value : Fits (x.toRat - 1) →
    ∃ y z, x.dec = .ok y ∧ y.toRat = x.toRat - 1 ∧ y.inc = .ok z ∧ z.toRat = x.toRat

/-- **The numbers that are stepped right**: with an integer part, or zero with at most one integer
digit; minus one with at most one integer digit; and where all 31 digits are used and the integer
part is all nines, the last digit behind the point is needed. -/
structure StepSafe (x : Fixed) : Prop where
  integer : 10 ^ x.scale ≤ x.mantissa ∨ (x.mantissa = 0 ∧ x.digits ≤ x.scale + 1)
  minusOne : x.negative = true → x.mantissa = 10 ^ x.scale → x.digits ≤ x.scale + 1
  room : HasRoom x.mantissa x.scale x.digits ∨ x.digit 0 ≠ 0

/-- Neither operator fails, nor leaves the digits. -/
theorem magnitude_ok (h : Valid x) :
    (∃ g, incMagnitude { x with negative := false } = .ok g) ∧
      ∃ g, decMagnitude { x with negative := false } = .ok g := by
  have hs := h.steady.unsigned
  have hv : Valid { x with negative := false } := valid_iff.mpr
    ⟨hs.toDecimal, hs.scale_le, hs.digits_le, hs.mantissa_lt, fun _ => rfl⟩
  obtain ⟨g, hg, -⟩ := incMagnitude_spec hs.toDecimal hs.scale_le hs.digits_le hs.mantissa_lt
  obtain ⟨htake, hsub⟩ := decMagnitude_spec hs.toDecimal hs.scale_le hs.digits_le hs.mantissa_lt
  refine ⟨⟨g, hg⟩, ?_⟩
  rcases Nat.lt_or_ge x.mantissa (10 ^ x.scale) with hlt | hge
  · obtain ⟨r, hr, -⟩ := subSame_answers hv one_valid rfl
    exact ⟨r, (hsub hlt).trans hr⟩
  · obtain ⟨r, hr, -⟩ := htake hge
    exact ⟨r, hr⟩

theorem steps_ok (h : Valid x) : (∃ y, x.inc = .ok y) ∧ ∃ y, x.dec = .ok y := by
  obtain ⟨⟨g, hg⟩, ⟨g', hg'⟩⟩ := magnitude_ok h
  cases hneg : x.negative with
  | false =>
    rw [unsigned_eq hneg] at hg hg'
    exact ⟨⟨g, (inc_of_pos hneg).trans hg⟩, ⟨g', (dec_of_pos hneg).trans hg'⟩⟩
  | true => exact ⟨⟨_, inc_of_neg hneg hg'⟩, ⟨_, dec_of_neg hneg hg⟩⟩

/-! ### Numbers that fit -/

theorem magnitude_up (hs : r.scale = x.scale) (hm : r.mantissa = x.mantissa + 10 ^ x.scale) :
    r.magnitude = x.magnitude + 1 := by
  have hpow : (10 : ℚ) ^ x.scale ≠ 0 := by positivity
  rw [magnitude, magnitude, hs, hm, Nat.cast_add, Nat.cast_pow, Nat.cast_ofNat, add_div,
    div_self hpow]

theorem magnitude_down (hs : r.scale = x.scale) (hm : r.mantissa + 10 ^ x.scale = x.mantissa) :
    r.magnitude = x.magnitude - 1 := by
  have hup := magnitude_up (r := x) (x := { r with scale := x.scale }) rfl hm.symm
  rw [hup, add_sub_cancel_right]
  exact congrArg (fun n => (r.mantissa : ℚ) / 10 ^ n) hs

theorem fits_neg {q : ℚ} : Fits (-q) ↔ Fits q := by rw [Fits, Fits, abs_neg]

/-- One away from a fraction fits. -/
theorem fits_fraction (hlt : x.mantissa < 10 ^ x.scale) (hpos : 0 < x.mantissa)
    (hs : x.scale ≤ maxDigits) : Fits (x.magnitude - 1) := by
  have hpow : (10 : ℚ) ^ x.scale ≠ 0 := by positivity
  have hle : (10 : ℕ) ^ x.scale ≤ 10 ^ maxDigits := Nat.pow_le_pow_right (by norm_num) hs
  refine ⟨10 ^ x.scale - x.mantissa, x.scale, by omega, hs, ?_⟩
  rw [Nat.cast_sub hlt.le, Nat.cast_pow, Nat.cast_ofNat, sub_div, div_self hpow, ← magnitude,
    abs_sub_comm, abs_of_nonneg]
  rw [sub_nonneg, magnitude, div_le_one (by positivity)]
  exact_mod_cast hlt.le

/-- A number of 32 digits fits when the last one is zero. -/
theorem fits_carry {M s : ℕ} (hM : M < 10 ^ maxDigits) (hs : s + 1 ≤ maxDigits)
    (hge : 10 ^ maxDigits ≤ M + 10 ^ (s + 1)) :
    (∃ m t : ℕ, m < 10 ^ maxDigits ∧ t ≤ maxDigits ∧
      ((M + 10 ^ (s + 1) : ℕ) : ℚ) / 10 ^ (s + 1) = m / 10 ^ t) ↔ M % 10 = 0 := by
  constructor
  · rintro ⟨m, t, hmt, ht, heq⟩
    rw [div_eq_div_iff (by positivity) (by positivity)] at heq
    have hnat : (M + 10 ^ (s + 1)) * 10 ^ t = m * 10 ^ (s + 1) := by exact_mod_cast heq
    rcases Nat.lt_or_ge s t with hlt | hge'
    · -- the same number with as many digits behind the point needs 32 digits
      obtain ⟨k, rfl⟩ := Nat.exists_eq_add_of_le (show s + 1 ≤ t from hlt)
      rw [pow_add _ (s + 1), Nat.mul_comm (10 ^ (s + 1)), ← Nat.mul_assoc] at hnat
      have hmul := Nat.eq_of_mul_eq_mul_right (Nat.pow_pos (by norm_num)) hnat
      have hle := Nat.le_mul_of_pos_right (M + 10 ^ (s + 1)) (show 0 < 10 ^ k from Nat.pow_pos
        (by norm_num))
      omega
    · obtain ⟨k, rfl⟩ := Nat.exists_eq_add_of_le hge'
      rw [show t + k + 1 = k + 1 + t by omega, pow_add _ (k + 1), ← Nat.mul_assoc m] at hnat
      have hmul := Nat.eq_of_mul_eq_mul_right (Nat.pow_pos (by norm_num)) hnat
      have hten : 10 ∣ 10 ^ (k + 1) := dvd_pow_self 10 (Nat.succ_ne_zero k)
      have hsum : 10 ∣ M + 10 ^ (k + 1) * 10 ^ t := hmul ▸ hten.mul_left m
      exact Nat.mod_eq_zero_of_dvd ((Nat.dvd_add_left (hten.mul_right _)).mp hsum)
  · intro hzero
    have hpow : (10 : ℕ) ^ (s + 1) ≤ 10 ^ maxDigits := Nat.pow_le_pow_right (by norm_num) hs
    have hsplit : M + 10 ^ (s + 1) = 10 * (M / 10 + 10 ^ s) := by
      rw [pow_succ]
      omega
    refine ⟨M / 10 + 10 ^ s, s, by omega, by omega, ?_⟩
    rw [hsplit, pow_succ', Nat.cast_mul, Nat.cast_ofNat, mul_div_mul_left _ _ (by norm_num)]

/-- **A carry out of all digits** fits when the last digit behind the point can be dropped. -/
theorem fits_up (h : Steady x) (hroom : ¬HasRoom x.mantissa x.scale x.digits)
    (hpos : 0 < x.scale) : Fits (x.magnitude + 1) ↔ x.digit 0 = 0 := by
  rw [HasRoom, not_or, not_lt, not_lt] at hroom
  have hfull : x.digits = maxDigits := le_antisymm h.digits_le hroom.2
  have hge := hroom.1
  have hle := h.scale_le
  rw [hfull] at hge hle
  have hup : |x.magnitude + 1| = ((x.mantissa + 10 ^ x.scale : ℕ) : ℚ) / 10 ^ x.scale := by
    have hpow : (10 : ℚ) ^ x.scale ≠ 0 := by positivity
    rw [Nat.cast_add, Nat.cast_pow, Nat.cast_ofNat, add_div, div_self hpow, ← magnitude,
      abs_of_nonneg (add_nonneg x.magnitude_nonneg zero_le_one)]
  rw [Fits, hup, digit_eq h.toDecimal, pow_zero, Nat.div_one]
  have hlt := AceTao.Fixed.mantissa_lt h.toDecimal
  generalize x.scale = s at hge hle hpos ⊢
  obtain ⟨s, rfl⟩ := Nat.exists_eq_succ_of_ne_zero hpos.ne'
  exact fits_carry hlt hle hge

/-! ### The main result -/

theorem toRat_of_pos (h : f.negative = false) : f.toRat = f.magnitude := by
  rw [toRat_eq, h, if_neg Bool.false_ne_true, one_mul]

theorem toRat_of_neg (h : f.negative = true) : f.toRat = -f.magnitude := by
  rw [toRat_eq, h, if_pos rfl, neg_one_mul]

/-- A number that is not negative has no sign. -/
theorem magnitude_congr (hs : g.scale = f.scale) (hm : g.mantissa = f.mantissa) :
    g.magnitude = f.magnitude := by
  rw [magnitude, magnitude, hs, hm]

/-- There is a digit behind the point where a carry gets out of a number below `10 ^ 30`. -/
theorem scale_pos (h : Steady x) (hx : x.magnitude < 10 ^ 30)
    (hroom : ¬HasRoom x.mantissa x.scale x.digits) : 0 < x.scale := by
  rw [HasRoom, not_or, not_lt, not_lt] at hroom
  by_contra hc
  have hzero : x.scale = 0 := by omega
  have hfull : x.digits = maxDigits := le_antisymm h.digits_le hroom.2
  have hge := hroom.1
  rw [hzero, hfull, pow_zero] at hge
  rw [magnitude, hzero, pow_zero, div_one] at hx
  have hlt : x.mantissa < 10 ^ 30 := by exact_mod_cast hx
  norm_num [maxDigits] at hge
  omega

/-- **The step away from zero**, where it is safe. -/
theorem away_value (h : Steady x) (hx : x.magnitude < 10 ^ 30)
    (hsafe : HasRoom x.mantissa x.scale x.digits ∨ x.digit 0 ≠ 0)
    (hfits : Fits (x.magnitude + 1)) : HasRoom x.mantissa x.scale x.digits := by
  by_contra hroom
  exact hsafe.resolve_left hroom ((fits_up h hroom (scale_pos h hx hroom)).mp hfits)

/-- **Stepping a number that is not negative.** -/
theorem steps_of_pos (h : Valid x) (hneg : x.negative = false) (hx : x.magnitude < 10 ^ 30)
    (hsafe : StepSafe x) : StepsAsClaimed x := by
  have hs := h.steady
  obtain ⟨hinc, hdec⟩ := steps_ok h
  have hrat := toRat_of_pos hneg
  refine ⟨hinc, hdec, fun hfits => ?_, fun hfits => ?_⟩
  · rw [hrat] at hfits ⊢
    obtain ⟨r, z, hr, hstep, hm, hz, hstep', hm'⟩ :=
      up_down hs (away_value hs hx hsafe.room hfits)
    have hr1 := hstep.negative.trans hneg
    have hz1 := hstep'.negative.trans hr1
    refine ⟨r, z, (inc_of_pos hneg).trans hr, ?_, (dec_of_pos hr1).trans hz, ?_⟩
    · rw [toRat_of_pos hr1, magnitude_up hstep.scale hm]
    · rw [toRat_of_pos hz1, magnitude_congr (hstep'.scale.trans hstep.scale) hm']
  · rcases hsafe.integer with hge | ⟨hzero, hdigits⟩
    · obtain ⟨r, z, hr, hstep, -, hm, hz, hstep', hm'⟩ := down_up hs hge
      have hr1 := hstep.negative.trans hneg
      have hz1 := hstep'.negative.trans hr1
      rw [hrat]
      refine ⟨r, z, (dec_of_pos hneg).trans hr, ?_, (inc_of_pos hr1).trans hz, ?_⟩
      · rw [toRat_of_pos hr1, magnitude_down hstep.scale hm]
      · rw [toRat_of_pos hz1, magnitude_congr (hstep'.scale.trans hstep.scale) hm']
    · -- zero has a last digit that is zero
      have hdigit : x.digit 0 = 0 := by rw [digit_eq h.toDecimal, hzero, Nat.zero_div]
      have hscale : x.scale < maxDigits := by
        have hle := h.scale_le
        have hle' := h.digits_le
        rcases hsafe.room.resolve_right (not_not.mpr hdigit) with hroom | hroom
        · rw [hzero, Nat.zero_add] at hroom
          exact ((Nat.pow_lt_pow_iff_right (by norm_num)).mp hroom).trans_le hle'
        · omega
      obtain ⟨y, z, hy, -, hyv, hz, hzv⟩ := dec_zero hs hneg hzero hscale hdigits
      rw [toRat_zero hzero, zero_sub]
      exact ⟨y, z, (dec_of_pos hneg).trans hy, hyv, hz, hzv⟩

/-- **Stepping a negative number.** -/
theorem steps_of_neg (h : Valid x) (hneg : x.negative = true) (hx : x.magnitude < 10 ^ 30)
    (hsafe : StepSafe x) : StepsAsClaimed x := by
  have hs := h.steady.unsigned
  obtain ⟨hinc, hdec⟩ := steps_ok h
  have hrat := toRat_of_neg hneg
  have hne : x.mantissa ≠ 0 := fun hc => Bool.false_ne_true ((h.unsigned hc).symm.trans hneg)
  refine ⟨hinc, hdec, fun _ => ?_, fun hfits => ?_⟩
  · -- toward zero
    obtain ⟨g, z, hg, hstep, hdigits, hm, hz, hstep', hm'⟩ :=
      down_up hs (hsafe.integer.resolve_right fun hc => hne hc.1)
    have hg1 : g.negative = false := hstep.negative
    have hgm : g.magnitude = x.magnitude - 1 := magnitude_down hstep.scale hm
    rw [hrat]
    by_cases hzero : g.mantissa = 0
    · have hone : x.mantissa = 10 ^ x.scale := by
        rw [← show _ = x.mantissa from hm, hzero, Nat.zero_add]
      have hmax := h.mantissa_lt
      rw [hone] at hmax
      have hscale := ((Nat.pow_lt_pow_iff_right (by norm_num)).mp hmax).trans_le h.digits_le
      have hgscale : g.scale = x.scale := hstep.scale
      obtain ⟨y, -, hy, -, hyv, -⟩ := dec_zero (hstep.steady hs) hg1 hzero
        (hgscale ▸ hscale) (by
          rw [hdigits, hgscale]
          exact hsafe.minusOne hneg hone)
      have hmag : x.magnitude = 1 := by
        have := toRat_zero hzero
        rw [toRat_of_pos hg1, hgm] at this
        linarith
      refine ⟨g, y, ?_, ?_, (dec_of_pos hg1).trans hy, ?_⟩
      · rw [inc_of_neg hneg hg, (isZero_iff hstep.toDecimal hg1).mpr hzero]
        rfl
      · rw [toRat_zero hzero, hmag]
        norm_num
      · rw [hyv, hmag]
    · have hflag : g.isZero = false :=
        Bool.eq_false_iff.mpr (mt (isZero_iff hstep.toDecimal hg1).mp hzero)
      refine ⟨{ g with negative := true }, { z with negative := true }, ?_, ?_,
        dec_of_neg rfl ((congrArg incMagnitude (unsigned_eq hg1)).trans hz), ?_⟩
      · rw [inc_of_neg hneg hg, hflag]
        rfl
      · rw [toRat_of_neg rfl]
        change -g.magnitude = _
        rw [hgm]
        ring
      · rw [toRat_of_neg rfl]
        exact congrArg Neg.neg (magnitude_congr (hstep'.scale.trans hstep.scale) hm')
  · -- away from zero
    rw [hrat, ← neg_add', fits_neg] at hfits
    obtain ⟨r, z, hr, hstep, hm, hz, hstep', hm'⟩ :=
      up_down hs (away_value hs hx hsafe.room hfits)
    have hr1 : r.negative = false := hstep.negative
    have hz1 : z.negative = false := hstep'.negative.trans hr1
    have hzm : z.mantissa = x.mantissa := hm'
    have hflag : z.isZero = false :=
      Bool.eq_false_iff.mpr fun hc => hne (hzm ▸ (isZero_iff hstep'.toDecimal hz1).mp hc)
    refine ⟨{ r with negative := true }, { z with negative := true }, dec_of_neg hneg hr, ?_, ?_, ?_⟩
    · rw [toRat_of_neg rfl, hrat]
      change -r.magnitude = _
      rw [magnitude_up hstep.scale hm]
      exact neg_add' _ _
    · rw [inc_of_neg (x := { r with negative := true }) (g := z) rfl
        ((congrArg decMagnitude (unsigned_eq hr1)).trans hz), hflag]
      rfl
    · rw [toRat_of_neg rfl, hrat]
      exact congrArg Neg.neg (magnitude_congr (hstep'.scale.trans hstep.scale) hm')

/-! ### Where the steps go wrong -/

/-- **Between zero and one** in magnitude the steps do not undo each other. -/
theorem not_steps_fraction (h : Valid x) (hlt : x.mantissa < 10 ^ x.scale)
    (hpos : 0 < x.mantissa) : ¬StepsAsClaimed x := by
  intro hc
  have hfits := fits_fraction hlt hpos (h.scale_le.trans h.digits_le)
  have hmag : 0 < x.magnitude := div_pos (Nat.cast_pos.mpr hpos) (by positivity)
  have hone : x.magnitude < 1 := by
    rw [magnitude, div_lt_one (by positivity)]
    exact_mod_cast hlt
  cases hneg : x.negative with
  | false =>
    rw [← toRat_of_pos hneg] at hfits hmag hone
    obtain ⟨y, z, -, hy, hz, hzv⟩ := hc.dec_value hfits
    have hyneg : y.negative = true := by
      by_contra hy1
      rw [toRat_of_pos (Bool.eq_false_iff.mpr hy1)] at hy
      have := y.magnitude_nonneg
      linarith
    have := inc_nonpos hyneg hz
    linarith
  | true =>
    rw [← fits_neg, neg_sub, sub_eq_add_neg, ← toRat_of_neg hneg, add_comm] at hfits
    obtain ⟨y, -, hy, hyv, -⟩ := hc.inc_value hfits
    have := inc_nonpos hneg hy
    rw [hyv, toRat_of_neg hneg] at this
    linarith

/-- **A carry out of all digits** is lost. -/
theorem not_steps_full (h : Valid x) (hx : x.magnitude < 10 ^ 30)
    (hroom : ¬HasRoom x.mantissa x.scale x.digits) (hzero : x.digit 0 = 0) :
    ¬StepsAsClaimed x := by
  intro hc
  have hs := h.steady.unsigned
  have hfits : Fits (x.magnitude + 1) :=
    (fits_up h.steady hroom (scale_pos h.steady hx hroom)).mpr hzero
  obtain ⟨r, hr, hstep, -, hfull⟩ :=
    incMagnitude_spec hs.toDecimal hs.scale_le hs.digits_le hs.mantissa_lt
  have hm : r.mantissa + 10 ^ maxDigits = x.mantissa + 10 ^ x.scale := hfull hroom
  -- the magnitude is not the one that is wanted
  have hne : r.magnitude ≠ x.magnitude + 1 := by
    intro heq
    have hpow : (10 : ℚ) ^ x.scale ≠ 0 := by positivity
    rw [magnitude, magnitude, show r.scale = x.scale from hstep.scale, ← div_self hpow, ← add_div,
      div_left_inj' hpow] at heq
    have hnat : r.mantissa = x.mantissa + 10 ^ x.scale := by exact_mod_cast heq
    have hpos : 0 < 10 ^ maxDigits := Nat.pow_pos (by norm_num)
    omega
  cases hneg : x.negative with
  | false =>
    rw [← toRat_of_pos hneg] at hfits
    obtain ⟨y, -, hy, hyv, -⟩ := hc.inc_value hfits
    rw [unsigned_eq hneg] at hr
    obtain rfl := Except.ok.inj (((inc_of_pos hneg).trans hr).symm.trans hy)
    rw [toRat_of_pos hstep.negative, toRat_of_pos hneg] at hyv
    exact hne hyv
  | true =>
    rw [← fits_neg, neg_add', ← toRat_of_neg hneg] at hfits
    obtain ⟨y, -, hy, hyv, -⟩ := hc.dec_value hfits
    obtain rfl := Except.ok.inj ((dec_of_neg hneg hr).symm.trans hy)
    rw [toRat_of_neg rfl, toRat_of_neg hneg] at hyv
    have hyv' : -r.magnitude = -x.magnitude - 1 := hyv
    exact hne (by linarith)

/-- Zero fits. -/
theorem fits_of_zero {q : ℚ} (h : q = 0) : Fits q :=
  ⟨0, 0, Nat.pow_pos (by norm_num), Nat.zero_le _, by rw [h, abs_zero, Nat.cast_zero, zero_div]⟩

theorem fits_of_one {q : ℚ} (h : q = -1) : Fits q :=
  ⟨1, 0, by norm_num [maxDigits], Nat.zero_le _, by rw [h]; norm_num⟩

/-- **Zeros in front** make a step down from zero lose its borrow. -/
theorem not_steps_zeros (h : Valid x) (hdigits : x.scale + 1 < x.digits)
    (hm : x.mantissa = 0 ∨ (x.negative = true ∧ x.mantissa = 10 ^ x.scale)) :
    ¬StepsAsClaimed x := by
  intro hc
  rcases hm with hzero | ⟨hneg, hone⟩
  · have hneg := h.unsigned hzero
    obtain ⟨y, hy, hne⟩ := dec_zero_stuck h.steady hneg hzero hdigits
    have hv := toRat_zero hzero
    obtain ⟨y', -, hy', hyv, -⟩ := hc.dec_value (fits_of_one (by rw [hv, zero_sub]))
    obtain rfl := Except.ok.inj (((dec_of_pos hneg).trans hy).symm.trans hy')
    exact hne (by rw [hyv, hv, zero_sub])
  · -- one step up is zero
    have hs := h.steady.unsigned
    obtain ⟨g, -, hg, hstep, hgd, hgm, -⟩ := down_up hs hone.ge
    have hg1 : g.negative = false := hstep.negative
    have hgzero : g.mantissa = 0 := by
      have : g.mantissa + 10 ^ x.scale = x.mantissa := hgm
      omega
    have hinc : x.inc = .ok g := by
      rw [inc_of_neg hneg hg, (isZero_iff hstep.toDecimal hg1).mpr hgzero]
      rfl
    have hv : x.toRat = -1 := by
      have hpow : (10 : ℚ) ^ x.scale ≠ 0 := by positivity
      rw [toRat_of_neg hneg, magnitude, hone, Nat.cast_pow, Nat.cast_ofNat, div_self hpow]
    obtain ⟨y, hy, hne⟩ := dec_zero_stuck (hstep.steady hs) hg1 hgzero (by
      rw [hgd, show g.scale = x.scale from hstep.scale]
      exact hdigits)
    obtain ⟨y', z, hy', -, hz, hzv⟩ := hc.inc_value (fits_of_zero (by rw [hv]; norm_num))
    obtain rfl := Except.ok.inj (hinc.symm.trans hy')
    obtain rfl := Except.ok.inj (((dec_of_pos hg1).trans hy).symm.trans hz)
    exact hne (hzv.trans hv)

/-- **Increment and decrement** do what is expected exactly of the numbers that are safe to step. -/
theorem steps_as_claimed_iff (h : Valid x) (hx : |x.toRat| < 10 ^ 30) :
    StepsAsClaimed x ↔ StepSafe x := by
  rw [abs_toRat] at hx
  constructor
  · intro hc
    refine ⟨?_, fun hneg hone => ?_, ?_⟩
    · by_contra hcon
      rw [not_or, not_le, not_and] at hcon
      rcases Nat.eq_zero_or_pos x.mantissa with hzero | hpos
      · exact not_steps_zeros h (not_le.mp (hcon.2 hzero)) (Or.inl hzero) hc
      · exact not_steps_fraction h hcon.1 hpos hc
    · by_contra hcon
      exact not_steps_zeros h (not_le.mp hcon) (Or.inr ⟨hneg, hone⟩) hc
    · by_contra hcon
      rw [not_or, not_not] at hcon
      exact not_steps_full h hx hcon.1 hcon.2 hc
  · intro hsafe
    cases hneg : x.negative with
    | false => exact steps_of_pos h hneg hx hsafe
    | true => exact steps_of_neg h hneg hx hsafe

theorem steps_as_claimed_iff_seven :
    StepsAsClaimed (fromInteger 7).neg ↔ StepSafe (fromInteger 7).neg :=
  steps_as_claimed_iff (by decide +kernel) (by decide +kernel)

/-- Half below zero, incremented, is still half below zero. -/
theorem not_steps_half :
    ¬StepsAsClaimed { fromInteger 5 with negative := true, scale := 1 } := by
  intro h
  have hrun : inc { fromInteger 5 with negative := true, scale := 1 } =
      .ok { fromInteger 5 with negative := true, scale := 1 } := by decide +kernel
  have hvalue : toRat { fromInteger 5 with negative := true, scale := 1 } = -1 / 2 := by
    decide +kernel
  obtain ⟨y, -, hy, hyv, -⟩ := h.inc_value ⟨5, 1, by norm_num [maxDigits], by norm_num [maxDigits],
    by rw [hvalue]; norm_num⟩
  obtain rfl := Except.ok.inj (hrun.symm.trans hy)
  rw [hvalue] at hyv
  norm_num at hyv

end AceTao.Fixed
