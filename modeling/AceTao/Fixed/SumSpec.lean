import AceTao.Fixed.Sum

/-!
# What sums and differences are worth

The value that `+=` and `-=` leave against the rational sum and difference. Adding magnitudes does
all that is expected (`addSame_value`). Subtracting them does so unless a borrow is lost,
`BorrowLost`; then the result is wrong by more than any rounding (`subSame_lost`).
-/

namespace AceTao.Fixed

variable {a b f r : Fixed} {m s : ℕ} {e : ℚ}

/-! ### Values and signs -/

theorem toRat_eq (f : Fixed) :
    f.toRat = (if f.negative then -1 else 1) * f.magnitude := rfl

@[simp] theorem neg_magnitude (f : Fixed) : f.neg.magnitude = f.magnitude := rfl

@[simp] theorem neg_scale (f : Fixed) : f.neg.scale = f.scale := rfl

@[simp] theorem neg_negative (f : Fixed) : f.neg.negative = !f.negative := rfl

/-- The operator `-` negates. -/
theorem toRat_neg (f : Fixed) : f.neg.toRat = -f.toRat := by
  rw [toRat_eq, toRat_eq, neg_magnitude, neg_negative]
  cases f.negative <;> simp

/-- A negative number is not zero, so that its opposite is valid. -/
theorem Valid.neg (h : Valid f) (hneg : f.negative = true) : Valid f.neg :=
  ⟨⟨h.length, h.isDigits⟩, h.scale_le, h.digits_le, h.clean, fun _ => by
    rw [neg_negative, hneg]
    rfl⟩

theorem magnitude_eq (hs : f.scale = s) (hm : f.mantissa = m) : f.magnitude = m / 10 ^ s := by
  rw [magnitude, hs, hm]

/-! ### Less than one unit in the last place -/

/-- A difference in units of the last place. -/
theorem near_iff (m e : ℚ) (s : ℕ) : |m / 10 ^ s - e| < 1 / 10 ^ s ↔ |m - e * 10 ^ s| < 1 := by
  have hpos : (0 : ℚ) < 10 ^ s := by positivity
  rw [show m / 10 ^ s - e = (m - e * 10 ^ s) / 10 ^ s by field_simp, abs_div, abs_of_pos hpos,
    div_lt_div_iff_of_pos_right hpos]

/-- **At a scale that one of two numbers has**, only the other loses digits, so that sum and
difference of the digits are less than one unit off. -/
theorem scaledTo_near (hs : a.scale ≤ s ∨ b.scale ≤ s) :
    (a.scaledTo s + b.scaledTo s : ℚ) ≤ (a.magnitude + b.magnitude) * 10 ^ s ∧
      (a.magnitude + b.magnitude) * 10 ^ s < a.scaledTo s + b.scaledTo s + 1 ∧
      |(a.scaledTo s - b.scaledTo s : ℚ) - (a.magnitude - b.magnitude) * 10 ^ s| < 1 := by
  have ha := a.scaledTo_le s
  have ha' := a.lt_scaledTo_succ s
  have hb := b.scaledTo_le s
  have hb' := b.lt_scaledTo_succ s
  rw [add_mul, sub_mul, abs_lt]
  rcases hs with hs | hs
  · rw [scaledTo_cast hs] at ha' ⊢
    refine ⟨?_, ?_, ?_, ?_⟩ <;> linarith
  · rw [scaledTo_cast hs] at hb' ⊢
    refine ⟨?_, ?_, ?_, ?_⟩ <;> linarith

/-! ### What is expected -/

/-- The integer digits. -/
def integerDigitCount (f : Fixed) : ℕ := f.digits - f.scale

/-- There is room for all digits of both numbers, and for a carry. -/
def Roomy (a b : Fixed) : Prop :=
  max a.integerDigitCount b.integerDigitCount + max a.scale b.scale + 1 ≤ maxDigits

instance (a b : Fixed) : Decidable (Roomy a b) := inferInstanceAs (Decidable (_ ≤ _))

/-- **What is expected** of an operation on `a` and `b` with the result `e`. -/
structure SumAsClaimed (a b : Fixed) (e : ℚ) (after : Fixed × Option Fault) : Prop where
  throws : after.2 = some .overflow ↔ 10 ^ maxDigits ≤ |e|
  kept : after.2 = some .overflow → after.1 = a
  returns : |e| < 10 ^ maxDigits → after.2 = none
  value_eq : |e| < 10 ^ maxDigits → Roomy a b → after.1.toRat = e
  near : |e| < 10 ^ maxDigits → |after.1.toRat - e| < 1 / 10 ^ after.1.scale

/-- With room for all digits, the scale is the greater one. -/
theorem Roomy.sumScale_eq (h : Roomy a b) (ha : Valid a) (hb : Valid b) :
    sumScale a b = max a.scale b.scale := by
  have ha1 := ha.scale_le
  have hb1 := hb.scale_le
  rw [Roomy, integerDigitCount, integerDigitCount] at h
  have hshift : a.scale + sumShift a b = max a.scale b.scale := by
    rw [sumShift]
    by_cases hscale : a.scale < b.scale
    · rw [if_pos hscale, shiftBy_eq]
      · omega
      · refine (le_leadingZeros_iff (by omega) (mantissa_lt ha.toDecimal)).mpr ?_
        exact ha.mantissa_lt.trans_le (Nat.pow_le_pow_right (by norm_num) (by omega))
    · rw [if_neg hscale]
      omega
  rw [sumScale, hshift]
  omega

/-! ### Adding magnitudes -/

/-- With room for all digits there is no carry out of them. -/
theorem Roomy.sum_lt (h : Roomy a b) (ha : Valid a) (hb : Valid b) :
    a.scaledTo (sumScale a b) + b.scaledTo (sumScale a b) < 10 ^ maxDigits := by
  have hs := h.sumScale_eq ha hb
  rw [Roomy, integerDigitCount, integerDigitCount] at h
  have hlt : ∀ n, sumScale a b + n + 1 ≤ maxDigits →
      10 ^ (sumScale a b + n) ≤ 10 ^ (maxDigits - 1) := fun n hn =>
    Nat.pow_le_pow_right (by norm_num) (by omega)
  have hA := (scaledTo_lt ha (sumScale a b)).trans_le (hlt _ (by omega))
  have hB := (scaledTo_lt hb (sumScale a b)).trans_le (hlt _ (by omega))
  have hpow : 10 ^ maxDigits = 10 * 10 ^ (maxDigits - 1) := rfl
  omega

/-- Both numbers are below the greatest one at the scale where they meet. -/
theorem sum_lt_two (ha : Valid a) (hb : Valid b) :
    a.scaledTo (sumScale a b) + b.scaledTo (sumScale a b) < 2 * 10 ^ maxDigits := by
  have hD := sumDigits_le (a := a) hb
  have hA := (scaledTo_lt_sumDigits ha hb).trans_le (Nat.pow_le_pow_right (by norm_num) hD)
  have hB := (scaledTo_lt_sumPlace (a := a) hb).trans_le
    (Nat.pow_le_pow_right (by norm_num) ((sumPlace_le a b).trans hD))
  omega

/-- **Adding magnitudes.** -/
theorem addSame_value (ha : Valid a) (hb : Valid b) :
    (10 ^ maxDigits ≤ a.magnitude + b.magnitude → addSame a b = .error .overflow) ∧
      (a.magnitude + b.magnitude < 10 ^ maxDigits → ∃ r, addSame a b = .ok r ∧
        r.negative = a.negative ∧
        (Roomy a b → r.magnitude = a.magnitude + b.magnitude) ∧
        |r.magnitude - (a.magnitude + b.magnitude)| < 1 / 10 ^ r.scale) := by
  obtain ⟨S, hS⟩ : ∃ S, S = a.scaledTo (sumScale a b) + b.scaledTo (sumScale a b) := ⟨_, rfl⟩
  obtain ⟨hfit, hdrop, hthrow⟩ := addSame_spec ha hb hS
  obtain ⟨hlow, hhigh, -⟩ := scaledTo_near (sumScale_ge (a := a) hb)
  have hcast : (S : ℚ) = a.scaledTo (sumScale a b) + b.scaledTo (sumScale a b) := by
    rw [hS]
    push_cast
    rfl
  have htwo := sum_lt_two ha hb
  have hexact : Roomy a b → (S : ℚ) = (a.magnitude + b.magnitude) * 10 ^ sumScale a b := by
    intro hroom
    have hs := hroom.sumScale_eq ha hb
    rw [hcast, scaledTo_cast (by omega), scaledTo_cast (by omega), add_mul]
  rw [← hcast] at hlow hhigh
  rw [← hS] at htwo
  have hroomy : Roomy a b → S < 10 ^ maxDigits := fun h => hS ▸ h.sum_lt ha hb
  generalize a.magnitude + b.magnitude = e at hlow hhigh hexact ⊢
  constructor
  · intro hbig
    -- only at scale zero are two numbers too great together
    have hge : 10 ^ (maxDigits + sumScale a b) ≤ S := by
      refine Nat.lt_succ_iff.mp ?_
      have hmul := mul_le_mul_of_nonneg_right hbig
        (show (0 : ℚ) ≤ 10 ^ sumScale a b by positivity)
      rw [← pow_add] at hmul
      exact_mod_cast hmul.trans_lt hhigh
    have hzero : sumScale a b = 0 := by
      by_contra hne
      have hpow : 10 ^ (maxDigits + 1) ≤ 10 ^ (maxDigits + sumScale a b) :=
        Nat.pow_le_pow_right (by norm_num) (by omega)
      rw [pow_succ] at hpow
      omega
    exact hthrow ((Nat.pow_le_pow_right (by norm_num) (Nat.le_add_right _ _)).trans hge) hzero
  · intro hsmall
    rcases Nat.lt_or_ge S (10 ^ maxDigits) with hlt | hge
    · obtain ⟨r, hr, -, hsign, hscale, -, -, hm, -⟩ := hfit hlt
      have hvalue := magnitude_eq hscale hm
      refine ⟨r, hr, hsign, fun hroom => ?_, ?_⟩
      · rw [hvalue, hexact hroom, mul_div_cancel_right₀ _ (by positivity)]
      · rw [hvalue, hscale, near_iff, abs_lt]
        exact ⟨by linarith, by linarith⟩
    · have hne : sumScale a b ≠ 0 := by
        intro hzero
        rw [hzero, pow_zero, mul_one] at hlow
        have hcast' : (10 : ℚ) ^ maxDigits ≤ S := by exact_mod_cast hge
        exact absurd hsmall (not_lt.mpr (hcast'.trans hlow))
      obtain ⟨r, hr, -, hsign, hscale, -, hm⟩ := hdrop hge hne
      refine ⟨r, hr, hsign, fun hroom => absurd (hroomy hroom) (not_lt.mpr hge), ?_⟩
      -- the last digit is dropped as well
      obtain ⟨s, hs⟩ := Nat.exists_eq_succ_of_ne_zero hne
      rw [hs, Nat.succ_sub_one] at hscale
      rw [hs, Nat.succ_eq_add_one, pow_succ, ← mul_assoc] at hlow hhigh
      rw [magnitude_eq hscale hm, hscale, near_iff, abs_lt]
      have hq : 10 * (S / 10) ≤ S := Nat.mul_div_le S 10
      have hq' : S + 1 ≤ 10 * (S / 10) + 10 := by omega
      have hq1 : (10 : ℚ) * (S / 10 : ℕ) ≤ S := by exact_mod_cast hq
      have hq2 : (S : ℚ) + 1 ≤ 10 * (S / 10 : ℕ) + 10 := by exact_mod_cast hq'
      exact ⟨by linarith, by linarith⟩

/-! ### Subtracting magnitudes -/

/-- **A borrow is lost**, also when the two are exchanged. -/
def BorrowLost (a b : Fixed) : Prop :=
  Stuck a b ∨ (a.scaledTo (sumScale a b) < b.scaledTo (sumScale a b) ∧ Stuck b a)

instance (a b : Fixed) : Decidable (BorrowLost a b) :=
  inferInstanceAs (Decidable (_ ∨ _ ∧ _))

theorem Roomy.symm (h : Roomy a b) : Roomy b a := by
  rw [Roomy, max_comm b.integerDigitCount, max_comm b.scale]
  exact h

/-- The difference of the digits is less than one unit off. -/
theorem Difference.value (ha : Valid a) (hb : Valid b)
    (h : Difference a b r (a.scaledTo (sumScale a b) - b.scaledTo (sumScale a b)))
    (hle : b.scaledTo (sumScale a b) ≤ a.scaledTo (sumScale a b)) :
    (Roomy a b → r.magnitude = a.magnitude - b.magnitude) ∧
      |r.magnitude - (a.magnitude - b.magnitude)| < 1 / 10 ^ r.scale := by
  obtain ⟨-, -, hnear⟩ := scaledTo_near (sumScale_ge (a := a) hb)
  rw [magnitude_eq h.scale h.mantissa, h.scale, near_iff, Nat.cast_sub hle]
  refine ⟨fun hroom => ?_, hnear⟩
  have hs := hroom.sumScale_eq ha hb
  rw [scaledTo_cast (by omega), scaledTo_cast (by omega), ← sub_mul,
    mul_div_cancel_right₀ _ (by positivity)]

/-- With a lost borrow it is more than one unit off. -/
theorem Difference.far (hb : Valid b) (h : Difference a b r m)
    (hm : m + b.scaledTo (sumScale a b) = a.scaledTo (sumScale a b) + 9 * 10 ^ sumPlace a b) :
    1 / 10 ^ r.scale ≤ |r.magnitude - (a.magnitude - b.magnitude)| := by
  obtain ⟨-, -, hnear⟩ := scaledTo_near (sumScale_ge (a := a) hb)
  refine not_lt.mp fun hc => ?_
  rw [magnitude_eq h.scale h.mantissa, h.scale, near_iff] at hc
  have hpow : 1 ≤ 10 ^ sumPlace a b := Nat.one_le_pow _ _ (by norm_num)
  have hge : a.scaledTo (sumScale a b) + 9 ≤ m + b.scaledTo (sumScale a b) := by omega
  have hcast : (a.scaledTo (sumScale a b) : ℚ) + 9 ≤ m + b.scaledTo (sumScale a b) := by
    exact_mod_cast hge
  rw [abs_lt] at hnear hc
  linarith [hnear.2, hc.2]

/-- The distance of two numbers of the same sign is that of their magnitudes. -/
theorem abs_signed_sub (n : Bool) (x y : ℚ) :
    |(if n then -1 else 1) * x - (if n then -1 else 1) * y| = |x - y| := by
  rw [← mul_sub, abs_mul]
  split_ifs <;> norm_num

/-- **Subtracting magnitudes**, where no borrow is lost. -/
theorem subSame_value (ha : Valid a) (hb : Valid b) (hsign : a.negative = b.negative)
    (hgood : ¬BorrowLost a b) :
    ∃ r, subSame 2 a b = .ok r ∧ (Roomy a b → r.toRat = a.toRat - b.toRat) ∧
      |r.toRat - (a.toRat - b.toRat)| < 1 / 10 ^ r.scale := by
  rw [BorrowLost, not_or] at hgood
  rcases Nat.lt_or_ge (a.scaledTo (sumScale a b)) (b.scaledTo (sumScale a b)) with hlt | hle
  · -- the two are exchanged
    have hmono := scaledTo_mono (magnitude_lt_of_scaledTo hlt).le (sumScale b a)
    obtain ⟨r, hr, hdiff⟩ := subSame_direct hb ha (fun hs => hgood.2 ⟨hlt, hs⟩) hmono 0
    obtain ⟨hexact, hnear⟩ := hdiff.value hb ha hmono
    refine ⟨r.neg, ?_, fun hroom => ?_, ?_⟩
    · rw [subSame_swap ha hb hgood.1 hlt, hr]
      rfl
    · rw [toRat_neg, toRat_eq, toRat_eq, toRat_eq, hdiff.negative, hsign, hexact hroom.symm]
      ring
    · rw [toRat_neg, ← abs_neg, neg_sub', neg_neg, toRat_eq, toRat_eq, toRat_eq, hdiff.negative,
        hsign, ← mul_sub, ← mul_neg, neg_sub, abs_signed_sub]
      exact hnear
  · obtain ⟨r, hr, hdiff⟩ := subSame_direct ha hb hgood.1 hle 1
    obtain ⟨hexact, hnear⟩ := hdiff.value ha hb hle
    refine ⟨r, hr, fun hroom => ?_, ?_⟩
    · rw [toRat_eq, toRat_eq, toRat_eq, hdiff.negative, ← hsign, hexact hroom, mul_sub]
    · rw [toRat_eq, toRat_eq, toRat_eq, hdiff.negative, ← hsign, ← mul_sub, abs_signed_sub]
      exact hnear

/-- **A lost borrow** is more than a rounding. -/
theorem subSame_lost (ha : Valid a) (hb : Valid b) (hsign : a.negative = b.negative)
    (hlost : BorrowLost a b) :
    ∃ r, subSame 2 a b = .ok r ∧ 1 / 10 ^ r.scale ≤ |r.toRat - (a.toRat - b.toRat)| := by
  by_cases hstuck : Stuck a b
  · obtain ⟨r, m, hr, hdiff, hm⟩ := subSame_stuck ha hb hstuck 1
    refine ⟨r, hr, ?_⟩
    rw [toRat_eq, toRat_eq, toRat_eq, hdiff.negative, ← hsign, ← mul_sub, abs_signed_sub]
    exact hdiff.far hb hm
  · obtain ⟨hlt, hswap⟩ := hlost.resolve_left hstuck
    obtain ⟨r, m, hr, hdiff, hm⟩ := subSame_stuck hb ha hswap 0
    refine ⟨r.neg, ?_, ?_⟩
    · rw [subSame_swap ha hb hstuck hlt, hr]
      rfl
    · rw [toRat_neg, ← abs_neg, neg_sub', neg_neg, toRat_eq, toRat_eq, toRat_eq, hdiff.negative,
        hsign, ← mul_sub, ← mul_neg, neg_sub, abs_signed_sub]
      exact show 1 / 10 ^ r.scale ≤ _ from hdiff.far ha hm

/-! ### The operators -/

/-- A result that is returned, and as expected. -/
def Answers (a b : Fixed) (e : ℚ) (r : Fixed) : Prop :=
  |e| < 10 ^ maxDigits ∧ (Roomy a b → r.toRat = e) ∧ |r.toRat - e| < 1 / 10 ^ r.scale

theorem claimed_ok_iff {c : Fixed} :
    SumAsClaimed a b e (c.commit (.ok r)) ↔ Answers a b e r := by
  constructor
  · intro h
    have hsmall : |e| < 10 ^ maxDigits :=
      not_le.mp fun hc => absurd (h.throws.mpr hc) (Option.some_ne_none _).symm
    exact ⟨hsmall, h.value_eq hsmall, h.near hsmall⟩
  · rintro ⟨hsmall, hexact, hnear⟩
    exact ⟨⟨nofun, fun hc => absurd hsmall (not_lt.mpr hc)⟩, nofun, fun _ => rfl, fun _ => hexact,
      fun _ => hnear⟩

theorem claimed_overflow (h : 10 ^ maxDigits ≤ |e|) :
    SumAsClaimed a b e (a.commit (.error .overflow)) :=
  ⟨⟨fun _ => h, fun _ => rfl⟩, fun _ => rfl, fun hc => absurd hc (not_lt.mpr h),
    fun hc => absurd hc (not_lt.mpr h), fun hc => absurd hc (not_lt.mpr h)⟩

/-- Both signs are changed. -/
theorem answers_neg_iff : Answers a b (-e) r.neg ↔ Answers a b e r := by
  rw [Answers, Answers, abs_neg, toRat_neg, neg_inj, neg_scale, ← neg_add', abs_neg,
    sub_eq_add_neg]

theorem magnitude_lt (h : Valid f) : f.magnitude < 10 ^ maxDigits := by
  have hlt : (f.mantissa : ℚ) < 10 ^ maxDigits := by exact_mod_cast mantissa_lt h.toDecimal
  exact (div_le_self (Nat.cast_nonneg _) (one_le_pow₀ (by norm_num))).trans_lt hlt

/-- The sum of two numbers of one sign. -/
theorem abs_toRat_add (hsign : a.negative = b.negative) :
    |a.toRat + b.toRat| = a.magnitude + b.magnitude := by
  rw [toRat_eq, toRat_eq, hsign, ← mul_add, abs_mul,
    abs_of_nonneg (add_nonneg a.magnitude_nonneg b.magnitude_nonneg)]
  split_ifs <;> norm_num

/-- The difference of two numbers of one sign. -/
theorem abs_toRat_sub_lt (ha : Valid a) (hb : Valid b) (hsign : a.negative = b.negative) :
    |a.toRat - b.toRat| < 10 ^ maxDigits := by
  have habs : |a.toRat - b.toRat| = |a.magnitude - b.magnitude| := by
    rw [toRat_eq, toRat_eq, hsign, ← mul_sub, abs_mul]
    split_ifs <;> norm_num
  rw [habs, abs_lt]
  have ha' := magnitude_lt ha
  have hb' := magnitude_lt hb
  have ha0 := a.magnitude_nonneg
  have hb0 := b.magnitude_nonneg
  constructor <;> linarith

/-- **Adding magnitudes** is as expected. -/
theorem addSame_answers (ha : Valid a) (hb : Valid b) (hsign : a.negative = b.negative) :
    (10 ^ maxDigits ≤ |a.toRat + b.toRat| ∧ addSame a b = .error .overflow) ∨
      ∃ r, addSame a b = .ok r ∧ Answers a b (a.toRat + b.toRat) r := by
  obtain ⟨hbig, hsmall⟩ := addSame_value ha hb
  rw [← abs_toRat_add hsign] at hbig
  rcases lt_or_ge |a.toRat + b.toRat| (10 ^ maxDigits) with hlt | hge
  · obtain ⟨r, hr, hneg, hexact, hnear⟩ := hsmall (abs_toRat_add hsign ▸ hlt)
    refine Or.inr ⟨r, hr, hlt, fun hroom => ?_, ?_⟩
    · rw [toRat_eq, toRat_eq, toRat_eq, hneg, ← hsign, hexact hroom, mul_add]
    · rw [toRat_eq, toRat_eq, toRat_eq, hneg, ← hsign, ← mul_add, abs_signed_sub]
      exact hnear
  · exact Or.inl ⟨hge, hbig hge⟩

/-- **Subtracting magnitudes** is as expected unless a borrow is lost. -/
theorem subSame_answers (ha : Valid a) (hb : Valid b) (hsign : a.negative = b.negative) :
    ∃ r, subSame 2 a b = .ok r ∧ (Answers a b (a.toRat - b.toRat) r ↔ ¬BorrowLost a b) := by
  by_cases hlost : BorrowLost a b
  · obtain ⟨r, hr, hfar⟩ := subSame_lost ha hb hsign hlost
    exact ⟨r, hr, fun h => absurd h.2.2 (not_lt.mpr hfar), fun h => absurd hlost h⟩
  · obtain ⟨r, hr, hexact, hnear⟩ := subSame_value ha hb hsign hlost
    exact ⟨r, hr, fun _ => hlost, fun _ => ⟨abs_toRat_sub_lt ha hb hsign, hexact, hnear⟩⟩

/-- What is computed with the opposites is changed back at the end. -/
theorem negated_ok {x : Except Fault Fixed} (h : x = .ok r) :
    (do
      let negated ← x
      .ok negated.neg) = Except.ok r.neg := by
  rw [h]
  rfl

theorem negated_error {x : Except Fault Fixed} {fault : Fault} (h : x = .error fault) :
    (do
      let negated ← x
      .ok negated.neg) = (Except.error fault : Except Fault Fixed) := by
  rw [h]
  rfl

/-- The operator `+=` for two numbers of different signs. -/
theorem addAssign_mixed (ha : Valid a) (hb : Valid b) (hsign : a.negative ≠ b.negative) :
    ∃ r, a.addAssign b = a.commit (.ok r) ∧
      (Answers a b (a.toRat + b.toRat) r ↔ ¬BorrowLost a b) := by
  rw [addAssign, sign, sign]
  cases hna : a.negative <;> cases hnb : b.negative
  · exact absurd (hna.trans hnb.symm) hsign
  · -- the opposite of the right number is subtracted
    obtain ⟨r, hr, hiff⟩ := subSame_answers ha (hb.neg hnb) (by rw [neg_negative, hna, hnb]; rfl)
    rw [toRat_neg, sub_neg_eq_add] at hiff
    exact ⟨r, congrArg a.commit hr, hiff⟩
  · -- the right number is subtracted from the opposite of the left one
    obtain ⟨r, hr, hiff⟩ := subSame_answers (ha.neg hna) hb (by rw [neg_negative, hna, hnb]; rfl)
    have hiff' := answers_neg_iff.trans hiff
    rw [toRat_neg, neg_sub, sub_neg_eq_add, add_comm] at hiff'
    exact ⟨r.neg, congrArg a.commit (negated_ok hr), hiff'⟩
  · exact absurd (hna.trans hnb.symm) hsign

/-- The operator `-=` for two numbers of different signs. -/
theorem subAssign_mixed (ha : Valid a) (hb : Valid b) (hsign : a.negative ≠ b.negative) :
    SumAsClaimed a b (a.toRat - b.toRat) (a.subAssign b) := by
  rw [subAssign, sign, sign]
  cases hna : a.negative <;> cases hnb : b.negative
  · exact absurd (hna.trans hnb.symm) hsign
  · rcases addSame_answers ha (hb.neg hnb) (by rw [neg_negative, hna, hnb]; rfl) with
      ⟨hbig, hr⟩ | ⟨r, hr, hanswer⟩
    · rw [toRat_neg, ← sub_eq_add_neg] at hbig
      exact congrArg a.commit hr ▸ claimed_overflow hbig
    · rw [toRat_neg, ← sub_eq_add_neg] at hanswer
      exact congrArg a.commit hr ▸ claimed_ok_iff.mpr hanswer
  · rcases addSame_answers (ha.neg hna) hb (by rw [neg_negative, hna, hnb]; rfl) with
      ⟨hbig, hr⟩ | ⟨r, hr, hanswer⟩
    · rw [toRat_neg, ← abs_neg, neg_add, neg_neg, ← sub_eq_add_neg] at hbig
      exact congrArg a.commit (negated_error hr) ▸ claimed_overflow hbig
    · rw [← answers_neg_iff, toRat_neg, neg_add, neg_neg, ← sub_eq_add_neg] at hanswer
      exact congrArg a.commit (negated_ok hr) ▸ claimed_ok_iff.mpr hanswer
  · exact absurd (hna.trans hnb.symm) hsign

/-- **Sums and differences**: `+=` is as expected for two numbers of one sign, and `-=` for two of
different signs; where the magnitudes are subtracted, exactly when no borrow is lost. -/
theorem sums_as_claimed_iff (ha : Valid a) (hb : Valid b) :
    (SumAsClaimed a b (a.toRat + b.toRat) (a.addAssign b) ↔
        (a.negative = b.negative ∨ ¬BorrowLost a b)) ∧
      (SumAsClaimed a b (a.toRat - b.toRat) (a.subAssign b) ↔
        (a.negative ≠ b.negative ∨ ¬BorrowLost a b)) := by
  by_cases hsign : a.negative = b.negative
  · have hadd : a.addAssign b = a.commit (addSame a b) := by
      rw [addAssign, sign, sign, hsign]
      cases b.negative <;> rfl
    have hsub : a.subAssign b = a.commit (subSame 2 a b) := by
      rw [subAssign, sign, sign, hsign]
      cases b.negative <;> rfl
    refine ⟨⟨fun _ => Or.inl hsign, fun _ => ?_⟩, ?_⟩
    · rw [hadd]
      rcases addSame_answers ha hb hsign with ⟨hbig, hr⟩ | ⟨r, hr, hanswer⟩
      · rw [hr]
        exact claimed_overflow hbig
      · rw [hr]
        exact claimed_ok_iff.mpr hanswer
    · obtain ⟨r, hr, hiff⟩ := subSame_answers ha hb hsign
      rw [hsub, hr, claimed_ok_iff, hiff]
      exact ⟨Or.inr, fun h => h.resolve_left (not_not.mpr hsign)⟩
  · obtain ⟨r, hr, hiff⟩ := addAssign_mixed ha hb hsign
    refine ⟨?_, fun _ => Or.inl hsign, fun _ => subAssign_mixed ha hb hsign⟩
    rw [hr, claimed_ok_iff, hiff]
    exact ⟨Or.inr, fun h => h.resolve_left hsign⟩

theorem sums_as_claimed_iff_three :
    (SumAsClaimed (fromInteger 103) (fromInteger 1).neg
        ((fromInteger 103).toRat + (fromInteger 1).neg.toRat)
        ((fromInteger 103).addAssign (fromInteger 1).neg) ↔
        ((fromInteger 103).negative = (fromInteger 1).neg.negative ∨
          ¬BorrowLost (fromInteger 103) (fromInteger 1).neg)) ∧
      (SumAsClaimed (fromInteger 103) (fromInteger 1).neg
        ((fromInteger 103).toRat - (fromInteger 1).neg.toRat)
        ((fromInteger 103).subAssign (fromInteger 1).neg) ↔
        ((fromInteger 103).negative ≠ (fromInteger 1).neg.negative ∨
          ¬BorrowLost (fromInteger 103) (fromInteger 1).neg)) :=
  sums_as_claimed_iff (by decide +kernel) (by decide +kernel)

/-- One hundred less one is 189. -/
theorem not_claimed_hundred :
    ¬SumAsClaimed (fromInteger 100) (fromInteger 1)
      ((fromInteger 100).toRat - (fromInteger 1).toRat)
      ((fromInteger 100).subAssign (fromInteger 1)) := by
  have hrun : (fromInteger 100).subAssign (fromInteger 1) = (fromInteger 189, none) := by
    decide +kernel
  have h100 : (fromInteger 100).toRat = 100 := by decide +kernel
  have h1 : (fromInteger 1).toRat = 1 := by decide +kernel
  have h189 : (fromInteger 189).toRat = 189 := by decide +kernel
  intro h
  rw [hrun, h100, h1] at h
  have hvalue := h.value_eq (by norm_num [maxDigits, abs_lt]) (by decide +kernel)
  rw [h189] at hvalue
  norm_num at hvalue

end AceTao.Fixed
