import AceTao.Fixed.SumSpec

/-!
# Increment and decrement

`inc` and `dec` are `operator++` and `operator--`. They are written for numbers that are not negative
(`incMagnitude`, `decMagnitude`), and change the sign of the others before and after. So a decrement
of the magnitude that gets below zero is not noticed: `++` never makes a negative number positive
(`inc_nonpos`).
-/

namespace AceTao.Fixed

/-! ### The source -/

/-- The loop of `operator++`, and the digit that is added at the end. -/
def incLoop : ℕ → ℕ → Fixed → Except Fault Fixed
  | 0, iter, f =>
    if f.digits < maxDigits then
      let f := { f with digits := f.digits + 1 }
      f.assign iter 1
    else .ok f
  | k + 1, iter, f => do
    let x ← f.deref iter
    if x < 9 then f.assign iter (x + 1)
    else
      let f ← f.assign iter 0
      incLoop k (iter + 1) f

/-- `operator++` for a number that is not negative. -/
def incMagnitude (f : Fixed) : Except Fault Fixed := do
  let k ← steps f.scale f.digits
  incLoop k f.scale f

/-- The loop of `operator--`. Where all digits are zero, one is subtracted from what was before. -/
def decLoop (before : Fixed) : ℕ → ℕ → Fixed → Except Fault Fixed
  | 0, _, _ => subSame 2 before (fromInteger 1)
  | k + 1, iter, f => do
    let x ← f.deref iter
    if x ≠ 0 then f.assign iter (x - 1)
    else
      let f ← f.assign iter 9
      decLoop before k (iter + 1) f

/-- `operator--` for a number that is not negative. -/
def decMagnitude (f : Fixed) : Except Fault Fixed := do
  let k ← steps f.scale f.digits
  decLoop f k f.scale f

/-- **The operator `++`.** -/
def inc (f : Fixed) : Except Fault Fixed :=
  if f.sign then do
    let g ← decMagnitude { f with negative := false }
    .ok (if !g.isZero then { g with negative := true } else g)
  else incMagnitude f

/-- **The operator `--`.** -/
def dec (f : Fixed) : Except Fault Fixed :=
  if f.sign then do
    let g ← incMagnitude { f with negative := false }
    .ok { g with negative := true }
  else decMagnitude f

/-! ### The loops -/

variable {f g r x before : Fixed} {i k : ℕ}

/-- What stays the same when digits from the point on are changed. -/
structure Stepped (f r : Fixed) : Prop extends Decimal r where
  negative : r.negative = f.negative
  scale : r.scale = f.scale
  digits_ge : f.digits ≤ r.digits
  digits_le : r.digits ≤ maxDigits
  mantissa_lt : r.mantissa < 10 ^ r.digits

/-- A digit that is assigned below the end. -/
theorem stepped_setDigit (h : Decimal f) (hle : f.digits ≤ maxDigits)
    (hlt : f.mantissa < 10 ^ f.digits) (hi : i < f.digits) {val : ℕ} (hval : val < 10) :
    Stepped f (f.setDigit i val) := by
  refine ⟨h.setDigit hval i, rfl, rfl, le_rfl, hle, ?_⟩
  rw [setDigit_digits, ← Nat.div_eq_zero_iff_lt (Nat.pow_pos (by norm_num)), mantissa_setDigit_div h hval hi,
    Nat.div_eq_zero_iff_lt (Nat.pow_pos (by norm_num))]
  exact hlt

theorem Stepped.trans (h : Stepped f g) (h' : Stepped g r) : Stepped f r :=
  ⟨h'.toDecimal, h'.negative.trans h.negative, h'.scale.trans h.scale,
    h.digits_ge.trans h'.digits_ge, h'.digits_le, h'.mantissa_lt⟩

theorem incLoop_succ (h : Decimal f) (hi : i < maxDigits) :
    incLoop (k + 1) i f =
      if f.digit i < 9 then .ok (f.setDigit i (f.digit i + 1))
      else incLoop k (i + 1) (f.setDigit i 0) := by
  rw [incLoop, deref_eq h hi]
  change (if f.digit i < 9 then f.assign i _ else f.assign i _ >>= _) = _
  rw [assign_eq h hi, assign_eq h hi]
  rfl

/-- There is a digit left for a carry out of all others. -/
def HasRoom (m i digits : ℕ) : Prop := m + 10 ^ i < 10 ^ digits ∨ digits < maxDigits

/-- **The loop of `++`** adds one at its place, where there is a digit left for the carry. -/
theorem incLoop_spec (h : Decimal f) (hdigits : f.digits = i + k) (hle : f.digits ≤ maxDigits)
    (hlt : f.mantissa < 10 ^ f.digits) :
    ∃ r, incLoop k i f = .ok r ∧ Stepped f r ∧
      (HasRoom f.mantissa i f.digits → r.mantissa = f.mantissa + 10 ^ i) ∧
      (¬HasRoom f.mantissa i f.digits → r.mantissa + 10 ^ maxDigits = f.mantissa + 10 ^ i) := by
  induction k generalizing f i with
  | zero =>
    rw [Nat.add_zero] at hdigits
    subst hdigits
    rw [incLoop]
    by_cases hroom : f.digits < maxDigits
    · have hset := mantissa_setDigit h hroom 1
      rw [(clean_iff h f.digits).mpr hlt _ le_rfl, Nat.mul_zero, Nat.add_zero, Nat.mul_one] at hset
      have hd := h.setDigit (show 1 < 10 by norm_num) f.digits
      rw [if_pos hroom]
      refine ⟨{ f.setDigit f.digits 1 with digits := f.digits + 1 }, ?_,
        ⟨⟨hd.length, hd.isDigits⟩, rfl, rfl, Nat.le_succ _, hroom, hset.trans_lt ?_⟩,
        fun _ => hset, fun hc => absurd (Or.inr hroom) hc⟩
      · exact assign_eq (f := { f with digits := f.digits + 1 }) ⟨h.length, h.isDigits⟩ hroom 1
      · change _ < 10 ^ (f.digits + 1)
        rw [pow_succ]
        omega
    · have hfull : f.digits = maxDigits := by omega
      rw [if_neg hroom]
      refine ⟨f, rfl, ⟨h, rfl, rfl, le_rfl, hle, hlt⟩, fun hc => ?_, fun _ => by rw [hfull]⟩
      exact absurd (hc.resolve_right hroom) (by omega)
  | succ k ih =>
    have hi : i < f.digits := by omega
    rw [incLoop_succ h (hi.trans_le hle)]
    by_cases hnine : f.digit i < 9
    · rw [if_pos hnine]
      have hstep := stepped_setDigit h hle hlt hi (show f.digit i + 1 < 10 by omega)
      have hset := mantissa_setDigit h (hi.trans_le hle) (f.digit i + 1)
      rw [Nat.mul_add, Nat.mul_one] at hset
      have hvalue : (f.setDigit i (f.digit i + 1)).mantissa = f.mantissa + 10 ^ i := by omega
      refine ⟨_, rfl, hstep, fun _ => hvalue, fun hc => absurd (Or.inl ?_) hc⟩
      rw [← hvalue]
      exact hstep.mantissa_lt
    · rw [if_neg hnine]
      have hstep := stepped_setDigit h hle hlt hi (show 0 < 10 by norm_num)
      have hset := mantissa_setDigit h (hi.trans_le hle) 0
      have hdigit := digit_lt h i
      rw [show f.digit i = 9 by omega, Nat.mul_zero, Nat.add_zero] at hset
      have hcarry : (f.setDigit i 0).mantissa + 10 ^ (i + 1) = f.mantissa + 10 ^ i := by
        rw [pow_succ]
        omega
      obtain ⟨r, hr, hstep', hfit, hfull⟩ := @ih (f.setDigit i 0) (i + 1) hstep.toDecimal
        (hdigits.trans (by omega)) hle hstep.mantissa_lt
      rw [HasRoom, hcarry] at hfit hfull
      exact ⟨r, hr, hstep.trans hstep', hfit, hfull⟩

theorem decLoop_succ (h : Decimal f) (hi : i < maxDigits) :
    decLoop before (k + 1) i f =
      if f.digit i ≠ 0 then .ok (f.setDigit i (f.digit i - 1))
      else decLoop before k (i + 1) (f.setDigit i 9) := by
  rw [decLoop, deref_eq h hi]
  change (if f.digit i ≠ 0 then f.assign i _ else f.assign i _ >>= _) = _
  rw [assign_eq h hi, assign_eq h hi]
  rfl

/-- **The loop of `--`** takes one away at its place, where there is one; else one is subtracted from
what was before. -/
theorem decLoop_spec (h : Decimal f) (hdigits : f.digits = i + k) (hle : f.digits ≤ maxDigits)
    (hlt : f.mantissa < 10 ^ f.digits) :
    (10 ^ i ≤ f.mantissa → ∃ r, decLoop before k i f = .ok r ∧ Stepped f r ∧
        r.digits = f.digits ∧ r.mantissa + 10 ^ i = f.mantissa) ∧
      (f.mantissa < 10 ^ i → decLoop before k i f = subSame 2 before (fromInteger 1)) := by
  induction k generalizing f i with
  | zero =>
    rw [hdigits] at hlt
    exact ⟨fun hc => absurd hlt (not_lt.mpr hc), fun _ => rfl⟩
  | succ k ih =>
    have hi : i < f.digits := by omega
    rw [decLoop_succ h (hi.trans_le hle)]
    by_cases hzero : f.digit i ≠ 0
    · rw [if_pos hzero]
      have hdigit := digit_lt h i
      have hstep := stepped_setDigit h hle hlt hi (show f.digit i - 1 < 10 by omega)
      have hset := mantissa_setDigit h (hi.trans_le hle) (f.digit i - 1)
      obtain ⟨d, hd⟩ := Nat.exists_eq_succ_of_ne_zero hzero
      rw [hd, Nat.succ_sub_one, Nat.mul_succ] at hset
      rw [hd, Nat.succ_sub_one] at hstep ⊢
      refine ⟨fun _ => ⟨_, rfl, hstep, rfl, by omega⟩, fun hc => absurd ?_ hzero⟩
      rw [digit_eq h, Nat.div_eq_of_lt hc, Nat.zero_mod]
    · rw [if_neg hzero]
      have hstep := stepped_setDigit h hle hlt hi (show 9 < 10 by norm_num)
      have hset := mantissa_setDigit h (hi.trans_le hle) 9
      rw [not_not.mp hzero, Nat.mul_zero, Nat.add_zero] at hset
      obtain ⟨htake, hsub⟩ := @ih (f.setDigit i 9) (i + 1) hstep.toDecimal
        (hdigits.trans (by omega)) hle hstep.mantissa_lt
      rw [hset, pow_succ] at htake hsub
      refine ⟨fun hge => ?_, fun hc => hsub (by omega)⟩
      obtain ⟨r, hr, hstep', hdig, hm⟩ := htake (by omega)
      exact ⟨r, hr, hstep.trans hstep', hdig, by omega⟩

/-! ### The magnitude -/

/-- A number without its sign. -/
theorem decimal_unsigned (h : Decimal f) : Decimal { f with negative := false } :=
  ⟨h.length, h.isDigits⟩

theorem incMagnitude_spec (h : Decimal f) (hscale : f.scale ≤ f.digits) (hle : f.digits ≤ maxDigits)
    (hlt : f.mantissa < 10 ^ f.digits) :
    ∃ r, incMagnitude f = .ok r ∧ Stepped f r ∧
      (HasRoom f.mantissa f.scale f.digits → r.mantissa = f.mantissa + 10 ^ f.scale) ∧
      (¬HasRoom f.mantissa f.scale f.digits →
        r.mantissa + 10 ^ maxDigits = f.mantissa + 10 ^ f.scale) := by
  rw [incMagnitude, steps, if_pos hscale]
  exact incLoop_spec h (by omega) hle hlt

theorem decMagnitude_spec (h : Decimal f) (hscale : f.scale ≤ f.digits) (hle : f.digits ≤ maxDigits)
    (hlt : f.mantissa < 10 ^ f.digits) :
    (10 ^ f.scale ≤ f.mantissa → ∃ r, decMagnitude f = .ok r ∧ Stepped f r ∧
        r.digits = f.digits ∧ r.mantissa + 10 ^ f.scale = f.mantissa) ∧
      (f.mantissa < 10 ^ f.scale → decMagnitude f = subSame 2 f (fromInteger 1)) := by
  rw [decMagnitude, steps, if_pos hscale]
  exact decLoop_spec h (by omega) hle hlt

end AceTao.Fixed
