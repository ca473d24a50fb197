import AceTao.Fixed.Basic

/-!
# Two numbers at one scale

`preAdd` is `pre_add`, which gets `*this` ready for the digits of another number: it moves its digits
up to the scale of the other as far as there is room, and drops digits behind the point where the
integer digits of the other need their place. The scale they meet at is `sumScale`, and the digits
of a number at a scale are `scaledTo`, so that `preAdd_spec` says: `*this` is at `sumScale` with the
digits it has there, and the iterator skips the digits of the other that are finer.
-/

namespace AceTao.Fixed

open DigitList

/-! ### The source -/

/-- Digits behind the point are dropped, and all 31 digits are used. -/
def dropDigits (f : Fixed) (k : ℕ) : Fixed :=
  { (clearDigits k 0 f).normalize ((clearDigits k 0 f).scale - k) with digits := maxDigits }

/-- The second half of `pre_add`: there are as many integer digits as in the other number. The
differences are not negative in a valid number. -/
def widen (f rhs : Fixed) : Fixed :=
  if f.digits - f.scale < rhs.digits - rhs.scale then
    let newDigits := f.digits + (rhs.digits - rhs.scale) - (f.digits - f.scale)
    if maxDigits < newDigits then f.dropDigits (newDigits - maxDigits)
    else { f with digits := newDigits }
  else f

/-- **Getting ready for a sum or a difference**; the second value is the digit of the other number
to begin with. -/
def preAdd (f rhs : Fixed) : Fixed × ℕ :=
  if f.scale < rhs.scale then
    let scaleDiff := rhs.scale - f.scale
    let shifted := f.lshift scaleDiff
    (shifted.1.widen rhs, scaleDiff - shifted.2)
  else (f.widen rhs, 0)

/-! ### Digits at a scale -/

/-- **The digits of a number at a scale**, where those behind it are dropped. -/
def scaledTo (f : Fixed) (s : ℕ) : ℕ := f.mantissa * 10 ^ s / 10 ^ f.scale

variable {a b f : Fixed} {n s : ℕ}

theorem scaledTo_of_le (h : f.scale ≤ s) : f.scaledTo s = 10 ^ (s - f.scale) * f.mantissa := by
  obtain ⟨n, rfl⟩ := Nat.exists_eq_add_of_le h
  rw [scaledTo, pow_add, Nat.mul_left_comm, Nat.mul_div_cancel_left _ (Nat.pow_pos (by norm_num)),
    Nat.add_sub_cancel_left, Nat.mul_comm]

theorem scaledTo_of_ge (h : s ≤ f.scale) : f.scaledTo s = f.mantissa / 10 ^ (f.scale - s) := by
  obtain ⟨n, hn⟩ := Nat.exists_eq_add_of_le h
  rw [scaledTo, hn, pow_add, Nat.mul_comm, Nat.add_sub_cancel_left,
    Nat.mul_div_mul_left _ _ (Nat.pow_pos (by norm_num))]

/-- The digits that the loops work on. -/
theorem scaledTo_eq (h : Valid f) (s : ℕ) :
    10 ^ (s - f.scale) *
      (f.mantissa / 10 ^ (f.scale - s) % 10 ^ (f.digits - (f.scale - s))) = f.scaledTo s := by
  have hlt : f.mantissa / 10 ^ (f.scale - s) < 10 ^ (f.digits - (f.scale - s)) := by
    rw [Nat.div_lt_iff_lt_mul (Nat.pow_pos (by norm_num)), ← pow_add,
      Nat.sub_add_cancel ((Nat.sub_le _ _).trans h.scale_le)]
    exact h.mantissa_lt
  rw [Nat.mod_eq_of_lt hlt]
  rcases le_total f.scale s with hle | hle
  · rw [scaledTo_of_le hle, Nat.sub_eq_zero_of_le hle, pow_zero, Nat.div_one]
  · rw [scaledTo_of_ge hle, Nat.sub_eq_zero_of_le hle, pow_zero, Nat.one_mul]

theorem scaledTo_lt (h : Valid f) (s : ℕ) : f.scaledTo s < 10 ^ (s + (f.digits - f.scale)) := by
  have hscale := h.scale_le
  rw [scaledTo, Nat.div_lt_iff_lt_mul (Nat.pow_pos (by norm_num)), ← pow_add,
    show s + (f.digits - f.scale) + f.scale = f.digits + s by omega, pow_add]
  exact Nat.mul_lt_mul_of_pos_right h.mantissa_lt (Nat.pow_pos (by norm_num))

/-! ### The magnitude -/

/-- **The magnitude** of a number. -/
def magnitude (f : Fixed) : ℚ := f.mantissa / 10 ^ f.scale

theorem magnitude_nonneg (f : Fixed) : 0 ≤ f.magnitude := by
  rw [magnitude]
  positivity

theorem abs_toRat (f : Fixed) : |f.toRat| = f.magnitude := by
  rw [toRat, abs_mul, ← magnitude, abs_of_nonneg f.magnitude_nonneg]
  split_ifs <;> norm_num

theorem scaledTo_le (f : Fixed) (s : ℕ) : (f.scaledTo s : ℚ) ≤ f.magnitude * 10 ^ s := by
  have hle := Nat.div_mul_le_self (f.mantissa * 10 ^ s) (10 ^ f.scale)
  rw [magnitude, div_mul_eq_mul_div, le_div_iff₀ (by positivity), scaledTo]
  exact_mod_cast hle

theorem lt_scaledTo_succ (f : Fixed) (s : ℕ) : f.magnitude * 10 ^ s < f.scaledTo s + 1 := by
  have hlt := Nat.lt_div_mul_add (a := f.mantissa * 10 ^ s) (b := 10 ^ f.scale)
    (Nat.pow_pos (by norm_num))
  rw [magnitude, div_mul_eq_mul_div, div_lt_iff₀ (by positivity), scaledTo, add_mul, one_mul]
  exact_mod_cast hlt

theorem scaledTo_cast (h : f.scale ≤ s) : (f.scaledTo s : ℚ) = f.magnitude * 10 ^ s := by
  rw [scaledTo_of_le h, magnitude, div_mul_eq_mul_div, eq_div_iff (by positivity)]
  push_cast
  rw [mul_right_comm, ← pow_add, Nat.sub_add_cancel h, mul_comm]

/-- Digits at a scale are in the order of the magnitudes. -/
theorem scaledTo_mono (h : a.magnitude ≤ b.magnitude) (s : ℕ) : a.scaledTo s ≤ b.scaledTo s := by
  have hlt : (a.scaledTo s : ℚ) < b.scaledTo s + 1 :=
    (a.scaledTo_le s).trans_lt
      ((mul_le_mul_of_nonneg_right h (by positivity)).trans_lt (b.lt_scaledTo_succ s))
  exact Nat.lt_succ_iff.mp (by exact_mod_cast hlt)

theorem magnitude_lt_of_scaledTo (h : a.scaledTo s < b.scaledTo s) : a.magnitude < b.magnitude := by
  by_contra hc
  exact absurd (scaledTo_mono (not_lt.mp hc) s) (not_le.mpr h)

/-! ### The scale of a sum -/

/-- How far the digits of the left number are moved up. -/
def sumShift (a b : Fixed) : ℕ :=
  if a.scale < b.scale then shiftBy a.mantissa (b.scale - a.scale) else 0

/-- **The scale** at which two numbers are added: the integer digits of the right number have their
places. -/
def sumScale (a b : Fixed) : ℕ :=
  min (a.scale + sumShift a b) (maxDigits - (b.digits - b.scale))

/-- The digits of the left number at that scale. -/
def sumDigits (a b : Fixed) : ℕ :=
  max (min (a.digits + sumShift a b) maxDigits) (sumScale a b + (b.digits - b.scale))

/-- One of the two numbers has no digits behind the scale. -/
theorem sumScale_ge (hb : Valid b) : a.scale ≤ sumScale a b ∨ b.scale ≤ sumScale a b := by
  have h1 := hb.scale_le
  have h2 := hb.digits_le
  rw [sumScale]
  omega

theorem sumDigits_le (hb : Valid b) : sumDigits a b ≤ maxDigits := by
  have h1 := hb.scale_le
  have h2 := hb.digits_le
  rw [sumDigits, sumScale]
  omega

/-- Digits behind the point that are cleared and removed. -/
theorem normalize_clearDigits {k : ℕ} (hf : Decimal f) (hscale : f.scale ≤ f.digits)
    (hdigits : f.digits ≤ maxDigits) (hlt : f.mantissa < 10 ^ f.digits) (hpos : 0 < k)
    (hk : k ≤ f.scale) :
    Decimal ((clearDigits k 0 f).normalize (f.scale - k)) ∧
      ((clearDigits k 0 f).normalize (f.scale - k)).negative = f.negative ∧
      ((clearDigits k 0 f).normalize (f.scale - k)).digits = f.digits - k ∧
      ((clearDigits k 0 f).normalize (f.scale - k)).scale = f.scale - k ∧
      ((clearDigits k 0 f).normalize (f.scale - k)).mantissa = f.mantissa / 10 ^ k := by
  obtain ⟨hd, hshape, hvalue⟩ := clearDigits_zero_spec hf (show k ≤ maxDigits by omega)
  obtain ⟨hd', hsign, hdigits', hscale', hvalue'⟩ := @normalize_spec (clearDigits k 0 f) k
    (f.scale - k) (f.mantissa / 10 ^ k) hd (by rw [hshape.scale, hshape.digits]; exact hscale)
    (by rw [hshape.digits]; exact hdigits) hpos (by rw [hshape.scale]; omega) hvalue (by
      rw [hshape.digits, hvalue]
      exact (Nat.mul_div_le _ _).trans_lt hlt)
  exact ⟨hd', hsign.trans hshape.negative, hdigits'.trans (by rw [hshape.digits]), hscale', hvalue'⟩

/-- **Dropping digits** behind the point. -/
theorem dropDigits_spec {k : ℕ} (hf : Decimal f) (hscale : f.scale ≤ f.digits)
    (hdigits : f.digits ≤ maxDigits) (hlt : f.mantissa < 10 ^ f.digits) (hpos : 0 < k)
    (hk : k ≤ f.scale) :
    Decimal (f.dropDigits k) ∧ (f.dropDigits k).negative = f.negative ∧
      (f.dropDigits k).scale = f.scale - k ∧ (f.dropDigits k).digits = maxDigits ∧
      (f.dropDigits k).mantissa = f.mantissa / 10 ^ k := by
  obtain ⟨hd, hsign, -, hscale', hvalue⟩ := normalize_clearDigits hf hscale hdigits hlt hpos hk
  obtain ⟨-, hshape, -⟩ := clearDigits_zero_spec hf (show k ≤ maxDigits by omega)
  rw [dropDigits, hshape.scale]
  exact ⟨⟨hd.length, hd.isDigits⟩, hsign, hscale', rfl, hvalue⟩

/-- **Widening** to the integer digits of the other number. -/
theorem widen_spec (hf : Decimal f) (hscale : f.scale ≤ f.digits) (hdigits : f.digits ≤ maxDigits)
    (hlt : f.mantissa < 10 ^ f.digits) (hb : Valid b)
    (hs : s = min f.scale (maxDigits - (b.digits - b.scale))) :
    Decimal (f.widen b) ∧ (f.widen b).negative = f.negative ∧ (f.widen b).scale = s ∧
      (f.widen b).digits = max f.digits (s + (b.digits - b.scale)) ∧
      (f.widen b).mantissa = f.mantissa / 10 ^ (f.scale - s) := by
  have h1 := hb.scale_le
  have h2 := hb.digits_le
  rw [widen]
  dsimp only
  by_cases hwide : f.digits - f.scale < b.digits - b.scale
  · rw [if_pos hwide]
    by_cases hmax : maxDigits < f.digits + (b.digits - b.scale) - (f.digits - f.scale)
    · rw [if_pos hmax]
      have hk : f.digits + (b.digits - b.scale) - (f.digits - f.scale) - maxDigits =
          f.scale - s := by omega
      rw [hk]
      obtain ⟨hd, hsign, hscale', hdigits', hvalue⟩ :=
        dropDigits_spec hf hscale hdigits hlt (show 0 < f.scale - s by omega) (Nat.sub_le _ _)
      exact ⟨hd, hsign, by omega, by omega, hvalue⟩
    · rw [if_neg hmax, show f.scale - s = 0 by omega, pow_zero, Nat.div_one]
      refine ⟨⟨hf.length, hf.isDigits⟩, rfl, ?_, ?_, rfl⟩
      · change f.scale = s
        omega
      · change f.digits + (b.digits - b.scale) - (f.digits - f.scale) = _
        omega
  · rw [if_neg hwide, show f.scale - s = 0 by omega, pow_zero, Nat.div_one]
    exact ⟨hf, rfl, by omega, by omega, rfl⟩

/-- The digits after the shift, which lose none. -/
theorem mantissa_lt_shift (ha : Valid a) (d : ℕ) :
    10 ^ shiftBy a.mantissa d * a.mantissa <
      10 ^ min (a.digits + shiftBy a.mantissa d) maxDigits := by
  rcases le_total (a.digits + shiftBy a.mantissa d) maxDigits with hmax | hmax
  · rw [Nat.min_eq_left hmax, pow_add, Nat.mul_comm]
    exact Nat.mul_lt_mul_of_pos_right ha.mantissa_lt (Nat.pow_pos (by norm_num))
  · rw [Nat.min_eq_right hmax]
    exact shiftBy_mul_lt (mantissa_lt ha.toDecimal) d

/-- **Two numbers at one scale.** -/
theorem preAdd_spec (ha : Valid a) (hb : Valid b) :
    Decimal (a.preAdd b).1 ∧ (a.preAdd b).1.negative = a.negative ∧
      (a.preAdd b).1.scale = sumScale a b ∧ (a.preAdd b).1.digits = sumDigits a b ∧
      (a.preAdd b).1.mantissa = a.scaledTo (sumScale a b) ∧
      (a.preAdd b).2 = b.scale - sumScale a b := by
  have ha1 := ha.scale_le
  have ha2 := ha.digits_le
  have hb1 := hb.scale_le
  have hb2 := hb.digits_le
  rw [preAdd]
  by_cases hscale : a.scale < b.scale
  · rw [if_pos hscale]
    dsimp only
    obtain ⟨hn, hd, hsign, hdigits, hscale', hvalue⟩ :=
      lshift_spec ha.toDecimal (show b.scale - a.scale ≤ maxDigits by omega)
    have hlt := mantissa_lt_shift ha (b.scale - a.scale)
    have hle := shiftBy_le a.mantissa (b.scale - a.scale)
    have hshift : sumShift a b = shiftBy a.mantissa (b.scale - a.scale) := if_pos hscale
    rw [← hshift] at hn hdigits hscale' hvalue hle hlt
    rw [Nat.min_eq_left (show a.scale + sumShift a b ≤ maxDigits by omega)] at hscale'
    -- the finer digits of the right number find room in front of the point
    have hs : sumScale a b = a.scale + sumShift a b := by
      rw [sumScale]
      omega
    obtain ⟨hd', hsign', hs', hdigits', hvalue'⟩ := widen_spec (s := sumScale a b) hd
      (by omega) (by omega) (by rw [hvalue, hdigits]; exact hlt) hb (by rw [hscale', sumScale])
    refine ⟨hd', hsign'.trans hsign, hs', ?_, ?_, ?_⟩
    · rw [hdigits', hdigits, sumDigits]
    · rw [hvalue', hvalue, hscale', ← hs, Nat.sub_self, pow_zero, Nat.div_one,
        scaledTo_of_le (by omega), hs, Nat.add_sub_cancel_left]
    · rw [hn]
      omega
  · rw [if_neg hscale]
    dsimp only
    have hshift : sumShift a b = 0 := if_neg hscale
    have hs : sumScale a b = min a.scale (maxDigits - (b.digits - b.scale)) := by
      rw [sumScale, hshift, Nat.add_zero]
    obtain ⟨hd, hsign, hs', hdigits, hvalue⟩ :=
      widen_spec ha.toDecimal ha1 ha2 ha.mantissa_lt hb hs
    refine ⟨hd, hsign, hs', ?_, ?_, by omega⟩
    · rw [hdigits, sumDigits, hshift, Nat.add_zero, Nat.min_eq_left ha2]
    · rw [hvalue, scaledTo_of_ge (by omega)]

/-- The digits of the left number are those that it has room for. -/
theorem scaledTo_lt_sumDigits (ha : Valid a) (hb : Valid b) :
    a.scaledTo (sumScale a b) < 10 ^ sumDigits a b := by
  have hscale := ha.scale_le
  obtain ⟨hd, -, -, -, hvalue, -⟩ := preAdd_spec ha hb
  have hmax := hvalue ▸ mantissa_lt hd
  have hlt := scaledTo_lt ha (sumScale a b)
  rcases le_total (a.digits + sumShift a b) maxDigits with hle | hle
  · refine hlt.trans_le (Nat.pow_le_pow_right (by norm_num) (le_max_of_le_left ?_))
    rw [Nat.min_eq_left hle, sumScale]
    omega
  · refine hmax.trans_le (Nat.pow_le_pow_right (by norm_num) (le_max_of_le_left ?_))
    rw [Nat.min_eq_right hle]

end AceTao.Fixed
