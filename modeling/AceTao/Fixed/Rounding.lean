import AceTao.Fixed.Step

/-!
# Rounding and truncation

`round` and `truncate` clear the digits behind a scale and remove them, and `round` then adds one in
the last place where the first digit that is dropped is at least five. Both clear the sign of zero.
The results are the rational numbers `towardZero` and `halfAway`.
-/

namespace AceTao.Fixed

/-! ### The source -/

/-- The sign is set again, but not for zero. -/
def restoreSign (f : Fixed) (negative : Bool) : Fixed :=
  if negative && !f.isZero then { f with negative := true } else f

/-- **`truncate`.** -/
def truncate (x : Fixed) (scale : ℕ) : Fixed :=
  if scale < x.scale then
    let f := (clearDigits (x.scale - scale) 0 x).normalize scale
    if f.sign then restoreSign { f with negative := false } true else f
  else x

/-- **`round`.** The digits are incremented as those of an integer. -/
def round (x : Fixed) (scale : ℕ) : Except Fault Fixed :=
  if scale < x.scale then do
    let f := (clearDigits (x.scale - scale) 0 x).normalize scale
    let negative := f.sign
    let f := if negative then { f with negative := false } else f
    if 5 ≤ x.digit (x.scale - scale - 1) then
      let g ← inc { f with scale := 0 }
      .ok (restoreSign { g with scale := scale } negative)
    else .ok (restoreSign f negative)
  else .ok x

/-! ### The numbers -/

/-- **Truncated toward zero** to `s` digits behind the point. -/
def towardZero (q : ℚ) (s : ℕ) : ℚ := (if q < 0 then -1 else 1) * (⌊|q| * 10 ^ s⌋ / 10 ^ s)

/-- **Rounded half away from zero** to `s` digits behind the point. -/
def halfAway (q : ℚ) (s : ℕ) : ℚ := (if q < 0 then -1 else 1) * (⌊|q| * 10 ^ s + 1 / 2⌋ / 10 ^ s)

variable {f g x : Fixed} {s : ℕ}

/-- The sign of a valid number is that of its value. -/
theorem toRat_neg_iff (h : Valid x) : x.toRat < 0 ↔ x.negative = true := by
  cases hn : x.negative with
  | false =>
    rw [toRat_eq, hn, if_neg Bool.false_ne_true, one_mul]
    exact ⟨fun hc => absurd hc (not_lt.mpr x.magnitude_nonneg), nofun⟩
  | true =>
    have hne : x.mantissa ≠ 0 := fun hc => Bool.false_ne_true ((h.unsigned hc).symm.trans hn)
    have hpos : 0 < x.magnitude :=
      div_pos (Nat.cast_pos.mpr (Nat.pos_of_ne_zero hne)) (by positivity)
    rw [toRat_eq, hn, if_pos rfl]
    exact ⟨fun _ => rfl, fun _ => by linarith⟩

/-- The digits at a scale are the number of its units. -/
theorem floor_magnitude (x : Fixed) (s : ℕ) : ⌊x.magnitude * 10 ^ s⌋ = (x.scaledTo s : ℤ) :=
  Int.floor_eq_iff.mpr ⟨by exact_mod_cast x.scaledTo_le s, by exact_mod_cast x.lt_scaledTo_succ s⟩

theorem towardZero_toRat (h : Valid x) (s : ℕ) :
    towardZero x.toRat s = (if x.negative then -1 else 1) * ((x.scaledTo s : ℕ) / 10 ^ s) := by
  rw [towardZero, abs_toRat, floor_magnitude, if_congr (toRat_neg_iff h) rfl rfl, Int.cast_natCast]

/-- The first digit that is dropped. -/
theorem scaledTo_succ (h : Valid x) (hs : s < x.scale) :
    x.digit (x.scale - s - 1) = x.scaledTo (s + 1) % 10 ∧
      x.scaledTo s = x.scaledTo (s + 1) / 10 := by
  rw [digit_eq h.toDecimal, scaledTo_of_ge hs.le, scaledTo_of_ge (show s + 1 ≤ x.scale from hs),
    Nat.div_div_eq_div_mul, ← pow_succ, show x.scale - (s + 1) + 1 = x.scale - s by omega,
    Nat.sub_sub]
  exact ⟨rfl, rfl⟩

/-- **A half** is rounded up, and less than a half down. -/
theorem halfAway_toRat (h : Valid x) (hs : s < x.scale) :
    halfAway x.toRat s = (if x.negative then -1 else 1) *
      ((x.scaledTo s + (if 5 ≤ x.digit (x.scale - s - 1) then 1 else 0) : ℕ) / 10 ^ s) := by
  obtain ⟨hdigit, hdiv⟩ := scaledTo_succ h hs
  have hlow := x.scaledTo_le (s + 1)
  have hhigh := x.lt_scaledTo_succ (s + 1)
  have hfloor : ⌊x.magnitude * 10 ^ s + 1 / 2⌋ =
      ((x.scaledTo s + (if 5 ≤ x.digit (x.scale - s - 1) then 1 else 0) : ℕ) : ℤ) := by
    rw [hdigit, hdiv]
    rw [pow_succ, ← mul_assoc] at hlow hhigh
    generalize x.scaledTo (s + 1) = u at hlow hhigh
    have hsplit : 10 * (u / 10) + u % 10 = u := Nat.div_add_mod u 10
    have hten : u % 10 ≤ 9 := Nat.le_of_lt_succ (Nat.mod_lt u (by norm_num))
    generalize u / 10 = q at hsplit ⊢
    generalize u % 10 = d at hsplit hten ⊢
    have hcast : (10 : ℚ) * q + d = u := by exact_mod_cast hsplit
    rw [Int.floor_eq_iff]
    split_ifs with hfive
    · have h5 : (5 : ℚ) ≤ d := by exact_mod_cast hfive
      have h9 : (d : ℚ) ≤ 9 := by exact_mod_cast hten
      push_cast
      exact ⟨by linarith, by linarith⟩
    · have h4 : (d : ℚ) ≤ 4 := by exact_mod_cast Nat.le_of_lt_succ (not_le.mp hfive)
      have h0 : (0 : ℚ) ≤ d := Nat.cast_nonneg _
      push_cast
      exact ⟨by linarith, by linarith⟩
  rw [halfAway, abs_toRat, hfloor, if_congr (toRat_neg_iff h) rfl rfl, Int.cast_natCast]

/-! ### What they compute -/

/-- The sign is that of the number, or none. -/
theorem restoreSign_spec (h : Decimal f) (hneg : f.negative = false) (n : Bool) :
    (restoreSign f n).toRat = (if n then -1 else 1) * f.magnitude ∧
      (restoreSign f n).scale = f.scale ∧
      ((restoreSign f n).toRat = 0 → (restoreSign f n).negative = false) := by
  have hzero := isZero_iff h hneg
  rw [restoreSign]
  cases n with
  | false =>
    refine ⟨?_, rfl, fun _ => hneg⟩
    change f.toRat = _
    rw [toRat_eq, hneg]
  | true =>
    by_cases hm : f.mantissa = 0
    · rw [hzero.mpr hm]
      refine ⟨?_, rfl, fun _ => hneg⟩
      change f.toRat = _
      rw [toRat_eq, magnitude, hm, Nat.cast_zero, zero_div, mul_zero, mul_zero]
    · rw [Bool.eq_false_iff.mpr (mt hzero.mp hm)]
      refine ⟨rfl, rfl, fun hc => absurd ?_ hm⟩
      change (-1 : ℚ) * (f.mantissa / 10 ^ f.scale) = 0 at hc
      have hpow : (10 : ℚ) ^ f.scale ≠ 0 := by positivity
      rw [neg_one_mul, neg_eq_zero, div_eq_zero_iff, or_iff_left hpow] at hc
      exact_mod_cast hc

/-- **The digits behind the scale are dropped.** -/
theorem dropped_spec (h : Valid x) (hs : s < x.scale) :
    Decimal ((clearDigits (x.scale - s) 0 x).normalize s) ∧
      ((clearDigits (x.scale - s) 0 x).normalize s).negative = x.negative ∧
      ((clearDigits (x.scale - s) 0 x).normalize s).digits < maxDigits ∧
      ((clearDigits (x.scale - s) 0 x).normalize s).scale = s ∧
      ((clearDigits (x.scale - s) 0 x).normalize s).mantissa = x.scaledTo s ∧
      x.scaledTo s < 10 ^ ((clearDigits (x.scale - s) 0 x).normalize s).digits := by
  have h1 := h.scale_le
  have h2 := h.digits_le
  have hdrop := normalize_clearDigits h.toDecimal h1 h2 h.mantissa_lt
    (show 0 < x.scale - s by omega) (Nat.sub_le _ _)
  rw [show x.scale - (x.scale - s) = s by omega] at hdrop
  obtain ⟨hd, hsign, hdigits, hscale, hvalue⟩ := hdrop
  have hlt := scaledTo_lt h s
  refine ⟨hd, hsign, by omega, hscale, hvalue.trans (scaledTo_of_ge hs.le).symm, ?_⟩
  rw [hdigits, show x.digits - (x.scale - s) = s + (x.digits - x.scale) by omega]
  exact hlt

theorem truncate_spec (h : Valid x) (hs : s < x.scale) :
    (x.truncate s).toRat = towardZero x.toRat s ∧ (x.truncate s).scale = s ∧
      ((x.truncate s).toRat = 0 → (x.truncate s).negative = false) := by
  obtain ⟨hd, hsign, -, hscale, hvalue, -⟩ := dropped_spec h hs
  rw [truncate, if_pos hs]
  generalize (clearDigits (x.scale - s) 0 x).normalize s = f at hd hsign hscale hvalue
  have hall : (if f.sign then restoreSign { f with negative := false } true else f) =
      restoreSign { f with negative := false } f.negative := by
    rw [sign]
    cases hn : f.negative with
    | false =>
      change f = { f with negative := false }
      rw [← hn]
    | true => rfl
  obtain ⟨hrat, hscale', hzero⟩ :=
    restoreSign_spec (decimal_unsigned hd) rfl f.negative
  dsimp only
  rw [hall, hrat, hscale', towardZero_toRat h, hsign, ← hvalue, ← hscale]
  rw [hrat, hsign] at hzero
  exact ⟨rfl, rfl, hzero⟩

theorem round_spec (h : Valid x) (hs : s < x.scale) :
    ∃ r, x.round s = .ok r ∧ r.toRat = halfAway x.toRat s ∧ r.scale = s ∧
      (r.toRat = 0 → r.negative = false) := by
  obtain ⟨hd, hsign, hdigits, hscale, hvalue, hlt⟩ := dropped_spec h hs
  rw [round, if_pos hs]
  generalize (clearDigits (x.scale - s) 0 x).normalize s = f at hd hsign hdigits hscale hvalue hlt
  have hunsigned : (if f.sign then { f with negative := false } else f) =
      { f with negative := false } := by
    rw [sign]
    cases hn : f.negative with
    | false =>
      change f = { f with negative := false }
      rw [← hn]
    | true => rfl
  dsimp only
  rw [hunsigned, halfAway_toRat h hs]
  by_cases hfive : 5 ≤ x.digit (x.scale - s - 1)
  · -- one is added, which finds a digit for its carry
    rw [if_pos hfive, if_pos hfive]
    obtain ⟨g, hg, hstep, hfit, -⟩ :=
      incMagnitude_spec (f := { f with negative := false, scale := 0 }) ⟨hd.length, hd.isDigits⟩
        (Nat.zero_le _) hdigits.le (hvalue.trans_lt hlt)
    have hm : g.mantissa = x.scaledTo s + 1 := (hfit (Or.inr hdigits)).trans (by rw [← hvalue]; rfl)
    obtain ⟨hrat, hscale', hzero⟩ := restoreSign_spec (f := { g with scale := s })
      ⟨hstep.length, hstep.isDigits⟩ hstep.negative f.negative
    have hgo : inc { f with negative := false, scale := 0 } = .ok g := hg
    refine ⟨restoreSign { g with scale := s } f.negative, ?_, ?_, hscale', hzero⟩
    · rw [hgo]
      rfl
    · rw [hrat, hsign, magnitude_eq rfl (show ({ g with scale := s } : Fixed).mantissa = _ from hm)]
  · rw [if_neg hfive, if_neg hfive, Nat.add_zero]
    obtain ⟨hrat, hscale', hzero⟩ := restoreSign_spec (decimal_unsigned hd) rfl f.negative
    refine ⟨_, rfl, ?_, hscale'.trans hscale, hzero⟩
    change (restoreSign { f with negative := false } f.negative).toRat = _
    rw [hrat, hsign, magnitude_eq (f := { f with negative := false }) hscale hvalue]

/-- **Rounding and truncation**: to the rational numbers that they should give, which are not
negative when they are zero; a scale that the number does not reach changes nothing. -/
theorem round_truncate_spec (h : Valid x) (s : ℕ) :
    (s < x.scale → (x.truncate s).toRat = towardZero x.toRat s ∧ (x.truncate s).scale = s ∧
        ((x.truncate s).toRat = 0 → (x.truncate s).negative = false) ∧
        ∃ r, x.round s = .ok r ∧ r.toRat = halfAway x.toRat s ∧ r.scale = s ∧
          (r.toRat = 0 → r.negative = false)) ∧
      (x.scale ≤ s → x.truncate s = x ∧ x.round s = .ok x) := by
  refine ⟨fun hs => ?_, fun hs => ⟨if_neg (not_lt.mpr hs), if_neg (not_lt.mpr hs)⟩⟩
  obtain ⟨h1, h2, h3⟩ := truncate_spec h hs
  exact ⟨h1, h2, h3, round_spec h hs⟩

theorem round_truncate_spec_half :
    (1 < Fixed.scale { fromInteger 995 with scale := 2 } →
        (truncate { fromInteger 995 with scale := 2 } 1).toRat =
            towardZero (toRat { fromInteger 995 with scale := 2 }) 1 ∧
        (truncate { fromInteger 995 with scale := 2 } 1).scale = 1 ∧
        ((truncate { fromInteger 995 with scale := 2 } 1).toRat = 0 →
          (truncate { fromInteger 995 with scale := 2 } 1).negative = false) ∧
        ∃ r, round { fromInteger 995 with scale := 2 } 1 = .ok r ∧
          r.toRat = halfAway (toRat { fromInteger 995 with scale := 2 }) 1 ∧ r.scale = 1 ∧
          (r.toRat = 0 → r.negative = false)) ∧
      (Fixed.scale { fromInteger 995 with scale := 2 } ≤ 1 →
        truncate { fromInteger 995 with scale := 2 } 1 = { fromInteger 995 with scale := 2 } ∧
        round { fromInteger 995 with scale := 2 } 1 = .ok { fromInteger 995 with scale := 2 }) :=
  round_truncate_spec (by decide +kernel) 1

end AceTao.Fixed
