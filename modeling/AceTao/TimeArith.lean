import AceTao.TimeValue

/-!
# Exact arithmetic on time values

`ACE_Time_Value::normalize` works on a pair of seconds and microseconds of 64 bits each, in two's
complement. `Timeval.normalize` is the function as it stands, with its saturating variant; the
canonical values of `AceTao.TimeValue` are what it leaves (`normalize_eq_set`).

There is one number of microseconds that it does not take apart: the least one, whose absolute
value is not representable. Every other pair keeps its total number of microseconds, as long as the
seconds do not overflow, and on canonical values the operators compute with these totals
(`arithmetic_exact_iff`).
-/

namespace AceTao

open TimeValue (carry signFix)

/-- **A pair of seconds and microseconds**, before it is normalised. -/
@[ext]
structure Timeval where
  /-- `tv_sec` -/
  tvSec : ℤ
  /-- `tv_usec` -/
  tvUsec : ℤ
deriving DecidableEq

namespace Timeval

/-- Both numbers have 64 bits. -/
structure Fits (tv : Timeval) : Prop where
  sec_ge : -2 ^ 63 ≤ tv.tvSec
  sec_lt : tv.tvSec < 2 ^ 63
  usec_ge : -2 ^ 63 ≤ tv.tvUsec
  usec_lt : tv.tvUsec < 2 ^ 63

/-- The whole seconds in the microseconds: `std::abs` of the least number is that number. -/
def wholeSeconds (usec : ℤ) : ℤ :=
  (wrap64 |usec|).tdiv oneSecondInUsecs * (if 0 < usec then 1 else -1)

/-- The first statement of `normalize`. -/
def carrySeconds (saturate : Bool) (tv : Timeval) : Timeval :=
  if oneSecondInUsecs ≤ tv.tvUsec ∨ tv.tvUsec ≤ -oneSecondInUsecs then
    let sec := wholeSeconds tv.tvUsec
    let usec := wrap64 (tv.tvUsec - sec * oneSecondInUsecs)
    if saturate ∧ 0 < tv.tvSec ∧ 0 < sec ∧ 2 ^ 63 - 1 - tv.tvSec < sec then
      ⟨2 ^ 63 - 1, oneSecondInUsecs - 1⟩
    else if saturate ∧ tv.tvSec < 0 ∧ sec < 0 ∧ sec < -2 ^ 63 - tv.tvSec then
      ⟨-2 ^ 63, -oneSecondInUsecs + 1⟩
    else ⟨wrap64 (tv.tvSec + sec), usec⟩
  else tv

/-- **`normalize (saturate)`**. -/
def normalize (saturate : Bool) (tv : Timeval) : Timeval :=
  let tv := carrySeconds saturate tv
  if 1 ≤ tv.tvSec ∧ tv.tvUsec < 0 then ⟨tv.tvSec - 1, tv.tvUsec + oneSecondInUsecs⟩
  else if tv.tvSec < 0 ∧ 0 < tv.tvUsec then ⟨tv.tvSec + 1, tv.tvUsec - oneSecondInUsecs⟩
  else tv

/-- The number of microseconds a pair stands for. -/
def total (tv : Timeval) : ℤ := tv.tvSec * oneSecondInUsecs + tv.tvUsec

/-- **A canonical pair**: less than a second of microseconds, with the sign of the seconds. -/
structure Canonical (tv : Timeval) : Prop where
  usec_lt : |tv.tvUsec| < oneSecondInUsecs
  usec_nonneg : 0 < tv.tvSec → 0 ≤ tv.tvUsec
  usec_nonpos : tv.tvSec < 0 → tv.tvUsec ≤ 0

/-- **The seconds do not overflow**, neither those of the pair nor those that `normalize` computes. -/
structure SecondsFit (sec usec : ℤ) : Prop where
  ge : -2 ^ 63 ≤ sec
  lt : sec < 2 ^ 63
  carry_ge : -2 ^ 63 ≤ sec + usec.tdiv oneSecondInUsecs
  carry_lt : sec + usec.tdiv oneSecondInUsecs < 2 ^ 63

/-! ### Canonical pairs -/

/-- **A canonical pair is determined by its total.** -/
theorem Canonical.eq_of_total {p q : Timeval} (hp : p.Canonical) (hq : q.Canonical)
    (h : p.total = q.total) : p = q := by
  have hp₁ := abs_lt.mp hp.usec_lt
  have hq₁ := abs_lt.mp hq.usec_lt
  have hp₂ := hp.usec_nonneg
  have hp₃ := hp.usec_nonpos
  have hq₂ := hq.usec_nonneg
  have hq₃ := hq.usec_nonpos
  simp only [total, oneSecondInUsecs] at *
  ext
  · omega
  · omega

/-- The pair of a time value. -/
def ofTimeValue (a : TimeValue) : Timeval := ⟨a.sec, a.usec⟩

theorem canonical_ofTimeValue (a : TimeValue) : (ofTimeValue a).Canonical :=
  ⟨abs_lt.mpr ⟨a.usec_gt, a.usec_lt⟩, a.usec_nonneg, a.usec_nonpos⟩

theorem total_ofTimeValue (a : TimeValue) : (ofTimeValue a).total = a.micros := rfl

/-! ### The carry -/

/-- The absolute value of any number but the least one is right. -/
theorem wholeSeconds_eq {usec : ℤ} (hge : -2 ^ 63 ≤ usec) (hlt : usec < 2 ^ 63)
    (hne : usec ≠ -2 ^ 63) :
    wholeSeconds usec = |usec| / oneSecondInUsecs * (if 0 < usec then 1 else -1) := by
  have habs : wrap64 |usec| = |usec| := by
    have hnonneg := abs_nonneg usec
    have hmax : |usec| < 2 ^ 63 := abs_lt.mpr ⟨by omega, hlt⟩
    exact wrap64_of_fits (by omega) hmax
  rw [wholeSeconds, habs, Int.tdiv_eq_ediv_of_nonneg (abs_nonneg usec)]

/-- The first statement without saturation. -/
theorem carrySeconds_false (tv : Timeval) : carrySeconds false tv =
    if oneSecondInUsecs ≤ tv.tvUsec ∨ tv.tvUsec ≤ -oneSecondInUsecs then
      ⟨wrap64 (tv.tvSec + wholeSeconds tv.tvUsec),
        wrap64 (tv.tvUsec - wholeSeconds tv.tvUsec * oneSecondInUsecs)⟩
    else tv := by
  simp [carrySeconds]

/-- What is left of the microseconds is not wrapped. -/
theorem wrap64_rest {usec : ℤ} (hge : -2 ^ 63 ≤ usec) (hlt : usec < 2 ^ 63)
    (hne : usec ≠ -2 ^ 63) : wrap64 (usec - wholeSeconds usec * oneSecondInUsecs) =
      usec - wholeSeconds usec * oneSecondInUsecs := by
  rw [wholeSeconds_eq hge hlt hne]
  simp only [oneSecondInUsecs]
  rcases lt_or_ge 0 usec with hpos | hneg
  · rw [abs_of_pos hpos, if_pos hpos]
    exact wrap64_of_fits (by omega) (by omega)
  · rw [abs_of_nonpos hneg, if_neg (not_lt.mpr hneg)]
    exact wrap64_of_fits (by omega) (by omega)

/-- It is the carry of `TimeValue.set`. -/
theorem carrySeconds_eq {tv : Timeval} (h : tv.Fits) (hne : tv.tvUsec ≠ -2 ^ 63) :
    ((carrySeconds false tv).tvSec, (carrySeconds false tv).tvUsec) = carry tv.tvSec tv.tvUsec := by
  rw [carrySeconds_false, wrap64_rest h.usec_ge h.usec_lt hne,
    wholeSeconds_eq h.usec_ge h.usec_lt hne, carry]
  split_ifs <;> rfl

/-- **`normalize` leaves the canonical value** of a pair. -/
theorem normalize_eq_set {tv : Timeval} (h : tv.Fits) (hne : tv.tvUsec ≠ -2 ^ 63) :
    normalize false tv = ofTimeValue (TimeValue.set tv.tvSec tv.tvUsec) := by
  have hcarry := carrySeconds_eq h hne
  have hsec : wrap64 tv.tvSec = tv.tvSec := wrap64_of_fits h.sec_ge h.sec_lt
  have hfirst := congrArg Prod.fst hcarry
  have hsecond := congrArg Prod.snd hcarry
  simp only [ofTimeValue, TimeValue.set, hsec, signFix, ← hcarry, normalize]
  split_ifs <;> rfl

/-! ### The least number of microseconds -/

/-- **The least number of microseconds** is not taken apart: the total is too large by `2 ^ 64`. -/
theorem total_normalize_least {sec : ℤ} (h : SecondsFit sec (-2 ^ 63)) :
    (normalize false ⟨sec, -2 ^ 63⟩).total ≠ Timeval.total ⟨sec, -2 ^ 63⟩ := by
  have hwhole : wholeSeconds (-2 ^ 63) = 9223372036854 := by decide +kernel
  have hrest : wrap64 (-2 ^ 63 - 9223372036854 * oneSecondInUsecs) = 775808 := by decide +kernel
  have hcarry : carrySeconds false ⟨sec, -2 ^ 63⟩ = ⟨wrap64 (sec + 9223372036854), 775808⟩ := by
    rw [carrySeconds_false, if_pos (Or.inr (by norm_num [oneSecondInUsecs]))]
    dsimp only
    rw [hwhole, hrest]
  obtain ⟨k, hk⟩ := TimeValue.wrap64_eq_add (sec + 9223372036854)
  have hge := wrap64_ge (sec + 9223372036854)
  have hlt := wrap64_lt (sec + 9223372036854)
  have hsec := h.ge
  have hsec' := h.lt
  rw [normalize, hcarry]
  generalize wrap64 (sec + 9223372036854) = s at hk hge hlt
  simp only [total, oneSecondInUsecs]
  split_ifs <;> dsimp only <;> omega

/-! ### The operators -/

/-- The total of a sum or a difference, before and after it is normalised. -/
theorem micros_set_of_fit {sec usec : ℤ} (h : SecondsFit sec usec) :
    (TimeValue.set sec usec).micros = sec * oneSecondInUsecs + usec := by
  have hge := h.carry_ge
  have hlt := h.carry_lt
  have hdiv := Int.mul_tdiv_add_tmod usec oneSecondInUsecs
  have hmod := Int.tmod_lt_of_pos usec (show 0 < oneSecondInUsecs by norm_num)
  have hmod' := Int.lt_tmod_of_pos usec (show 0 < oneSecondInUsecs by norm_num)
  simp only [oneSecondInUsecs] at hge hlt hdiv hmod hmod'
  refine TimeValue.micros_set h.ge h.lt ?_ ?_
  · simp only [oneSecondInUsecs]
    omega
  · simp only [oneSecondInUsecs]
    omega

/-- **The operators compute with the totals** of two canonical values. -/
structure OperatorsExact (a b : TimeValue) : Prop where
  add : SecondsFit (a.sec + b.sec) (a.usec + b.usec) → (a + b).micros = a.micros + b.micros
  sub : SecondsFit (a.sec - b.sec) (a.usec - b.usec) → (a - b).micros = a.micros - b.micros
  lt : a < b ↔ a.micros < b.micros
  le : a ≤ b ↔ a.micros ≤ b.micros
  eq : a = b ↔ a.micros = b.micros
  ge : a ≥ b ↔ a.micros ≥ b.micros
  gt : a > b ↔ a.micros > b.micros

theorem operatorsExact (a b : TimeValue) : OperatorsExact a b where
  add h := by
    rw [TimeValue.add_def, micros_set_of_fit h, TimeValue.micros, TimeValue.micros]
    ring
  sub h := by
    rw [TimeValue.sub_def, micros_set_of_fit h, TimeValue.micros, TimeValue.micros]
    ring
  lt := TimeValue.lt_iff_micros
  le := TimeValue.le_iff_micros
  eq := ⟨congrArg TimeValue.micros, TimeValue.micros_injective⟩
  ge := TimeValue.le_iff_micros
  gt := TimeValue.lt_iff_micros

/-! ### Exactness -/

/-- **`normalize ()` is exact**: it keeps the total and leaves the one canonical pair with it. -/
structure NormalizesExactly (tv : Timeval) : Prop where
  total_eq : (normalize false tv).total = tv.total
  canonical : (normalize false tv).Canonical
  unique : ∀ tv' : Timeval, tv'.Canonical → tv'.total = tv.total → tv' = normalize false tv

theorem normalizesExactly {tv : Timeval} (h : tv.Fits) (hsec : SecondsFit tv.tvSec tv.tvUsec)
    (hne : tv.tvUsec ≠ -2 ^ 63) : NormalizesExactly tv := by
  have heq := normalize_eq_set h hne
  have htotal : (normalize false tv).total = tv.total := by
    rw [heq, total_ofTimeValue, micros_set_of_fit hsec, total]
  have hcanonical : (normalize false tv).Canonical := by
    rw [heq]
    exact canonical_ofTimeValue _
  exact ⟨htotal, hcanonical, fun tv' hc ht => hc.eq_of_total hcanonical (ht.trans htotal.symm)⟩

/-- **Time arithmetic is exact and canonical** for every number of microseconds but the least one. -/
theorem arithmetic_exact_iff {tv : Timeval} (h : tv.Fits) (hsec : SecondsFit tv.tvSec tv.tvUsec) :
    (NormalizesExactly tv ∧ ∀ a b, OperatorsExact a b) ↔ tv.tvUsec ≠ -2 ^ 63 := by
  constructor
  · rintro ⟨hexact, -⟩ heq
    obtain ⟨sec, usec⟩ := tv
    dsimp only at heq hsec
    subst heq
    exact total_normalize_least hsec hexact.total_eq
  · exact fun hne => ⟨normalizesExactly h hsec hne, operatorsExact⟩

/-- Minus five and a half seconds, as microseconds beside one second. -/
theorem arithmetic_exact_iff_mixed :
    (NormalizesExactly ⟨1, -6500000⟩ ∧ ∀ a b, OperatorsExact a b) ↔ (-6500000 : ℤ) ≠ -2 ^ 63 :=
  arithmetic_exact_iff ⟨by decide, by decide, by decide, by decide⟩
    ⟨by decide, by decide, by decide, by decide⟩

example : normalize false ⟨1, -6500000⟩ = ⟨-5, -500000⟩ := by decide

/-- The least number of microseconds becomes a positive number of seconds. -/
theorem not_normalizesExactly_least :
    normalize false ⟨0, -2 ^ 63⟩ = ⟨9223372036854, 775808⟩ ∧ ¬NormalizesExactly ⟨0, -2 ^ 63⟩ :=
  ⟨by decide +kernel, fun h =>
    total_normalize_least ⟨by decide, by decide, by decide +kernel, by decide +kernel⟩ h.total_eq⟩

end Timeval

end AceTao
