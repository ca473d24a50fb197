import AceTao.Fixed.StepSpec
import AceTao.Library.DigitLists

/-!
# Products

`mul` is `operator*=`: all digits of the product are computed column by column, and the last ones are
dropped where there are more than 31. The columns are those of `DigitList.sum_columns`, so that
they hold the product of the digits (`temp_value`).

When the right factor is zero the digits of the left one can stay in the array above the digits that
are used, where a conversion does not look at them. So the value of a product is what is `shown`
by the digits that are used, which is the value of the number when it is valid (`shown_eq`).
-/

namespace AceTao.Fixed

open DigitList

/-! ### The source -/

/-- The inner loop: the products of a column are added to the carry. -/
def rowLoop (result right : Fixed) (col : ℕ) : ℕ → ℕ → ℕ → ℕ
  | 0, _, carry => carry
  | k + 1, row, carry =>
    rowLoop result right col k (row + 1) (carry + result.digit (col - row) * right.digit row)

/-- The outer loop, which fills the digits of the product. -/
def colLoop (result right : Fixed) : ℕ → ℕ → ℕ → List ℕ
  | 0, _, _ => []
  | k + 1, col, carry =>
    let row := col + 1 - result.digits
    let carry := rowLoop result right col (min (col + 1) right.digits - row) row carry
    carry % 10 :: colLoop result right k (col + 1) (carry / 10)

/-- The digits of the product without zeros in front; at least one. -/
def significantDigits (temp : List ℕ) : ℕ → ℕ
  | 0 => 0
  | n + 1 => if 0 < n ∧ temp.getD n 0 = 0 then significantDigits temp n else n + 1

/-- The loop that stores the digits of the product. -/
def storeDigits (temp : List ℕ) (offset : ℕ) : ℕ → ℕ → Fixed → Fixed
  | 0, _, f => f
  | k + 1, i, f => storeDigits temp offset k (i + 1) (f.setDigit i (temp.getD (i + offset) 0))

/-- The sign of a product is set in a copy of the left factor. -/
def signed (lhs rhs : Fixed) : Fixed :=
  if !lhs.sign && rhs.sign then { lhs with negative := true }
  else if lhs.sign && rhs.sign then { lhs with negative := false }
  else lhs

/-- **The operator `*=`**, without the assignment of the result. -/
def mul (lhs rhs : Fixed) : Except Fault Fixed :=
  let result := (lhs.signed rhs).ltrim
  let right := rhs.ltrim
  let temp := colLoop result right (result.digits + right.digits) 0 0
  let significant := significantDigits temp (result.digits + right.digits)
  if maxDigits + result.scale + right.scale < significant then .error .overflow
  else
    let scale := result.scale + right.scale
    let digits := max significant scale
    let offset := if maxDigits < digits then digits - maxDigits else 0
    let result := { result with
      digits := if maxDigits < digits then maxDigits else digits
      scale := if maxDigits < digits then (if offset ≤ scale then scale - offset else 0) else scale }
    .ok (storeDigits temp offset result.digits 0 result).ltrim

def mulAssign (lhs rhs : Fixed) : Fixed × Option Fault := lhs.commit (mul lhs rhs)

/-- **What is shown** by the digits that are used. -/
def shown (f : Fixed) : ℚ :=
  (if f.negative then -1 else 1) * ((f.mantissa % 10 ^ f.digits : ℕ) / 10 ^ f.scale)

/-! ### The digits of the product -/

variable {a b f r : Fixed} {i k : ℕ} {temp : List ℕ}

theorem rowLoop_eq (result right : Fixed) (col k row carry : ℕ) :
    rowLoop result right col k row carry =
      carry + ∑ j ∈ Finset.range k, result.digit (col - (row + j)) * right.digit (row + j) := by
  induction k generalizing row carry with
  | zero => rw [rowLoop, Finset.range_zero, Finset.sum_empty, Nat.add_zero]
  | succ k ih =>
    rw [rowLoop, ih, Finset.sum_range_succ', Nat.add_zero, Nat.add_comm (∑ _ ∈ _, _),
      ← Nat.add_assoc]
    refine congrArg (_ + ·) (Finset.sum_congr rfl fun j _ => ?_)
    rw [Nat.add_assoc row 1 j, Nat.add_comm 1 j]

/-- The loops compute the columns. -/
theorem colLoop_eq (result right : Fixed) (k col carry : ℕ) :
    colLoop result right k col carry =
      carryColumns 10 (columnSum result.digit right.digit result.digits right.digits) k col
        carry := by
  induction k generalizing col carry with
  | zero => rfl
  | succ k ih =>
    have hrow : rowLoop result right col
        (min (col + 1) right.digits - (col + 1 - result.digits)) (col + 1 - result.digits) carry =
        carry + columnSum result.digit right.digit result.digits right.digits col := by
      rw [rowLoop_eq, columnSum, rows, Finset.sum_Ico_eq_sum_range]
    rw [colLoop, hrow, ih, carryColumns]

/-- The digits that are used, added up. -/
theorem sum_digit (h : Decimal f) (hlt : f.mantissa < 10 ^ k) :
    ∑ i ∈ Finset.range k, f.digit i * 10 ^ i = f.mantissa := by
  rw [Finset.sum_congr rfl fun i _ => by rw [digit_eq h], sum_digits, Nat.mod_eq_of_lt hlt]

/-- **The digits of the product.** -/
theorem temp_value (ha : Decimal a) (hb : Decimal b) (hla : a.mantissa < 10 ^ a.digits)
    (hlb : b.mantissa < 10 ^ b.digits) :
    Nat.ofDigits 10 (colLoop a b (a.digits + b.digits) 0 0) = a.mantissa * b.mantissa := by
  have hlt : a.mantissa * b.mantissa < 10 ^ (a.digits + b.digits) := by
    rw [pow_add]
    exact Nat.mul_lt_mul'' hla hlb
  rw [colLoop_eq, ofDigits_carryColumns, Nat.zero_add,
    Finset.sum_congr rfl fun i _ => by rw [Nat.zero_add], sum_columns, sum_digit ha hla,
    sum_digit hb hlb, Nat.mod_eq_of_lt hlt]

theorem isDigits_temp (a b : Fixed) (k col carry : ℕ) : IsDigits 10 (colLoop a b k col carry) := by
  rw [colLoop_eq]
  exact isDigits_carryColumns (by norm_num) _ _ _ _

/-- The digits without zeros in front. -/
theorem significantDigits_spec {n : ℕ} (h : IsDigits 10 temp) (hlt : Nat.ofDigits 10 temp < 10 ^ n) :
    significantDigits temp n ≤ n ∧ Nat.ofDigits 10 temp < 10 ^ significantDigits temp n ∧
      (significantDigits temp n ≤ 1 ∨
        10 ^ (significantDigits temp n - 1) ≤ Nat.ofDigits 10 temp) := by
  induction n with
  | zero => exact ⟨le_rfl, hlt, Or.inl (Nat.zero_le 1)⟩
  | succ n ih =>
    have hdigit := getD_eq h (by norm_num) n
    have hdiv : Nat.ofDigits 10 temp / 10 ^ n < 10 := by
      rw [Nat.div_lt_iff_lt_mul (Nat.pow_pos (by norm_num)), ← pow_succ']
      exact hlt
    rw [Nat.mod_eq_of_lt hdiv] at hdigit
    rw [significantDigits]
    split_ifs with hzero
    · rw [hdigit, Nat.div_eq_zero_iff_lt (Nat.pow_pos (by norm_num))] at hzero
      obtain ⟨h1, h2, h3⟩ := ih hzero.2
      exact ⟨h1.trans n.le_succ, h2, h3⟩
    · refine ⟨le_rfl, hlt, ?_⟩
      by_contra hc
      rw [not_or, not_le, Nat.add_sub_cancel, not_le] at hc
      refine hzero ⟨by omega, ?_⟩
      rw [hdigit, Nat.div_eq_of_lt hc.2]

/-- **The digits that are stored** are those of the product above the offset. -/
theorem storeDigits_spec {j : ℕ} (h : Decimal f) (ht : IsDigits 10 temp)
    (hle : i + k ≤ maxDigits) :
    Decimal (storeDigits temp j k i f) ∧ SameShape f (storeDigits temp j k i f) ∧
      (storeDigits temp j k i f).mantissa % 10 ^ (i + k) =
        f.mantissa % 10 ^ i + 10 ^ i * (Nat.ofDigits 10 temp / 10 ^ (i + j) % 10 ^ k) := by
  induction k generalizing f i with
  | zero =>
    refine ⟨h, ⟨rfl, rfl, rfl⟩, ?_⟩
    rw [storeDigits, pow_zero, Nat.mod_one, Nat.mul_zero, Nat.add_zero, Nat.add_zero]
  | succ k ih =>
    have hval := ht.getD_lt (show 0 < 10 by norm_num) (i + j)
    have hd := h.setDigit hval i
    obtain ⟨hdec, hshape, hvalue⟩ := @ih _ (i + 1) hd (by omega)
    refine ⟨hdec, (sameShape_setDigit ..).trans hshape, ?_⟩
    have hset := mantissa_setDigit h (show i < maxDigits by omega) (temp.getD (i + j) 0)
    have hlow : (f.setDigit i (temp.getD (i + j) 0)).mantissa % 10 ^ i =
        f.mantissa % 10 ^ i := by
      have hmod := congrArg (· % 10 ^ i) hset
      simp only [Nat.add_mul_mod_self_left] at hmod
      exact hmod
    have hdigit := digit_eq hd i
    rw [digit_setDigit h (by omega), if_pos rfl] at hdigit
    rw [storeDigits, show i + (k + 1) = i + 1 + k by omega, hvalue, Nat.mod_pow_succ, hlow,
      ← hdigit, getD_eq ht (by norm_num), show i + 1 + j = i + j + 1 by omega,
      pow_succ' 10 k, Nat.mod_mul, pow_succ 10 i, pow_succ 10 (i + j),
      ← Nat.div_div_eq_div_mul]
    ring

/-- Forgetting zeros keeps the digits that are used. -/
theorem ltrimDigits_mod (h : Decimal f) (k : ℕ) :
    f.mantissa % 10 ^ ltrimDigits f k = f.mantissa % 10 ^ k := by
  induction k with
  | zero => rfl
  | succ i ih =>
    rw [ltrimDigits]
    split_ifs with hzero
    · rw [ih, Nat.mod_pow_succ, ← digit_eq h, hzero.2.2, Nat.mul_zero, Nat.add_zero]
    · rfl

/-- The digits of a product that are dropped. -/
def productOffset (significant scale : ℕ) : ℕ := max significant scale - maxDigits

/-- The digits that are used, after the digits of the product are stored in them. -/
theorem stored_spec {j : ℕ} (h : Decimal f) (ht : IsDigits 10 temp) (hle : f.digits ≤ maxDigits)
    (hlt : Nat.ofDigits 10 temp < 10 ^ (f.digits + j)) :
    (storeDigits temp j f.digits 0 f).ltrim.negative = f.negative ∧
      (storeDigits temp j f.digits 0 f).ltrim.scale = f.scale ∧
      (storeDigits temp j f.digits 0 f).ltrim.mantissa %
        10 ^ (storeDigits temp j f.digits 0 f).ltrim.digits =
          Nat.ofDigits 10 temp / 10 ^ j := by
  obtain ⟨hd, hshape, hvalue⟩ :=
    storeDigits_spec (j := j) (k := f.digits) (i := 0) h ht (by omega)
  refine ⟨hshape.negative, hshape.scale, ?_⟩
  have hdiv : Nat.ofDigits 10 temp / 10 ^ j < 10 ^ f.digits := by
    rw [Nat.div_lt_iff_lt_mul (Nat.pow_pos (by norm_num)), ← pow_add]
    exact hlt
  have htrim := ltrimDigits_mod hd (storeDigits temp j f.digits 0 f).digits
  rw [hshape.digits] at htrim
  rw [Nat.zero_add, Nat.zero_add, pow_zero, Nat.mod_one, Nat.zero_add, Nat.one_mul,
    Nat.mod_eq_of_lt hdiv] at hvalue
  have htrim' := htrim.trans hvalue
  rw [ltrim, hshape.digits]
  exact htrim'

/-- The sign of a product. -/
theorem signed_spec (a b : Fixed) :
    (a.signed b).negative = (a.negative != b.negative) ∧ (a.signed b).value = a.value ∧
      (a.signed b).digits = a.digits ∧ (a.signed b).scale = a.scale := by
  rw [signed, sign, sign]
  cases hna : a.negative <;> cases hnb : b.negative
  · exact ⟨hna, rfl, rfl, rfl⟩
  · exact ⟨rfl, rfl, rfl, rfl⟩
  · exact ⟨hna, rfl, rfl, rfl⟩
  · exact ⟨rfl, rfl, rfl, rfl⟩

/-- **The product** in digits: it is refused when it has more than 31 integer digits, and else its
last digits are dropped where it has more than 31. -/
theorem mul_spec (ha : Valid a) (hb : Valid b) :
    ∃ significant, a.mantissa * b.mantissa < 10 ^ significant ∧
      (significant ≤ 1 ∨ 10 ^ (significant - 1) ≤ a.mantissa * b.mantissa) ∧
      (maxDigits + (a.scale + b.scale) < significant → mul a b = .error .overflow) ∧
      (significant ≤ maxDigits + (a.scale + b.scale) → ∃ r, mul a b = .ok r ∧
        r.negative = (a.negative != b.negative) ∧
        r.scale = a.scale + b.scale - productOffset significant (a.scale + b.scale) ∧
        r.mantissa % 10 ^ r.digits =
          a.mantissa * b.mantissa / 10 ^ productOffset significant (a.scale + b.scale)) := by
  obtain ⟨hsign, hvalue, hsd, hss⟩ := signed_spec a b
  have hsm : (a.signed b).mantissa = a.mantissa := by rw [mantissa, hvalue, mantissa]
  obtain ⟨hx, hxn, hxs, hxm, -, -, hxlt, -⟩ := ltrim_spec (f := a.signed b)
    ⟨by rw [hvalue, ha.length], by rw [hvalue]; exact ha.isDigits⟩
    (by rw [hsm, hsd]; exact ha.mantissa_lt) (by rw [hss, hsd]; exact ha.scale_le)
  obtain ⟨hy, -, hys, hym, -, -, hylt, -⟩ := ltrim_spec hb.toDecimal hb.mantissa_lt hb.scale_le
  rw [hsm] at hxm hxlt
  have htemp := temp_value hx hy (hxm ▸ hxlt) (hym ▸ hylt)
  have hdigits := isDigits_temp (a.signed b).ltrim b.ltrim
    ((a.signed b).ltrim.digits + b.ltrim.digits) 0 0
  rw [hxm, hym] at htemp
  have hlt : a.mantissa * b.mantissa < 10 ^ ((a.signed b).ltrim.digits + b.ltrim.digits) := by
    rw [pow_add]
    exact Nat.mul_lt_mul'' hxlt hylt
  obtain ⟨-, hsig, hsig'⟩ := significantDigits_spec hdigits (htemp.trans_lt hlt)
  rw [htemp] at hsig hsig'
  rw [mul]
  dsimp only
  rw [hxs, hss, hys, Nat.add_assoc]
  generalize colLoop (a.signed b).ltrim b.ltrim
    ((a.signed b).ltrim.digits + b.ltrim.digits) 0 0 = temp at htemp hdigits hsig hsig' ⊢
  generalize significantDigits temp ((a.signed b).ltrim.digits + b.ltrim.digits) = significant
    at hsig hsig' ⊢
  refine ⟨significant, hsig, hsig', fun hbig => if_pos hbig, fun hfit => ?_⟩
  rw [if_neg (not_lt.mpr hfit)]
  -- all that is dropped is behind the point
  have hoffset : (if maxDigits < max significant (a.scale + b.scale) then
      max significant (a.scale + b.scale) - maxDigits else 0) =
        productOffset significant (a.scale + b.scale) := by
    rw [productOffset]
    split_ifs <;> omega
  have hle : productOffset significant (a.scale + b.scale) ≤ a.scale + b.scale := by
    rw [productOffset]
    omega
  have hscale : (if maxDigits < max significant (a.scale + b.scale) then
      (if productOffset significant (a.scale + b.scale) ≤ a.scale + b.scale then
        a.scale + b.scale - productOffset significant (a.scale + b.scale) else 0)
      else a.scale + b.scale) =
        a.scale + b.scale - productOffset significant (a.scale + b.scale) := by
    rw [if_pos hle, productOffset]
    split_ifs <;> omega
  rw [hoffset, hscale]
  obtain ⟨h1, h2, h3⟩ := stored_spec (j := productOffset significant (a.scale + b.scale))
    (f := { (a.signed b).ltrim with
      digits := if maxDigits < max significant (a.scale + b.scale) then maxDigits
        else max significant (a.scale + b.scale)
      scale := a.scale + b.scale - productOffset significant (a.scale + b.scale) })
    ⟨hx.length, hx.isDigits⟩ hdigits (by dsimp only; split_ifs <;> omega) (by
      rw [htemp, productOffset]
      refine hsig.trans_le (Nat.pow_le_pow_right (by norm_num) ?_)
      dsimp only
      split_ifs <;> omega)
  rw [htemp] at h3
  exact ⟨_, rfl, h1.trans (hxn.trans hsign), h2, h3⟩

/-! ### What a product is worth -/

/-- **What is expected** of a product. -/
structure ProductAsClaimed (a b : Fixed) (after : Fixed × Option Fault) : Prop where
  throws : after.2 = some .overflow ↔ 10 ^ maxDigits ≤ |a.toRat * b.toRat|
  kept : after.2 = some .overflow → after.1 = a
  returns : |a.toRat * b.toRat| < 10 ^ maxDigits → after.2 = none
  value_eq : |a.toRat * b.toRat| < 10 ^ maxDigits →
    after.1.shown = towardZero (a.toRat * b.toRat) after.1.scale
  exact : |a.toRat * b.toRat| < 10 ^ maxDigits → Fits (a.toRat * b.toRat) →
    after.1.shown = a.toRat * b.toRat

theorem abs_product (a b : Fixed) : |a.toRat * b.toRat| =
    ((a.mantissa * b.mantissa : ℕ) : ℚ) / 10 ^ (a.scale + b.scale) := by
  rw [abs_mul, abs_toRat, abs_toRat, magnitude, magnitude, div_mul_div_comm, ← pow_add,
    Nat.cast_mul]

/-- A product that is not zero has the sign that is set. -/
theorem product_eq (a b : Fixed) :
    a.toRat * b.toRat = (if (a.negative != b.negative) then -1 else 1) * |a.toRat * b.toRat| := by
  rw [abs_mul, abs_toRat, abs_toRat, toRat_eq, toRat_eq]
  cases a.negative <;> cases b.negative <;> simp

theorem towardZero_product (a b : Fixed) (s : ℕ) :
    towardZero (a.toRat * b.toRat) s = (if (a.negative != b.negative) then -1 else 1) *
      (⌊|a.toRat * b.toRat| * 10 ^ s⌋ / 10 ^ s) := by
  rw [towardZero]
  rcases eq_or_ne (a.toRat * b.toRat) 0 with hzero | hne
  · rw [hzero, abs_zero, zero_mul, Int.floor_zero, Int.cast_zero, zero_div, mul_zero, mul_zero]
  · refine congrArg (· * _) (if_congr ?_ rfl rfl)
    have hpos := abs_pos.mpr hne
    have hsign := product_eq a b
    cases hn : (a.negative != b.negative) with
    | false =>
      rw [hn, if_neg Bool.false_ne_true, one_mul] at hsign
      exact ⟨fun hc => absurd hc (not_lt.mpr (hsign ▸ hpos.le)), (fun h => by cases h)⟩
    | true =>
      rw [hn, if_pos rfl, neg_one_mul] at hsign
      exact ⟨fun _ => rfl, fun _ => by linarith⟩

/-- Dropped digits in the rational number. -/
theorem floor_dropped (P sc : ℕ) {k : ℕ} (hk : k ≤ sc) :
    ⌊(P : ℚ) / 10 ^ sc * 10 ^ (sc - k)⌋ = ((P / 10 ^ k : ℕ) : ℤ) := by
  have hpow : (P : ℚ) / 10 ^ sc * 10 ^ (sc - k) = P / 10 ^ k := by
    rw [div_mul_eq_mul_div, div_eq_div_iff (by positivity) (by positivity), mul_assoc, ← pow_add,
      Nat.sub_add_cancel hk]
  rw [hpow]
  exact_mod_cast Rat.floor_natCast_div_natCast P (10 ^ k)

/-- **A product that fits** loses no digit but zeros. -/
theorem pow_dvd_of_fits {P sc significant : ℕ}
    (hge : significant ≤ 1 ∨ 10 ^ (significant - 1) ≤ P)
    (hfits : ∃ m t : ℕ, m < 10 ^ maxDigits ∧ t ≤ maxDigits ∧ (P : ℚ) / 10 ^ sc = m / 10 ^ t) :
    10 ^ productOffset significant sc ∣ P := by
  obtain ⟨m, t, hm, ht, heq⟩ := hfits
  rw [div_eq_div_iff (by positivity) (by positivity)] at heq
  have hnat : P * 10 ^ t = m * 10 ^ sc := by exact_mod_cast heq
  have hmax : maxDigits = 31 := rfl
  -- a number below a power of ten has that many digits at most
  have hbound : ∀ n, P < 10 ^ n → 1 ≤ n → significant ≤ n := by
    intro n hn hpos
    rcases hge with h1 | h1
    · omega
    · have := (Nat.pow_lt_pow_iff_right (by norm_num)).mp (h1.trans_lt hn)
      omega
  rcases Nat.le_total sc t with hle | hle
  · obtain ⟨k, rfl⟩ := Nat.exists_eq_add_of_le hle
    rw [pow_add, Nat.mul_comm (10 ^ sc), ← Nat.mul_assoc] at hnat
    have hmul := Nat.eq_of_mul_eq_mul_right (Nat.pow_pos (by norm_num)) hnat
    have hP : P < 10 ^ maxDigits :=
      (Nat.le_mul_of_pos_right P (Nat.pow_pos (by norm_num))).trans_lt (hmul.trans_lt hm)
    have hsig := hbound maxDigits hP (by omega)
    rw [productOffset, show max significant sc - maxDigits = 0 by omega, pow_zero]
    exact one_dvd P
  · obtain ⟨k, rfl⟩ := Nat.exists_eq_add_of_le hle
    rw [Nat.add_comm t, pow_add, ← Nat.mul_assoc] at hnat
    have hmul := Nat.eq_of_mul_eq_mul_right (Nat.pow_pos (by norm_num)) hnat
    have hP : P < 10 ^ (maxDigits + k) := by
      rw [hmul, pow_add]
      exact Nat.mul_lt_mul_of_pos_right hm (Nat.pow_pos (by norm_num))
    have hsig := hbound (maxDigits + k) hP (by omega)
    rw [hmul]
    refine Dvd.dvd.mul_left (pow_dvd_pow 10 ?_) m
    rw [productOffset]
    omega

end AceTao.Fixed
