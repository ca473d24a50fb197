import AceTao.Fixed.Basic

/-!
# The loops over the digits

The loops of `operator+=`, `operator-=` and `operator++`. Each walks with an iterator over the digits
of `*this`, and what it leaves is described by the numbers: `addLoop_spec` for the sum with a carry,
`carryLoop_spec` for the carry that goes on, `subLoop_spec` for the difference with a borrow.

The loop that should pass the borrow on, `borrowLoop`, never advances its iterator. It does what it
should where the digit at the iterator is not zero (`borrowLoop_pos`); a zero there becomes an eight
(`borrowLoop_zero`).
-/

namespace AceTao.Fixed

open DigitList

/-! ### The source -/

/-- The loop of `operator+=` over the digits of both. -/
def addLoop (rhs : Fixed) : ℕ → ℕ → ℕ → Bool → Fixed → Except Fault (Fixed × Bool)
  | 0, _, _, carry, f => .ok (f, carry)
  | k + 1, lhsIter, rhsIter, carry, f => do
    let x ← f.deref lhsIter
    let y ← rhs.deref rhsIter
    let digit := x + y + carry.toNat
    let carry := decide (9 < digit)
    let f ← f.assign lhsIter (digit - if carry then 10 else 0)
    addLoop rhs k (lhsIter + 1) (rhsIter + 1) carry f

/-- The loop that passes the carry on. -/
def carryLoop : ℕ → ℕ → Bool → Fixed → Except Fault (Fixed × Bool × ℕ)
  | 0, lhsIter, carry, f => .ok (f, carry, lhsIter)
  | k + 1, lhsIter, carry, f =>
    if carry then do
      let x ← f.deref lhsIter
      let digit := x + 1
      let carry := decide (9 < digit)
      let f ← f.assign lhsIter (digit - if carry then 10 else 0)
      carryLoop k (lhsIter + 1) carry f
    else .ok (f, carry, lhsIter)

/-- The carry is passed on up to the end of the digits, where there is one. -/
def passCarry (lhsIter : ℕ) (carry : Bool) (f : Fixed) : Except Fault (Fixed × Bool × ℕ) :=
  if carry then do
    let k ← steps lhsIter f.digits
    carryLoop k lhsIter carry f
  else .ok (f, carry, lhsIter)

/-- The loop of `operator-=` over the digits of both. -/
def subLoop (rhs : Fixed) : ℕ → ℕ → ℕ → Bool → Fixed → Except Fault (Fixed × Bool)
  | 0, _, _, borrow, f => .ok (f, borrow)
  | k + 1, lhsIter, rhsIter, borrow, f => do
    let x ← f.deref lhsIter
    let y ← rhs.deref rhsIter
    if y + borrow.toNat ≤ x then
      let f ← f.assign lhsIter (x - (y + borrow.toNat))
      subLoop rhs k (lhsIter + 1) (rhsIter + 1) false f
    else
      let f ← f.assign lhsIter (x + (10 - y - borrow.toNat))
      subLoop rhs k (lhsIter + 1) (rhsIter + 1) true f

/-- The loop that should pass the borrow on. The iterator stays where it is, so that the loop ends
at the second round. -/
def borrowLoop (lhsIter : ℕ) : ℕ → Bool → Fixed → Except Fault (Fixed × Bool)
  | 0, borrow, f => if borrow && lhsIter != f.digits then .error .depth else .ok (f, borrow)
  | k + 1, borrow, f =>
    if borrow && lhsIter != f.digits then do
      let x ← f.deref lhsIter
      if x ≠ 0 then
        let f ← f.assign lhsIter (x - 1)
        borrowLoop lhsIter k false f
      else
        let f ← f.assign lhsIter 9
        borrowLoop lhsIter k borrow f
    else .ok (f, borrow)

/-! ### What the loops do -/

variable {f rhs : Fixed} {i j k : ℕ} {c : Bool}

/-- A digit of a sum, with what is carried. -/
theorem place_add {x y : ℕ} (hx : x < 10) (hy : y < 10) :
    (x + y + c.toNat - if decide (9 < x + y + c.toNat) then 10 else 0) < 10 ∧
      (x + y + c.toNat - if decide (9 < x + y + c.toNat) then 10 else 0) +
        10 * (decide (9 < x + y + c.toNat)).toNat = x + (y + c.toNat) := by
  have hc := c.toNat_le
  by_cases hcarry : 9 < x + y + c.toNat
  · simp only [hcarry, decide_true, if_true, Bool.toNat_true]
    omega
  · simp only [hcarry, decide_false, Bool.false_eq_true, if_false, Bool.toNat_false]
    omega

/-- A digit that is assigned, in the number: `t` is added, and `u` carried. -/
theorem mantissa_setDigit_carry (h : Decimal f) (hi : i < maxDigits) {val t u : ℕ}
    (hval : val + 10 * u = f.digit i + t) :
    (f.setDigit i val).mantissa + 10 ^ (i + 1) * u = f.mantissa + 10 ^ i * t := by
  have hset := mantissa_setDigit h hi val
  have hmul : 10 ^ i * val + 10 ^ (i + 1) * u = 10 ^ i * f.digit i + 10 ^ i * t := by
    rw [pow_succ, Nat.mul_assoc, ← Nat.mul_add, ← Nat.mul_add, hval]
  omega

/-- A digit of the right operand in front of the others. -/
theorem digits_succ (h : Decimal rhs) (j k : ℕ) :
    rhs.mantissa / 10 ^ j % 10 ^ (k + 1) =
      rhs.digit j + 10 * (rhs.mantissa / 10 ^ (j + 1) % 10 ^ k) := by
  rw [digit_eq h, pow_succ', Nat.mod_mul, pow_succ, Nat.div_div_eq_div_mul]

theorem addLoop_succ (h : Decimal f) (hr : Decimal rhs) (hi : i < maxDigits) (hj : j < maxDigits) :
    addLoop rhs (k + 1) i j c f =
      addLoop rhs k (i + 1) (j + 1) (decide (9 < f.digit i + rhs.digit j + c.toNat))
        (f.setDigit i (f.digit i + rhs.digit j + c.toNat -
          if decide (9 < f.digit i + rhs.digit j + c.toNat) then 10 else 0)) := by
  rw [addLoop, deref_eq h hi, deref_eq hr hj]
  change (f.assign i _ >>= _) = _
  rw [assign_eq h hi]
  rfl

/-- **The sum with a carry.** -/
theorem addLoop_spec (h : Decimal f) (hr : Decimal rhs) (hi : i + k ≤ maxDigits)
    (hj : j + k ≤ maxDigits) :
    ∃ f' c', addLoop rhs k i j c f = .ok (f', c') ∧ Decimal f' ∧ SameShape f f' ∧
      f'.mantissa + 10 ^ (i + k) * c'.toNat =
        f.mantissa + 10 ^ i * (rhs.mantissa / 10 ^ j % 10 ^ k + c.toNat) ∧
      f'.mantissa / 10 ^ (i + k) = f.mantissa / 10 ^ (i + k) := by
  induction k generalizing f i j c with
  | zero =>
    refine ⟨f, c, rfl, h, ⟨rfl, rfl, rfl⟩, ?_, rfl⟩
    rw [pow_zero, Nat.mod_one, Nat.zero_add, Nat.add_zero]
  | succ k ih =>
    obtain ⟨hlt, hplace⟩ := @place_add c _ _ (digit_lt h i) (digit_lt hr j)
    have hmid := mantissa_setDigit_carry h (show i < maxDigits by omega) hplace
    have hdiv := mantissa_setDigit_div h hlt (show i < i + 1 + k by omega)
    obtain ⟨f', c', hrun, hd, hshape, hvalue, htop⟩ := ih (h.setDigit hlt i)
      (show i + 1 + k ≤ maxDigits by omega) (show j + 1 + k ≤ maxDigits by omega)
    refine ⟨f', c', (addLoop_succ h hr (by omega) (by omega)).trans hrun, hd,
      (sameShape_setDigit ..).trans hshape, ?_, ?_⟩
    · rw [show i + (k + 1) = i + 1 + k by omega, hvalue, digits_succ hr, Nat.mul_add,
        Nat.add_comm (10 ^ (i + 1) * _), ← Nat.add_assoc, hmid]
      ring
    · rw [show i + (k + 1) = i + 1 + k by omega, htop, hdiv]

theorem carryLoop_false : carryLoop k i false f = .ok (f, false, i) := by
  cases k <;> rfl

theorem carryLoop_succ (h : Decimal f) (hi : i < maxDigits) :
    carryLoop (k + 1) i true f =
      carryLoop k (i + 1) (decide (9 < f.digit i + 1))
        (f.setDigit i (f.digit i + 1 - if decide (9 < f.digit i + 1) then 10 else 0)) := by
  rw [carryLoop, if_pos rfl, deref_eq h hi]
  change (f.assign i _ >>= _) = _
  rw [assign_eq h hi]
  rfl

/-- **The carry** is passed on, and where it is left the iterator is at the end. -/
theorem carryLoop_spec (h : Decimal f) (hi : i + k ≤ maxDigits) :
    ∃ f' c' i', carryLoop k i c f = .ok (f', c', i') ∧ Decimal f' ∧ SameShape f f' ∧
      f'.mantissa + 10 ^ (i + k) * c'.toNat = f.mantissa + 10 ^ i * c.toNat ∧
      f'.mantissa / 10 ^ (i + k) = f.mantissa / 10 ^ (i + k) ∧ (c' = true → i' = i + k) := by
  induction k generalizing f i c with
  | zero => exact ⟨f, c, i, rfl, h, ⟨rfl, rfl, rfl⟩, rfl, rfl, fun _ => rfl⟩
  | succ k ih =>
    cases c with
    | false =>
      refine ⟨f, false, i, carryLoop_false, h, ⟨rfl, rfl, rfl⟩, ?_, rfl, nofun⟩
      rw [Bool.toNat_false, Nat.mul_zero, Nat.mul_zero]
    | true =>
      obtain ⟨hlt, hplace⟩ := @place_add true _ 0 (digit_lt h i) (by norm_num)
      rw [Nat.add_zero, Bool.toNat_true] at hlt hplace
      rw [Nat.zero_add] at hplace
      have hmid := mantissa_setDigit_carry h (show i < maxDigits by omega) hplace
      have hdiv := mantissa_setDigit_div h hlt (show i < i + 1 + k by omega)
      obtain ⟨f', c', i', hrun, hd, hshape, hvalue, htop, hend⟩ := ih (h.setDigit hlt i)
        (show i + 1 + k ≤ maxDigits by omega)
      refine ⟨f', c', i', (carryLoop_succ h (by omega)).trans hrun, hd,
        (sameShape_setDigit ..).trans hshape, ?_, ?_, fun hc => (hend hc).trans (by omega)⟩
      · rw [show i + (k + 1) = i + 1 + k by omega, hvalue, hmid, Bool.toNat_true]
      · rw [show i + (k + 1) = i + 1 + k by omega, htop, hdiv]

theorem passCarry_eq (hle : i ≤ f.digits) :
    passCarry i c f = carryLoop (f.digits - i) i c f := by
  cases c with
  | false => exact carryLoop_false.symm
  | true =>
    rw [passCarry, if_pos rfl, steps, if_pos hle]
    rfl

/-- A digit of a difference, with what is borrowed. -/
theorem place_sub {x y : ℕ} (hy : y < 10) (hle : ¬y + c.toNat ≤ x) :
    x + (10 - y - c.toNat) < 10 ∧ x + (10 - y - c.toNat) + (y + c.toNat) = x + 10 := by
  have hc := c.toNat_le
  omega

/-- A digit that is assigned, in the number: `t` is subtracted, and `u` borrowed. -/
theorem mantissa_setDigit_borrow (h : Decimal f) (hi : i < maxDigits) {val t u : ℕ}
    (hval : val + t = f.digit i + 10 * u) :
    (f.setDigit i val).mantissa + 10 ^ i * t = f.mantissa + 10 ^ (i + 1) * u := by
  have hset := mantissa_setDigit h hi val
  have hmul : 10 ^ i * val + 10 ^ i * t = 10 ^ i * f.digit i + 10 ^ (i + 1) * u := by
    rw [pow_succ, Nat.mul_assoc, ← Nat.mul_add, ← Nat.mul_add, hval]
  omega

theorem subLoop_succ (h : Decimal f) (hr : Decimal rhs) (hi : i < maxDigits) (hj : j < maxDigits) :
    subLoop rhs (k + 1) i j c f =
      if rhs.digit j + c.toNat ≤ f.digit i then
        subLoop rhs k (i + 1) (j + 1) false
          (f.setDigit i (f.digit i - (rhs.digit j + c.toNat)))
      else
        subLoop rhs k (i + 1) (j + 1) true
          (f.setDigit i (f.digit i + (10 - rhs.digit j - c.toNat))) := by
  rw [subLoop, deref_eq h hi, deref_eq hr hj]
  change (if rhs.digit j + c.toNat ≤ f.digit i then f.assign i _ >>= _
    else f.assign i _ >>= _) = _
  rw [assign_eq h hi, assign_eq h hi]
  rfl

/-- **The difference with a borrow.** -/
theorem subLoop_spec (h : Decimal f) (hr : Decimal rhs) (hi : i + k ≤ maxDigits)
    (hj : j + k ≤ maxDigits) :
    ∃ f' c', subLoop rhs k i j c f = .ok (f', c') ∧ Decimal f' ∧ SameShape f f' ∧
      f'.mantissa + 10 ^ i * (rhs.mantissa / 10 ^ j % 10 ^ k + c.toNat) =
        f.mantissa + 10 ^ (i + k) * c'.toNat ∧
      f'.mantissa / 10 ^ (i + k) = f.mantissa / 10 ^ (i + k) := by
  induction k generalizing f i j c with
  | zero =>
    refine ⟨f, c, rfl, h, ⟨rfl, rfl, rfl⟩, ?_, rfl⟩
    rw [pow_zero, Nat.mod_one, Nat.zero_add, Nat.add_zero]
  | succ k ih =>
    -- one place, where `u` is borrowed from the next
    obtain ⟨val, u, hlt, hplace, hsucc⟩ : ∃ val u, val < 10 ∧
        val + (rhs.digit j + c.toNat) = f.digit i + 10 * u.toNat ∧
        subLoop rhs (k + 1) i j c f = subLoop rhs k (i + 1) (j + 1) u (f.setDigit i val) := by
      have hx := digit_lt h i
      by_cases hle : rhs.digit j + c.toNat ≤ f.digit i
      · refine ⟨f.digit i - (rhs.digit j + c.toNat), false, by omega, ?_,
          (subLoop_succ h hr (by omega) (by omega)).trans (if_pos hle)⟩
        rw [Bool.toNat_false]
        omega
      · obtain ⟨hlt, hval⟩ := place_sub (digit_lt hr j) hle
        exact ⟨_, true, hlt, hval, (subLoop_succ h hr (by omega) (by omega)).trans (if_neg hle)⟩
    have hmid := mantissa_setDigit_borrow h (show i < maxDigits by omega) hplace
    have hdiv := mantissa_setDigit_div h hlt (show i < i + 1 + k by omega)
    obtain ⟨f', c', hrun, hd, hshape, hvalue, htop⟩ := @ih _ (i + 1) (j + 1) u (h.setDigit hlt i)
      (by omega) (by omega)
    refine ⟨f', c', hsucc.trans hrun, hd, (sameShape_setDigit ..).trans hshape, ?_, ?_⟩
    · rw [show i + (k + 1) = i + 1 + k by omega, digits_succ hr]
      have hexp : 10 ^ i * (rhs.digit j + 10 * (rhs.mantissa / 10 ^ (j + 1) % 10 ^ k) + c.toNat) =
          10 ^ (i + 1) * (rhs.mantissa / 10 ^ (j + 1) % 10 ^ k) +
            10 ^ i * (rhs.digit j + c.toNat) := by
        ring
      rw [Nat.mul_add] at hvalue
      rw [hexp]
      omega
    · rw [show i + (k + 1) = i + 1 + k by omega, htop, hdiv]

/-! ### The loop that should pass the borrow on -/

theorem borrowLoop_false : borrowLoop i k false f = .ok (f, false) := by
  cases k <;> rfl

/-- Without digits that are left, the borrow is left. -/
theorem borrowLoop_end (h : i = f.digits) : borrowLoop i k true f = .ok (f, true) := by
  subst h
  cases k <;> simp [borrowLoop]

/-- **The next digit** is not zero, and one is taken from it. -/
theorem borrowLoop_pos (h : Decimal f) (hi : i < maxDigits) (hne : i ≠ f.digits)
    (hpos : f.digit i ≠ 0) :
    borrowLoop i (k + 1) true f = .ok (f.setDigit i (f.digit i - 1), false) := by
  have hgo : (true && i != f.digits) = true := by simpa using hne
  rw [borrowLoop, if_pos hgo, deref_eq h hi]
  change (if f.digit i ≠ 0 then f.assign i _ >>= _ else f.assign i _ >>= _) = _
  rw [if_pos hpos, assign_eq h hi]
  exact borrowLoop_false

/-- **The next digit is zero**, and becomes an eight. -/
theorem borrowLoop_zero (h : Decimal f) (hi : i < maxDigits) (hne : i ≠ f.digits)
    (hzero : f.digit i = 0) :
    borrowLoop i (k + 2) true f = .ok ((f.setDigit i 9).setDigit i 8, false) := by
  have hgo : (true && i != f.digits) = true := by simpa using hne
  have hdigit : (f.setDigit i 9).digit i = 9 := by rw [digit_setDigit h hi, if_pos rfl]
  rw [borrowLoop, if_pos hgo, deref_eq h hi]
  change (if f.digit i ≠ 0 then f.assign i _ >>= _ else f.assign i _ >>= _) = _
  rw [if_neg (not_not.mpr hzero), assign_eq h hi]
  refine (borrowLoop_pos (h.setDigit (by norm_num) i) hi hne (by rw [hdigit]; norm_num)).trans ?_
  rw [hdigit]

end AceTao.Fixed
