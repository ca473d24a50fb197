import Mathlib.Order.Basic
import Mathlib.Algebra.Order.Ring.Int
import Mathlib.Tactic.Ring
import Mathlib.Tactic.Linarith

/-!
# `ACE_Time_Value`

A time value is a pair of a number of seconds, a 64-bit `time_t`, and a number of
microseconds. Every constructor and every arithmetic operator of the class ends in
`normalize`, so the pairs a program computes with are *canonical*: less than a second of
microseconds, with the sign of the seconds. `AceTao.TimeValue` carries canonicity as
fields, and `AceTao.TimeValue.normalize` is the function that establishes them.

The comparison operators are lexicographic. On canonical pairs they agree with the
comparison of the number of microseconds since the epoch
(`AceTao.TimeValue.lt_iff_micros`), which is what all reasoning about timer arithmetic
uses.
-/

namespace AceTao

/-- `ACE_ONE_SECOND_IN_USECS`. -/
abbrev oneSecondInUsecs : ℤ := 1000000

/-- Two's complement wrap-around of a 64-bit signed integer. -/
def wrap64 (x : ℤ) : ℤ := x.bmod (2 ^ 64)

theorem wrap64_ge (x : ℤ) : -2 ^ 63 ≤ wrap64 x := by
  have h := Int.le_bmod (x := x) (m := 2 ^ 64) (by norm_num)
  unfold wrap64
  omega

theorem wrap64_lt (x : ℤ) : wrap64 x < 2 ^ 63 := by
  have h := Int.bmod_lt (x := x) (m := 2 ^ 64) (by norm_num)
  unfold wrap64
  omega

/-- A value that fits is not wrapped. -/
theorem wrap64_of_fits {x : ℤ} (h₁ : -2 ^ 63 ≤ x) (h₂ : x < 2 ^ 63) : wrap64 x = x := by
  unfold wrap64
  rw [Int.bmod_eq_iff (by norm_num)]
  exact ⟨by omega, by omega, by simp⟩

/-- **`ACE_Time_Value`**: seconds and microseconds, in the canonical form that
`normalize` produces. -/
@[ext]
structure TimeValue where
  /-- `tv_.tv_sec` -/
  sec : ℤ
  /-- `tv_.tv_usec` -/
  usec : ℤ
  sec_ge : -2 ^ 63 ≤ sec
  sec_lt : sec < 2 ^ 63
  usec_gt : -oneSecondInUsecs < usec
  usec_lt : usec < oneSecondInUsecs
  usec_nonneg : 0 < sec → 0 ≤ usec
  usec_nonpos : sec < 0 → usec ≤ 0
deriving DecidableEq

namespace TimeValue

/-! ### Normalisation -/

/-- The first half of `normalize`: whole seconds move out of the microseconds. -/
def carry (sec usec : ℤ) : ℤ × ℤ :=
  if oneSecondInUsecs ≤ usec ∨ usec ≤ -oneSecondInUsecs then
    let s := |usec| / oneSecondInUsecs * (if 0 < usec then 1 else -1)
    (wrap64 (sec + s), usec - s * oneSecondInUsecs)
  else (sec, usec)

/-- After the carry less than a second of microseconds is left. -/
theorem carry_usec (sec usec : ℤ) :
    -oneSecondInUsecs < (carry sec usec).2 ∧ (carry sec usec).2 < oneSecondInUsecs := by
  unfold carry oneSecondInUsecs
  split
  · rcases lt_or_ge 0 usec with h | h
    · simp only [if_pos h, abs_of_pos h]
      omega
    · simp only [if_neg (not_lt.mpr h), abs_of_nonpos h]
      omega
  · omega

theorem carry_sec {sec : ℤ} (usec : ℤ) (h₁ : -2 ^ 63 ≤ sec) (h₂ : sec < 2 ^ 63) :
    -2 ^ 63 ≤ (carry sec usec).1 ∧ (carry sec usec).1 < 2 ^ 63 := by
  unfold carry
  split
  · exact ⟨wrap64_ge _, wrap64_lt _⟩
  · exact ⟨h₁, h₂⟩

/-- The second half of `normalize`: the microseconds take the sign of the seconds. -/
def signFix (p : ℤ × ℤ) : ℤ × ℤ :=
  if 1 ≤ p.1 ∧ p.2 < 0 then (p.1 - 1, p.2 + oneSecondInUsecs)
  else if p.1 < 0 ∧ 0 < p.2 then (p.1 + 1, p.2 - oneSecondInUsecs)
  else p

/-- The number of microseconds a pair stands for is unchanged. -/
theorem signFix_micros (p : ℤ × ℤ) :
    (signFix p).1 * oneSecondInUsecs + (signFix p).2 = p.1 * oneSecondInUsecs + p.2 := by
  unfold signFix oneSecondInUsecs
  split_ifs <;> dsimp only <;> omega

/-- Both halves together: the pair is in range and canonical. -/
theorem signFix_carry (sec usec : ℤ) :
    let p := signFix (carry (wrap64 sec) usec)
    (-2 ^ 63 ≤ p.1 ∧ p.1 < 2 ^ 63) ∧ (-oneSecondInUsecs < p.2 ∧ p.2 < oneSecondInUsecs) ∧
      (0 < p.1 → 0 ≤ p.2) ∧ (p.1 < 0 → p.2 ≤ 0) := by
  have hs := carry_sec usec (wrap64_ge sec) (wrap64_lt sec)
  have hu := carry_usec (wrap64 sec) usec
  generalize carry (wrap64 sec) usec = p at hs hu
  unfold signFix oneSecondInUsecs at *
  split_ifs <;> dsimp only at * <;> omega

/-- **`normalize`** (not saturating), and with it the constructor and `set (sec, usec)`:
the canonical value of a pair of seconds and microseconds. -/
def set (sec usec : ℤ) : TimeValue where
  sec := (signFix (carry (wrap64 sec) usec)).1
  usec := (signFix (carry (wrap64 sec) usec)).2
  sec_ge := (signFix_carry sec usec).1.1
  sec_lt := (signFix_carry sec usec).1.2
  usec_gt := (signFix_carry sec usec).2.1.1
  usec_lt := (signFix_carry sec usec).2.1.2
  usec_nonneg := (signFix_carry sec usec).2.2.1
  usec_nonpos := (signFix_carry sec usec).2.2.2

/-! ### The order -/

/-- `operator <=`, `operator >=`: seconds first, then microseconds. -/
instance : LE TimeValue := ⟨fun a b => a.sec < b.sec ∨ a.sec = b.sec ∧ a.usec ≤ b.usec⟩

/-- `operator <`, `operator >`. -/
instance : LT TimeValue := ⟨fun a b => a.sec < b.sec ∨ a.sec = b.sec ∧ a.usec < b.usec⟩

theorem le_iff {a b : TimeValue} :
    a ≤ b ↔ a.sec < b.sec ∨ a.sec = b.sec ∧ a.usec ≤ b.usec := Iff.rfl

theorem lt_iff {a b : TimeValue} :
    a < b ↔ a.sec < b.sec ∨ a.sec = b.sec ∧ a.usec < b.usec := Iff.rfl

instance (a b : TimeValue) : Decidable (a ≤ b) :=
  inferInstanceAs (Decidable (a.sec < b.sec ∨ a.sec = b.sec ∧ a.usec ≤ b.usec))

instance (a b : TimeValue) : Decidable (a < b) :=
  inferInstanceAs (Decidable (a.sec < b.sec ∨ a.sec = b.sec ∧ a.usec < b.usec))

instance : LinearOrder TimeValue where
  le_refl a := Or.inr ⟨rfl, le_refl _⟩
  le_trans a b c hab hbc := by
    rw [le_iff] at *
    omega
  lt_iff_le_not_ge a b := by
    rw [lt_iff, le_iff, le_iff]
    omega
  le_antisymm a b hab hba := by
    rw [le_iff] at *
    exact TimeValue.ext (by omega) (by omega)
  le_total a b := by
    rw [le_iff, le_iff]
    omega
  toDecidableLE := inferInstance
  toDecidableLT := inferInstance

/-! ### Microseconds since the epoch -/

/-- The number of microseconds a time value stands for. -/
def micros (a : TimeValue) : ℤ := a.sec * oneSecondInUsecs + a.usec

theorem micros_lt (a : TimeValue) : a.micros < 2 ^ 63 * oneSecondInUsecs := by
  have h₁ := a.sec_lt
  have h₂ := a.usec_lt
  simp only [micros, oneSecondInUsecs] at *
  omega

/-- **On canonical values the lexicographic order is the order of the microseconds.** -/
theorem lt_iff_micros {a b : TimeValue} : a < b ↔ a.micros < b.micros := by
  have ha₁ := a.usec_gt
  have ha₂ := a.usec_lt
  have ha₃ := a.usec_nonneg
  have ha₄ := a.usec_nonpos
  have hb₁ := b.usec_gt
  have hb₂ := b.usec_lt
  have hb₃ := b.usec_nonneg
  have hb₄ := b.usec_nonpos
  rw [lt_iff]
  unfold micros oneSecondInUsecs at *
  omega

theorem le_iff_micros {a b : TimeValue} : a ≤ b ↔ a.micros ≤ b.micros := by
  rw [← not_lt, lt_iff_micros, not_lt]

theorem micros_injective {a b : TimeValue} (h : a.micros = b.micros) : a = b :=
  le_antisymm (le_iff_micros.mpr h.le) (le_iff_micros.mpr h.ge)

/-- `ACE_Time_Value::zero`. -/
def zero : TimeValue :=
  ⟨0, 0, by norm_num, by norm_num, by norm_num, by norm_num, by simp, by simp⟩

/-- `ACE_Time_Value::max_time`: the largest number of seconds, and `999999` microseconds. -/
def maxTime : TimeValue :=
  ⟨2 ^ 63 - 1, oneSecondInUsecs - 1, by norm_num, by norm_num, by norm_num, by norm_num,
    by norm_num, by norm_num⟩

@[simp] theorem micros_zero : zero.micros = 0 := rfl

theorem le_maxTime (a : TimeValue) : a ≤ maxTime := by
  have h₁ := a.sec_lt
  have h₂ := a.usec_lt
  rw [le_iff]
  unfold maxTime oneSecondInUsecs at *
  dsimp only
  omega

/-! ### Arithmetic -/

/-- `operator +`: componentwise, then `normalize`. -/
instance : Add TimeValue := ⟨fun a b => set (a.sec + b.sec) (a.usec + b.usec)⟩

/-- `operator -`: componentwise, then `normalize`. -/
instance : Sub TimeValue := ⟨fun a b => set (a.sec - b.sec) (a.usec - b.usec)⟩

theorem add_def (a b : TimeValue) : a + b = set (a.sec + b.sec) (a.usec + b.usec) := rfl

theorem sub_def (a b : TimeValue) : a - b = set (a.sec - b.sec) (a.usec - b.usec) := rfl

/-- `to_usec`: the microseconds as an unsigned 64-bit number. -/
def toUsec (a : TimeValue) : ℤ := a.micros % 2 ^ 64

theorem toUsec_nonneg (a : TimeValue) : 0 ≤ a.toUsec := Int.emod_nonneg _ (by norm_num)

/-- The carry preserves the number of microseconds when the seconds do not overflow. -/
theorem carry_micros {sec usec : ℤ} (h₁ : -2 ^ 63 ≤ sec) (h₂ : sec < 2 ^ 63)
    (h₃ : (-2 ^ 63 - 1) * oneSecondInUsecs < sec * oneSecondInUsecs + usec)
    (h₄ : sec * oneSecondInUsecs + usec < 2 ^ 63 * oneSecondInUsecs) :
    (carry sec usec).1 * oneSecondInUsecs + (carry sec usec).2
      = sec * oneSecondInUsecs + usec := by
  unfold carry oneSecondInUsecs at *
  split
  · rcases lt_or_ge 0 usec with h | h
    · simp only [if_pos h, abs_of_pos h]
      rw [wrap64_of_fits (by omega) (by omega)]
      omega
    · simp only [if_neg (not_lt.mpr h), abs_of_nonpos h]
      rw [wrap64_of_fits (by omega) (by omega)]
      omega
  · rfl

/-- **`normalize` preserves the number of microseconds** when the seconds fit. -/
theorem micros_set {sec usec : ℤ} (h₁ : -2 ^ 63 ≤ sec) (h₂ : sec < 2 ^ 63)
    (h₃ : (-2 ^ 63 - 1) * oneSecondInUsecs < sec * oneSecondInUsecs + usec)
    (h₄ : sec * oneSecondInUsecs + usec < 2 ^ 63 * oneSecondInUsecs) :
    (set sec usec).micros = sec * oneSecondInUsecs + usec := by
  unfold micros set
  dsimp only
  rw [signFix_micros, wrap64_of_fits h₁ h₂, carry_micros h₁ h₂ h₃ h₄]

theorem wrap64_eq_add (x : ℤ) : ∃ k : ℤ, wrap64 x = x + 2 ^ 64 * k := by
  refine ⟨-x.bdiv (2 ^ 64), ?_⟩
  have h := Int.bmod_eq_self_sub_mul_bdiv x (2 ^ 64)
  rw [wrap64, h]
  push_cast
  ring

/-- **Wrap-around preserves the number of microseconds** up to `2 ^ 64` seconds. -/
theorem micros_set_eq_add (sec usec : ℤ) :
    ∃ k : ℤ, (set sec usec).micros
      = sec * oneSecondInUsecs + usec + k * (2 ^ 64 * oneSecondInUsecs) := by
  have hcarry : ∀ sec usec : ℤ, ∃ k : ℤ, (carry sec usec).1 * oneSecondInUsecs + (carry sec usec).2
      = sec * oneSecondInUsecs + usec + k * (2 ^ 64 * oneSecondInUsecs) := by
    intro sec usec
    simp only [carry]
    split
    · obtain ⟨k, hk⟩ := wrap64_eq_add (sec + |usec| / oneSecondInUsecs * (if 0 < usec then 1 else -1))
      refine ⟨k, ?_⟩
      rw [hk]
      ring
    · exact ⟨0, by ring⟩
  obtain ⟨k₁, hk₁⟩ := wrap64_eq_add sec
  obtain ⟨k₂, hk₂⟩ := hcarry (wrap64 sec) usec
  refine ⟨k₁ + k₂, ?_⟩
  simp only [micros, set]
  rw [signFix_micros, hk₂, hk₁]
  ring

/-- A difference of time values, in microseconds as an unsigned 64-bit number. -/
theorem toUsec_sub (a b : TimeValue) : (a - b).toUsec = (a.micros - b.micros) % 2 ^ 64 := by
  obtain ⟨k, hk⟩ := micros_set_eq_add (a.sec - b.sec) (a.usec - b.usec)
  have heq : (a - b).micros = a.micros - b.micros + 2 ^ 64 * (k * oneSecondInUsecs) := by
    rw [sub_def, hk, micros, micros]
    ring
  rw [toUsec, heq, Int.add_mul_emod_self_left]

/-- **The time value `d` microseconds later**, as `recompute_next_abs_interval_time` builds
it. -/
def later (a : TimeValue) (d : ℤ) : TimeValue :=
  set (a.sec + d / oneSecondInUsecs) (a.usec + d % oneSecondInUsecs)

theorem micros_later {a : TimeValue} {d : ℤ} (h₀ : 0 ≤ d) (h₁ : d < 2 ^ 64)
    (h : a.micros + d < 2 ^ 63 * oneSecondInUsecs) : (a.later d).micros = a.micros + d := by
  have ha₁ := a.sec_ge
  have ha₂ := a.usec_gt
  have ha₃ := a.usec_nonneg
  have ha₄ := a.usec_nonpos
  have ha₅ := a.sec_lt
  simp only [micros, oneSecondInUsecs] at *
  rw [← micros, later, micros_set] <;> simp only [oneSecondInUsecs] <;> omega

/-- A time value that does not fit wraps around to one before the epoch. -/
theorem later_lt_zero {a : TimeValue} {d : ℤ} (h₁ : d < 2 ^ 64)
    (h : 2 ^ 63 * oneSecondInUsecs ≤ a.micros + d) : a.later d < zero := by
  have hlt := (a.later d).micros_lt
  have ha := a.micros_lt
  obtain ⟨k, hk⟩ := micros_set_eq_add (a.sec + d / oneSecondInUsecs) (a.usec + d % oneSecondInUsecs)
  rw [lt_iff_micros, micros_zero]
  rw [later] at hlt ⊢
  rw [hk] at hlt ⊢
  simp only [micros, oneSecondInUsecs] at *
  have hk₀ : k ≤ -1 := by omega
  omega

/-- Only a time value after the epoch can be too late for one less than `2 ^ 64`
microseconds later. -/
theorem zero_lt_of_not_fits {a : TimeValue} {d : ℤ} (h₁ : d < 2 ^ 64)
    (h : 2 ^ 63 * oneSecondInUsecs ≤ a.micros + d) : zero < a := by
  rw [lt_iff_micros, micros_zero]
  simp only [oneSecondInUsecs] at *
  omega

/-! ### Milliseconds -/

/-- `ACE_Utils::truncate_cast` from `time_t` to an unsigned type of the given width: what is
too large becomes the largest value, what is negative is converted. -/
def truncateCast (bits : ℕ) (x : ℤ) : ℕ :=
  if 2 ^ bits - 1 < x then 2 ^ bits - 1 else (x % 2 ^ bits).toNat

/-- `msec ()`: the milliseconds, as an `unsigned long` of the given width. -/
def msec (longBits : ℕ) (a : TimeValue) : ℕ :=
  truncateCast longBits (wrap64 (a.sec * 1000 + a.usec.tdiv 1000))

/-- `msec (milliseconds)`: the time value of a number of milliseconds. -/
def ofMsec (milliseconds : ℤ) : TimeValue :=
  set (milliseconds.tdiv 1000) ((milliseconds - milliseconds.tdiv 1000 * 1000) * 1000)

end TimeValue

end AceTao
