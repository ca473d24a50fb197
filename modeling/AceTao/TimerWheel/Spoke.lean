import AceTao.TimerWheel.Basic

/-!
# `ACE_Timer_Wheel_T`: spokes and blocks of time

A spoke stands for a *block* of time: `calculate_spoke` depends only on the number of
times `wheel_time_` fits between the epoch and the time
(`AceTao.TimerWheel.calculateSpoke_congr`), for any width of `long` and also where the
milliseconds do not fit. Times less than `wheel_time_` apart are in the same block or in
neighbouring ones (`AceTao.TimerWheel.block_le_succ`). This is all that `recalc_earliest`
relies on.
-/

namespace AceTao

namespace TimeValue

/-- The milliseconds from the epoch to a time that is not before it. -/
def millis (a : TimeValue) : ℕ := a.micros.toNat / 1000

theorem micros_nonneg {a : TimeValue} (h : zero ≤ a) : 0 ≤ a.micros := by
  rw [le_iff_micros, micros_zero] at h
  exact h

/-- The sum that `msec` computes. -/
theorem sec_mul_add_eq_millis {a : TimeValue} (h : zero ≤ a) :
    a.sec * 1000 + a.usec.tdiv 1000 = a.millis := by
  have h₀ := micros_nonneg h
  have h₁ := a.usec_gt
  have h₂ := a.usec_lt
  have h₃ := a.usec_nonneg
  have h₄ := a.usec_nonpos
  simp only [millis, micros, oneSecondInUsecs] at *
  have hu : 0 ≤ a.usec := by omega
  rw [Int.tdiv_eq_ediv_of_nonneg hu]
  omega

/-- The milliseconds, shifted to the right: they are a function of the shifted number of
milliseconds since the epoch, also where that number overflows or does not fit. -/
theorem msec_shiftRight {a : TimeValue} {longBits r : ℕ} (h : zero ≤ a) (hr : r ≤ longBits)
    (hl : longBits ≤ 64) (hr' : r ≤ 62) : a.msec longBits >>> r
      = if 2 ^ (longBits - r) ≤ a.millis / 2 ^ r % 2 ^ (64 - r) ∧
          a.millis / 2 ^ r % 2 ^ (64 - r) < 2 ^ (63 - r) then 2 ^ (longBits - r) - 1
        else a.millis / 2 ^ r % 2 ^ (longBits - r) := by
  have hpow : ∀ m, r ≤ m → 2 ^ m = 2 ^ r * 2 ^ (m - r) := fun m hm => by
    rw [← pow_add, Nat.add_sub_cancel' hm]
  have hpos : 0 < 2 ^ r := Nat.two_pow_pos r
  -- the block of the number of milliseconds as a 64-bit number
  have hblock : a.millis % 2 ^ 64 / 2 ^ r = a.millis / 2 ^ r % 2 ^ (64 - r) := by
    rw [hpow 64 (by omega), Nat.mod_mul_right_div_self]
  have hwrap : wrap64 a.millis
      = if a.millis % 2 ^ 64 < 2 ^ 63 then ((a.millis % 2 ^ 64 : ℕ) : ℤ)
        else ((a.millis % 2 ^ 64 : ℕ) : ℤ) - 2 ^ 64 := by
    rw [wrap64, Int.bmod_def]
    split_ifs <;> omega
  have hlt : a.millis % 2 ^ 64 < 2 ^ 63 ↔ a.millis / 2 ^ r % 2 ^ (64 - r) < 2 ^ (63 - r) := by
    rw [← hblock, Nat.div_lt_iff_lt_mul hpos, mul_comm, ← hpow 63 (by omega)]
  have hle : 2 ^ longBits ≤ a.millis % 2 ^ 64 ↔
      2 ^ (longBits - r) ≤ a.millis / 2 ^ r % 2 ^ (64 - r) := by
    rw [← hblock, Nat.le_div_iff_mul_le hpos, mul_comm, ← hpow longBits hr]
  have hlarge : (2 ^ longBits - 1 : ℤ) < wrap64 a.millis ↔
      2 ^ longBits ≤ a.millis % 2 ^ 64 ∧ a.millis % 2 ^ 64 < 2 ^ 63 := by
    have hcast : ((2 ^ longBits : ℕ) : ℤ) = 2 ^ longBits := by push_cast; rfl
    have h₀ : 0 < 2 ^ longBits := Nat.two_pow_pos longBits
    rw [hwrap]
    split_ifs <;> omega
  rw [msec, sec_mul_add_eq_millis h, truncateCast, Nat.shiftRight_eq_div_pow]
  by_cases hc : (2 ^ longBits - 1 : ℤ) < wrap64 a.millis
  · rw [if_pos hc, if_pos ⟨hle.mp (hlarge.mp hc).1, hlt.mp (hlarge.mp hc).2⟩, hpow longBits hr]
    obtain ⟨q, hq⟩ := Nat.exists_eq_succ_of_ne_zero (Nat.two_pow_pos (longBits - r)).ne'
    rw [hq, Nat.succ_eq_add_one, Nat.add_sub_cancel]
    refine Nat.div_eq_of_lt_le ?_ ?_ <;> rw [mul_comm (2 ^ r)]
    · rw [Nat.add_mul, Nat.one_mul]
      omega
    · exact Nat.sub_lt (Nat.mul_pos (Nat.succ_pos q) hpos) Nat.one_pos
  · rw [if_neg hc, if_neg fun hcon => hc (hlarge.mpr ⟨hle.mpr hcon.1, hlt.mpr hcon.2⟩)]
    have hmod : (wrap64 a.millis % 2 ^ longBits).toNat = a.millis % 2 ^ longBits := by
      obtain ⟨k, hk⟩ := wrap64_eq_add a.millis
      have hdvd : (2 ^ 64 : ℤ) = 2 ^ longBits * 2 ^ (64 - longBits) := by
        rw [← pow_add, Nat.add_sub_cancel' hl]
      rw [hk, hdvd, mul_assoc, Int.add_mul_emod_self_left]
      have hcast : ((2 ^ longBits : ℕ) : ℤ) = 2 ^ longBits := by push_cast; rfl
      rw [← hcast, ← Int.natCast_mod, Int.toNat_natCast]
    rw [hmod, hpow longBits hr, Nat.mod_mul_right_div_self]

end TimeValue

namespace TimerWheel

open TimeValue (zero micros_nonneg)

variable {α β : Type} {s : TimerWheel α β} {t t' last : TimeValue}

/-- **A wheel that `open_i` can make**, for any width of `long` from 32 to 64 bits. -/
structure Opened (s : TimerWheel α β) : Prop where
  longBits_ge : 32 ≤ s.longBits
  longBits_le : s.longBits ≤ 64
  spokeBits_ge : 3 ≤ s.spokeBits
  spokeBits_le : s.spokeBits ≤ 12
  resBits_ge : 1 ≤ s.resBits
  resBits_le : s.resBits ≤ 20

/-- A number below a power of two does not have more bits. -/
theorem countBits_le {n b : ℕ} (hb : 0 < b) (h : n < 2 ^ b) : countBits n ≤ b := by
  induction b generalizing n with
  | zero => omega
  | succ b ih =>
    rw [countBits]
    split
    · omega
    · rename_i hn
      have hb' : 0 < b := by
        rcases Nat.eq_zero_or_pos b with rfl | hb'
        · rw [zero_add, pow_one] at h
          omega
        · exact hb'
      have := ih hb' (n := n / 2) (by rw [pow_succ] at h; omega)
      omega

/-- `power2bits` keeps to the given numbers of bits. -/
theorem power2bits_bounds {n : ℤ} {minBits maxBits b : ℕ} (hle : minBits ≤ maxBits)
    (hmax : 0 < maxBits) (h : power2bits n minBits maxBits = some b) :
    minBits ≤ b ∧ b ≤ maxBits := by
  simp only [power2bits] at h
  split_ifs at h with hbig hneg hmin hnear
  · cases h
    exact ⟨hle, le_rfl⟩
  · cases h
    exact ⟨le_rfl, hle⟩
  all_goals
    -- at most as many bits as the number has
    have hcast : ((2 ^ maxBits : ℕ) : ℤ) = 2 ^ maxBits := by push_cast; rfl
    have hbits := countBits_le hmax (n := n.toNat) (by omega)
    cases h
    omega

/-- **`open_i` makes such a wheel**, an empty one. -/
theorem openI_eq_some {longBits spokes res : ℕ} (hlong : 32 ≤ longBits ∧ longBits ≤ 64)
    (h : openI longBits spokes res = some s) :
    Opened s ∧ s.spokes = (fun _ => []) ∧ s.counters = (fun _ => 0) ∧ s.earliestSpoke = 0 ∧
      s.timerCount = 0 := by
  rw [openI] at h
  cases hs : power2bits ((spokes : ℤ).bmod (2 ^ 32)) 3 12 with
  | none =>
    rw [hs] at h
    cases h
  | some spokeBits =>
    cases hr : power2bits ((res : ℤ).bmod (2 ^ 32)) 1 20 with
    | none =>
      rw [hs, hr] at h
      cases h
    | some resBits =>
      rw [hs, hr] at h
      cases h
      obtain ⟨h₁, h₂⟩ := power2bits_bounds (by norm_num) (by norm_num) hs
      obtain ⟨h₃, h₄⟩ := power2bits_bounds (by norm_num) (by norm_num) hr
      exact ⟨⟨hlong.1, hlong.2, h₁, h₂, h₃, h₄⟩, rfl, rfl, rfl, rfl⟩

/-- The number of times `wheel_time_` fits between the epoch and a time. -/
def block (s : TimerWheel α β) (t : TimeValue) : ℕ := t.micros.toNat / (1000 * 2 ^ s.resBits)

theorem millis_div (t : TimeValue) (s : TimerWheel α β) :
    t.millis / 2 ^ s.resBits = s.block t := by
  rw [TimeValue.millis, Nat.div_div_eq_div_mul, block]

/-- **The spoke of a time depends on its block only.** -/
theorem calculateSpoke_congr (h : Opened s) (ht : zero ≤ t) (ht' : zero ≤ t')
    (hb : s.block t = s.block t') : s.calculateSpoke t = s.calculateSpoke t' := by
  have h₁ := h.longBits_ge
  have h₂ := h.longBits_le
  have h₃ := h.resBits_le
  rw [calculateSpoke, calculateSpoke,
    TimeValue.msec_shiftRight ht (by omega) (by omega) (by omega),
    TimeValue.msec_shiftRight ht' (by omega) (by omega) (by omega), millis_div, millis_div, hb]

theorem calculateSpoke_lt (s : TimerWheel α β) (t : TimeValue) :
    s.calculateSpoke t < s.spokeCount := by
  rw [calculateSpoke, spokeCount, Nat.and_two_pow_sub_one_eq_mod]
  exact Nat.mod_lt _ (Nat.two_pow_pos _)

theorem block_mono (h : t ≤ t') : s.block t ≤ s.block t' := by
  rw [TimeValue.le_iff_micros] at h
  exact Nat.div_le_div_right (by omega)

/-- `wheel_time_` in microseconds. -/
theorem micros_wheelTime (h : Opened s) : s.wheelTime.micros = 1000 * 2 ^ s.resBits := by
  have hle : (2 : ℤ) ^ s.resBits ≤ 2 ^ 20 := pow_le_pow_right₀ (by norm_num) h.resBits_le
  have hpos : (0 : ℤ) < 2 ^ s.resBits := pow_pos (by norm_num) _
  rw [wheelTime, TimeValue.ofMsec]
  generalize (2 : ℤ) ^ s.resBits = m at hle hpos
  rw [Int.tdiv_eq_ediv_of_nonneg hpos.le, TimeValue.micros_set (by omega) (by omega)] <;>
    rw [oneSecondInUsecs] <;> omega

/-- What `recalc_earliest` calls near is less than `wheel_time_` away. -/
theorem micros_lt_of_near (h : Opened s) (hlast : zero ≤ last) (ht : zero ≤ t)
    (hnear : t < last + s.wheelTime) : t.micros < last.micros + 1000 * 2 ^ s.resBits := by
  have h₀ := micros_nonneg hlast
  have h₁ := micros_nonneg ht
  have hpos : (0 : ℤ) < 2 ^ s.resBits := pow_pos (by norm_num) _
  have hlt := (last + s.wheelTime).micros_lt
  rw [TimeValue.lt_iff_micros] at hnear
  obtain ⟨k, hk⟩ := TimeValue.micros_set_eq_add (last.sec + s.wheelTime.sec)
    (last.usec + s.wheelTime.usec)
  have hsum : (last + s.wheelTime).micros
      = last.micros + 1000 * 2 ^ s.resBits + k * (2 ^ 64 * oneSecondInUsecs) := by
    rw [TimeValue.add_def, hk, ← micros_wheelTime h, TimeValue.micros, TimeValue.micros]
    ring
  rw [hsum] at hnear hlt
  simp only [oneSecondInUsecs] at *
  -- the sum wraps around downwards or not at all
  have hk₀ : k ≤ 0 := by
    by_contra hcon
    have : 1 * (2 ^ 64 * 1000000 : ℤ) ≤ k * (2 ^ 64 * 1000000) :=
      mul_le_mul_of_nonneg_right (by omega) (by norm_num)
    omega
  have : k * (2 ^ 64 * 1000000 : ℤ) ≤ 0 := mul_nonpos_of_nonpos_of_nonneg hk₀ (by norm_num)
  omega

/-- **What is near is in the same block or in the next one.** -/
theorem block_le_succ (h : Opened s) (hlast : zero ≤ last) (ht : zero ≤ t)
    (hnear : t < last + s.wheelTime) : s.block t ≤ s.block last + 1 := by
  have h₀ := micros_nonneg hlast
  have hlt := micros_lt_of_near h hlast ht hnear
  have hpos : 0 < 1000 * 2 ^ s.resBits := Nat.mul_pos (by norm_num) (Nat.two_pow_pos _)
  rw [block, block, ← Nat.add_div_right _ hpos]
  refine Nat.div_le_div_right ?_
  have hcast : ((1000 * 2 ^ s.resBits : ℕ) : ℤ) = 1000 * 2 ^ s.resBits := by push_cast; rfl
  omega

/-- A time after the epoch that is not near is not the epoch itself. -/
theorem pos_of_not_near (h : Opened s) (hlast : zero ≤ last) (ht : last ≤ t)
    (hfar : ¬t < last + s.wheelTime) : zero < t := by
  rcases hlast.eq_or_lt with rfl | hpos
  · refine lt_of_lt_of_le ?_ (not_lt.mp hfar)
    rw [TimeValue.lt_iff_micros]
    have hW : (zero + s.wheelTime).micros = s.wheelTime.micros := by
      have h₁ := s.wheelTime.sec_ge
      have h₂ := s.wheelTime.sec_lt
      have h₃ := s.wheelTime.micros_lt
      have h₄ : (0 : ℤ) < 2 ^ s.resBits := pow_pos (by norm_num) _
      have h₅ := micros_wheelTime h
      rw [TimeValue.add_def]
      simp only [zero, zero_add]
      simp only [TimeValue.micros] at h₃ h₅
      rw [TimeValue.micros_set h₁ h₂ (by simp only [oneSecondInUsecs] at *; omega) h₃]
      rfl
    have h₄ : (0 : ℤ) < 2 ^ s.resBits := pow_pos (by norm_num) _
    rw [hW, micros_wheelTime h, TimeValue.micros_zero]
    omega
  · exact hpos.trans_le ht

end TimerWheel

end AceTao
