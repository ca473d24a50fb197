import Mathlib.Data.List.Basic
import Mathlib.Data.Nat.Bitwise

/-!
# Counting the bits of a number

`bitCount k n` is the number of bits that are set among the lowest `k` bits of `n`. It is split at
a position (`bitCount_add`), and `n &&& (n - 1)` has one bit less than `n` (`bitCount_and_pred`).
-/

/-- The number of bits set among the lowest `k` bits of `n`. -/
def bitCount (k n : ℕ) : ℕ := (List.range k).countP n.testBit

@[simp] theorem bitCount_zero_left (n : ℕ) : bitCount 0 n = 0 := rfl

@[simp] theorem bitCount_zero (k : ℕ) : bitCount k 0 = 0 := by
  simp [bitCount]

/-- **Splitting** at a position. -/
theorem bitCount_add (k l n : ℕ) :
    bitCount (k + l) n = bitCount k n + bitCount l (n / 2 ^ k) := by
  rw [bitCount, List.range_add, List.countP_append, List.countP_map]
  refine congrArg _ (congrArg (fun p => (List.range l).countP p) (funext fun i => ?_))
  rw [Function.comp_apply, Nat.testBit_div_two_pow, Nat.add_comm]

theorem bitCount_succ (k n : ℕ) : bitCount (k + 1) n = n % 2 + bitCount k (n / 2) := by
  rw [Nat.add_comm, bitCount_add, pow_one]
  refine congrArg (· + _) ?_
  rcases Nat.mod_two_eq_zero_or_one n with h | h <;> simp [bitCount, Nat.testBit_zero, h]

/-- Only the lowest bits count. -/
theorem bitCount_mod (k n : ℕ) : bitCount k (n % 2 ^ k) = bitCount k n := by
  refine List.countP_congr fun i hi => ?_
  rw [Nat.testBit_mod_two_pow]
  simp [List.mem_range.mp hi]

/-- **Clearing the lowest bit** that is set. -/
theorem bitCount_and_pred {k n : ℕ} (hn : n < 2 ^ k) (hpos : n ≠ 0) :
    bitCount k (n &&& (n - 1)) + 1 = bitCount k n := by
  induction k generalizing n with
  | zero => omega
  | succ k ih =>
    rw [bitCount_succ, bitCount_succ, Nat.and_div_two]
    rcases Nat.mod_two_eq_zero_or_one n with h | h
    · have hpred : (n - 1) / 2 = n / 2 - 1 := by omega
      have hmod : (n &&& (n - 1)) % 2 = 0 := by
        have hne : ¬(n &&& (n - 1)) % 2 = 1 := fun hc => by
          have := (Nat.and_mod_two_eq_one.mp hc).1
          omega
        omega
      rw [hmod, hpred, h, Nat.zero_add, Nat.zero_add]
      exact ih (by omega) (by omega)
    · have hpred : (n - 1) / 2 = n / 2 := by omega
      have hmod : (n &&& (n - 1)) % 2 = 0 := by
        have hne : ¬(n &&& (n - 1)) % 2 = 1 := fun hc => by
          have := (Nat.and_mod_two_eq_one.mp hc).2
          omega
        omega
      rw [hmod, hpred, Nat.and_self, h]
      omega
