import Mathlib.Algebra.Order.Floor.Div
import Mathlib.Order.GaloisConnection.Basic

/-!
# Scaling a range of integers

A range of `m + 1` integers is scaled linearly to a range of `n + 1` integers by the factor `n / m`
and back by the factor `m / n`. The results are rounded, and how decides whether the second scaling
undoes the first: rounding up on the way (`scaleUp`) and down on the way back (`scaleDown`) are
adjoint (`gc_scale`), and where the second range is no smaller than the first, the way back undoes
the way (`scaleDown_scaleUp`).
-/

namespace LinearScale

variable {m n a b k c : ℕ}

/-- A place of the first range in the second, rounded up. -/
def scaleUp (m n k : ℕ) : ℕ := n * k ⌈/⌉ m

/-- A place of the second range in the first, rounded down. -/
def scaleDown (m n c : ℕ) : ℕ := m * c / n

/-- **Scaling up and scaling down are adjoint.** -/
theorem gc_scale (hm : 0 < m) (hn : 0 < n) : GaloisConnection (scaleUp m n) (scaleDown m n) := by
  intro k c
  rw [scaleUp, scaleDown, ceilDiv_le_iff_le_mul hm, Nat.le_div_iff_mul_le hn, Nat.mul_comm n k]

theorem scaleUp_zero : scaleUp m n 0 = 0 := by
  rw [scaleUp, Nat.mul_zero, zero_ceilDiv]

theorem scaleDown_zero : scaleDown m n 0 = 0 := by
  rw [scaleDown, Nat.mul_zero, Nat.zero_div]

theorem scaleDown_self (hn : 0 < n) : scaleDown m n n = m := Nat.mul_div_cancel m hn

theorem scaleDown_mono (hm : 0 < m) (hn : 0 < n) : Monotone (scaleDown m n) :=
  (gc_scale hm hn).monotone_u

/-- The rounding up adds less than one. -/
theorem mul_scaleUp_lt (hm : 0 < m) : m * scaleUp m n k < n * k + m := by
  have hlt := Nat.div_mul_le_self (n * k + m - 1) m
  rw [scaleUp, Nat.ceilDiv_eq_add_pred_div, Nat.mul_comm]
  omega

/-- **The way back undoes the way** into a range that is no smaller. -/
theorem scaleDown_scaleUp (hm : 0 < m) (hmn : m ≤ n) : scaleDown m n (scaleUp m n k) = k := by
  have hn : 0 < n := lt_of_lt_of_le hm hmn
  refine le_antisymm ?_ ((gc_scale hm hn).le_u_l k)
  have hlt := mul_scaleUp_lt (n := n) (k := k) hm
  rw [scaleDown, ← Nat.lt_succ_iff, Nat.div_lt_iff_lt_mul hn, Nat.succ_mul, Nat.mul_comm k n]
  omega

/-- So scaling up tells the places of the first range apart. -/
theorem scaleUp_strictMono (hm : 0 < m) (hmn : m ≤ n) : StrictMono (scaleUp m n) := by
  have hn : 0 < n := lt_of_lt_of_le hm hmn
  refine (gc_scale hm hn).monotone_l.strictMono_of_injective ?_
  exact Function.LeftInverse.injective fun _ => scaleDown_scaleUp hm hmn

theorem scaleUp_le (hm : 0 < m) (hn : 0 < n) (hk : k ≤ m) : scaleUp m n k ≤ n :=
  (gc_scale hm hn).l_le (by rwa [scaleDown_self hn])

theorem scaleDown_le (hm : 0 < m) (hn : 0 < n) (hc : c ≤ n) : scaleDown m n c ≤ m :=
  (scaleDown_mono hm hn hc).trans_eq (scaleDown_self hn)

end LinearScale
