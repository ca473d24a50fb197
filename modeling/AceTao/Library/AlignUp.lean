import Mathlib.Data.Nat.Bitwise
import Mathlib.Tactic.NormNum

/-!
# Rounding up to a multiple

`AlignUp.alignUp pos a` is the least multiple of `a` that is not below `pos`. The lemmas place it
(`AlignUp.le_alignUp`, `AlignUp.alignUp_lt`, `AlignUp.dvd_alignUp`) and move it along multiples
(`AlignUp.alignUp_add`); `AlignUp.and_not_eq` computes it by masking the low bits of a word.
-/

namespace AlignUp

/-- **Rounding up** to a multiple of `a`. -/
def alignUp (pos a : ℕ) : ℕ := (pos + (a - 1)) / a * a

variable {pos a b : ℕ}

theorem dvd_alignUp (pos a : ℕ) : a ∣ alignUp pos a := Dvd.intro_left _ rfl

theorem le_alignUp (ha : 0 < a) (pos : ℕ) : pos ≤ alignUp pos a := by
  have h := Nat.div_add_mod (pos + (a - 1)) a
  have hlt := Nat.mod_lt (pos + (a - 1)) ha
  rw [Nat.mul_comm] at h
  rw [alignUp]
  omega

theorem alignUp_lt (ha : 0 < a) (pos : ℕ) : alignUp pos a < pos + a := by
  have h := Nat.div_mul_le_self (pos + (a - 1)) a
  rw [alignUp]
  omega

theorem alignUp_mono (pos' : ℕ) (h : pos ≤ pos') : alignUp pos a ≤ alignUp pos' a :=
  Nat.mul_le_mul_right a (Nat.div_le_div_right (Nat.add_le_add_right h _))

/-- The least multiple: nothing is added to a multiple. -/
theorem alignUp_of_dvd (ha : 0 < a) (h : a ∣ pos) : alignUp pos a = pos := by
  have hle := le_alignUp ha pos
  have hlt := alignUp_lt ha pos
  obtain ⟨k, hk⟩ := h
  obtain ⟨j, hj⟩ := dvd_alignUp pos a
  rw [hj] at hle hlt ⊢
  subst hk
  have hkj : k ≤ j := Nat.le_of_mul_le_mul_left hle ha
  have hjk : j < k + 1 := Nat.lt_of_mul_lt_mul_left (a := a) (by rwa [Nat.mul_succ])
  rw [show j = k by omega]

/-- **Rounding commutes with a shift** by a multiple. -/
theorem alignUp_add (ha : 0 < a) (h : a ∣ b) (pos : ℕ) :
    alignUp (b + pos) a = b + alignUp pos a := by
  obtain ⟨k, rfl⟩ := h
  rw [alignUp, alignUp, Nat.add_assoc, Nat.mul_add_div ha, Nat.add_mul, Nat.mul_comm k a]

@[simp] theorem alignUp_one (pos : ℕ) : alignUp pos 1 = pos := by
  simp [alignUp]

/-- **Masking**: clearing the low bits rounds down. -/
theorem and_not_eq {w k : ℕ} (hk : k < w) (x : BitVec w) :
    (x &&& ~~~(BitVec.ofNat w (2 ^ k) - 1)).toNat = x.toNat / 2 ^ k * 2 ^ k := by
  have hpow : 2 ^ k < 2 ^ w := Nat.pow_lt_pow_right (by norm_num) hk
  have hmask : (BitVec.ofNat w (2 ^ k) - 1).toNat = 2 ^ k - 1 := by
    have hpos : 0 < 2 ^ k := Nat.two_pow_pos k
    have hone : 1 % 2 ^ w = 1 := Nat.mod_eq_of_lt (Nat.one_lt_two_pow (by omega))
    rw [BitVec.toNat_sub, BitVec.toNat_ofNat, Nat.mod_eq_of_lt hpow, BitVec.ofNat_eq_ofNat,
      BitVec.toNat_ofNat, hone, show 2 ^ w - 1 + 2 ^ k = 2 ^ k - 1 + 2 ^ w by omega,
      Nat.add_mod_right, Nat.mod_eq_of_lt (by omega)]
  have hsplit : (x &&& ~~~(BitVec.ofNat w (2 ^ k) - 1)).toNat + x.toNat % 2 ^ k = x.toNat := by
    rw [← Nat.and_two_pow_sub_one_eq_mod, ← hmask, ← BitVec.toNat_and]
    have hdisj : (x &&& ~~~(BitVec.ofNat w (2 ^ k) - 1)) &&&
        (x &&& (BitVec.ofNat w (2 ^ k) - 1)) = 0#w := by
      ext i hi
      simp only [BitVec.getElem_and, BitVec.getElem_not, BitVec.getElem_zero]
      cases x[i] <;> cases (BitVec.ofNat w (2 ^ k) - 1)[i] <;> rfl
    have hor : (x &&& ~~~(BitVec.ofNat w (2 ^ k) - 1)) |||
        (x &&& (BitVec.ofNat w (2 ^ k) - 1)) = x := by
      ext i hi
      simp only [BitVec.getElem_or, BitVec.getElem_and, BitVec.getElem_not]
      cases x[i] <;> cases (BitVec.ofNat w (2 ^ k) - 1)[i] <;> rfl
    rw [← BitVec.toNat_add_of_and_eq_zero hdisj, BitVec.add_eq_or_of_and_eq_zero _ _ hdisj, hor]
  have hdiv := Nat.div_add_mod x.toNat (2 ^ k)
  rw [Nat.mul_comm] at hdiv
  omega

end AlignUp
