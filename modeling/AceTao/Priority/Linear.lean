import AceTao.Library.LinearScale

/-!
# The linear priority mapping

`TAO_Linear_Priority_Mapping` scales the native priorities, which run from `min` to `max` in either
order, to the CORBA priorities from 0 to 32767 and back. The arithmetic is that of `int`: `int` is
`none` where a result leaves it. The priorities themselves are of 16 bits, so that a result that
is assigned to one is cut.

Away from `min`, the mapping is `scaleUp` one way and `scaleDown` the other (`toCORBA_eq`,
`toNative_eq`): rounding by the sign of the quotient rounds away from `min` on the way to CORBA, and
the division of `int` rounds towards it on the way back. A range whose ends are native priorities is
mapped as it should be (`LinearRight`, `linearRight_of_native`); where an end is an `int` but no
native priority, it is cut.
-/

namespace Priority

open LinearScale

/-- An `int`, if it is one. -/
def int (x : ℤ) : Option ℤ := if -2147483648 ≤ x ∧ x ≤ 2147483647 then some x else none

/-- `RTCORBA::minPriority`. -/
abbrev minPriority : ℤ := 0

/-- `RTCORBA::maxPriority`. -/
abbrev maxPriority : ℤ := 32767

/-- `TAO_Linear_Priority_Mapping`, after its constructor. -/
structure LinearMapping where
  min : Int32
  max : Int32
  deriving DecidableEq

/-- `to_native`: `none` where the arithmetic leaves `int`, `some none` where 0 is returned. -/
def LinearMapping.toNative (m : LinearMapping) (corba : Int16) : Option (Option Int16) := do
  if corba.toInt < minPriority then return none
  let range ← int (m.max.toInt - m.min.toInt)
  let offset ← int (corba.toInt - minPriority)
  let product ← int (range * offset)
  let native ← int (m.min.toInt + product.tdiv (maxPriority - minPriority))
  return some (Int16.ofInt native)

/-- What `to_CORBA` adds to a quotient that is not exact. -/
def rounding (numerator delta : ℤ) : ℤ :=
  if numerator.tmod delta ≠ 0 then
    if numerator < 0 ∧ delta < 0 ∨ numerator ≥ 0 ∧ delta ≥ 0 then 1 else -1
  else 0

/-- `to_CORBA`. -/
def LinearMapping.toCORBA (m : LinearMapping) (native : Int16) : Option (Option Int16) := do
  if m.min.toInt < m.max.toInt ∧ (native.toInt < m.min.toInt ∨ native.toInt > m.max.toInt) ∨
      m.min.toInt > m.max.toInt ∧ (native.toInt < m.max.toInt ∨ native.toInt > m.min.toInt) then
    return none
  let delta ← int (m.max.toInt - m.min.toInt)
  if delta ≠ 0 then
    let offset ← int (native.toInt - m.min.toInt)
    let numerator ← int ((maxPriority - minPriority) * offset)
    let quotient ← int (numerator.tdiv delta)
    let corba ← int (minPriority + quotient + rounding numerator delta)
    return some (Int16.ofInt corba)
  else if native.toInt ≠ m.min.toInt then return none
  else return some (Int16.ofInt minPriority)

variable {m : LinearMapping} {n : Int16} {c : Int16} {δ k : ℕ} {s : ℤ}

/-! ### The direction of the range -/

/-- **A native range**, from `min` on by `δ` steps in the direction `s`. -/
structure LinearMapping.Runs (m : LinearMapping) (s : ℤ) (δ : ℕ) : Prop where
  sign : s = 1 ∨ s = -1
  max_eq : m.max.toInt = m.min.toInt + s * δ
  pos : 0 < δ
  le : δ ≤ 32767

theorem int_eq {x : ℤ} (h : -2147483648 ≤ x) (h' : x ≤ 2147483647) : int x = some x :=
  if_pos ⟨h, h'⟩

/-- Truncation rounds the product towards 0, whatever its sign. -/
theorem sign_mul_tdiv (hs : s = 1 ∨ s = -1) (a b : ℕ) :
    (s * (a : ℤ)).tdiv b = s * ((a / b : ℕ) : ℤ) := by
  rcases hs with rfl | rfl
  · rw [Int.one_mul, Int.one_mul]
    rfl
  · rw [Int.neg_one_mul, Int.neg_one_mul, Int.neg_tdiv]
    rfl

theorem sign_tdiv_sign (hs : s = 1 ∨ s = -1) (a b : ℕ) :
    (s * (a : ℤ)).tdiv (s * b) = ((a / b : ℕ) : ℤ) := by
  rcases hs with rfl | rfl
  · rw [Int.one_mul, Int.one_mul]
    rfl
  · rw [Int.neg_one_mul, Int.neg_one_mul, Int.neg_tdiv, Int.tdiv_neg, neg_neg]
    rfl

/-- The rounding of `to_CORBA` rounds the quotient up, whatever the signs. -/
theorem tdiv_add_rounding (hs : s = 1 ∨ s = -1) (hδ : 0 < δ) (a : ℕ) :
    (s * (a : ℤ)).tdiv (s * δ) + rounding (s * a) (s * δ) = ((a ⌈/⌉ δ : ℕ) : ℤ) := by
  have hceil : a ⌈/⌉ δ = a / δ + if a % δ = 0 then 0 else 1 := by
    have hdiv := Nat.div_add_mod' a δ
    have hmod := Nat.mod_lt a hδ
    rw [Nat.ceilDiv_eq_add_pred_div]
    refine Nat.div_eq_of_lt_le ?_ ?_
    · split_ifs with hexact
      · rw [Nat.add_zero]
        omega
      · rw [Nat.succ_mul]
        omega
    · split_ifs with hexact
      · rw [Nat.succ_mul]
        omega
      · rw [Nat.succ_mul, Nat.succ_mul]
        omega
  have hrem : (s * (a : ℤ)).tmod (s * δ) = 0 ↔ a % δ = 0 := by
    rcases hs with rfl | rfl
    · rw [Int.one_mul, Int.one_mul]
      exact Int.natCast_eq_zero
    · rw [Int.neg_one_mul, Int.neg_one_mul, Int.neg_tmod, Int.tmod_neg, neg_eq_zero]
      exact Int.natCast_eq_zero
  rw [sign_tdiv_sign hs, hceil, rounding]
  by_cases hexact : a % δ = 0
  · rw [if_neg (not_not_intro (hrem.mpr hexact)), if_pos hexact]
    rfl
  · have hsame : s * (a : ℤ) < 0 ∧ s * (δ : ℤ) < 0 ∨ s * (a : ℤ) ≥ 0 ∧ s * (δ : ℤ) ≥ 0 := by
      have ha : a ≠ 0 := by
        rintro rfl
        exact hexact (Nat.zero_mod δ)
      rcases hs with rfl | rfl
      · exact Or.inr ⟨by omega, by omega⟩
      · exact Or.inl ⟨by omega, by omega⟩
    rw [if_pos (hrem.not.mpr hexact), if_pos hsame, if_neg hexact]
    push_cast
    rfl

/-- The native that is `k` steps from `min` on. -/
theorem natAbs_offset (hs : s = 1 ∨ s = -1) : (s * (k : ℤ)).natAbs = k := by
  rcases hs with rfl | rfl
  · rw [Int.one_mul, Int.natAbs_natCast]
  · rw [Int.neg_one_mul, Int.natAbs_neg, Int.natAbs_natCast]

/-- The natives between the ends of the range. -/
def LinearMapping.Between (m : LinearMapping) (n : Int16) : Prop :=
  m.min.toInt ≤ n.toInt ∧ n.toInt ≤ m.max.toInt ∨ m.max.toInt ≤ n.toInt ∧ n.toInt ≤ m.min.toInt

theorem LinearMapping.Runs.between_iff (h : m.Runs s δ) :
    m.Between n ↔ ∃ k ≤ δ, n.toInt = m.min.toInt + s * k := by
  have hmax := h.max_eq
  have hpos := h.pos
  rw [Between]
  constructor
  · intro hn
    refine ⟨(n.toInt - m.min.toInt).natAbs, ?_, ?_⟩ <;> rcases h.sign with rfl | rfl <;> omega
  · rintro ⟨k, hk, hn⟩
    rcases h.sign with rfl | rfl <;> omega

/-! ### What the two functions compute -/

/-- The product of a scaling factor and an offset is an `int`. -/
theorem mul_bounds (hs : s = 1 ∨ s = -1) {a b : ℕ} (ha : a ≤ 32767) (hb : b ≤ 32767) :
    -2147483648 ≤ s * ((a * b : ℕ) : ℤ) ∧ s * ((a * b : ℕ) : ℤ) ≤ 2147483647 := by
  have hmul : a * b ≤ 32767 * 32767 := Nat.mul_le_mul ha hb
  rcases hs with rfl | rfl <;> omega

/-- **`to_native`** scales down. -/
theorem toNative_eq (h : m.Runs s δ) (hc : 0 ≤ c.toInt) :
    m.toNative c =
      some (some (Int16.ofInt (m.min.toInt + s * scaleDown δ 32767 c.toInt.toNat))) := by
  have hmin := Int32.le_toInt m.min
  have hmin' := Int32.toInt_lt m.min
  have hmax := Int32.le_toInt m.max
  have hmax' := Int32.toInt_lt m.max
  have hle := h.le
  have heq := h.max_eq
  have hclt := Int16.toInt_lt c
  obtain ⟨a, ha⟩ : ∃ a : ℕ, c.toInt = a := ⟨c.toInt.toNat, by omega⟩
  have hprod := mul_bounds h.sign h.le (show a ≤ 32767 by omega)
  have hrange : m.max.toInt - m.min.toInt = s * δ := by omega
  have hdown : scaleDown δ 32767 a ≤ δ := scaleDown_le h.pos (by omega) (by omega)
  have hmul : s * (δ : ℤ) * a = s * ((δ * a : ℕ) : ℤ) := by
    push_cast
    exact Int.mul_assoc ..
  have hdiv : (s * ((δ * a : ℕ) : ℤ)).tdiv (32767 - 0) = s * (scaleDown δ 32767 a : ℤ) :=
    sign_mul_tdiv h.sign (δ * a) 32767
  rw [LinearMapping.toNative, if_neg (not_lt.mpr hc), ha, hrange, Int.toNat_natCast]
  have hint₁ : int (s * (δ : ℤ)) = some (s * δ) := by
    rcases h.sign with rfl | rfl <;> exact int_eq (by omega) (by omega)
  have hint₂ : int ((a : ℤ) - minPriority) = some (a : ℤ) := by
    rw [Int.sub_zero]
    exact int_eq (by omega) (by omega)
  have hint₃ : int (s * (δ : ℤ) * a) = some (s * ((δ * a : ℕ) : ℤ)) := by
    rw [hmul]
    exact int_eq hprod.1 hprod.2
  have hint₄ : int (m.min.toInt + s * (scaleDown δ 32767 a : ℤ)) =
      some (m.min.toInt + s * (scaleDown δ 32767 a : ℤ)) := by
    rcases h.sign with rfl | rfl <;> exact int_eq (by omega) (by omega)
  simp only [hint₁, hint₂, hint₃, hdiv, hint₄, Option.bind_eq_bind, Option.bind_some, pure]

/-- **`to_CORBA`** scales up between the ends of the range. -/
theorem toCORBA_eq (h : m.Runs s δ) (hk : k ≤ δ) (hn : n.toInt = m.min.toInt + s * k) :
    m.toCORBA n = some (some (Int16.ofInt (scaleUp δ 32767 k))) := by
  have hpos := h.pos
  have hle := h.le
  have heq := h.max_eq
  have hup : scaleUp δ 32767 k ≤ 32767 := scaleUp_le h.pos (by omega) hk
  have hprod := mul_bounds h.sign (show 32767 ≤ 32767 from le_rfl) (hk.trans hle)
  have hbetween : ¬(m.min.toInt < m.max.toInt ∧
        (n.toInt < m.min.toInt ∨ n.toInt > m.max.toInt) ∨
      m.min.toInt > m.max.toInt ∧ (n.toInt < m.max.toInt ∨ n.toInt > m.min.toInt)) := by
    rcases h.sign with rfl | rfl <;> omega
  have hrange : m.max.toInt - m.min.toInt = s * δ := by omega
  have hoffset : n.toInt - m.min.toInt = s * k := by omega
  have hne : s * (δ : ℤ) ≠ 0 := by
    rcases h.sign with rfl | rfl <;> omega
  have hmul : (maxPriority - minPriority) * (s * (k : ℤ)) = s * ((32767 * k : ℕ) : ℤ) := by
    push_cast
    rw [Int.sub_zero, Int.mul_left_comm]
  have hround := tdiv_add_rounding h.sign h.pos (32767 * k)
  have hfloor : 32767 * k / δ ≤ scaleUp δ 32767 k := by
    rw [← Nat.floorDiv_eq_div]
    exact floorDiv_le_ceilDiv
  have hint₁ : int (s * (δ : ℤ)) = some (s * δ) := by
    rcases h.sign with rfl | rfl <;> exact int_eq (by omega) (by omega)
  have hint₂ : int (s * (k : ℤ)) = some (s * k) := by
    rcases h.sign with rfl | rfl <;> exact int_eq (by omega) (by omega)
  have hint₃ : int ((maxPriority - minPriority) * (s * k)) = some (s * ((32767 * k : ℕ) : ℤ)) := by
    rw [hmul]
    exact int_eq hprod.1 hprod.2
  have hint₄ : int ((s * ((32767 * k : ℕ) : ℤ)).tdiv (s * δ)) =
      some ((s * ((32767 * k : ℕ) : ℤ)).tdiv (s * δ)) := by
    obtain ⟨q, hq⟩ : ∃ q, 32767 * k / δ = q := ⟨_, rfl⟩
    rw [sign_tdiv_sign h.sign, hq]
    exact int_eq (by omega) (by omega)
  have hint₅ : int (minPriority + (s * ((32767 * k : ℕ) : ℤ)).tdiv (s * δ) +
      rounding (s * ((32767 * k : ℕ) : ℤ)) (s * δ)) = some (scaleUp δ 32767 k : ℤ) := by
    rw [Int.zero_add, hround]
    exact int_eq (by omega) (by change ((scaleUp δ 32767 k : ℕ) : ℤ) ≤ _; omega)
  rw [LinearMapping.toCORBA, if_neg hbetween, hrange, hoffset]
  simp only [hint₁, hint₂, hint₃, hint₄, hint₅, hne, Option.bind_eq_bind, Option.bind_some, pure,
    ne_eq, not_false_eq_true, if_true]

/-- Outside the range `to_CORBA` returns 0. -/
theorem toCORBA_eq_none (h : m.Runs s δ) (hn : ¬m.Between n) : m.toCORBA n = some none := by
  have hpos := h.pos
  have heq := h.max_eq
  rw [LinearMapping.Between] at hn
  refine (if_pos ?_).trans rfl
  rcases h.sign with rfl | rfl <;> omega

/-! ### The mapping -/

/-- The number of steps from `min` to a native. -/
def LinearMapping.steps (m : LinearMapping) (n : Int16) : ℕ := (n.toInt - m.min.toInt).natAbs

/-- **A linear mapping** between the natives of a range, counted from `min` on, and the CORBA
priorities: no arithmetic leaves `int`. -/
structure LinearRight (m : LinearMapping) : Prop where
  toCORBA_defined : ∀ n, (∃ c, m.toCORBA n = some (some c)) ↔ m.Between n
  toCORBA_refused : ∀ n, ¬m.Between n → m.toCORBA n = some none
  toCORBA_range : ∀ n c, m.toCORBA n = some (some c) → 0 ≤ c.toInt ∧ c.toInt ≤ 32767
  toCORBA_strictMono : ∀ n n' c c', m.toCORBA n = some (some c) → m.toCORBA n' = some (some c') →
    m.steps n < m.steps n' → c.toInt < c'.toInt
  toNative_toCORBA : ∀ n c, m.toCORBA n = some (some c) → m.toNative c = some (some n)
  toNative_defined : ∀ c : Int16, 0 ≤ c.toInt → ∃ n, m.toNative c = some (some n) ∧ m.Between n
  toNative_refused : ∀ c : Int16, c.toInt < 0 → m.toNative c = some none
  toNative_mono : ∀ c c' n n', m.toNative c = some (some n) → m.toNative c' = some (some n') →
    c.toInt ≤ c'.toInt → m.steps n ≤ m.steps n'
  toNative_zero : ∃ n, m.toNative 0 = some (some n) ∧ n.toInt = m.min.toInt
  toNative_max : ∃ n, m.toNative 32767 = some (some n) ∧ n.toInt = m.max.toInt

/-- A range as the mapping has it, in one direction or the other. -/
theorem exists_runs (hne : m.min.toInt ≠ m.max.toInt)
    (hle : (m.max.toInt - m.min.toInt).natAbs ≤ 32767) :
    ∃ s, m.Runs s (m.max.toInt - m.min.toInt).natAbs := by
  rcases lt_or_gt_of_ne hne with hlt | hgt
  · exact ⟨1, Or.inl rfl, by omega, by omega, hle⟩
  · exact ⟨-1, Or.inr rfl, by omega, by omega, hle⟩

/-- **A range of native priorities is mapped linearly**: it has at most as many steps as there are
CORBA priorities, and its ends are of 16 bits. -/
theorem linearRight_of_native (m : LinearMapping) (hne : m.min.toInt ≠ m.max.toInt)
    (hle : (m.max.toInt - m.min.toInt).natAbs ≤ 32767)
    (hmin : -32768 ≤ m.min.toInt ∧ m.min.toInt ≤ 32767)
    (hmax : -32768 ≤ m.max.toInt ∧ m.max.toInt ≤ 32767) : LinearRight m := by
  obtain ⟨s, hruns⟩ := exists_runs hne hle
  obtain ⟨δ, hδ⟩ : ∃ δ, (m.max.toInt - m.min.toInt).natAbs = δ := ⟨_, rfl⟩
  rw [hδ] at hruns
  have hpos := hruns.pos
  have hle' := hruns.le
  have heq := hruns.max_eq
  -- what is computed is a priority, so that it is not cut
  have hnative : ∀ k ≤ δ,
      (Int16.ofInt (m.min.toInt + s * (k : ℤ))).toInt = m.min.toInt + s * k := by
    intro k hk
    rcases hruns.sign with rfl | rfl <;>
      exact Int16.toInt_ofInt_of_le (by omega) (by omega)
  have hcorba : ∀ k ≤ δ, (Int16.ofInt (scaleUp δ 32767 k)).toInt = scaleUp δ 32767 k := by
    intro k hk
    have := scaleUp_le hruns.pos (n := 32767) (by omega) hk
    exact Int16.toInt_ofInt_of_le (by omega) (by omega)
  have hdown : ∀ c : Int16, scaleDown δ 32767 c.toInt.toNat ≤ δ := by
    intro c
    have := Int16.toInt_lt c
    exact scaleDown_le hpos (by omega) (by omega)
  have hsteps : ∀ (n : Int16) (k : ℕ), n.toInt = m.min.toInt + s * k → m.steps n = k := by
    intro n k hn
    rw [LinearMapping.steps, hn, add_sub_cancel_left]
    exact natAbs_offset hruns.sign
  -- the results of the two functions, by the steps from `min` on
  have hout : ∀ n c, m.toCORBA n = some (some c) →
      ∃ k ≤ δ, n.toInt = m.min.toInt + s * k ∧ c = Int16.ofInt (scaleUp δ 32767 k) := by
    intro n c hn
    by_cases hb : m.Between n
    · obtain ⟨k, hk, hnk⟩ := hruns.between_iff.mp hb
      rw [toCORBA_eq hruns hk hnk] at hn
      exact ⟨k, hk, hnk, (Option.some.inj (Option.some.inj hn)).symm⟩
    · rw [toCORBA_eq_none hruns hb] at hn
      exact nomatch Option.some.inj hn
  have hback : ∀ c : Int16, ∀ n, m.toNative c = some (some n) → 0 ≤ c.toInt ∧
      n = Int16.ofInt (m.min.toInt + s * scaleDown δ 32767 c.toInt.toNat) := by
    intro c n hc
    by_cases hneg : c.toInt < 0
    · rw [LinearMapping.toNative, if_pos hneg] at hc
      exact nomatch Option.some.inj hc
    · rw [toNative_eq hruns (not_lt.mp hneg)] at hc
      exact ⟨not_lt.mp hneg, (Option.some.inj (Option.some.inj hc)).symm⟩
  refine ⟨?_, ?_, ?_, ?_, ?_, ?_, ?_, ?_, ?_, ?_⟩
  · intro n
    constructor
    · rintro ⟨c, hc⟩
      obtain ⟨k, hk, hnk, -⟩ := hout n c hc
      exact hruns.between_iff.mpr ⟨k, hk, hnk⟩
    · intro hb
      obtain ⟨k, hk, hnk⟩ := hruns.between_iff.mp hb
      exact ⟨_, toCORBA_eq hruns hk hnk⟩
  · exact fun n hb => toCORBA_eq_none hruns hb
  · intro n c hc
    obtain ⟨k, hk, -, rfl⟩ := hout n c hc
    have := scaleUp_le hruns.pos (n := 32767) (by omega) hk
    rw [hcorba k hk]
    omega
  · intro n n' c c' hc hc' hlt
    obtain ⟨k, hk, hnk, rfl⟩ := hout n c hc
    obtain ⟨k', hk', hnk', rfl⟩ := hout n' c' hc'
    rw [hsteps n k hnk, hsteps n' k' hnk'] at hlt
    rw [hcorba k hk, hcorba k' hk']
    exact_mod_cast scaleUp_strictMono hpos hle' hlt
  · intro n c hc
    obtain ⟨k, hk, hnk, rfl⟩ := hout n c hc
    have hc0 : 0 ≤ (Int16.ofInt (scaleUp δ 32767 k)).toInt := by
      rw [hcorba k hk]
      exact Int.natCast_nonneg _
    rw [toNative_eq hruns hc0, hcorba k hk, Int.toNat_natCast, scaleDown_scaleUp hpos hle', ← hnk,
      Int16.ofInt_toInt]
  · intro c hc
    exact ⟨_, toNative_eq hruns hc, hruns.between_iff.mpr ⟨_, hdown c, hnative _ (hdown c)⟩⟩
  · intro c hc
    exact (if_pos hc).trans rfl
  · intro c c' n n' hc hc' hcc
    obtain ⟨hc0, rfl⟩ := hback c n hc
    obtain ⟨-, rfl⟩ := hback c' n' hc'
    rw [hsteps _ _ (hnative _ (hdown c)), hsteps _ _ (hnative _ (hdown c'))]
    exact scaleDown_mono hpos (by omega) (Int.toNat_le_toNat hcc)
  · refine ⟨_, toNative_eq hruns le_rfl, ?_⟩
    rw [hnative _ (hdown 0)]
    change m.min.toInt + s * ((scaleDown δ 32767 0 : ℕ) : ℤ) = m.min.toInt
    rw [scaleDown_zero, Nat.cast_zero, Int.mul_zero, Int.add_zero]
  · refine ⟨_, toNative_eq hruns (by decide), ?_⟩
    rw [hnative _ (hdown 32767), heq]
    change m.min.toInt + s * ((scaleDown δ 32767 32767 : ℕ) : ℤ) = _
    rw [scaleDown_self (by omega)]

/-- The real-time priorities of one system. -/
theorem linearRight_of_native_fifo : LinearRight ⟨1, 99⟩ :=
  linearRight_of_native ⟨1, 99⟩ (by decide) (by decide) (by decide) (by decide)

/-- An end that is no native priority is cut. -/
theorem not_linearRight_wide : ¬∀ m : LinearMapping, m.min.toInt ≠ m.max.toInt →
    (m.max.toInt - m.min.toInt).natAbs ≤ 32767 → LinearRight m := by
  intro h
  obtain ⟨n, hn, hmin⟩ := (h ⟨32768, 32769⟩ (by decide) (by decide)).toNative_zero
  have hcut : LinearMapping.toNative ⟨32768, 32769⟩ 0 = some (some (-32768)) := by decide
  rw [hcut] at hn
  rw [← Option.some.inj (Option.some.inj hn)] at hmin
  exact absurd hmin (by decide)

end Priority
