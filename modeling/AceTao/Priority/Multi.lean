import AceTao.Priority.Linear

/-!
# The multi priority mapping

`TAO_Multi_Priority_Mapping` maps the native priorities from `min` up to a base to CORBA priorities
that are `spacing` apart, counted down from a base as well. Where the native priorities are
contiguous it computes (`toCORBA_contiguous`, `toNative_contiguous`); where they are not, it
searches, stepping with `previousPriority`.

The search of `to_native` counts two steps too few, does not step at all, and assigns nothing if it
counts none, so that it undoes the search of `to_CORBA` for no native but the base. Computing back
is right but where a result is cut to 16 bits on the way. `roundTrips_iff` says exactly when the one
function undoes the other (`RoundTrips`).
-/

namespace Priority

/-- The numbers that are an `int`. -/
def IsInt (x : ℤ) : Prop := -2147483648 ≤ x ∧ x ≤ 2147483647

/-- What a call of the mapping answers: it returns 0, or it returns 1, having assigned its output or
not. -/
inductive Answer
  | refused
  | unassigned
  | assigned (priority : Int16)
  deriving DecidableEq

/-- `TAO_Multi_Priority_Mapping`, after its constructor; `prioritiesContiguous` says that
`priorities_contiguous_` is 1. -/
structure MultiMapping where
  baseNativePriority : Int32
  baseCorbaPriority : Int32
  prioritySpacing : Int32
  prioritiesContiguous : Bool
  min : Int32
  max : Int32
  deriving DecidableEq

namespace MultiMapping

variable (m : MultiMapping)

/-- The base of the native priorities. -/
abbrev nativeBase : ℤ := m.baseNativePriority.toInt

/-- The base of the CORBA priorities. -/
abbrev corbaBase : ℤ := m.baseCorbaPriority.toInt

/-- The CORBA priorities that one native priority takes up. -/
abbrev spacing : ℤ := m.prioritySpacing.toInt

/-- `ACE_Sched_Params::previous_priority`: one native priority towards `min`. -/
def previousPriority (priority : ℤ) : ℤ :=
  if m.min.toInt < priority then priority - 1
  else if priority < m.min.toInt then priority + 1
  else m.min.toInt

theorem previousPriority_closer {priority : ℤ} (h : m.previousPriority priority ≠ m.min.toInt) :
    (m.previousPriority priority - m.min.toInt).natAbs < (priority - m.min.toInt).natAbs := by
  rw [previousPriority] at h ⊢
  split_ifs at h ⊢ <;> omega

/-! ### `to_native` -/

/-- The first search of `to_native`, from the base on. -/
def toBase (base : ℤ) : ℕ → ℕ
  | 0 => 0
  | last + 1 => if base ≥ last then last else toBase base last

/-- The second search of `to_native`: how often it goes on before it has passed the priority. -/
def countCorba (corba : ℤ) : ℕ → ℕ
  | 0 => 0
  | last + 1 => if corba ≥ last then 0 else countCorba corba last + 1

/-- The last loop of `to_native`: every round assigns the priority before the base. -/
def assignPrevious : ℕ → Answer → Answer
  | 0, answer => answer
  | ndx + 1, _ => assignPrevious ndx (.assigned (Int16.ofInt (m.previousPriority m.nativeBase)))

/-- `to_native`: `none` where the arithmetic leaves `int`. -/
def toNative (corba : Int16) : Option Answer := do
  if corba.toInt < minPriority ∨ corba.toInt > m.corbaBase then return .refused
  if corba.toInt = m.corbaBase then return .assigned (Int16.ofInt m.nativeBase)
  if m.prioritiesContiguous then
    if m.min.toInt < m.max.toInt then
      let offset ← int (corba.toInt - m.corbaBase)
      let native ← int (offset.tdiv m.spacing + m.nativeBase)
      return .assigned (Int16.ofInt native)
    else
      let offset ← int (m.corbaBase - corba.toInt)
      let native ← int (offset.tdiv m.spacing + m.nativeBase)
      return .assigned (Int16.ofInt native)
  else
    let last := toBase m.corbaBase m.corbaBase.toNat
    let priorityNdx := countCorba corba.toInt last
    return m.assignPrevious priorityNdx .unassigned

/-! ### `to_CORBA` -/

/-- The first search of `to_CORBA`, from the base on. -/
def seekBase (last : ℤ) : ℤ :=
  let previous := m.previousPriority last
  if _h : previous = m.min.toInt then previous
  else if m.min.toInt < m.max.toInt ∧ m.nativeBase ≥ previous ∨
      ¬m.min.toInt < m.max.toInt ∧ m.nativeBase ≤ previous then previous
  else seekBase previous
termination_by (last - m.min.toInt).natAbs
decreasing_by exact m.previousPriority_closer _h

/-- The second search of `to_CORBA`: how often it goes on before it has reached the native. -/
def countNative (native last : ℤ) : ℕ :=
  if _h : last = m.min.toInt then 0
  else if m.min.toInt < m.max.toInt ∧ native ≥ last ∨
      ¬m.min.toInt < m.max.toInt ∧ native ≤ last then 0
  else countNative native (m.previousPriority last) + 1
termination_by (last - m.min.toInt).natAbs
decreasing_by
  rw [previousPriority]
  split_ifs <;> omega

/-- `to_CORBA`. -/
def toCORBA (native : Int16) : Option Answer := do
  if m.min.toInt < m.max.toInt ∧ (native.toInt < m.min.toInt ∨ native.toInt > m.nativeBase) ∨
      m.min.toInt > m.max.toInt ∧ (native.toInt < m.corbaBase ∨ native.toInt > m.min.toInt) then
    return .refused
  if native.toInt = m.nativeBase then return .assigned (Int16.ofInt m.corbaBase)
  if m.prioritiesContiguous then
    if m.min.toInt < m.max.toInt then
      let offset ← int (native.toInt - m.nativeBase)
      let product ← int (offset * m.spacing)
      let corba ← int (product + m.corbaBase)
      return .assigned (Int16.ofInt corba)
    else
      let offset ← int (m.nativeBase - native.toInt)
      let product ← int (offset * m.spacing)
      let corba ← int (product + m.corbaBase)
      return .assigned (Int16.ofInt corba)
  else
    let last := m.seekBase m.nativeBase
    let priorityNdx ← int (1 + m.countNative native.toInt last)
    let corba ← int (m.corbaBase - priorityNdx)
    return .assigned (Int16.ofInt corba)

/-! ### The statement -/

/-- The natives that `to_CORBA` does not refuse. -/
def Accepts (native : ℤ) : Prop :=
  ¬(m.min.toInt < m.max.toInt ∧ (native < m.min.toInt ∨ native > m.nativeBase) ∨
    m.min.toInt > m.max.toInt ∧ (native < m.corbaBase ∨ native > m.min.toInt))

/-- **`to_native` undoes `to_CORBA`**, and no call that returns 1 leaves its output unassigned. -/
structure RoundTrips : Prop where
  back : ∀ n c : Int16, m.toCORBA n = some (.assigned c) → 0 ≤ c.toInt → c.toInt ≤ m.corbaBase →
    m.toNative c = some (.assigned n)
  toNative_assigns : ∀ c, m.toNative c ≠ some .unassigned
  toCORBA_assigns : ∀ n, m.toCORBA n ≠ some .unassigned

/-- The natives from the base on, counted backwards. -/
def offset (native : ℤ) : ℤ :=
  if m.min.toInt < m.max.toInt then native - m.nativeBase else m.nativeBase - native

/-- Where the CORBA priority of a native is cut to 16 bits, by `k` times `2 ^ 16`, and comes out
between 0 and the base, the cut must not show in the quotient that is computed back. -/
def CutsWell : Prop :=
  ∀ (n : Int16) (k : ℤ), m.Accepts n.toInt →
    IsInt (m.offset n.toInt) → IsInt (m.offset n.toInt * m.spacing) →
    IsInt (m.offset n.toInt * m.spacing + m.corbaBase) →
    0 ≤ m.offset n.toInt * m.spacing + m.corbaBase - 65536 * k →
    m.offset n.toInt * m.spacing + m.corbaBase - 65536 * k ≤ 32767 →
    m.offset n.toInt * m.spacing + m.corbaBase - 65536 * k ≤ m.corbaBase →
    65536 ∣ 65536 * k / m.spacing

/-- The rounds that the search of `to_CORBA` makes for a native. -/
def rounds (native : ℤ) : ℤ :=
  if m.min.toInt < m.max.toInt then m.nativeBase - native
  else if m.min.toInt = m.max.toInt then if native = m.nativeBase then 0 else 1
  else if m.nativeBase ≤ native then native - m.nativeBase
  else 1

/-- Searching back is right if there is nothing to be searched, the base being at most 0; or if the
base is so far above the CORBA priorities that `to_native` answers every one of them with the native
before the base, and this is the only native that is mapped to one. -/
def SearchesWell : Prop :=
  m.corbaBase ≤ 0 ∨ 32770 ≤ m.corbaBase ∧
    ∀ (n : Int16) (k : ℤ), m.Accepts n.toInt → m.rounds n.toInt ≤ 2147483647 →
      0 ≤ m.corbaBase - m.rounds n.toInt - 65536 * k →
      m.corbaBase - m.rounds n.toInt - 65536 * k ≤ 32767 →
      65536 ∣ n.toInt - m.previousPriority m.nativeBase

/-! ### Cutting to 16 bits -/

theorem toInt_ofInt_cut {x k : ℤ} (h : -32768 ≤ x - 65536 * k) (h' : x - 65536 * k ≤ 32767) :
    (Int16.ofInt x).toInt = x - 65536 * k := by
  rw [Int16.toInt_ofInt, Int.bmod_def]
  change (if x % 65536 < (65536 + 1) / 2 then x % 65536 else x % 65536 - 65536) = _
  split_ifs <;> omega

theorem exists_cut (x : ℤ) : ∃ k, (Int16.ofInt x).toInt = x - 65536 * k :=
  ⟨(x + 32768) / 65536, toInt_ofInt_cut (by omega) (by omega)⟩

theorem ofInt_eq_iff {x : ℤ} {n : Int16} : Int16.ofInt x = n ↔ (65536 : ℤ) ∣ x - n.toInt := by
  have hle := Int16.le_toInt n
  have hlt := Int16.toInt_lt n
  obtain ⟨k, hk⟩ := exists_cut x
  have hcut := Int16.le_toInt (Int16.ofInt x)
  have hcut' := Int16.toInt_lt (Int16.ofInt x)
  rw [← Int16.toInt_inj, hk]
  omega

/-! ### Contiguous natives -/

variable {m} {n c : Int16} {k : ℤ}

theorem int_of_isInt {x : ℤ} (h : IsInt x) : int x = some x := if_pos h

theorem int_eq_some {x y : ℤ} : int x = some y ↔ IsInt x ∧ x = y := by
  rw [int]
  by_cases h : -2147483648 ≤ x ∧ x ≤ 2147483647
  · rw [if_pos h, Option.some.injEq]
    exact (and_iff_right h).symm
  · rw [if_neg h]
    exact iff_of_false nofun fun hx => h hx.1

theorem isInt_toInt (x : Int32) : IsInt x.toInt := by
  have hle := Int32.le_toInt x
  have hlt := Int32.toInt_lt x
  exact ⟨by omega, by omega⟩

/-- `to_CORBA` computes the CORBA priority, if the arithmetic stays in `int`. -/
theorem toCORBA_contiguous (hcont : m.prioritiesContiguous = true) (hacc : m.Accepts n.toInt) :
    m.toCORBA n = some (.assigned c) ↔ IsInt (m.offset n.toInt) ∧
      IsInt (m.offset n.toInt * m.spacing) ∧
      IsInt (m.offset n.toInt * m.spacing + m.corbaBase) ∧
      Int16.ofInt (m.offset n.toInt * m.spacing + m.corbaBase) = c := by
  rw [toCORBA, if_neg hacc]
  by_cases hbase : n.toInt = m.nativeBase
  · have hoffset : m.offset n.toInt = 0 := by
      rw [offset, hbase]
      split_ifs <;> exact sub_self _
    rw [if_pos hbase, hoffset, Int.zero_mul, Int.zero_add]
    have hzero : IsInt 0 := ⟨by decide, by decide⟩
    constructor
    · intro h
      exact ⟨hzero, hzero, isInt_toInt _, by injection Option.some.inj h⟩
    · rintro ⟨-, -, -, rfl⟩
      rfl
  · rw [if_neg hbase, if_pos hcont, offset]
    split_ifs with hmin
    all_goals
      simp only [Option.bind_eq_bind, Option.bind_eq_some_iff, int_eq_some, pure]
      constructor
      · rintro ⟨_, ⟨h₁, rfl⟩, _, ⟨h₂, rfl⟩, _, ⟨h₃, rfl⟩, h⟩
        exact ⟨h₁, h₂, h₃, by injection Option.some.inj h⟩
      · rintro ⟨h₁, h₂, h₃, rfl⟩
        exact ⟨_, ⟨h₁, rfl⟩, _, ⟨h₂, rfl⟩, _, ⟨h₃, rfl⟩, rfl⟩

/-- The native that is computed for a quotient. -/
def native (m : MultiMapping) (quotient : ℤ) : ℤ :=
  if m.min.toInt < m.max.toInt then m.nativeBase - quotient else m.nativeBase + quotient

/-- `to_native` computes the native back. -/
theorem toNative_contiguous (hcont : m.prioritiesContiguous = true) (hc : 0 ≤ c.toInt)
    (hle : c.toInt ≤ m.corbaBase)
    (hint : c.toInt ≠ m.corbaBase → IsInt (m.native ((m.corbaBase - c.toInt) / m.spacing))) :
    m.toNative c =
      some (.assigned (Int16.ofInt (m.native ((m.corbaBase - c.toInt) / m.spacing)))) := by
  have hbase : IsInt m.corbaBase := isInt_toInt m.baseCorbaPriority
  have hrefused : ¬(c.toInt < minPriority ∨ c.toInt > m.corbaBase) := by
    rintro (h | h)
    · exact absurd hc (not_le.mpr h)
    · exact absurd hle (not_le.mpr h)
  rw [toNative, if_neg hrefused]
  by_cases heq : c.toInt = m.corbaBase
  · have hzero : m.native ((m.corbaBase - c.toInt) / m.spacing) = m.nativeBase := by
      rw [heq, sub_self, Int.zero_ediv, native]
      split_ifs <;> omega
    rw [if_pos heq, hzero]
    rfl
  · have hv := hint heq
    rw [if_neg heq, if_pos hcont]
    rw [native] at hv ⊢
    split_ifs at hv ⊢ with hmin
    · have hdiv : (c.toInt - m.corbaBase).tdiv m.spacing =
          -((m.corbaBase - c.toInt) / m.spacing) := by
        rw [← neg_sub, Int.neg_tdiv, Int.tdiv_eq_ediv_of_nonneg (by omega)]
      have hd : IsInt (c.toInt - m.corbaBase) := ⟨by have := hbase.2; omega, by omega⟩
      have hback : -((m.corbaBase - c.toInt) / m.spacing) + m.nativeBase =
          m.nativeBase - (m.corbaBase - c.toInt) / m.spacing := by omega
      simp only [int_of_isInt hd, hdiv, hback, int_of_isInt hv, Option.bind_eq_bind,
        Option.bind_some, pure]
    · have hdiv : (m.corbaBase - c.toInt).tdiv m.spacing =
          (m.corbaBase - c.toInt) / m.spacing := Int.tdiv_eq_ediv_of_nonneg (by omega)
      have hd : IsInt (m.corbaBase - c.toInt) := ⟨by omega, by have := hbase.2; omega⟩
      have hback : (m.corbaBase - c.toInt) / m.spacing + m.nativeBase =
          m.nativeBase + (m.corbaBase - c.toInt) / m.spacing := by omega
      simp only [int_of_isInt hd, hdiv, hback, int_of_isInt hv, Option.bind_eq_bind,
        Option.bind_some, pure]

/-- **The quotient** that is computed back is the offset and what has been cut off. -/
theorem quotient_eq (hs : 1 ≤ m.spacing)
    (hc : c.toInt = m.offset n.toInt * m.spacing + m.corbaBase - 65536 * k) :
    (m.corbaBase - c.toInt) / m.spacing = -m.offset n.toInt + 65536 * k / m.spacing := by
  have hsum : m.corbaBase - c.toInt = 65536 * k + -m.offset n.toInt * m.spacing := by
    rw [hc, Int.neg_mul]
    omega
  rw [hsum, Int.add_mul_ediv_right _ _ (by omega), Int.add_comm]

/-- The native that is computed back, by what has been cut off. -/
theorem native_quotient (hs : 1 ≤ m.spacing)
    (hc : c.toInt = m.offset n.toInt * m.spacing + m.corbaBase - 65536 * k) :
    m.native ((m.corbaBase - c.toInt) / m.spacing) = n.toInt - 65536 * k / m.spacing ∨
      m.native ((m.corbaBase - c.toInt) / m.spacing) = n.toInt + 65536 * k / m.spacing := by
  rw [quotient_eq hs hc, native, offset]
  split_ifs
  · left
    omega
  · right
    omega

/-- What has been cut off leaves the native that is computed back an `int`. -/
theorem quotient_bounds (hs : 1 ≤ m.spacing) (hoffset : IsInt (m.offset n.toInt))
    (hx : IsInt (m.offset n.toInt * m.spacing + m.corbaBase))
    (hc : c.toInt = m.offset n.toInt * m.spacing + m.corbaBase - 65536 * k) (hc0 : 0 ≤ c.toInt)
    (hlt : c.toInt < m.corbaBase) :
    -2147418112 ≤ 65536 * k / m.spacing ∧ 65536 * k / m.spacing ≤ 2147418112 := by
  have hc' := Int16.toInt_lt c
  obtain ⟨hx₁, hx₂⟩ := hx
  constructor
  · by_cases hk : k = -32768
    · -- with a spacing of 1 the offset would leave `int`
      have hne : m.spacing ≠ 1 := by
        intro h1
        rw [h1, Int.mul_one, hk] at hc
        have := hoffset.1
        omega
      have hle : -1073741824 ≤ 65536 * k / m.spacing := by
        rw [Int.le_ediv_iff_mul_le (by omega), hk]
        have : 2 ≤ m.spacing := by omega
        omega
      omega
    · have hk' : -32767 ≤ k := by omega
      rw [Int.le_ediv_iff_mul_le (by omega)]
      omega
  · refine Int.ediv_le_of_le_mul (by omega) ?_
    have hk' : k ≤ 32767 := by omega
    omega

theorem isInt_native (hs : 1 ≤ m.spacing) (hoffset : IsInt (m.offset n.toInt))
    (hx : IsInt (m.offset n.toInt * m.spacing + m.corbaBase))
    (hc : c.toInt = m.offset n.toInt * m.spacing + m.corbaBase - 65536 * k) (hc0 : 0 ≤ c.toInt)
    (hlt : c.toInt < m.corbaBase) :
    IsInt (m.native ((m.corbaBase - c.toInt) / m.spacing)) := by
  have hbounds := quotient_bounds hs hoffset hx hc hc0 hlt
  have hn := Int16.le_toInt n
  have hn' := Int16.toInt_lt n
  rw [IsInt]
  rcases native_quotient hs hc with h | h <;> rw [h] <;> omega

theorem dvd_native_iff (hs : 1 ≤ m.spacing)
    (hc : c.toInt = m.offset n.toInt * m.spacing + m.corbaBase - 65536 * k) :
    65536 ∣ m.native ((m.corbaBase - c.toInt) / m.spacing) - n.toInt ↔
      65536 ∣ 65536 * k / m.spacing := by
  rcases native_quotient hs hc with h | h <;> rw [h] <;> omega

theorem toCORBA_ne_unassigned : m.toCORBA n ≠ some .unassigned := by
  rw [toCORBA]
  split_ifs
  · nofun
  · nofun
  all_goals
    simp only [Option.bind_eq_bind, ne_eq, Option.bind_eq_some_iff, pure, not_exists, not_and]
    intros
    exact fun h => nomatch h

/-- What `to_CORBA` returns it has not refused. -/
theorem accepts_of_toCORBA (h : m.toCORBA n = some (.assigned c)) : m.Accepts n.toInt := by
  intro hrefused
  rw [toCORBA, if_pos hrefused] at h
  exact nomatch h

/-- **Computing back** undoes `to_CORBA` if nothing that is cut off shows. -/
theorem roundTrips_contiguous (hcont : m.prioritiesContiguous = true) (hs : 1 ≤ m.spacing) :
    m.RoundTrips ↔ m.CutsWell := by
  constructor
  · intro h n k hacc h₁ h₂ h₃ hge hle hbase
    have hcut := toInt_ofInt_cut (le_trans (by decide) hge) hle
    have hto := (toCORBA_contiguous (n := n) hcont hacc).mpr ⟨h₁, h₂, h₃, rfl⟩
    have hback := h.back n _ hto (hcut.symm ▸ hge) (hcut.symm ▸ hbase)
    have hint := isInt_native hs h₁ h₃ hcut (hcut.symm ▸ hge)
    rw [toNative_contiguous hcont (hcut.symm ▸ hge) (hcut.symm ▸ hbase)
      fun hne => hint (lt_of_le_of_ne (hcut.symm ▸ hbase) hne)] at hback
    rw [← dvd_native_iff hs hcut, ← ofInt_eq_iff]
    injection Option.some.inj hback
  · intro h
    refine ⟨fun n c hto hge hle => ?_, fun c => ?_, fun n => toCORBA_ne_unassigned⟩
    · have hacc := accepts_of_toCORBA hto
      obtain ⟨h₁, h₂, h₃, rfl⟩ := (toCORBA_contiguous hcont hacc).mp hto
      obtain ⟨k, hk⟩ := exists_cut (m.offset n.toInt * m.spacing + m.corbaBase)
      have hlt := Int16.toInt_lt (Int16.ofInt (m.offset n.toInt * m.spacing + m.corbaBase))
      have hdvd := h n k hacc h₁ h₂ h₃ (hk ▸ hge) (by omega) (hk ▸ hle)
      have hint := isInt_native hs h₁ h₃ hk hge
      rw [toNative_contiguous hcont hge hle fun hne => hint (lt_of_le_of_ne hle hne)]
      rw [← dvd_native_iff hs hk, ← ofInt_eq_iff] at hdvd
      rw [hdvd]
    · rw [toNative]
      split_ifs
      · nofun
      · nofun
      all_goals
        simp only [Option.bind_eq_bind, ne_eq, Option.bind_eq_some_iff, pure, not_exists, not_and]
        intros
        exact fun h => nomatch h

/-! ### Other natives -/

theorem countCorba_eq (corba : ℕ) (last : ℕ) : countCorba corba last = last - 1 - corba := by
  induction last with
  | zero => rw [countCorba]; omega
  | succ last ih =>
    rw [countCorba]
    by_cases h : (corba : ℤ) ≥ last
    · rw [if_pos h]
      omega
    · rw [if_neg h, ih]
      omega

theorem toBase_self {base : ℕ} (h : 0 < base) : toBase base base = base - 1 := by
  obtain ⟨last, rfl⟩ : ∃ last, base = last + 1 := ⟨base - 1, by omega⟩
  rw [toBase, if_pos (by push_cast; omega)]
  rfl

theorem assignPrevious_eq (ndx : ℕ) (answer : Answer) :
    m.assignPrevious ndx answer =
      if ndx = 0 then answer else .assigned (Int16.ofInt (m.previousPriority m.nativeBase)) := by
  induction ndx generalizing answer with
  | zero => rfl
  | succ ndx ih =>
    rw [assignPrevious, ih, if_neg (Nat.succ_ne_zero ndx)]
    exact ite_self _

/-- `to_native` answers every CORBA priority below the base with the native before the base, and
the two just below it with nothing. -/
theorem toNative_search (hcont : m.prioritiesContiguous = false) (hc : 0 ≤ c.toInt)
    (hlt : c.toInt < m.corbaBase) :
    m.toNative c = some (if m.corbaBase ≤ c.toInt + 2 then .unassigned
      else .assigned (Int16.ofInt (m.previousPriority m.nativeBase))) := by
  have hrefused : ¬(c.toInt < minPriority ∨ c.toInt > m.corbaBase) := by
    rintro (h | h)
    · exact absurd hc (not_le.mpr h)
    · exact absurd hlt.le (not_le.mpr h)
  have hcont' : ¬m.prioritiesContiguous = true := by
    rw [hcont]
    exact Bool.false_ne_true
  obtain ⟨base, hbase⟩ : ∃ base : ℕ, m.corbaBase = base := ⟨m.corbaBase.toNat, by omega⟩
  obtain ⟨corba, hcorba⟩ : ∃ corba : ℕ, c.toInt = corba := ⟨c.toInt.toNat, by omega⟩
  rw [toNative, if_neg hrefused, if_neg hlt.ne, if_neg hcont', hbase, hcorba, Int.toNat_natCast,
    toBase_self (by omega)]
  dsimp only
  rw [countCorba_eq, assignPrevious_eq]
  by_cases hnear : (base : ℤ) ≤ corba + 2
  · rw [if_pos hnear, if_pos (by omega)]
    rfl
  · rw [if_neg hnear, if_neg (by omega)]
    rfl

/-- The native range holds the base. -/
def HoldsBase (m : MultiMapping) : Prop :=
  m.min.toInt ≤ m.nativeBase ∧ m.nativeBase ≤ m.max.toInt ∨
    m.max.toInt ≤ m.nativeBase ∧ m.nativeBase ≤ m.min.toInt

/-- The first search of `to_CORBA` ends with its first step. -/
theorem seekBase_eq (h : m.HoldsBase) :
    m.seekBase m.nativeBase = m.previousPriority m.nativeBase := by
  rw [HoldsBase] at h
  rw [seekBase]
  split_ifs with h₁ h₂
  · rfl
  · rfl
  · exfalso
    rw [previousPriority] at h₁ h₂
    split_ifs at h₁ h₂ <;> omega

/-- The second one steps from there to the native, or stops at once if it is not on the way. -/
theorem countNative_eq {native last : ℤ} :
    (m.min.toInt < m.max.toInt → m.min.toInt ≤ native → m.min.toInt ≤ last →
      m.countNative native last = (last - native).toNat) ∧
    (m.max.toInt < m.min.toInt → native ≤ m.min.toInt → last ≤ m.min.toInt →
      m.countNative native last = (native - last).toNat) := by
  induction last using countNative.induct (m := m) native with
  | case1 =>
    rw [countNative, dif_pos rfl]
    omega
  | case2 last hmin hstop =>
    rw [countNative, dif_neg hmin, if_pos hstop]
    omega
  | case3 last hmin hstop ih =>
    rw [countNative, dif_neg hmin, if_neg hstop]
    constructor
    · intro hasc hnative hlast
      have hprev : m.previousPriority last = last - 1 := if_pos (by omega)
      rw [hprev] at ih ⊢
      rw [ih.1 hasc hnative (by omega)]
      omega
    · intro hdesc hnative hlast
      have hprev : m.previousPriority last = last + 1 :=
        (if_neg (by omega)).trans (if_pos (by omega))
      rw [hprev] at ih ⊢
      rw [ih.2 hdesc hnative (by omega)]
      omega

/-- The rounds of `to_CORBA`, for a native that is not the base. -/
theorem rounds_eq (hbase : m.HoldsBase) {native : ℤ} (hacc : m.Accepts native)
    (hne : native ≠ m.nativeBase) :
    (1 : ℤ) + m.countNative native (m.seekBase m.nativeBase) = m.rounds native := by
  rw [seekBase_eq hbase, rounds]
  rw [HoldsBase] at hbase
  rw [Accepts] at hacc
  rcases lt_trichotomy m.min.toInt m.max.toInt with hasc | heq | hdesc
  · have hprev : m.previousPriority m.nativeBase = m.nativeBase - 1 := if_pos (by omega)
    rw [if_pos hasc, hprev, countNative_eq.1 hasc (by omega) (by omega)]
    omega
  · have hprev : m.previousPriority m.nativeBase = m.min.toInt := by
      rw [previousPriority]
      split_ifs <;> omega
    rw [if_neg (by omega), if_pos heq, if_neg hne, hprev, countNative, dif_pos rfl]
    rfl
  · rw [if_neg (by omega), if_neg (by omega)]
    have hprev : m.previousPriority m.nativeBase =
        if m.nativeBase < m.min.toInt then m.nativeBase + 1 else m.min.toInt :=
      if_neg (by omega)
    rw [hprev]
    split_ifs with h₁ h₂ h₂
    all_goals
      rw [countNative_eq.2 hdesc (by omega) (by omega)]
      omega

theorem rounds_base : m.rounds m.nativeBase = 0 := by
  rw [rounds]
  split_ifs <;> omega

/-- `to_CORBA` counts down from the base. -/
theorem toCORBA_search (hcont : m.prioritiesContiguous = false) (hbase : m.HoldsBase)
    (hacc : m.Accepts n.toInt) :
    m.toCORBA n = some (.assigned c) ↔ m.rounds n.toInt ≤ 2147483647 ∧
      IsInt (m.corbaBase - m.rounds n.toInt) ∧
      Int16.ofInt (m.corbaBase - m.rounds n.toInt) = c := by
  have hcont' : ¬m.prioritiesContiguous = true := by
    rw [hcont]
    exact Bool.false_ne_true
  rw [toCORBA, if_neg hacc]
  by_cases hn : n.toInt = m.nativeBase
  · rw [if_pos hn, hn, rounds_base, Int.sub_zero]
    constructor
    · intro h
      exact ⟨by decide, isInt_toInt _, by injection Option.some.inj h⟩
    · rintro ⟨-, -, rfl⟩
      rfl
  · have hrounds := rounds_eq hbase hacc hn
    have hint : IsInt (m.rounds n.toInt) ↔ m.rounds n.toInt ≤ 2147483647 :=
      ⟨fun h => h.2, fun h => ⟨by omega, h⟩⟩
    rw [if_neg hn, if_neg hcont', ← hint]
    simp only [hrounds, Option.bind_eq_bind, Option.bind_eq_some_iff, int_eq_some, pure]
    constructor
    · rintro ⟨_, ⟨h₁, rfl⟩, _, ⟨h₂, rfl⟩, h⟩
      exact ⟨h₁, h₂, by injection Option.some.inj h⟩
    · rintro ⟨h₁, h₂, rfl⟩
      exact ⟨_, ⟨h₁, rfl⟩, _, ⟨h₂, rfl⟩, rfl⟩

/-- A native whose rounds are cut off whole is the base, cut. -/
theorem dvd_rounds (h : 65536 ∣ m.rounds n.toInt) : 65536 ∣ m.nativeBase - n.toInt := by
  rw [rounds] at h
  split_ifs at h <;> omega

theorem rounds_nonneg (hacc : m.Accepts n.toInt) : 0 ≤ m.rounds n.toInt := by
  rw [Accepts] at hacc
  rw [rounds]
  split_ifs <;> omega

theorem toNative_base (hc : 0 ≤ c.toInt) (heq : c.toInt = m.corbaBase) :
    m.toNative c = some (.assigned (Int16.ofInt m.nativeBase)) := by
  have hrefused : ¬(c.toInt < minPriority ∨ c.toInt > m.corbaBase) := by
    rintro (h | h)
    · exact absurd hc (not_le.mpr h)
    · exact absurd heq.le (not_le.mpr h)
  rw [toNative, if_neg hrefused, if_pos heq]
  rfl

/-- **Searching back** undoes `to_CORBA` if there is nothing to be searched. -/
theorem roundTrips_search (hcont : m.prioritiesContiguous = false) (hbase : m.HoldsBase) :
    m.RoundTrips ↔ m.SearchesWell := by
  have hcorba : IsInt m.corbaBase := isInt_toInt m.baseCorbaPriority
  constructor
  · intro h
    by_cases hzero : m.corbaBase ≤ 0
    · exact Or.inl hzero
    -- the CORBA priorities just below the base are answered with nothing
    have hfar : 32770 ≤ m.corbaBase := by
      by_contra hnear
      obtain ⟨v, hv⟩ : ∃ v, 0 ≤ v ∧ v ≤ 32767 ∧ v < m.corbaBase ∧ m.corbaBase ≤ v + 2 := by
        rcases le_or_gt m.corbaBase 32768 with hle | hgt
        · exact ⟨m.corbaBase - 1, by omega⟩
        · exact ⟨32767, by omega⟩
      have hcut := toInt_ofInt_cut (x := v) (k := 0) (by omega) (by omega)
      refine h.toNative_assigns (Int16.ofInt v) ?_
      rw [toNative_search hcont (by omega) (by omega), if_pos (by omega)]
    refine Or.inr ⟨hfar, fun n k hacc hrounds hge hle => ?_⟩
    have hnonneg := rounds_nonneg hacc
    have hcut := toInt_ofInt_cut (le_trans (by decide) hge) hle
    have hint : IsInt (m.corbaBase - m.rounds n.toInt) := by
      obtain ⟨-, hmax⟩ := hcorba
      exact ⟨by omega, by omega⟩
    have hto := (toCORBA_search (n := n) hcont hbase hacc).mpr ⟨hrounds, hint, rfl⟩
    have hback := h.back n _ hto (hcut.symm ▸ hge) (by omega)
    rw [toNative_search hcont (hcut.symm ▸ hge) (by omega), if_neg (by omega)] at hback
    have heq : Int16.ofInt (m.previousPriority m.nativeBase) = n := by
      injection Option.some.inj hback
    have hdvd := ofInt_eq_iff.mp heq
    omega
  · intro h
    refine ⟨fun n c hto hge hle => ?_, fun c => ?_, fun n => toCORBA_ne_unassigned⟩
    · have hacc := accepts_of_toCORBA hto
      obtain ⟨hrounds, -, hc⟩ := (toCORBA_search hcont hbase hacc).mp hto
      obtain ⟨k, hk⟩ := exists_cut (m.corbaBase - m.rounds n.toInt)
      rw [hc] at hk
      have hlt := Int16.toInt_lt c
      rcases h with hzero | ⟨hfar, hall⟩
      · have hdvd : 65536 ∣ m.rounds n.toInt := by omega
        rw [toNative_base hge (by omega), ofInt_eq_iff.mpr (dvd_rounds hdvd)]
      · have hdvd := hall n k hacc hrounds (by omega) (by omega)
        have heq : Int16.ofInt (m.previousPriority m.nativeBase) = n :=
          ofInt_eq_iff.mpr (by omega)
        rw [toNative_search hcont hge (by omega), if_neg (by omega), heq]
    · by_cases hin : 0 ≤ c.toInt ∧ c.toInt ≤ m.corbaBase
      · have hlt := Int16.toInt_lt c
        by_cases heq : c.toInt = m.corbaBase
        · rw [toNative_base hin.1 heq]
          nofun
        · rw [toNative_search hcont hin.1 (by omega)]
          split_ifs with hnear
          · rcases h with hzero | ⟨hfar, -⟩ <;> omega
          · nofun
      · have hrefused : c.toInt < minPriority ∨ c.toInt > m.corbaBase := by
          by_contra hno
          exact hin ⟨not_lt.mp fun h => hno (Or.inl h), not_lt.mp fun h => hno (Or.inr h)⟩
        rw [toNative, if_pos hrefused]
        nofun

/-- **When the two functions match.** -/
theorem roundTrips_iff (m : MultiMapping) (hs : 1 ≤ m.spacing) (hbase : m.HoldsBase) :
    m.RoundTrips ↔ m.prioritiesContiguous = true ∧ m.CutsWell ∨
      m.prioritiesContiguous = false ∧ m.SearchesWell := by
  cases hcont : m.prioritiesContiguous with
  | true =>
    rw [roundTrips_contiguous hcont hs]
    simp only [true_and, Bool.true_eq_false, false_and, or_false]
  | false =>
    rw [roundTrips_search hcont hbase]
    simp only [true_and, Bool.false_eq_true, false_and, false_or]

/-- A range that is not contiguous, with the real-time priorities of one system. -/
abbrev sparse : MultiMapping := ⟨10, 100, 1, false, 1, 99⟩

theorem roundTrips_iff_sparse : sparse.RoundTrips ↔ sparse.prioritiesContiguous = true ∧
    sparse.CutsWell ∨ sparse.prioritiesContiguous = false ∧ sparse.SearchesWell :=
  roundTrips_iff sparse (by decide) (by rw [HoldsBase]; decide)

/-- There the native before the base is mapped to a CORBA priority that is mapped to nothing. -/
theorem not_roundTrips_sparse : sparse.toCORBA 9 = some (.assigned 99) ∧
    sparse.toNative 99 = some .unassigned ∧ ¬sparse.RoundTrips := by
  have hto : sparse.toNative 99 = some .unassigned := by decide
  have hbase : sparse.HoldsBase := by
    rw [HoldsBase]
    decide
  have hacc : sparse.Accepts (9 : Int16).toInt := by
    rw [Accepts]
    decide
  refine ⟨(toCORBA_search rfl hbase hacc).mpr ⟨by decide, ⟨by decide, by decide⟩, by decide⟩, hto,
    fun h => h.toNative_assigns 99 hto⟩

end MultiMapping

end Priority
