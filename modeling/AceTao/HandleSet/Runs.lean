import AceTao.HandleSet.Handles
import AceTao.Library.Machine
import Mathlib.Data.Finset.Max

/-!
# The number of handles and the largest one

Every operation keeps the two cached fields of a handle set right (`Cached`): `set_bit`, `clr_bit`
always, and `sync` when its variant of `count_bits` looks at every handle of the mask.
-/

namespace AceTao

namespace HandleSet

variable {c : FdConfig} {m : FdSet c} {s : HandleSet c} {v : CountVariant}

/-! ### The largest handle -/

theorem exists_max (h : handles m ≠ []) :
    ∃ a, isSet m a = true ∧ ∀ y, isSet m y = true → y ≤ a := by
  have hne : (handles m).toFinset.Nonempty := List.toFinset_nonempty_iff _ |>.mpr h
  refine ⟨(handles m).toFinset.max' hne, ?_, fun y hy => ?_⟩
  · exact mem_handles.mp (List.mem_toFinset.mp (Finset.max'_mem _ hne))
  · exact Finset.le_max' _ _ (List.mem_toFinset.mpr (mem_handles.mpr hy))

/-- A word without handles is zero. -/
theorem word_eq_zero {i : Fin c.numWords} (h : ∀ x : ℕ, x / 64 = i → isSet m x = false) :
    m i = 0 := by
  refine BitVec.eq_of_getLsbD_eq fun k hk => ?_
  have hx := h (64 * (i : ℕ) + k) (by omega)
  rw [isSet_word i.isLt hk] at hx
  rw [show (0 : BitVec 64) = 0#64 from rfl, BitVec.getLsbD_zero]
  exact hx

theorem word_ne_zero {i : Fin c.numWords} {x : ℕ} (hi : x / 64 = i) (hx : isSet m x = true) :
    m i ≠ 0 := by
  intro h0
  rw [isSet_of_div_eq hi, h0] at hx
  simp at hx

theorem and_not_one_eq_zero (val : BitVec 64) : val &&& ~~~1#64 = 0 ↔ val.toNat < 2 := by
  have hbit : ∀ i, (val &&& ~~~1#64).getLsbD i = (val.getLsbD i && decide (i ≠ 0)) := by
    intro i
    rcases Nat.lt_or_ge i 64 with hi | hi
    · rw [BitVec.getLsbD_and, BitVec.getLsbD_not, BitVec.getLsbD_one]
      simp [hi]
    · rw [BitVec.getLsbD_of_ge _ _ hi, BitVec.getLsbD_of_ge _ _ hi]
      rfl
  constructor
  · intro h
    refine Nat.lt_pow_two_of_testBit (n := 1) val.toNat fun i hi => ?_
    have hz := hbit i
    rw [h] at hz
    have hi0 : i ≠ 0 := by omega
    simpa [hi0, BitVec.getLsbD] using hz.symm
  · intro h
    refine BitVec.eq_of_getLsbD_eq fun i hi => ?_
    rw [hbit]
    rcases eq_or_ne i 0 with rfl | hi0
    · simp
    · have hlt : val.toNat < 2 ^ i :=
        lt_of_lt_of_le h (Nat.pow_le_pow_right Nat.two_pos (Nat.pos_of_ne_zero hi0))
      rw [BitVec.getLsbD, Nat.testBit_lt_two_pow hlt]
      simp

/-- **The loop of `set_max` over a word** finds its highest bit. -/
theorem topBit_eq {val : BitVec 64} {k : ℕ} (hk : val.toNat.testBit k = true)
    (hmax : ∀ i, k < i → val.toNat.testBit i = false) : topBit val = k := by
  induction val using topBit.induct generalizing k with
  | case1 val h ih =>
    have hge : 2 ≤ val.toNat := by
      by_contra hlt
      exact h ((and_not_one_eq_zero val).mpr (by omega))
    rw [topBit, if_pos h]
    have hk0 : k ≠ 0 := by
      rintro rfl
      have hlt : val.toNat < 2 ^ 1 := Nat.lt_pow_two_of_testBit _ fun i hi => hmax i (by omega)
      omega
    obtain ⟨k, rfl⟩ := Nat.exists_eq_succ_of_ne_zero hk0
    rw [Nat.succ_eq_add_one, Nat.testBit_succ, ← toNat_shiftRight] at hk
    refine congrArg (· + 1) (ih hk fun i hi => ?_)
    rw [toNat_shiftRight, ← Nat.testBit_succ]
    exact hmax (i + 1) (by omega)
  | case2 val h =>
    have hlt := (and_not_one_eq_zero val).mp (not_not.mp h)
    rw [topBit, if_neg h]
    by_contra hne
    have hlt' : val.toNat < 2 ^ k :=
      lt_of_lt_of_le hlt (Nat.pow_le_pow_right Nat.two_pos (by omega : 1 ≤ k))
    rw [Nat.testBit_lt_two_pow hlt'] at hk
    cases hk

/-- **The scan of `set_max`** stops at the word of the largest handle. -/
theorem lastWord_eq {a i : ℕ} (ha : isSet m a = true) (hmax : ∀ y, isSet m y = true → y ≤ a)
    (hle : a / 64 ≤ i) (hi : i < c.numWords) : lastWord m i = some (a / 64) := by
  induction i with
  | zero =>
    have h0 := maskp_of_lt (m := m) hi
    rw [Int.natCast_zero] at h0
    have hword : m ⟨0, hi⟩ ≠ 0 := word_ne_zero (by simpa using hle) ha
    rw [lastWord, h0]
    simp only [if_neg hword]
    exact congrArg some (by omega)
  | succ i ih =>
    rw [lastWord, maskp_of_lt hi]
    rcases eq_or_ne (a / 64) (i + 1) with heq | hne
    · have hword : m ⟨i + 1, hi⟩ ≠ 0 := word_ne_zero heq ha
      simp only [if_neg hword, heq]
    · have hword : m ⟨i + 1, hi⟩ = 0 := word_eq_zero fun x hx => by
        by_contra hset
        have hxa := hmax x (by simpa using hset)
        have hxi : x / 64 = i + 1 := hx
        omega
      simp only [if_pos hword]
      exact ih (by omega) (by omega)

/-! ### `set_max` -/

/-- **`x` is the largest handle** of the set, or `ACE_INVALID_HANDLE` when it is empty. -/
def IsMax (m : FdSet c) (x : ℤ) : Prop :=
  (∀ y, isSet m y = false) ∧ x = invalidHandle ∨
    ∃ a : ℕ, isSet m a = true ∧ (∀ y, isSet m y = true → y ≤ a) ∧ x = a

theorem handles_eq_nil : handles m = [] ↔ ∀ y, isSet m y = false := by
  rw [List.eq_nil_iff_forall_not_mem]
  exact forall_congr' fun y => by rw [mem_handles, Bool.not_eq_true]

/-- **`set_max`** finds the largest handle when its scan starts at or behind the word of it. -/
theorem setMax_spec (cur : ℤ) (hsize : s.size = (handles s.mask).length)
    (hrange : ∀ h, isSet s.mask h = true → h < c.maxSize) (hcur : 0 ≤ cur)
    (hlt : cur ≤ c.maxSize) (hscan : ∀ h, isSet s.mask h = true → (h : ℤ) < cur) :
    ∃ x, setMax s cur = some { s with maxHandle := x } ∧ IsMax s.mask x := by
  by_cases hnil : handles s.mask = []
  · rw [hnil, List.length_nil, Nat.cast_zero] at hsize
    refine ⟨invalidHandle, ?_, Or.inl ⟨handles_eq_nil.mp hnil, rfl⟩⟩
    have hsanity : ¬invalidHandle ≥ (c.maxSize : ℤ) := by
      rw [invalidHandle]
      omega
    rw [setMax, if_pos hsize]
    simp only [Option.map_some, if_neg hsanity]
  · obtain ⟨a, ha, hmax⟩ := exists_max hnil
    have hne : s.size ≠ 0 := by
      rw [hsize]
      exact_mod_cast fun h => hnil (List.length_eq_zero_iff.mp h)
    have hle := c.le
    have hacur := hscan a ha
    have hpos := c.pos
    obtain ⟨i, hi⟩ : ∃ i : ℕ, (cur - 1).tdiv 64 = i ∧ a / 64 ≤ i ∧ i < c.numWords := by
      refine ⟨(cur - 1).toNat / 64, ?_, by omega, by omega⟩
      rw [Int.tdiv_eq_ediv_of_nonneg (by omega)]
      omega
    refine ⟨a, ?_, Or.inr ⟨a, ha, hmax, rfl⟩⟩
    have hword : a / 64 < c.numWords := by omega
    have htop : topBit (s.mask ⟨a / 64, hword⟩) = a % 64 := by
      refine topBit_eq (by rw [← isSet_of_lt hword]; exact ha) fun i hi => ?_
      by_contra hset
      rw [Bool.not_eq_false] at hset
      rcases Nat.lt_or_ge i 64 with hlt64 | hge
      · have hle := hmax (64 * (a / 64) + i) (by rwa [isSet_word hword hlt64])
        omega
      · rw [← BitVec.getLsbD, BitVec.getLsbD_of_ge _ _ hge] at hset
        cases hset
    have hsanity : ¬(a : ℤ) ≥ c.maxSize := by
      have := hrange a ha
      omega
    have hsum : a / 64 * 64 + a % 64 = a := by omega
    rw [setMax, if_neg hne, hi.1, Int.toNat_natCast, lastWord_eq ha hmax hi.2.1 hi.2.2]
    simp only [maskp_of_lt hword, Option.map_some, htop, hsum, if_neg hsanity]

/-! ### The operations -/

/-- **The cached fields are right**, and no handle is out of range. -/
structure Cached (s : HandleSet c) : Prop where
  size : s.size = (handles s.mask).length
  maxHandle : IsMax s.mask s.maxHandle
  inRange : ∀ h, isSet s.mask h = true → h < c.maxSize

theorem isSet_zero (h : ℕ) : isSet (fun _ => 0 : FdSet c) h = false := by
  rcases Nat.lt_or_ge (h / 64) c.numWords with hlt | hle
  · rw [isSet_of_lt hlt]
    simp
  · exact isSet_of_le hle

theorem cached_reset : Cached (reset c) := by
  have hnil : handles (reset c).mask = [] := handles_eq_nil.mpr isSet_zero
  refine ⟨by rw [hnil]; rfl, Or.inl ⟨isSet_zero, rfl⟩, fun h hs => ?_⟩
  rw [show (reset c).mask = fun _ => 0 from rfl, isSet_zero] at hs
  cases hs

/-- Adding a handle makes it the largest one, or leaves the largest one. -/
theorem IsMax.add {m' : FdSet c} {x : ℤ} (h : IsMax m x) {a : ℕ}
    (hadd : ∀ y, isSet m' y = true ↔ y = a ∨ isSet m y = true) :
    IsMax m' (if (a : ℤ) > x then a else x) := by
  rcases h with ⟨hnone, rfl⟩ | ⟨b, hb, hmax, rfl⟩
  · rw [if_pos (by rw [invalidHandle]; omega)]
    refine Or.inr ⟨a, (hadd a).mpr (Or.inl rfl), fun y hy => ?_, rfl⟩
    rcases (hadd y).mp hy with rfl | hy
    · exact le_refl y
    · rw [hnone y] at hy
      cases hy
  · split_ifs with hgt
    · refine Or.inr ⟨a, (hadd a).mpr (Or.inl rfl), fun y hy => ?_, rfl⟩
      rcases (hadd y).mp hy with rfl | hy
      · exact le_refl y
      · have := hmax y hy
        omega
    · refine Or.inr ⟨b, (hadd b).mpr (Or.inr hb), fun y hy => ?_, rfl⟩
      rcases (hadd y).mp hy with rfl | hy
      · omega
      · exact hmax y hy

/-- **`set_bit`** keeps the fields right. -/
theorem Cached.setBit (h : Cached s) (handle : Fin c.maxSize) : Cached (setBit s handle) := by
  rw [HandleSet.setBit]
  by_cases hset : isSet s.mask handle = true
  · rwa [if_pos hset]
  · rw [if_neg hset]
    have hadd := isSet_fdSet s.mask handle
    refine ⟨?_, h.maxHandle.add hadd, fun y hy => ?_⟩
    · rw [length_handles_add (by simpa using hset) hadd, h.size]
      rfl
    · rcases (hadd y).mp hy with rfl | hy
      · exact handle.isLt
      · exact h.inRange y hy

/-- **`clr_bit`** keeps the fields right. -/
theorem Cached.clrBit (h : Cached s) (handle : Fin c.maxSize) :
    ∃ t, clrBit s handle = some t ∧ Cached t := by
  rw [HandleSet.clrBit]
  by_cases hset : isSet s.mask handle = true
  · have hclr := isSet_fdClr s.mask handle
    have hadd : ∀ x, isSet s.mask x = true ↔ x = handle ∨ isSet (fdClr s.mask handle) x = true := by
      intro x
      rw [hclr]
      rcases eq_or_ne x handle with rfl | hne
      · simp [hset]
      · simp [hne]
    have hnot : isSet (fdClr s.mask handle) handle = false := by
      rw [← Bool.not_eq_true, hclr]
      exact fun hc => hc.1 rfl
    have hlen := length_handles_add hnot hadd
    have hsize : s.size - 1 = (handles (fdClr s.mask handle)).length := by
      rw [h.size, hlen]
      push_cast
      omega
    have hrange : ∀ y, isSet (fdClr s.mask handle) y = true → y < c.maxSize := fun y hy =>
      h.inRange y ((hclr y).mp hy).2
    obtain ⟨hnone, -⟩ | ⟨a, ha, hmax, hx⟩ := h.maxHandle
    · rw [hnone] at hset
      cases hset
    · rw [if_pos hset]
      by_cases heq : (handle : ℤ) = s.maxHandle
      · have ha' : a = handle := by omega
        obtain ⟨x, hmaxset, hxmax⟩ := setMax_spec
          (s := { s with size := s.size - 1, mask := fdClr s.mask handle }) s.maxHandle hsize hrange
          (by omega) (by have := handle.isLt; omega) fun y hy => by
            have hy := (hclr y).mp hy
            have := hmax y hy.2
            omega
        exact ⟨{ s with size := s.size - 1, maxHandle := x, mask := fdClr s.mask handle },
          by simp only [if_pos heq, hmaxset], hsize, hxmax, hrange⟩
      · refine ⟨_, if_neg heq, hsize, Or.inr ⟨a, ?_, fun y hy => ?_, hx⟩, hrange⟩
        · exact (hclr a).mpr ⟨by omega, ha⟩
        · exact hmax y ((hclr y).mp hy).2
  · exact ⟨s, if_neg hset, h⟩

/-! ### `sync` -/

/-- The word of the last handle of the range. -/
theorem lastWord_maxSize (c : FdConfig) :
    ((c.maxSize - 1 : ℤ).tdiv 64).toNat = (c.maxSize - 1) / 64 ∧
      (c.maxSize - 1) / 64 < c.numWords ∧ c.maxSize ≤ 64 * ((c.maxSize - 1) / 64 + 1) := by
  have hpos := c.pos
  have hle := c.le
  rw [Int.tdiv_eq_ediv_of_nonneg (by omega)]
  omega

/-- The handles that `sync` counts: those of the words it reads, at which its variant of
`count_bits` looks. -/
def counted (v : CountVariant) (m : FdSet c) : List ℕ :=
  (handles m).filter fun h => decide (Counted v h ∧ h < 64 * ((c.maxSize - 1) / 64 + 1))

theorem countWords_maxSize (v : CountVariant) (m : FdSet c) :
    countWords v m ((c.maxSize - 1) / 64) = some (counted v m).length := by
  obtain ⟨-, hlt, -⟩ := lastWord_maxSize c
  obtain ⟨k, hk⟩ := Nat.exists_eq_add_of_le
    (Nat.mul_le_mul_left 64 (Nat.succ_le_of_lt hlt))
  have hrest : (List.map (fun x => 64 * ((c.maxSize - 1) / 64).succ + x) (List.range k)).countP
      (fun h => isSet m h && decide (Counted v h ∧ h < 64 * ((c.maxSize - 1) / 64 + 1))) = 0 := by
    rw [List.countP_map, List.countP_eq_zero]
    intro x _
    have hnot : ¬64 * ((c.maxSize - 1) / 64).succ + x < 64 * ((c.maxSize - 1) / 64 + 1) := by omega
    simp [hnot]
  rw [countWords_eq v hlt, counted, handles, List.filter_filter, ← List.countP_eq_length_filter, hk,
    List.range_add, List.countP_append]
  simp only [Bool.and_comm (decide _)] at *
  rw [hrest, Nat.add_zero]
  refine congrArg some (List.countP_congr fun h hh => ?_)
  have hlt := List.mem_range.mp hh
  simp only [Bool.and_eq_true, decide_eq_true_iff]
  exact ⟨fun hc => ⟨hc.1, hc.2, hlt⟩, fun hc => ⟨hc.1, hc.2.1⟩⟩

/-- **When `sync` is right** about a mask: no handle is out of range, and its variant of
`count_bits` looks at every handle. -/
def Synced (v : CountVariant) (m : FdSet c) : Prop :=
  ∀ h, isSet m h = true → Counted v h ∧ h < c.maxSize

theorem counted_eq (hm : Synced v m) : counted v m = handles m := by
  rw [counted, List.filter_eq_self]
  intro h hh
  have hs := hm h (mem_handles.mp hh)
  have hle := (lastWord_maxSize c).2.2
  simpa using ⟨hs.1, by omega⟩

/-- **`sync`** sets the fields right. -/
theorem sync_spec (s : HandleSet c) (hm : Synced v m) :
    ∃ t, sync v { s with mask := m } c.maxSize = some t ∧ t.mask = m ∧ Cached t := by
  have hrange : ∀ h, isSet m h = true → h < c.maxSize := fun h hs => (hm h hs).2
  obtain ⟨x, hset, hmax⟩ := setMax_spec (s := ⟨(handles m).length, s.maxHandle, m⟩)
    c.maxSize rfl hrange (Int.natCast_nonneg _) (le_refl _) fun h hs => by
      exact_mod_cast hrange h hs
  refine ⟨⟨(handles m).length, x, m⟩, ?_, rfl, rfl, hmax, hrange⟩
  rw [sync, (lastWord_maxSize c).1, countWords_maxSize, counted_eq hm]
  exact hset

theorem maxHandle_setMax_lt {cur : ℤ} {t : HandleSet c} (h : setMax s cur = some t) :
    t.maxHandle < c.maxSize ∧ t.size = s.size ∧ t.mask = s.mask := by
  rw [setMax, Option.map_eq_some_iff] at h
  obtain ⟨x, -, rfl⟩ := h
  refine ⟨?_, rfl, rfl⟩
  dsimp only
  split_ifs <;> omega

theorem mask_sync {t : HandleSet c} (h : sync v { s with mask := m } c.maxSize = some t) :
    t.mask = m := by
  rw [sync, (lastWord_maxSize c).1, countWords_maxSize] at h
  exact (maxHandle_setMax_lt h).2.2

/-- **Only then**: the fields are not right after `sync` of any other mask. -/
theorem synced_of_sync {s t : HandleSet c}
    (h : sync v { s with mask := m } c.maxSize = some t) (hsize : t.size = (handles m).length)
    (hmax : IsMax m t.maxHandle) : Synced v m := by
  rw [sync, (lastWord_maxSize c).1, countWords_maxSize] at h
  obtain ⟨hlt, hsize', -⟩ := maxHandle_setMax_lt h
  have hlen : (counted v m).length = (handles m).length :=
    Int.ofNat.inj (hsize'.symm.trans hsize)
  have heq : counted v m = handles m := List.filter_sublist.eq_of_length hlen
  intro x hx
  have hc := List.filter_eq_self.mp heq x (mem_handles.mpr hx)
  rcases hmax with ⟨hnone, -⟩ | ⟨a, -, hle, ha⟩
  · rw [hnone] at hx
    cases hx
  · have hxa := hle x hx
    exact ⟨(of_decide_eq_true hc).1, by omega⟩

/-! ### Runs -/

/-- The operations on a handle set: its own, and the assignment of any mask followed by
`sync (MAXSIZE)`. -/
inductive Command (c : FdConfig)
  | setBit (handle : Fin c.maxSize)
  | clrBit (handle : Fin c.maxSize)
  | reset
  | sync (mask : FdSet c)

/-- One operation. -/
def step (v : CountVariant) (s : HandleSet c) : Command c → Option (HandleSet c × Unit)
  | .setBit handle => some (setBit s handle, ())
  | .clrBit handle => (clrBit s handle).map (·, ())
  | .reset => some (HandleSet.reset c, ())
  | .sync mask => (sync v { s with mask := mask } c.maxSize).map (·, ())

/-- A mask is synchronised when `sync` is right about it. -/
def SyncOk (v : CountVariant) (_ : HandleSet c) : Command c → Prop
  | .sync mask => Synced v mask
  | _ => True

/-- One operation keeps the fields right. -/
theorem Cached.step (h : Cached s) (cmd : Command c) (hok : SyncOk v s cmd) :
    ∃ t, HandleSet.step v s cmd = some (t, ()) ∧ Cached t := by
  rcases cmd with handle | handle | _ | mask
  · exact ⟨_, rfl, h.setBit handle⟩
  · obtain ⟨t, ht, hc⟩ := h.clrBit handle
    exact ⟨t, by rw [HandleSet.step, ht]; rfl, hc⟩
  · exact ⟨_, rfl, cached_reset⟩
  · obtain ⟨t, ht, -, hc⟩ := sync_spec s hok
    exact ⟨t, by rw [HandleSet.step, ht]; rfl, hc⟩

/-- **Runs** keep the fields right. -/
theorem Cached.run (h : Cached s) (cmds : List (Command c))
    (hok : Machine.Guarded (HandleSet.step v) (SyncOk v) s cmds) :
    ∃ t os, Machine.run (HandleSet.step v) s cmds = some (t, os) ∧ Cached t :=
  Machine.run_isSome_of_guarded (fun _ cmd h hok => by
    obtain ⟨t, ht, hc⟩ := h.step cmd hok
    exact ⟨t, (), ht, hc⟩) h hok

end HandleSet

end AceTao
