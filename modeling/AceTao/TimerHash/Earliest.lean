import Mathlib.Order.Bounds.Basic
import AceTao.TimerHash.Basic

/-!
# The bucket with the earliest timer

`is_empty` and `earliest_time` look at the bucket `earliest_position_` only. What they need
is `AceTao.TimerHash.Earliest`: that bucket has a timer if any has, and no timer is before its
first one. A timer that goes into a bucket keeps this (`AceTao.TimerHash.Earliest.noteEarlier`).
When a timer is taken out, `find_new_earliest` scans the table; but it takes an earliest time
of zero for that of an empty bucket and moves on to any bucket with a timer. A timer at time
zero is in the first bucket, so the scan is right when there is none, or when all timers are
in the first bucket (`AceTao.TimerHash.Placed.findNewEarliest`).
-/

namespace AceTao

namespace TimerHash

open TimeValue (zero)
open TimerBucket (nodes)
open LawfulTimerBucket

variable {B α β : Type} [TimerBucket B α ℤ] [LawfulTimerBucket B α ℤ] {s s' : TimerHash B α β}

/-- **The timers are in their buckets**, and none is before the epoch. -/
structure Placed (s : TimerHash B α β) : Prop where
  pos : s.earliestPosition < s.tableSize
  valid : ∀ i, Valid (s.table i)
  epoch : ∀ i, ∀ n ∈ nodes (s.table i), zero ≤ n.timerValue
  bucket : ∀ i, ∀ n ∈ nodes (s.table i), s.position n.timerValue = i

/-- **The bucket `earliest_position_`** has a timer if any has, and no timer is before its
`earliest_time`. -/
def Earliest (s : TimerHash B α β) : Prop :=
  ∀ i, ∀ n ∈ nodes (s.table i), s.isEmpty = false ∧ s.earliestTime ≤ n.timerValue

/-- **What `is_empty` and `earliest_time` are meant to say**. -/
def EarliestKnown (s : TimerHash B α β) : Prop :=
  (s.isEmpty = true ↔ ∀ i < s.tableSize, nodes (s.table i) = []) ∧
    (s.isEmpty = false →
      IsLeast {t | ∃ i < s.tableSize, ∃ n ∈ nodes (s.table i), n.timerValue = t} s.earliestTime)

namespace Placed

theorem lt_tableSize (h : Placed s) {i : ℕ} {n : TimerNode α ℤ} (hn : n ∈ nodes (s.table i)) :
    i < s.tableSize :=
  h.bucket i n hn ▸ position_lt ((Nat.zero_le _).trans_lt h.pos) _

theorem earliestKnown (h : Placed s) (he : Earliest s) : EarliestKnown s := by
  refine ⟨⟨fun hempty i _ => ?_, fun hall => ?_⟩, fun hempty => ⟨?_, ?_⟩⟩
  · refine List.eq_nil_iff_forall_not_mem.mpr fun n hn => ?_
    exact Bool.false_ne_true ((he i n hn).1.symm.trans hempty)
  · exact (LawfulTimerBucket.isEmpty_iff _).mpr (hall _ h.pos)
  · obtain ⟨n, hn, heq⟩ := exists_earliestTime (h.valid _) (isEmpty_eq_false.mp hempty)
    exact ⟨_, h.pos, n, hn, heq⟩
  · rintro t ⟨i, -, n, hn, rfl⟩
    exact (he i n hn).2

/-- One bucket changes. -/
theorem update (h : Placed s) {i : ℕ} {b : B} (hb : Valid b)
    (hn : ∀ n ∈ nodes b, zero ≤ n.timerValue ∧ s.position n.timerValue = i)
    (htable : s'.table = Function.update s.table i b) (hsize : s'.tableSize = s.tableSize)
    (hpos : s'.earliestPosition < s.tableSize) : Placed s' := by
  have hcases : ∀ j, s'.table j = b ∧ j = i ∨ s'.table j = s.table j := fun j => by
    rw [htable]
    rcases eq_or_ne j i with rfl | hne
    · exact Or.inl ⟨Function.update_self .., rfl⟩
    · exact Or.inr (Function.update_of_ne hne ..)
  refine ⟨hsize ▸ hpos, fun j => ?_, fun j n hj => ?_, fun j n hj => ?_⟩
  · rcases hcases j with ⟨heq, -⟩ | heq
    · exact heq ▸ hb
    · exact heq ▸ h.valid j
  · rcases hcases j with ⟨heq, -⟩ | heq
    · exact (hn n (heq ▸ hj)).1
    · exact h.epoch j n (heq ▸ hj)
  · rw [position_congr hsize]
    rcases hcases j with ⟨heq, rfl⟩ | heq
    · exact (hn n (heq ▸ hj)).2
    · exact h.bucket j n (heq ▸ hj)

/-- Timers leave one bucket. -/
theorem shrink (h : Placed s) {i : ℕ} {b : B} (hb : Valid b) (hsub : nodes b ⊆ nodes (s.table i))
    (htable : s'.table = Function.update s.table i b) (hsize : s'.tableSize = s.tableSize)
    (hpos : s'.earliestPosition < s.tableSize) : Placed s' :=
  h.update hb (fun n hn => ⟨h.epoch i n (hsub hn), h.bucket i n (hsub hn)⟩) htable hsize hpos

/-- Only the table and its earliest bucket matter. -/
theorem congr (h : Placed s) (htable : s'.table = s.table) (hsize : s'.tableSize = s.tableSize)
    (hpos : s'.earliestPosition < s.tableSize) : Placed s' :=
  h.shrink (h.valid 0) (List.Subset.refl _) (htable.trans (Function.update_eq_self 0 _).symm) hsize
    hpos

end Placed

omit [LawfulTimerBucket B α ℤ] in
theorem Earliest.congr (h : Earliest s) (htable : s'.table = s.table)
    (hpos : s'.earliestPosition = s.earliestPosition) : Earliest s' := by
  rw [Earliest, isEmpty, earliestTime, htable, hpos]
  exact h

/-! ### A timer goes in -/

/-- **A timer goes into the bucket `pos`**, and the comparison of that bucket with the earliest
one suffices. -/
theorem Earliest.noteEarlier (he : Earliest s) (h : Placed s) {pos : ℕ} {b : B} (hb : Valid b)
    (hne : nodes b ≠ []) (hsub : nodes (s.table pos) ⊆ nodes b)
    (htable : s'.table = Function.update s.table pos b)
    (hpos : s'.earliestPosition = s.earliestPosition) : Earliest (s'.noteEarlier pos) := by
  have hself : s'.table pos = b := by rw [htable, Function.update_self]
  have hother : ∀ i, i ≠ pos → s'.table i = s.table i := fun i hi => by
    rw [htable, Function.update_of_ne hi]
  have hle : ∀ n ∈ nodes b, TimerQueue.earliestTime b ≤ n.timerValue := fun n hn =>
    earliestTime_le hb hn
  rw [TimerHash.noteEarlier, hpos, hself]
  split_ifs with hcond
  · intro i n hn
    rw [isEmpty, earliestTime]
    dsimp only at hn ⊢
    rw [hself]
    refine ⟨isEmpty_eq_false.mpr hne, ?_⟩
    rcases eq_or_ne i pos with rfl | hi
    · exact hle n (hself ▸ hn)
    · obtain ⟨hempty, hearliest⟩ := he i n (hother i hi ▸ hn)
      have hcur : s.earliestPosition ≠ pos := fun hcon => by
        rw [hcon, hself] at hcond
        rcases hcond with hcond | hcond
        · exact hne ((LawfulTimerBucket.isEmpty_iff b).mp hcond)
        · exact absurd hcond (lt_irrefl _)
      rw [hother _ hcur] at hcond
      rcases hcond with hcond | hcond
      · exact absurd (hcond.symm.trans hempty) (by decide)
      · exact hcond.le.trans hearliest
  · obtain ⟨hfull, hlt⟩ := not_or.mp hcond
    intro i n hn
    rw [isEmpty, earliestTime, hpos]
    refine ⟨Bool.not_eq_true _ ▸ hfull, ?_⟩
    rcases eq_or_ne i pos with rfl | hi
    · exact (not_lt.mp hlt).trans (hle n (hself ▸ hn))
    · obtain ⟨hempty, hearliest⟩ := he i n (hother i hi ▸ hn)
      rcases eq_or_ne s.earliestPosition pos with hcur | hcur
      · rw [hcur, hself]
        refine le_trans ?_ hearliest
        rw [earliestTime, hcur]
        rw [isEmpty, hcur] at hempty
        exact earliestTime_mono (h.valid pos) hb (isEmpty_eq_false.mp hempty) hsub
      · rwa [hother _ hcur]

/-! ### The scan -/

/-- **The scan is safe**: a timer at time zero leaves no timer outside the first bucket. -/
def ScanSafe (s : TimerHash B α β) : Prop :=
  (∃ n ∈ nodes (s.table 0), n.timerValue = zero) → ∀ i, i ≠ 0 → nodes (s.table i) = []

/-- The scan without the test for zero. -/
theorem scanBucket_of_ne_zero {e i : ℕ} (h : nodes (s.table e) ≠ [] →
    TimerQueue.earliestTime (s.table e) ≠ zero) : s.scanBucket e i
      = if nodes (s.table i) ≠ [] ∧ (nodes (s.table e) = [] ∨
          TimerQueue.earliestTime (s.table i) ≤ TimerQueue.earliestTime (s.table e)) then i
        else e := by
  rw [scanBucket]
  refine if_congr ?_ rfl rfl
  rw [LawfulTimerBucket.isEmpty_iff, LawfulTimerBucket.isEmpty_iff]
  refine and_congr_right fun _ => ?_
  constructor
  · rintro (hempty | hzero | hle)
    · exact Or.inl hempty
    · exact Or.inl (by_contra fun hne => h hne hzero)
    · exact Or.inr hle
  · exact Or.imp_right Or.inr

/-- **The scan finds a minimum**, when no timer is at time zero. The induction is on the number
of buckets that have been scanned. -/
theorem scan_of_ne_zero (h : ∀ i, nodes (s.table i) ≠ [] →
    TimerQueue.earliestTime (s.table i) ≠ zero) (e k : ℕ) :
    ∀ i < k, nodes (s.table i) ≠ [] →
      nodes (s.table ((List.range k).foldl s.scanBucket e)) ≠ [] ∧
      TimerQueue.earliestTime (s.table ((List.range k).foldl s.scanBucket e))
        ≤ TimerQueue.earliestTime (s.table i) := by
  induction k with
  | zero => exact fun i hi => absurd hi (Nat.not_lt_zero i)
  | succ k ih =>
    intro i hi hne
    rw [List.range_succ, List.foldl_append, List.foldl_cons, List.foldl_nil,
      scanBucket_of_ne_zero (h _)]
    generalize (List.range k).foldl s.scanBucket e = e' at ih ⊢
    split_ifs with hcond
    · refine ⟨hcond.1, ?_⟩
      rcases Nat.lt_succ_iff_lt_or_eq.mp hi with hi | rfl
      · obtain ⟨hfull, hle⟩ := ih i hi hne
        exact (hcond.2.resolve_left hfull).trans hle
      · exact le_rfl
    · rcases Nat.lt_succ_iff_lt_or_eq.mp hi with hi | rfl
      · exact ih i hi hne
      · obtain ⟨hfull, hle⟩ := not_or.mp fun hcon => hcond ⟨hne, hcon⟩
        exact ⟨hfull, (not_le.mp hle).le⟩

/-- **The scan ends at the first bucket**, when all timers are there. -/
theorem scan_of_first (h : ∀ i, i ≠ 0 → nodes (s.table i) = []) (h₀ : nodes (s.table 0) ≠ [])
    (e k : ℕ) : (List.range (k + 1)).foldl s.scanBucket e = 0 := by
  induction k with
  | zero =>
    rw [zero_add, List.range_one, List.foldl_cons, List.foldl_nil, scanBucket]
    split_ifs with hcond
    · rfl
    · by_contra he
      exact hcond ⟨fun hcon => h₀ ((LawfulTimerBucket.isEmpty_iff _).mp hcon),
        Or.inl ((LawfulTimerBucket.isEmpty_iff _).mpr (h e he))⟩
  | succ k ih =>
    rw [List.range_succ, List.foldl_append, ih, List.foldl_cons, List.foldl_nil, scanBucket,
      if_neg fun hcond =>
        hcond.1 ((LawfulTimerBucket.isEmpty_iff _).mpr (h _ (Nat.succ_ne_zero k)))]

omit [LawfulTimerBucket B α ℤ] in
theorem scan_lt {e k n : ℕ} (he : e < n) (hk : k ≤ n) :
    (List.range k).foldl s.scanBucket e < n := by
  induction k with
  | zero => exact he
  | succ k ih =>
    rw [List.range_succ, List.foldl_append, List.foldl_cons, List.foldl_nil, scanBucket]
    split_ifs
    · exact hk
    · exact ih (by omega)

namespace Placed

theorem findNewEarliest (h : Placed s) : Placed s.findNewEarliest :=
  h.congr rfl rfl (scan_lt h.pos le_rfl)

/-- **`find_new_earliest` finds the earliest bucket** when the scan is safe. -/
theorem findNewEarliest_earliest (h : Placed s) (hsafe : ScanSafe s) :
    Earliest s.findNewEarliest := by
  by_cases hzero : ∃ n ∈ nodes (s.table 0), n.timerValue = zero
  · have hfirst := hsafe hzero
    obtain ⟨n₀, hn₀, -⟩ := hzero
    have h₀ := List.ne_nil_of_mem hn₀
    obtain ⟨k, hk⟩ := Nat.exists_eq_succ_of_ne_zero (h.lt_tableSize hn₀).ne'
    have hpos : s.findNewEarliest.earliestPosition = 0 := by
      rw [TimerHash.findNewEarliest, hk]
      exact scan_of_first hfirst h₀ _ k
    intro i n hn
    rw [isEmpty, earliestTime, hpos]
    rcases eq_or_ne i 0 with rfl | hi
    · exact ⟨isEmpty_eq_false.mpr h₀, earliestTime_le (h.valid 0) hn⟩
    · exact absurd (hfirst i hi) (List.ne_nil_of_mem hn)
  · have hne : ∀ i, nodes (s.table i) ≠ [] → TimerQueue.earliestTime (s.table i) ≠ zero := by
      intro i hi heq
      obtain ⟨n, hn, hnt⟩ := exists_earliestTime (h.valid i) hi
      have hi₀ : i = 0 := by rw [← h.bucket i n hn, hnt, heq, position_zero]
      exact hzero ⟨n, hi₀ ▸ hn, hnt.trans heq⟩
    intro i n hn
    obtain ⟨hfull, hle⟩ := scan_of_ne_zero hne s.earliestPosition s.tableSize i (h.lt_tableSize hn)
      (List.ne_nil_of_mem hn)
    exact ⟨isEmpty_eq_false.mpr hfull, hle.trans (earliestTime_le (h.valid i) hn)⟩

end Placed

end TimerHash

end AceTao
