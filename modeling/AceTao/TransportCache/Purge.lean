import AceTao.TransportCache.Lookup
import Mathlib.Data.List.Sort
import Mathlib.Tactic.Linarith

/-!
# Which transports are purged

`purge` closes the transports of the entries that can be purged, in the order of their purging
orders, until it has closed the amount that the percentage gives (`TransportCache.purgeLoop_takes`).
The entries are sorted by `qsort`, or by an insertion sort (`TransportCache.sortSet`) where the
library lacks it: any way to sort them will do.

The comment in the code promises that a cache that has to be purged is purged of at least one entry.
The amount is the percentage rounded down, so that this is so only from a hundred on
(`TransportCache.purgesRight_iff`).
-/

namespace AceTao

namespace TransportCache

variable {E T : Type}

/-! ### Sorting -/

/-- **A way to sort** the entries by their purging orders. -/
def Sorts (order : ℕ → ℕ) (sort : List (CacheEntry E T) → List (CacheEntry E T)) : Prop :=
  ∀ es, (sort es).Perm es ∧ (sort es).Pairwise fun e e' => order e.id ≤ order e'.id

/-- The inner loop of the insertion sort: the entry changes places with those in front of it, the
nearest first, as long as their orders are larger. -/
def sink (order : ℕ → ℕ) (entry : CacheEntry E T) : List (CacheEntry E T) → List (CacheEntry E T)
  | [] => [entry]
  | e :: before => if order e.id > order entry.id then e :: sink order entry before
      else entry :: e :: before

/-- The outer loop; what has been sorted is given from its end. -/
def sortLoop (order : ℕ → ℕ) :
    List (CacheEntry E T) → List (CacheEntry E T) → List (CacheEntry E T)
  | before, [] => before.reverse
  | before, entry :: es => sortLoop order (sink order entry before) es

/-- **`sort_set`**, where there is no `qsort`. -/
def sortSet (order : ℕ → ℕ) (es : List (CacheEntry E T)) : List (CacheEntry E T) :=
  sortLoop order [] es

theorem perm_sink (order : ℕ → ℕ) (entry : CacheEntry E T) (before : List (CacheEntry E T)) :
    (sink order entry before).Perm (entry :: before) := by
  induction before with
  | nil => exact .refl _
  | cons e before ih =>
    rw [sink]
    split_ifs
    · exact (ih.cons e).trans (.swap entry e before)
    · exact .refl _

theorem pairwise_sink {order : ℕ → ℕ} {before : List (CacheEntry E T)}
    (h : before.Pairwise fun e e' => order e'.id ≤ order e.id) (entry : CacheEntry E T) :
    (sink order entry before).Pairwise fun e e' => order e'.id ≤ order e.id := by
  induction before with
  | nil => exact List.pairwise_singleton _ _
  | cons e before ih =>
    obtain ⟨hfirst, hrest⟩ := List.pairwise_cons.mp h
    rw [sink]
    split_ifs with hlt
    · refine List.pairwise_cons.mpr ⟨fun e' he' => ?_, ih hrest⟩
      rcases List.mem_cons.mp ((perm_sink order entry before).mem_iff.mp he') with rfl | hmem
      · exact hlt.le
      · exact hfirst e' hmem
    · have hle := not_lt.mp hlt
      refine List.pairwise_cons.mpr ⟨fun e' he' => ?_, h⟩
      rcases List.mem_cons.mp he' with rfl | hmem
      · exact hle
      · exact (hfirst e' hmem).trans hle

/-- **The insertion sort** sorts. -/
theorem sorts_sortSet (order : ℕ → ℕ) :
    Sorts order (sortSet order : List (CacheEntry E T) → List (CacheEntry E T)) := by
  have hloop (es : List (CacheEntry E T)) : ∀ before : List (CacheEntry E T),
      (before.Pairwise fun e e' => order e'.id ≤ order e.id) →
      (sortLoop order before es).Perm (before ++ es) ∧
        (sortLoop order before es).Pairwise fun e e' => order e.id ≤ order e'.id := by
    induction es with
    | nil =>
      intro before hbefore
      rw [List.append_nil]
      exact ⟨List.reverse_perm before, List.pairwise_reverse.mpr hbefore⟩
    | cons entry es ih =>
      intro before hbefore
      obtain ⟨hperm, hsorted⟩ := ih _ (pairwise_sink hbefore entry)
      exact ⟨hperm.trans (((perm_sink order entry before).append_right es).trans
        List.perm_middle.symm), hsorted⟩
  exact fun es => hloop es [] List.Pairwise.nil

theorem sorts_mergeSort (order : ℕ → ℕ) : Sorts order fun es : List (CacheEntry E T) =>
    es.mergeSort fun e e' => order e.id ≤ order e'.id := by
  intro es
  refine ⟨List.mergeSort_perm es _, ?_⟩
  have hsorted := @List.pairwise_mergeSort _
    (fun e e' : CacheEntry E T => decide (order e.id ≤ order e'.id))
    (fun a b c hab hbc => by simp only [decide_eq_true_eq] at hab hbc ⊢; exact hab.trans hbc)
    (fun a b => by simp only [Bool.or_eq_true, decide_eq_true_eq]; exact le_total _ _) es
  exact hsorted.imp fun h => of_decide_eq_true h

/-! ### The loop -/

/-- **What the loop takes**: of sorted entries the first that can be purged, until the amount is
reached or none is left. -/
theorem purgeLoop_takes (s : TransportState T) {order : ℕ → ℕ} (amount : ℤ)
    {es : List (CacheEntry E T)} (hsorted : es.Pairwise fun e e' => order e.id ≤ order e'.id)
    (count : ℤ) (c : TransportCache E T) :
    ∃ chosen left, (chosen ++ left).Perm es ∧
      (purgeLoop s amount es count c).2 = chosen.map CacheEntry.transport ∧
      (chosen.length : ℤ) ≤ max 0 (amount - count) ∧ (∀ e ∈ chosen, c.isEntryPurgable s e) ∧
      (∀ e ∈ left, c.isEntryPurgable s e → ∀ e' ∈ chosen, order e'.id ≤ order e.id) ∧
      (chosen = [] → count < amount → ∀ e ∈ es, ¬c.isEntryPurgable s e) := by
  induction es generalizing count c with
  | nil =>
    exact ⟨[], [], .refl _, rfl, le_max_left _ _, List.forall_mem_nil _, List.forall_mem_nil _,
      fun _ _ => List.forall_mem_nil _⟩
  | cons e es ih =>
    obtain ⟨hfirst, hrest⟩ := List.pairwise_cons.mp hsorted
    rw [purgeLoop]
    split_ifs with hcount hpurgable
    · obtain ⟨chosen, left, hperm, hclosed, hlen, hall, hleft, -⟩ :=
        ih hrest (count + 1) (c.modify e.id (CacheEntry.recycleState .busy))
      refine ⟨e :: chosen, left, hperm.cons e, congrArg (e.transport :: ·) hclosed, ?_,
        List.forall_mem_cons.mpr ⟨hpurgable, hall⟩, fun e' he' hp => ?_, (fun h => by cases h)⟩
      · rw [List.length_cons]
        omega
      · refine List.forall_mem_cons.mpr ⟨?_, hleft e' he' hp⟩
        exact hfirst e' (hperm.mem_iff.mp (List.mem_append_right _ he'))
    · -- the entry is passed
      obtain ⟨chosen, left, hperm, hclosed, hlen, hall, hleft, hnone⟩ := ih hrest count c
      refine ⟨chosen, e :: left, List.perm_middle.trans (hperm.cons e), hclosed, hlen, hall,
        List.forall_mem_cons.mpr ⟨fun hp => absurd hp hpurgable, hleft⟩, fun hnil hlt => ?_⟩
      exact List.forall_mem_cons.mpr ⟨hpurgable, hnone hnil hlt⟩
    · exact ⟨[], e :: es, .refl _, rfl, le_max_left _ _, List.forall_mem_nil _, fun _ _ _ => List.forall_mem_nil _,
        fun _ hlt => absurd hlt hcount⟩

/-! ### Purging -/

/-- The `amount`, an `int`. -/
def purgeAmount (cfg : CacheConfig) (c : TransportCache E T) : ℤ :=
  ((c.intSize * cfg.percent).bmod (2 ^ 32)).tdiv 100

/-- **`purge`**, with a way to sort the entries. -/
def purgeWith (sort : List (CacheEntry E T) → List (CacheEntry E T)) (cfg : CacheConfig)
    (s : TransportState T) (memory : Bool) (c : TransportCache E T) :
    TransportCache E T × List T :=
  if 0 ≤ cfg.strategyMaximum && cfg.strategyMaximum ≤ c.intSize && memory then
    purgeLoop s (c.purgeAmount cfg) (sort (c.cacheMap.take c.intSize.toNat)) 0 c
  else (c, [])

theorem purge_eq_purgeWith (cfg : CacheConfig) (s : TransportState T) (order : ℕ → ℕ)
    (memory : Bool) (c : TransportCache E T) : c.purge cfg s order memory =
      c.purgeWith (fun es => es.mergeSort fun e e' => order e.id ≤ order e'.id) cfg s memory := by
  rw [purge, purgeWith, fillSet]
  split_ifs
  · rfl
  · rfl

/-- **The right transports are closed**: at least one and not too many, all of which could be
purged, and none that could be is left in front of them. -/
def PurgesRight (cfg : CacheConfig) (s : TransportState T) (order : ℕ → ℕ)
    (c : TransportCache E T) (closed : List T) : Prop :=
  if cfg.strategyMaximum ≤ c.currentSize ∧ ∃ e ∈ c.cacheMap, c.isEntryPurgable s e then
    ∃ chosen left : List (CacheEntry E T), (chosen ++ left).Perm c.cacheMap ∧
      closed = chosen.map CacheEntry.transport ∧ 1 ≤ chosen.length ∧
      (chosen.length : ℤ) ≤ max 1 (c.currentSize * cfg.percent / 100) ∧
      (∀ e ∈ chosen, c.isEntryPurgable s e) ∧
      ∀ e ∈ left, c.isEntryPurgable s e → ∀ e' ∈ chosen, order e'.id ≤ order e.id
  else closed = []

theorem bmod_of_lt {n : ℕ} (h : n < 2 ^ 31) : (n : ℤ).bmod (2 ^ 32) = n := by
  rw [Int.bmod_def]
  push_cast
  split_ifs
  · omega
  · omega

/-- The size of a cache that an `int` can count. -/
theorem intSize_eq {c : TransportCache E T} (h : c.currentSize < 2 ^ 31) :
    c.intSize = c.currentSize := bmod_of_lt h

theorem tdiv_hundred_nonpos {p : ℤ} (h : p < 0) : p.tdiv 100 ≤ 0 := by
  have hneg := Int.tdiv_nonneg (a := -p) (b := 100) (by omega) (by decide)
  rw [Int.neg_tdiv] at hneg
  omega

/-- The amount is not more than the percentage, also where the product is too large for an `int`. -/
theorem purgeAmount_le {cfg : CacheConfig} {c : TransportCache E T} (h : c.currentSize < 2 ^ 31)
    (hpercent : 0 ≤ cfg.percent) :
    c.purgeAmount cfg ≤ max 0 (c.currentSize * cfg.percent / 100) := by
  rw [purgeAmount, intSize_eq h]
  have hprod : 0 ≤ (c.currentSize : ℤ) * cfg.percent := by positivity
  generalize (c.currentSize : ℤ) * cfg.percent = p at hprod
  have hle : p.bmod (2 ^ 32) ≤ p := by
    rw [Int.bmod_def]
    push_cast
    split_ifs
    · omega
    · omega
  rcases le_or_gt 0 (p.bmod (2 ^ 32)) with hpos | hneg
  · rw [Int.tdiv_eq_ediv_of_nonneg hpos]
    omega
  · have hdiv : (p.bmod (2 ^ 32)).tdiv 100 ≤ 0 := tdiv_hundred_nonpos hneg
    omega

theorem purgeAmount_pos_iff {cfg : CacheConfig} {c : TransportCache E T}
    (h : c.currentSize < 2 ^ 31) :
    0 < c.purgeAmount cfg ↔ 100 ≤ (c.currentSize * cfg.percent : ℤ).bmod (2 ^ 32) := by
  rw [purgeAmount, intSize_eq h]
  generalize (c.currentSize * cfg.percent : ℤ).bmod (2 ^ 32) = p
  rcases le_or_gt 0 p with hpos | hneg
  · rw [Int.tdiv_eq_ediv_of_nonneg hpos]
    omega
  · have hdiv : p.tdiv 100 ≤ 0 := tdiv_hundred_nonpos hneg
    omega

/-- **When `purge` closes the right transports**: if the cache is full and has an entry that can be
purged, there has to be memory, and its size times the percentage has to be a hundred at least. -/
theorem purgesRight_iff {cfg : CacheConfig} {c : TransportCache E T}
    (hsize : c.currentSize ≤ cfg.cacheMaximum) (hint : cfg.cacheMaximum < 2 ^ 31)
    (hmax : 0 ≤ cfg.strategyMaximum) (hpercent : 1 ≤ cfg.percent ∧ cfg.percent ≤ 100)
    (s : TransportState T) {order : ℕ → ℕ}
    {sort : List (CacheEntry E T) → List (CacheEntry E T)} (hsort : Sorts order sort)
    (memory : Bool) :
    PurgesRight cfg s order c (c.purgeWith sort cfg s memory).2 ↔
      (cfg.strategyMaximum ≤ c.currentSize → (∃ e ∈ c.cacheMap, c.isEntryPurgable s e) →
        memory = true ∧ 100 ≤ (c.currentSize * cfg.percent : ℤ).bmod (2 ^ 32)) := by
  have hlt : c.currentSize < 2 ^ 31 := hsize.trans_lt hint
  have htake : c.cacheMap.take c.intSize.toNat = c.cacheMap := by
    rw [intSize_eq hlt, Int.toNat_natCast, currentSize, List.take_length]
  obtain ⟨hperm, hsorted⟩ := hsort c.cacheMap
  obtain ⟨chosen, left, hchosen, hclosed, hlen, hall, hleft, hnone⟩ :=
    purgeLoop_takes s (c.purgeAmount cfg) hsorted 0 c
  have hamount : c.purgeAmount cfg ≤ max 0 (c.currentSize * cfg.percent / 100) :=
    purgeAmount_le hlt (by omega)
  rw [PurgesRight, purgeWith, htake, intSize_eq hlt, ← purgeAmount_pos_iff hlt]
  by_cases hfull : cfg.strategyMaximum ≤ c.currentSize
  swap
  · -- the cache is not full
    rw [if_neg fun h => hfull h.1, if_neg (by simp [hfull])]
    exact iff_of_true rfl fun h => absurd h hfull
  by_cases hpurgable : ∃ e ∈ c.cacheMap, c.isEntryPurgable s e
  swap
  · rw [if_neg fun h => hpurgable h.2]
    refine iff_of_true ?_ fun _ h => absurd h hpurgable
    split_ifs
    · -- none of the entries can be chosen
      rw [hclosed]
      rcases chosen with _ | ⟨e, chosen⟩
      · rfl
      · exact absurd ⟨e, (hchosen.trans hperm).mem_iff.mp (by simp), hall e (by simp)⟩ hpurgable
    · rfl
  rw [if_pos ⟨hfull, hpurgable⟩]
  cases memory with
  | false =>
    rw [if_neg (by simp)]
    refine iff_of_false ?_ fun h => by cases (h hfull hpurgable).1
    rintro ⟨chosen', left', -, hnil, hpos, -⟩
    rw [List.map_eq_nil_iff.mp hnil.symm] at hpos
    cases hpos
  | true =>
    rw [if_pos (by simp [hmax, hfull]), hclosed]
    constructor
    · rintro ⟨chosen', left', -, hsame, hpos, -⟩ - -
      refine ⟨rfl, ?_⟩
      have hlength := congrArg List.length hsame
      rw [List.length_map, List.length_map] at hlength
      omega
    · intro h
      obtain ⟨-, hpos⟩ := h hfull hpurgable
      refine ⟨chosen, left, hchosen.trans hperm, rfl, ?_, by omega, hall, hleft⟩
      rcases chosen with _ | ⟨e, chosen⟩
      · obtain ⟨e, he, hp⟩ := hpurgable
        exact absurd hp (hnone rfl hpos e (hperm.mem_iff.mpr he))
      · exact Nat.le_add_left 1 _

section Example

/-- A cache with two idle transports. -/
def twoIdle : TransportCache ℕ ℕ :=
  ⟨[⟨0, ⟨0, 0⟩, ⟨7, .idleAndPurgable, true⟩⟩, ⟨1, ⟨0, 1⟩, ⟨8, .idleAndPurgable, true⟩⟩], 2,
    fun _ => none, fun _ => 0⟩

def noRequests : TransportState ℕ := ⟨fun _ => false, fun _ => false, fun _ => true⟩

/-- Half of the cache is to be purged. -/
theorem purgesRight_iff_half :
    PurgesRight ⟨2, 2, 50, 0⟩ noRequests (10 - ·) twoIdle
        (twoIdle.purgeWith (sortSet (10 - ·)) ⟨2, 2, 50, 0⟩ noRequests true).2 ↔
      ((2 : ℤ) ≤ twoIdle.currentSize →
        (∃ e ∈ twoIdle.cacheMap, twoIdle.isEntryPurgable noRequests e) →
        true = true ∧ 100 ≤ (twoIdle.currentSize * 50 : ℤ).bmod (2 ^ 32)) := by
  refine purgesRight_iff ?_ ?_ ?_ ?_ noRequests (sorts_sortSet _) true
  all_goals decide

/-- **A fifth of two is none**: the cache is full, and nothing is closed. -/
theorem not_purgesRight_fifth : ¬PurgesRight ⟨2, 2, 20, 0⟩ noRequests (10 - ·) twoIdle
    (twoIdle.purgeWith (sortSet (10 - ·)) ⟨2, 2, 20, 0⟩ noRequests true).2 := by
  rw [PurgesRight, if_pos (by decide)]
  rintro ⟨chosen, left, -, hclosed, hpos, -⟩
  have hnone : (twoIdle.purgeWith (sortSet (10 - ·)) ⟨2, 2, 20, 0⟩ noRequests true).2 = [] := by
    decide
  rw [List.map_eq_nil_iff.mp (hclosed.symm.trans hnone)] at hpos
  cases hpos

end Example

/-! ### The size of the cache -/

variable [DecidableEq E] [DecidableEq T] {cfg : CacheConfig} {c c' : TransportCache E T}

omit [DecidableEq E] [DecidableEq T] in
theorem SameEntries.currentSize (h : SameEntries c c') : c'.currentSize = c.currentSize := by
  have hlen := congrArg List.length h.frames
  rwa [TransportCache.frames, TransportCache.frames, List.length_map, List.length_map] at hlen

/-- **One operation** does not make the cache larger than its maximum. -/
theorem currentSize_le_step (h : c.currentSize ≤ cfg.cacheMaximum) {op : CacheOp E T}
    {a : CacheAnswer T} (hc : step cfg c op = some (c', a)) :
    c'.currentSize ≤ cfg.cacheMaximum := by
  rcases step_cases hc with hsame | ⟨t, id, -, hp⟩ | ⟨s, purged, hp⟩ | rfl |
    ⟨prop, t, state, connected, memory, r, rfl, hr⟩
  · exact hsame.currentSize.trans_le h
  · exact (sublist_purgeEntryI hp).length_le.trans h
  · exact (sublist_purgeIdleLoop hp).length_le.trans h
  · exact Nat.zero_le _
  · rcases bindLoop_cases (by decide) hr with ⟨rfl, -⟩ | ⟨e, -, -, -, rfl, -⟩ |
      ⟨i, -, -, hlt, -, -, rfl, -⟩
    · exact h
    · exact (sameEntries_modify (keepsFrame_rebound _) e.id c).currentSize.trans_le h
    · rw [currentSize, add, List.length_append, List.length_singleton]
      exact hlt

/-- **The cache is never larger than its maximum.** -/
theorem currentSize_le_of_run {ops : List (CacheOp E T)} {answers : List (CacheAnswer T)}
    (h : Machine.run (step cfg) empty ops = some (c, answers)) :
    c.currentSize ≤ cfg.cacheMaximum :=
  Machine.inv_run (P := fun c => c.currentSize ≤ cfg.cacheMaximum)
    (fun _ _ _ _ hle hc => currentSize_le_step hle hc) (Nat.zero_le _) h

end TransportCache

end AceTao
