import Mathlib.Algebra.BigOperators.Group.Finset.Basic
import Mathlib.Algebra.Order.BigOperators.Group.Finset
import AceTao.TimerHash.Basic

/-!
# The number of timers

`size_` is meant to be the number of timers in the buckets (`AceTao.TimerHash.timers`):
`cancel (type)` allocates an array of that size. The counter stays right as long as every
timer is known to its token, and no token is in use twice (`AceTao.TimerHash.Accounted`): then
`cancel` takes out exactly the timer whose id it is given.

What an operation does to the timers comes down to four moves: a timer leaves its bucket
(`AceTao.TimerHash.Accounted.remove`), after which its token is out of use
(`AceTao.TimerHash.Unused`); a timer goes into a bucket with an unused token
(`AceTao.TimerHash.Accounted.insert`); an unused token goes to the free list
(`AceTao.TimerHash.Accounted.addToken`); and one comes from there
(`AceTao.TimerHash.Accounted.removeToken`).
-/

namespace AceTao

namespace TimerHash

open TimeValue (zero)
open TimerBucket (nodes)
open LawfulTimerBucket

variable {B α β : Type} [TimerBucket B α ℤ]

/-- **The number of timers** in the buckets. -/
def timers (s : TimerHash B α β) : ℕ :=
  ∑ i ∈ Finset.range s.tableSize, (nodes (s.table i)).length

/-- The number of timers of a type. -/
def timersOf [DecidableEq α] (type : α) (s : TimerHash B α β) : ℕ :=
  ∑ i ∈ Finset.range s.tableSize, (nodes (s.table i)).countP fun n => n.type = type

variable {s s' : TimerHash B α β}

/-- One bucket changes. -/
theorem timers_update {i : ℕ} {b : B} (hi : i < s.tableSize)
    (htable : s'.table = Function.update s.table i b) (hsize : s'.tableSize = s.tableSize) :
    s'.timers + (nodes (s.table i)).length = s.timers + (nodes b).length := by
  have hmem := Finset.mem_range.mpr hi
  have hrest : ∑ j ∈ (Finset.range s.tableSize).erase i, (nodes (s'.table j)).length
      = ∑ j ∈ (Finset.range s.tableSize).erase i, (nodes (s.table j)).length :=
    Finset.sum_congr rfl fun j hj => by
      rw [htable, Function.update_of_ne (Finset.ne_of_mem_erase hj)]
  rw [timers, timers, hsize, ← Finset.add_sum_erase _ _ hmem, ← Finset.add_sum_erase _ _ hmem,
    hrest, htable, Function.update_self]
  omega

theorem timers_congr (htable : s'.table = s.table) (hsize : s'.tableSize = s.tableSize) :
    s'.timers = s.timers := by
  rw [timers, timers, htable, hsize]

/-- `cancel (type)` collects the tokens of the timers of the type. -/
theorem length_timerIds [DecidableEq α] (type : α) :
    (s.timerIds type).length = s.timersOf type := by
  rw [timerIds, List.length_flatMap, timersOf, Finset.sum_eq_multiset_sum, Finset.range_val,
    Multiset.range, Multiset.map_coe, Multiset.sum_coe]
  refine congrArg List.sum (List.map_congr_left fun i _ => ?_)
  rw [List.length_map, List.countP_eq_length_filter]

theorem timersOf_le [DecidableEq α] (type : α) : s.timersOf type ≤ s.timers :=
  Finset.sum_le_sum fun _ _ => List.countP_le_length

variable [LawfulTimerBucket B α ℤ]

/-- **Every timer is known to its token**, and the tokens of the timers are not free. -/
structure Accounted (s : TimerHash B α β) : Prop where
  valid : ∀ i, Valid (s.table i)
  lt : ∀ i, ∀ n ∈ nodes (s.table i), i < s.tableSize
  token : ∀ i, ∀ n ∈ nodes (s.table i),
    ∃ h, s.tokens n.act = some h ∧ h.pos = i ∧ h.origId = n.timerId
  notFree : ∀ i, ∀ n ∈ nodes (s.table i), n.act ∉ s.tokenList
  inMemory : ∀ i, ∀ n ∈ nodes (s.table i), n.act < s.allocated
  free : s.tokenList.Nodup
  freeInMemory : ∀ id ∈ s.tokenList, id < s.allocated

/-- A token that is **not in use**: no timer has it and it is not free. -/
structure Unused (id : ℤ) (s : TimerHash B α β) : Prop where
  notQueued : ∀ i, ∀ n ∈ nodes (s.table i), n.act ≠ id
  notFree : id ∉ s.tokenList
  inMemory : id < s.allocated

namespace Accounted

variable {n : TimerNode α ℤ} {i : ℕ} {b : B} {id : ℤ}

/-- Two timers with the same token are one timer. -/
theorem eq_of_act (h : Accounted s) {j : ℕ} {m : TimerNode α ℤ} (hn : n ∈ nodes (s.table i))
    (hm : m ∈ nodes (s.table j)) (heq : n.act = m.act) : i = j ∧ n = m := by
  obtain ⟨t, ht, hpos, hid⟩ := h.token i n hn
  obtain ⟨t', ht', hpos', hid'⟩ := h.token j m hm
  rw [heq, ht'] at ht
  cases ht
  obtain rfl : i = j := hpos.symm.trans hpos'
  exact ⟨rfl, List.inj_on_of_nodup_map (distinct _ (h.valid i)) hn hm (hid.symm.trans hid')⟩

/-- Only the table, the tokens and the free list matter. -/
theorem congr (h : Accounted s) (htable : s'.table = s.table) (htokens : s'.tokens = s.tokens)
    (hlist : s'.tokenList = s.tokenList) (hsize : s'.tableSize = s.tableSize)
    (hallocated : s'.allocated = s.allocated) : Accounted s' := by
  refine ⟨?_, ?_, ?_, ?_, ?_, ?_, ?_⟩
  · exact htable ▸ h.valid
  · exact htable ▸ hsize ▸ h.lt
  · exact htable ▸ htokens ▸ h.token
  · exact htable ▸ hlist ▸ h.notFree
  · exact htable ▸ hallocated ▸ h.inMemory
  · exact hlist ▸ h.free
  · exact hlist ▸ hallocated ▸ h.freeInMemory

/-- **A timer leaves its bucket**, and its token is out of use. -/
theorem remove (h : Accounted s) (hvalid : Valid b)
    (hperm : (nodes (s.table i)).Perm (n :: nodes b)) :
    let s' : TimerHash B α β := { s with table := Function.update s.table i b }
    Accounted s' ∧ Unused n.act s' ∧ s'.timers + 1 = s.timers := by
  intro s'
  have hn : n ∈ nodes (s.table i) := hperm.mem_iff.mpr (List.mem_cons_self ..)
  have hsub : ∀ j, ∀ m ∈ nodes (s'.table j), m ∈ nodes (s.table j) ∧ m.act ≠ n.act := by
    intro j m hm
    rcases eq_or_ne j i with rfl | hj
    · replace hm : m ∈ nodes b := by
        rw [show s'.table = Function.update s.table j b from rfl, Function.update_self] at hm
        exact hm
      have hm' := hperm.mem_iff.mpr (List.mem_cons_of_mem n hm)
      refine ⟨hm', fun heq => ?_⟩
      have hnodup := hperm.nodup_iff.mp (List.Nodup.of_map _ (distinct _ (h.valid j)))
      exact (List.nodup_cons.mp hnodup).1 ((h.eq_of_act hm' hn heq).2 ▸ hm)
    · replace hm : m ∈ nodes (s.table j) := by
        rw [show s'.table = Function.update s.table i b from rfl, Function.update_of_ne hj] at hm
        exact hm
      exact ⟨hm, fun heq => hj (h.eq_of_act hm hn heq).1⟩
  refine ⟨⟨fun j => ?_, fun j m hm => h.lt j m (hsub j m hm).1,
    fun j m hm => h.token j m (hsub j m hm).1, fun j m hm => h.notFree j m (hsub j m hm).1,
    fun j m hm => h.inMemory j m (hsub j m hm).1, h.free, h.freeInMemory⟩,
    ⟨fun j m hm => (hsub j m hm).2, h.notFree i n hn, h.inMemory i n hn⟩, ?_⟩
  · rcases eq_or_ne j i with rfl | hj
    · rw [show s'.table = Function.update s.table j b from rfl, Function.update_self]
      exact hvalid
    · rw [show s'.table = Function.update s.table i b from rfl, Function.update_of_ne hj]
      exact h.valid j
  · have hcount := timers_update (h.lt i n hn) (rfl : s'.table = _) rfl
    rw [hperm.length_eq, List.length_cons] at hcount
    omega

/-- **A timer goes into a bucket** with a token that is not in use. -/
theorem insert (h : Accounted s) (hu : Unused n.act s) (hi : i < s.tableSize) (hvalid : Valid b)
    (hperm : (nodes b).Perm (n :: nodes (s.table i))) (token : HashToken α β)
    (hpos : token.pos = i) (hid : token.origId = n.timerId) :
    let s' : TimerHash B α β := { s with
      tokens := Function.update s.tokens n.act (some token)
      table := Function.update s.table i b }
    Accounted s' ∧ s'.timers = s.timers + 1 := by
  intro s'
  have hcases : ∀ j, ∀ m ∈ nodes (s'.table j), j = i ∧ m = n ∨ m ∈ nodes (s.table j) := by
    intro j m hm
    rcases eq_or_ne j i with rfl | hj
    · rw [show s'.table = Function.update s.table j b from rfl, Function.update_self] at hm
      exact (List.mem_cons.mp (hperm.mem_iff.mp hm)).imp (fun heq => ⟨rfl, heq⟩) fun h => h
    · rw [show s'.table = Function.update s.table i b from rfl, Function.update_of_ne hj] at hm
      exact Or.inr hm
  refine ⟨⟨fun j => ?_, fun j m hm => ?_, fun j m hm => ?_, fun j m hm => ?_, fun j m hm => ?_,
    h.free, h.freeInMemory⟩, ?_⟩
  · rcases eq_or_ne j i with rfl | hj
    · rw [show s'.table = Function.update s.table j b from rfl, Function.update_self]
      exact hvalid
    · rw [show s'.table = Function.update s.table i b from rfl, Function.update_of_ne hj]
      exact h.valid j
  · rcases hcases j m hm with ⟨rfl, -⟩ | hm
    · exact hi
    · exact h.lt j m hm
  · rcases hcases j m hm with ⟨rfl, rfl⟩ | hm
    · exact ⟨token, Function.update_self .., hpos, hid⟩
    · obtain ⟨t, ht, hpos', hid'⟩ := h.token j m hm
      exact ⟨t, (Function.update_of_ne (hu.notQueued j m hm) ..).trans ht, hpos', hid'⟩
  · rcases hcases j m hm with ⟨rfl, rfl⟩ | hm
    · exact hu.notFree
    · exact h.notFree j m hm
  · rcases hcases j m hm with ⟨rfl, rfl⟩ | hm
    · exact hu.inMemory
    · exact h.inMemory j m hm
  · have hcount := timers_update hi (rfl : s'.table = _) rfl
    rw [hperm.length_eq, List.length_cons] at hcount
    omega

/-- **A token goes to the free list.** -/
theorem addToken (h : Accounted s) (hu : Unused id s) : Accounted (s.addToken id) := by
  rw [TimerHash.addToken]
  split_ifs
  · refine ⟨h.valid, h.lt, h.token, fun j m hm hmem => ?_, h.inMemory,
      List.nodup_cons.mpr ⟨hu.notFree, h.free⟩, fun id' hid' => ?_⟩
    · rcases List.mem_cons.mp hmem with heq | hmem
      · exact hu.notQueued j m hm heq
      · exact h.notFree j m hm hmem
    · rcases List.mem_cons.mp hid' with rfl | hid'
      · exact hu.inMemory
      · exact h.freeInMemory id' hid'
  · refine ⟨h.valid, h.lt, fun j m hm => ?_, h.notFree, h.inMemory, h.free, h.freeInMemory⟩
    obtain ⟨t, ht, hpos, hid⟩ := h.token j m hm
    exact ⟨t, (Function.update_of_ne (hu.notQueued j m hm) ..).trans ht, hpos, hid⟩

/-- **A token comes from the free list**, or is allocated. -/
theorem removeToken (h : Accounted s) : Accounted s.removeToken.2 ∧
    Unused s.removeToken.1 s.removeToken.2 := by
  rw [TimerHash.removeToken]
  split
  · rename_i id l hl
    have hnodup := h.free
    rw [hl] at hnodup
    obtain ⟨hid, hl'⟩ := List.nodup_cons.mp hnodup
    refine ⟨⟨h.valid, h.lt, h.token, fun j m hm hmem => ?_, h.inMemory, hl', fun id' hid' => ?_⟩,
      ⟨fun j m hm heq => ?_, hid, ?_⟩⟩
    · exact h.notFree j m hm (hl ▸ List.mem_cons_of_mem id hmem)
    · exact h.freeInMemory id' (hl ▸ List.mem_cons_of_mem id hid')
    · exact h.notFree j m hm (hl ▸ heq ▸ List.mem_cons_self ..)
    · exact h.freeInMemory id (hl ▸ List.mem_cons_self ..)
  · have hnew : ∀ id ∈ (List.range (freeListInc - 1)).reverse.map
        (fun k => ((s.allocated + k : ℕ) : ℤ)),
        (s.allocated : ℤ) ≤ id ∧ id < (s.allocated + (freeListInc - 1) : ℕ) := by
      intro id hid
      obtain ⟨k, hk, rfl⟩ := List.mem_map.mp hid
      have hk' := List.mem_range.mp (List.mem_reverse.mp hk)
      exact ⟨by omega, by omega⟩
    refine ⟨⟨h.valid, h.lt, h.token, fun j m hm hmem => ?_, fun j m hm => ?_, ?_, fun id hid => ?_⟩,
      ⟨fun j m hm heq => ?_, fun hmem => ?_, ?_⟩⟩
    · exact absurd (h.inMemory j m hm) (not_lt.mpr (hnew _ hmem).1)
    · have := h.inMemory j m hm
      dsimp only
      omega
    · refine List.Nodup.map (fun a b hab => ?_) (List.nodup_reverse.mpr List.nodup_range)
      exact Nat.add_left_cancel (Int.ofNat_inj.mp hab)
    · exact (hnew id hid).2.trans (Int.ofNat_lt.mpr (Nat.add_lt_add_left (by decide) s.allocated))
    · have := h.inMemory j m hm
      rw [heq] at this
      omega
    · exact absurd (hnew _ hmem).2 (lt_irrefl _)
    · exact Int.ofNat_lt.mpr (Nat.add_lt_add_left (by decide) s.allocated)

end Accounted

end TimerHash

end AceTao
