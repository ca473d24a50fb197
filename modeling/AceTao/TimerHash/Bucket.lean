import AceTao.TimerHeap.Expire

/-!
# The buckets of `ACE_Timer_Hash_T`

The hash table of timers is a template over the timer queue that serves as its buckets. What
it calls of a bucket is `AceTao.TimerBucket`, and what it relies on is
`AceTao.LawfulTimerBucket`: a bucket holds timers under distinct ids, and gives out an
earliest one. Both timer queues with which the library instantiates the template are lawful
buckets, the timer list and the timer heap. A heap that serves as a bucket is never given
back the nodes that `remove_first` takes out, so their ids stay in limbo.
-/

namespace AceTao

open SortedInsert (insertBack_perm)

variable {α β : Type}

/-- **What the hash table calls of a bucket**, besides the virtual functions. An operation
without an answer is undefined behaviour. -/
class TimerBucket (B : Type) (α β : outParam Type) extends TimerQueue B α β where
  /-- The constructor. -/
  init : B
  /-- `schedule` -/
  schedule : α → β → TimeValue → TimeValue → B → Option (ℤ × B)
  /-- `cancel (timer_id)` -/
  cancel : ℤ → B → Option (ℤ × B)
  /-- The nodes, in the order of `iter`. -/
  nodes : B → List (TimerNode α β)

open TimerQueue TimerBucket

/-- **A lawful bucket**: `Valid` is its representation invariant. -/
class LawfulTimerBucket (B : Type) (α β : outParam Type) [TimerBucket B α β] where
  Valid : B → Prop
  init_spec : Valid (init : B) ∧ nodes (init : B) = []
  distinct : ∀ b : B, Valid b → DistinctIds (nodes b)
  isEmpty_iff : ∀ b : B, isEmpty b = true ↔ nodes b = []
  removeFirst_spec : ∀ b : B, Valid b → nodes b ≠ [] →
    ∃ n b', removeFirst b = some (n, b') ∧ earliestTime b = n.timerValue ∧
      (nodes b).Perm (n :: nodes b') ∧ (∀ m ∈ nodes b, n.timerValue ≤ m.timerValue) ∧ Valid b'
  schedule_spec : ∀ (b b' : B) (type : α) (act : β) (futureTime interval : TimeValue) (id : ℤ),
    Valid b → schedule type act futureTime interval b = some (id, b') → id ≠ -1 →
    Valid b' ∧ (nodes b').Perm (⟨type, act, futureTime, interval, id⟩ :: nodes b)
  cancel_spec : ∀ (b : B) (n : TimerNode α β), Valid b → n ∈ nodes b →
    ∃ b', cancel n.timerId b = some (1, b') ∧ Valid b' ∧ (nodes b).Perm (n :: nodes b')
  cancel_other : ∀ (b b' : B) (id r : ℤ), Valid b → (∀ n ∈ nodes b, n.timerId ≠ id) →
    cancel id b = some (r, b') → r ≠ 1 ∧ b' = b

namespace LawfulTimerBucket

variable {B : Type} [TimerBucket B α β] [LawfulTimerBucket B α β] {b b' : B} {n : TimerNode α β}

theorem isEmpty_eq_false : isEmpty b = false ↔ nodes b ≠ [] := by
  rw [ne_eq, ← isEmpty_iff, Bool.not_eq_true]

/-- `earliest_time` is not after the time of any timer. -/
theorem earliestTime_le (hb : Valid b) (hn : n ∈ nodes b) : earliestTime b ≤ n.timerValue := by
  obtain ⟨m, b', -, hm, -, hmin, -⟩ := removeFirst_spec b hb (List.ne_nil_of_mem hn)
  rw [hm]
  exact hmin n hn

/-- `earliest_time` is the time of a timer. -/
theorem exists_earliestTime (hb : Valid b) (hne : nodes b ≠ []) :
    ∃ n ∈ nodes b, n.timerValue = earliestTime b := by
  obtain ⟨n, b', -, hn, hperm, -⟩ := removeFirst_spec b hb hne
  exact ⟨n, hperm.mem_iff.mpr (List.mem_cons_self ..), hn.symm⟩

/-- `earliest_time` does not get later when timers are added. -/
theorem earliestTime_mono (hb : Valid b) (hb' : Valid b') (hne : nodes b ≠ [])
    (hsub : nodes b ⊆ nodes b') : earliestTime b' ≤ earliestTime b := by
  obtain ⟨n, hn, heq⟩ := exists_earliestTime hb hne
  exact heq ▸ earliestTime_le hb' (hsub hn)

/-- `cancel` either finds a timer and takes it out, or changes nothing. -/
theorem cancel_cases (hb : Valid b) {id r : ℤ} (h : cancel id b = some (r, b')) :
    (r = 1 ∧ Valid b' ∧ ∃ n, n.timerId = id ∧ (nodes b).Perm (n :: nodes b')) ∨
      (r ≠ 1 ∧ b' = b ∧ ∀ n ∈ nodes b, n.timerId ≠ id) := by
  by_cases hex : ∃ n ∈ nodes b, n.timerId = id
  · obtain ⟨n, hn, rfl⟩ := hex
    obtain ⟨b₁, hb₁, hvalid, hperm⟩ := cancel_spec b n hb hn
    cases hb₁.symm.trans h
    exact Or.inl ⟨rfl, hvalid, n, rfl, hperm⟩
  · have hne : ∀ n ∈ nodes b, n.timerId ≠ id := fun n hn hid => hex ⟨n, hn, hid⟩
    obtain ⟨hr, hsame⟩ := cancel_other b b' id r hb hne h
    exact Or.inr ⟨hr, hsame, hne⟩

end LawfulTimerBucket

/-! ### The timer list -/

namespace TimerList

variable {s : TimerList α β} {n : TimerNode α β}

/-- The ids of the timers are below the counter. -/
structure CountsIds (s : TimerList α β) : Prop where
  distinct : DistinctIds s.nodes
  lt : ∀ n ∈ s.nodes, n.timerId < s.idCounter
  nonneg : 0 ≤ s.idCounter
  fits : s.idCounter < 2 ^ 63

/-- `schedule` counts, when the increment does not overflow. -/
theorem CountsIds.scheduleI (h : CountsIds s) (hmax : s.idCounter ≠ 2 ^ 63 - 1) (type : α) (act : β)
    (futureTime interval : TimeValue) :
    ∃ s', s.scheduleI type act futureTime interval = (s.idCounter, s') ∧ CountsIds s' ∧
      s'.nodes.Perm (⟨type, act, futureTime, interval, s.idCounter⟩ :: s.nodes) := by
  have hfits := h.fits
  have hnonneg := h.nonneg
  have hcount : wrap64 (s.idCounter + 1) = s.idCounter + 1 :=
    wrap64_of_fits (by omega) (by omega)
  have hperm : (SortedInsert.insertBack TimerNode.timerValue
      ⟨type, act, futureTime, interval, s.idCounter⟩ s.nodes).Perm (_ :: s.nodes) :=
    insertBack_perm
  refine ⟨_, if_pos (by omega), ⟨?_, fun n hn => ?_, ?_, ?_⟩, hperm⟩
  · refine (hperm.map _).nodup_iff.mpr (List.nodup_cons.mpr ⟨fun hmem => ?_, h.distinct⟩)
    obtain ⟨n, hn, heq⟩ := List.mem_map.mp hmem
    exact absurd heq (h.lt n hn).ne
  · show n.timerId < wrap64 (s.idCounter + 1)
    rw [hcount]
    rcases List.mem_cons.mp (hperm.mem_iff.mp hn) with rfl | hn
    · exact Int.lt_succ s.idCounter
    · have := h.lt n hn
      omega
  · show 0 ≤ wrap64 (s.idCounter + 1)
    omega
  · show wrap64 (s.idCounter + 1) < 2 ^ 63
    omega

theorem CountsIds.cancel (h : CountsIds s) (hn : n ∈ s.nodes) :
    ∃ s', s.cancel n.timerId = (1, some n.act, s') ∧ CountsIds s' ∧
      s.nodes.Perm (n :: s'.nodes) := by
  have hfind : s.findNode n.timerId = some n := Keyed.find?_eq_some h.distinct hn rfl
  rw [TimerList.cancel, hfind]
  exact ⟨_, rfl, ⟨h.distinct.sublist (List.eraseP_sublist ..),
    fun m hm => h.lt m (List.mem_of_mem_eraseP hm), h.nonneg, h.fits⟩,
    Keyed.perm_eraseP h.distinct hn⟩

/-- `schedule` of a bucket must not overflow `id_counter_`. -/
instance : TimerBucket (TimerList α β) α β where
  init := empty
  schedule type act futureTime interval s :=
    if s.idCounter = 2 ^ 63 - 1 then none else some (s.scheduleI type act futureTime interval)
  cancel timerId s := some ((s.cancel timerId).1, (s.cancel timerId).2.2)
  nodes s := s.nodes

/-- **The timer list is a lawful bucket.** -/
instance : LawfulTimerBucket (TimerList α β) α β where
  Valid := CountsIds
  init_spec := ⟨⟨List.nodup_nil, List.forall_mem_nil _, le_rfl, by norm_num [init, empty]⟩, rfl⟩
  distinct _ h := h.distinct
  isEmpty_iff _ := List.isEmpty_iff
  removeFirst_spec := by
    rintro ⟨nodes, idCounter, sorted⟩ h hne
    cases nodes with
    | nil => exact absurd rfl hne
    | cons n l =>
      exact ⟨n, _, rfl, rfl, List.Perm.refl _, fun m hm => SortedInsert.head_le sorted hm,
        h.distinct.sublist (List.sublist_cons_self ..),
        fun m hm => h.lt m (List.mem_cons_of_mem n hm), h.nonneg, h.fits⟩
  schedule_spec := by
    intro s s' type act futureTime interval id h hs _
    by_cases hmax : s.idCounter = 2 ^ 63 - 1
    · cases (if_pos hmax).symm.trans hs
    · obtain ⟨t, ht, hcounts, hperm⟩ := h.scheduleI hmax type act futureTime interval
      cases (if_neg hmax).symm.trans hs |>.symm.trans (congrArg some ht)
      exact ⟨hcounts, hperm⟩
  cancel_spec := by
    intro s n h hn
    obtain ⟨s', hs', hcounts, hperm⟩ := h.cancel hn
    refine ⟨s', ?_, hcounts, hperm⟩
    show some ((s.cancel n.timerId).1, (s.cancel n.timerId).2.2) = some (1, s')
    rw [hs']
  cancel_other := by
    intro s s' id r _ hne hc
    have hfind : s.findNode id = none := List.find?_eq_none.mpr fun n hn => by
      simpa using hne n hn
    have hcancel : s.cancel id = (0, none, s) := by rw [TimerList.cancel, hfind]
    obtain ⟨rfl, rfl⟩ := Prod.mk.inj (Option.some.inj hc)
    rw [hcancel]
    exact ⟨by norm_num, rfl⟩

end TimerList

/-! ### The timer heap -/

namespace TimerHeap

open Multiset (coe_eq_coe)

variable {s s' : TimerHeap α β} {n : TimerNode α β}

/-- `ACE_DEFAULT_TIMERS`, which is `_POSIX_TIMER_MAX`. -/
def defaultTimers : ℕ := 32

/-- The nodes in the order of the slots. -/
def slots (s : TimerHeap α β) : List (TimerNode α β) := (List.range s.curSize).map s.heap

theorem coe_slots (s : TimerHeap α β) : (s.slots : Multiset (TimerNode α β)) = s.nodes := rfl

theorem mem_slots : n ∈ s.slots ↔ ∃ i, i < s.curSize ∧ s.heap i = n := by
  rw [slots, List.mem_map]
  simp only [List.mem_range]

theorem Linked.distinctIds_slots (h : Linked s) : AceTao.DistinctIds s.slots := by
  rw [AceTao.DistinctIds, slots, List.map_map]
  refine List.Nodup.map_on (fun i hi j hj heq => ?_) List.nodup_range
  have hi' := h.located i (List.mem_range.mp hi)
  have hj' := h.located j (List.mem_range.mp hj)
  rw [Function.comp_apply, Function.comp_apply] at heq
  rw [heq, hj'] at hi'
  omega

/-- **`cancel` of a timer in the heap** takes it out. -/
theorem Inv.cancel_of_mem {held : Multiset (TimerNode α β)} (h : Inv s held) (hn : n ∈ s.slots) :
    ∃ s', s.cancel n.timerId = some (1, some n.act, s') ∧ Inv s' held ∧
      s.slots.Perm (n :: s'.slots) := by
  obtain ⟨i, hi, rfl⟩ := mem_slots.mp hn
  have hlocated := h.linked.located i hi
  obtain ⟨hid, hlt⟩ := h.linked.range _ (heap_mem_nodes hi)
  have hlookup : s.lookup (s.heap i).timerId = some (some i) := by
    rw [lookup, if_neg (by omega), if_neg hlt.ne, hlocated]
    dsimp only
    rw [if_neg (by omega), Int.toNat_natCast, if_neg (not_not.mpr rfl)]
  obtain ⟨hnode, hremoved⟩ := remove_spec h.linked hi
  have hinv := h.remove hi
  rw [← hnode] at hinv
  refine ⟨(s.remove i).2.freeNode (s.remove i).1, ?_, hinv.freeNode, coe_eq_coe.mp ?_⟩
  · rw [TimerHeap.cancel, hlookup]
    show some (1, some (s.remove i).1.act, (s.remove i).2.freeNode (s.remove i).1) = _
    rw [hnode]
  · rw [← Multiset.cons_coe, coe_slots, coe_slots, freeNode_nodes hinv]
    exact hremoved.nodes.symm

/-- `cancel` of an id that no timer has does nothing. -/
theorem Linked.cancel_of_forall_ne (h : Linked s) {id r : ℤ} {act : Option β}
    (hne : ∀ n ∈ s.slots, n.timerId ≠ id) (hc : s.cancel id = some (r, act, s')) :
    r = 0 ∧ s' = s := by
  obtain ⟨found, hl, heq⟩ := Option.map_eq_some_iff.mp hc
  cases found with
  | none =>
    cases heq
    exact ⟨rfl, rfl⟩
  | some slot =>
    obtain ⟨hslot, hid⟩ := lookup_eq_some_some h hl
    exact absurd hid (hne _ (mem_slots.mpr ⟨slot, hslot, rfl⟩))

instance [Inhabited α] [Inhabited β] : TimerBucket (TimerHeap α β) α β where
  init := TimerHeap.init defaultTimers false fun _ => ⟨default, default, TimeValue.zero,
    TimeValue.zero, 0⟩
  schedule type act futureTime interval s := some (s.scheduleI type act futureTime interval)
  cancel timerId s := (s.cancel timerId).map fun p => (p.1, p.2.2)
  nodes := slots

/-- **The timer heap is a lawful bucket**, whatever is in limbo. -/
instance [Inhabited α] [Inhabited β] : LawfulTimerBucket (TimerHeap α β) α β where
  Valid s := ∃ held, Inv s held
  init_spec := ⟨⟨_, State.init_inv (by norm_num [defaultTimers]) false _⟩, rfl⟩
  distinct _ h := h.elim fun _ h => h.linked.distinctIds_slots
  isEmpty_iff s := by
    show decide (s.curSize = 0) = true ↔ s.slots = []
    rw [decide_eq_true_eq, slots, List.map_eq_nil_iff, List.range_eq_nil]
  removeFirst_spec := by
    rintro s ⟨held, h⟩ hne
    have h₀ : 0 < s.curSize := by
      by_contra hcon
      exact hne (by show s.slots = []; rw [slots, show s.curSize = 0 by omega]; rfl)
    obtain ⟨hnodes, hmin, -⟩ := remove_zero_spec h.linked h.ordered h₀
    exact ⟨s.heap 0, _, if_neg h₀.ne', rfl, coe_eq_coe.mp hnodes, fun m hm => hmin m hm, _,
      h.remove h₀⟩
  schedule_spec := by
    rintro s s' type act futureTime interval id ⟨held, h⟩ hs -
    obtain ⟨k, -, hk, hinv, hsched⟩ := h.scheduleI type act futureTime interval
    replace hs : s.scheduleI type act futureTime interval = (id, s') := Option.some.inj hs
    rw [hs] at hk hinv hsched
    obtain rfl : id = k := hk
    exact ⟨⟨held, hinv⟩, coe_eq_coe.mp hsched.nodes⟩
  cancel_spec := by
    rintro s n ⟨held, h⟩ hn
    obtain ⟨s', hs', hinv, hperm⟩ := h.cancel_of_mem hn
    refine ⟨s', ?_, ⟨held, hinv⟩, hperm⟩
    show (s.cancel n.timerId).map _ = _
    rw [hs', Option.map_some]
  cancel_other := by
    rintro s s' id r ⟨held, h⟩ hne hc
    obtain ⟨p, hp, heq⟩ := Option.map_eq_some_iff.mp hc
    obtain ⟨h₀, hs⟩ := h.linked.cancel_of_forall_ne hne hp
    obtain ⟨rfl, rfl⟩ := Prod.mk.inj heq
    exact ⟨by omega, hs⟩

end TimerHeap

end AceTao
