import AceTao.TimerHeap.Runs

/-!
# `ACE_Timer_Heap_T`: which ids are handed out

Along every run from an initial size of at least two, `pop_freelist` finds an id that no
timer has, its assertion holds, and every slot that `grow_heap` adds is handed out by a
later `schedule` (`AceTao.TimerHeap.allocation_iff`).

With an initial size of one the first `schedule` already grows the arrays, from one slot
to two, and `grow_heap` marks the new slot `1` as `-(1 + 1)`. This is the mark `-2` of a
node in limbo, so the slot counts as taken for ever, and the next `schedule` finds no free
id (`AceTao.TimerHeap.allocation_fails_at_one`).
-/

namespace AceTao

namespace TimerHeap

open Machine (run run_cons_eq_some run_append)

variable {α β : Type} {s s' : TimerHeap α β} {held : Multiset (TimerNode α β)}

/-- **What a call of `schedule_i` that passes its capacity test obtains**: the assertion of
`pop_freelist` holds, and the id is in range and no timer in the heap or in limbo has it. -/
def AllocationOk (s : State α β) : Prop :=
  s.queue.curSize + s.queue.curLimbo < s.queue.maxSize →
    (s.queue.scanFree (s.queue.timerIdsCurr + 1) = s.queue.maxSize →
      s.queue.timerIdsMinFree < s.queue.maxSize) ∧
    0 ≤ s.queue.popFreelist.1 ∧ s.queue.popFreelist.1 < s.queue.maxSize ∧
      (∀ nd ∈ s.queue.nodes, nd.timerId ≠ s.queue.popFreelist.1) ∧
      ∀ nd ∈ s.held, nd.timerId ≠ s.queue.popFreelist.1

/-- **Every slot that a command adds can be handed out**: some number of further calls of
`schedule` ends with the id of the slot. -/
def NewSlotsOk [DecidableEq α] (s : State α β) : Prop :=
  ∀ c t o, step s c = some (t, o) → ∀ i, s.queue.maxSize ≤ i → i < t.queue.maxSize →
    ∀ type act futureTime interval, ∃ n t' os,
      run step t (List.replicate n (.schedule type act futureTime interval)) = some (t', os) ∧
        os.getLast? = some (i : ℤ)

/-! ### Handing out an id -/

/-- The invariant makes the allocation correct. -/
theorem State.Inv.allocationOk {s : State α β} (h : s.Inv) : AllocationOk s := by
  intro _
  obtain ⟨k, hk, hfree, -, -, -⟩ := popFreelist_spec h.alloc h.two_free
  obtain ⟨hlt, hneg, hlimbo⟩ := hfree
  refine ⟨fun hend => ?_, by omega, by omega, fun nd hnd heq => ?_, fun nd hnd heq => ?_⟩
  · unfold popFreelist at hk
    dsimp only at hk
    rw [if_pos hend] at hk
    have : (s.queue.timerIdsMinFree : ℤ) = k := hk
    omega
  · have := h.linked.nonneg_of_mem hnd
    rw [heq, hk, Int.toNat_natCast] at this
    omega
  · exact hlimbo ((h.limbo k hlt).mpr ⟨nd, hnd, heq.trans hk⟩)

/-! ### Handing out a new slot -/

/-- A free id on the march of the cursor is handed out after some calls of `schedule`. -/
theorem exists_schedule [DecidableEq α] (type : α) (act : β) (futureTime interval : TimeValue)
    {s : State α β} {i : ℕ} (h : s.Inv) (hfree : Free s.queue i)
    (hcurr : s.queue.timerIdsCurr < i) :
    ∃ n t os, run step s (List.replicate n (.schedule type act futureTime interval))
      = some (t, os) ∧ os.getLast? = some (i : ℤ) := by
  induction hd : i - s.queue.timerIdsCurr using Nat.strongRecOn generalizing s with
  | ind d ih =>
    obtain ⟨k, -, hid, hinv, hsch⟩ := TimerHeap.Inv.scheduleI h type act futureTime interval
    have hstep : step s (.schedule type act futureTime interval)
        = some (⟨(s.queue.scheduleI type act futureTime interval).2, s.held⟩, (k : ℤ)) := by
      rw [← hid]
      rfl
    obtain ⟨hlt, hle⟩ := hsch.next i hcurr hfree
    rcases Nat.eq_or_lt_of_le hle with rfl | hki
    · exact ⟨1, _, [(k : ℤ)], run_cons_eq_some.mpr ⟨_, _, [], hstep, rfl, rfl⟩, rfl⟩
    · -- the cursor has come closer
      obtain ⟨n, t, os, hrun, hlast⟩ := ih (i - k) (by omega)
        (s := ⟨(s.queue.scheduleI type act futureTime interval).2, s.held⟩) hinv
        (hsch.stays i hfree hki.ne') (by rw [hsch.curr]; exact hki) (by rw [hsch.curr])
      refine ⟨n + 1, t, (k : ℤ) :: os, ?_, ?_⟩
      · exact run_cons_eq_some.mpr ⟨_, _, os, hstep, hrun, rfl⟩
      · rw [List.getLast?_cons, hlast]
        rfl

theorem cancelTypeLoop_maxSize [DecidableEq α] (h : Inv s held) (type : α) (i : ℕ) :
    (s.cancelTypeLoop type i).2.maxSize = s.maxSize := by
  induction i, s using cancelTypeLoop.induct type with
  | case1 i s hi htype p ih =>
    have hr := (remove_spec h.linked hi).2
    rw [cancelTypeLoop, if_pos hi, if_pos htype]
    exact (ih (h.remove hi).freeNode).trans hr.maxSize
  | case2 i s hi htype ih =>
    rw [cancelTypeLoop, if_pos hi, if_neg htype]
    exact ih h
  | case3 i s hi => rw [cancelTypeLoop, if_neg hi]

/-- **The slots that a command adds are free, and ahead of the cursor.** -/
theorem step_newSlots [DecidableEq α] {s t : State α β} {c : Command α β} {o : ℤ} (h : s.Inv)
    (hstep : step s c = some (t, o)) {i : ℕ} (hge : s.queue.maxSize ≤ i)
    (hlt : i < t.queue.maxSize) : Free t.queue i ∧ t.queue.timerIdsCurr < i := by
  -- only `schedule` grows the arrays
  have hsame : ∀ {q : TimerHeap α β}, q.maxSize = s.queue.maxSize → ¬i < q.maxSize := by
    intro q hq
    omega
  cases c with
  | schedule type act futureTime interval =>
    cases hstep
    obtain ⟨k, -, -, -, hsch⟩ := TimerHeap.Inv.scheduleI h type act futureTime interval
    have hk := hsch.free.1
    refine ⟨hsch.grown i hge hlt, ?_⟩
    dsimp only
    rw [hsch.curr]
    omega
  | cancel timerId =>
    obtain ⟨⟨c, act, q⟩, hr, heq⟩ := Option.map_eq_some_iff.mp hstep
    cases heq
    obtain ⟨found, hl, heq⟩ := Option.map_eq_some_iff.mp hr
    cases found with
    | none =>
      cases heq
      exact absurd hlt (hsame rfl)
    | some slot =>
      cases heq
      have hs := (lookup_eq_some_some h.linked hl).1
      exact absurd hlt (hsame (remove_spec h.linked hs).2.maxSize)
  | cancelType type =>
    cases hstep
    exact absurd hlt (hsame (cancelTypeLoop_maxSize h type 0))
  | resetInterval timerId interval =>
    obtain ⟨⟨c, q⟩, hr, heq⟩ := Option.map_eq_some_iff.mp hstep
    cases heq
    obtain ⟨found, hl, heq⟩ := Option.map_eq_some_iff.mp hr
    cases found <;> cases heq <;> exact absurd hlt (hsame rfl)
  | removeFirst =>
    simp only [step, TimerHeap.removeFirst] at hstep
    split at hstep
    · cases hstep
      exact absurd hlt (hsame rfl)
    · rename_i r hr
      cases hstep
      split at hr
      · cases hr
      · cases hr
        exact absurd hlt (hsame (remove_spec h.linked (show 0 < s.queue.curSize by omega)).2.maxSize)
  | reschedule j time =>
    obtain ⟨nd, hnd, heq⟩ := Option.map_eq_some_iff.mp hstep
    cases heq
    unfold State.Inv at h
    rw [held_eq_cons hnd] at h
    exact absurd hlt
      (hsame (TimerHeap.Inv.reschedule h (TimerNode.setTimerValue_timerId nd time)).2.2)
  | freeNode j =>
    obtain ⟨nd, hnd, heq⟩ := Option.map_eq_some_iff.mp hstep
    cases heq
    exact absurd hlt (hsame rfl)

/-- The invariant makes every slot that a command adds available. -/
theorem State.Inv.newSlotsOk [DecidableEq α] {s : State α β} (h : s.Inv) : NewSlotsOk s := by
  intro c t o hstep i hge hlt type act futureTime interval
  obtain ⟨hfree, hcurr⟩ := step_newSlots h hstep hge hlt
  exact exists_schedule type act futureTime interval (step_inv h hstep) hfree hcurr

/-! ### The initial size -/

/-- The heap after the first `schedule` from an initial size of one: the slot that
`grow_heap` has added bears the mark of limbo. -/
def sizeOne (heap : ℕ → TimerNode α β) (nd : TimerNode α β) : TimerHeap α β where
  maxSize := 2
  curSize := 1
  curLimbo := 0
  heap := Function.update heap 0 nd
  timerIds := Function.update (fun i => if 1 ≤ i ∧ i < 2 then -((i : ℤ) + 1) else -1) 0 0
  timerIdsCurr := 0
  timerIdsMinFree := 2
  preallocatedNodesFreelist := none

theorem scheduleI_init_one (heap : ℕ → TimerNode α β) (type : α) (act : β)
    (futureTime interval : TimeValue) :
    (TimerHeap.init 1 false heap).scheduleI type act futureTime interval
      = (0, sizeOne heap ⟨type, act, futureTime, interval, 0⟩) := by
  have hpop : (TimerHeap.init 1 false heap).popFreelist
      = (0, { TimerHeap.init 1 false heap with timerIdsCurr := 0, timerIdsMinFree := 1 }) := by
    simp [popFreelist, scanFree, TimerHeap.init]
  unfold scheduleI
  rw [hpop]
  simp [allocNode, insert, makeRoom, growHeap, reheapUp, copy, TimerHeap.init, sizeOne]

/-- **From a size of one, the first `schedule` leaves no id to hand out**, although the heap
passes the capacity test. -/
theorem popFreelist_sizeOne (heap : ℕ → TimerNode α β) (nd : TimerNode α β) :
    (sizeOne heap nd).popFreelist.1 = 2 := by
  simp [popFreelist, scanFree, sizeOne]

theorem not_allocationOk_sizeOne (heap : ℕ → TimerNode α β) (nd : TimerNode α β) :
    ¬AllocationOk ⟨sizeOne heap nd, []⟩ := by
  intro h
  obtain ⟨-, -, hlt, -⟩ := h (show 1 + 0 < 2 by omega)
  rw [popFreelist_sizeOne] at hlt
  exact absurd hlt (lt_irrefl 2)

end TimerHeap

end AceTao
