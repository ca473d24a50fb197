import AceTao.Library.Machine
import AceTao.TimerHeap.Invariant

/-!
# `ACE_Timer_Heap_T`: runs

A timer heap in the hands of a caller: the caller schedules and cancels timers, and takes
the earliest node out with `remove_first`. The node is then in limbo, and the caller holds
it until it is rescheduled at another time or freed. A dispatch is `remove_first` followed
by one of the two; here other commands may come in between, and any number of nodes may be
held at once.

Every run keeps the representation invariant (`AceTao.TimerHeap.inv_of_run`), and from it
follow the consistency of the two arrays (`AceTao.TimerHeap.consistent`) and the
correctness of the allocation of ids (`AceTao.TimerHeap.allocation_iff`).
-/

namespace AceTao

namespace TimerHeap

open Machine (run run_cons_eq_some run_append)

variable {α β : Type} {s s' : TimerHeap α β} {nd : TimerNode α β}
  {held : Multiset (TimerNode α β)}

/-! ### The remaining operations -/

/-- Changing an interval keeps the invariant. -/
theorem Inv.setInterval (h : Inv s held) (slot : ℕ) (interval : TimeValue) :
    Inv { s with heap := Function.update s.heap slot ((s.heap slot).setInterval interval) }
      held := by
  have hid : ∀ i, (Function.update s.heap slot ((s.heap slot).setInterval interval) i).timerId
      = (s.heap i).timerId := by
    intro i
    rcases eq_or_ne i slot with rfl | hne
    · rw [Function.update_self, TimerNode.setInterval_timerId]
    · rw [Function.update_of_ne hne]
  have htime : times (Function.update s.heap slot ((s.heap slot).setInterval interval))
      = times s.heap := by
    rw [times_update, TimerNode.setInterval_timerValue]
    exact Function.update_eq_self slot (times s.heap)
  refine ⟨⟨?_, ?_, ?_⟩, ?_, h.room, h.limbo, h.heldRange, h.heldNodup, h.heldCard, h.pool, h.alloc⟩
  · intro nd hnd
    obtain ⟨i, hi, rfl⟩ := mem_nodes.mp hnd
    dsimp only at hi ⊢
    rw [hid i]
    exact h.linked.range _ (heap_mem_nodes hi)
  · intro i hi
    dsimp only
    rw [hid i]
    exact h.linked.located i hi
  · intro k hk hk'
    obtain ⟨i, hi, hik, hki⟩ := h.linked.inverse k hk hk'
    exact ⟨i, hi, hik, (hid i).trans hki⟩
  · unfold HeapOrdered
    dsimp only
    rw [htime]
    exact h.ordered

/-- The slot that `lookup` finds is the slot of the node with that id. -/
theorem lookup_eq_some_some {timerId : ℤ} {slot : ℕ} (hl : Linked s)
    (h : s.lookup timerId = some (some slot)) :
    slot < s.curSize ∧ (s.heap slot).timerId = timerId := by
  unfold lookup at h
  dsimp only at h
  split_ifs at h <;> cases h
  rename_i hrange hne hpos hid
  obtain ⟨i, hi, hik, -⟩ := hl.inverse timerId.toNat (by omega) (by omega)
  exact ⟨by omega, (not_ne_iff.mp hid).symm⟩

/-- **`cancel (timer_id)` keeps the invariant.** -/
theorem Inv.cancel {timerId c : ℤ} {act : Option β} (h : Inv s held)
    (hc : s.cancel timerId = some (c, act, s')) : Inv s' held := by
  obtain ⟨found, hl, heq⟩ := Option.map_eq_some_iff.mp hc
  cases found with
  | none =>
    cases heq
    exact h
  | some slot =>
    cases heq
    obtain ⟨hs, -⟩ := lookup_eq_some_some h.linked hl
    exact (h.remove hs).freeNode

/-- **`reset_interval` keeps the invariant.** -/
theorem Inv.resetInterval {timerId c : ℤ} {interval : TimeValue} (h : Inv s held)
    (hc : s.resetInterval timerId interval = some (c, s')) : Inv s' held := by
  obtain ⟨found, hl, heq⟩ := Option.map_eq_some_iff.mp hc
  cases found with
  | none =>
    cases heq
    exact h
  | some slot =>
    cases heq
    exact h.setInterval slot interval

/-- **`cancel (type)` takes out the nodes of the type**, keeps the others and counts what it
took. -/
theorem Inv.cancelTypeLoop [DecidableEq α] {type : α} {i : ℕ} (h : Inv s held)
    (hpast : ∀ j, j < i → j < s.curSize → (s.heap j).type ≠ type) :
    Inv (s.cancelTypeLoop type i).2 held ∧
      (s.cancelTypeLoop type i).2.nodes = s.nodes.filter (fun nd => nd.type ≠ type) ∧
      (s.cancelTypeLoop type i).1 = s.nodes.countP (fun nd => nd.type = type) := by
  induction i, s using cancelTypeLoop.induct type with
  | case1 i s hi htype p ih =>
    have hr := (remove_spec h.linked hi).2
    have hinv := h.remove hi
    obtain ⟨h₁, h₂, h₃⟩ := ih hinv.freeNode fun j hj => absurd hj (by omega)
    have hnodes : (p.2.freeNode p.1).nodes = p.2.nodes := freeNode_nodes hinv
    rw [TimerHeap.cancelTypeLoop, if_pos hi, if_pos htype]
    refine ⟨h₁, ?_, ?_⟩
    · rw [h₂, hnodes, ← hr.nodes, Multiset.filter_cons_of_neg _ (by simpa using htype)]
    · dsimp only
      rw [h₃, hnodes, ← hr.nodes, Multiset.countP_cons, if_pos htype]
  | case2 i s hi htype ih =>
    rw [TimerHeap.cancelTypeLoop, if_pos hi, if_neg htype]
    refine ih h fun j hj hj' => ?_
    rcases eq_or_ne j i with rfl | hne
    · exact htype
    · exact hpast j (by omega) hj'
  | case3 i s hi =>
    rw [TimerHeap.cancelTypeLoop, if_neg hi]
    -- the loop has passed every slot
    have hall : ∀ nd ∈ s.nodes, nd.type ≠ type := by
      intro nd hnd
      obtain ⟨j, hj, rfl⟩ := mem_nodes.mp hnd
      exact hpast j (by omega) hj
    exact ⟨h, (Multiset.filter_eq_self.mpr hall).symm, (Multiset.countP_eq_zero.mpr hall).symm⟩

/-! ### The machine -/

/-- What a caller can ask of a timer heap. -/
inductive Command (α β : Type) where
  /-- `schedule` -/
  | schedule (type : α) (act : β) (futureTime interval : TimeValue)
  /-- `cancel (timer_id)` -/
  | cancel (timerId : ℤ)
  /-- `cancel (type)` -/
  | cancelType (type : α)
  /-- `reset_interval` -/
  | resetInterval (timerId : ℤ) (interval : TimeValue)
  /-- `remove_first`: the caller holds the node. -/
  | removeFirst
  /-- `reschedule` of the held node of index `i`, at a new time. -/
  | reschedule (i : ℕ) (time : TimeValue)
  /-- `free_node` of the held node of index `i`. -/
  | freeNode (i : ℕ)

/-- A timer heap and the nodes the caller holds. -/
structure State (α β : Type) where
  queue : TimerHeap α β
  held : List (TimerNode α β)

/-- The state a caller starts from. -/
def State.init (size : ℕ) (preallocated : Bool) (heap : ℕ → TimerNode α β) : State α β :=
  ⟨TimerHeap.init size preallocated heap, []⟩

/-- **One command**, with the number the operation returns: an id, a count, `0` or `-1`,
and for `remove_first` whether there was a node. There is no answer when the operation is
undefined or the caller holds no node of that index. -/
def step [DecidableEq α] (s : State α β) : Command α β → Option (State α β × ℤ)
  | .schedule type act futureTime interval =>
    let r := s.queue.scheduleI type act futureTime interval
    some (⟨r.2, s.held⟩, r.1)
  | .cancel timerId => (s.queue.cancel timerId).map fun r => (⟨r.2.2, s.held⟩, r.1)
  | .cancelType type =>
    let r := s.queue.cancelType type
    some (⟨r.2, s.held⟩, r.1)
  | .resetInterval timerId interval =>
    (s.queue.resetInterval timerId interval).map fun r => (⟨r.2, s.held⟩, r.1)
  | .removeFirst =>
    match s.queue.removeFirst with
    | none => some (s, 0)
    | some r => some (⟨r.2, r.1 :: s.held⟩, 1)
  | .reschedule i time =>
    (s.held[i]?).map fun nd =>
      (⟨s.queue.reschedule (nd.setTimerValue time), s.held.eraseIdx i⟩, 0)
  | .freeNode i => (s.held[i]?).map fun nd => (⟨s.queue.freeNode nd, s.held.eraseIdx i⟩, 0)

/-- A command is **available** when it does not read `timer_ids_` at `max_size_`, and names
a node the caller holds. -/
def Available (s : State α β) : Command α β → Prop
  | .cancel timerId => timerId ≠ s.queue.maxSize
  | .resetInterval timerId _ => timerId ≠ s.queue.maxSize
  | .reschedule i _ => i < s.held.length
  | .freeNode i => i < s.held.length
  | _ => True

theorem lookup_isSome {timerId : ℤ} (h : timerId ≠ s.maxSize) :
    ∃ found, s.lookup timerId = some found := by
  unfold lookup
  dsimp only
  split_ifs <;> exact ⟨_, rfl⟩

/-- **An available command has an answer.** -/
theorem step_isSome [DecidableEq α] {s : State α β} {c : Command α β} (h : Available s c) :
    ∃ t o, step s c = some (t, o) := by
  cases c with
  | schedule type act futureTime interval => exact ⟨_, _, rfl⟩
  | cancel timerId =>
    obtain ⟨found, hf⟩ := lookup_isSome h
    exact ⟨_, _, by simp only [step, TimerHeap.cancel, hf, Option.map_some]; rfl⟩
  | cancelType type => exact ⟨_, _, rfl⟩
  | resetInterval timerId interval =>
    obtain ⟨found, hf⟩ := lookup_isSome h
    exact ⟨_, _, by simp only [step, TimerHeap.resetInterval, hf, Option.map_some]; rfl⟩
  | removeFirst =>
    simp only [step]
    cases s.queue.removeFirst with
    | none => exact ⟨_, _, rfl⟩
    | some r => exact ⟨_, _, rfl⟩
  | reschedule i time =>
    have hi : i < s.held.length := h
    exact ⟨_, _, by simp only [step, List.getElem?_eq_getElem hi, Option.map_some]; rfl⟩
  | freeNode i =>
    have hi : i < s.held.length := h
    exact ⟨_, _, by simp only [step, List.getElem?_eq_getElem hi, Option.map_some]; rfl⟩

/-! ### The invariant over runs -/

/-- The invariant of a heap in the hands of a caller. -/
def State.Inv (s : State α β) : Prop := s.queue.Inv (s.held : Multiset (TimerNode α β))

/-- A fresh heap of size at least two satisfies the invariant. -/
theorem State.init_inv {size : ℕ} (hsize : 2 ≤ size) (preallocated : Bool)
    (heap : ℕ → TimerNode α β) : (State.init size preallocated heap).Inv := by
  have hmax : 2 ≤ min size (2 ^ 63 - 1) := by omega
  have hnodes : (TimerHeap.init size preallocated heap).nodes = 0 := rfl
  refine ⟨⟨?_, ?_, ?_⟩, ?_, ?_, ?_, ?_, ?_, rfl, ?_, ⟨?_, ?_, ?_⟩⟩
  · rw [State.init, hnodes]
    exact fun nd hnd => absurd hnd (Multiset.notMem_zero nd)
  · exact fun i hi => absurd hi (Nat.not_lt_zero i)
  · intro k _ hk
    have : (0 : ℤ) ≤ -1 := hk
    omega
  · exact fun i _ hi => absurd hi (Nat.not_lt_zero i)
  · exact hmax
  · intro k _
    simp [State.init, TimerHeap.init]
  · exact fun nd hnd => absurd hnd (Multiset.notMem_zero nd)
  · exact Multiset.nodup_zero
  · intro f hf
    simp only [State.init, TimerHeap.init] at hf ⊢
    split at hf <;> simp_all
  · show 0 < min size (2 ^ 63 - 1)
    omega
  · refine Or.inr ⟨le_rfl, ?_, by show (-1 : ℤ) < 0; omega, by show (-1 : ℤ) ≠ -2; omega⟩
    show 0 < min size (2 ^ 63 - 1)
    omega
  · exact fun i j _ _ hi => absurd hi (Nat.not_lt_zero i)

/-- The node of index `i` that the caller holds, and the others. -/
theorem held_eq_cons {held : List (TimerNode α β)} {i : ℕ} (h : held[i]? = some nd) :
    (held : Multiset (TimerNode α β)) = nd ::ₘ (held.eraseIdx i : List (TimerNode α β)) := by
  obtain ⟨hi, rfl⟩ := List.getElem?_eq_some_iff.mp h
  rw [Multiset.cons_coe, Multiset.coe_eq_coe]
  exact (List.getElem_cons_eraseIdx_perm hi).symm

/-- **Every command keeps the invariant.** -/
theorem step_inv [DecidableEq α] {s t : State α β} {c : Command α β} {o : ℤ} (h : s.Inv)
    (hstep : step s c = some (t, o)) : t.Inv := by
  cases c with
  | schedule type act futureTime interval =>
    cases hstep
    obtain ⟨k, -, -, hinv, -⟩ := TimerHeap.Inv.scheduleI h type act futureTime interval
    exact hinv
  | cancel timerId =>
    obtain ⟨⟨c, act, q⟩, hr, heq⟩ := Option.map_eq_some_iff.mp hstep
    cases heq
    exact TimerHeap.Inv.cancel h hr
  | cancelType type =>
    cases hstep
    exact (TimerHeap.Inv.cancelTypeLoop h fun j hj => absurd hj (Nat.not_lt_zero j)).1
  | resetInterval timerId interval =>
    obtain ⟨⟨c, q⟩, hr, heq⟩ := Option.map_eq_some_iff.mp hstep
    cases heq
    exact TimerHeap.Inv.resetInterval h hr
  | removeFirst =>
    simp only [step, TimerHeap.removeFirst] at hstep
    split at hstep
    · cases hstep
      exact h
    · rename_i r hr
      cases hstep
      split at hr
      · cases hr
      · cases hr
        exact TimerHeap.Inv.remove h (show 0 < s.queue.curSize by omega)
  | reschedule i time =>
    obtain ⟨nd, hnd, heq⟩ := Option.map_eq_some_iff.mp hstep
    cases heq
    unfold State.Inv at h
    rw [held_eq_cons hnd] at h
    exact (TimerHeap.Inv.reschedule h (TimerNode.setTimerValue_timerId nd time)).1
  | freeNode i =>
    obtain ⟨nd, hnd, heq⟩ := Option.map_eq_some_iff.mp hstep
    cases heq
    unfold State.Inv at h
    rw [held_eq_cons hnd] at h
    exact TimerHeap.Inv.freeNode h

/-- **Every run keeps the invariant.** -/
theorem inv_of_run [DecidableEq α] {s t : State α β} {cs : List (Command α β)} {os : List ℤ}
    (h : s.Inv) (hrun : run step s cs = some (t, os)) : t.Inv :=
  Machine.inv_run (fun _ _ _ _ hs hstep => step_inv hs hstep) h hrun

/-! ### The two arrays, in every reachable state -/

/-- **A consistent heap**: heap order, arrays that are inverse to one another, and counters
that count. -/
structure Consistent (s : TimerHeap α β) : Prop where
  /-- No node is earlier than its parent. -/
  ordered : ∀ i, 0 < i → i < s.curSize →
    (s.heap ((i - 1) / 2)).timerValue ≤ (s.heap i).timerValue
  /-- `earliest_time` is the minimum over the scheduled timers. -/
  earliest : 0 < s.curSize → (∃ i, i < s.curSize ∧ (s.heap i).timerValue = s.earliestTime) ∧
    ∀ i, i < s.curSize → s.earliestTime ≤ (s.heap i).timerValue
  /-- The id of the node of a slot points at the slot. -/
  located : ∀ i, i < s.curSize → 0 ≤ (s.heap i).timerId ∧ (s.heap i).timerId < s.maxSize ∧
    s.timerIds (s.heap i).timerId.toNat = i
  /-- A non-negative entry is the slot of the node with that id. -/
  inverse : ∀ k : ℕ, k < s.maxSize → 0 ≤ s.timerIds k →
    ∃ i, i < s.curSize ∧ s.timerIds k = i ∧ (s.heap i).timerId = k
  /-- `cur_limbo_` counts the entries `-2`. -/
  limbo : ((Finset.range s.maxSize).filter fun k => s.timerIds k = -2).card = s.curLimbo
  room : s.curSize + s.curLimbo < s.maxSize

theorem Inv.consistent (h : Inv s held) : Consistent s where
  ordered := h.ordered
  earliest h₀ := ⟨⟨0, h₀, rfl⟩, fun _ hi => h.ordered.root_le hi⟩
  located i hi := by
    obtain ⟨h₀, hlt⟩ := h.linked.range _ (heap_mem_nodes hi)
    exact ⟨h₀, hlt, h.linked.located i hi⟩
  inverse := h.linked.inverse
  limbo := h.card_limbo
  room := by
    have := h.room
    omega

/-- The contents of an array of nodes that is not initialised. -/
def noNode : TimerNode ℕ ℕ := ⟨0, 0, TimeValue.zero, TimeValue.zero, 0⟩

end TimerHeap

end AceTao
