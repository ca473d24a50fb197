import AceTao.TimerList
import AceTao.TimerHeap.Runs

/-!
# Expiry over the timer list and the timer heap

The timer heap is a lawful timer queue: `remove_first` leaves its node in limbo, and
`reschedule` and `free_node` take it from there, whatever else is in limbo and whether or
not the arrays grow. With the timer list, this gives the two instances of
`AceTao.expiresCorrectly_iff` (`AceTao.expire_iff`), and the timers with which `expire` fails
to do what it is meant to (`AceTao.expire_fails`).
-/

namespace AceTao

namespace TimerHeap

variable {α β : Type} {s : TimerHeap α β} {nd nd' : TimerNode α β}

/-- A heap whose node `nd` is in limbo, in the hands of the caller. -/
structure InLimbo (nd : TimerNode α β) (s : TimerHeap α β) : Prop where
  linked : Linked s
  ordered : HeapOrdered s
  id_nonneg : 0 ≤ nd.timerId
  id_lt : nd.timerId < s.maxSize
  limbo : s.timerIds nd.timerId.toNat = -2

/-- A node in limbo is not in the heap. -/
theorem InLimbo.ne (h : InLimbo nd s) (hnd : nd' ∈ s.nodes) :
    nd'.timerId.toNat ≠ nd.timerId.toNat := by
  intro heq
  have hpos := h.linked.nonneg_of_mem hnd
  rw [heq, h.limbo] at hpos
  omega

/-- `remove_first` takes out an earliest node. -/
theorem remove_zero_spec (hl : Linked s) (ho : HeapOrdered s) (h₀ : 0 < s.curSize) :
    s.nodes = s.heap 0 ::ₘ (s.remove 0).2.nodes ∧
      (∀ nd ∈ s.nodes, (s.heap 0).timerValue ≤ nd.timerValue) ∧
      InLimbo (s.heap 0) (s.remove 0).2 := by
  obtain ⟨-, hr⟩ := remove_spec hl h₀
  obtain ⟨hid, hlt⟩ := hl.range _ (heap_mem_nodes h₀)
  refine ⟨hr.nodes.symm, fun nd hnd => ?_,
    ⟨hr.linked hl, remove_ordered hl ho h₀, hid, hr.maxSize ▸ hlt, hr.limbo⟩⟩
  obtain ⟨i, hi, rfl⟩ := mem_nodes.mp hnd
  exact ho.root_le hi

theorem makeRoom_ordered (h : HeapOrdered s) : HeapOrdered s.makeRoom := by
  rw [HeapOrdered, makeRoom_curSize, makeRoom_heap]
  exact h

theorem le_makeRoom_maxSize : s.maxSize ≤ s.makeRoom.maxSize := by
  rw [makeRoom]
  split
  · show s.maxSize ≤ s.maxSize * 2
    omega
  · exact le_rfl

/-- **`reschedule` puts a node in limbo back**, at any time. -/
theorem InLimbo.reschedule (h : InLimbo nd s) (hid : nd'.timerId = nd.timerId) :
    Linked (s.reschedule nd') ∧ HeapOrdered (s.reschedule nd') ∧
      (s.reschedule nd').nodes = nd' ::ₘ s.nodes := by
  have hresch : s.reschedule nd' = insert nd' { s with curLimbo := s.curLimbo - 1 } := by
    rw [TimerHeap.reschedule, hid, if_pos h.limbo]
  generalize hb : ({ s with curLimbo := s.curLimbo - 1 } : TimerHeap α β) = b at hresch
  have hl : Linked b := hb ▸ ⟨h.linked.range, h.linked.located, h.linked.inverse⟩
  have ho : HeapOrdered b := hb ▸ h.ordered
  have hn : b.nodes = s.nodes := hb ▸ rfl
  have hmax : s.maxSize ≤ b.makeRoom.maxSize :=
    (show s.maxSize = b.maxSize from hb ▸ rfl).trans_le le_makeRoom_maxSize
  have hins := insert_spec nd' hl.makeRoom (by
    rw [makeRoom_nodes, hn, hid]
    exact fun x hx => h.ne hx)
  have hlt := h.id_lt
  have h₀ := h.id_nonneg
  rw [hresch]
  refine ⟨hins.linked hl.makeRoom (by omega) (by omega), insert_ordered nd' (makeRoom_ordered ho), ?_⟩
  rw [hins.nodes, makeRoom_nodes, hn]

/-- **`free_node` gives back the id of a node in limbo**; the heap is as it was. -/
theorem InLimbo.freeNode (h : InLimbo nd s) :
    Linked (s.freeNode nd) ∧ HeapOrdered (s.freeNode nd) ∧ (s.freeNode nd).nodes = s.nodes := by
  have hcur : (s.freeNode nd).curSize = s.curSize := if_pos h.limbo
  have hnodes : (s.freeNode nd).nodes = s.nodes := by
    rw [nodes, hcur]
    rfl
  have hids : ∀ k, k ≠ nd.timerId.toNat → (s.freeNode nd).timerIds k = s.timerIds k :=
    fun k hk => Function.update_of_ne hk ..
  refine ⟨Linked.of_located ?_ (fun i hi => ?_) fun k hk hout => ?_, ?_, hnodes⟩
  · rw [hnodes]
    exact h.linked.range
  · rw [hcur] at hi
    exact (hids _ (h.ne (heap_mem_nodes hi))).trans (h.linked.located i hi)
  · rcases eq_or_ne k nd.timerId.toNat with rfl | hne
    · show Function.update s.timerIds nd.timerId.toNat (-1) nd.timerId.toNat < 0
      rw [Function.update_self]
      omega
    · rw [hids k hne]
      exact h.linked.neg_of_forall_ne hk (hnodes ▸ hout)
  · rw [HeapOrdered, hcur]
    exact h.ordered

/-- The virtual functions of a timer heap. -/
instance : TimerQueue (TimerHeap α β) α β where
  isEmpty := isEmpty
  earliestTime := earliestTime
  removeFirst := removeFirst
  reschedule nd s := some (s.reschedule nd)
  freeNode nd s := some (s.freeNode nd)

/-- **The timer heap is a lawful timer queue.** -/
instance : LawfulTimerQueue (TimerHeap α β) α β where
  Valid s := Linked s ∧ HeapOrdered s
  Held := InLimbo
  contents := nodes
  isEmpty_iff s := by
    show decide (s.curSize = 0) = true ↔ _
    rw [decide_eq_true_eq, ← card_nodes, Multiset.card_eq_zero]
  removeFirst_spec := by
    rintro s ⟨hl, ho⟩ hne
    have h₀ : 0 < s.curSize := by
      rw [← card_nodes]
      exact Multiset.card_pos.mpr hne
    obtain ⟨hnodes, hmin, hlimbo⟩ := remove_zero_spec hl ho h₀
    exact ⟨s.heap 0, _, if_neg h₀.ne', rfl, hnodes, hmin, hlimbo⟩
  reschedule_spec _ _ _ h hid :=
    ⟨_, rfl, ⟨(h.reschedule hid).1, (h.reschedule hid).2.1⟩, (h.reschedule hid).2.2⟩
  freeNode_spec _ _ h := ⟨_, rfl, ⟨h.freeNode.1, h.freeNode.2.1⟩, h.freeNode.2.2⟩

end TimerHeap

open TimeValue (zero maxTime)

/-- **When `expire` does what it is meant to**, over the timer list, over a timer heap whose
arrays are consistent, and over a timer heap reached by a run: exactly when the next expiry
of every repeating timer that is due fits. -/
theorem expire_iff {α β : Type} [DecidableEq α] (curTime : TimeValue) :
    (∀ q : TimerList α β, ExpiresCorrectly curTime q ↔
      ∀ nd ∈ q.nodes, nd.timerValue ≤ curTime → zero < nd.interval → NextFits curTime nd) ∧
    (∀ q : TimerHeap α β, q.Linked → q.HeapOrdered → (ExpiresCorrectly curTime q ↔
      ∀ nd ∈ q.nodes, nd.timerValue ≤ curTime → zero < nd.interval → NextFits curTime nd)) ∧
    ∀ (size : ℕ) (preallocated : Bool) (heap : ℕ → TimerNode α β)
      (cs : List (TimerHeap.Command α β)) (t : TimerHeap.State α β) (os : List ℤ), 2 ≤ size →
      Machine.run TimerHeap.step (TimerHeap.State.init size preallocated heap) cs = some (t, os) →
      (ExpiresCorrectly curTime t.queue ↔ ∀ nd ∈ t.queue.nodes,
        nd.timerValue ≤ curTime → zero < nd.interval → NextFits curTime nd) := by
  refine ⟨fun q => expiresCorrectly_iff (q := q) trivial,
    fun q hl ho => expiresCorrectly_iff (q := q) ⟨hl, ho⟩, ?_⟩
  intro size preallocated heap cs t os hsize hrun
  have hinv := TimerHeap.inv_of_run (TimerHeap.State.init_inv hsize preallocated heap) hrun
  exact expiresCorrectly_iff (q := t.queue) ⟨hinv.linked, hinv.ordered⟩

/-- A timer list with one repeating timer. -/
def oneTimer (time interval : TimeValue) : TimerList ℕ ℕ :=
  TimerList.empty.scheduleNode ⟨0, 0, time, interval, 0⟩

/-- A timer due at three seconds with a period of one second, at five seconds: on the list,
and on a heap into which it and a timer of one shot have been scheduled. -/
theorem expire_iff_nonvacuous :
    ExpiresCorrectly (TimeValue.set 5 0) (oneTimer (TimeValue.set 3 0) (TimeValue.set 1 0)) ∧
    ∃ t os, Machine.run TimerHeap.step (TimerHeap.State.init 2 true fun _ => TimerHeap.noNode)
      [.schedule 7 1 (TimeValue.set 3 0) (TimeValue.set 1 0),
        .schedule 8 2 (TimeValue.set 4 0) zero] = some (t, os) ∧
      ((ExpiresCorrectly (TimeValue.set 5 0) t.queue ↔ ∀ nd ∈ t.queue.nodes,
        nd.timerValue ≤ TimeValue.set 5 0 → zero < nd.interval → NextFits (TimeValue.set 5 0) nd) ∧
      (ExpiresCorrectly (TimeValue.set 5 0) t.queue ↔ ∀ nd ∈ t.queue.nodes,
        nd.timerValue ≤ TimeValue.set 5 0 → zero < nd.interval →
          NextFits (TimeValue.set 5 0) nd)) := by
  obtain ⟨hlist, hheap, hrun⟩ := expire_iff (α := ℕ) (β := ℕ) (TimeValue.set 5 0)
  obtain ⟨⟨t, os⟩, h⟩ := Option.isSome_iff_exists.mp (show (Machine.run TimerHeap.step
    (TimerHeap.State.init 2 true fun _ => TimerHeap.noNode)
      [.schedule 7 1 (TimeValue.set 3 0) (TimeValue.set 1 0),
        .schedule 8 2 (TimeValue.set 4 0) zero]).isSome = true by decide +kernel)
  have hinv := TimerHeap.inv_of_run (TimerHeap.State.init_inv le_rfl true _) h
  refine ⟨(hlist _).mpr fun nd hnd _ _ => ?_, t, os, h, hheap _ hinv.linked hinv.ordered,
    hrun 2 true _ _ t os le_rfl h⟩
  obtain rfl : nd = ⟨0, 0, TimeValue.set 3 0, TimeValue.set 1 0, 0⟩ := List.mem_singleton.mp hnd
  exact ⟨by decide +kernel, by decide +kernel⟩

/-- **Two timers that `expire` cannot handle**: a period of `2 ^ 58` seconds is zero as an
unsigned 64-bit number of microseconds, and the division by it undefined; and at the last
representable time there is no later time to which a timer with a period of one second could
be moved, so the loop dispatches it for ever. -/
theorem expire_fails : ¬ExpiresCorrectly zero (oneTimer zero (TimeValue.set (2 ^ 58) 0)) ∧
    ¬ExpiresCorrectly maxTime (oneTimer maxTime (TimeValue.set 1 0)) := by
  have hmem : ∀ time interval, (⟨0, 0, time, interval, 0⟩ : TimerNode ℕ ℕ)
      ∈ (oneTimer time interval).nodes := fun _ _ => List.mem_cons_self ..
  constructor
  · intro h
    have hfits := (expiresCorrectly_iff (q := oneTimer zero (TimeValue.set (2 ^ 58) 0)) trivial).mp
      h _ (hmem _ _) (le_refl zero) (show zero < TimeValue.set (2 ^ 58) 0 by decide +kernel)
    exact hfits.1 (by decide +kernel)
  · intro h
    have hfits := (expiresCorrectly_iff (q := oneTimer maxTime (TimeValue.set 1 0)) trivial).mp
      h _ (hmem _ _) (le_refl maxTime) (show zero < TimeValue.set 1 0 by decide +kernel)
    have hnot : ¬maxTime.micros + ((TimeValue.set 1 0).micros % 2 ^ 64 -
        (maxTime.micros - maxTime.micros) % 2 ^ 64 % ((TimeValue.set 1 0).micros % 2 ^ 64))
        < 2 ^ 63 * oneSecondInUsecs := by decide +kernel
    exact hnot hfits.2

end AceTao
