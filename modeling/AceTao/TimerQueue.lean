import Mathlib.Data.Multiset.AddSub
import Mathlib.Data.Multiset.Filter
import Mathlib.Data.Multiset.MapFold
import AceTao.TimeValue

/-!
# `ACE_Timer_Node_T`

The node every timer queue stores: what to dispatch (`type`, `act`), when
(`timerValue`, `interval`) and the id under which the timer can be cancelled. The
`prev` and `next` links of the source belong to the containers that use them.
-/

namespace AceTao

/-- **`ACE_Timer_Node_T`**, over the type of the handlers and the type of the
asynchronous completion tokens. -/
@[ext]
structure TimerNode (α β : Type) where
  /-- `type_` -/
  type : α
  /-- `act_` -/
  act : β
  /-- `timer_value_`: the absolute time at which the timer expires. -/
  timerValue : TimeValue
  /-- `interval_`: the period of a repeating timer, zero for a one-shot timer. -/
  interval : TimeValue
  /-- `timer_id_` -/
  timerId : ℤ
deriving DecidableEq

namespace TimerNode

variable {α β : Type}

/-- `set_timer_value`. -/
def setTimerValue (n : TimerNode α β) (t : TimeValue) : TimerNode α β :=
  { n with timerValue := t }

/-- `set_interval`. -/
def setInterval (n : TimerNode α β) (t : TimeValue) : TimerNode α β :=
  { n with interval := t }

@[simp] theorem setTimerValue_timerValue (n : TimerNode α β) (t : TimeValue) :
    (n.setTimerValue t).timerValue = t := rfl

@[simp] theorem setTimerValue_timerId (n : TimerNode α β) (t : TimeValue) :
    (n.setTimerValue t).timerId = n.timerId := rfl

@[simp] theorem setInterval_timerValue (n : TimerNode α β) (t : TimeValue) :
    (n.setInterval t).timerValue = n.timerValue := rfl

@[simp] theorem setInterval_timerId (n : TimerNode α β) (t : TimeValue) :
    (n.setInterval t).timerId = n.timerId := rfl

/-- What `reset_interval` does to the node with an id. -/
def withInterval (timerId : ℤ) (interval : TimeValue) (n : TimerNode α β) :
    Option (TimerNode α β) :=
  if n.timerId = timerId then some (n.setInterval interval) else none

theorem withInterval_eq_some {timerId : ℤ} {interval : TimeValue} {m n : TimerNode α β}
    (h : withInterval timerId interval m = some n) : n = m.setInterval interval := by
  rw [withInterval] at h
  split_ifs at h
  exact (Option.some.inj h).symm

end TimerNode

/-- The ids of the timers of a list are distinct. -/
def DistinctIds {α β : Type} (l : List (TimerNode α β)) : Prop :=
  (l.map TimerNode.timerId).Nodup

theorem DistinctIds.sublist {α β : Type} {l l' : List (TimerNode α β)} (h : DistinctIds l)
    (hl : l'.Sublist l) : DistinctIds l' :=
  List.Nodup.sublist (hl.map _) h

end AceTao

/-!
## `ACE_Timer_Queue_T`

The base class of the timer queues: `expire` dispatches the timers that are due, one after
the other, through the virtual functions of the container. The class
`AceTao.TimerQueue` lists these functions, and `AceTao.dispatchInfoI` and `AceTao.expire`
are defined once over it.

What a container promises is `AceTao.LawfulTimerQueue`: it holds a multiset of timers,
`remove_first` takes out an earliest one, which is then held by the caller until it is
rescheduled or freed. From that alone follows exactly when `expire` does what it is meant to
(`AceTao.expiresCorrectly_iff`): the loop relies on every repeating timer being moved past
the current time, and `recompute_next_abs_interval_time` does so if and only if the next
expiry can be computed and represented (`AceTao.NextFits`).
-/

namespace AceTao

open TimeValue (zero later micros_later later_lt_zero zero_lt_of_not_fits le_iff_micros lt_iff_micros
  toUsec_sub)

variable {α β Q : Type}

/-- **`ACE_Timer_Node_Dispatch_Info_T`**: what an upcall is made with. -/
structure DispatchInfo (α β : Type) where
  /-- `type_` -/
  type : α
  /-- `act_` -/
  act : β
  /-- `recurring_timer_` -/
  recurringTimer : Bool
deriving DecidableEq

/-- `get_dispatch_info`. -/
def TimerNode.getDispatchInfo (n : TimerNode α β) : DispatchInfo α β :=
  ⟨n.type, n.act, decide (zero < n.interval)⟩

/-- **The virtual functions** `ACE_Timer_Queue_T` calls. `remove_first` may return the null
pointer, and the last two may fail an assertion. -/
class TimerQueue (Q : Type) (α β : outParam Type) where
  /-- `is_empty` -/
  isEmpty : Q → Bool
  /-- `earliest_time` -/
  earliestTime : Q → TimeValue
  /-- `remove_first` -/
  removeFirst : Q → Option (TimerNode α β × Q)
  /-- `reschedule` -/
  reschedule : TimerNode α β → Q → Option Q
  /-- `free_node` -/
  freeNode : TimerNode α β → Q → Option Q

open TimerQueue

/-- **`recompute_next_abs_interval_time`**, in unsigned arithmetic on 64 bits. It has no
answer when the interval is zero there and the remainder is a division by zero. -/
def recomputeNextAbsIntervalTime (expired : TimerNode α β) (curTime : TimeValue) :
    Option (TimerNode α β) :=
  if expired.timerValue ≤ curTime then
    let intervalUsec := expired.interval.toUsec
    let oldDiffUsec := (curTime - expired.timerValue).toUsec
    if intervalUsec = 0 then none
    else
      let newTimerUsec := intervalUsec - oldDiffUsec % intervalUsec
      some (expired.setTimerValue (curTime.later newTimerUsec))
  else some expired

/-- The next expiry changes the time only. -/
theorem recompute_eq_some {n n' : TimerNode α β} {curTime : TimeValue}
    (h : recomputeNextAbsIntervalTime n curTime = some n') : ∃ t, n' = n.setTimerValue t := by
  simp only [recomputeNextAbsIntervalTime] at h
  split_ifs at h
  · exact ⟨_, (Option.some.inj h).symm⟩
  · exact ⟨n.timerValue, (Option.some.inj h).symm⟩

/-- **`dispatch_info_i`**: the earliest timer, if it is due, is taken out and rescheduled or
freed. No answer is undefined behaviour, `none` in it the result `0`. -/
def dispatchInfoI [TimerQueue Q α β] (curTime : TimeValue) (q : Q) :
    Option (Option (DispatchInfo α β) × Q) :=
  if isEmpty q then some (none, q)
  else if earliestTime q ≤ curTime then
    match removeFirst q with
    | none => none
    | some (expired, q') =>
      if zero < expired.interval then
        match recomputeNextAbsIntervalTime expired curTime with
        | none => none
        | some next => (reschedule next q').map fun q'' => (some expired.getDispatchInfo, q'')
      else (freeNode expired q').map fun q'' => (some expired.getDispatchInfo, q'')
  else some (none, q)

/-- The loop of `expire`, with at most `fuel` evaluations of its condition. -/
def expireLoop [TimerQueue Q α β] :
    ℕ → TimeValue → Q → Option (List (DispatchInfo α β) × Q)
  | 0, _, _ => none
  | fuel + 1, curTime, q =>
    match dispatchInfoI curTime q with
    | none => none
    | some (none, q') => some ([], q')
    | some (some info, q') =>
      match expireLoop fuel curTime q' with
      | none => none
      | some (infos, q'') => some (info :: infos, q'')

/-- **`expire (cur_time)`**: the upcalls it makes, whose number it returns, and the queue it
leaves. The upcalls themselves do not touch the queue. -/
def expire [TimerQueue Q α β] (fuel : ℕ) (curTime : TimeValue) (q : Q) :
    Option (List (DispatchInfo α β) × Q) :=
  if isEmpty q then some ([], q) else expireLoop fuel curTime q

section Unfolding

variable [TimerQueue Q α β] {q q' : Q} {curTime : TimeValue}

theorem expireLoop_succ_of_some {fuel : ℕ} {info : DispatchInfo α β} {infos : List (DispatchInfo α β)}
    {q'' : Q} (hd : dispatchInfoI curTime q = some (some info, q'))
    (hl : expireLoop fuel curTime q' = some (infos, q'')) :
    expireLoop (fuel + 1) curTime q = some (info :: infos, q'') := by
  simp only [expireLoop, hd, hl]

/-- More fuel does not change the answer. -/
theorem expireLoop_mono {fuel fuel' : ℕ} {infos : List (DispatchInfo α β)} {q'' : Q}
    (hle : fuel ≤ fuel') (h : expireLoop fuel curTime q = some (infos, q'')) :
    expireLoop fuel' curTime q = some (infos, q'') := by
  induction fuel generalizing fuel' q infos with
  | zero => cases h
  | succ fuel ih =>
    obtain ⟨fuel', rfl⟩ := Nat.exists_eq_succ_of_ne_zero (show fuel' ≠ 0 by omega)
    rw [expireLoop] at h ⊢
    split
    case h_1 hd =>
      rw [hd] at h
      cases h
    case h_2 q₁ hd =>
      rw [hd] at h
      exact h
    case h_3 info q₁ hd =>
      rw [hd] at h
      dsimp only at h
      split at h
      · cases h
      · rename_i infos' t hl
        cases h
        rw [ih (by omega) hl]

/-- Given fuel, `expire` is its loop: on the empty queue the loop ends at once. -/
theorem expire_succ (fuel : ℕ) (q : Q) :
    expire (fuel + 1) curTime q = expireLoop (fuel + 1) curTime q := by
  rw [expire]
  split
  case isTrue hempty => simp only [expireLoop, dispatchInfoI, if_pos hempty]
  case isFalse => rfl

end Unfolding

/-! ### What a container promises -/

/-- **A lawful timer queue**: a container of a multiset of timers. `Valid` is its
representation invariant, and `Held nd` the same while the caller holds the node `nd` that
`remove_first` has taken out. -/
class LawfulTimerQueue (Q : Type) (α β : outParam Type) [TimerQueue Q α β] where
  Valid : Q → Prop
  Held : TimerNode α β → Q → Prop
  contents : Q → Multiset (TimerNode α β)
  isEmpty_iff : ∀ q, isEmpty q = true ↔ contents q = 0
  removeFirst_spec : ∀ q, Valid q → contents q ≠ 0 →
    ∃ nd q', removeFirst q = some (nd, q') ∧ earliestTime q = nd.timerValue ∧
      contents q = nd ::ₘ contents q' ∧ (∀ x ∈ contents q, nd.timerValue ≤ x.timerValue) ∧
      Held nd q'
  reschedule_spec : ∀ nd nd' q, Held nd q → nd'.timerId = nd.timerId →
    ∃ q', reschedule nd' q = some q' ∧ Valid q' ∧ contents q' = nd' ::ₘ contents q
  freeNode_spec : ∀ nd q, Held nd q →
    ∃ q', freeNode nd q = some q' ∧ Valid q' ∧ contents q' = contents q

open LawfulTimerQueue

/-- A timer is **due** at a time. -/
def Due (curTime : TimeValue) (nd : TimerNode α β) : Prop := nd.timerValue ≤ curTime

instance (curTime : TimeValue) : DecidablePred (Due (α := α) (β := β) curTime) := fun nd =>
  inferInstanceAs (Decidable (nd.timerValue ≤ curTime))

/-- A repeating timer. -/
def Recurring (nd : TimerNode α β) : Prop := zero < nd.interval

instance : DecidablePred (Recurring (α := α) (β := β)) := fun nd =>
  inferInstanceAs (Decidable (zero < nd.interval))

/-- **What `expire (cur_time)` is meant to do**: it ends; it dispatches the timers due on
entry, each once and in the order of their expiry, and no other; and it leaves the later
timers and the repeating ones among those dispatched, each the same but for a time after
`cur_time`. -/
def ExpiresCorrectly [TimerQueue Q α β] [LawfulTimerQueue Q α β] (curTime : TimeValue) (q : Q) :
    Prop :=
  ∃ (fuel : ℕ) (dispatched : List (TimerNode α β)) (next : TimerNode α β → TimeValue) (q' : Q),
    expire fuel curTime q = some (dispatched.map TimerNode.getDispatchInfo, q') ∧
    (dispatched : Multiset (TimerNode α β)) = (contents q).filter (Due curTime) ∧
    dispatched.Pairwise (fun a b => a.timerValue ≤ b.timerValue) ∧
    (∀ nd ∈ dispatched, Recurring nd → curTime < next nd) ∧
    Valid q' ∧
    contents q' = (contents q).filter (fun nd => ¬Due curTime nd) +
      ((contents q).filter fun nd => Due curTime nd ∧ Recurring nd).map
        fun nd => nd.setTimerValue (next nd)

/-- **The next expiry of a repeating timer can be computed and represented**: the interval is
not zero as an unsigned 64-bit number of microseconds, and the first time after `cur_time`
that is a whole number of intervals after the expiry is a `time_t`. -/
def NextFits (curTime : TimeValue) (nd : TimerNode α β) : Prop :=
  nd.interval.micros % 2 ^ 64 ≠ 0 ∧
    curTime.micros + (nd.interval.micros % 2 ^ 64 -
      (curTime.micros - nd.timerValue.micros) % 2 ^ 64 % (nd.interval.micros % 2 ^ 64))
      < 2 ^ 63 * oneSecondInUsecs

/-! ### The next expiry -/

variable {curTime : TimeValue} {nd : TimerNode α β}

/-- The time at which a repeating timer is due next. -/
def nextExpiry (curTime : TimeValue) (nd : TimerNode α β) : TimeValue :=
  curTime.later (nd.interval.toUsec - (curTime - nd.timerValue).toUsec % nd.interval.toUsec)

/-- A timer with its next expiry. -/
def renew (curTime : TimeValue) (nd : TimerNode α β) : TimerNode α β :=
  nd.setTimerValue (nextExpiry curTime nd)

/-- `recompute_next_abs_interval_time` sets the next expiry of a timer that is due, unless it
divides by zero. -/
theorem recompute_of_due (hdue : Due curTime nd) :
    recomputeNextAbsIntervalTime nd curTime
      = if nd.interval.toUsec = 0 then none else some (renew curTime nd) := by
  rw [recomputeNextAbsIntervalTime, if_pos (show nd.timerValue ≤ curTime from hdue)]
  rfl

/-- **The next expiry is after the current time exactly when it fits.** -/
theorem lt_nextExpiry_iff (h0 : nd.interval.toUsec ≠ 0) :
    curTime < nextExpiry curTime nd ↔ NextFits curTime nd := by
  have hI := nd.interval.toUsec_nonneg
  have hI' : nd.interval.toUsec < 2 ^ 64 := Int.emod_lt_of_pos _ (by norm_num)
  have hmod := Int.emod_nonneg ((curTime - nd.timerValue).toUsec) h0
  have hmod' := Int.emod_lt_of_pos ((curTime - nd.timerValue).toUsec)
    (show 0 < nd.interval.toUsec by omega)
  have hfits : NextFits curTime nd ↔ curTime.micros + (nd.interval.toUsec -
      (curTime - nd.timerValue).toUsec % nd.interval.toUsec) < 2 ^ 63 * oneSecondInUsecs := by
    rw [toUsec_sub]
    exact ⟨fun h => h.2, fun h => ⟨h0, h⟩⟩
  rw [hfits]
  constructor
  · intro hlt
    by_contra hge
    have hpast := later_lt_zero (a := curTime) (by omega) (not_lt.mp hge)
    have hpos := zero_lt_of_not_fits (a := curTime) (by omega) (not_lt.mp hge)
    exact absurd ((hpast.trans hpos).trans hlt) (lt_irrefl _)
  · intro h
    rw [nextExpiry, lt_iff_micros, micros_later (by omega) (by omega) h]
    omega

/-- A next expiry that is not before the epoch is after the current time. -/
theorem lt_nextExpiry_of_epoch (h0 : nd.interval.toUsec ≠ 0) (h : zero ≤ nextExpiry curTime nd) :
    curTime < nextExpiry curTime nd := by
  have hI' : nd.interval.toUsec < 2 ^ 64 := Int.emod_lt_of_pos _ (by norm_num)
  have hmod := Int.emod_nonneg ((curTime - nd.timerValue).toUsec) h0
  have hI := nd.interval.toUsec_nonneg
  have hmod' := Int.emod_lt_of_pos ((curTime - nd.timerValue).toUsec)
    (show 0 < nd.interval.toUsec by omega)
  rw [nextExpiry] at h ⊢
  by_cases hfits : curTime.micros + (nd.interval.toUsec -
      (curTime - nd.timerValue).toUsec % nd.interval.toUsec) < 2 ^ 63 * oneSecondInUsecs
  · rw [lt_iff_micros, micros_later (by omega) (by omega) hfits]
    omega
  · exact absurd (later_lt_zero (a := curTime) (by omega) (not_lt.mp hfits)) (not_lt.mpr h)

theorem renew_due_iff (h0 : nd.interval.toUsec ≠ 0) :
    Due curTime (renew curTime nd) ↔ ¬NextFits curTime nd := by
  rw [← lt_nextExpiry_iff h0, not_lt]
  rfl

/-! ### One dispatch -/

section Lawful

variable [TimerQueue Q α β] [LawfulTimerQueue Q α β] {q q' : Q}

/-- The number of timers that are due. -/
def dueCount (curTime : TimeValue) (q : Q) : ℕ := (contents q).countP (Due curTime)

/-- **`dispatch_info_i`, when no timer is due**, does nothing. -/
theorem dispatchInfoI_of_not_due (hq : Valid q) (h : ∀ nd ∈ contents q, ¬Due curTime nd) :
    dispatchInfoI curTime q = some (none, q) := by
  rw [dispatchInfoI]
  by_cases hempty : isEmpty q = true
  · rw [if_pos hempty]
  · rw [if_neg hempty]
    obtain ⟨nd, q', -, hearliest, hcontents, -⟩ :=
      removeFirst_spec q hq fun h0 => hempty ((isEmpty_iff q).mpr h0)
    have hnd : ¬nd.timerValue ≤ curTime := h nd (hcontents ▸ Multiset.mem_cons_self ..)
    rw [hearliest, if_neg hnd]

/-- **`dispatch_info_i`, when a timer is due**, takes out an earliest one; a repeating one goes
back with its next expiry, unless that divides by zero. -/
theorem dispatchInfoI_of_due (hq : Valid q) (h : ∃ nd ∈ contents q, Due curTime nd) :
    ∃ nd rest, contents q = nd ::ₘ rest ∧ (∀ x ∈ contents q, nd.timerValue ≤ x.timerValue) ∧
      Due curTime nd ∧
      ((¬Recurring nd ∧ ∃ q', dispatchInfoI curTime q = some (some nd.getDispatchInfo, q') ∧
          Valid q' ∧ contents q' = rest) ∨
        (Recurring nd ∧ nd.interval.toUsec = 0 ∧ dispatchInfoI curTime q = none) ∨
        (Recurring nd ∧ nd.interval.toUsec ≠ 0 ∧
          ∃ q', dispatchInfoI curTime q = some (some nd.getDispatchInfo, q') ∧
          Valid q' ∧ contents q' = renew curTime nd ::ₘ rest)) := by
  obtain ⟨x, hx, hdue⟩ := h
  have hne : contents q ≠ 0 := fun h0 => by
    rw [h0] at hx
    exact absurd hx (Multiset.notMem_zero x)
  obtain ⟨nd, q', hremove, hearliest, hcontents, hmin, hheld⟩ := removeFirst_spec q hq hne
  have hnd : nd.timerValue ≤ curTime := (hmin x hx).trans hdue
  refine ⟨nd, contents q', hcontents, hmin, hnd, ?_⟩
  have hempty : ¬isEmpty q = true := fun h0 => hne ((isEmpty_iff q).mp h0)
  rw [dispatchInfoI, if_neg hempty, hearliest, if_pos hnd, hremove]
  dsimp only
  by_cases hrec : zero < nd.interval
  · rw [if_pos hrec, recompute_of_due hnd]
    by_cases h0 : nd.interval.toUsec = 0
    · rw [if_pos h0]
      exact Or.inr (Or.inl ⟨hrec, h0, rfl⟩)
    · rw [if_neg h0]
      obtain ⟨q'', hq'', hv, hc⟩ := reschedule_spec nd (renew curTime nd) q' hheld rfl
      dsimp only
      rw [hq'']
      exact Or.inr (Or.inr ⟨hrec, h0, q'', rfl, hv, hc⟩)
  · obtain ⟨q'', hq'', hv, hc⟩ := freeNode_spec nd q' hheld
    rw [if_neg hrec, hq'']
    exact Or.inl ⟨hrec, q'', rfl, hv, hc⟩

/-! ### The loop -/

/-- What `expire` leaves of a multiset of timers. -/
def afterExpire (curTime : TimeValue) (m : Multiset (TimerNode α β)) : Multiset (TimerNode α β) :=
  m.filter (fun nd => ¬Due curTime nd) +
    (m.filter fun nd => Due curTime nd ∧ Recurring nd).map (renew curTime)

theorem afterExpire_cons_of_not_due (h : ¬Due curTime nd) (m : Multiset (TimerNode α β)) :
    afterExpire curTime (nd ::ₘ m) = nd ::ₘ afterExpire curTime m := by
  rw [afterExpire, Multiset.filter_cons_of_pos (p := fun nd => ¬Due curTime nd) _ h,
    Multiset.filter_cons_of_neg (p := fun nd => Due curTime nd ∧ Recurring nd) _
      (fun hcon => h hcon.1), Multiset.cons_add, afterExpire]

theorem afterExpire_cons_of_not_recurring (h : Due curTime nd) (hrec : ¬Recurring nd)
    (m : Multiset (TimerNode α β)) :
    afterExpire curTime (nd ::ₘ m) = afterExpire curTime m := by
  rw [afterExpire, Multiset.filter_cons_of_neg (p := fun nd => ¬Due curTime nd) _ (not_not.mpr h),
    Multiset.filter_cons_of_neg (p := fun nd => Due curTime nd ∧ Recurring nd) _
      (fun hcon => hrec hcon.2), afterExpire]

theorem afterExpire_cons_of_recurring (h : Due curTime nd) (hrec : Recurring nd)
    (m : Multiset (TimerNode α β)) :
    afterExpire curTime (nd ::ₘ m) = renew curTime nd ::ₘ afterExpire curTime m := by
  rw [afterExpire, Multiset.filter_cons_of_neg (p := fun nd => ¬Due curTime nd) _ (not_not.mpr h),
    Multiset.filter_cons_of_pos (p := fun nd => Due curTime nd ∧ Recurring nd) _ ⟨h, hrec⟩,
    Multiset.map_cons, Multiset.add_cons, afterExpire]

/-- **The loop does what it is meant to** when the next expiry of every repeating timer that is
due fits. The induction is on the number of timers that are due, which every iteration
lowers by one. -/
theorem expireLoop_correct {n : ℕ} (hn : dueCount curTime q = n) (hq : Valid q)
    (hfits : ∀ nd ∈ contents q, Due curTime nd → Recurring nd → NextFits curTime nd) :
    ∃ (dispatched : List (TimerNode α β)) (q' : Q),
      expireLoop (n + 1) curTime q = some (dispatched.map TimerNode.getDispatchInfo, q') ∧
      (dispatched : Multiset (TimerNode α β)) = (contents q).filter (Due curTime) ∧
      dispatched.Pairwise (fun a b => a.timerValue ≤ b.timerValue) ∧ Valid q' ∧
      contents q' = afterExpire curTime (contents q) := by
  induction n generalizing q with
  | zero =>
    have hnone : ∀ nd ∈ contents q, ¬Due curTime nd := Multiset.countP_eq_zero.mp hn
    refine ⟨[], q, ?_, ?_, List.Pairwise.nil, hq, ?_⟩
    · simp only [expireLoop, dispatchInfoI_of_not_due hq hnone, List.map_nil]
    · exact (Multiset.filter_eq_nil.mpr hnone).symm
    · rw [afterExpire, Multiset.filter_eq_self.mpr hnone,
        Multiset.filter_eq_nil.mpr fun nd hnd hcon => hnone nd hnd hcon.1, Multiset.map_zero,
        Multiset.add_zero]
  | succ n ih =>
    have hex : ∃ nd ∈ contents q, Due curTime nd :=
      Multiset.countP_pos.mp (show 0 < dueCount curTime q by omega)
    obtain ⟨nd, rest, hcontents, hmin, hdue, hcase⟩ := dispatchInfoI_of_due hq hex
    rw [dueCount, hcontents, Multiset.countP_cons_of_pos _ hdue] at hn
    -- the timers dispatched later are timers of the rest
    have hsorted : ∀ dispatched : List (TimerNode α β),
        (dispatched : Multiset (TimerNode α β)) = rest.filter (Due curTime) →
        dispatched.Pairwise (fun a b => a.timerValue ≤ b.timerValue) →
        (nd :: dispatched).Pairwise (fun a b => a.timerValue ≤ b.timerValue) := by
      intro dispatched heq hs
      refine List.pairwise_cons.mpr ⟨fun x hx => hmin x ?_, hs⟩
      rw [← Multiset.mem_coe, heq] at hx
      rw [hcontents]
      exact Multiset.mem_cons_of_mem (Multiset.mem_of_mem_filter hx)
    have hrest : ∀ x ∈ rest, Due curTime x → Recurring x → NextFits curTime x := fun x hx =>
      hfits x (hcontents ▸ Multiset.mem_cons_of_mem hx)
    rcases hcase with ⟨hrec, q₁, hd, hv, hc⟩ | ⟨hrec, h0, -⟩ | ⟨hrec, h0, q₁, hd, hv, hc⟩
    · obtain ⟨ds, q', hl, hds, hs, hv', hc'⟩ := ih (q := q₁) (by rw [dueCount, hc]; omega) hv
        (by rw [hc]; exact hrest)
      rw [hc] at hds hc'
      refine ⟨nd :: ds, q', expireLoop_succ_of_some hd hl, ?_, hsorted ds hds hs, hv', ?_⟩
      · rw [hcontents, Multiset.filter_cons_of_pos _ hdue, ← hds, Multiset.cons_coe]
      · rw [hcontents, afterExpire_cons_of_not_recurring hdue hrec, hc']
    · have hfit := hfits nd (hcontents ▸ Multiset.mem_cons_self ..) hdue hrec
      exact absurd h0 hfit.1
    · have hfit := hfits nd (hcontents ▸ Multiset.mem_cons_self ..) hdue hrec
      -- the timer that goes back is not due any more
      have hnot : ¬Due curTime (renew curTime nd) := fun hcon => (renew_due_iff h0).mp hcon hfit
      obtain ⟨ds, q', hl, hds, hs, hv', hc'⟩ := ih (q := q₁)
        (by rw [dueCount, hc, Multiset.countP_cons_of_neg _ hnot]; omega) hv (by
          rw [hc]
          intro x hx hxdue
          rcases Multiset.mem_cons.mp hx with rfl | hx
          · exact absurd hxdue hnot
          · exact hrest x hx hxdue)
      rw [hc, Multiset.filter_cons_of_neg _ hnot] at hds
      rw [hc, afterExpire_cons_of_not_due hnot] at hc'
      refine ⟨nd :: ds, q', expireLoop_succ_of_some hd hl, ?_, hsorted ds hds hs, hv', ?_⟩
      · rw [hcontents, Multiset.filter_cons_of_pos _ hdue, ← hds, Multiset.cons_coe]
      · rw [hcontents, afterExpire_cons_of_recurring hdue hrec, hc']

/-- **A loop that ends dispatches at least as many timers as were due**, and exactly as many
only if none of them came back due: then the next expiry of each repeating one fits. -/
theorem expireLoop_length {fuel : ℕ} {infos : List (DispatchInfo α β)} (hq : Valid q)
    (h : expireLoop fuel curTime q = some (infos, q')) :
    dueCount curTime q ≤ infos.length ∧ (infos.length = dueCount curTime q →
      ∀ nd ∈ contents q, Due curTime nd → Recurring nd → NextFits curTime nd) := by
  induction fuel generalizing q infos with
  | zero => cases h
  | succ fuel ih =>
    by_cases hex : ∃ nd ∈ contents q, Due curTime nd
    · obtain ⟨nd, rest, hcontents, -, hdue, hcase⟩ := dispatchInfoI_of_due hq hex
      have hcount : dueCount curTime q = rest.countP (Due curTime) + 1 := by
        rw [dueCount, hcontents, Multiset.countP_cons_of_pos _ hdue]
      rw [hcount, hcontents]
      rcases hcase with ⟨hrec, q₁, hd, hv, hc⟩ | ⟨-, -, hd⟩ | ⟨hrec, h0, q₁, hd, hv, hc⟩
      · simp only [expireLoop, hd] at h
        split at h
        · cases h
        · rename_i infos' q'' hl
          cases h
          obtain ⟨hle, hgood⟩ := ih hv hl
          rw [dueCount, hc] at hle hgood
          rw [List.length_cons]
          refine ⟨by omega, fun hlen => Multiset.forall_mem_cons.mpr ⟨fun _ hr => ?_, ?_⟩⟩
          · exact absurd hr hrec
          · exact hgood (by omega)
      · simp only [expireLoop, hd] at h
        cases h
      · simp only [expireLoop, hd] at h
        split at h
        · cases h
        · rename_i infos' q'' hl
          cases h
          obtain ⟨hle, hgood⟩ := ih hv hl
          rw [dueCount, hc, Multiset.countP_cons] at hle hgood
          rw [List.length_cons]
          refine ⟨by omega, fun hlen => ?_⟩
          -- as many dispatches as timers that were due: the timer has not come back due
          have hnot : ¬Due curTime (renew curTime nd) := fun hcon => by
            rw [if_pos hcon] at hle
            omega
          rw [if_neg hnot] at hgood
          refine Multiset.forall_mem_cons.mpr ⟨fun _ _ => ?_, fun x hx => ?_⟩
          · exact not_not.mp fun hcon => hnot ((renew_due_iff h0).mpr hcon)
          · exact hgood (by omega) x (hc ▸ Multiset.mem_cons_of_mem hx)
    · have hnone : ∀ nd ∈ contents q, ¬Due curTime nd := fun nd hnd hdue => hex ⟨nd, hnd, hdue⟩
      rw [dueCount, Multiset.countP_eq_zero.mpr hnone]
      exact ⟨Nat.zero_le _, fun _ nd hnd hdue => absurd hdue (hnone nd hnd)⟩

/-- **When `expire` does what it is meant to**: exactly when the next expiry of every repeating
timer that is due fits. -/
theorem expiresCorrectly_iff (hq : Valid q) : ExpiresCorrectly curTime q ↔
    ∀ nd ∈ contents q, Due curTime nd → Recurring nd → NextFits curTime nd := by
  constructor
  · rintro ⟨fuel, ds, next, q', hrun, hds, -, -, -, -⟩
    have hcard : ds.length = dueCount curTime q := by
      rw [dueCount, Multiset.countP_eq_card_filter, ← hds, Multiset.coe_card]
    rw [expire] at hrun
    split at hrun
    case isTrue hempty =>
      rw [(isEmpty_iff q).mp hempty]
      exact fun nd hnd => absurd hnd (Multiset.notMem_zero nd)
    case isFalse =>
      exact (expireLoop_length hq hrun).2 (by rw [List.length_map, hcard])
  · intro hfits
    obtain ⟨ds, q', hl, hds, hs, hv, hc⟩ := expireLoop_correct rfl hq hfits
    refine ⟨_, ds, nextExpiry curTime, q', (expire_succ _ _).trans hl, hds, hs, ?_, hv, hc⟩
    intro nd hnd hrec
    rw [← Multiset.mem_coe, hds, Multiset.mem_filter] at hnd
    have hfit := hfits nd hnd.1 hnd.2 hrec
    exact (lt_nextExpiry_iff hfit.1).mpr hfit

end Lawful

end AceTao

/-!
## The next expiry, computed and by a loop

`recompute_next_abs_interval_time` replaces a loop that went ahead one interval at a time, and its
comment quotes that loop: `skipAhead`. Both end with the same time, the first one after the current
time that is a whole number of intervals after the expiry (`recompute_eq_skipAhead`), as long as the
microseconds have 64 bits.

The induction is on the number of intervals between the expiry and the current time.
-/

namespace AceTao

open TimeValue (zero micros_later micros_injective le_iff_micros lt_iff_micros toUsec_sub)

variable {α β : Type}

/-- **The loop that was replaced**, with at most `fuel` iterations. -/
def skipAhead : ℕ → TimerNode α β → TimeValue → Option (TimerNode α β)
  | 0, _, _ => none
  | fuel + 1, expired, curTime =>
    let next := expired.setTimerValue (expired.timerValue + expired.interval)
    if next.timerValue ≤ curTime then skipAhead fuel next curTime else some next

/-- More fuel does not change the answer. -/
theorem skipAhead_mono {fuel fuel' : ℕ} {expired next : TimerNode α β} {curTime : TimeValue}
    (hle : fuel ≤ fuel') (h : skipAhead fuel expired curTime = some next) :
    skipAhead fuel' expired curTime = some next := by
  induction fuel generalizing fuel' expired with
  | zero => cases h
  | succ fuel ih =>
    obtain ⟨fuel', rfl⟩ := Nat.exists_eq_succ_of_ne_zero (show fuel' ≠ 0 by omega)
    rw [skipAhead] at h ⊢
    split_ifs at h ⊢ with hdue
    · exact ih (by omega) h
    · exact h

/-- A sum that fits in a `time_t`. -/
theorem micros_add {a b : TimeValue} (hb : zero < b)
    (h : a.micros + b.micros < 2 ^ 63 * oneSecondInUsecs) :
    (a + b).micros = a.micros + b.micros := by
  have hpos := lt_iff_micros.mp hb
  rw [TimeValue.micros_zero] at hpos
  have ha₁ := a.sec_ge
  have ha₂ := a.usec_gt
  have ha₃ := a.usec_nonneg
  have ha₄ := a.usec_nonpos
  have hb₁ := b.sec_lt
  have hb₂ := b.usec_lt
  have hb₃ := b.usec_nonneg
  have hb₄ := b.usec_nonpos
  simp only [TimeValue.micros, oneSecondInUsecs] at *
  have hset := @TimeValue.micros_set (a.sec + b.sec) (a.usec + b.usec) (by omega) (by omega)
    (by rw [oneSecondInUsecs]; omega) (by rw [oneSecondInUsecs]; omega)
  rw [TimeValue.micros, ← TimeValue.add_def, oneSecondInUsecs] at hset
  rw [hset]
  omega

section

variable {expired : TimerNode α β} {curTime : TimeValue}

/-- **The loop** ends after one iteration for each whole interval that has passed, and one more. -/
theorem exists_skipAhead (hinterval : zero < expired.interval) (n : ℕ)
    (hfits : curTime.micros + expired.interval.micros < 2 ^ 63 * oneSecondInUsecs)
    (hn : (curTime.micros - expired.timerValue.micros) / expired.interval.micros = n) :
    ∃ t : TimeValue, skipAhead (n + 1) expired curTime = some (expired.setTimerValue t) ∧
      t.micros = curTime.micros + (expired.interval.micros -
        (curTime.micros - expired.timerValue.micros) % expired.interval.micros) := by
  have hpos : 0 < expired.interval.micros := lt_iff_micros.mp hinterval
  induction n generalizing expired with
  | zero =>
    have hmod := Int.emod_def (curTime.micros - expired.timerValue.micros) expired.interval.micros
    have hnonneg := Int.emod_nonneg (curTime.micros - expired.timerValue.micros) hpos.ne'
    have hlt := Int.emod_lt_of_pos (curTime.micros - expired.timerValue.micros) hpos
    rw [hn, Nat.cast_zero, mul_zero, sub_zero] at hmod
    have hsum : (expired.timerValue + expired.interval).micros =
        expired.timerValue.micros + expired.interval.micros := micros_add hinterval (by omega)
    refine ⟨_, if_neg ?_, ?_⟩
    · rw [TimerNode.setTimerValue_timerValue, le_iff_micros, hsum]
      omega
    · rw [hsum, hmod]
      omega
  | succ n ih =>
    have hdiv := Int.mul_ediv_add_emod (curTime.micros - expired.timerValue.micros)
      expired.interval.micros
    have hnonneg := Int.emod_nonneg (curTime.micros - expired.timerValue.micros) hpos.ne'
    have hle : expired.timerValue.micros + expired.interval.micros ≤ curTime.micros := by
      have hprod : expired.interval.micros ≤ expired.interval.micros * ((n + 1 : ℕ) : ℤ) :=
        le_mul_of_one_le_right hpos.le (by omega)
      rw [hn] at hdiv
      omega
    have hsum : (expired.timerValue + expired.interval).micros =
        expired.timerValue.micros + expired.interval.micros := micros_add hinterval (by omega)
    -- one interval less has passed since the time that is set
    have hless : curTime.micros - (expired.timerValue + expired.interval).micros =
        curTime.micros - expired.timerValue.micros - expired.interval.micros := by
      rw [hsum]
      omega
    have hpred : (curTime.micros - (expired.timerValue + expired.interval).micros) /
        expired.interval.micros = n := by
      rw [hless, Int.sub_ediv_of_dvd _ dvd_rfl, Int.ediv_self hpos.ne', hn]
      omega
    obtain ⟨t, hloop, ht⟩ := @ih (expired.setTimerValue (expired.timerValue + expired.interval))
      hinterval hfits hpred hpos
    refine ⟨t, ?_, ?_⟩
    · rw [skipAhead, if_pos]
      · exact hloop
      · rw [TimerNode.setTimerValue_timerValue, le_iff_micros, hsum]
        exact hle
    · rw [ht]
      dsimp only [TimerNode.setTimerValue]
      rw [hless, Int.sub_emod_right]

/-- **The computation and the loop agree**, and nothing is divided by zero. -/
theorem recompute_eq_skipAhead (hdue : expired.timerValue ≤ curTime)
    (hinterval : zero < expired.interval) (hI : expired.interval.micros < 2 ^ 64)
    (ht : expired.timerValue.micros < 2 ^ 64)
    (hD : curTime.micros - expired.timerValue.micros < 2 ^ 64) :
    ∃ next, recomputeNextAbsIntervalTime expired curTime = some next ∧
      ∃ fuel, ∀ fuel' ≥ fuel, skipAhead fuel' expired curTime = some next := by
  have hle := le_iff_micros.mp hdue
  have hpos : 0 < expired.interval.micros := lt_iff_micros.mp hinterval
  have hfits : curTime.micros + expired.interval.micros < 2 ^ 63 * oneSecondInUsecs := by
    rw [oneSecondInUsecs]
    omega
  have hinterval' : expired.interval.toUsec = expired.interval.micros :=
    Int.emod_eq_of_lt hpos.le hI
  have hdiff : (curTime - expired.timerValue).toUsec =
      curTime.micros - expired.timerValue.micros := by
    rw [toUsec_sub]
    exact Int.emod_eq_of_lt (by omega) hD
  have hnonneg := Int.emod_nonneg (curTime.micros - expired.timerValue.micros) hpos.ne'
  have hlt := Int.emod_lt_of_pos (curTime.micros - expired.timerValue.micros) hpos
  obtain ⟨n, hn⟩ := Int.eq_ofNat_of_zero_le (Int.ediv_nonneg
    (show 0 ≤ curTime.micros - expired.timerValue.micros by omega) hpos.le)
  obtain ⟨t, hloop, hmicros⟩ := exists_skipAhead hinterval n hfits hn
  refine ⟨renew curTime expired, ?_, n + 1, fun fuel' hfuel => skipAhead_mono hfuel ?_⟩
  · rw [recompute_of_due hdue, if_neg (by rw [hinterval']; exact hpos.ne')]
  · have heq : t = nextExpiry curTime expired := by
      refine micros_injective ?_
      rw [hmicros, nextExpiry, hinterval', hdiff, micros_later (by omega) (by omega) (by omega)]
    rw [hloop, heq, renew]

end

/-- A timer of two and a half seconds that is seven seconds late. -/
def lateTimer : TimerNode ℕ ℕ := ⟨0, 0, TimeValue.set 1 0, TimeValue.set 2 500000, 0⟩

theorem recompute_eq_skipAhead_late :
    ∃ next, recomputeNextAbsIntervalTime lateTimer (TimeValue.set 8 0) = some next ∧
      ∃ fuel, ∀ fuel' ≥ fuel, skipAhead fuel' lateTimer (TimeValue.set 8 0) = some next :=
  recompute_eq_skipAhead (by decide) (by decide) (by decide) (by decide) (by decide)

end AceTao
