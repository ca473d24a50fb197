import AceTao.Library.Keyed
import AceTao.Library.Machine
import AceTao.Library.StableQueue
import AceTao.TimerQueue
import AceTao.TimerWheel.Basic

/-!
# `ACE_Timer_List_T`

The timer list keeps its nodes sorted by their time in a doubly linked list with a dummy
head. Here it is the list of the nodes from the first to the last, and carries the proof
that it is sorted. A node is inserted by a search from the tail, so timers of the same time
stay in the order in which they were scheduled.
-/

namespace AceTao

open SortedInsert (insertBack Sorted insertBack_sorted insertBack_perm head_le)

/-- **`ACE_Timer_List_T`**. -/
structure TimerList (α β : Type) where
  /-- The nodes, from `head_->get_next ()` to `head_->get_prev ()`. -/
  nodes : List (TimerNode α β)
  /-- `id_counter_` -/
  idCounter : ℤ
  sorted : Sorted TimerNode.timerValue nodes

namespace TimerList

variable {α β : Type}

/-- The constructor: an empty list. -/
def empty : TimerList α β := ⟨[], 0, List.Pairwise.nil⟩

/-- `is_empty`. -/
def isEmpty (s : TimerList α β) : Bool := s.nodes.isEmpty

/-- `get_first`. -/
def getFirst (s : TimerList α β) : Option (TimerNode α β) := s.nodes.head?

/-- `earliest_time`. -/
def earliestTime (s : TimerList α β) : TimeValue :=
  match s.nodes with
  | [] => TimeValue.zero
  | n :: _ => n.timerValue

/-- `schedule_i (n, expire)`: a node goes behind the last one that is not later. -/
def scheduleNode (n : TimerNode α β) (s : TimerList α β) : TimerList α β where
  nodes := insertBack TimerNode.timerValue n s.nodes
  idCounter := s.idCounter
  sorted := insertBack_sorted s.sorted

/-- `reschedule`. -/
def reschedule (n : TimerNode α β) (s : TimerList α β) : TimerList α β := s.scheduleNode n

/-- `schedule_i (type, act, future_time, interval)`. -/
def scheduleI (type : α) (act : β) (futureTime interval : TimeValue) (s : TimerList α β) :
    ℤ × TimerList α β :=
  let id := s.idCounter
  let s' := { s with idCounter := wrap64 (s.idCounter + 1) }
  if id ≠ -1 then (id, s'.scheduleNode ⟨type, act, futureTime, interval, id⟩) else (id, s')

/-- `find_node`: the first node with the id. -/
def findNode (timerId : ℤ) (s : TimerList α β) : Option (TimerNode α β) :=
  s.nodes.find? fun n => n.timerId = timerId

/-- `reset_interval`: it changes the node `find_node` returns. -/
def resetInterval (timerId : ℤ) (interval : TimeValue) (s : TimerList α β) :
    ℤ × TimerList α β :=
  match s.findNode timerId with
  | none => (-1, s)
  | some _ =>
    (0, { nodes := s.nodes.replaceF (TimerNode.withInterval timerId interval)
          idCounter := s.idCounter
          sorted := by
            rw [Sorted, ← List.pairwise_map,
              Keyed.map_replaceF fun m n h => by rw [TimerNode.withInterval_eq_some h]; rfl,
              List.pairwise_map]
            exact s.sorted })

/-- `cancel (timer_id, act)`: the node `find_node` returns is unlinked and freed. -/
def cancel (timerId : ℤ) (s : TimerList α β) : ℤ × Option β × TimerList α β :=
  match s.findNode timerId with
  | none => (0, none, s)
  | some n =>
    (1, some n.act,
      { nodes := s.nodes.eraseP fun n => n.timerId = timerId
        idCounter := s.idCounter
        sorted := s.sorted.sublist (List.eraseP_sublist ..) })

/-- `cancel (type)`: every node of the type is unlinked and freed. -/
def cancelType [DecidableEq α] (type : α) (s : TimerList α β) : ℤ × TimerList α β :=
  (s.nodes.countP fun n => n.type = type,
    { nodes := s.nodes.filter fun n => n.type ≠ type
      idCounter := s.idCounter
      sorted := s.sorted.filter _ })

/-- `remove_first`. -/
def removeFirst (s : TimerList α β) : Option (TimerNode α β × TimerList α β) :=
  match s.nodes, s.sorted with
  | [], _ => none
  | n :: l, h => some (n, ⟨l, s.idCounter, (List.pairwise_cons.mp h).2⟩)

/-- The virtual functions of a timer list; `free_node` gives the memory back. -/
instance : TimerQueue (TimerList α β) α β where
  isEmpty := isEmpty
  earliestTime := earliestTime
  removeFirst := removeFirst
  reschedule n s := some (s.reschedule n)
  freeNode _ s := some s

/-- `dispatch_info_i` on a list that is not empty. -/
theorem dispatchInfoI_cons {curTime : TimeValue} {n : TimerNode α β} {l : List (TimerNode α β)}
    {idCounter : ℤ} {h : Sorted TimerNode.timerValue (n :: l)} :
    dispatchInfoI curTime (⟨n :: l, idCounter, h⟩ : TimerList α β)
      = if n.timerValue ≤ curTime then
          if TimeValue.zero < n.interval then
            (recomputeNextAbsIntervalTime n curTime).map fun next => (some n.getDispatchInfo,
              reschedule next ⟨l, idCounter, (List.pairwise_cons.mp h).2⟩)
          else some (some n.getDispatchInfo, ⟨l, idCounter, (List.pairwise_cons.mp h).2⟩)
        else some (none, ⟨n :: l, idCounter, h⟩) := by
  show (if n.timerValue ≤ curTime then if TimeValue.zero < n.interval then
    match recomputeNextAbsIntervalTime n curTime with
    | none => none
    | some next => some (some n.getDispatchInfo,
        reschedule next ⟨l, idCounter, (List.pairwise_cons.mp h).2⟩) else _ else _) = _
  cases recomputeNextAbsIntervalTime n curTime <;> rfl

/-- **The timer list is a lawful timer queue.** -/
instance : LawfulTimerQueue (TimerList α β) α β where
  Valid _ := True
  Held _ _ := True
  contents s := s.nodes
  isEmpty_iff s := by
    show s.nodes.isEmpty = true ↔ _
    rw [List.isEmpty_iff, Multiset.coe_eq_zero]
  removeFirst_spec := by
    rintro ⟨nodes, idCounter, sorted⟩ - hne
    cases nodes with
    | nil => exact absurd rfl hne
    | cons n l => exact ⟨n, _, rfl, rfl, rfl, fun x hx => head_le sorted hx, trivial⟩
  reschedule_spec _ nd' q _ _ :=
    ⟨_, rfl, trivial, Multiset.coe_eq_coe.mpr insertBack_perm⟩
  freeNode_spec _ q _ := ⟨q, rfl, trivial, rfl⟩

end TimerList

end AceTao

/-!
## Clients of a timer queue

The runs over which two timer queues are compared. A client schedules timers, remembers the
ids it gets, and cancels timers or resets their intervals by the number of the call that
issued the id; what it observes of a queue (`AceTao.Observation`) does not depend on the
values of the ids. The operations are those of `AceTao.TimerService`, which the timer list
and the timing wheel both provide.
-/

namespace AceTao

variable {α β Q : Type}

/-- **The public operations of a timer queue.** An operation without an answer is undefined
behaviour, or an `expire` that runs out of fuel. -/
class TimerService (Q : Type) (α β : outParam Type) where
  /-- `schedule` -/
  schedule : α → β → TimeValue → TimeValue → Q → ℤ × Q
  /-- `reset_interval` -/
  resetInterval : ℤ → TimeValue → Q → ℤ × Q
  /-- `cancel (timer_id, act)` -/
  cancel : ℤ → Q → ℤ × Option β × Q
  /-- `cancel (type)` -/
  cancelType : α → Q → Option (ℤ × Q)
  /-- `expire (cur_time)` -/
  expire : ℕ → TimeValue → Q → Option (List (DispatchInfo α β) × Q)
  /-- `is_empty` -/
  isEmpty : Q → Bool
  /-- `earliest_time` -/
  earliestTime : Q → TimeValue

/-- The timer list uses the `expire` of the base class. -/
instance [DecidableEq α] : TimerService (TimerList α β) α β where
  schedule type act futureTime interval s := s.scheduleI type act futureTime interval
  resetInterval timerId interval s := s.resetInterval timerId interval
  cancel timerId s := s.cancel timerId
  cancelType type s := some (s.cancelType type)
  expire fuel curTime s := AceTao.expire fuel curTime s
  isEmpty := TimerList.isEmpty
  earliestTime := TimerList.earliestTime

/-- The timing wheel has an `expire` of its own. -/
instance [DecidableEq α] : TimerService (TimerWheel α β) α β where
  schedule type act futureTime interval s := s.scheduleI type act futureTime interval
  resetInterval timerId interval s := s.resetInterval timerId interval
  cancel timerId s := s.cancel timerId
  cancelType type s := s.cancelType type
  expire fuel curTime s := s.expire fuel curTime
  isEmpty := TimerWheel.isEmpty
  earliestTime := TimerWheel.earliestTime

/-- A call a client makes; the timers are numbered by the calls that scheduled them. -/
inductive Command (α β : Type)
  | schedule (type : α) (act : β) (futureTime interval : TimeValue)
  | resetInterval (k : ℕ) (interval : TimeValue)
  | cancel (k : ℕ)
  | cancelType (type : α)
  | expire (curTime : TimeValue)

/-- **What a client observes of a call**: its result (for `schedule`, whether it failed), the
`act` that a cancellation hands out, the upcalls, and then `is_empty` and
`earliest_time`. -/
structure Observation (α β : Type) where
  result : ℤ
  act : Option β
  dispatched : List (DispatchInfo α β)
  isEmpty : Bool
  earliestTime : TimeValue

/-- A queue, and the ids it has issued to a client. -/
structure Client (Q : Type) where
  queue : Q
  issued : List ℤ

/-- What is observed of a call that leaves the queue. -/
def observe [TimerService Q α β] (result : ℤ) (act : Option β)
    (dispatched : List (DispatchInfo α β)) (q : Q) : Observation α β :=
  ⟨result, act, dispatched, TimerService.isEmpty q, TimerService.earliestTime q⟩

/-- **One call.** A client has no call for an id that was not issued. -/
def Client.step [TimerService Q α β] (fuel : ℕ) (c : Client Q) :
    Command α β → Option (Client Q × Observation α β)
  | .schedule type act futureTime interval =>
    let p := TimerService.schedule type act futureTime interval c.queue
    if p.1 = -1 then some (⟨p.2, c.issued⟩, observe (-1) none [] p.2)
    else some (⟨p.2, c.issued ++ [p.1]⟩, observe 0 none [] p.2)
  | .resetInterval k interval =>
    match c.issued[k]? with
    | none => none
    | some id =>
      let p := TimerService.resetInterval id interval c.queue
      some (⟨p.2, c.issued⟩, observe p.1 none [] p.2)
  | .cancel k =>
    match c.issued[k]? with
    | none => none
    | some id =>
      let p := TimerService.cancel id c.queue
      some (⟨p.2.2, c.issued⟩, observe p.1 p.2.1 [] p.2.2)
  | .cancelType type =>
    match TimerService.cancelType type c.queue with
    | none => none
    | some p => some (⟨p.2, c.issued⟩, observe p.1 none [] p.2)
  | .expire curTime =>
    match TimerService.expire fuel curTime c.queue with
    | none => none
    | some p => some (⟨p.2, c.issued⟩, observe p.1.length none p.1 p.2)

end AceTao
