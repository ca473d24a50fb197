import AceTao.Library.StableQueue
import AceTao.TimerQueue

/-!
# `ACE_Timer_Wheel_T`: the code

A timing wheel hashes a timer by its time into one of `spoke_count_` spokes; a spoke is a
sorted doubly linked list with a root node, here the list of its nodes. The wheel caches the
spoke of the earliest timer, `earliest_spoke_`, and repairs the cache with `recalc_earliest`
when the earliest timer goes. The root of a spoke counts the ids given out there.

Pointers to nodes are compared in two places only: whether the node found for an id, or a node
of a cancelled type, is the first node of the earliest spoke. The node that `find_node`
returns is the first one in its spoke with that id, so it is the first node of the spoke
exactly when that one has the id.

The width of a `long` is a parameter: the ids are `long`, and so is the range of the
counters.
-/

namespace AceTao

open SortedInsert (insertBack)

/-- **`ACE_Timer_Wheel_T`**. -/
structure TimerWheel (α β : Type) where
  /-- `sizeof (long) * 8` -/
  longBits : ℕ
  /-- `spoke_bits_` -/
  spokeBits : ℕ
  /-- `res_bits_` -/
  resBits : ℕ
  /-- `spokes_`, each from `root->get_next ()` to `root->get_prev ()`. -/
  spokes : ℕ → List (TimerNode α β)
  /-- The timer id of the root of each spoke, which is used as a counter. -/
  counters : ℕ → ℤ
  /-- `earliest_spoke_` -/
  earliestSpoke : ℕ
  /-- `timer_count_` -/
  timerCount : ℕ

namespace TimerWheel

variable {α β : Type}

/-! ### The size of the wheel -/

/-- The loop of `power2bits` that counts the bits of a number. -/
def countBits (n : ℕ) : ℕ := if n / 2 = 0 then 1 else countBits (n / 2) + 1
termination_by n
decreasing_by omega

/-- `power2bits`. On a negative number the loop does not end. -/
def power2bits (n : ℤ) (minBits maxBits : ℕ) : Option ℕ :=
  if 2 ^ maxBits - 1 < n then some maxBits
  else if n < 0 then none
  else
    let i := countBits n.toNat
    if i ≤ minBits then some minBits
    else if |2 ^ (i - 1) - n| < 2 ^ i - n then some (i - 1)
    else some i

/-- `open_i`: the counts are `unsigned int`, and `power2bits` takes an `int`. -/
def openI (longBits : ℕ) (spokes res : ℕ) : Option (TimerWheel α β) := do
  let spokeBits ← power2bits ((spokes : ℤ).bmod (2 ^ 32)) 3 12
  let resBits ← power2bits ((res : ℤ).bmod (2 ^ 32)) 1 20
  return ⟨longBits, spokeBits, resBits, fun _ => [], fun _ => 0, 0, 0⟩

/-- `spoke_count_` -/
def spokeCount (s : TimerWheel α β) : ℕ := 2 ^ s.spokeBits

/-- `wheel_time_`: the time that one spoke stands for. -/
def wheelTime (s : TimerWheel α β) : TimeValue := TimeValue.ofMsec (2 ^ s.resBits)

/-- `calculate_spoke`. -/
def calculateSpoke (t : TimeValue) (s : TimerWheel α β) : ℕ :=
  (t.msec s.longBits >>> s.resBits) &&& (s.spokeCount - 1)

/-! ### The earliest timer -/

/-- `is_empty`. -/
def isEmpty (s : TimerWheel α β) : Bool := s.timerCount = 0

/-- `get_first`. -/
def getFirst (s : TimerWheel α β) : Option (TimerNode α β) := (s.spokes s.earliestSpoke).head?

/-- `earliest_time`. -/
def earliestTime (s : TimerWheel α β) : TimeValue :=
  match s.getFirst with
  | none => TimeValue.zero
  | some n => n.timerValue

/-- The loop of `recalc_earliest`, with `i` spokes to go: `et` and `es` are the earliest time
seen so far, zero for none, and its spoke. -/
def recalcLoop (last : TimeValue) (s : TimerWheel α β) : ℕ → ℕ → TimeValue → ℕ → ℕ
  | 0, _, _, es => es
  | i + 1, spoke, et, es =>
    let next := if s.spokeCount ≤ spoke + 1 then 0 else spoke + 1
    match s.spokes spoke with
    | [] => recalcLoop last s i next et es
    | n :: _ =>
      let t := n.timerValue
      if t < last + s.wheelTime then spoke
      else if et = TimeValue.zero ∨ t < et then recalcLoop last s i next t spoke
      else recalcLoop last s i next et es

/-- `recalc_earliest`. -/
def recalcEarliest (last : TimeValue) (s : TimerWheel α β) : TimerWheel α β :=
  if s.isEmpty then s
  else { s with
    earliestSpoke := recalcLoop last s s.spokeCount s.earliestSpoke TimeValue.zero 0 }

/-! ### Scheduling -/

/-- An id: a count and a spoke, `(cnt << spoke_bits_) | spoke` as a `long`. -/
def mkId (cnt : ℤ) (spoke : ℕ) (s : TimerWheel α β) : ℤ :=
  (cnt * 2 ^ s.spokeBits + spoke).bmod (2 ^ s.longBits)

/-- `find_spoke_node`. -/
def findSpokeNode (spoke : ℕ) (timerId : ℤ) (s : TimerWheel α β) : Option (TimerNode α β) :=
  (s.spokes spoke).find? fun n => n.timerId = timerId

/-- The search of `generate_timer_id` for an id that no timer of the spoke has. -/
def searchId (spoke : ℕ) (maxCnt cnt : ℤ) (s : TimerWheel α β) : ℤ :=
  if cnt < maxCnt - 1 then
    if s.findSpokeNode spoke (s.mkId cnt spoke) = none then s.mkId cnt spoke
    else searchId spoke maxCnt (cnt + 1) s
  else -1
termination_by (maxCnt - 1 - cnt).toNat

/-- `max_cnt`; the test of the source compares the spoke with the number of spokes, and is
never true. -/
def maxCnt (spoke : ℕ) (s : TimerWheel α β) : ℤ :=
  2 ^ (s.longBits - s.spokeBits) - 1 - if spoke = s.spokeCount then 1 else 0

/-- `generate_timer_id`. -/
def generateTimerId (spoke : ℕ) (s : TimerWheel α β) : ℤ × TimerWheel α β :=
  let cnt := s.counters spoke
  if cnt < s.maxCnt spoke then
    (s.mkId cnt spoke, { s with counters := Function.update s.counters spoke (cnt + 1) })
  else if (s.spokes spoke).isEmpty then
    (spoke, { s with counters := Function.update s.counters spoke 1 })
  else (s.searchId spoke (s.maxCnt spoke) 0, s)

/-- `schedule_i (n, spoke, expire)`. -/
def scheduleNode (n : TimerNode α β) (spoke : ℕ) (s : TimerWheel α β) : TimerWheel α β :=
  { s with
    earliestSpoke :=
      if s.isEmpty ∨ n.timerValue < s.earliestTime then spoke else s.earliestSpoke
    timerCount := s.timerCount + 1
    spokes := Function.update s.spokes spoke
      (insertBack TimerNode.timerValue n (s.spokes spoke)) }

/-- `reschedule`. -/
def reschedule (n : TimerNode α β) (s : TimerWheel α β) : TimerWheel α β :=
  s.scheduleNode n (s.calculateSpoke n.timerValue)

/-- `schedule_i (type, act, future_time, interval)`. -/
def scheduleI (type : α) (act : β) (futureTime interval : TimeValue) (s : TimerWheel α β) :
    ℤ × TimerWheel α β :=
  let spoke := s.calculateSpoke futureTime
  let p := s.generateTimerId spoke
  if p.1 ≠ -1 then (p.1, p.2.scheduleNode ⟨type, act, futureTime, interval, p.1⟩ spoke)
  else (p.1, p.2)

/-! ### Cancelling -/

/-- `find_node`: the spoke encoded in the id first, then the others. -/
def findNode (timerId : ℤ) (s : TimerWheel α β) : Option (ℕ × TimerNode α β) :=
  if timerId = -1 then none
  else
    let start := (timerId % 2 ^ s.spokeBits).toNat
    match s.findSpokeNode start timerId with
    | some n => some (start, n)
    | none => (List.range s.spokeCount).findSome? fun i =>
        if i ≠ start then (s.findSpokeNode i timerId).map fun n => (i, n) else none

/-- Whether the node with the id that was found in the spoke is the one `get_first`
returns. -/
def isFirst (spoke : ℕ) (timerId : ℤ) (s : TimerWheel α β) : Bool :=
  spoke = s.earliestSpoke ∧ ∃ n ∈ s.getFirst, n.timerId = timerId

/-- `unlink`, of the node with the id that was found in the spoke. -/
def unlink (spoke : ℕ) (timerId : ℤ) (s : TimerWheel α β) : TimerWheel α β :=
  { s with
    timerCount := s.timerCount - 1
    spokes := Function.update s.spokes spoke
      ((s.spokes spoke).eraseP fun n => n.timerId = timerId) }

/-- `reset_interval`. -/
def resetInterval (timerId : ℤ) (interval : TimeValue) (s : TimerWheel α β) :
    ℤ × TimerWheel α β :=
  match s.findNode timerId with
  | none => (-1, s)
  | some (spoke, _) =>
    let nodes := (s.spokes spoke).replaceF (TimerNode.withInterval timerId interval)
    (0, { s with spokes := Function.update s.spokes spoke nodes })

/-- `cancel (timer_id, act)`. -/
def cancel (timerId : ℤ) (s : TimerWheel α β) : ℤ × Option β × TimerWheel α β :=
  match s.findNode timerId with
  | none => (0, none, s)
  | some (spoke, n) =>
    let s' := s.unlink spoke timerId
    (1, some n.act, if s.isFirst spoke timerId then s'.recalcEarliest n.timerValue else s')

/-- `cancel (type)`. There is no answer when the earliest spoke of a wheel that is not empty
has no node and its time is read. -/
def cancelType [DecidableEq α] (type : α) (s : TimerWheel α β) : Option (ℤ × TimerWheel α β) :=
  if s.isEmpty then some (0, s)
  else
    match s.getFirst with
    | none => none
    | some first =>
      let numCanceled :=
        ((List.range s.spokeCount).map fun i => (s.spokes i).countP fun n => n.type = type).sum
      let s' := { s with
        timerCount := s.timerCount - numCanceled
        spokes := fun i => if i < s.spokeCount then (s.spokes i).filter fun n => n.type ≠ type
          else s.spokes i }
      some (numCanceled,
        if first.type = type then s'.recalcEarliest first.timerValue else s')

/-! ### Expiry -/

/-- `remove_first_expired`. -/
def removeFirstExpired (now : TimeValue) (s : TimerWheel α β) :
    Option (TimerNode α β × TimerWheel α β) :=
  match s.getFirst with
  | none => none
  | some n =>
    if n.timerValue ≤ now then
      some (n, (s.unlink s.earliestSpoke n.timerId).recalcEarliest n.timerValue)
    else none

/-- **`expire (cur_time)`**, with at most `fuel` evaluations of the condition of its loop: the
upcalls it makes, whose number it returns, and the wheel it leaves. -/
def expire : ℕ → TimeValue → TimerWheel α β → Option (List (DispatchInfo α β) × TimerWheel α β)
  | 0, _, _ => none
  | fuel + 1, curTime, s =>
    match s.removeFirstExpired curTime with
    | none => some ([], s)
    | some (n, s') =>
      let rescheduled :=
        if TimeValue.zero < n.interval then
          (recomputeNextAbsIntervalTime n curTime).map s'.reschedule
        else some s'
      match rescheduled with
      | none => none
      | some s'' =>
        match expire fuel curTime s'' with
        | none => none
        | some (infos, t) => some (n.getDispatchInfo :: infos, t)

end TimerWheel

end AceTao
