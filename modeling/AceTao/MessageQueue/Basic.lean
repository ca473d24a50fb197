import AceTao.Library.DoublyLinked
import AceTao.TimeValue
import Mathlib.Data.Fintype.Card
import Mathlib.Logic.Function.Basic

/-!
# `ACE_Message_Queue`: the code

Message blocks are linked in both directions, from the head of the queue to its tail, by two fields
of the blocks themselves. The blocks are in the memory of the application, which owns those that are
not in the queue; a function that follows a pointer to no block is undefined.

The library is built with `ACE_HAS_TIMED_MESSAGE_BLOCKS`, so that a block has a deadline. An
operation holds the lock. Where it would wait, it is taken here at the moment at which the wait is
over: because the queue is not full, or not empty, or because the time is up. The notification
strategy and the monitor have no effect on the queue.

A loop over the queue is given as many turns as there are addresses. It changes nothing, so that it
never ends if it takes more; it has then no answer.
-/

namespace AceTao

open DoublyLinked

/-- What a message block says about its message: `size ()` and `length ()` are of the block itself,
and `cont` lists those of the blocks on its continuation chain. -/
structure Message where
  msgPriority : Fin (2 ^ 64)
  msgDeadlineTime : TimeValue
  size : BitVec 64
  length : BitVec 64
  cont : List (BitVec 64 × BitVec 64)

/-- **`ACE_Message_Block`**. -/
structure MessageBlock (A : Type) where
  message : Message
  next : Option A
  prev : Option A

/-- `state_`. -/
inductive QueueState
  | activated
  | deactivated
  | pulsed
deriving DecidableEq

/-- **`ACE_Message_Queue`**, with the memory that the blocks are in. The last two fields are what it
returns to signal the two condition variables. -/
structure MessageQueue (A : Type) where
  head : Option A
  tail : Option A
  blocks : A → Option (MessageBlock A)
  curBytes : BitVec 64
  curLength : BitVec 64
  curCount : BitVec 64
  highWaterMark : BitVec 64
  lowWaterMark : BitVec 64
  state : QueueState
  notEmptyCond : ℤ
  notFullCond : ℤ

namespace MessageQueue

variable {A : Type} [DecidableEq A] [Fintype A]

/-- `ULONG_MAX`. -/
def ulongMax : Fin (2 ^ 64) := ⟨2 ^ 64 - 1, by norm_num⟩

/-- `total_size_and_length`. -/
def totalSizeAndLength (m : Message) (mbSize mbLength : BitVec 64) : BitVec 64 × BitVec 64 :=
  ((m.size, m.length) :: m.cont).foldl (fun t i => (t.1 + i.1, t.2 + i.2)) (mbSize, mbLength)

/-- The turns a loop is given. -/
def turns (A : Type) [Fintype A] : ℕ := Fintype.card A + 1

/-- A change of the block at an address. -/
def modify (q : MessageQueue A) (a : A) (f : MessageBlock A → MessageBlock A) :
    Option (MessageQueue A) :=
  (q.blocks a).map fun b => { q with blocks := Function.update q.blocks a (some (f b)) }

/-- `++cur_count_`, and `total_size_and_length` of the new item. -/
def account (q : MessageQueue A) (m : Message) : MessageQueue A :=
  { q with
    curCount := q.curCount + 1
    curBytes := (totalSizeAndLength m q.curBytes q.curLength).1
    curLength := (totalSizeAndLength m q.curBytes q.curLength).2 }

/-- `static_cast<int> (cur_count_)`. -/
def countCode (q : MessageQueue A) : ℤ := (q.curCount.setWidth 32).toInt

/-- The end of an enqueue: `signal_dequeue_waiters`. -/
def enqueued (q : MessageQueue A) : MessageQueue A × ℤ :=
  (q, if q.notEmptyCond ≠ 0 then -1 else q.countCode)

/-! ### Enqueueing -/

/-- The loop of `enqueue_head_i` and `enqueue_tail_i` along the blocks behind the new one. -/
def chainLoop : ℕ → MessageQueue A → A → Option (MessageQueue A × A)
  | 0, _, _ => none
  | n + 1, q, seqTail => do
    let b ← q.blocks seqTail
    match b.next with
    | none => some (q, seqTail)
    | some next =>
      let q ← q.modify next fun b => { b with prev := some seqTail }
      let b ← q.blocks next
      chainLoop n (q.account b.message) next

/-- **`enqueue_tail_i`**. -/
def enqueueTailI (q : MessageQueue A) (newItem : A) : Option (MessageQueue A × ℤ) := do
  let b ← q.blocks newItem
  let (q, seqTail) ← chainLoop (turns A) (q.account b.message) newItem
  match q.tail with
  | none =>
    let q ← { q with head := some newItem, tail := some seqTail }.modify newItem fun b =>
      { b with prev := none }
    some q.enqueued
  | some tail =>
    let q ← q.modify tail fun b => { b with next := some newItem }
    let q ← q.modify newItem fun b => { b with prev := some tail }
    some { q with tail := some seqTail }.enqueued

/-- **`enqueue_head_i`**. -/
def enqueueHeadI (q : MessageQueue A) (newItem : A) : Option (MessageQueue A × ℤ) := do
  let b ← q.blocks newItem
  let (q, seqTail) ← chainLoop (turns A) (q.account b.message) newItem
  let q ← q.modify newItem fun b => { b with prev := none }
  let q ← q.modify seqTail fun b => { b with next := q.head }
  let q ← match q.head with
    | some head => q.modify head fun b => { b with prev := some seqTail }
    | none => some { q with tail := some seqTail }
  some { q with head := some newItem }.enqueued

/-- The new item behind another block that is not the last. -/
def splice (q : MessageQueue A) (newItem temp : A) : Option (MessageQueue A) := do
  let q ← q.modify newItem fun b => { b with prev := some temp }
  let t ← q.blocks temp
  let q ← q.modify newItem fun b => { b with next := t.next }
  let t ← q.blocks temp
  let next ← t.next
  let q ← q.modify next fun b => { b with prev := some newItem }
  q.modify temp fun b => { b with next := some newItem }

/-- The block that `splice` was for is counted. -/
def spliceAndCount (q : MessageQueue A) (newItem temp : A) : Option (MessageQueue A × ℤ) := do
  let q ← q.splice newItem temp
  let b ← q.blocks newItem
  some (q.account b.message).enqueued

/-- What both functions below do when their loop breaks at a block. -/
def enqueueBehind (q : MessageQueue A) (newItem temp : A) : Option (MessageQueue A × ℤ) := do
  let t ← q.blocks temp
  match t.next with
  | none => q.enqueueTailI newItem
  | some _ => q.spliceAndCount newItem temp

/-- **`enqueue_i`**: the new item goes behind the last one of at least its priority. -/
def enqueueI (q : MessageQueue A) (newItem : Option A) : Option (MessageQueue A × ℤ) :=
  match newItem with
  | none => some (q, -1)
  | some newItem => do
    let q ← q.modify newItem fun b => { b with next := none }
    match q.head with
    | none => q.enqueueHeadI newItem
    | some _ =>
      let b ← q.blocks newItem
      let temp ← scan q.blocks MessageBlock.prev
        (fun t => b.message.msgPriority ≤ t.message.msgPriority) (turns A) q.tail
      match temp with
      | none => q.enqueueHeadI newItem
      | some temp => q.enqueueBehind newItem temp

/-- **`enqueue_deadline_i`**: the loop breaks at the first item of a later deadline, and the new one
goes behind that item. -/
def enqueueDeadlineI (q : MessageQueue A) (newItem : Option A) : Option (MessageQueue A × ℤ) :=
  match newItem with
  | none => some (q, -1)
  | some newItem => do
    let q ← q.modify newItem fun b => { b with next := none }
    match q.head with
    | none => q.enqueueHeadI newItem
    | some _ =>
      let b ← q.blocks newItem
      let temp ← scan q.blocks MessageBlock.next
        (fun t => b.message.msgDeadlineTime < t.message.msgDeadlineTime) (turns A) q.head
      match temp with
      | none => q.enqueueTailI newItem
      | some temp => q.enqueueBehind newItem temp

/-! ### Dequeueing -/

/-- The errors of the operations. -/
inductive Errno
  | eshutdown
  | ewouldblock
deriving DecidableEq

/-- What an operation returns, the error it sets, and the block that it passes back. -/
structure Result (A : Type) where
  code : ℤ
  errno : Option Errno
  item : Option A
deriving DecidableEq

/-- `if (cur_count_ == 0 && head_ == tail_) head_ = tail_ = 0`. -/
def resetEnds (q : MessageQueue A) : MessageQueue A :=
  if q.curCount = 0 ∧ q.head = q.tail then { q with head := none, tail := none } else q

/-- The end of a dequeue: the sizes are subtracted, and the links of the block are cleared. -/
def dequeued (q : MessageQueue A) (item : A) : Option (MessageQueue A × Result A) := do
  let b ← q.blocks item
  let mb := totalSizeAndLength b.message 0 0
  let q := { q with
    curBytes := q.curBytes - mb.1
    curLength := q.curLength - mb.2
    curCount := q.curCount - 1 }
  let q ← q.resetEnds.modify item fun b => { b with prev := none }
  let q ← q.modify item fun b => { b with next := none }
  let code := if q.curBytes ≤ q.lowWaterMark ∧ q.notFullCond ≠ 0 then -1 else q.countCode
  some (q, ⟨code, none, some item⟩)

/-- **`dequeue_head_i`**. -/
def dequeueHeadI (q : MessageQueue A) : Option (MessageQueue A × Result A) :=
  match q.head with
  | none => some (q, ⟨-1, none, none⟩)
  | some firstItem => do
    let b ← q.blocks firstItem
    let q := { q with head := b.next }
    let q ← match q.head with
      | none => some { q with tail := none }
      | some head => q.modify head fun b => { b with prev := none }
    q.dequeued firstItem

/-- `chosen->prev ()->next (next)`, or `head_ = next` when there is no block before. -/
def linkNext (q : MessageQueue A) (prev next : Option A) : Option (MessageQueue A) :=
  match prev with
  | none => some { q with head := next }
  | some prev => q.modify prev fun b => { b with next := next }

/-- `chosen->next ()->prev (prev)`, or `tail_ = prev` when there is no block behind. -/
def linkPrev (q : MessageQueue A) (prev next : Option A) : Option (MessageQueue A) :=
  match next with
  | none => some { q with tail := prev }
  | some next => q.modify next fun b => { b with prev := prev }

/-- The neighbours of the chosen block are linked to each other. -/
def patchUp (q : MessageQueue A) (chosen : A) : Option (MessageQueue A) := do
  let b ← q.blocks chosen
  let q ← q.linkNext b.prev b.next
  let b ← q.blocks chosen
  q.linkPrev b.prev b.next

/-- The body of the loop of `dequeue_prio_i`. -/
def choosePrio (s : Option A × Fin (2 ^ 64)) (temp : A) (m : Message) : Option A × Fin (2 ^ 64) :=
  if m.msgPriority ≤ s.2 then (some temp, m.msgPriority) else s

/-- **`dequeue_prio_i`**. -/
def dequeuePrioI (q : MessageQueue A) : Option (MessageQueue A × Result A) :=
  match q.head with
  | none => some (q, ⟨-1, none, none⟩)
  | some head => do
    let (chosen, _) ← accumulate q.blocks MessageBlock.prev
      (fun s temp b => choosePrio s temp b.message) (turns A) q.tail (none, ulongMax)
    let chosen := chosen.getD head
    let q ← q.patchUp chosen
    q.dequeued chosen

/-- The body of the loop of `dequeue_deadline_i`. -/
def chooseDeadline (s : Option A × TimeValue) (temp : A) (m : Message) : Option A × TimeValue :=
  if m.msgDeadlineTime < s.2 then (some temp, m.msgDeadlineTime) else s

/-- **`dequeue_deadline_i`**. -/
def dequeueDeadlineI (q : MessageQueue A) : Option (MessageQueue A × Result A) :=
  match q.head with
  | none => some (q, ⟨-1, none, none⟩)
  | some head => do
    let (chosen, _) ← accumulate q.blocks MessageBlock.next
      (fun s temp b => chooseDeadline s temp b.message) (turns A) q.head (none, TimeValue.maxTime)
    let chosen := chosen.getD head
    let q ← q.patchUp chosen
    q.dequeued chosen

/-! ### The operations -/

/-- `is_empty_i`. -/
def isEmptyI (q : MessageQueue A) : Bool := q.tail = none

/-- `is_full_i`. -/
def isFullI (q : MessageQueue A) : Bool := q.highWaterMark ≤ q.curBytes

/-- The operations that enqueue. -/
def enqueue (insert : MessageQueue A → Option A → Option (MessageQueue A × ℤ)) (q : MessageQueue A)
    (newItem : Option A) : Option (MessageQueue A × Result A) :=
  if q.state = .deactivated then some (q, ⟨-1, some .eshutdown, none⟩)
  else if q.isFullI then some (q, ⟨-1, some .ewouldblock, none⟩)
  else (insert q newItem).map fun (q, code) => (q, ⟨code, none, none⟩)

/-- The operations that dequeue. -/
def dequeue (remove : MessageQueue A → Option (MessageQueue A × Result A)) (q : MessageQueue A) :
    Option (MessageQueue A × Result A) :=
  if q.state = .deactivated then some (q, ⟨-1, some .eshutdown, none⟩)
  else if q.isEmptyI then some (q, ⟨-1, some .ewouldblock, none⟩)
  else remove q

/-- **`enqueue_prio`**. -/
def enqueuePrio : MessageQueue A → Option A → Option (MessageQueue A × Result A) := enqueue enqueueI

/-- **`enqueue_deadline`**. -/
def enqueueDeadline : MessageQueue A → Option A → Option (MessageQueue A × Result A) :=
  enqueue enqueueDeadlineI

/-- **`dequeue_head`**. -/
def dequeueHead : MessageQueue A → Option (MessageQueue A × Result A) := dequeue dequeueHeadI

/-- **`dequeue_prio`**. -/
def dequeuePrio : MessageQueue A → Option (MessageQueue A × Result A) := dequeue dequeuePrioI

/-- **`dequeue_deadline`**. -/
def dequeueDeadline : MessageQueue A → Option (MessageQueue A × Result A) :=
  dequeue dequeueDeadlineI

/-- **`open`**: an empty queue in the memory of the application. -/
def init (blocks : A → Option (MessageBlock A)) (hwm lwm : BitVec 64) (notEmptyCond notFullCond : ℤ) :
    MessageQueue A :=
  ⟨none, none, blocks, 0, 0, 0, hwm, lwm, .activated, notEmptyCond, notFullCond⟩

/-- What the application does: it writes a block of its own, or it calls an operation. -/
inductive Command (A : Type)
  | write (a : A) (b : MessageBlock A)
  | enqueuePrio (newItem : Option A)
  | enqueueDeadline (newItem : Option A)
  | dequeueHead
  | dequeuePrio
  | dequeueDeadline

/-- One step. -/
def step (q : MessageQueue A) : Command A → Option (MessageQueue A × Result A)
  | .write a b => some ({ q with blocks := Function.update q.blocks a (some b) }, ⟨0, none, none⟩)
  | .enqueuePrio newItem => enqueuePrio q newItem
  | .enqueueDeadline newItem => enqueueDeadline q newItem
  | .dequeueHead => dequeueHead q
  | .dequeuePrio => dequeuePrio q
  | .dequeueDeadline => dequeueDeadline q

/-- The blocks of the queue with their messages, from the head to the tail. -/
def contents (q : MessageQueue A) : Option (List (A × Message)) :=
  accumulate q.blocks MessageBlock.next (fun es a b => es ++ [(a, b.message)]) (turns A) q.head []

end MessageQueue

end AceTao
