import AceTao.Library.Machine
import AceTao.Outgoing.Account
import Mathlib.Data.List.Basic

/-!
# Sending messages

The functions of `TAO_Transport` that send a message hold a lock while they put it into the queue
and drain the queue. A thread that sends a request and has not sent all of it when the drain is
over waits without the lock (`Outcome.waiting`), and the calls of the other threads come in
between; so a run is a list of calls in any order, and the end of a wait that has failed is a call
of its own. A call that returns -1 makes its caller close the connection; the runs here end with
the first one of these.

`send_asynchronous_message_i` tries to send a oneway request if the queue is empty, and queues
what is left of the blocks of its caller. A request of `ACE_IOV_MAX` blocks or more may be sent by
two calls of `send`, and after the first one `copy_if_necessary` clones its blocks, so that those
of the caller do not show what the second one sends; and if the second one fails, no byte counts
as sent. The number of blocks is a condition here (`Admissible`), and so is that a reply can be
scheduled: if it cannot, `send_reply_message_i` takes what is left of the reply from the queue and
returns 1.
-/

namespace AceTao.Outgoing

open Message Machine

/-- A marshalled message: it has a header, so there are bytes. -/
abbrev Chain := {blocks : List Block // blocks.flatten ≠ []}

/-- The arguments of the functions that send: the blocks, if they are those of the output stream,
the time, and what `send` will return. -/
structure Call where
  chain : Chain
  inStream : Bool
  now : ℤ
  answers : List (SendAnswer × ℤ)

/-- **The calls.** An address is that of a message; a time limit of a oneway request is absolute. -/
inductive Event
  | sendSynchronous (call : Call) (scheduled : Bool)
  | flushFailed (address : ℕ)
  | sendReply (call : Call) (scheduled : Bool)
  | sendAsynchronous (call : Call) (mustQueue : Bool) (absTimeout : ℤ)
  | handleOutput (now : ℤ) (answers : List (SendAnswer × ℤ))

/-- How a call ends: all was sent, or the thread waits, or the rest is in the queue, or the
exception `TIMEOUT` says that nothing was sent, or -1. -/
inductive Outcome
  | done
  | waiting
  | queued
  | timedOut
  | failed
  deriving DecidableEq

/-- The message at an address. -/
def Message.isAt (address : ℕ) : Message → Bool
  | .synch a _ => a = address
  | .asynch _ => false

/-- The blocks of the caller, as they are after the drain. -/
def Message.chain : Message → List Block
  | .synch _ m => m.chain
  | .asynch m => [m.buffer]

namespace Transport

/-- `push_back`, for a message that refers to the blocks of the caller. -/
def pushSynch (t : Transport) (call : Call) : Transport :=
  { t with queue := t.queue ++ [.synch t.next (Synch.new call.chain.1 call.inStream)],
           next := t.next + 1 }

/-- `remove_from_list`. -/
def remove (t : Transport) (address : ℕ) : Transport :=
  { t with queue := t.queue.filter fun m => !m.isAt address }

def find (t : Transport) (address : ℕ) : Option Message := t.queue.find? (Message.isAt address)

/-- `message_length`; a message that is not in the queue was sent. -/
def messageLength (t : Transport) (address : ℕ) : ℕ :=
  ((t.find address).map fun m => m.pending.length).getD 0

/-- The call returns -1. -/
def fail (t : Transport) : Transport × Outcome := ({ t with failed := true }, .failed)

/-- **`send_synchronous_message_i`**, until it waits. -/
def sendSynchronous (iovMax : ℕ) (call : Call) (scheduled : Bool) (t : Transport) :
    Transport × Outcome :=
  match drainQueueI iovMax call.now call.answers (t.pushSynch call) with
  | (t', .error errno) =>
    if errno = .timedOut ∧ call.chain.1.flatten.length = t'.messageLength t.next then
      (t'.remove t.next, .timedOut)
    else fail (t'.remove t.next)
  | (t', .queueEmpty) => (t', .done)
  | (t', _) =>
    if t'.find t.next = none then (t', .done)
    else if scheduled then (t', .waiting) else fail (t'.remove t.next)

/-- **`send_reply_message_i`**. -/
def sendReply (iovMax : ℕ) (call : Call) (scheduled : Bool) (t : Transport) : Transport × Outcome :=
  match drainQueueI iovMax call.now call.answers (t.pushSynch call) with
  | (t', .error _) => fail (t'.remove t.next)
  | (t', .queueEmpty) => (t', .done)
  | (t', _) =>
    match t'.find t.next with
    | some (.synch _ m) =>
      let t'' := t'.remove t.next
      if scheduled then
        ({ t'' with queue := t''.queue ++ [.synch t'.next ⟨m.blocks, m.blocks, true, false⟩],
                    next := t'.next + 1 }, .queued)
      else (t'', .done)
    | _ => (t', .done)

/-- What is left of a oneway request is queued, at the front if a part of it was sent. -/
def queueRest (t : Transport) (address byteCount : ℕ) (absTimeout : ℤ) : Transport :=
  let chain := ((t.find address).map Message.chain).getD []
  let t := t.remove address
  if 0 < byteCount then { t with queue := .asynch ⟨chain.flatten, 0, 0⟩ :: t.queue }
  else { t with queue := t.queue ++ [.asynch ⟨chain.flatten, 0, absTimeout⟩] }

/-- **`send_asynchronous_message_i`**, until it flushes the queue. -/
def sendAsynchronous (iovMax : ℕ) (call : Call) (mustQueue : Bool) (absTimeout : ℤ)
    (t : Transport) : Transport × Outcome :=
  if t.queue ≠ [] ∨ mustQueue then
    ({ t with queue := t.queue ++ [.asynch ⟨call.chain.1.flatten, 0, absTimeout⟩] }, .queued)
  else
    let totalLength := call.chain.1.flatten.length
    match drainQueueI iovMax call.now call.answers (t.pushSynch call) with
    | (t', .error .timedOut) => (t'.remove t.next, .timedOut)
    | (t', .error .other) => fail (t'.remove t.next)
    | (t', .error .wouldBlock) => (t'.queueRest t.next 0 absTimeout, .queued)
    | (t', .queueEmpty) => (t', .done)
    | (t', _) =>
      if totalLength = totalLength - t'.messageLength t.next then (t'.remove t.next, .done)
      else (t'.queueRest t.next (totalLength - t'.messageLength t.next) absTimeout, .queued)

/-- **`handle_output`**. -/
def handleOutput (iovMax : ℕ) (now : ℤ) (answers : List (SendAnswer × ℤ)) (t : Transport) :
    Transport × Outcome :=
  match drainQueueI iovMax now answers t with
  | (t', .error _) => fail t'
  | (t', _) => (t', .done)

/-- **One call.** -/
def step (iovMax : ℕ) (t : Transport) : Event → Option (Transport × Outcome)
  | .sendSynchronous call scheduled => some (t.sendSynchronous iovMax call scheduled)
  | .flushFailed address => some (fail (t.remove address))
  | .sendReply call scheduled => some (t.sendReply iovMax call scheduled)
  | .sendAsynchronous call mustQueue absTimeout =>
    some (t.sendAsynchronous iovMax call mustQueue absTimeout)
  | .handleOutput now answers => some (t.handleOutput iovMax now answers)

/-- A connection on which nothing was sent. -/
def empty : Transport := ⟨[], [], 0, false⟩

end Transport

/-- The message that a call is to send, if there is one. -/
def Event.payload : Event → List (List UInt8)
  | .sendSynchronous call _ | .sendReply call _ | .sendAsynchronous call _ _ =>
    [call.chain.1.flatten]
  | .flushFailed _ | .handleOutput _ _ => []

/-- **Conditions**: no call has failed before, a oneway request that is tried first is sent by one
call of `send`, and a reply can be scheduled. -/
def Admissible (iovMax : ℕ) (t : Transport) : Event → Prop
  | .sendAsynchronous call mustQueue _ =>
    t.failed = false ∧ (t.queue = [] → mustQueue = false → pieces call.chain.1 < iovMax)
  | .sendReply _ scheduled => t.failed = false ∧ scheduled = true
  | _ => t.failed = false

end AceTao.Outgoing
