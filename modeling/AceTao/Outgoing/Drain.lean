import AceTao.Outgoing.Messages
import Mathlib.Data.List.Basic
import Mathlib.Logic.Relation

/-!
# `drain_queue_i`

The loop fills a vector from the messages in the queue, discards those that have expired, and
sends the vector when it is full or there are no more messages. What the socket answers is a list;
a socket that is asked once more than this would block. The loop ends, since a full vector is
followed by another round only after an answer.

All that a drain does to the queue and to the bytes in the socket is a sequence of two `Move`s
(`Transport.drainQueueI_moves`): a message that may expire is discarded, or some of the first
bytes of the queue are sent.
-/

namespace AceTao.Outgoing

/-- The values of `errno` that are distinguished. -/
inductive Errno
  | wouldBlock
  | timedOut
  | other
  deriving DecidableEq

/-- What `send` returns: it takes at least one byte, or returns -1, or 0 when `errno` is stale. -/
inductive SendAnswer
  | accepted (n : ℕ)
  | failed (errno : Errno)
  | closed (errno : Errno)
  deriving DecidableEq

/-- **`Drain_Result`**, with `errno`. -/
inductive DrainResult
  | ok
  | queueEmpty
  | wouldBlock
  | error (errno : Errno)
  deriving DecidableEq

/-- **`TAO_Transport`**: the queue, the bytes that the socket has taken, and a number that no
message has for its address. The transport has failed when a call has returned -1 and its caller,
who does not hold the lock any more, is about to close the connection. -/
structure Transport where
  queue : List Message
  wire : List UInt8
  next : ℕ
  failed : Bool
  deriving DecidableEq

/-- **`cleanup_queue`**. A message that was not completely sent leaves no bytes for the next one
(`Message.bytesTransferred_spec`). -/
def cleanupQueue : ℕ → List Message → List Message
  | _, [] => []
  | n, m :: ms =>
    if n = 0 then m :: ms
    else
      let (m, n) := m.bytesTransferred n
      if m.allDataSent then cleanupQueue n ms else m.copyIfNecessary :: ms

/-- The messages from `i` on in `drain_queue_i`, until the vector is full. -/
def fillVector (iovMax : ℕ) (now : ℤ) : List Message → List Block → List Message × List Block
  | [], iov => ([], iov)
  | m :: ms, iov =>
    if m.isExpired now then fillVector iovMax now ms iov
    else if (m.fillIov iovMax iov).length = iovMax then (m :: ms, m.fillIov iovMax iov)
    else (m :: (fillVector iovMax now ms (m.fillIov iovMax iov)).1,
      (fillVector iovMax now ms (m.fillIov iovMax iov)).2)

namespace Transport

/-- **`drain_queue_helper`**. -/
def drainQueueHelper (iov : List Block) : SendAnswer → Transport → Transport × DrainResult
  | .accepted n, t =>
    let byteCount := min (n + 1) iov.flatten.length
    ({ t with queue := cleanupQueue byteCount t.queue,
              wire := t.wire ++ iov.flatten.take byteCount }, .queueEmpty)
  | .failed .wouldBlock, t => (t, .wouldBlock)
  | .failed errno, t => (t, .error errno)
  | .closed errno, t => (t, .error errno)

/-- What `drain_queue_i` returns when the loop has come to its end. -/
def endResult (queue : List Message) : DrainResult := if queue = [] then .queueEmpty else .ok

/-- **`drain_queue_i`**, with the time at its start, and the time after each answer. -/
def drainQueueI (iovMax : ℕ) : ℤ → List (SendAnswer × ℤ) → Transport → Transport × DrainResult
  | now, [], t =>
    let (queue, iov) := fillVector iovMax now t.queue []
    ({ t with queue },
      if iov = [] then endResult queue else .wouldBlock)
  | now, (answer, later) :: answers, t =>
    let (queue, iov) := fillVector iovMax now t.queue []
    if iov = [] then ({ t with queue }, endResult queue)
    else
      match drainQueueHelper iov answer { t with queue } with
      | (t, .queueEmpty) =>
        if iov.length = iovMax then drainQueueI iovMax later answers t
        else (t, endResult t.queue)
      | (t, result) => (t, result)

/-- The bytes that are yet to be sent. -/
def pending (t : Transport) : List UInt8 := (t.queue.map Message.pending).flatten

end Transport

/-! ### Moves -/

/-- **Moves of a drain**, on the bytes in the socket and the queue. -/
inductive Move : List UInt8 × List Message → List UInt8 × List Message → Prop
  | discard (wire : List UInt8) (q₁ q₂ : List Message) (m : Message) (h : ¬ m.Lasting) :
    Move (wire, q₁ ++ m :: q₂) (wire, q₁ ++ q₂)
  | sent (wire : List UInt8) (q : List Message) (n : ℕ)
    (h : n ≤ (q.map Message.pending).flatten.length) :
    Move (wire, q) (wire ++ (q.map Message.pending).flatten.take n, cleanupQueue n q)

/-- Moves one after the other. -/
abbrev Moves := Relation.ReflTransGen Move

variable {iovMax : ℕ} {now : ℤ} {wire : List UInt8} {q : List Message} {iov : List Block}

/-- Only messages that may expire are discarded. -/
theorem fillVector_moves (q₀ q : List Message) (iov : List Block) :
    Moves (wire, q₀ ++ q) (wire, q₀ ++ (fillVector iovMax now q iov).1) := by
  induction q generalizing q₀ iov with
  | nil => exact Relation.ReflTransGen.refl
  | cons m ms ih =>
    rw [fillVector]
    split_ifs with hexp
    · refine Relation.ReflTransGen.head (Move.discard wire q₀ ms m fun h => ?_) (ih q₀ iov)
      rw [h now] at hexp
      cases hexp
    · exact Relation.ReflTransGen.refl
    · have hmoves := ih (q₀ ++ [m]) (m.fillIov iovMax iov)
      rw [List.append_assoc, List.append_assoc] at hmoves
      exact hmoves

/-- **The vector** has the first bytes of the queue. -/
theorem fillVector_flatten (now : ℤ) (q : List Message) (hlt : iov.length < iovMax) :
    ∃ sent rest, (fillVector iovMax now q iov).2.flatten = iov.flatten ++ sent ∧
      ((fillVector iovMax now q iov).1.map Message.pending).flatten = sent ++ rest := by
  induction q generalizing iov with
  | nil => exact ⟨[], [], (List.append_nil _).symm, rfl⟩
  | cons m ms ih =>
    rw [fillVector]
    obtain ⟨-, hle, sent, rest, hflat, hpending, hrest⟩ := m.fillIov_spec hlt
    split_ifs with hexp hfull
    · exact ih hlt
    · refine ⟨sent, rest ++ (ms.map Message.pending).flatten, hflat, ?_⟩
      rw [List.map_cons, List.flatten_cons, hpending, List.append_assoc]
    · have hroom := Nat.lt_of_le_of_ne hle hfull
      obtain ⟨sent', rest', hflat', hpending'⟩ := ih hroom
      refine ⟨sent ++ sent', rest', ?_, ?_⟩
      · rw [hflat', hflat, List.append_assoc]
      · rw [List.map_cons, List.flatten_cons, hpending, hrest hroom, List.append_nil, hpending',
          List.append_assoc]

namespace Transport

variable {t : Transport}

/-- The messages that are left when the vector is sent. -/
theorem fillVector_nil_moves (iovMax : ℕ) (now : ℤ) (wire : List UInt8) (q : List Message) :
    Moves (wire, q) (wire, (fillVector iovMax now q []).1) :=
  fillVector_moves [] q []

theorem drainQueueHelper_moves (hmax : 0 < iovMax) (t : Transport) (now : ℤ) (answer : SendAnswer) :
    Moves (t.wire, t.queue)
      ((drainQueueHelper (fillVector iovMax now t.queue []).2 answer
          { t with queue := (fillVector iovMax now t.queue []).1 }).1.wire,
        (drainQueueHelper (fillVector iovMax now t.queue []).2 answer
          { t with queue := (fillVector iovMax now t.queue []).1 }).1.queue) := by
  refine (fillVector_nil_moves iovMax now _ _).trans ?_
  obtain ⟨sent, rest, hflat, hpending⟩ :=
    fillVector_flatten now t.queue (show [].length < iovMax from hmax)
  rw [List.flatten_nil, List.nil_append] at hflat
  rcases answer with n | errno | errno
  · have hlen : min (n + 1) sent.length ≤ sent.length := Nat.min_le_right _ _
    have hmove := Move.sent t.wire (fillVector iovMax now t.queue []).1 (min (n + 1) sent.length)
      (by rw [hpending, List.length_append]; omega)
    rw [hpending, List.take_append_of_le_length hlen] at hmove
    rw [drainQueueHelper, hflat]
    exact Relation.ReflTransGen.single hmove
  · cases errno <;> exact Relation.ReflTransGen.refl
  · exact Relation.ReflTransGen.refl

/-- **A drain is a sequence of moves**, and changes nothing else. -/
theorem drainQueueI_moves (hmax : 0 < iovMax) (answers : List (SendAnswer × ℤ)) (now : ℤ)
    (t : Transport) :
    Moves (t.wire, t.queue)
        ((drainQueueI iovMax now answers t).1.wire, (drainQueueI iovMax now answers t).1.queue) ∧
      (drainQueueI iovMax now answers t).1.next = t.next ∧
      (drainQueueI iovMax now answers t).1.failed = t.failed := by
  induction answers generalizing now t with
  | nil => exact ⟨fillVector_nil_moves _ _ _ _, rfl, rfl⟩
  | cons pair answers ih =>
    obtain ⟨answer, later⟩ := pair
    rw [drainQueueI]
    dsimp only
    by_cases hiov : (fillVector iovMax now t.queue []).2 = []
    · rw [if_pos hiov]
      exact ⟨fillVector_nil_moves _ _ _ _, rfl, rfl⟩
    · rw [if_neg hiov]
      have hmoves := drainQueueHelper_moves hmax t now answer
      have hrest : ∀ iov, ((drainQueueHelper iov answer
            { t with queue := (fillVector iovMax now t.queue []).1 }).1.next = t.next) ∧
          (drainQueueHelper iov answer
            { t with queue := (fillVector iovMax now t.queue []).1 }).1.failed = t.failed := by
        intro iov
        rcases answer with n | errno | errno
        · exact ⟨rfl, rfl⟩
        · cases errno <;> exact ⟨rfl, rfl⟩
        · exact ⟨rfl, rfl⟩
      specialize hrest (fillVector iovMax now t.queue []).2
      generalize drainQueueHelper _ answer _ = result at hmoves hrest ⊢
      obtain ⟨t', result⟩ := result
      cases result with
      | queueEmpty =>
        dsimp only
        split_ifs with hfull
        · obtain ⟨hmoves', hnext, hfailed⟩ := ih later t'
          exact ⟨hmoves.trans hmoves', hnext.trans hrest.1, hfailed.trans hrest.2⟩
        · exact ⟨hmoves, hrest⟩
      | ok => exact ⟨hmoves, hrest⟩
      | wouldBlock => exact ⟨hmoves, hrest⟩
      | error errno => exact ⟨hmoves, hrest⟩

end Transport

end AceTao.Outgoing
