import AceTao.Library.Machine
import AceTao.RMCast.Acknowledge
import AceTao.RMCast.Codec
import AceTao.RMCast.Fragment

/-!
# What a sender passes down

What an application sends goes through `Fragment`, `Acknowledge` and `Retransmit` before
`Link::send_` writes it. `Acknowledge` attaches an `NRTM` to a message with data, if there is room, and
its tracking thread sends messages of its own. `Retransmit` keeps a copy of each message with data,
and answers a `NAK` for this address with the copies, or with `NoData`.

The queues of `Acknowledge` are not followed here: at each event they are whatever they may be, in
whatever order the map is iterated. `Reassemble` and `Flow` pass everything down as it is.
-/

namespace AceTao.RMCast

def Message.findNak (m : Message) : Option (Address × List U64) :=
  match m.find 0x0005 with
  | some (.nak address sns) => some (address, sns)
  | _ => none

/-- `NRTM::max_count`: the loop, with the length of the stream before it. -/
def nrtmCountLoop (maxSize : ℕ) : ℕ → ℕ → ℕ → ℕ
  | 0, _, n => n
  | tests + 1, total, n =>
    let total := SizeCDR.write2 (SizeCDR.write4 (SizeCDR.write8 total))
    let n := if total ≤ maxSize then n + 1 else n
    if maxSize ≤ total then n else nrtmCountLoop maxSize tests total n

/-- The header of an `NRTM` takes 4 bytes. -/
def nrtmMaxCount (maxSize : ℕ) : ℕ := nrtmCountLoop maxSize (maxSize + 1) 4 0

/-! ### `Fragment` -/

/-- The messages that the loop of `send` passes down in so many iterations. -/
def Sending.passed (maxPayload : ℕ) : ℕ → Sending → U64 → List Message
  | 0, _, _ => []
  | tests + 1, s, sn =>
    if s.i ≤ s.packets then
      match s.iterate maxPayload sn with
      | none => []
      | some (m, s') => m :: passed maxPayload tests s' (sn + 1)
    else []

/-- The messages that `send` passes down, in so many iterations if it has a loop. -/
def Fragment.passed (maxPacketSize : U16) (m : Message) (sn : U64) (tests : ℕ) : List Message :=
  match m.findData with
  | none => []
  | some data =>
    let maxPayload := maxPayloadSize maxPacketSize
    if data.size ≤ maxPayload then [m.add (.sn sn)]
    else if maxPayload = 0 then []
    else (Sending.start maxPayload data.buf).passed maxPayload tests sn

/-! ### `Acknowledge` -/

namespace Acknowledge

/-- The loop of `create_nrtm` over the queues. -/
def gather : List (Address × Queue) → U32 → List (Address × U64) → List (Address × U64)
  | [], _, map => map
  | (address, q) :: hold, maxElem, map =>
    let map := bindBlock map address q.sn
    if maxElem - 1 = 0 then map else gather hold (maxElem - 1) map

/-- `create_nrtm` -/
def createNrtm (hold : List (Address × Queue)) (maxElem : U32) : Option Profile :=
  match gather hold maxElem [] with
  | [] => none
  | block :: blocks => some (.nrtm (block :: blocks))

/-- **`send`**: the message, with an `NRTM` if there is room. -/
def send (maxPacketSize : U16) (hold : List (Address × Queue)) (m : Message) : Message :=
  match m.findData with
  | none => m
  | some data =>
    if data.size < maxPayloadSize maxPacketSize then
      let maxElem : U32 := BitVec.ofNat 32
        (nrtmMaxCount (BitVec.ofNat 32 (maxPayloadSize maxPacketSize - data.size)).toNat)
      if 0 < maxElem then
        match createNrtm hold maxElem with
        | none => m
        | some nrtm => m.add nrtm
      else m
    else m

/-- The messages for the queues that are not empty. -/
def trackQueues (p : Parameters) : List (Address × Queue) → Option (List Message)
  | [] => some []
  | (address, q) :: hold =>
    if q.entries = [] then trackQueues p hold
    else
      match trackQueue p address q, trackQueues p hold with
      | some (_, down), some msgs => some (down ++ msgs)
      | _, _ => none

/-- The message that is sent when the timer has run out. -/
def nrtmMessages (p : Parameters) (hold : List (Address × Queue)) : List Message :=
  let maxPayloadSize : U16 := p.maxPacketSize - BitVec.ofNat 16 maxServiceSize
  match createNrtm hold (BitVec.ofNat 32 (nrtmMaxCount maxPayloadSize.toNat)) with
  | none => []
  | some nrtm => [Message.empty.add nrtm]

end Acknowledge

/-! ### `Retransmit` -/

namespace Retransmit

/-- A copy, with the ticks since it was last asked for. -/
structure Stored where
  msg : Message
  count : U64

abbrev Queue := List (U64 × Stored)

/-- A number is bound once. -/
def bind (queue : Queue) (sn : U64) (d : Stored) : Queue :=
  if sn ∈ queue.map Prod.fst then queue else queue ++ [(sn, d)]

/-- `send`; the profile `SN` is not tested. -/
def send (queue : Queue) (m : Message) : Option Queue :=
  if m.findData.isSome then
    match m.findSn with
    | none => none
    | some sn => some (bind queue sn ⟨m, 0⟩)
  else some queue

def sendAll : Queue → List Message → Option Queue
  | queue, [] => some queue
  | queue, m :: ms =>
    match send queue m with
    | none => none
    | some queue' => sendAll queue' ms

/-- The loop over the numbers of a `NAK`. -/
def answers : Queue → List U64 → Queue × List Message
  | queue, [] => (queue, [])
  | queue, sn :: sns =>
    match queue.find? fun e => e.1 = sn with
    | some e =>
      let (queue', ms) := answers
        (queue.map fun e => if e.1 = sn then (e.1, ⟨e.2.msg, 0⟩) else e) sns
      (queue', e.2.msg :: ms)
    | none =>
      let (queue', ms) := answers queue sns
      (queue', (Message.empty.add (.sn sn)).add .noData :: ms)

/-- **`recv`**, with the messages that are sent. The profile `To` is not tested. -/
def recv (queue : Queue) (m : Message) : Option (Queue × List Message) :=
  match m.findNak with
  | none => some (queue, [])
  | some (address, sns) =>
    match m.findTo with
    | none => none
    | some target => if address = target then some (answers queue sns) else some (queue, [])

/-- One pass of `track`. -/
def track (retentionTimeout : U64) (queue : Queue) : Queue :=
  queue.filterMap fun e =>
    if retentionTimeout ≤ e.2.count + 1 then none else some (e.1, ⟨e.2.msg, e.2.count + 1⟩)

end Retransmit

/-! ### The sender -/

/-- The parameters of a sender. -/
structure SenderParameters extends Acknowledge.Parameters where
  nrtmTimeout : U64
  retentionTimeout : U64

/-- `nrtm_timer_`, and the copies. -/
structure Sender where
  nrtmTimer : U64
  queue : Retransmit.Queue

/-- **What can happen**: a message of `Fragment`, the `k`-th for the bytes of an application; a pass of
the thread of `Acknowledge`; a message that arrives; a pass of the thread of `Retransmit`. -/
inductive SenderEvent
  | send (bytes : List UInt8) (sn : U64) (k : ℕ) (hold : List (Address × Queue))
  | track (hold : List (Address × Queue))
  | recv (m : Message) (source self : Address)
  | expire

namespace Sender

variable (p : SenderParameters)

def new : Sender := ⟨p.nrtmTimeout, []⟩

/-- **A step**, with the messages that are passed to the link. -/
def step (s : Sender) : SenderEvent → Option (Sender × List Message)
  | .send bytes sn k hold =>
    match (Fragment.passed p.maxPacketSize (Message.empty.add (.data (.new bytes 0))) sn (k + 1))[k]?
      with
    | none => some (s, [])
    | some m =>
      match Retransmit.send s.queue (Acknowledge.send p.maxPacketSize hold m) with
      | none => none
      | some queue => some (⟨p.nrtmTimeout, queue⟩, [Acknowledge.send p.maxPacketSize hold m])
  | .track hold =>
    match Acknowledge.trackQueues p.toParameters hold with
    | none => none
    | some naks =>
      let due := s.nrtmTimer - 1 = 0
      let ms := naks ++ if due then Acknowledge.nrtmMessages p.toParameters hold else []
      match Retransmit.sendAll s.queue ms with
      | none => none
      | some queue => some (⟨if due then p.nrtmTimeout else s.nrtmTimer - 1, queue⟩, ms)
  | .recv m source self =>
    match Retransmit.recv s.queue (m.linked source self) with
    | none => none
    | some (queue, ms) => some ({ s with queue := queue }, ms)
  | .expire => some ({ s with queue := Retransmit.track p.retentionTimeout s.queue }, [])

end Sender

end AceTao.RMCast
