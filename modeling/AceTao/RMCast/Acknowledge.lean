import AceTao.RMCast.Fragment

/-!
# The receiving side of the acknowledgement protocol

`Acknowledge::recv` keeps a queue for each address it hears from: the number of the last message
that was handed up, and a hash map of the messages that came too early. The tracking thread enters
the numbers that are missing between them as lost, and sends negative acknowledgements for these.

The mutex is held throughout `recv`, and throughout `track_queue`, so each is one step. A step has no
answer if one of its loops does not end. The hash map is a list, whose order stands for the order in
which the map is iterated: it decides into which negative acknowledgement a lost number goes, and
nothing else.
-/

namespace AceTao.RMCast

/-- **`Descr`**: a message, or a number that is lost, with the negative acknowledgements that have
been sent for it and the ticks until the next one. The counters of a message are never read. -/
inductive Descr
  | msg (m : Message)
  | lost (nakCount timer : U64)

/-- The descriptor of a number that is found to be lost. -/
def Descr.newLoss : Descr := .lost 0 1

def Descr.isLost : Descr → Bool
  | .msg _ => false
  | .lost _ _ => true

/-- `sn_`, the last number handed up, and the entries of the numbers behind it. The field `maxSn` is
`max_sn_`, which says nothing of an empty queue. -/
structure Queue where
  entries : List (U64 × Descr)
  sn : U64
  maxSn : U64

namespace Queue

def new (sn : U64) : Queue := ⟨[], sn, sn⟩

def find (q : Queue) (sn : U64) : Option Descr := (q.entries.find? fun e => e.1 = sn).map (·.2)

/-- The largest number known: the method `max_sn ()`. -/
def largest (q : Queue) : U64 := if q.entries = [] then q.sn else q.maxSn

/-- An entry is not bound again. -/
def bind (q : Queue) (sn : U64) (d : Descr) : Queue :=
  if (q.find sn).isSome then q
  else { q with
    entries := q.entries ++ [(sn, d)]
    maxSn := if q.maxSn < sn then sn else q.maxSn }

/-- Only a new entry moves `max_sn_`: `rebind` returns 1 for one that was there. -/
def rebind (q : Queue) (sn : U64) (d : Descr) : Queue :=
  if (q.find sn).isSome then
    { q with entries := q.entries.map fun e => if e.1 = sn then (sn, d) else e }
  else { q with
    entries := q.entries ++ [(sn, d)]
    maxSn := if q.maxSn < sn then sn else q.maxSn }

/-- The loop of `unbind`, which goes down to the largest number that is left. Every number is at
least 0, so for `sn_ = 0` only an entry ends it. After 2⁶⁴ tests it is where it began. -/
def searchMax (q : Queue) : ℕ → U64 → Option U64
  | 0, _ => none
  | tests + 1, n =>
    if q.sn ≤ n then
      if (q.find n).isSome then some n else searchMax q tests (n - 1)
    else some n

def unbind (q : Queue) (sn : U64) : Option Queue :=
  if (q.find sn).isSome then
    let rest := { q with entries := q.entries.filter fun e => e.1 ≠ sn }
    if sn = q.maxSn then
      match rest.searchMax (2 ^ 64) (q.maxSn - 1) with
      | none => none
      | some n => some { rest with maxSn := n }
    else some rest
  else some q

/-- The loop of `collapse`: the messages from the number `sn` on, up to one that is missing or lost,
are taken out and handed up. The field `sn_` keeps its old value until the end. -/
def collapseLoop : ℕ → Queue → U64 → Option (Queue × List Message)
  | 0, _, _ => none
  | tests + 1, q, sn =>
    match q.find sn with
    | some (.msg m) =>
      match q.unbind sn with
      | none => none
      | some q' =>
        match collapseLoop tests q' (sn + 1) with
        | none => none
        | some (q'', up) => some (q'', m :: up)
    | _ => some ({ q with sn := sn - 1 }, [])

/-- Each time round the loop takes an entry out. -/
def collapse (q : Queue) : Option (Queue × List Message) :=
  collapseLoop (q.entries.length + 1) q (q.sn + 1)

/-- What a notice of the highest number `sn` does: a number that was not known is lost. The number 0
stands for no notice. -/
def notice (q : Queue) (sn : U64) : Queue :=
  if sn ≠ 0 ∧ q.largest < sn then q.bind sn .newLoss else q

end Queue

/-- `NRTM::find`. -/
def nrtmFind (map : List (Address × U64)) (address : Address) : U64 :=
  match map.find? fun e => e.1 = address with
  | some e => e.2
  | none => 0

/-- `NAK::max_count`: the loop, with the length of the stream before it, an even multiple of 8. -/
def nakCountLoop (maxSize : ℕ) : ℕ → ℕ → ℕ → ℕ
  | 0, _, n => n
  | tests + 1, total, n =>
    let total := total + 8
    let n := if total ≤ maxSize then n + 1 else n
    if maxSize ≤ total then n else nakCountLoop maxSize tests total n

/-- The header and the address of a `NAK` take 10 bytes, and the numbers are aligned to 8. -/
def nakMaxCount (maxSize : ℕ) : ℕ := nakCountLoop maxSize (maxSize + 1) 16 0

namespace Acknowledge

/-- The parameters that are read: `max_packet_size` and `nak_timeout`. -/
structure Parameters where
  maxPacketSize : U16
  nakTimeout : U64

/-- `hold_`. -/
abbrev Hold := Address → Option Queue

/-! ### `recv` -/

/-- A message that is put in order: with a profile `Data` or `NoData`. -/
def sequenced (m : Message) : Bool := m.findData.isSome || m.findNoData

/-- The part of `recv` that handles a notice in the message. -/
def recvNrtm (hold : Hold) (m : Message) : Hold :=
  match m.findNrtm with
  | some map => fun address => (hold address).map fun q => q.notice (nrtmFind map address)
  | none => hold

/-- The part of `recv` for a message of an address that is known. -/
def recvKnown (q : Queue) (sn : U64) (m : Message) : Option (Queue × List Message) :=
  if sn ≤ q.sn then some (q, [])
  else if sn = q.sn + 1 then (q.rebind sn (.msg m)).collapse
  else some (q.rebind sn (.msg m), [])

/-- **`recv`**, with the messages that are handed up. The profiles `From` and `SN` are not tested. -/
def recv (hold : Hold) (m : Message) : Option (Hold × List Message) :=
  let hold := recvNrtm hold m
  if sequenced m then
    match m.findFrom, m.findSn with
    | some source, some sn =>
      match hold source with
      | none => some (Function.update hold source (some (.new sn)), [m])
      | some q =>
        match recvKnown q sn m with
        | none => none
        | some (q', up) => some (Function.update hold source (some q'), up)
    | _, _ => none
  else some (hold, [m])

/-! ### `track_queue` -/

/-- A tick for a descriptor, and whether a negative acknowledgement is due. -/
def tick (nakTimeout : U64) : Descr → Descr × Bool
  | .msg m => (.msg m, false)
  | .lost nakCount timer =>
    if timer - 1 = 0 then (.lost (nakCount + 1) ((nakCount + 1 + 1) * nakTimeout), true)
    else (.lost nakCount (timer - 1), false)

/-- The inner loop, which fills one `NAK`: its numbers, the entries that were passed, and those that
are left. -/
def fillNak (nakTimeout : U64) (maxElem : ℕ) (sns : List U64) :
    List (U64 × Descr) → List U64 × List (U64 × Descr) × List (U64 × Descr)
  | [] => (sns, [], [])
  | e :: es =>
    if sns.length < maxElem then
      let (d, due) := tick nakTimeout e.2
      let (sns', passed, rest) :=
        fillNak nakTimeout maxElem (if due then sns ++ [e.1] else sns) es
      (sns', (e.1, d) :: passed, rest)
    else (sns, [], e :: es)

/-- The loop over the existing losses: the entries after it, and the numbers of each `NAK`. -/
def trackLosses (nakTimeout : U64) (maxElem : ℕ) :
    ℕ → List (U64 × Descr) → Option (List (U64 × Descr) × List (List U64))
  | _, [] => some ([], [])
  | 0, _ :: _ => none
  | tests + 1, e :: es =>
    let (sns, passed, rest) := fillNak nakTimeout maxElem [] (e :: es)
    match trackLosses nakTimeout maxElem tests rest with
    | none => none
    | some (es', naks) => some (passed ++ es', if sns = [] then naks else sns :: naks)

/-- The loop that records new losses, from the number `sn` to the one before `last`. What is bound
already stays. -/
def recordLosses (last : U64) : ℕ → U64 → Queue → Queue
  | 0, _, q => q
  | tests + 1, sn, q =>
    if sn < last then recordLosses last tests (sn + 1) (q.bind sn .newLoss) else q

/-- **`track_queue`**, with the messages that are sent. The largest size of a payload is an
`unsigned short`. An iteration of the outer loop passes an entry, if one number fits in a `NAK`. -/
def trackQueue (p : Parameters) (address : Address) (q : Queue) :
    Option (Queue × List Message) :=
  let maxPayloadSize : U16 := p.maxPacketSize - BitVec.ofNat 16 maxServiceSize
  match trackLosses p.nakTimeout (nakMaxCount maxPayloadSize.toNat) q.entries.length q.entries with
  | none => none
  | some (entries, naks) =>
    let q' := { q with entries := entries }
    some (recordLosses q'.largest (2 ^ 64) (q'.sn + 1) q',
      naks.map fun sns => Message.empty.add (.nak address sns))

/-! ### Steps -/

/-- A message arrives, or the tracking thread comes to an address. -/
inductive Event
  | recv (m : Message)
  | track (address : Address)

/-- What a step hands to the upper element, and what it sends. -/
structure Passed where
  up : List Message
  down : List Message

/-- **A step**. The tracking thread passes over empty queues. -/
def step (p : Parameters) (hold : Hold) : Event → Option (Hold × Passed)
  | .recv m =>
    match recv hold m with
    | none => none
    | some (hold', up) => some (hold', ⟨up, []⟩)
  | .track address =>
    match hold address with
    | none => some (hold, ⟨[], []⟩)
    | some q =>
      if q.entries = [] then some (hold, ⟨[], []⟩)
      else
        match trackQueue p address q with
        | none => none
        | some (q', down) => some (Function.update hold address (some q'), ⟨[], down⟩)

/-- No message has arrived. -/
def init : Hold := fun _ => none

end Acknowledge

end AceTao.RMCast
