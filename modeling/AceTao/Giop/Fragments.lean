import AceTao.Cdr.Input
import AceTao.Cdr.Output

/-!
# `TAO_Queued_Data`: the code

An incoming GIOP message is a chain of message blocks with the state that its header was parsed
into. A block is given by the address of its buffer, by the offset of `rd_ptr`, and by the bytes
from there to `wr_ptr`; it lies in the address space. `parse_request_id` reads the request id of a
message through a CDR stream over its first block, and `consolidate` copies a chain into one block.

The addresses of new buffers come from a `Heap`. How a list of service contexts is read is a
parameter, since this code is generated.
-/

namespace AceTao.Giop

open Cdr

/-- `GIOP::MsgType`, which is cast from an octet. -/
inductive MsgType
  | request | reply | cancelRequest | locateRequest | locateReply | closeConnection | messageError
  | fragment
  | other (octet : UInt8)
  deriving DecidableEq

/-- `TAO_GIOP_Message_Version`. -/
structure MessageVersion where
  major : UInt8
  minor : UInt8
  deriving DecidableEq

/-- `TAO_GIOP_Message_State`. -/
structure MessageState where
  giopVersion : MessageVersion
  byteOrder : UInt8
  messageType : MsgType
  payloadSize : ULong
  moreFragments : Bool

/-- A message block. -/
structure MessageBlock where
  base : ℕ
  rdPtr : ℕ
  contents : List UInt8
  fits : base + rdPtr + contents.length ≤ addressLimit

/-- **`TAO_Queued_Data`**. -/
structure QueuedData where
  msgBlock : List MessageBlock
  missingData : ℕ
  state : MessageState

/-- Where new buffers are allocated: the address for a size, if memory is not exhausted. Allocators
return addresses in the address space that are aligned for every type. -/
structure Heap where
  address : ℕ → Option ℕ
  fits : ∀ {n a : ℕ}, address n = some a → a + n ≤ addressLimit
  aligned : ∀ {n a : ℕ}, address n = some a → 8 ∣ a

def headerLen : ℕ := 12
def fragmentHeader : ℕ := 4

/-! ### Message blocks -/

namespace MessageBlock

/-- The address of `rd_ptr`. -/
def rdAddress (mb : MessageBlock) : ℕ := mb.base + mb.rdPtr

/-- `rd_ptr (n)`, up to `wr_ptr`. -/
def advance (mb : MessageBlock) (n : ℕ) : Option MessageBlock :=
  if h : n ≤ mb.contents.length then
    some {
      base := mb.base
      rdPtr := mb.rdPtr + n
      contents := mb.contents.drop n
      fits := by
        have := mb.fits
        rw [List.length_drop]
        omega }
  else none

/-- The stream that `parse_request_id` constructs over a block; its buffer begins at `rd_ptr`. -/
def inputCdr (mb : MessageBlock) (state : MessageState) : InputCDR where
  base := mb.rdAddress
  data := mb.contents
  rdPtr := mb.rdAddress + headerLen
  -- the host is little-endian
  doByteSwap := state.byteOrder ≠ 1
  goodBit := true
  majorVersion := state.giopVersion.major
  minorVersion := state.giopVersion.minor
  fits := mb.fits

end MessageBlock

namespace QueuedData

def moreFragments (qd : QueuedData) : Bool := qd.state.moreFragments
def giopVersion (qd : QueuedData) : MessageVersion := qd.state.giopVersion
def msgType (qd : QueuedData) : MsgType := qd.state.messageType

/-- The bytes of the chain. -/
def bytes (qd : QueuedData) : List UInt8 := qd.msgBlock.flatMap MessageBlock.contents

/-! ### `parse_request_id` -/

/-- What is read behind the header to get at the request id. -/
def requestIdReader (serviceContext : Reader Unit) (version : MessageVersion) (type : MsgType) :
    Reader ULong :=
  if version.major = 1 ∧ (version.minor = 0 ∨ version.minor = 1) then
    match type with
    | .request | .reply => do
      serviceContext
      InputCDR.readUlong
    | .cancelRequest | .locateRequest | .locateReply => InputCDR.readUlong
    | _ => Program.throw .content
  else
    match type with
    | .request | .reply | .fragment | .cancelRequest | .locateRequest | .locateReply =>
      InputCDR.readUlong
    | _ => Program.throw .content

/-- **`parse_request_id`**. -/
def parseRequestId (serviceContext : Reader Unit) (qd : QueuedData) : Option (Except Unit ULong) :=
  match qd.msgBlock with
  | [] => none
  | mb :: _ =>
    (requestIdReader serviceContext qd.giopVersion qd.msgType (mb.inputCdr qd.state)).map fun r =>
      r.1.mapError fun _ => ()

/-! ### `consolidate` -/

/-- The loop of `ACE_CDR::consolidate`: each block is copied if there is room for it. -/
def copyBlocks (room : ℕ) : List MessageBlock → List UInt8 → List UInt8
  | [], dst => dst
  | i :: src, dst =>
    copyBlocks room src
      (if dst.length + i.contents.length ≤ room then dst ++ i.contents else dst)

/-- `clone_mb_nocopy_size` and `ACE_CDR::consolidate`: a new block with the bytes of a chain, at an
address that is aligned as the one of its first block. -/
def consolidateBlocks (heap : Heap) (mb : MessageBlock) (cont : List MessageBlock) :
    Option MessageBlock :=
  let totalLength := ((mb :: cont).map fun i => i.contents.length).sum
  let size := firstSize (totalLength + maxAlignment)
  match heap.address size with
  | none => none
  | some base =>
    let start := alignBinary base maxAlignment - base
    let srcalign := mb.rdAddress % maxAlignment
    let dstalign := (base + start) % maxAlignment
    let offset :=
      if srcalign < dstalign then srcalign + maxAlignment - dstalign else srcalign - dstalign
    let rdPtr := start + offset
    let contents := copyBlocks (size - rdPtr) (mb :: cont) []
    if h : base + rdPtr + contents.length ≤ addressLimit then some ⟨base, rdPtr, contents, h⟩
    else none

/-- **`consolidate`**; it fails when memory is exhausted. -/
def consolidate (heap : Heap) (qd : QueuedData) : Option QueuedData :=
  match qd.msgBlock with
  | mb :: next :: cont =>
    if qd.moreFragments then
      (consolidateBlocks heap mb (next :: cont)).map fun dest =>
        { qd with msgBlock := [dest], state := { qd.state with moreFragments := false } }
    else some qd
  | _ => some qd

end QueuedData

end AceTao.Giop

/-!
## Reassembling fragments: the code

The fragments that have arrived wait on a stack, the newest on top. The final fragment of a message
is the end of a chain: `consolidate_fragmented_message` pops the stack, puts the fragments of the
same message in front of the chain, without the headers of those behind them, and pushes the others
back. A `CancelRequest` removes the fragments of its request.

The functions have no answer where the source follows a null pointer, moves `rd_ptr` past `wr_ptr`
or throws.
-/

namespace AceTao.Giop

open Cdr

/-- `fragment_stack_`, from its top. -/
abbrev MessageStack := List QueuedData

/-- What `consolidate_fragmented_message` returns: an error, `1` for a fragment that waits for more,
or `0` with a message. -/
inductive Consolidated
  | error
  | outstanding
  | message (msg : QueuedData)

variable (serviceContext : Reader Unit) (heap : Heap)

/-- `fragment_header_length`, of the parser for a version; there is no other parser. -/
def fragmentHeaderLength (version : MessageVersion) : Option ℕ :=
  if version.major = 1 then
    if version.minor = 0 ∨ version.minor = 1 then some 0
    else if version.minor = 2 then some fragmentHeader
    else none
  else none

/-- The version that a major number is converted to: its minor number is the default
`TAO_DEF_GIOP_MINOR`. -/
def versionOfMajor (major : UInt8) : MessageVersion := ⟨major, 2⟩

/-! ### `consolidate_fragmented_message` -/

/-- Whether a fragment on the stack belongs to a message of GIOP 1.1. -/
def belongs11 (headerAdjustment : ℕ) (head : QueuedData) : Option (Except Unit Bool) :=
  if head.moreFragments ∧ head.giopVersion = ⟨1, 1⟩ then
    match head.msgBlock with
    | [] => none
    | mb :: _ => some (.ok (headerAdjustment ≤ mb.contents.length))
  else some (.ok false)

/-- Whether a fragment on the stack belongs to a message of GIOP 1.2; that its request id cannot be
parsed is an error. -/
def belongs12 (headerAdjustment : ℕ) (requestId : ULong) (head : QueuedData) :
    Option (Except Unit Bool) :=
  if head.moreFragments ∧ head.giopVersion.major ≥ 1 ∧ head.giopVersion.minor ≥ 2 then
    match head.msgBlock with
    | [] => none
    | mb :: _ =>
      if headerAdjustment ≤ mb.contents.length then
        (head.parseRequestId serviceContext).map fun r => r.map fun id => requestId = id
      else some (.ok false)
  else some (.ok false)

/-- The chain behind a fragment, without its headers. -/
def link (headerAdjustment : ℕ) (head tail : QueuedData) : Option QueuedData :=
  match head.msgBlock, tail.msgBlock with
  | mb :: _, mb' :: cont =>
    (mb'.advance headerAdjustment).map fun mb' => { head with msgBlock := mb :: mb' :: cont }
  | _, _ => none

/-- The loops that pop the stack, and the one that restores it. -/
def popFragments (headerAdjustment : ℕ) (belongs : QueuedData → Option (Except Unit Bool)) :
    MessageStack → QueuedData → MessageStack → Option (MessageStack × Option QueuedData)
  | [], tail, reverseStack => some (reverseStack.reverseAux [], some tail)
  | head :: stack, tail, reverseStack =>
    match belongs head with
    | none => none
    -- what has been popped is lost
    | some (.error _) => some (stack, none)
    | some (.ok true) =>
      match link headerAdjustment head tail with
      | none => none
      | some tail => popFragments headerAdjustment belongs stack tail reverseStack
    | some (.ok false) => popFragments headerAdjustment belongs stack tail (head :: reverseStack)

/-- The last step: the chain becomes one message. -/
def finish : MessageStack × Option QueuedData → MessageStack × Consolidated
  | (stack, none) => (stack, .error)
  | (stack, some tail) =>
    match tail.consolidate heap with
    | none => (stack, .error)
    | some msg => (stack, .message msg)

/-- **`consolidate_fragmented_message`**. -/
def consolidateFragmentedMessage (stack : MessageStack) (qd : QueuedData) :
    Option (MessageStack × Consolidated) :=
  if qd.giopVersion = ⟨1, 0⟩ then some (stack, .error)
  else if qd.moreFragments then some (qd :: stack, .outstanding)
  else
    match fragmentHeaderLength (versionOfMajor qd.giopVersion.major), qd.msgBlock with
    | some n, mb :: _ =>
      let headerAdjustment := headerLen + n
      if mb.contents.length < headerAdjustment then some (stack, .error)
      else if qd.giopVersion = ⟨1, 1⟩ then
        (popFragments headerAdjustment (belongs11 headerAdjustment) stack qd []).map (finish heap)
      else
        match qd.parseRequestId serviceContext with
        | none => none
        | some (.error _) => some (stack, .error)
        | some (.ok requestId) =>
          (popFragments headerAdjustment (belongs12 serviceContext headerAdjustment requestId)
            stack qd []).map (finish heap)
    | _, _ => none

/-! ### `discard_fragmented_message` -/

/-- Whether the request id of a message can be parsed and is a given one. -/
def hasRequestId (requestId : ULong) (head : QueuedData) : Option Bool :=
  (head.parseRequestId serviceContext).map fun
    | .ok id => requestId = id
    | .error _ => false

/-- The loop over the messages in the order in which they have arrived. -/
def discardLoop (requestId : ULong) : MessageStack → Bool → MessageStack → Option MessageStack
  | [], _, stack => some stack
  | head :: reverseStack, discardAll11, stack =>
    let version := head.giopVersion
    let old : Bool := version.major = 1 ∧ version.minor ≤ 1
    match (if old ∧ head.msgType ≠ .fragment then hasRequestId serviceContext requestId head
      else some false) with
    | none => none
    | some true => discardLoop requestId reverseStack true stack
    | some false =>
      if old ∧ discardAll11 then discardLoop requestId reverseStack discardAll11 stack
      else
        match (if version.major ≥ 1 ∧ version.minor ≥ 2 then
            hasRequestId serviceContext requestId head else some false) with
        | none => none
        | some true => discardLoop requestId reverseStack discardAll11 stack
        | some false => discardLoop requestId reverseStack discardAll11 (head :: stack)

/-- **`discard_fragmented_message`**; an error leaves the stack as it is. -/
def discardFragmentedMessage (stack : MessageStack) (cancelRequest : QueuedData) :
    Option MessageStack :=
  match cancelRequest.parseRequestId serviceContext with
  | none => none
  | some (.error _) => some stack
  | some (.ok requestId) =>
    discardLoop serviceContext requestId (stack.reverseAux []) false []

/-! ### Incoming messages -/

/-- What `process_parsed_messages` does to the fragments that wait. -/
def processParsedMessages (stack : MessageStack) (qd : QueuedData) : Option MessageStack :=
  if qd.msgType = .cancelRequest then discardFragmentedMessage serviceContext stack qd
  else some stack

/-- **`consolidate_process_message`**: the message that is handed to `process_parsed_messages`, if
any, or an error. -/
def consolidateProcessMessage (stack : MessageStack) (qd : QueuedData) :
    Option (MessageStack × Except Unit (Option QueuedData)) :=
  if qd.missingData ≠ 0 then some (stack, .error ())
  else if qd.moreFragments ∨ qd.msgType = .fragment then
    match consolidateFragmentedMessage serviceContext heap stack qd with
    | none => none
    | some (stack, .error) => some (stack, .error ())
    | some (stack, .outstanding) => some (stack, .ok none)
    | some (stack, .message msg) =>
      (processParsedMessages serviceContext stack msg).map (·, .ok (some msg))
  else (processParsedMessages serviceContext stack qd).map (·, .ok (some qd))

end AceTao.Giop
