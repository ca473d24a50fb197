import AceTao.Giop.Fragments
import AceTao.Library.ByteImage
import Mathlib.Logic.Relation

/-!
# Parsing the messages of a buffer

What has been received is a buffer with any number of messages. `extract_next_message` parses the
header of the first one and takes `message_size` bytes, or all there are and notes how many are
missing; `handle_input_parse_extra_messages` repeats this until the buffer is empty.

The size of a message is the size of its payload and of its header, in 32 bits. For a payload of
`2^32 - 12` bytes it is `0`: then nothing is taken from the buffer, and the loop goes on for ever
(`endless`). The loop ends, with every size right, exactly when none of the headers that are reached
announces so many bytes (`parsesRight_iff`).
-/

namespace AceTao.Giop

open Cdr ByteImage Relation

/-! ### `TAO_GIOP_Message_State`: the code -/

namespace MsgType

/-- The cast from an octet. -/
def ofOctet (octet : UInt8) : MsgType :=
  match octet.toNat with
  | 0 => .request
  | 1 => .reply
  | 2 => .cancelRequest
  | 3 => .locateRequest
  | 4 => .locateReply
  | 5 => .closeConnection
  | 6 => .messageError
  | 7 => .fragment
  | _ => .other octet

end MsgType

/-- `check_revision`, for versions up to 1.2. -/
def checkRevision (incomingMajor incomingMinor : UInt8) : Bool :=
  let versionAsWholeNum := incomingMajor.toNat * 256 + incomingMinor.toNat
  versionAsWholeNum ≤ 0x0102 ∧ (versionAsWholeNum = 0x0100 ∨ versionAsWholeNum = 0x0101 ∨
    versionAsWholeNum = 0x0102)

namespace MessageState

/-- The state before a header is parsed. -/
def default : MessageState := ⟨⟨1, 2⟩, 0, .request, 0, false⟩

/-- **`message_size`**, which is converted to 32 bits. -/
def messageSize (state : MessageState) : ULong :=
  BitVec.ofNat 32 (state.payloadSize.toNat + headerLen)

/-- `parse_magic_bytes`: the first letter tells whether the message is compressed. -/
def parseMagicBytes (buf : List UInt8) : Bool :=
  (buf.getD 0 0 = 0x5A ∨ buf.getD 0 0 = 0x47) ∧ buf.getD 1 0 = 0x49 ∧ buf.getD 2 0 = 0x4f ∧
    buf.getD 3 0 = 0x50

/-- `get_version_info`. -/
def getVersionInfo (buf : List UInt8) (state : MessageState) : Option MessageState :=
  if checkRevision (buf.getD 4 0) (buf.getD 5 0) then
    some { state with giopVersion := ⟨buf.getD 4 0, buf.getD 5 0⟩ }
  else none

/-- `get_byte_order_info`; GIOP 1.0 has no fragments. -/
def getByteOrderInfo (buf : List UInt8) (state : MessageState) : Option MessageState :=
  let flags := buf.getD 6 0
  if state.giopVersion = ⟨1, 0⟩ then
    if flags ≠ 0 ∧ flags ≠ 1 then none else some { state with byteOrder := flags }
  else some { state with byteOrder := flags &&& 1, moreFragments := flags &&& 2 = 2 }

/-- `read_ulong`; the host is little-endian. -/
def readUlong (byteOrder : UInt8) (buf : List UInt8) : ULong :=
  ofImage 4 (if byteOrder = 1 then buf else buf.reverse)

/-- `parse_message_header_i`. -/
def parseMessageHeaderI (buf : List UInt8) : Option MessageState :=
  if parseMagicBytes buf then
    match (getVersionInfo buf default).bind (getByteOrderInfo buf) with
    | none => none
    | some state =>
      let state := { state with
        messageType := .ofOctet (buf.getD 7 0)
        payloadSize := readUlong state.byteOrder ((buf.drop 8).take 4) }
      if state.payloadSize = 0 ∧ state.messageType ≠ .messageError ∧
        state.messageType ≠ .closeConnection then none
      else some state
  else none

/-- **`parse_message_header`**: an error, or the state if there is enough data for a header. -/
def parseMessageHeader (incoming : List UInt8) : Except Unit (Option MessageState) :=
  if headerLen ≤ incoming.length then
    match parseMessageHeaderI incoming with
    | none => .error ()
    | some state => .ok (some state)
  else .ok none

end MessageState

/-! ### `extract_next_message`: the code -/

/-- What memory there is: whether for a `TAO_Queued_Data`, and for which buffers. -/
structure Memory where
  node : Bool
  heap : Heap

theorem alignBinary_heap {heap : Heap} {n base : ℕ} (h : heap.address n = some base) :
    alignBinary base maxAlignment = base := by
  have hle := heap.fits h
  obtain ⟨k, rfl⟩ := heap.aligned h
  rw [addressLimit] at hle
  rw [maxAlignment, alignBinary_eq isAlign_eight (by omega)]
  exact AlignUp.alignUp_of_dvd (by decide) (Nat.dvd_mul_right _ _)

/-- The message block of `make_queued_data`, with bytes copied into it. Without a buffer there is no
room in it. -/
def blockWith (heap : Heap) (sz : ℕ) (bytes : List UInt8) : MessageBlock :=
  match h : heap.address (sz + maxAlignment) with
  | none => ⟨0, 0, [], Nat.zero_le _⟩
  | some base => {
      base := base
      rdPtr := alignBinary base maxAlignment - base
      contents := if bytes.length ≤ sz + maxAlignment then bytes else []
      fits := by
        have hle := heap.fits h
        rw [alignBinary_heap h, Nat.sub_self, Nat.add_zero]
        split_ifs with hroom
        · omega
        · exact (Nat.le_add_right _ _).trans hle }

/-- **What `extract_next_message` returns**: `-1`, `0` without data, `0` with what there is of a
header, or `1`; and what is left of the buffer. -/
inductive Extracted
  | error
  | nothing
  | incomplete (qd : QueuedData) (incoming : List UInt8)
  | message (qd : QueuedData) (incoming : List UInt8)

/-- `TAO_MISSING_DATA_UNDEFINED`. -/
def missingDataUndefined : ℕ := 2 ^ 64 - 1

/-- The end of `extract_next_message`: a message of a given size is taken. -/
def takeMessage (memory : Memory) (state : MessageState) (copyingLen : ℕ) (incoming : List UInt8) :
    Extracted :=
  if memory.node then
    let missing := if copyingLen > incoming.length then copyingLen - incoming.length else 0
    let taken := if copyingLen > incoming.length then incoming.length else copyingLen
    .message ⟨[blockWith memory.heap copyingLen (incoming.take taken)], missing, state⟩
      (incoming.drop taken)
  else .error

/-- `extract_next_message`, for a way to compute the size of a message. -/
def extractWith (size : MessageState → ℕ) (memory : Memory) (incoming : List UInt8) : Extracted :=
  if incoming.length < headerLen then
    if incoming.length > 0 then
      if memory.node then
        .incomplete ⟨[blockWith memory.heap (max headerLen defaultBufsize) incoming],
          missingDataUndefined, .default⟩ []
      else .error
    else .nothing
  else
    match MessageState.parseMessageHeader incoming with
    | .error _ => .error
    | .ok state =>
      let state := state.getD .default
      takeMessage memory state (size state) incoming

/-- **`extract_next_message`**. -/
def extractNextMessage : Memory → List UInt8 → Extracted :=
  extractWith fun state => state.messageSize.toNat

/-- `extract_next_message` if sizes were not cut to 32 bits. -/
def extractExact : Memory → List UInt8 → Extracted :=
  extractWith fun state => headerLen + state.payloadSize.toNat

/-! ### `handle_input_parse_extra_messages`: the code -/

/-- What a transport has received: `fragment_stack_`, `incoming_message_queue_` and
`incoming_message_stack_`. -/
structure Received where
  fragmentStack : MessageStack
  incomingMessageQueue : List QueuedData
  incomingMessageStack : List QueuedData

/-- **`consolidate_enqueue_message`**. -/
def consolidateEnqueueMessage (serviceContext : Reader Unit) (heap : Heap) (t : Received)
    (qd : QueuedData) : Option (Received × Except Unit Unit) :=
  if qd.missingData ≠ 0 then some (t, .error ())
  else if qd.moreFragments ∨ qd.msgType = .fragment then
    match consolidateFragmentedMessage serviceContext heap t.fragmentStack qd with
    | none => none
    | some (stack, .error) => some ({ t with fragmentStack := stack }, .error ())
    | some (stack, .outstanding) => some ({ t with fragmentStack := stack }, .ok ())
    | some (stack, .message msg) =>
      some ({ t with
        fragmentStack := stack
        incomingMessageQueue := t.incomingMessageQueue ++ [msg] }, .ok ())
  else some ({ t with incomingMessageQueue := t.incomingMessageQueue ++ [qd] }, .ok ())

/-- What an iteration of the loop comes to: the loop returns, or it goes on with the rest of the
buffer. -/
inductive Iteration
  | returns (t : Received) (result : Except Unit Unit)
  | continues (t : Received) (messageBlock : List UInt8)

/-- The body of the loop, for a message that has been extracted. -/
def enqueueExtracted (serviceContext : Reader Unit) (heap : Heap) (t : Received) (qd : QueuedData)
    (messageBlock : List UInt8) : Option Iteration :=
  if qd.missingData = 0 then
    match consolidateEnqueueMessage serviceContext heap t qd with
    | none => none
    | some (t, .error _) => some (.returns t (.error ()))
    | some (t, .ok _) => some (.continues t messageBlock)
  else some (.continues { t with incomingMessageStack := qd :: t.incomingMessageStack }
    messageBlock)

/-- **An iteration of the loop** of `handle_input_parse_extra_messages`. -/
def parseExtraStep (serviceContext : Reader Unit) (extract : Memory → List UInt8 → Extracted)
    (memory : Memory) (t : Received) (messageBlock : List UInt8) : Option Iteration :=
  if messageBlock.length > 0 then
    match extract memory messageBlock with
    | .error => some (.returns t (.error ()))
    | .nothing => some (.returns t (.ok ()))
    | .incomplete qd rest => enqueueExtracted serviceContext memory.heap t qd rest
    | .message qd rest => enqueueExtracted serviceContext memory.heap t qd rest
  else some (.returns t (.ok ()))

/-- **The loop goes on** from one state to another, whatever memory there is at the time. -/
def Next (serviceContext : Reader Unit) (extract : Memory → List UInt8 → Extracted)
    (s s' : Received × List UInt8) : Prop :=
  ∃ memory, parseExtraStep serviceContext extract memory s.1 s.2 = some (.continues s'.1 s'.2)

/-! ### What the loop is to do -/

variable (serviceContext : Reader Unit)

/-- **The loop ends**: there is no infinite sequence of iterations. -/
def Terminates (t : Received) (messageBlock : List UInt8) : Prop :=
  Acc (fun s' s => Next serviceContext extractNextMessage s s') (t, messageBlock)

/-- **The messages of a buffer are parsed right**: the loop ends, every message that it extracts is
at least a header long, and the bytes that are taken from the buffer and those that are missing make
up the header and the payload. -/
structure ParsesRight (t : Received) (messageBlock : List UInt8) : Prop where
  terminates : Terminates serviceContext t messageBlock
  extracts : ∀ s, ReflTransGen (Next serviceContext extractNextMessage) (t, messageBlock) s →
    ∀ memory qd rest, extractNextMessage memory s.2 = .message qd rest →
      headerLen ≤ s.2.length - rest.length ∧
      s.2.length - rest.length + qd.missingData = headerLen + qd.state.payloadSize.toNat

/-- **A header fits**: the size of its message can be counted with 32 bits. -/
def HeaderFits (messageBlock : List UInt8) : Prop :=
  ∀ state, MessageState.parseMessageHeader messageBlock = .ok (some state) →
    headerLen + state.payloadSize.toNat < 2 ^ 32

/-- **All headers fit** that are reached when every message has the size of its header and
payload. -/
def HeadersFit (t : Received) (messageBlock : List UInt8) : Prop :=
  ∀ s, ReflTransGen (Next serviceContext extractExact) (t, messageBlock) s → HeaderFits s.2

variable {serviceContext} {t : Received} {memory : Memory} {incoming rest : List UInt8}
  {qd : QueuedData} {state : MessageState}

/-! ### Extracting a message -/

theorem parseMessageHeader_of_le (h : headerLen ≤ incoming.length) {r : Option MessageState}
    (hparse : MessageState.parseMessageHeader incoming = .ok r) : ∃ state, r = some state := by
  rw [MessageState.parseMessageHeader, if_pos h] at hparse
  split at hparse
  · cases hparse
  · cases hparse
    exact ⟨_, rfl⟩

/-- **What is extracted.** -/
theorem extractWith_eq_message {size : MessageState → ℕ}
    (h : extractWith size memory incoming = .message qd rest) :
    headerLen ≤ incoming.length ∧
      MessageState.parseMessageHeader incoming = .ok (some qd.state) ∧
      rest = incoming.drop (size qd.state) ∧
      qd.missingData = size qd.state - incoming.length := by
  rw [extractWith] at h
  split_ifs at h with hlen
  refine ⟨not_lt.mp hlen, ?_⟩
  split at h
  · cases h
  · rename_i r hparse
    obtain ⟨state, rfl⟩ := parseMessageHeader_of_le (not_lt.mp hlen) hparse
    rw [hparse]
    simp only [Option.getD_some, takeMessage] at h
    split_ifs at h with hnode hlt
    · cases h
      exact ⟨rfl, (List.drop_length).trans (List.drop_of_length_le hlt.le).symm, rfl⟩
    · cases h
      exact ⟨rfl, rfl, (Nat.sub_eq_zero_of_le (not_lt.mp hlt)).symm⟩

/-- **The bytes that are taken are in the message**, if there is a buffer for them. -/
theorem extractWith_bytes {size : MessageState → ℕ}
    (h : extractWith size memory incoming = .message qd rest)
    (hbuffer : (memory.heap.address (size qd.state + maxAlignment)).isSome) :
    qd.bytes ++ rest = incoming := by
  have hcontents : ∀ n bytes, (memory.heap.address (n + maxAlignment)).isSome →
      bytes.length ≤ n → (blockWith memory.heap n bytes).contents = bytes := by
    intro n bytes hsome hle
    rw [blockWith]
    split
    · rename_i hnone
      rw [hnone] at hsome
      cases hsome
    · exact if_pos (hle.trans (Nat.le_add_right _ _))
  rw [extractWith] at h
  split_ifs at h with hlen
  split at h
  · cases h
  · rename_i r hparse
    obtain ⟨state, rfl⟩ := parseMessageHeader_of_le (not_lt.mp hlen) hparse
    simp only [Option.getD_some, takeMessage] at h
    split_ifs at h with hnode hlt
    · cases h
      rw [QueuedData.bytes, List.flatMap_singleton, hcontents _ _ hbuffer]
      · exact List.take_append_drop _ _
      · exact (List.length_take_le _ _).trans hlt.le
    · cases h
      rw [QueuedData.bytes, List.flatMap_singleton, hcontents _ _ hbuffer]
      · exact List.take_append_drop _ _
      · exact List.length_take_le _ _

/-- With memory, a header is enough. -/
theorem exists_extractWith (size : MessageState → ℕ) (hnode : memory.node = true)
    (hparse : MessageState.parseMessageHeader incoming = .ok (some state)) :
    ∃ qd rest, extractWith size memory incoming = .message qd rest := by
  have hlen : ¬incoming.length < headerLen := by
    intro hlt
    rw [MessageState.parseMessageHeader, if_neg (not_le.mpr hlt)] at hparse
    cases hparse
  rw [extractWith, if_neg hlen, hparse]
  dsimp only
  rw [takeMessage, if_pos hnode]
  exact ⟨_, _, rfl⟩

/-- **If the header fits**, the size is the right one. -/
theorem extractNextMessage_eq (h : HeaderFits incoming) (memory : Memory) :
    extractNextMessage memory incoming = extractExact memory incoming := by
  rw [extractNextMessage, extractExact, extractWith, extractWith]
  split_ifs with hlen hpos hnode
  · rfl
  · rfl
  · rfl
  · split
    · rfl
    · rename_i r hparse
      obtain ⟨state, rfl⟩ := parseMessageHeader_of_le (not_lt.mp hlen) hparse
      have hsize : state.messageSize.toNat = headerLen + state.payloadSize.toNat := by
        rw [MessageState.messageSize, BitVec.toNat_ofNat, Nat.add_comm]
        exact Nat.mod_eq_of_lt (h state hparse)
      dsimp only [Option.getD_some]
      rw [hsize]

theorem next_iff (s s' : Received × List UInt8) (h : HeaderFits s.2) :
    Next serviceContext extractNextMessage s s' ↔ Next serviceContext extractExact s s' := by
  refine exists_congr fun memory => ?_
  rw [parseExtraStep, parseExtraStep, extractNextMessage_eq h]

/-! ### The loop -/

/-- An iteration goes on with what has not been extracted. -/
theorem Next.exists_extract {extract : Memory → List UInt8 → Extracted}
    {s s' : Received × List UInt8} (h : Next serviceContext extract s s') :
    0 < s.2.length ∧ ∃ memory qd, extract memory s.2 = .incomplete qd s'.2 ∨
      extract memory s.2 = .message qd s'.2 := by
  obtain ⟨t', left⟩ := s'
  obtain ⟨memory, hstep⟩ := h
  have hrest : ∀ qd rest, enqueueExtracted serviceContext memory.heap s.1 qd rest =
      some (.continues t' left) → rest = left := by
    intro qd rest henqueue
    rw [enqueueExtracted] at henqueue
    split_ifs at henqueue
    · split at henqueue
      · cases henqueue
      · cases henqueue
      · cases henqueue
        rfl
    · cases henqueue
      rfl
  rw [parseExtraStep] at hstep
  split_ifs at hstep with hpos
  swap
  · cases hstep
  refine ⟨hpos, memory, ?_⟩
  split at hstep
  · cases hstep
  · cases hstep
  · rename_i qd rest hextract
    exact ⟨qd, .inl (hrest qd rest hstep ▸ hextract)⟩
  · rename_i qd rest hextract
    exact ⟨qd, .inr (hrest qd rest hstep ▸ hextract)⟩

/-- **With the right sizes, the buffer becomes shorter.** -/
theorem Next.length_lt {s s' : Received × List UInt8} (h : Next serviceContext extractExact s s') :
    s'.2.length < s.2.length := by
  obtain ⟨t', left⟩ := s'
  obtain ⟨hpos, memory, qd, hextract | hextract⟩ := h.exists_extract
  · rw [extractExact, extractWith] at hextract
    split_ifs at hextract
    · cases hextract
      exact hpos
    · split at hextract
      · cases hextract
      · rw [takeMessage] at hextract
        split_ifs at hextract
  · obtain ⟨hlen, -, hrest, -⟩ := extractWith_eq_message hextract
    rw [headerLen] at hlen hrest
    rw [hrest, List.length_drop]
    omega

theorem HeadersFit.terminates (h : HeadersFit serviceContext t incoming) :
    Terminates serviceContext t incoming := by
  generalize hn : incoming.length = n
  induction n using Nat.strong_induction_on generalizing t incoming with
  | _ n ih =>
    refine Acc.intro _ fun s hnext => ?_
    have hexact := (next_iff _ s (h _ .refl)).mp hnext
    exact ih _ (hn ▸ hexact.length_lt) (fun s' hs' => h s' (.head hexact hs')) rfl

theorem HeadersFit.reaches (h : HeadersFit serviceContext t incoming)
    {s : Received × List UInt8}
    (hs : ReflTransGen (Next serviceContext extractNextMessage) (t, incoming) s) :
    ReflTransGen (Next serviceContext extractExact) (t, incoming) s := by
  induction hs with
  | refl => exact .refl
  | tail _ hnext ih => exact ih.tail ((next_iff _ _ (h _ ih)).mp hnext)

/-- Memory for messages, but not for their bytes. -/
def noBuffers : Memory := ⟨true, ⟨fun _ => none, nofun, nofun⟩⟩

/-- What is extracted has the right size only if the header fits. -/
theorem ParsesRight.headerFits (h : ParsesRight serviceContext t incoming)
    {s : Received × List UInt8}
    (hs : ReflTransGen (Next serviceContext extractNextMessage) (t, incoming) s) :
    HeaderFits s.2 := by
  intro state hparse
  obtain ⟨qd, rest, hextract⟩ := @exists_extractWith noBuffers s.2 state
    (fun state => state.messageSize.toNat) rfl hparse
  obtain ⟨hlen, hparse', hrest, hmissing⟩ := extractWith_eq_message hextract
  obtain ⟨hle, hsum⟩ := h.extracts s hs noBuffers qd rest hextract
  cases hparse.symm.trans hparse'
  have hsize : qd.state.messageSize.toNat < 2 ^ 32 := BitVec.isLt _
  rw [hrest, List.length_drop] at hsum
  omega

theorem ParsesRight.reaches (h : ParsesRight serviceContext t incoming)
    {s : Received × List UInt8}
    (hs : ReflTransGen (Next serviceContext extractExact) (t, incoming) s) :
    ReflTransGen (Next serviceContext extractNextMessage) (t, incoming) s := by
  induction hs with
  | refl => exact .refl
  | tail _ hnext ih => exact ih.tail ((next_iff _ _ (h.headerFits ih)).mpr hnext)

/-- **When the messages of a buffer are parsed right**: no header that is reached announces a
payload of `2^32 - 12` bytes or more. -/
theorem parsesRight_iff (serviceContext : Reader Unit) (t : Received) (messageBlock : List UInt8) :
    ParsesRight serviceContext t messageBlock ↔ HeadersFit serviceContext t messageBlock := by
  constructor
  · exact fun h s hs => h.headerFits (h.reaches hs)
  · refine fun h => ⟨h.terminates, fun s hs memory qd rest hextract => ?_⟩
    have hexact := (extractNextMessage_eq (h s (h.reaches hs)) memory).symm.trans hextract
    obtain ⟨hlen, -, hrest, hmissing⟩ := extractWith_eq_message hexact
    rw [headerLen] at hlen hrest hmissing ⊢
    rw [hrest, hmissing, List.length_drop]
    omega

/-! ### A message that is never taken -/

/-- The header of a request with a payload of `2^32 - 12` bytes. -/
def hugeHeader : List UInt8 :=
  [0x47, 0x49, 0x4f, 0x50, 1, 2, 1, 0, 0xF4, 0xFF, 0xFF, 0xFF]

/-- Its message is empty. -/
theorem extractNextMessage_huge (memory : Memory) (hnode : memory.node = true) :
    extractNextMessage memory hugeHeader =
      .message ⟨[blockWith memory.heap 0 []], 0, ⟨⟨1, 2⟩, 1, .request, 0xFFFFFFF4, false⟩⟩
        hugeHeader := by
  have hparse : MessageState.parseMessageHeader hugeHeader =
      .ok (some ⟨⟨1, 2⟩, 1, .request, 0xFFFFFFF4, false⟩) := rfl
  rw [extractNextMessage, extractWith, if_neg (by decide), hparse]
  dsimp only
  rw [takeMessage, if_pos hnode]
  rfl

/-- **The loop goes on for ever.** -/
theorem endless (t : Received) : ¬Terminates serviceContext t hugeHeader := by
  have hnext : ∀ s : Received × List UInt8, s.2 = hugeHeader →
      ∃ s', Next serviceContext extractNextMessage s s' ∧ s'.2 = hugeHeader := by
    rintro ⟨t, -⟩ rfl
    have hstep : ∃ t', parseExtraStep serviceContext extractNextMessage noBuffers t hugeHeader =
        some (.continues t' hugeHeader) := by
      rw [parseExtraStep, if_pos (by decide), extractNextMessage_huge noBuffers rfl]
      exact ⟨_, rfl⟩
    obtain ⟨t', hstep⟩ := hstep
    exact ⟨(t', hugeHeader), ⟨noBuffers, hstep⟩, rfl⟩
  have hall : ∀ s, Acc (fun s' s => Next serviceContext extractNextMessage s s') s →
      s.2 ≠ hugeHeader := by
    intro s hacc
    induction hacc with
    | intro s _ ih =>
      intro hs
      obtain ⟨s', hstep, hs'⟩ := hnext s hs
      exact ih s' hstep hs'
  exact fun hacc => hall _ hacc rfl

theorem not_parsesRight_huge :
    ¬ParsesRight (pure ()) ⟨[], [], []⟩ hugeHeader :=
  fun h => endless _ h.terminates

end AceTao.Giop
