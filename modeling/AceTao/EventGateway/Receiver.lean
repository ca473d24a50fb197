import AceTao.Cdr.Bounds
import AceTao.EventGateway.Requests

/-!
# The receiver of the gateway

`handle_input` reads the header of a datagram and checks that its fields are consistent. A request in
one datagram is marked as received and decoded at once (`Requests.markReceived`); a fragment is copied
into the entry of its request, which is decoded when the last one is there
(`Requests.processFragment`).

What a call does outside of its own data is in its report: the bytes it copies, and those it calls
`decode` on. A call has no answer where the code accesses an array outside of its bounds.

The check sum of the data is a parameter.
-/

namespace AceTao.EventGateway

open AceTao.Cdr InputCDR

/-- **What is copied** into the payload of an entry: how many bytes, of how many that were received,
and where. -/
structure Copy where
  size : ℕ
  received : ℕ
  offset : ℕ
  requestSize : ℕ
  entryId : ULong
  requestId : ULong

/-- **What a call does**: the result, whether an element of the array is set, what is copied, and the
bytes that `decode` is called on. -/
structure Report where
  result : ℤ
  stored : Bool := false
  copied : Option Copy := none
  decoded : Option (List (Option UInt8)) := none

/-! ### The header -/

/-- `ECG_HEADER_SIZE` -/
def headerSize : ℕ := 32

namespace Header

/-- The four octets of a check sum, the highest first. -/
def crcOf (padding : List Octet) : ULong :=
  padding.foldl (fun crc p => (crc <<< 8) ||| p.setWidth 32) 0

/-- The fields, in the order in which they are read. -/
def fields (byteOrder checkCrc : Bool) : Reader (Option Header) := do
  let _ ← readBoolean
  let a ← readOctet
  let b ← readOctet
  let c ← readOctet
  if a ≠ 0x41 ∨ b ≠ 0x42 ∨ c ≠ 0x43 then pure none
  else do
    let requestId ← readUlong
    let requestSize ← readUlong
    let fragmentSize ← readUlong
    let fragmentOffset ← readUlong
    let fragmentId ← readUlong
    let fragmentCount ← readUlong
    if checkCrc then do
      let padding ← readOctetArray 4
      pure (some ⟨byteOrder, requestId, requestSize, fragmentSize, fragmentOffset, fragmentId,
        fragmentCount, some (crcOf padding)⟩)
    else pure (some ⟨byteOrder, requestId, requestSize, fragmentSize, fragmentOffset, fragmentId,
      fragmentCount, none⟩)

/-- **A header is consistent** with as many bytes of data. -/
def Consistent (h : Header) (dataBytesReceived : ℕ) : Prop :=
  ¬(h.requestSize < h.fragmentSize ∨ h.requestSize ≤ h.fragmentOffset ∨
    h.fragmentCount ≤ h.fragmentId ∨ (h.fragmentCount = 1 ∧
      (h.fragmentSize ≠ h.requestSize ∨ h.requestSize.toNat ≠ dataBytesReceived)))

instance (h : Header) (n : ℕ) : Decidable (h.Consistent n) :=
  inferInstanceAs (Decidable (¬_))

theorem fits_stream (header : List UInt8) :
    8 + (header.take headerSize).length ≤ addressLimit := by
  have hlen : (header.take headerSize).length ≤ 32 := List.length_take_le _ _
  rw [addressLimit]
  omega

/-- The stream over the buffer of the header, which is aligned. -/
def stream (header : List UInt8) (byteOrder : Bool) : InputCDR where
  base := 8
  data := header.take headerSize
  rdPtr := 8
  doByteSwap := !byteOrder
  goodBit := true
  majorVersion := 1
  minorVersion := 2
  fits := fits_stream header

/-- **`read`**: the header, if it is accepted. -/
def read (header : List UInt8) (bytesReceived : ℕ) (checkCrc : Bool) : Option (Option Header) :=
  match header with
  | [] => none
  | first :: _ =>
    if first ≠ 0 ∧ first ≠ 1 then some none
    else
      match fields (first = 1) checkCrc (stream header (first = 1)) with
      | none => none
      | some (.error _, _) => some none
      | some (.ok none, _) => some none
      | some (.ok (some h), _) =>
        if h.Consistent (bytesReceived - headerSize) then some (some h) else some none

end Header

/-! ### One request -/

namespace RequestEntry

/-- What is copied from a fragment. -/
def copyOf (e : RequestEntry) (h : Header) (data : List UInt8) : Copy where
  size := h.fragmentSize.toNat
  received := data.length
  offset := h.fragmentOffset.toNat
  requestSize := e.requestSize.toNat
  entryId := e.requestId
  requestId := h.requestId

/-- **What `process_fragment` does with an entry**: what the element of the array is then. What
`decode` would answer is given. -/
def addFragment (e : RequestEntry) (h : Header) (data : List UInt8) (answer : ℤ) :
    Option (Slot × Report) :=
  if !e.validateFragment h then some (.entry e, { result := -1 })
  else
    match e.testReceived h.fragmentId with
    | none => none
    | some true => some (.entry e, { result := 0 })
    | some false =>
      match e.markReceived h.fragmentId with
      | none => none
      | some marked =>
        match marked.copyFragment h data with
        | none => none
        | some e' =>
          if !e'.complete then
            some (.entry e', { result := 0, copied := some (e.copyOf h data) })
          else if answer = -1 then
            some (.entry e', { result := -1, copied := some (e.copyOf h data),
                               decoded := some e'.bytes })
          else
            some (.completed, { result := 1, stored := true, copied := some (e.copyOf h data),
                                decoded := some e'.bytes })

end RequestEntry

namespace Requests

/-- **`mark_received`** -/
def markReceived (r : Requests) (id : ULong) : Option (Requests × ℤ) :=
  match r.getRequest id with
  | none => none
  | some (r', none) => some (r', 0)
  | some (r', some index) =>
    match r'.slotAt index with
    | none => none
    | some .completed => some (r', 0)
    | some (.entry _) => some (r', -1)
    | some .null => some (r'.put index .completed, 1)

/-- **`process_fragment`** -/
def processFragment (r : Requests) (h : Header) (data : List UInt8) (answer : ℤ) :
    Option (Requests × Report) :=
  match r.getRequest h.requestId with
  | none => none
  | some (r', none) => some (r', { result := 0 })
  | some (r', some index) =>
    match r'.slotAt index with
    | none => none
    | some .completed => some (r', { result := 0 })
    | some (.entry e) =>
      match e.addFragment h data answer with
      | none => none
      | some (slot, report) => some (r'.put index slot, report)
    | some .null =>
      match (RequestEntry.new h).addFragment h data answer with
      | none => none
      | some (slot, report) => some (r'.put index slot, { report with stored := true })

/-- **What `handle_input` does with the data** behind a header. -/
def receive (r : Requests) (h : Header) (data : List UInt8) (answer : ℤ) :
    Option (Requests × Report) :=
  if h.fragmentCount = 1 then
    match r.markReceived h.requestId with
    | none => none
    | some (r', result) =>
      if result ≠ 1 then some (r', { result := result })
      else some (r', { result := if answer = -1 then -1 else 1, stored := true,
                       decoded := some ((List.range h.requestSize.toNat).map (data[·]?)) })
  else r.processFragment h data answer

end Requests

/-! ### All sources -/

variable {α : Type*} [DecidableEq α]

/-- **The receiver.** The map of the sources is a function. -/
structure Receiver (α : Type*) where
  isLoopback : α → Bool
  requestMap : α → Option Requests
  maxRequests : SizeT
  minPurgeCount : SizeT
  checkCrc : Bool

/-- A datagram and its source, with what `decode` would answer. -/
structure Datagram (α : Type*) where
  source : α
  bytes : List UInt8
  answer : ℤ

namespace Datagram

/-- What is received of a datagram: a header and data. -/
def header (d : Datagram α) : List UInt8 := d.bytes.take headerSize

def data (d : Datagram α) : List UInt8 := (d.bytes.drop headerSize).take maxDgramSize

end Datagram

namespace Receiver

/-- The constructor and `init`. -/
def new (isLoopback : α → Bool) (checkCrc : Bool) : Receiver α where
  isLoopback := isLoopback
  requestMap := fun _ => none
  maxRequests := 1024
  minPurgeCount := 32
  checkCrc := checkCrc

/-- `get_source_entry` -/
def sourceEntry (s : Receiver α) (source : α) : Requests :=
  (s.requestMap source).getD (Requests.init s.maxRequests s.minPurgeCount)

/-- What is done with the data of a source. -/
def process (s : Receiver α) (source : α) (h : Header) (data : List UInt8) (answer : ℤ) :
    Option (Receiver α × Report) :=
  match (s.sourceEntry source).receive h data answer with
  | none => none
  | some (r, report) =>
    some ({ s with requestMap := Function.update s.requestMap source (some r) }, report)

/-- **`handle_input`** -/
def handleInput (crc32 : List UInt8 → ULong) (s : Receiver α) (d : Datagram α) :
    Option (Receiver α × Report) :=
  if d.header.length + d.data.length = 0 then some (s, { result := 0 })
  else if d.header.length + d.data.length < headerSize then some (s, { result := -1 })
  else if s.isLoopback d.source then some (s, { result := 0 })
  else
    match Header.read d.header (d.header.length + d.data.length) s.checkCrc with
    | none => none
    | some none => some (s, { result := -1 })
    | some (some h) =>
      if s.checkCrc ∧ h.crc ≠ some (crc32 (d.header.take (headerSize - 4) ++ d.data)) then
        some (s, { result := 0 })
      else s.process d.source h d.data d.answer

end Receiver

/-! ### What a fragment does -/

/-- **An entry that a header is of.** -/
structure RequestEntry.Matches (e : RequestEntry) (h : Header) : Prop where
  byteOrder : h.byteOrder = e.byteOrder
  requestSize : h.requestSize = e.requestSize
  fragmentCount : h.fragmentCount = e.fragmentCount

namespace RequestEntry

variable {e : RequestEntry} {h : Header} {data : List UInt8} {answer : ℤ}

theorem matches_new (h : Header) : (new h).Matches h := ⟨rfl, rfl, rfl⟩

/-- A fragment that lies inside the request is valid. -/
theorem validateFragment_eq (hm : e.Matches h) (hoffset : h.fragmentOffset < h.requestSize)
    (hfits : h.fragmentOffset.toNat + h.fragmentSize.toNat ≤ h.requestSize.toNat) :
    e.validateFragment h = true := by
  have hsum : (h.fragmentOffset + h.fragmentSize).toNat =
      h.fragmentOffset.toNat + h.fragmentSize.toNat := by
    have hsize := h.requestSize.isLt
    rw [BitVec.toNat_add]
    exact Nat.mod_eq_of_lt (by omega)
  rw [validateFragment, if_neg, if_neg]
  · rintro (hle | hlt)
    · exact BitVec.not_le.mpr hoffset hle
    · have hlt' := BitVec.lt_def.mp hlt
      omega
  · rintro (hne | hne | hne)
    · exact hne hm.byteOrder
    · exact hne hm.requestSize
    · exact hne hm.fragmentCount

/-- **A new fragment** is marked, and the request is decoded if it was the last one. -/
theorem addFragment_spec (hinv : e.Inv) (hm : e.Matches h)
    (hvalid : e.validateFragment h = true) (hid : h.fragmentId < h.fragmentCount)
    (hnew : e.marked h.fragmentId.toNat = false)
    (hfits : h.fragmentOffset.toNat + h.fragmentSize.toNat ≤ h.requestSize.toNat)
    (hbuffer : h.fragmentSize.toNat ≤ maxDgramSize) :
    ∃ words, (∀ k, marked (copied { e with receivedFragments := words } h data) k =
        (e.marked k || decide (k = h.fragmentId.toNat))) ∧
      Inv (copied { e with receivedFragments := words } h data) ∧
      e.addFragment h data answer =
        if !(copied { e with receivedFragments := words } h data).complete then
          some (.entry (copied { e with receivedFragments := words } h data),
            { result := 0, copied := some (e.copyOf h data) })
        else if answer = -1 then
          some (.entry (copied { e with receivedFragments := words } h data),
            { result := -1, copied := some (e.copyOf h data),
              decoded := some (copied { e with receivedFragments := words } h data).bytes })
        else
          some (.completed,
            { result := 1, stored := true, copied := some (e.copyOf h data),
              decoded := some (copied { e with receivedFragments := words } h data).bytes }) := by
  have hle : h.fragmentId.toNat ≤ e.fragmentCount.toNat := by
    rw [← hm.fragmentCount]
    exact (BitVec.lt_def.mp hid).le
  obtain ⟨words, hmark, hmarked⟩ := markReceived_spec hinv hle
  have htest := testReceived_eq hinv hle
  rw [hnew] at htest
  have hroom : h.fragmentOffset.toNat + h.fragmentSize.toNat ≤
      ({ e with receivedFragments := words } : RequestEntry).requestSize.toNat ∧
      h.fragmentSize.toNat ≤ maxDgramSize := by
    rw [hm.requestSize] at hfits
    exact ⟨hfits, hbuffer⟩
  refine ⟨words, hmarked, ?_, ?_⟩
  · refine hinv.of_marked rfl rfl fun k hk => ?_
    exact (hmarked k).trans (by rw [hk, Bool.true_or])
  · rw [addFragment, hvalid, htest, hmark]
    dsimp only
    rw [copyFragment, if_pos hroom]
    rfl

end RequestEntry

end AceTao.EventGateway
