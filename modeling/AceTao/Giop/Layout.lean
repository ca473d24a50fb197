import AceTao.Cdr.RoundTrip
import AceTao.Giop.Fragments
import AceTao.Giop.Reassembly

/-!
# Sending a message in fragments: the code

A `TAO_OutputCDR` is an `ACE_OutputCDR` with a strategy that may send what has been inserted so far
before a value is inserted (`fragment`). The strategy pads the stream to a multiple of 8, sends it
as a message with the flag for more fragments, and begins a new message in the same stream, with the
header of a GIOP message and the request id.

The operations for words and strings ask the strategy; those for octets, booleans and characters,
and those for arrays, do not: they are the ones of `ACE_OutputCDR` (`pending`). The header is
written through the strategy as well, so that `fragment` calls itself; the number of calls is
bounded, and an exhausted bound has no answer (`OutgoingCDR.fragment_spec` shows that it never is).

The transport takes every message it is given. The first block of the stream has room for the header
of a message, whose flags and size are filled in when it is sent.
-/

namespace AceTao.Giop

open Cdr ByteImage

/-- A message as it is sent; the values of padding are not given. -/
abbrev Sent := Wire

/-- **The state of a `TAO_OutputCDR`** with a fragmentation strategy, and what its transport has
been given to send. -/
structure OutgoingCDR where
  cdr : OutputCDR
  moreFragments : Bool
  requestId : ULong
  sent : List Sent

abbrev Sender (α : Type) := Program OutgoingCDR Failure α

/-- The octet of a message type. -/
def MsgType.octet : MsgType → UInt8
  | .request => 0
  | .reply => 1
  | .cancelRequest => 2
  | .locateRequest => 3
  | .locateReply => 4
  | .closeConnection => 5
  | .messageError => 6
  | .fragment => 7
  | .other octet => octet

end AceTao.Giop

namespace AceTao.Cdr.OutputCDR

/-- `reset`: the stream begins again in its first block. -/
def reset (s : OutputCDR) : OutputCDR :=
  let start := match s.done with
    | [] => s.current
    | start :: _ => start
  { s with
    done := []
    current := { start with
      rdPtr := alignBinary start.base maxAlignment - start.base
      contents := [] }
    cont := []
    currentIsWritable := true
    currentAlignment := 0 }

def alignWritePtr (heap : ℕ → ℕ) (alignment : ℕ) : Writer Unit := do
  let _ ← adjust heap 0 alignment

end AceTao.Cdr.OutputCDR

namespace AceTao.Giop

open Cdr ByteImage

/-- What a `TAO_On_Demand_Fragmentation_Strategy` compares with its limit. -/
def alignedLength (totalLength pendingAlignment pendingLength : ℕ) : ULong :=
  let totalPendingLength : ULong :=
    InputCDR.truncateCast (alignBinary totalLength pendingAlignment + pendingLength)
  InputCDR.truncateCast (alignBinary totalPendingLength.toNat maxAlignment)

/-- The alignment and the length an operation announces, if it asks the strategy. -/
def pending : Datum → Option (ℕ × ℕ)
  | .scalar .octet _ | .scalar .int8 _ | .scalar .uint8 _ => none
  | .scalar .short _ | .scalar .ushort _ => some (2, 2)
  | .scalar .long _ | .scalar .ulong _ | .scalar .float _ => some (4, 4)
  | .scalar .longlong _ | .scalar .ulonglong _ | .scalar .double _ => some (8, 8)
  | .scalar .longdouble _ => some (8, 16)
  | .string _ => some (1, 1)
  | .boolean _ | .char _ => none
  | .array _ _ _ | .booleanArray _ _ | .charArray _ _ => none

/-! ### Messages -/

/-- The 12 octets of a header, before the message is formatted. -/
def protocolHeader (majorVersion minorVersion : UInt8) (type : MsgType) : List Octet :=
  [0x47, 0x49, 0x4f, 0x50, majorVersion.toBitVec, minorVersion.toBitVec, 0, type.octet.toBitVec,
    0, 0, 0, 0]

/-- An octet of the header in a message. -/
def headerOctet (w : Wire) (i : ℕ) : UInt8 := (w.getD i none).getD 0

/-- Store bytes in a message. -/
def overwrite (w : Wire) (i : ℕ) (bytes : List UInt8) : Wire :=
  w.take i ++ bytes.map some ++ w.drop (i + bytes.length)

/-- `set_giop_flags`: the byte order, and whether there are more fragments. -/
def setGiopFlags (swap more : Bool) (w : Wire) : Wire :=
  let flags := headerOctet w 6 ||| (1 ^^^ swap.toUInt8)
  overwrite w 6 [if headerOctet w 4 ≤ 1 ∧ headerOctet w 5 = 0 then flags
    else flags ||| more.toUInt8 <<< 1]

/-- **`format_message`**: the flags and the size of the message. -/
def formatMessage (swap more : Bool) (w : Wire) : Wire :=
  let bodylen : ULong := BitVec.ofNat 32 (w.length - headerLen)
  overwrite (setGiopFlags swap more w) 8 (wireImage 4 swap bodylen)

namespace OutgoingCDR

/-- An operation of the underlying stream. -/
def onStream {α : Type} (m : Writer α) : Sender α := fun s =>
  (m s.cdr).map fun p => (p.1, { s with cdr := p.2 })

def setMoreFragments (more : Bool) (s : OutgoingCDR) : OutgoingCDR :=
  { s with moreFragments := more }

/-- What `send_message` does. -/
def sendMessage (s : OutgoingCDR) : OutgoingCDR :=
  { s with sent := s.sent ++ [formatMessage s.cdr.doByteSwap s.moreFragments s.cdr.wire] }

variable (heap : ℕ → ℕ)

/-- `write_protocol_header`, which resets the stream. -/
def writeProtocolHeader (type : MsgType) : Sender Unit := do
  Program.modify fun s => { s with cdr := s.cdr.reset }
  let s ← Program.get
  onStream (OutputCDR.writeOctetArray heap
    (protocolHeader s.cdr.majorVersion s.cdr.minorVersion type) 12)
  let s ← Program.get
  if s.cdr.goodBit then pure () else Program.throw .earlier

/-- **`TAO_On_Demand_Fragmentation_Strategy::fragment`**, with at most `calls` calls. The header of
a fragment is what `generate_fragment_header` writes. -/
def fragment (maxMessageSize : ULong) : ℕ → ℕ → ℕ → Sender Unit
  | 0, _, _ => Program.undefined
  | calls + 1, pendingAlignment, pendingLength => do
    let s ← Program.get
    if s.cdr.majorVersion = 1 ∧ s.cdr.minorVersion < 2 then Program.throw .unsupported
    else if maxMessageSize < alignedLength s.cdr.totalLength pendingAlignment pendingLength then do
      onStream (OutputCDR.alignWritePtr heap maxAlignment)
      Program.modify (setMoreFragments true)
      Program.modify sendMessage
      writeProtocolHeader heap .fragment
      fragment maxMessageSize calls 4 4
      onStream (OutputCDR.writeUlong heap s.requestId)
    else pure ()

/-- **The operator that inserts a value.** -/
def insert (maxMessageSize : ULong) (d : Datum) : Sender Unit :=
  match pending d with
  | some (pendingAlignment, pendingLength) => do
    fragment heap maxMessageSize 2 pendingAlignment pendingLength
    onStream (OutputCDR.writeDatum heap d)
  | none => onStream (OutputCDR.writeDatum heap d)

/-- Values are inserted one after the other, as long as the operators succeed. -/
def insertAll (maxMessageSize : ULong) : List Datum → Sender Unit
  | [] => pure ()
  | d :: ds => do
    insert heap maxMessageSize d
    insertAll maxMessageSize ds

/-- **A message is sent**: its header, its body, and the last fragment. -/
def sendBody (maxMessageSize : ULong) (type : MsgType) (ds : List Datum) : Sender Unit := do
  writeProtocolHeader heap type
  insertAll heap maxMessageSize ds
  Program.modify (setMoreFragments false)
  Program.modify sendMessage

/-- A GIOP 1.2 stream, for a request. -/
def init (base size memcpyTradeoff : ℕ) (doByteSwap : Bool) (requestId : ULong) : OutgoingCDR where
  cdr := OutputCDR.init base size memcpyTradeoff doByteSwap 1 2
  moreFragments := false
  requestId := requestId
  sent := []

end OutgoingCDR

end AceTao.Giop

/-!
## Where the values of a fragmented message are

What a value leaves in a stream depends on the position modulo 8 only (`Datum.put_congr`), so that a
fragment, which begins with 16 octets of headers and ends at a multiple of 8, can be read as if it
followed the body of the fragments before it. `layout` follows the insertions through all fragments,
with the padding at the end of each, and gives what the receiver has.

The strategy cuts the stream before a value where `Cuts` says so. The reader looks for the value at
the next multiple of its alignment, and the sender has put it at the next multiple of 8:
`CutsAligned` says that these agree at every cut.
-/

namespace AceTao.Cdr

open ByteImage AlignUp

/-! ### Positions -/

/-- The position behind a value. -/
def Datum.finish (pos : ℕ) : Datum → ℕ
  | .scalar x _ => alignUp pos x.align + x.size
  | .boolean _ | .char _ => pos + 1
  | .string cs =>
    let len : ULong := BitVec.ofNat 32 cs.length
    alignUp pos 4 + 4 + if len = 0 then 1 else (len + 1).toNat
  | .array x vs _ => if vs = [] then pos else alignUp pos x.align + x.size * vs.length
  | .booleanArray bs _ => pos + bs.length
  | .charArray cs _ => pos + cs.length

/-- The alignment of the first primitive of a value; that of a string is its length. -/
def Datum.firstAlign : Datum → ℕ
  | .scalar x _ | .array x _ _ => x.align
  | .boolean _ | .char _ | .booleanArray _ _ | .charArray _ _ => 1
  | .string _ => 4

theorem length_putArray {size align : ℕ} (ha : 0 < align) (swap : Bool)
    (xs : List (BitVec (8 * size))) (w : Wire) : (putArray size swap align xs w).length =
      if xs = [] then w.length else alignUp w.length align + size * xs.length := by
  rw [putArray]
  split_ifs
  · rfl
  · rw [length_put ha, InputCDR.length_flatMap_wireImage]

theorem length_putArray_one (swap : Bool) (xs : List Octet) (w : Wire) :
    (putArray 1 swap 1 xs w).length = w.length + xs.length := by
  rw [@length_putArray 1 1 one_pos, alignUp_one, Nat.one_mul]
  split_ifs with hnil
  · rw [hnil, List.length_nil, Nat.add_zero]
  · rfl

theorem length_putOctet (x : Octet) (w : Wire) : (put 1 (image 1 x) w).length = w.length + 1 := by
  have hone : (image 1 x).length = 1 := length_leBytes 1 _
  rw [length_put one_pos, alignUp_one, hone]

/-- **The position behind a value** is the length of the stream with it. -/
theorem Datum.length_put (swap : Bool) (d : Datum) (w : Wire) :
    (d.put swap w).length = d.finish w.length := by
  cases d with
  | scalar x v =>
    refine (Cdr.length_put x.isAlign.pos _ w).trans ?_
    rw [length_wireImage]
    rfl
  | boolean b => exact length_putOctet (booleanOctet b) w
  | char c => exact length_putOctet c w
  | string cs =>
    have hfirst (x : ULong) : (Cdr.put 4 (wireImage 4 swap x) w).length
        = alignUp w.length 4 + 4 := by
      rw [Cdr.length_put four_pos, length_wireImage]
    rw [Datum.put, Datum.finish, putString]
    generalize hlen : BitVec.ofNat 32 cs.length = len
    split_ifs with hzero
    · rw [Cdr.length_put one_pos, hfirst, alignUp_one]
      rfl
    · have hle : (len + 1).toNat ≤ (cs ++ [0]).length := by
        have hnat : len.toNat ≤ cs.length := by
          rw [← hlen, BitVec.toNat_ofNat]
          exact Nat.mod_le _ _
        rw [List.length_append, List.length_singleton, BitVec.toNat_add]
        exact (Nat.mod_le _ _).trans (Nat.add_le_add_right hnat 1)
      rw [length_putArray_one, hfirst, List.length_take, Nat.min_eq_left hle]
  | array x vs h => exact length_putArray x.isAlign.pos swap vs w
  | booleanArray bs h =>
    rw [Datum.put, Datum.finish]
    clear h
    induction bs generalizing w with
    | nil => rfl
    | cons b bs ih =>
      rw [List.foldl_cons, ih, length_putOctet, List.length_cons]
      omega
  | charArray cs h => exact length_putArray_one swap cs w

/-! ### Only the position modulo 8 matters -/

/-- **The same bytes** are added to two streams. -/
def SameSuffix (f : Wire → Wire) (w w' : Wire) : Prop := ∃ r, f w = w ++ r ∧ f w' = w' ++ r

theorem SameSuffix.comp {f g : Wire → Wire} {w w' : Wire} (hf : SameSuffix f w w')
    (hg : SameSuffix g (f w) (f w')) : SameSuffix (fun w => g (f w)) w w' := by
  obtain ⟨r, hr, hr'⟩ := hf
  obtain ⟨q, hq, hq'⟩ := hg
  exact ⟨r ++ q, hq.trans (by rw [hr, List.append_assoc]),
    hq'.trans (by rw [hr', List.append_assoc])⟩

/-- The positions still agree behind the bytes. -/
theorem SameSuffix.length {f : Wire → Wire} {w w' : Wire} (h : SameSuffix f w w')
    (hmod : w.length % 8 = w'.length % 8) : (f w).length % 8 = (f w').length % 8 := by
  obtain ⟨r, hr, hr'⟩ := h
  rw [hr, hr', List.length_append, List.length_append]
  omega

theorem pad_congr {align : ℕ} (ha : IsAlign align) {pos pos' : ℕ} (h : pos % 8 = pos' % 8) :
    pad pos align = pad pos' align := by
  rw [pad, pad, alignUp, alignUp]
  rcases ha with rfl | rfl | rfl | rfl <;> omega

theorem put_congr {align : ℕ} (ha : IsAlign align) (bytes : List UInt8) {w w' : Wire}
    (h : w.length % 8 = w'.length % 8) : SameSuffix (put align bytes) w w' := by
  refine ⟨List.replicate (pad w.length align) none ++ bytes.map some, ?_, ?_⟩
  · rw [put, List.append_assoc]
  · rw [put, List.append_assoc, pad_congr ha h]

theorem putArray_congr {size align : ℕ} (ha : IsAlign align) (swap : Bool)
    (xs : List (BitVec (8 * size))) {w w' : Wire} (h : w.length % 8 = w'.length % 8) :
    SameSuffix (putArray size swap align xs) w w' := by
  rcases xs with _ | ⟨x, xs⟩
  · exact ⟨[], (List.append_nil w).symm, (List.append_nil w').symm⟩
  · exact put_congr ha _ h

/-- **A value leaves the same bytes** at positions that agree modulo 8. -/
theorem Datum.put_congr (swap : Bool) (d : Datum) {w w' : Wire}
    (h : w.length % 8 = w'.length % 8) : SameSuffix (d.put swap) w w' := by
  cases d with
  | scalar x v => exact Cdr.put_congr x.isAlign _ h
  | boolean b => exact Cdr.put_congr isAlign_one _ h
  | char c => exact Cdr.put_congr isAlign_one _ h
  | string cs =>
    have hfirst (x : ULong) : SameSuffix (Cdr.put 4 (wireImage 4 swap x)) w w' :=
      Cdr.put_congr isAlign_four _ h
    by_cases hzero : BitVec.ofNat 32 cs.length = (0 : ULong)
    · have hput : Datum.put swap (.string cs) =
          fun w => Cdr.put 1 (image 1 0) (Cdr.put 4 (wireImage 4 swap 1) w) :=
        funext fun w => if_pos hzero
      rw [hput]
      exact (hfirst 1).comp (Cdr.put_congr isAlign_one _ ((hfirst 1).length h))
    · have hput : Datum.put swap (.string cs) = fun w => putArray 1 swap 1
          ((cs ++ [0]).take (BitVec.ofNat 32 cs.length + 1 : ULong).toNat)
          (Cdr.put 4 (wireImage 4 swap (BitVec.ofNat 32 cs.length + 1)) w) :=
        funext fun w => if_neg hzero
      rw [hput]
      exact (hfirst _).comp (putArray_congr isAlign_one swap _ ((hfirst _).length h))
  | array x vs hlen => exact putArray_congr x.isAlign swap vs h
  | booleanArray bs hlen =>
    have hput : Datum.put swap (.booleanArray bs hlen) = putArray 1 swap 1 (bs.map booleanOctet) :=
      funext fun w => InputCDR.foldl_put_boolean swap bs w
    rw [hput]
    exact putArray_congr isAlign_one swap _ h
  | charArray cs hlen => exact @putArray_congr 1 1 isAlign_one swap cs w w' h

end AceTao.Cdr

namespace AceTao.Giop

open Cdr ByteImage AlignUp

/-! ### Cuts -/

/-- **The stream is cut** before a value. -/
def Cuts (maxMessageSize : ULong) (pos : ℕ) (d : Datum) : Prop :=
  ∃ p ∈ pending d, maxMessageSize < alignedLength pos p.1 p.2

instance (maxMessageSize : ULong) (pos : ℕ) (d : Datum) : Decidable (Cuts maxMessageSize pos d) :=
  inferInstanceAs (Decidable (∃ p ∈ pending d, _))

theorem cuts_iff {maxMessageSize : ULong} {pos : ℕ} {d : Datum} {p : ℕ × ℕ}
    (h : pending d = some p) :
    Cuts maxMessageSize pos d ↔ maxMessageSize < alignedLength pos p.1 p.2 := by
  constructor
  · rintro ⟨q, hq, hlt⟩
    cases hq.symm.trans h
    exact hlt
  · exact fun hlt => ⟨p, h, hlt⟩

theorem not_cuts_of_none {maxMessageSize : ULong} {pos : ℕ} {d : Datum} (h : pending d = none) :
    ¬Cuts maxMessageSize pos d := by
  rintro ⟨p, hp, -⟩
  cases hp.symm.trans h

/-- **The value needs the padding** that ends a fragment. -/
def Aligned (pos : ℕ) (d : Datum) : Prop := pad pos d.firstAlign = pad pos 8

/-- **Every cut is aligned**, when values are inserted at a position of a fragment. -/
def CutsAligned (maxMessageSize : ULong) : ℕ → List Datum → Prop
  | _, [] => True
  | pos, d :: ds =>
    if Cuts maxMessageSize pos d then
      Aligned pos d ∧ CutsAligned maxMessageSize (d.finish (headerLen + fragmentHeader)) ds
    else CutsAligned maxMessageSize (d.finish pos) ds

instance (pos : ℕ) (d : Datum) : Decidable (Aligned pos d) := inferInstanceAs (Decidable (_ = _))

instance CutsAligned.decidable (maxMessageSize : ULong) :
    (pos : ℕ) → (ds : List Datum) → Decidable (CutsAligned maxMessageSize pos ds)
  | _, [] => inferInstanceAs (Decidable True)
  | pos, d :: ds =>
    have := CutsAligned.decidable maxMessageSize (d.finish (headerLen + fragmentHeader)) ds
    have := CutsAligned.decidable maxMessageSize (d.finish pos) ds
    inferInstanceAs (Decidable (if Cuts maxMessageSize pos d then
      Aligned pos d ∧ CutsAligned maxMessageSize (d.finish (headerLen + fragmentHeader)) ds
      else CutsAligned maxMessageSize (d.finish pos) ds))

/-- The padding at the end of a fragment. -/
def padded (w : Wire) : Wire := w ++ List.replicate (pad w.length 8) none

/-- **What the receiver has** of a message, when values are inserted at a position of a fragment
behind those that are in `w`. -/
def layout (maxMessageSize : ULong) (swap : Bool) : ℕ → List Datum → Wire → Wire
  | _, [], w => w
  | pos, d :: ds, w =>
    if Cuts maxMessageSize pos d then
      layout maxMessageSize swap (d.finish (headerLen + fragmentHeader)) ds (d.put swap (padded w))
    else layout maxMessageSize swap (d.finish pos) ds (d.put swap w)

theorem length_padded (w : Wire) : (padded w).length = alignUp w.length 8 := by
  rw [padded, List.length_append, List.length_replicate, add_pad (by decide)]

theorem prefix_layout (maxMessageSize : ULong) (swap : Bool) (pos : ℕ) (ds : List Datum)
    (w : Wire) : w <+: layout maxMessageSize swap pos ds w := by
  induction ds generalizing pos w with
  | nil => exact List.prefix_rfl
  | cons d ds ih =>
    rw [layout]
    split_ifs
    · exact ((List.prefix_append _ _).trans (d.prefix_put swap (padded w))).trans (ih _ _)
    · exact (d.prefix_put swap w).trans (ih _ _)

/-- A primitive that is aligned to 8 comes behind the padding anyway. -/
theorem put_padded {align : ℕ} (ha : IsAlign align) (bytes : List UInt8) {w : Wire}
    (h : pad w.length align = pad w.length 8) :
    put align bytes (padded w) = put align bytes w := by
  have hzero : pad (padded w).length align = 0 := by
    rw [length_padded, pad, alignUp_of_dvd ha.pos (ha.dvd.trans (dvd_alignUp _ _)), Nat.sub_self]
  rw [put, hzero, List.replicate_zero, List.append_nil, padded, ← h, put]

/-- **A cut that is aligned** does not show. -/
theorem put_padded_of_aligned (swap : Bool) {d : Datum} {w : Wire} (hp : ∃ p, p ∈ pending d)
    (h : Aligned w.length d) : d.put swap (padded w) = d.put swap w := by
  obtain ⟨p, hp⟩ := hp
  cases d with
  | scalar x v => exact put_padded x.isAlign _ h
  | string cs =>
    have hfirst (x : ULong) : put 4 (wireImage 4 swap x) (padded w) = put 4 (wireImage 4 swap x) w :=
      put_padded isAlign_four _ h
    rw [Datum.put, Datum.put, putString, putString, hfirst, hfirst]
  | boolean b | char c | array x vs h | booleanArray bs h | charArray cs h => cases hp

/-! ### Layouts at other positions -/

theorem finish_congr (d : Datum) {pos pos' : ℕ} (h : pos % 8 = pos' % 8) :
    d.finish pos % 8 = d.finish pos' % 8 := by
  have hmod : (List.replicate pos (none : Option UInt8)).length % 8 =
      (List.replicate pos' (none : Option UInt8)).length % 8 := by
    rwa [List.length_replicate, List.length_replicate]
  have hlen := (d.put_congr false hmod).length hmod
  rwa [d.length_put, d.length_put, List.length_replicate, List.length_replicate] at hlen

theorem aligned_congr {d : Datum} {pos pos' : ℕ} (ha : IsAlign d.firstAlign)
    (h : pos % 8 = pos' % 8) : Aligned pos d ↔ Aligned pos' d := by
  rw [Aligned, Aligned, pad_congr ha h, pad_congr isAlign_eight h]

theorem isAlign_firstAlign (d : Datum) : IsAlign d.firstAlign := by
  cases d with
  | scalar x v => exact x.isAlign
  | array x vs h => exact x.isAlign
  | string cs => exact isAlign_four
  | boolean b | char c | booleanArray bs h | charArray cs h => exact isAlign_one

theorem padded_congr {w w' : Wire} (h : w.length % 8 = w'.length % 8) : SameSuffix padded w w' :=
  ⟨_, rfl, by rw [padded, pad_congr isAlign_eight h]⟩

/-- **A message is laid out in the same way** behind two streams. -/
theorem layout_congr (maxMessageSize : ULong) (swap : Bool) (pos : ℕ) (ds : List Datum)
    {w w' : Wire} (h : w.length % 8 = w'.length % 8) :
    SameSuffix (layout maxMessageSize swap pos ds) w w' := by
  induction ds generalizing pos w w' with
  | nil => exact ⟨[], (List.append_nil w).symm, (List.append_nil w').symm⟩
  | cons d ds ih =>
    by_cases hcut : Cuts maxMessageSize pos d
    · have hlayout : layout maxMessageSize swap pos (d :: ds) = fun w =>
          layout maxMessageSize swap (d.finish (headerLen + fragmentHeader)) ds
            (d.put swap (padded w)) := funext fun w => if_pos hcut
      have hpadded := padded_congr h
      have hd := hpadded.comp (d.put_congr swap (hpadded.length h))
      rw [hlayout]
      exact hd.comp (ih _ (hd.length h))
    · have hlayout : layout maxMessageSize swap pos (d :: ds) = fun w =>
          layout maxMessageSize swap (d.finish pos) ds (d.put swap w) :=
        funext fun w => if_neg hcut
      have hd := d.put_congr swap h
      rw [hlayout]
      exact hd.comp (ih _ (hd.length h))

end AceTao.Giop
