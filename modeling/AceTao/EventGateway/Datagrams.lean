import AceTao.Cdr.RoundTrip
import AceTao.EventGateway.DatagramBounds
import AceTao.EventGateway.Sender

/-!
# The datagrams of a message

`send_fragment` puts a header in front of the data of a fragment: the byte order, three letters, six
words, and the check sum in the order of the network, or zeros. It is written with a CDR stream over
a buffer that is large enough (`Header.written_spec`).

The receiver reads the same header again (`Header.read_written`), and finds it consistent if the
fragment begins inside of the message. So it accepts every datagram of a message whose last block is
not empty, in which each fragment fits into the buffer of the receiver
(`Receiver.handleInput_written`).

The host is little-endian. The check sum of the data is a parameter.
-/

namespace AceTao.EventGateway

open AceTao.Cdr OutputCDR InputCDR ByteImage AlignUp

/-! ### The check sum in the header -/

/-- The bytes of a check sum behind `ACE_HTONL`: the highest comes first. -/
def crcParts (crc : ULong) : List Octet :=
  [(crc >>> 24).setWidth 8, (crc >>> 16).setWidth 8, (crc >>> 8).setWidth 8, crc.setWidth 8]

/-- One byte more of a check sum. -/
theorem shift_or_setWidth (crc : ULong) (n : ℕ) :
    ((crc >>> (n + 8)) <<< 8) ||| ((crc >>> n).setWidth 8).setWidth 32 = crc >>> n := by
  refine BitVec.eq_of_getLsbD_eq fun i hi => ?_
  rw [BitVec.getLsbD_or, BitVec.getLsbD_shiftLeft, BitVec.getLsbD_setWidth, BitVec.getLsbD_setWidth,
    BitVec.getLsbD_ushiftRight, BitVec.getLsbD_ushiftRight]
  by_cases hlow : i < 8
  · simp [hi, hlow]
  · have heq : n + 8 + (i - 8) = n + i := by omega
    simp [hi, hlow, heq]

/-- **The check sum is read back.** -/
theorem crcOf_crcParts (crc : ULong) : Header.crcOf (crcParts crc) = crc := by
  have hzero : crc >>> 32 = 0 := by
    refine BitVec.eq_of_getLsbD_eq fun i _ => ?_
    rw [BitVec.getLsbD_ushiftRight, BitVec.getLsbD_of_ge crc (32 + i) (Nat.le_add_right _ _)]
    exact BitVec.getLsbD_zero.symm
  have h24 := shift_or_setWidth crc 24
  have h16 := shift_or_setWidth crc 16
  have h8 := shift_or_setWidth crc 8
  have h0 := shift_or_setWidth crc 0
  rw [BitVec.ushiftRight_zero] at h0
  rw [hzero] at h24
  rw [Header.crcOf, crcParts]
  simp only [List.foldl_cons, List.foldl_nil]
  rw [h24, h16, h8, h0]

/-! ### The header -/

namespace Header

variable (heap : ℕ → ℕ)

/-- What is written before the check sum. -/
def writeFields (h : Header) : Writer Unit := do
  writeBoolean heap h.byteOrder
  writeOctet heap 0x41
  writeOctet heap 0x42
  writeOctet heap 0x43
  writeUlong heap h.requestId
  writeUlong heap h.requestSize
  writeUlong heap h.fragmentSize
  writeUlong heap h.fragmentOffset
  writeUlong heap h.fragmentId
  writeUlong heap h.fragmentCount

/-- The stream over the array `header`, which has room for 8 words more. -/
def buffer : OutputCDR := .init 8 (headerSize + 4 * maxAlignment) 0 false 1 2

/-- The bytes of the first block. A byte of padding, of which there are none, would be 0. -/
def firstBytes (s : OutputCDR) : List UInt8 :=
  ((s.blocks.head?.map Block.contents).getD []).map (·.getD 0)

/-- **The bytes of the header** in front of some data. -/
def written (crc32 : List UInt8 → ULong) (checksum : Bool) (h : Header) (data : List UInt8) :
    Option (List UInt8) :=
  match h.writeFields heap buffer with
  | some (.ok _, s) =>
    match writeOctetArray heap
        (if checksum then crcParts (crc32 (firstBytes s ++ data)) else [0, 0, 0, 0]) 4 s with
    | some (.ok _, s) => some (firstBytes s)
    | _ => none
  | _ => none

/-- The bytes of the fields in a stream. -/
def fieldsWire (h : Header) : Wire :=
  put 4 (wireImage 4 false h.fragmentCount) (put 4 (wireImage 4 false h.fragmentId)
    (put 4 (wireImage 4 false h.fragmentOffset) (put 4 (wireImage 4 false h.fragmentSize)
      (put 4 (wireImage 4 false h.requestSize) (put 4 (wireImage 4 false h.requestId)
        (put 1 (image 1 (0x43 : Octet)) (put 1 (image 1 (0x42 : Octet))
          (put 1 (image 1 (0x41 : Octet)) (put 1 (image 1 (booleanOctet h.byteOrder)) [])))))))))

theorem length_fieldsWire (h : Header) : h.fieldsWire.length = 28 := by
  have hone (x : Octet) : (image 1 x).length = 1 := @length_image 1 x
  simp only [fieldsWire, length_put (show 0 < 4 by decide), length_put (show 0 < 1 by decide),
    length_wireImage, hone, alignUp_one]
  decide

variable {heap}

/-- **The fields are written.** -/
theorem writes_writeFields (h : Header) {s : OutputCDR} (hs : Ready s) (hwire : s.wire = [])
    (hswap : s.doByteSwap = false) : Writes (h.writeFields heap) s h.fieldsWire := by
  have hoctet (x : Octet) {t : OutputCDR} (ht : Ready t) {w : Wire} (hw : t.wire = w) :
      Writes (writeOctet heap x) t (put 1 (image 1 x) w) := hw ▸ writes_write1 ht x
  have hulong (x : ULong) {t : OutputCDR} (ht : Ready t) (hc : SameConfig s t) {w : Wire}
      (hw : t.wire = w) : Writes (writeUlong heap x) t (put 4 (wireImage 4 false x) w) := by
    have hwrites : Writes (writeWord heap 4 4 x) t (put 4 (wireImage 4 t.doByteSwap x) t.wire) :=
      writes_writeScalar heap ht .ulong x
    rw [hc.doByteSwap, hswap, hw] at hwrites
    exact hwrites
  have hfirst : Writes (writeBoolean heap h.byteOrder) s
      (put 1 (image 1 (booleanOctet h.byteOrder)) []) := hoctet (booleanOctet h.byteOrder) hs hwire
  rw [writeFields, fieldsWire]
  refine hfirst.bind fun t₀ h₀ c₀ w₀ => ?_
  refine (hoctet 0x41 h₀ w₀).bind fun t₁ h₁ c₁ w₁ => ?_
  refine (hoctet 0x42 h₁ w₁).bind fun t₂ h₂ c₂ w₂ => ?_
  refine (hoctet 0x43 h₂ w₂).bind fun t₃ h₃ c₃ w₃ => ?_
  have c₃ := ((c₀.trans c₁).trans c₂).trans c₃
  refine (hulong h.requestId h₃ c₃ w₃).bind fun t₄ h₄ c₄ w₄ => ?_
  have c₄ := c₃.trans c₄
  refine (hulong h.requestSize h₄ c₄ w₄).bind fun t₅ h₅ c₅ w₅ => ?_
  have c₅ := c₄.trans c₅
  refine (hulong h.fragmentSize h₅ c₅ w₅).bind fun t₆ h₆ c₆ w₆ => ?_
  have c₆ := c₅.trans c₆
  refine (hulong h.fragmentOffset h₆ c₆ w₆).bind fun t₇ h₇ c₇ w₇ => ?_
  have c₇ := c₆.trans c₇
  refine (hulong h.fragmentId h₇ c₇ w₇).bind fun t₈ h₈ c₈ w₈ => ?_
  exact hulong h.fragmentCount h₈ (c₇.trans c₈) w₈

/-- The bytes of a stream in which no byte is padding. -/
def bytesOf (w : Wire) : List UInt8 := w.map (·.getD 0)

theorem holds_bytesOf (w : Wire) : Holds (bytesOf w) w := by
  rw [Holds, bytesOf, List.forall₂_map_left_iff, List.forall₂_same]
  rintro x - y rfl
  rfl

/-- A stream in one block has its bytes there. -/
theorem firstBytes_eq {s : OutputCDR} {capacity : ℕ} (h : OneBlock capacity s) :
    firstBytes s = bytesOf s.wire := by
  rw [firstBytes, bytesOf, wire, blocks, h.done, List.nil_append, List.flatMap_singleton]
  rfl

theorem oneBlock_buffer : OneBlock 64 buffer := ⟨rfl, rfl, by decide⟩

/-- The bytes of the header, with those of the check sum. -/
def imageWire (h : Header) (padding : List Octet) : Wire := putArray 1 false 1 padding h.fieldsWire

theorem length_imageWire (h : Header) {padding : List Octet} (hlen : padding.length = 4) :
    (bytesOf (h.imageWire padding)).length = headerSize := by
  have hne : padding ≠ [] := fun hnil => by
    rw [hnil] at hlen
    cases hlen
  rw [bytesOf, List.length_map, imageWire, putArray, if_neg hne, length_put Nat.one_pos,
    alignUp_one, length_fieldsWire, length_flatMap_wireImage, hlen]
  rfl

/-- **The header is written**, in 32 bytes. -/
theorem written_spec (crc32 : List UInt8 → ULong) (checksum : Bool) (h : Header)
    (data : List UInt8) :
    h.written heap crc32 checksum data = some (bytesOf (h.imageWire
      (if checksum then crcParts (crc32 (bytesOf h.fieldsWire ++ data)) else [0, 0, 0, 0]))) := by
  have hready : Ready buffer := init_ready ..
  obtain ⟨t, heq, ht⟩ := @writes_writeFields heap h buffer hready rfl rfl
  have hone := ht.oneBlock 64 oneBlock_buffer (by rw [length_fieldsWire]; decide)
  have hbytes := firstBytes_eq hone
  rw [ht.wire] at hbytes
  unfold written
  simp only [heq, hbytes]
  generalize hpadding : (if checksum = true then crcParts (crc32 (bytesOf h.fieldsWire ++ data))
    else [0, 0, 0, 0]) = padding
  have hlen : padding.length = 4 := by
    rw [← hpadding]
    cases checksum <;> rfl
  have hswap : t.doByteSwap = false := ht.config.doByteSwap
  have hwrites : Writes (writeOctetArray heap padding (BitVec.ofNat 32 padding.length)) t
      (putArray 1 t.doByteSwap 1 padding t.wire) :=
    writes_writeScalarArray heap ht.ready .octet padding (Nat.lt_of_le_of_lt hlen.le (by decide))
  rw [hlen, hswap, ht.wire] at hwrites
  obtain ⟨u, heq', hu⟩ := hwrites
  have hone' := hu.oneBlock 64 hone (by
    have hlength := length_imageWire h hlen
    rw [bytesOf, List.length_map, imageWire] at hlength
    rw [hlength]
    decide)
  have hbytes' := firstBytes_eq hone'
  rw [hu.wire] at hbytes'
  have hrun : writeOctetArray heap padding 4 t = some (.ok (), u) := heq'
  rw [hrun, imageWire, ← hbytes']

/-! ### Reading it again -/

/-- What is read of a header, with a check sum if it is checked. -/
def readAs (h : Header) (checkCrc : Bool) (padding : List Octet) : Header :=
  { h with crc := if checkCrc then some (crcOf padding) else none }

/-- The bytes in the place of the check sum are read. -/
theorem reads_padding {padding : List Octet} (hlen : padding.length = 4) {t : InputCDR} {w : Wire}
    (ht : At false t w) (hput : Agrees t (putArray 1 false 1 padding w)) :
    Reads false (readOctetArray 4) padding t (putArray 1 false 1 padding w) := by
  have hfour : (4 : ULong).toNat = padding.length := hlen.symm
  exact reads_readWordArray ht isAlign_one (Or.inl rfl) hfour hput

/-- **The fields are read.** -/
theorem reads_fields (h : Header) (checkCrc : Bool) {padding : List Octet}
    (hlen : padding.length = 4) {s : InputCDR} (hs : At false s [])
    (hput : Agrees s (h.imageWire padding)) :
    ∃ w, Reads false (fields h.byteOrder checkCrc) (some (h.readAs checkCrc padding)) s w := by
  have p₁₀ : h.fieldsWire <+: h.imageWire padding := prefix_putArray ..
  have p₉ := (prefix_put ..).trans p₁₀
  have p₈ := (prefix_put ..).trans p₉
  have p₇ := (prefix_put ..).trans p₈
  have p₆ := (prefix_put ..).trans p₇
  have p₅ := (prefix_put ..).trans p₆
  have p₄ := (prefix_put ..).trans p₅
  have p₃ := (prefix_put ..).trans p₄
  have p₂ := (prefix_put ..).trans p₃
  have p₁ := (prefix_put ..).trans p₂
  have hulong {t : InputCDR} {w : Wire} {x : ULong} (ht : At false t w)
      (hsame : SameBuffer s t) (hp : put 4 (wireImage 4 false x) w <+: h.imageWire padding) :
      Reads false InputCDR.readUlong x t (put 4 (wireImage 4 false x) w) :=
    reads_readScalar ht .ulong (hsame.agrees (hput.mono hp))
  have hoctet {t : InputCDR} {w : Wire} {x : Octet} (ht : At false t w)
      (hsame : SameBuffer s t) (hp : put 1 (image 1 x) w <+: h.imageWire padding) :
      Reads false readOctet x t (put 1 (image 1 x) w) :=
    reads_read1 ht (hsame.agrees (hput.mono hp))
  have hletters : ¬((0x41 : Octet) ≠ 0x41 ∨ (0x42 : Octet) ≠ 0x42 ∨ (0x43 : Octet) ≠ 0x43) := by
    decide
  refine ⟨if checkCrc then h.imageWire padding else h.fieldsWire, ?_⟩
  refine (reads_readBoolean hs (hput.mono p₁)).bind fun t₁ b₁ h₁ => ?_
  refine (hoctet h₁ b₁ p₂).bind fun t₂ b₂ h₂ => ?_
  have b₂ := b₁.trans b₂
  refine (hoctet h₂ b₂ p₃).bind fun t₃ b₃ h₃ => ?_
  have b₃ := b₂.trans b₃
  refine (hoctet h₃ b₃ p₄).bind fun t₄ b₄ h₄ => ?_
  have b₄ := b₃.trans b₄
  rw [if_neg hletters]
  refine (hulong h₄ b₄ p₅).bind fun t₅ b₅ h₅ => ?_
  have b₅ := b₄.trans b₅
  refine (hulong h₅ b₅ p₆).bind fun t₆ b₆ h₆ => ?_
  have b₆ := b₅.trans b₆
  refine (hulong h₆ b₆ p₇).bind fun t₇ b₇ h₇ => ?_
  have b₇ := b₆.trans b₇
  refine (hulong h₇ b₇ p₈).bind fun t₈ b₈ h₈ => ?_
  have b₈ := b₇.trans b₈
  refine (hulong h₈ b₈ p₉).bind fun t₉ b₉ h₉ => ?_
  have b₉ := b₈.trans b₉
  refine (hulong h₉ b₉ p₁₀).bind fun t b ht => ?_
  have b := b₉.trans b
  cases checkCrc with
  | false => exact reads_pure ht _
  | true =>
    refine (reads_padding hlen ht (b.agrees hput)).bind fun u _ hu => ?_
    exact reads_pure hu _

/-- **`read` accepts** a header that was written, if it is consistent with the data. -/
theorem read_written {h : Header} (horder : h.byteOrder = true) {checkCrc : Bool}
    {padding : List Octet} (hlen : padding.length = 4) {n : ℕ}
    (hcons : (h.readAs checkCrc padding).Consistent (n - headerSize)) :
    read (bytesOf (h.imageWire padding)) n checkCrc = some (some (h.readAs checkCrc padding)) := by
  have hlength := h.length_imageWire hlen
  obtain ⟨more, hmore⟩ : put 1 (image 1 (booleanOctet h.byteOrder)) [] <+: h.imageWire padding := by
    refine List.IsPrefix.trans ?_ (prefix_putArray ..)
    iterate 8 refine List.IsPrefix.trans ?_ (prefix_put ..)
    exact prefix_put ..
  obtain ⟨rest, hfirst⟩ : ∃ rest, bytesOf (h.imageWire padding) = 1 :: rest := by
    rw [horder] at hmore
    rw [← hmore]
    exact ⟨_, rfl⟩
  have hdata : (bytesOf (h.imageWire padding)).take headerSize = bytesOf (h.imageWire padding) :=
    List.take_of_length_le hlength.le
  have hagrees : Agrees (stream (1 :: rest) true) (h.imageWire padding) := by
    refine ⟨[], ?_⟩
    change Holds ((1 :: rest).take headerSize) _
    rw [List.append_nil, ← hfirst, hdata]
    exact holds_bytesOf _
  obtain ⟨w, t, hread, -⟩ := reads_fields (s := stream (1 :: rest) true) h checkCrc hlen
    ⟨rfl, ⟨1, rfl⟩, rfl, rfl, hagrees.mono (List.nil_prefix)⟩ hagrees
  rw [horder] at hread
  rw [hfirst, read, if_neg (by decide)]
  simp only [decide_true]
  rw [hread]
  exact if_pos hcons

end Header

/-! ### The message -/

/-- **The sender**: `mtu_`, which `mtu` keeps between `ECG_MIN_MTU` and `ECG_MAX_MTU`, and
`checksum_`. -/
structure Sender where
  mtu : ULong
  checksum : Bool
  min_le : 40 ≤ mtu.toNat
  lt_max : mtu.toNat < 65536

namespace Sender

theorem default_min_le : 40 ≤ (1024 : ULong).toNat := by decide

theorem default_lt_max : (1024 : ULong).toNat < 65536 := by decide

/-- The constructor, with `ECG_DEFAULT_MTU`. -/
def new (crc : Bool) : Sender := ⟨1024, crc, default_min_le, default_lt_max⟩

/-- `mtu (new_mtu)` -/
def setMtu (s : Sender) (newMtu : ULong) : Sender × ℤ :=
  if h : 40 ≤ newMtu.toNat ∧ newMtu.toNat < 65536 then (⟨newMtu, s.checksum, h.1, h.2⟩, 0)
  else (s, -1)

/-- `max_fragment_payload` -/
def maxFragmentPayload (s : Sender) : ℕ := (s.mtu - BitVec.ofNat 32 headerSize).toNat

theorem maxFragmentPayload_eq (s : Sender) : s.maxFragmentPayload + headerSize = s.mtu.toNat := by
  have hmin := s.min_le
  have hheader : (BitVec.ofNat 32 headerSize).toNat = 32 := rfl
  rw [maxFragmentPayload, BitVec.toNat_sub_of_le (BitVec.le_def.mpr (by omega)), hheader,
    headerSize]
  omega

theorem maxFragmentPayload_pos (s : Sender) : 0 < s.maxFragmentPayload := by
  have hmin := s.min_le
  have heq := s.maxFragmentPayload_eq
  rw [headerSize] at heq
  omega

/-- The header of a fragment. `TAO_ENCAP_BYTE_ORDER` is 1. -/
def headerOf (requestId : ULong) (totalLength fragmentCount : ℕ) (f : Fragment) : Header where
  byteOrder := true
  requestId := requestId
  requestSize := BitVec.ofNat 32 totalLength
  fragmentSize := BitVec.ofNat 32 f.size
  fragmentOffset := BitVec.ofNat 32 f.offset
  fragmentId := BitVec.ofNat 32 f.id
  fragmentCount := BitVec.ofNat 32 fragmentCount
  crc := none

variable (heap : ℕ → ℕ) (crc32 : List UInt8 → ULong) (iovMax : ℕ)

/-- **`send_fragment`**: the datagram. -/
def sendFragment (s : Sender) (requestId : ULong) (totalLength fragmentCount : ℕ) (f : Fragment) :
    Option (List UInt8) :=
  ((headerOf requestId totalLength fragmentCount f).written heap crc32 s.checksum f.data).map
    fun header => header ++ f.data

/-- **`send_message`**: the datagrams, in the order in which they are sent. -/
def sendMessage (s : Sender) (requestId : ULong) (blocks : List Block) :
    Option (List (List UInt8)) :=
  match computeFragmentCount s.maxFragmentPayload iovMax blocks with
  | none => none
  | some (fragmentCount, totalLength) =>
    match fragmentsOf s.maxFragmentPayload iovMax blocks with
    | none => none
    | some fragments =>
      fragments.mapM (s.sendFragment heap crc32 requestId totalLength fragmentCount)

variable {heap crc32 iovMax}

/-- The bytes in the place of the check sum. -/
def padding (crc32 : List UInt8 → ULong) (s : Sender) (h : Header) (data : List UInt8) :
    List Octet :=
  if s.checksum then crcParts (crc32 (Header.bytesOf h.fieldsWire ++ data)) else [0, 0, 0, 0]

theorem length_padding (s : Sender) (h : Header) (data : List UInt8) :
    (s.padding crc32 h data).length = 4 := by
  rw [padding]
  split_ifs <;> rfl

/-- A datagram. -/
def datagram (crc32 : List UInt8 → ULong) (s : Sender) (h : Header) (data : List UInt8) :
    List UInt8 :=
  Header.bytesOf (h.imageWire (s.padding crc32 h data)) ++ data

/-- **The datagrams of a message** are those of its fragments. -/
theorem sendMessage_spec (s : Sender) (hiov : 1 < iovMax) (requestId : ULong)
    (blocks : List Block) :
    ∃ fragments, fragmentsOf s.maxFragmentPayload iovMax blocks = some fragments ∧
      s.sendMessage heap crc32 iovMax requestId blocks = some (fragments.map fun f =>
        s.datagram crc32 (headerOf requestId blocks.flatten.length fragments.length f) f.data) := by
  obtain ⟨fragments, hcut, -⟩ := fragmentsOf_numbered s.maxFragmentPayload_pos hiov blocks
  have hcount := computeFragmentCount_eq s.maxFragmentPayload_pos hiov hcut
  have hfragment : s.sendFragment heap crc32 requestId blocks.flatten.length fragments.length =
      fun f => pure (s.datagram crc32
        (headerOf requestId blocks.flatten.length fragments.length f) f.data) := by
    funext f
    rw [sendFragment, Header.written_spec, Option.map_some]
    rfl
  refine ⟨fragments, hcut, ?_⟩
  rw [sendMessage, hcount]
  dsimp only
  rw [hcut]
  dsimp only
  rw [hfragment, List.mapM_pure]
  rfl

end Sender

/-! ### What the receiver makes of a datagram -/

namespace Receiver

variable {α : Type*} [DecidableEq α] {crc32 : List UInt8 → ULong} {s : Receiver α} {d : Datagram α}
  {h : Header} {padding : List Octet} {data : List UInt8}

/-- **A datagram with a consistent header** is accepted, and its data are processed. -/
theorem handleInput_written (horder : h.byteOrder = true) (hlen : padding.length = 4)
    (hbytes : d.bytes = Header.bytesOf (h.imageWire padding) ++ data)
    (hfits : data.length ≤ maxDgramSize) (hloop : s.isLoopback d.source = false)
    (hcons : h.Consistent data.length)
    (hcrc : s.checkCrc = true →
      Header.crcOf padding = crc32 (Header.bytesOf h.fieldsWire ++ data)) :
    s.handleInput crc32 d =
      s.process d.source (h.readAs s.checkCrc padding) data d.answer := by
  have hlength := h.length_imageWire hlen
  have hheader : d.header = Header.bytesOf (h.imageWire padding) := by
    rw [Datagram.header, hbytes, List.take_left' hlength]
  have hdata : d.data = data := by
    rw [Datagram.data, hbytes, List.drop_left' hlength, List.take_of_length_le hfits]
  have htake : (Header.bytesOf (h.imageWire padding)).take (headerSize - 4) =
      Header.bytesOf h.fieldsWire := by
    obtain ⟨more, hmore⟩ : h.fieldsWire <+: h.imageWire padding := prefix_putArray ..
    rw [← hmore, Header.bytesOf, List.map_append]
    exact List.take_left' (by rw [List.length_map, Header.length_fieldsWire, headerSize])
  have hsub : headerSize + data.length - headerSize = data.length := Nat.add_sub_cancel_left ..
  have hread : Header.read (Header.bytesOf (h.imageWire padding)) (headerSize + data.length)
      s.checkCrc = some (some (h.readAs s.checkCrc padding)) :=
    Header.read_written horder hlen (hsub.symm ▸ hcons)
  have haccepted : s.acceptedHeader crc32 d = some (h.readAs s.checkCrc padding) := by
    rw [acceptedHeader, hheader, hdata, hlength, hloop, if_neg (by simp), hread]
    dsimp only
    rw [htake, if_neg]
    rintro ⟨hcheck, hne⟩
    rw [Header.readAs, hcheck, if_pos rfl, hcrc hcheck] at hne
    exact hne rfl
  rcases handleInput_cases crc32 s d with ⟨hnone, -⟩ | ⟨h', hsome, -, heq⟩
  · cases hnone.symm.trans haccepted
  · cases hsome.symm.trans haccepted
    rw [heq, hdata]

end Receiver

end AceTao.EventGateway
