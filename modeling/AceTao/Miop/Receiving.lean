import AceTao.Cdr.Strings
import AceTao.Miop.Partition

/-!
# Receiving a datagram of MIOP

`recv_packet` reads the header of a datagram with an `ACE_InputCDR` over the bytes that were received,
hashes the id, and returns where the payload begins: behind the id, at the next multiple of 8. But it
compares the length of the datagram with that of the header without this padding. So the payload of a
datagram that is accepted lies within what was received exactly if there is no padding or no payload
(`right_iff`). The datagrams of a sender of this library have an id of 12 bytes and no padding, and
what is returned for them is their payload.

A read that fails would leave a variable without a value; this does not happen, as the bytes of the
shortest header are there (`recvPacket_spec`).
-/

namespace AceTao.Miop

open AceTao.Cdr InputCDR ByteImage AlignUp Program

/-- `MIOP_ID_CONTENT_OFFSET` -/
def idContentOffset : ℕ := 20

/-- `MIOP_MIN_HEADER_SIZE` -/
def minHeaderSize : ℕ := 24

/-- `MIOP_MAX_ID_LENGTH` -/
def maxIdLength : ULong := 252

/-- `MIOP_MAX_DGRAM_SIZE`, the most bytes that are received at once. -/
def maxDgramSize : ℕ := 65507

def miopMagic : List Octet := [0x4D, 0x49, 0x4F, 0x50]

/-- **`ACE::hash_pjw`**; a `char` is signed. -/
def hashPjw (bytes : List UInt8) : BitVec 64 :=
  bytes.foldl (fun hash b =>
    let hash := (hash <<< 4) + (BitVec.ofNat 8 b.toNat).signExtend 64 * 13
    let g := hash &&& 0xF0000000
    if g ≠ 0 then hash ^^^ (g >>> 24) ^^^ g else hash) 0

/-- `reset_byte_order`; the order of the host is 1. -/
def resetByteOrder (order : Octet) (s : InputCDR) : InputCDR := { s with doByteSwap := order ≠ 1 }

/-- What is returned: the place of the payload in the buffer, and the fields of the header. -/
structure Received where
  start : ℕ
  packetLength : UShort
  packetNumber : ULong
  stopPacket : Bool
  idHash : BitVec 64

/-- **`recv_packet`** for a stream over the bytes that were received. The bytes that are hashed are
loaded from the buffer. -/
def recvPacket : Reader (Option Received) := do
  let s ← Program.get
  if s.data.length < minHeaderSize then pure none
  else do
    let magic ← readOctetArray 4
    if magic ≠ miopMagic then pure none
    else do
      let version ← readOctet
      if version ≠ 0x10 then pure none
      else do
        let flags ← readOctet
        Program.modify (resetByteOrder (flags &&& 0x01))
        let packetLength ← readUshort
        let packetNumber ← readUlong
        let _ ← readUlong
        let idLength ← readUlong
        if maxIdLength < idLength ∨ BitVec.ofNat 32 idContentOffset + idLength +
            packetLength.setWidth 32 ≠ BitVec.ofNat 32 s.data.length then pure none
        else if s.data.length < alignUp (idContentOffset + idLength.toNat) 8 then pure none
        else do
          let id ← load (s.base + idContentOffset) idLength.toNat
          pure (some ⟨alignUp (idContentOffset + idLength.toNat) 8, packetLength, packetNumber,
            flags &&& 0x02 ≠ 0, hashPjw id⟩)

/-! ### The fields of a header -/

/-- The bytes of a field. -/
def fieldAt (data : List UInt8) (k size : ℕ) : List UInt8 := (data.drop k).take size

/-- **The header of a datagram**, whose words are in the byte order that the flags state. -/
structure Header where
  magic : List Octet
  version : Octet
  flags : Octet
  packetLength : UShort
  packetNumber : ULong
  idLength : ULong

namespace Header

/-- The bytes of a word in the order of the host. -/
def wordAt (data : List UInt8) (k size : ℕ) : List UInt8 :=
  if (ofImage 1 (fieldAt data 5 1) : Octet) &&& 0x01 ≠ 1 then (fieldAt data k size).reverse
  else fieldAt data k size

def of (data : List UInt8) : Header where
  magic := ofArrayImage 1 4 (fieldAt data 0 4)
  version := ofImage 1 (fieldAt data 4 1)
  flags := ofImage 1 (fieldAt data 5 1)
  packetLength := ofImage 2 (wordAt data 6 2)
  packetNumber := ofImage 4 (wordAt data 8 4)
  idLength := ofImage 4 (wordAt data 16 4)

end Header

/-- **A datagram that is accepted**: it has a header of the right version, whose lengths add up to
its own without the padding, and there is room for the padding. -/
structure Accepted (data : List UInt8) : Prop where
  long : minHeaderSize ≤ data.length
  magic : (Header.of data).magic = miopMagic
  version : (Header.of data).version = 0x10
  id_le : (Header.of data).idLength ≤ maxIdLength
  length_eq : idContentOffset + (Header.of data).idLength.toNat +
    (Header.of data).packetLength.toNat = data.length
  padded : alignUp (idContentOffset + (Header.of data).idLength.toNat) 8 ≤ data.length

/-- What is returned for a datagram that is accepted. -/
def received (data : List UInt8) : Received where
  start := alignUp (idContentOffset + (Header.of data).idLength.toNat) 8
  packetLength := (Header.of data).packetLength
  packetNumber := (Header.of data).packetNumber
  stopPacket := (Header.of data).flags &&& 0x02 ≠ 0
  idHash := hashPjw (fieldAt data idContentOffset (Header.of data).idLength.toNat)

/-! ### Reading the header -/

/-- **A stream at the `k`-th byte** of a datagram, in a buffer that is aligned. -/
structure Reading (data : List UInt8) (base : ℕ) (swap : Bool) (k : ℕ) (s : InputCDR) : Prop where
  data_eq : s.data = data
  base_eq : s.base = base
  swap_eq : s.doByteSwap = swap
  rdPtr : s.rdPtr = base + k
  aligned : 8 ∣ base
  le : k ≤ data.length

namespace Reading

variable {data : List UInt8} {base k size align : ℕ} {swap : Bool} {s : InputCDR}

theorem wrPtr_eq (h : Reading data base swap k s) : s.wrPtr = base + data.length := by
  rw [wrPtr, h.base_eq, h.data_eq]

theorem inBounds (h : Reading data base swap k s) : InBounds s := by
  have hle := h.le
  refine ⟨?_, ?_⟩
  · rw [h.base_eq, h.rdPtr]
    exact Nat.le_add_right _ _
  · rw [h.rdPtr, h.wrPtr_eq]
    omega

theorem bytesAt_eq (h : Reading data base swap k s) (n : ℕ) :
    s.bytesAt s.rdPtr n = fieldAt data k n := by
  rw [bytesAt, h.rdPtr, h.base_eq, h.data_eq, Nat.add_sub_cancel_left, fieldAt]

/-- A field whose place is aligned begins there. -/
theorem valueEnd_eq (h : Reading data base swap k s) (size : ℕ) (ha : IsAlign align)
    (hk : align ∣ k) :
    alignUp s.rdPtr align = s.rdPtr ∧ s.valueEnd size align = s.rdPtr + size := by
  have haligned : alignUp s.rdPtr align = s.rdPtr := by
    refine alignUp_of_dvd ha.pos ?_
    rw [h.rdPtr]
    exact Nat.dvd_add (ha.dvd.trans h.aligned) hk
  exact ⟨haligned, by rw [valueEnd, haligned]⟩

/-- The place behind a field. -/
theorem advance (h : Reading data base swap k s) {n : ℕ} (hle : k + n ≤ data.length) :
    Reading data base swap (k + n) (s.setRdPtr (s.rdPtr + n)) := by
  have hend : s.rdPtr + n ≤ s.wrPtr := by
    rw [h.rdPtr, h.wrPtr_eq]
    omega
  refine ⟨h.data_eq, h.base_eq, h.swap_eq, ?_, h.aligned, hle⟩
  rw [setRdPtr_rdPtr_of_le hend, h.rdPtr, Nat.add_assoc]

/-- The magic bytes. -/
theorem magic (h : Reading data base swap k s) (hgood : s.goodBit = true)
    (hle : k + 4 ≤ data.length) : ∃ t,
    readOctetArray 4 s = some (.ok (ofArrayImage 1 4 (fieldAt data k 4)), t) ∧
      Reading data base swap (k + 4) t := by
  have hfits : s.rdPtr + 4 ≤ s.wrPtr := by
    rw [h.rdPtr, h.wrPtr_eq]
    omega
  obtain ⟨haligned, hend⟩ := h.valueEnd_eq (1 * 4) isAlign_one (one_dvd k)
  have hread := readArray_eq h.inBounds hgood isAlign_one (Or.inl rfl) (show 4 < 2 ^ 32 by norm_num)
    (by norm_num) (hend ▸ hfits)
  have hbytes : s.bytesAt s.rdPtr 4 = fieldAt data k 4 := h.bytesAt_eq 4
  have hlen : (fieldAt data k 4).length = 4 := by
    rw [fieldAt, List.length_take, List.length_drop]
    omega
  rw [hend, haligned, Nat.one_mul, hbytes, nativeArray, swapArray_one hlen, ite_self] at hread
  have hlength : ¬(4 : Cdr.ULong).toNat * 1 % 2 ^ 64 > s.length := by
    rw [length_eq h.inBounds]
    show ¬4 > _
    omega
  refine ⟨_, ?_, h.advance hle⟩
  rw [readOctetArray, readWordArray, get_bind_apply, if_neg hlength]
  exact bind_of_ok hread

/-- An octet. -/
theorem octet (h : Reading data base swap k s) (hle : k + 1 ≤ data.length) : ∃ t,
    readOctet s = some (.ok (ofImage 1 (fieldAt data k 1)), t) ∧
      Reading data base swap (k + 1) t := by
  have hread := read1_eq h.inBounds
  rw [if_pos (by rw [h.rdPtr, h.wrPtr_eq]; omega), h.bytesAt_eq] at hread
  exact ⟨_, hread, h.advance hle⟩

/-- A word, in the byte order of the stream. -/
theorem word (h : Reading data base swap k s) (ha : IsAlign size) (hk : size ∣ k)
    (hle : k + size ≤ data.length) : ∃ t, readWord size size s =
      some (.ok (ofImage size (if swap then (fieldAt data k size).reverse
        else fieldAt data k size)), t) ∧ Reading data base swap (k + size) t := by
  obtain ⟨haligned, hend⟩ := h.valueEnd_eq size ha hk
  have hsize : size ≤ 2 ^ 62 := ha.le.trans (by norm_num)
  have hread := readWord_eq h.inBounds ha hsize
  rw [hend, haligned, if_pos (by rw [h.rdPtr, h.wrPtr_eq]; omega), h.bytesAt_eq, native,
    h.swap_eq] at hread
  exact ⟨_, hread, h.advance hle⟩

theorem ushort (h : Reading data base swap k s) (hk : 2 ∣ k) (hle : k + 2 ≤ data.length) : ∃ t,
    readUshort s = some (.ok (ofImage 2 (if swap then (fieldAt data k 2).reverse
      else fieldAt data k 2)), t) ∧ Reading data base swap (k + 2) t :=
  h.word isAlign_two hk hle

theorem ulong (h : Reading data base swap k s) (hk : 4 ∣ k) (hle : k + 4 ≤ data.length) : ∃ t,
    readUlong s = some (.ok (ofImage 4 (if swap then (fieldAt data k 4).reverse
      else fieldAt data k 4)), t) ∧ Reading data base swap (k + 4) t :=
  h.word isAlign_four hk hle

end Reading

/-- **A stream over a datagram** that has just been received. -/
structure Fresh (s : InputCDR) : Prop where
  start : s.rdPtr = s.base
  aligned : 8 ∣ s.base
  good : s.goodBit = true
  length_le : s.data.length ≤ maxDgramSize

/-- The lengths in the header are compared without wrapping around. -/
theorem lengths_iff (idLength : ULong) (packetLength : UShort) {n : ℕ} (hn : n ≤ maxDgramSize) :
    ¬(maxIdLength < idLength ∨ BitVec.ofNat 32 idContentOffset + idLength +
        packetLength.setWidth 32 ≠ BitVec.ofNat 32 n) ↔
      idLength ≤ maxIdLength ∧ idContentOffset + idLength.toNat + packetLength.toNat = n := by
  rw [not_or, BitVec.not_lt, ne_eq, not_not]
  refine and_congr_right fun hid => ?_
  have hid' : idLength.toNat ≤ 252 := BitVec.le_def.mp hid
  have hlen := packetLength.isLt
  rw [maxDgramSize] at hn
  rw [← BitVec.toNat_inj, BitVec.toNat_add, BitVec.toNat_add, BitVec.toNat_setWidth,
    BitVec.toNat_ofNat, BitVec.toNat_ofNat, idContentOffset]
  omega

/-- **What `recv_packet` returns.** -/
theorem recvPacket_spec {s : InputCDR} (h : Fresh s) : ∃ a t, recvPacket s = some (.ok a, t) ∧
    (Accepted s.data → a = some (received s.data)) ∧ (¬Accepted s.data → a = none) := by
  have hmax := h.length_le
  rw [recvPacket, get_bind_apply, ite_run]
  by_cases hlong : s.data.length < minHeaderSize
  · rw [if_pos hlong]
    exact ⟨none, s, rfl, fun ha => absurd ha.long (Nat.not_le.mpr hlong), fun _ => rfl⟩
  rw [if_neg hlong]
  have hlong' : 24 ≤ s.data.length := Nat.not_lt.mp hlong
  have h₀ : Reading s.data s.base s.doByteSwap 0 s :=
    ⟨rfl, rfl, rfl, h.start, h.aligned, Nat.zero_le _⟩
  -- what is tested before the lengths
  obtain ⟨s₁, hread₁, h₁⟩ := h₀.magic h.good (by omega)
  rw [bind_of_ok hread₁, ite_run]
  by_cases hmagic : ofArrayImage 1 4 (fieldAt s.data 0 4) ≠ miopMagic
  · rw [if_pos hmagic]
    exact ⟨none, s₁, rfl, fun ha => absurd ha.magic hmagic, fun _ => rfl⟩
  obtain ⟨s₂, hread₂, h₂⟩ := h₁.octet (by omega)
  rw [if_neg hmagic, bind_of_ok hread₂, ite_run]
  by_cases hversion : (ofImage 1 (fieldAt s.data (0 + 4) 1) : Octet) ≠ 0x10
  · rw [if_pos hversion]
    exact ⟨none, s₂, rfl, fun ha => absurd ha.version hversion, fun _ => rfl⟩
  obtain ⟨s₃, hread₃, h₃⟩ := h₂.octet (by omega)
  rw [if_neg hversion, bind_of_ok hread₃, modify_bind_apply]
  -- the words, in the byte order of the flags
  have h₄ : Reading s.data s.base ((ofImage 1 (fieldAt s.data 5 1) : Octet) &&& 0x01 ≠ 1) 6
      (resetByteOrder ((ofImage 1 (fieldAt s.data 5 1) : Octet) &&& 0x01) s₃) :=
    ⟨h₃.data_eq, h₃.base_eq, rfl, h₃.rdPtr, h₃.aligned, h₃.le⟩
  obtain ⟨s₅, hread₅, h₅⟩ := h₄.ushort (by decide) (by omega)
  obtain ⟨s₆, hread₆, h₆⟩ := h₅.ulong (by decide) (by omega)
  obtain ⟨s₇, hread₇, h₇⟩ := h₆.ulong (by decide) (by omega)
  obtain ⟨s₈, hread₈, h₈⟩ := h₇.ulong (by decide) (by omega)
  simp only [decide_eq_true_eq] at hread₅ hread₆ hread₇ hread₈
  rw [bind_of_ok hread₅, bind_of_ok hread₆, bind_of_ok hread₇, bind_of_ok hread₈, ite_run]
  have hlengths := lengths_iff (Header.of s.data).idLength (Header.of s.data).packetLength hmax
  change ∃ a t, (if maxIdLength < (Header.of s.data).idLength ∨ BitVec.ofNat 32 idContentOffset +
    (Header.of s.data).idLength + (Header.of s.data).packetLength.setWidth 32 ≠
      BitVec.ofNat 32 s.data.length then _ else _) = _ ∧ _
  by_cases hbad : maxIdLength < (Header.of s.data).idLength ∨ BitVec.ofNat 32 idContentOffset +
    (Header.of s.data).idLength + (Header.of s.data).packetLength.setWidth 32 ≠
      BitVec.ofNat 32 s.data.length
  · rw [if_pos hbad]
    exact ⟨none, s₈, rfl, fun ha => absurd hbad (hlengths.mpr ⟨ha.id_le, ha.length_eq⟩),
      fun _ => rfl⟩
  obtain ⟨hid, hlength⟩ := hlengths.mp hbad
  rw [if_neg hbad, ite_run]
  by_cases hpadded : s.data.length < alignUp (idContentOffset + (Header.of s.data).idLength.toNat) 8
  · refine ⟨none, s₈, if_pos hpadded, fun ha => ?_, fun _ => rfl⟩
    exact absurd ha.padded (Nat.not_le.mpr hpadded)
  · -- the id lies in front of the payload
    have hload : load (s.base + idContentOffset) (Header.of s.data).idLength.toNat s₈ = _ :=
      load_eq (by rw [h₈.base_eq]; exact Nat.le_add_right _ _) (by rw [h₈.wrPtr_eq]; omega)
    have hbytes : s₈.bytesAt (s.base + idContentOffset) (Header.of s.data).idLength.toNat =
        fieldAt s.data idContentOffset (Header.of s.data).idLength.toNat := by
      rw [bytesAt, h₈.base_eq, h₈.data_eq, Nat.add_sub_cancel_left, fieldAt]
    rw [hbytes] at hload
    refine ⟨some (received s.data), s₈, (if_neg hpadded).trans (bind_of_ok hload), fun _ => rfl,
      fun hnot => absurd ?_ hnot⟩
    exact ⟨hlong', not_not.mp hmagic, not_not.mp hversion, hid, hlength, Nat.not_lt.mp hpadded⟩

/-! ### The payload -/

/-- **The payload lies within the datagram**: the call returns, without a load from outside, and the
bytes from the place that is returned on have been received. -/
def Inside (s : InputCDR) : Prop :=
  ∃ a t, recvPacket s = some (.ok a, t) ∧
    ∀ r, a = some r → r.start + r.packetLength.toNat ≤ s.data.length

/-- **A datagram that a sender has built** is accepted, and what is returned is its payload. -/
def AcceptsOwn (s : InputCDR) : Prop :=
  ∀ (id : UniqueId) (payload packets k : ℕ) (d : Datagram), d.Right payload packets k →
    s.data = d.image id → ∃ r t, recvPacket s = some (.ok (some r), t) ∧
      r.packetLength.toNat = d.payload.length ∧
      fieldAt s.data r.start r.packetLength.toNat = d.payload ∧ r.packetNumber.toNat = k ∧
      r.stopPacket = d.stop

/-- **A datagram whose payload is where it is looked for**, if it is accepted: the id ends at a
multiple of 8, or there is no payload. -/
def Unpadded (data : List UInt8) : Prop :=
  Accepted data → (Header.of data).idLength.toNat % 8 = 4 ∨ (Header.of data).packetLength = 0

theorem inside_iff {s : InputCDR} (h : Fresh s) : Inside s ↔ Unpadded s.data := by
  obtain ⟨a, t, hrecv, hyes, hno⟩ := recvPacket_spec h
  have hle := le_alignUp (show 0 < 8 by norm_num)
    (idContentOffset + (Header.of s.data).idLength.toNat)
  have hdvd := dvd_alignUp (idContentOffset + (Header.of s.data).idLength.toNat) 8
  constructor
  · rintro ⟨a', t', hrecv', hinside⟩ hacc
    cases hrecv.symm.trans hrecv'
    have hend : alignUp (idContentOffset + (Header.of s.data).idLength.toNat) 8 +
        (Header.of s.data).packetLength.toNat ≤ s.data.length := hinside _ (hyes hacc)
    have hlength := hacc.length_eq
    refine Or.inl ?_
    have heq : alignUp (idContentOffset + (Header.of s.data).idLength.toNat) 8 =
        idContentOffset + (Header.of s.data).idLength.toNat := by omega
    rw [heq, idContentOffset] at hdvd
    omega
  · intro hunpadded
    refine ⟨a, t, hrecv, fun r hr => ?_⟩
    by_cases hacc : Accepted s.data
    · cases hr.symm.trans (hyes hacc)
      show alignUp (idContentOffset + (Header.of s.data).idLength.toNat) 8 +
        (Header.of s.data).packetLength.toNat ≤ s.data.length
      rcases hunpadded hacc with hmod | hzero
      · rw [alignUp_of_dvd (by norm_num) (by rw [idContentOffset]; omega), hacc.length_eq]
      · rw [hzero]
        exact hacc.padded
    · cases hr.symm.trans (hno hacc)

/-- A field that is written behind some bytes. -/
theorem fieldAt_append {data mid post : List UInt8} (pre : List UInt8)
    (h : data = pre ++ (mid ++ post)) {k n : ℕ} (hk : pre.length = k) (hn : mid.length = n) : fieldAt data k n = mid := by
  rw [fieldAt, h, ← hk, List.drop_left, ← hn, List.take_left]

/-- **The header of a datagram that a sender has built.** -/
theorem header_image (id : UniqueId) (d : Datagram) : Header.of (d.image id) =
    ⟨miopMagic, 0x10, if d.stop then 0x03 else 0x01, d.packetLength, d.packetNumber, 12⟩ := by
  have hmagic : fieldAt (d.image id) 0 4 = [0x4D, 0x49, 0x4F, 0x50] := rfl
  have hversion : fieldAt (d.image id) 4 1 = [0x10] := rfl
  have hflags : fieldAt (d.image id) 5 1 = [if d.stop then 0x03 else 0x01] := rfl
  have hswap : ¬((ofImage 1 (fieldAt (d.image id) 5 1) : Octet) &&& 0x01 ≠ 1) := by
    rw [hflags]
    cases d.stop <;> decide
  have hword {k n : ℕ} {bytes : List UInt8} (h : fieldAt (d.image id) k n = bytes) :
      Header.wordAt (d.image id) k n = bytes := (if_neg hswap).trans h
  have hlength : fieldAt (d.image id) 6 2 = ByteImage.image 2 d.packetLength :=
    fieldAt_append [0x4D, 0x49, 0x4F, 0x50, 0x10, if d.stop then 0x03 else 0x01]
      (by rw [Datagram.image, header]; simp only [List.append_assoc]; rfl) rfl (length_image _)
  have hnumber : fieldAt (d.image id) 8 4 = ByteImage.image 4 d.packetNumber :=
    fieldAt_append ([0x4D, 0x49, 0x4F, 0x50, 0x10, if d.stop then 0x03 else 0x01] ++
      ByteImage.image 2 d.packetLength)
      (by rw [Datagram.image, header]; simp only [List.append_assoc]; rfl) rfl (length_image _)
  have hid : fieldAt (d.image id) 16 4 = ByteImage.image 4 (12 : ULong) :=
    fieldAt_append ([0x4D, 0x49, 0x4F, 0x50, 0x10, if d.stop then 0x03 else 0x01] ++
      ByteImage.image 2 d.packetLength ++ ByteImage.image 4 d.packetNumber ++
      ByteImage.image 4 d.packets)
      (by rw [Datagram.image, header]; simp only [List.append_assoc]; rfl) rfl (length_image _)
  rw [Header.of, hmagic, hversion, hflags, hword hlength, hword hnumber, hword hid,
    ofImage_image, ofImage_image, ofImage_image]
  cases d.stop <;> rfl

/-- **Its payload** is behind 32 bytes. -/
theorem payload_image (id : UniqueId) (d : Datagram) :
    fieldAt (d.image id) headerSize d.payload.length = d.payload := by
  refine @fieldAt_append _ _ [] (header (if d.stop then 0x03 else 0x01) d.packetLength d.packetNumber
    d.packets id) (by rw [List.append_nil]; rfl) _ _ ?_ rfl
  rw [header]
  simp [id.length_eq, headerSize]

theorem length_image_datagram (id : UniqueId) (d : Datagram) :
    (d.image id).length = headerSize + d.payload.length := by
  rw [Datagram.image, header]
  simp [id.length_eq, headerSize]
  omega

theorem acceptsOwn {s : InputCDR} (h : Fresh s) : AcceptsOwn s := by
  intro id payload packets k d hd hdata
  obtain ⟨a, t, hrecv, hyes, -⟩ := recvPacket_spec h
  have hheader := header_image id d
  have hlength := length_image_datagram id d
  rw [← hdata] at hheader hlength
  have hstart : alignUp (idContentOffset + (Header.of s.data).idLength.toNat) 8 = headerSize := by
    rw [hheader]
    show alignUp (20 + 12) 8 = 32
    decide
  rw [headerSize] at hlength hstart
  have hacc : Accepted s.data := by
    refine ⟨?_, ?_, ?_, ?_, ?_, ?_⟩
    · rw [minHeaderSize, hlength]
      omega
    · rw [hheader]
    · rw [hheader]
    · rw [hheader]
      exact show (12 : ULong) ≤ maxIdLength by decide
    · rw [hheader, hlength]
      show 20 + 12 + d.packetLength.toNat = _
      rw [hd.length_eq]
    · rw [hstart, hlength]
      exact Nat.le_add_right _ _
  rw [hyes hacc] at hrecv
  have hlen : (received s.data).packetLength.toNat = d.payload.length := by
    rw [received, hheader]
    exact hd.length_eq
  refine ⟨_, t, hrecv, hlen, ?_, ?_, ?_⟩
  · rw [hlen]
    have hpayload := payload_image id d
    rw [← hdata, headerSize, ← hstart] at hpayload
    exact hpayload
  · rw [received, hheader]
    exact hd.number
  · have hflags : (Header.of s.data).flags = if d.stop then 0x03 else 0x01 := by rw [hheader]
    rw [received, hflags]
    cases d.stop <;> rfl

/-- **The payload of a datagram lies within what was received**, and the datagrams of a sender are
accepted, exactly if there is no padding behind the id. -/
theorem inside_acceptsOwn_iff {s : InputCDR} (h : Fresh s) :
    Inside s ∧ AcceptsOwn s ↔ Unpadded s.data :=
  (and_iff_left (acceptsOwn h)).trans (inside_iff h)

/-- A datagram of 28 bytes: an empty id, and eight bytes of payload right behind the header. -/
def emptyId : InputCDR where
  base := 0
  data := [0x4D, 0x49, 0x4F, 0x50, 0x10, 0x03, 8, 0, 0, 0, 0, 0, 1, 0, 0, 0, 0, 0, 0, 0] ++
    List.replicate 8 65
  rdPtr := 0
  doByteSwap := false
  goodBit := true
  majorVersion := 1
  minorVersion := 2
  fits := by decide

theorem fresh_emptyId : Fresh emptyId := ⟨rfl, by decide, rfl, by decide⟩

theorem inside_acceptsOwn_iff_emptyId :
    Inside emptyId ∧ AcceptsOwn emptyId ↔ Unpadded emptyId.data :=
  inside_acceptsOwn_iff fresh_emptyId

/-- Its payload is looked for four bytes further on, and so beyond the end. -/
theorem not_inside_emptyId : ¬(Inside emptyId ∧ AcceptsOwn emptyId) := by
  rintro ⟨hinside, -⟩
  have hacc : Accepted emptyId.data :=
    ⟨by decide, by decide, by decide, by decide, by decide, by decide⟩
  rcases (inside_iff fresh_emptyId).mp hinside hacc with hmod | hzero
  · exact absurd hmod (by decide)
  · exact absurd hzero (by decide)

end AceTao.Miop
