import AceTao.Cdr.Strings
import AceTao.RMCast.CodecSpec

/-!
# Decoding a datagram

`Link::recv` peeks at the length word of a datagram, drops the datagram unless this is its length
and no more than a packet, and reads profiles until no header is left. Nothing else makes it drop a
datagram: no constructor says whether its reads have failed. Where a number could not be read, a
`NAK` or an `NRTM` takes the last one that was, and a serial number, a part or data are left without
a value. The sizes in the headers are not compared with the datagram, and a `NAK` subtracts the six
bytes of its address from a size that may be smaller. The program is aborted for an identifier that
is not known.

So a datagram is decoded as it should be (`Link.Right`) exactly if it is `WellFormed`: a walk over
its headers finds only known identifiers, with sizes that cover the fixed part of the profile and
lie in the datagram, as do the fields that are read (`Link.recv_right_iff`).
-/

namespace AceTao.RMCast

open AlignUp Program ByteImage Cdr InputCDR

/-! ### Receiving -/

namespace Link

/-- The buffer of `recv`. -/
structure Buffer where
  base : ℕ
  aligned : 8 ∣ base
  fits : base + 2 ^ 16 ≤ addressLimit

/-- A stream over what is received of a datagram, at most so many bytes. -/
def Buffer.stream (b : Buffer) (datagram : List UInt8) (n : U16) : InputCDR where
  base := b.base
  data := datagram.take n.toNat
  rdPtr := b.base
  doByteSwap := false
  goodBit := true
  majorVersion := 1
  minorVersion := 2
  fits := by
    have hfits := b.fits
    have hlt := n.isLt
    rw [List.length_take]
    omega

/-- **What becomes of a datagram.** -/
inductive Outcome
  | dropped
  | handedUp (m : Message)

variable (b : Buffer) (maxPacketSize : U16) (self source : Address) (datagram : List UInt8)

/-- **`recv`** for a datagram. There is no outcome if the program is aborted, or if a variable
without a value is handed up. -/
def recv : Option Outcome :=
  let peeked := b.stream datagram 4
  if peeked.data.length ≠ 4 ∨ source = self then some .dropped
  else
    match readUlong peeked with
    | some (.ok msgSize, _) =>
      if msgSize ≤ 4 ∨ maxPacketSize.setWidth 32 < msgSize then some .dropped
      else
        let received := b.stream datagram maxPacketSize
        if msgSize.toNat ≠ received.data.length then some .dropped
        else
          match readMessage source self received with
          | some (.ok m, _) => some (.handedUp m)
          | _ => none
    | _ => none

end Link

/-! ### The profiles of a datagram -/

/-- The word of so many bytes at a place. -/
def wordAt (data : List UInt8) (size k : ℕ) : BitVec (8 * size) :=
  ofImage size ((data.drop k).take size)

/-- The numbers that lie one behind the other from a place on. -/
def snsAt (data : List UInt8) : ℕ → ℕ → List U64
  | 0, _ => []
  | n + 1, k => wordAt data 8 (alignUp k 8) :: snsAt data n (SizeCDR.write8 k)

/-- The entries that lie one behind the other from a place on, each address once. -/
def blocksAt (data : List UInt8) : ℕ → ℕ → List (Address × U64) → List (Address × U64)
  | 0, _, map => map
  | n + 1, k, map =>
    let address : Address := ⟨wordAt data 2 (alignUp (SizeCDR.write4 (SizeCDR.write8 k)) 2),
      wordAt data 4 (alignUp (SizeCDR.write8 k) 4)⟩
    blocksAt data n (SizeCDR.write2 (SizeCDR.write4 (SizeCDR.write8 k)))
      (bindBlock map address (wordAt data 8 (alignUp k 8)))

/-- **The body of a profile** with an identifier and a size in a datagram, from a place on: the size
covers the fixed part, and the fields are the values that lie one behind the other up to another
place. -/
inductive Held (data : List UInt8) (size : U16) (k : ℕ) : U16 → Profile → ℕ → Prop
  | data : Held data size k 0x0003 (.data (.new ((data.drop k).take size.toNat) 0)) (k + size.toNat)
  | sn (h : 8 ≤ size.toNat) :
    Held data size k 0x0004 (.sn (wordAt data 8 (alignUp k 8))) (SizeCDR.write8 k)
  | nak (h : 6 ≤ size.toNat) :
    Held data size k 0x0005
      (.nak ⟨wordAt data 2 (alignUp (SizeCDR.write4 k) 2), wordAt data 4 (alignUp k 4)⟩
        (snsAt data ((size.toNat - 6) / 8) (SizeCDR.write2 (SizeCDR.write4 k))))
      (SizeCDR.write8^[(size.toNat - 6) / 8] (SizeCDR.write2 (SizeCDR.write4 k)))
  | nrtm :
    Held data size k 0x0006 (.nrtm (blocksAt data (size.toNat / 14) k []))
      ((fun k => SizeCDR.write2 (SizeCDR.write4 (SizeCDR.write8 k)))^[size.toNat / 14] k)
  | noData : Held data size k 0x0007 .noData k
  | part (h : 16 ≤ size.toNat) :
    Held data size k 0x0008
      (.part ⟨wordAt data 4 (alignUp k 4), wordAt data 4 (alignUp (SizeCDR.write4 k) 4),
        wordAt data 8 (alignUp (SizeCDR.write4 (SizeCDR.write4 k)) 8)⟩)
      (SizeCDR.write8 (SizeCDR.write4 (SizeCDR.write4 k)))

/-- **The profiles of a datagram** from a place on: each has a header and a body, and both the bytes
that its size declares and its fields lie in the datagram. -/
inductive Decodes (data : List UInt8) : ℕ → List Profile → Prop
  | done {k : ℕ} (h : data.length < SizeCDR.write2 (SizeCDR.write2 k)) : Decodes data k []
  | profile {k next : ℕ} {p : Profile} {ps : List Profile}
    (hheader : SizeCDR.write2 (SizeCDR.write2 k) ≤ data.length)
    (hbody : Held data (wordAt data 2 (alignUp (SizeCDR.write2 k) 2))
      (SizeCDR.write2 (SizeCDR.write2 k)) (wordAt data 2 (alignUp k 2)) p next)
    (hsize : SizeCDR.write2 (SizeCDR.write2 k) +
      (wordAt data 2 (alignUp (SizeCDR.write2 k) 2)).toNat ≤ data.length)
    (hnext : next ≤ data.length) (hrest : Decodes data next ps) : Decodes data k (p :: ps)

/-- The number of elements of a `NAK` or an `NRTM`. -/
def Profile.elements : Profile → ℕ
  | .nak _ sns => sns.length
  | .nrtm map => map.length
  | _ => 0

/-- **A datagram is decoded as it should be**: it is dropped, or the message that is handed up has
just the profiles that lie in it, and no list is longer than what was received. -/
def Link.Right (b : Link.Buffer) (maxPacketSize : U16) (self source : Address)
    (datagram : List UInt8) : Prop :=
  ∃ outcome, Link.recv b maxPacketSize self source datagram = some outcome ∧
    ∀ m, outcome = .handedUp m → ∃ ps, Decodes (datagram.take maxPacketSize.toNat) 4 ps ∧
      m = ps.foldl Message.add (Message.empty.linked source self) ∧
      ∀ p ∈ ps, p.elements ≤ (datagram.take maxPacketSize.toNat).length

/-! ### The walk over the headers -/

/-- The place behind a body, if the identifier is known and the size covers the fixed part. -/
def bodyEnd (id size : U16) (k : ℕ) : Option ℕ :=
  if id = 0x0003 then some (k + size.toNat)
  else if id = 0x0004 then if 8 ≤ size.toNat then some (SizeCDR.write8 k) else none
  else if id = 0x0005 then
    if 6 ≤ size.toNat then
      some (SizeCDR.write8^[(size.toNat - 6) / 8] (SizeCDR.write2 (SizeCDR.write4 k)))
    else none
  else if id = 0x0006 then
    some ((fun k => SizeCDR.write2 (SizeCDR.write4 (SizeCDR.write8 k)))^[size.toNat / 14] k)
  else if id = 0x0007 then some k
  else if id = 0x0008 then
    if 16 ≤ size.toNat then some (SizeCDR.write8 (SizeCDR.write4 (SizeCDR.write4 k))) else none
  else none

/-- The walk over at most so many headers, from a place on. -/
def headersFit (data : List UInt8) : ℕ → ℕ → Bool
  | 0, _ => false
  | tests + 1, k =>
    let start := SizeCDR.write2 (SizeCDR.write2 k)
    let size : U16 := wordAt data 2 (alignUp (SizeCDR.write2 k) 2)
    if data.length < start then true
    else
      match bodyEnd (wordAt data 2 (alignUp k 2)) size start with
      | none => false
      | some next =>
        start + size.toNat ≤ data.length && next ≤ data.length && headersFit data tests next

/-- **A datagram is well-formed**: all headers are known, and fit. -/
def WellFormed (data : List UInt8) : Prop := headersFit data (data.length + 1) 4

instance (data : List UInt8) : Decidable (WellFormed data) :=
  inferInstanceAs (Decidable (headersFit data (data.length + 1) 4 = true))

/-- **A datagram is looked into**: it is from another host, and its length word is the length of
what was received. -/
structure Link.Accepted (maxPacketSize : U16) (host source : Address) (datagram : List UInt8) :
    Prop where
  source_ne : source ≠ host
  size_gt : 4 < (wordAt datagram 4 0).toNat
  size_le : (wordAt datagram 4 0).toNat ≤ maxPacketSize.toNat
  size_eq : (wordAt datagram 4 0).toNat = (datagram.take maxPacketSize.toNat).length

/-! ### Reading a datagram -/

/-- **A stream at a place** of a datagram, in a buffer that is aligned. -/
structure Over (data : List UInt8) (k : ℕ) (s : InputCDR) : Prop where
  data_eq : s.data = data
  noSwap : s.doByteSwap = false
  good : s.goodBit = true
  aligned : 8 ∣ s.base
  rdPtr : s.rdPtr = s.base + k
  le : k ≤ data.length

/-- **An operation reads** a value from one place to another. -/
def ReadsAt {α : Type} (data : List UInt8) (m : Reader α) (x : α) (k next : ℕ) : Prop :=
  ∀ s, Over data k s → ∃ t, m s = some (.ok x, t) ∧ Over data next t

section

variable {data : List UInt8} {k next last : ℕ}

namespace Over

variable {s : InputCDR}

theorem wrPtr_eq (h : Over data k s) : s.wrPtr = s.base + data.length := by
  rw [wrPtr, h.data_eq]

theorem inBounds (h : Over data k s) : InBounds s := by
  have hle := h.le
  refine ⟨?_, ?_⟩
  · rw [h.rdPtr]
    exact Nat.le_add_right _ _
  · rw [h.rdPtr, h.wrPtr_eq]
    omega

/-- The place behind what is read. -/
theorem advance (h : Over data k s) {ptr : ℕ} (hptr : ptr = s.base + next)
    (hle : next ≤ data.length) : Over data next (s.setRdPtr ptr) := by
  have hend : ptr ≤ s.wrPtr := by
    rw [hptr, h.wrPtr_eq]
    omega
  exact ⟨h.data_eq, h.noSwap, h.good, h.aligned, (setRdPtr_rdPtr_of_le hend).trans hptr, hle⟩

theorem valueEnd_eq (h : Over data k s) {size : ℕ} (ha : IsAlign size) :
    alignUp s.rdPtr size = s.base + alignUp k size ∧
      s.valueEnd size size = s.base + SizeCDR.adjust size size k := by
  have halign : alignUp s.rdPtr size = s.base + alignUp k size := by
    rw [h.rdPtr, alignUp_add ha.pos (ha.dvd.trans h.aligned)]
  exact ⟨halign, by rw [valueEnd, halign, SizeCDR.adjust, Nat.add_assoc]⟩

/-- **A word that is there.** -/
theorem word (h : Over data k s) {size : ℕ} (ha : IsAlign size)
    (hle : SizeCDR.adjust size size k ≤ data.length) :
    ∃ t, readWord size size s = some (.ok (wordAt data size (alignUp k size)), t) ∧
      Over data (SizeCDR.adjust size size k) t := by
  obtain ⟨halign, hend⟩ := h.valueEnd_eq ha
  have hread : readWord size size s = _ := readWord_eq h.inBounds ha (ha.le.trans (by norm_num))
  rw [if_pos (by rw [hend, h.wrPtr_eq]; omega), native, h.noSwap, if_neg (by decide), bytesAt,
    halign, h.data_eq, Nat.add_sub_cancel_left] at hread
  exact ⟨_, hread, h.advance hend hle⟩

/-- A word that is not there. -/
theorem word_of_not_le (h : Over data k s) {size : ℕ} (ha : IsAlign size)
    (hle : ¬SizeCDR.adjust size size k ≤ data.length) :
    readWord size size s = some (.error .bounds, s.setGoodBit false) := by
  obtain ⟨-, hend⟩ := h.valueEnd_eq ha
  have hread : readWord size size s = _ := readWord_eq h.inBounds ha (ha.le.trans (by norm_num))
  rwa [if_neg (by rw [hend, h.wrPtr_eq]; omega)] at hread

end Over

namespace ReadsAt

variable {α β : Type} {m : Reader α} {f : α → Reader β} {x : α} {y : β}

theorem bind (hm : ReadsAt data m x k next) (hf : ReadsAt data (f x) y next last) :
    ReadsAt data (m >>= f) y k last := by
  intro s hs
  obtain ⟨t, hread, ht⟩ := hm s hs
  obtain ⟨u, hread', hu⟩ := hf t ht
  exact ⟨u, (bind_of_ok hread).trans hread', hu⟩

theorem pure (x : α) : ReadsAt data (Pure.pure x) x k k := fun s hs => ⟨s, rfl, hs⟩

theorem assign (hm : ReadsAt data m x k next) (old : α) :
    ReadsAt data (RMCast.assign old m) x k next := by
  intro s hs
  obtain ⟨t, hread, ht⟩ := hm s hs
  exact ⟨t, handle_of_ok hread, ht⟩

theorem define (hm : ReadsAt data m x k next) : ReadsAt data (RMCast.define m) x k next := by
  intro s hs
  obtain ⟨t, hread, ht⟩ := hm s hs
  exact ⟨t, handle_of_ok hread, ht⟩

theorem extract (hm : ReadsAt data m x k next) : ReadsAt data (RMCast.extract m) x k next := by
  refine hm.bind fun s hs => ⟨s, ?_, hs⟩
  rw [returnGoodBit, get_bind_apply, if_pos hs.good]
  rfl

theorem ushort (hle : SizeCDR.write2 k ≤ data.length) :
    ReadsAt data readUshort (wordAt data 2 (alignUp k 2)) k (SizeCDR.write2 k) :=
  fun _ hs => hs.word isAlign_two hle

theorem ulong (hle : SizeCDR.write4 k ≤ data.length) :
    ReadsAt data readUlong (wordAt data 4 (alignUp k 4)) k (SizeCDR.write4 k) :=
  fun _ hs => hs.word isAlign_four hle

theorem ulonglong (hle : SizeCDR.write8 k ≤ data.length) :
    ReadsAt data readUlonglong (wordAt data 8 (alignUp k 8)) k (SizeCDR.write8 k) :=
  fun _ hs => hs.word isAlign_eight hle

end ReadsAt

/-! ### Bodies -/

theorem le_adjust {size : ℕ} (hpos : 0 < size) : k + size ≤ SizeCDR.adjust size size k :=
  Nat.add_le_add_right (le_alignUp hpos k) size

theorem le_iterate {f : ℕ → ℕ} (hf : ∀ k, k ≤ f k) (n : ℕ) : k ≤ f^[n] k := by
  induction n with
  | zero => exact le_rfl
  | succ n ih =>
    rw [Function.iterate_succ_apply']
    exact ih.trans (hf _)

theorem le_write8 : k ≤ SizeCDR.write8 k :=
  (Nat.le_add_right k 8).trans (@le_adjust k 8 (by decide))

theorem le_block : k ≤ SizeCDR.write2 (SizeCDR.write4 (SizeCDR.write8 k)) := by
  have h8 : k + 8 ≤ SizeCDR.write8 k := le_adjust (by decide)
  have h4 : SizeCDR.write8 k + 4 ≤ SizeCDR.write4 (SizeCDR.write8 k) := le_adjust (by decide)
  have h2 : SizeCDR.write4 (SizeCDR.write8 k) + 2 ≤
    SizeCDR.write2 (SizeCDR.write4 (SizeCDR.write8 k)) := le_adjust (by decide)
  omega

theorem ReadsAt.sns (n : ℕ) (sn : U64) (hle : SizeCDR.write8^[n] k ≤ data.length) :
    ReadsAt data (readSns n sn) (snsAt data n k) k (SizeCDR.write8^[n] k) := by
  induction n generalizing k sn with
  | zero => exact ReadsAt.pure _
  | succ n ih =>
    rw [Function.iterate_succ_apply] at hle ⊢
    have hword : SizeCDR.write8 k ≤ data.length :=
      (le_iterate (fun _ => le_write8) n).trans hle
    exact ((ReadsAt.ulonglong hword).assign sn).bind ((ih _ hle).bind (ReadsAt.pure _))

theorem ReadsAt.blocks (n : ℕ) (address : Address) (sn : U64) (map : List (Address × U64))
    (hle : (fun k => SizeCDR.write2 (SizeCDR.write4 (SizeCDR.write8 k)))^[n] k ≤ data.length) :
    ReadsAt data (readBlocks n address sn map) (blocksAt data n k map) k
      ((fun k => SizeCDR.write2 (SizeCDR.write4 (SizeCDR.write8 k)))^[n] k) := by
  induction n generalizing k address sn map with
  | zero => exact ReadsAt.pure _
  | succ n ih =>
    rw [Function.iterate_succ_apply] at hle ⊢
    have hblock : SizeCDR.write2 (SizeCDR.write4 (SizeCDR.write8 k)) ≤ data.length :=
      (le_iterate (fun _ => le_block) n).trans hle
    have h2 : SizeCDR.write4 (SizeCDR.write8 k) + 2 ≤
      SizeCDR.write2 (SizeCDR.write4 (SizeCDR.write8 k)) := le_adjust (by decide)
    have h4 : SizeCDR.write8 k + 4 ≤ SizeCDR.write4 (SizeCDR.write8 k) := le_adjust (by decide)
    exact ((ReadsAt.ulonglong (by omega)).assign sn).bind
      (((ReadsAt.ulong (by omega)).assign address.ip).bind
        (((ReadsAt.ushort hblock).assign address.port).bind (ih _ _ _ hle)))

/-- Bytes as characters, and back. -/
theorem map_ofArrayImage (bytes : List UInt8) :
    (ofArrayImage 1 bytes.length bytes).map UInt8.ofBitVec = bytes := by
  induction bytes with
  | nil => rfl
  | cons b bytes ih =>
    have hone : UInt8.ofBitVec (ofImage 1 [b]) = b := by
      have himage := @image_ofImage 1 [b] rfl
      have hlt : (ofImage 1 [b]).toNat < 256 := (ofImage 1 [b]).isLt
      rw [image, leBytes] at himage
      refine Eq.trans (UInt8.toNat_inj.mp ?_) (List.cons.inj himage).1
      rw [UInt8.toNat_ofNat', Nat.mod_eq_of_lt hlt]
      rfl
    rw [List.length_cons, ofArrayImage, List.map_cons]
    exact congrArg₂ List.cons hone ih

theorem ReadsAt.bytes (size : U16) (hle : k + size.toNat ≤ data.length) :
    ReadsAt data (readProfile 0x0003 size) (.data (.new ((data.drop k).take size.toNat) 0)) k
      (k + size.toNat) := by
  rw [Profile.readProfile_data]
  by_cases hzero : size = 0
  · rw [if_pos hzero, hzero]
    exact ReadsAt.pure _
  · rw [if_neg hzero]
    have hlength : (size.setWidth 32).toNat = size.toNat := by
      have hlt := size.isLt
      rw [BitVec.toNat_setWidth]
      omega
    have hne : size.setWidth 32 ≠ 0 := by
      intro h
      refine hzero (BitVec.eq_of_toNat_eq ?_)
      rw [← hlength, h]
      rfl
    have htake : ((data.drop k).take size.toNat).length = size.toNat := by
      rw [List.length_take, List.length_drop]
      omega
    have hchars : ReadsAt data (readCharArray (Codeset.plain 4) (size.setWidth 32))
        (ofArrayImage 1 size.toNat ((data.drop k).take size.toNat)) k (k + size.toNat) := by
      intro s hs
      have hleft : (size.setWidth 32).toNat ≤ s.length := by
        rw [hlength, length_eq hs.inBounds, hs.rdPtr, hs.wrPtr_eq]
        omega
      have hread := readCharArray_eq hs.inBounds hleft 4
      rw [if_neg hne, flagged, if_pos hs.good, hlength, chars, bytesAt, hs.rdPtr, hs.data_eq,
        Nat.add_sub_cancel_left] at hread
      exact ⟨_, hread, hs.advance (Nat.add_assoc _ _ _) hle⟩
    have hmap := map_ofArrayImage ((data.drop k).take size.toNat)
    rw [htake] at hmap
    refine hchars.define.bind ?_
    rw [hmap]
    exact ReadsAt.pure _

/-- **A body that lies in the datagram** is read. -/
theorem Held.readsAt {id size : U16} {p : Profile} (h : Held data size k id p next)
    (hle : next ≤ data.length) : ReadsAt data (readProfile id size) p k next := by
  cases h with
  | data => exact ReadsAt.bytes size hle
  | sn hsize =>
    rw [Profile.readProfile_sn]
    exact (ReadsAt.ulonglong hle).define.bind (ReadsAt.pure _)
  | nak hsize =>
    have hcount : nakCount size = (size.toNat - 6) / 8 := by
      have hlt := size.isLt
      rw [nakCount, snSize_eq, addrSize_eq]
      omega
    have haddress : SizeCDR.write2 (SizeCDR.write4 k) ≤ data.length :=
      (le_iterate (fun _ => le_write8) _).trans hle
    have h2 : SizeCDR.write4 k + 2 ≤ SizeCDR.write2 (SizeCDR.write4 k) := le_adjust (by decide)
    rw [Profile.readProfile_nak, hcount]
    exact ((ReadsAt.ulong (by omega)).assign 0).bind (((ReadsAt.ushort haddress).assign 0).bind
      ((ReadsAt.sns _ 0 hle).bind (ReadsAt.pure _)))
  | nrtm =>
    rw [Profile.readProfile_nrtm, nrtmCount, blockSize_eq]
    exact (ReadsAt.blocks _ _ _ _ hle).bind (ReadsAt.pure _)
  | noData =>
    rw [Profile.readProfile_noData]
    exact ReadsAt.pure _
  | part hsize =>
    have h8 : SizeCDR.write4 (SizeCDR.write4 k) + 8 ≤
      SizeCDR.write8 (SizeCDR.write4 (SizeCDR.write4 k)) := le_adjust (by decide)
    have h4 : SizeCDR.write4 k + 4 ≤ SizeCDR.write4 (SizeCDR.write4 k) := le_adjust (by decide)
    rw [Profile.readProfile_part]
    exact (ReadsAt.ulong (by omega)).define.bind ((ReadsAt.ulong (by omega)).define.bind
      ((ReadsAt.ulonglong hle).define.bind (ReadsAt.pure _)))


/-- **What is held ends where the walk says.** -/
theorem Held.bodyEnd_eq {id size : U16} {p : Profile} (h : Held data size k id p next) :
    bodyEnd id size k = some next := by
  cases h with
  | data => rfl
  | sn hsize => exact if_pos hsize
  | nak hsize => exact if_pos hsize
  | nrtm => rfl
  | noData => rfl
  | part hsize => exact if_pos hsize

theorem exists_held (data : List UInt8) {id size : U16} (h : bodyEnd id size k = some next) :
    ∃ p, Held data size k id p next := by
  rw [bodyEnd] at h
  split_ifs at h with hdata hsn hsize hnak hsize hnrtm hnoData hpart hsize <;> cases h
  · subst hdata
    exact ⟨_, .data⟩
  · subst hsn
    exact ⟨_, .sn hsize⟩
  · subst hnak
    exact ⟨_, .nak hsize⟩
  · subst hnrtm
    exact ⟨_, .nrtm⟩
  · subst hnoData
    exact ⟨_, .noData⟩
  · subst hpart
    exact ⟨_, .part hsize⟩

/-- A body takes no negative number of bytes. -/
theorem Held.le {id size : U16} {p : Profile} (h : Held data size k id p next) : k ≤ next := by
  have h2 (k : ℕ) : k + 2 ≤ SizeCDR.write2 k := le_adjust (by decide)
  have h4 (k : ℕ) : k + 4 ≤ SizeCDR.write4 k := le_adjust (by decide)
  cases h with
  | data => exact Nat.le_add_right _ _
  | sn hsize => exact le_write8
  | nak hsize =>
    refine le_trans ?_ (le_iterate (fun _ => le_write8) _)
    have haddress := h2 (SizeCDR.write4 k)
    have hip := h4 k
    omega
  | nrtm => exact le_iterate (fun _ => le_block) _
  | noData => exact le_rfl
  | part hsize =>
    refine le_trans ?_ le_write8
    have hof := h4 (SizeCDR.write4 k)
    have hnum := h4 k
    omega

theorem length_snsAt (n k : ℕ) : (snsAt data n k).length = n := by
  induction n generalizing k with
  | zero => rfl
  | succ n ih => rw [snsAt, List.length_cons, ih]

theorem length_blocksAt_le (data : List UInt8) (n k : ℕ) (map : List (Address × U64)) :
    (blocksAt data n k map).length ≤ map.length + n := by
  induction n generalizing k map with
  | zero => exact le_rfl
  | succ n ih =>
    rw [blocksAt]
    refine (ih _ _).trans ?_
    have hbind (address : Address) (sn : U64) :
        (bindBlock map address sn).length ≤ map.length + 1 := by
      rw [bindBlock]
      split_ifs
      · exact Nat.le_succ _
      · rw [List.length_append]
        exact le_rfl
    have hle := hbind ⟨wordAt data 2 (alignUp (SizeCDR.write4 (SizeCDR.write8 k)) 2),
      wordAt data 4 (alignUp (SizeCDR.write8 k) 4)⟩ (wordAt data 8 (alignUp k 8))
    omega

/-- **The lists are no longer than their sizes.** -/
theorem Held.elements_le {id size : U16} {p : Profile} (h : Held data size k id p next) :
    p.elements ≤ size.toNat := by
  cases h with
  | nak hsize =>
    rw [Profile.elements, length_snsAt]
    omega
  | nrtm =>
    have hle := length_blocksAt_le data (size.toNat / 14) k []
    rw [Profile.elements]
    rw [List.length_nil] at hle
    omega
  | _ => exact Nat.zero_le _

theorem Decodes.elements_le {ps : List Profile} (h : Decodes data k ps) :
    ∀ p ∈ ps, p.elements ≤ data.length := by
  induction h with
  | done h => nofun
  | profile hheader hbody hsize hnext hrest ih =>
    refine List.forall_mem_cons.mpr ⟨?_, ih⟩
    have hle := hbody.elements_le
    omega

/-! ### The loop -/

theorem write2_lt : k < SizeCDR.write2 k := by
  have h2 : k + 2 ≤ SizeCDR.write2 k := le_adjust (by decide)
  omega

/-- **What is decoded is well-formed**: the walk comes to the end. -/
theorem Decodes.headersFit {ps : List Profile} (h : Decodes data k ps) {tests : ℕ}
    (htests : data.length < k + tests) (hpos : 0 < tests) : headersFit data tests k := by
  induction h generalizing tests with
  | done h =>
    obtain ⟨tests, rfl⟩ := Nat.exists_eq_succ_of_ne_zero (Nat.ne_of_gt hpos)
    exact if_pos h
  | @profile k next p ps hheader hbody hsize hnext hrest ih =>
    obtain ⟨tests, rfl⟩ := Nat.exists_eq_succ_of_ne_zero (Nat.ne_of_gt hpos)
    have hle := hbody.le
    have hlt : k < SizeCDR.write2 (SizeCDR.write2 k) := write2_lt.trans write2_lt
    have hrest' := ih (show data.length < next + tests by omega) (by omega)
    rw [RMCast.headersFit, if_neg (Nat.not_lt.mpr hheader), hbody.bodyEnd_eq]
    simp [hsize, hnext, hrest']

/-- The header of a profile that is there. -/
theorem readHeader_eq {s : InputCDR} (hs : Over data k s)
    (hle : SizeCDR.write2 (SizeCDR.write2 k) ≤ data.length) :
    ∃ t, readHeader s = some (.ok (wordAt data 2 (alignUp k 2),
        wordAt data 2 (alignUp (SizeCDR.write2 k) 2)), t) ∧
      Over data (SizeCDR.write2 (SizeCDR.write2 k)) t :=
  ((ReadsAt.ushort (write2_lt.le.trans hle)).extract.bind
    ((ReadsAt.ushort hle).extract.bind (f := fun size => Pure.pure (_, size))
      (ReadsAt.pure _))) s hs

theorem readHeader_of_lt {s : InputCDR} (hs : Over data k s)
    (hlt : data.length < SizeCDR.write2 (SizeCDR.write2 k)) :
    ∃ t, readHeader s = some (.error .bounds, t) := by
  by_cases hid : SizeCDR.write2 k ≤ data.length
  · obtain ⟨t, hread, ht⟩ := (ReadsAt.ushort hid).extract s hs
    have hfails := ht.word_of_not_le isAlign_two (Nat.not_le.mpr hlt)
    have hextract : RMCast.extract readUshort t = some (.error .bounds, t.setGoodBit false) :=
      bind_of_error hfails
    exact ⟨_, (bind_of_ok hread).trans (bind_of_error hextract)⟩
  · exact ⟨_, bind_of_error (bind_of_error (hs.word_of_not_le isAlign_two hid))⟩

/-- **The loop of `recv`** over a datagram whose headers fit. -/
theorem readProfiles_of_headersFit {tests : ℕ} (h : headersFit data tests k) (m : Message)
    {s : InputCDR} (hs : Over data k s) :
    ∃ ps t, readProfiles tests m s = some (.ok (ps.foldl Message.add m), t) ∧
      Decodes data k ps := by
  induction tests generalizing k m s with
  | zero => cases h
  | succ tests ih =>
    rw [RMCast.headersFit] at h
    by_cases hlt : data.length < SizeCDR.write2 (SizeCDR.write2 k)
    · obtain ⟨t, hheader⟩ := readHeader_of_lt hs hlt
      have hattempt : (attempt readHeader : Reader (Option (U16 × U16))) s =
          some (.ok none, t) := by
        rw [attempt, hheader]
        rfl
      refine ⟨[], t, ?_, .done hlt⟩
      rw [readProfiles, bind_of_ok hattempt]
      rfl
    · rw [if_neg hlt] at h
      have hle := Nat.not_lt.mp hlt
      obtain ⟨t, hheader, ht⟩ := readHeader_eq hs hle
      rcases hend : bodyEnd (wordAt data 2 (alignUp k 2))
        (wordAt data 2 (alignUp (SizeCDR.write2 k) 2)) (SizeCDR.write2 (SizeCDR.write2 k)) with
        _ | next
      · rw [hend] at h
        cases h
      · rw [hend] at h
        obtain ⟨hfits, hrest⟩ := Bool.and_eq_true_iff.mp h
        obtain ⟨hsize, hnext⟩ := Bool.and_eq_true_iff.mp hfits
        have hsize := of_decide_eq_true hsize
        have hnext := of_decide_eq_true hnext
        obtain ⟨p, hheld⟩ := exists_held data hend
        obtain ⟨u, hread, hu⟩ := hheld.readsAt hnext t ht
        obtain ⟨ps, v, hloop, hdecodes⟩ := ih hrest (m.add p) hu
        refine ⟨p :: ps, v, ?_, .profile hle hheld hsize hnext hdecodes⟩
        rw [readProfiles, bind_of_ok (attempt_of_ok hheader)]
        exact (bind_of_ok hread).trans hloop

end

/-! ### The outcome -/

namespace Link

variable {b : Buffer} {maxPacketSize : U16} {self source : Address} {datagram : List UInt8}

theorem over_stream (b : Buffer) (datagram : List UInt8) (n : U16) :
    Over (datagram.take n.toNat) 0 (b.stream datagram n) :=
  ⟨rfl, rfl, rfl, b.aligned, rfl, Nat.zero_le _⟩

/-- The length word is among the first bytes. -/
theorem wordAt_take {n : ℕ} (hn : 4 ≤ n) :
    wordAt (datagram.take n) 4 0 = wordAt datagram 4 0 := by
  rw [wordAt, wordAt, List.drop_zero, List.drop_zero, List.take_take, Nat.min_eq_left hn]

theorem readUlong_stream {n : U16} (hn : 4 ≤ n.toNat) (hlen : 4 ≤ datagram.length) :
    ∃ t, readUlong (b.stream datagram n) = some (.ok (wordAt datagram 4 0), t) ∧
      Over (datagram.take n.toNat) 4 t := by
  have hle : SizeCDR.write4 0 ≤ (datagram.take n.toNat).length := by
    rw [List.length_take]
    exact Nat.le_min.mpr ⟨hn, hlen⟩
  obtain ⟨t, hread, ht⟩ := ReadsAt.ulong hle _ (over_stream b datagram n)
  have hword : wordAt (datagram.take n.toNat) 4 0 = wordAt datagram 4 0 := wordAt_take hn
  exact ⟨t, hword ▸ hread, ht⟩

/-- A datagram that is not looked into is dropped. -/
theorem recv_of_not_accepted (h : ¬Accepted maxPacketSize self source datagram) :
    recv b maxPacketSize self source datagram = some .dropped := by
  have hfour : (4 : U16).toNat = 4 := rfl
  rw [recv]
  dsimp only
  by_cases hpeek : (b.stream datagram 4).data.length ≠ 4 ∨ source = self
  · rw [if_pos hpeek]
  rw [if_neg hpeek]
  obtain ⟨hpeeked, hsource⟩ := not_or.mp hpeek
  have hlen : 4 ≤ datagram.length := by
    have htake : (datagram.take 4).length = 4 := not_not.mp hpeeked
    rw [List.length_take] at htake
    omega
  obtain ⟨t, hread, -⟩ := readUlong_stream (b := b) hfour.ge hlen
  rw [hread]
  dsimp only
  by_cases hsize : wordAt datagram 4 0 ≤ 4 ∨ maxPacketSize.setWidth 32 < wordAt datagram 4 0
  · rw [if_pos hsize]
  rw [if_neg hsize]
  by_cases heq : (wordAt datagram 4 0).toNat ≠ (b.stream datagram maxPacketSize).data.length
  · rw [if_pos heq]
  · obtain ⟨hgt, hle⟩ := not_or.mp hsize
    have hmax : (maxPacketSize.setWidth 32).toNat = maxPacketSize.toNat := by
      have hlt := maxPacketSize.isLt
      rw [BitVec.toNat_setWidth]
      omega
    refine absurd ⟨hsource, ?_, ?_, not_not.mp heq⟩ h
    · exact BitVec.lt_def.mp (BitVec.not_le.mp hgt)
    · exact hmax ▸ BitVec.le_def.mp (BitVec.not_lt.mp hle)

/-- **What a datagram that is looked into is made into** is handed up. -/
theorem recv_of_accepted (h : Accepted maxPacketSize self source datagram) :
    ∃ t, Over (datagram.take maxPacketSize.toNat) 4 t ∧
      recv b maxPacketSize self source datagram =
        match readProfiles ((datagram.take maxPacketSize.toNat).length + 1)
          (Message.empty.linked source self) t with
        | some (.ok m, _) => some (.handedUp m)
        | _ => none := by
  have hgt := h.size_gt
  have hle := h.size_le
  have heq := h.size_eq
  have hlen : 4 < datagram.length := by
    rw [List.length_take] at heq
    omega
  have hpeek : ¬((b.stream datagram 4).data.length ≠ 4 ∨ source = self) := by
    refine not_or.mpr ⟨not_not.mpr ?_, h.source_ne⟩
    show (datagram.take 4).length = 4
    rw [List.length_take]
    omega
  have hmax : (maxPacketSize.setWidth 32).toNat = maxPacketSize.toNat := by
    have hlt := maxPacketSize.isLt
    rw [BitVec.toNat_setWidth]
    omega
  have hsize : ¬(wordAt datagram 4 0 ≤ 4 ∨ maxPacketSize.setWidth 32 < wordAt datagram 4 0) := by
    refine not_or.mpr ⟨BitVec.not_le.mpr (BitVec.lt_def.mpr hgt), BitVec.not_lt.mpr ?_⟩
    exact BitVec.le_def.mpr (hmax.symm ▸ hle)
  have hfour : (4 : U16).toNat = 4 := rfl
  obtain ⟨t₀, hread₀, -⟩ := readUlong_stream (b := b) hfour.ge hlen.le
  obtain ⟨t, hread, ht⟩ := readUlong_stream (b := b) (n := maxPacketSize) (by omega) hlen.le
  have hmessage : readMessage source self (b.stream datagram maxPacketSize) =
      readProfiles ((datagram.take maxPacketSize.toNat).length + 1)
        (Message.empty.linked source self) t := by
    have hdefine : define readUlong (b.stream datagram maxPacketSize) =
      some (.ok (wordAt datagram 4 0), t) := handle_of_ok hread
    rw [readMessage, bind_of_ok hdefine, get_bind_apply, ht.data_eq]
  have hlength : ¬(wordAt datagram 4 0).toNat ≠ (b.stream datagram maxPacketSize).data.length :=
    not_not.mpr heq
  refine ⟨t, ht, ?_⟩
  rw [recv]
  dsimp only
  rw [if_neg hpeek, hread₀]
  dsimp only
  rw [if_neg hsize, if_neg hlength, hmessage]

/-- **What is decoded as it should be is well-formed.** -/
theorem Right.wellFormed (h : Right b maxPacketSize self source datagram)
    (haccepted : Accepted maxPacketSize self source datagram) :
    WellFormed (datagram.take maxPacketSize.toNat) := by
  obtain ⟨outcome, hrecv, hright⟩ := h
  obtain ⟨t, ht, heq⟩ := recv_of_accepted (b := b) haccepted
  rw [heq] at hrecv
  have hle := ht.le
  rcases hloop : readProfiles ((datagram.take maxPacketSize.toNat).length + 1)
    (Message.empty.linked source self) t with _ | ⟨e | m, u⟩
  · rw [hloop] at hrecv
    cases hrecv
  · rw [hloop] at hrecv
    cases hrecv
  · rw [hloop] at hrecv
    cases hrecv
    obtain ⟨ps, hdecodes, -, -⟩ := hright m rfl
    exact hdecodes.headersFit (by omega) (Nat.succ_pos _)

/-- **A datagram is decoded as it should be** exactly if it is dropped for its length or its source,
or well-formed. -/
theorem recv_right_iff (b : Buffer) (maxPacketSize : U16) (self source : Address)
    (datagram : List UInt8) :
    Right b maxPacketSize self source datagram ↔
      (Accepted maxPacketSize self source datagram →
        WellFormed (datagram.take maxPacketSize.toNat)) := by
  refine ⟨Right.wellFormed, fun h => ?_⟩
  by_cases haccepted : Accepted maxPacketSize self source datagram
  · obtain ⟨t, ht, heq⟩ := recv_of_accepted (b := b) haccepted
    obtain ⟨ps, u, hloop, hdecodes⟩ :=
      readProfiles_of_headersFit (h haccepted) (Message.empty.linked source self) ht
    rw [hloop] at heq
    refine ⟨_, heq, fun m hm => ?_⟩
    cases hm
    exact ⟨ps, hdecodes, rfl, hdecodes.elements_le⟩
  · exact ⟨.dropped, recv_of_not_accepted haccepted, nofun⟩

/-- A `NAK` without the six bytes of its address is taken for one of about 2⁶¹ numbers. -/
theorem not_right_nak : ¬Right ⟨0, ⟨0, rfl⟩, by decide⟩ 1470 ⟨10000, 1⟩ ⟨10000, 2⟩
    [8, 0, 0, 0, 5, 0, 0, 0] := by
  intro h
  exact absurd (h.wellFormed ⟨by decide, by decide, by decide, by decide⟩) (by decide)

end Link

end AceTao.RMCast
