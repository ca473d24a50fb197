import AceTao.Cdr.InputSpec
import AceTao.Cdr.OutputSpec
import Mathlib.Data.List.Forall2

/-!
# Reading at a position of a stream

An `ACE_InputCDR` that is constructed from an `ACE_OutputCDR` has the bytes of its blocks in one
buffer, from an aligned address on (`InputCDR.ofOutputCDR`). The bytes of padding have whatever
values the memory had, which are given by a parameter `fill`.

A stream is `At` a position when the bytes read so far are those of a given `Wire`. What was `put`
at that position is read back from there, by the operation for a word or for an array
(`InputCDR.reads_readWord`, `InputCDR.reads_readWordArray`): the reader aligns the address and the
writer its position in the stream, and these agree because the buffer is aligned.
-/

namespace AceTao.Cdr

open Program ByteImage AlignUp

/-- **Memory holds a stream**; there is nothing to say about the values of padding. -/
def Holds (data : List UInt8) (w : Wire) : Prop :=
  List.Forall₂ (fun b x => ∀ y, x = some y → b = y) data w

/-- The bytes of a stream in memory, with given values for padding. -/
def fillIn (fill : ℕ → UInt8) (w : Wire) : List UInt8 := w.mapIdx fun i x => x.getD (fill i)

theorem holds_fillIn (fill : ℕ → UInt8) (w : Wire) : Holds (fillIn fill w) w := by
  induction w generalizing fill with
  | nil => exact .nil
  | cons x w ih =>
    rw [fillIn, List.mapIdx_cons]
    refine .cons ?_ (ih fun i => fill (i + 1))
    rintro y rfl
    rfl

theorem Holds.length_eq {data : List UInt8} {w : Wire} (h : Holds data w) :
    data.length = w.length := List.Forall₂.length_eq h

/-- The bytes that are stored in a stream are in memory. -/
theorem Holds.take_drop {data bytes : List UInt8} {w rest : Wire}
    (h : Holds data (w ++ bytes.map some ++ rest)) :
    (data.drop w.length).take bytes.length = bytes := by
  have hdrop := List.forall₂_take bytes.length (List.forall₂_drop w.length h)
  rw [List.append_assoc, List.drop_left, List.take_left' (List.length_map _),
    List.forall₂_map_right_iff] at hdrop
  have heq := hdrop.imp fun b y hy => hy y rfl
  rwa [List.forall₂_eq_eq_eq] at heq

/-! ### One buffer for all blocks -/

/-- Copy bytes behind those of a block, if there is room. -/
def Block.copy (b : Block) (bytes : List (Option UInt8)) : Block :=
  if b.maxSize < b.wrPtr + bytes.length then b else { b with contents := b.contents ++ bytes }

/-- The blocks of a stream are copied into a new one, which is aligned. -/
def OutputCDR.consolidated (base : ℕ) (s : OutputCDR) : Block :=
  s.blocks.foldl (fun start i => start.copy i.contents)
    ⟨base, s.totalLength + maxAlignment, s.totalLength + maxAlignment,
      alignBinary base maxAlignment - base, []⟩

theorem foldl_copy (bs : List Block) (b : Block)
    (h : b.wrPtr + (bs.map fun i => i.contents.length).sum ≤ b.maxSize) :
    bs.foldl (fun start i => start.copy i.contents) b =
      { b with contents := b.contents ++ bs.flatMap Block.contents } := by
  induction bs generalizing b with
  | nil => rw [List.foldl_nil, List.flatMap_nil, List.append_nil]
  | cons i bs ih =>
    rw [List.map_cons, List.sum_cons] at h
    have hcopy : b.copy i.contents = { b with contents := b.contents ++ i.contents } := by
      rw [Block.copy, if_neg (by omega)]
    have hnext : (b.copy i.contents).wrPtr + (bs.map fun i => i.contents.length).sum ≤
        (b.copy i.contents).maxSize := by
      rw [hcopy]
      dsimp only [Block.wrPtr] at h ⊢
      rw [List.length_append]
      omega
    rw [List.foldl_cons, ih _ hnext, hcopy, List.flatMap_cons, ← List.append_assoc]

/-- Every block fits. -/
theorem OutputCDR.consolidated_eq {base : ℕ} (hbase : base ≤ 2 ^ 63) (s : OutputCDR) :
    s.consolidated base = ⟨base, s.totalLength + maxAlignment, s.totalLength + maxAlignment,
      alignUp base 8 - base, s.wire⟩ := by
  have hlt := alignUp_lt (by decide : 0 < 8) base
  rw [consolidated, maxAlignment, alignBinary_eq isAlign_eight hbase]
  refine (foldl_copy _ _ ?_).trans rfl
  rw [Block.wrPtr, totalLength]
  dsimp only [List.length_nil]
  omega

/-- **The stream that is constructed from another one**, if its buffer is in the address space. -/
def InputCDR.ofOutputCDR (base : ℕ) (fill : ℕ → UInt8) (rhs : OutputCDR) : Option InputCDR :=
  let start := rhs.consolidated base
  let data := fillIn fill start.contents
  if h : base + start.rdPtr + data.length ≤ addressLimit then
    some {
      base := base + start.rdPtr
      data := data
      rdPtr := base + start.rdPtr
      doByteSwap := rhs.doByteSwap
      goodBit := true
      majorVersion := rhs.majorVersion
      minorVersion := rhs.minorVersion
      fits := h }
  else none

namespace InputCDR

/-! ### Positions -/

/-- The buffer begins with the bytes of a stream. -/
def Agrees (s : InputCDR) (w : Wire) : Prop := ∃ rest, Holds s.data (w ++ rest)

theorem Agrees.mono {s : InputCDR} {w w' : Wire} (h : Agrees s w') (hw : w <+: w') :
    Agrees s w := by
  obtain ⟨rest, hrest⟩ := h
  obtain ⟨more, rfl⟩ := hw
  exact ⟨more ++ rest, by rwa [← List.append_assoc]⟩

theorem Agrees.le {s : InputCDR} {w : Wire} (h : Agrees s w) : w.length ≤ s.data.length := by
  obtain ⟨rest, hrest⟩ := h
  rw [hrest.length_eq, List.length_append]
  exact Nat.le_add_right _ _

/-- **The stream is at a position**: the bytes read so far are those of `w`. -/
structure At (swap : Bool) (s : InputCDR) (w : Wire) : Prop where
  doByteSwap : s.doByteSwap = swap
  base : 8 ∣ s.base
  good : s.goodBit = true
  rdPtr : s.rdPtr = s.base + w.length
  agrees : Agrees s w

/-- What an extraction does not change. -/
structure SameBuffer (s t : InputCDR) : Prop where
  base : t.base = s.base
  data : t.data = s.data
  giop12 : t.giop12 = s.giop12

theorem SameBuffer.refl (s : InputCDR) : SameBuffer s s := ⟨rfl, rfl, rfl⟩

theorem SameBuffer.trans {s t u : InputCDR} (h : SameBuffer s t) (h' : SameBuffer t u) :
    SameBuffer s u :=
  ⟨h'.base.trans h.base, h'.data.trans h.data, h'.giop12.trans h.giop12⟩

theorem SameBuffer.agrees {s t : InputCDR} {w : Wire} (h : SameBuffer s t) (hw : Agrees s w) :
    Agrees t w := by
  rwa [Agrees, h.data]

/-- **An extraction reads** a value, up to the position behind `w`. -/
def Reads {α : Type} (swap : Bool) (m : Reader α) (x : α) (s : InputCDR) (w : Wire) : Prop :=
  ∃ t, m s = some (.ok x, t) ∧ SameBuffer s t ∧ At swap t w

variable {α β : Type} {m : Reader α} {f : α → Reader β} {x : α} {y : β} {swap : Bool} {s : InputCDR}
  {w w' : Wire} {size align : ℕ}

/-- **Sequencing.** -/
theorem Reads.bind (hm : Reads swap m x s w)
    (hf : ∀ t, SameBuffer s t → At swap t w → Reads swap (f x) y t w') :
    Reads swap (m >>= f) y s w' := by
  obtain ⟨t, heq, hsame, ht⟩ := hm
  obtain ⟨u, heq', hsame', hu⟩ := hf t hsame ht
  exact ⟨u, (bind_of_ok heq).trans heq', hsame.trans hsame', hu⟩

theorem reads_pure (h : At swap s w) (x : α) : Reads swap (pure x) x s w :=
  ⟨s, rfl, SameBuffer.refl s, h⟩

theorem reads_get_bind {f : InputCDR → Reader α} :
    Reads swap (Program.get >>= f) x s w ↔ Reads swap (f s) x s w := Iff.rfl

theorem Reads.orFail (h : Reads swap m x s w) : Reads swap (orFail m) x s w := by
  obtain ⟨t, heq, ht⟩ := h
  exact ⟨t, orFail_eq heq, ht⟩

theorem At.inBounds (h : At swap s w) : InBounds s := by
  have hle := h.agrees.le
  refine ⟨?_, ?_⟩
  · rw [h.rdPtr]
    exact Nat.le_add_right _ _
  · rw [h.rdPtr, wrPtr]
    exact Nat.add_le_add_left hle _

/-- The stream that is constructed is at its first byte. -/
theorem ofOutputCDR_spec {base : ℕ} (fill : ℕ → UInt8) {rhs : OutputCDR}
    (hfits : base + rhs.totalLength + maxAlignment ≤ addressLimit) :
    ∃ s, ofOutputCDR base fill rhs = some s ∧ At rhs.doByteSwap s [] ∧ Agrees s rhs.wire ∧
      s.giop12 = rhs.giop12 ∧ s.wrPtr = s.base + rhs.wire.length := by
  have hbase : base ≤ 2 ^ 63 := by
    rw [addressLimit] at hfits
    omega
  have hle := le_alignUp (by decide : 0 < 8) base
  have hlt := alignUp_lt (by decide : 0 < 8) base
  have hstart : base + (alignUp base 8 - base) = alignUp base 8 := by omega
  have hholds := holds_fillIn fill rhs.wire
  have htotal : rhs.totalLength = rhs.wire.length := by
    rw [OutputCDR.totalLength, OutputCDR.wire, List.length_flatMap]
  have hlimit : base + (alignUp base 8 - base) + (fillIn fill rhs.wire).length ≤ addressLimit := by
    rw [maxAlignment, htotal] at hfits
    rw [hholds.length_eq]
    omega
  rw [ofOutputCDR, rhs.consolidated_eq hbase]
  refine ⟨_, dif_pos hlimit, ⟨rfl, ?_, rfl, rfl, ⟨rhs.wire, hholds⟩⟩, ⟨[], ?_⟩, rfl, ?_⟩
  · dsimp only
    rw [hstart]
    exact dvd_alignUp base 8
  · rwa [List.append_nil]
  · rw [wrPtr, hholds.length_eq]

/-! ### What was put is read -/

theorem prefix_put (align : ℕ) (bytes : List UInt8) (w : Wire) : w <+: put align bytes w :=
  ⟨_, (List.append_assoc _ _ _).symm⟩

theorem prefix_putArray (swap : Bool) (xs : List (BitVec (8 * size))) (w : Wire) :
    w <+: putArray size swap align xs w := by
  rw [putArray]
  split_ifs
  · exact List.prefix_rfl
  · exact prefix_put ..

/-- The reader and the writer align a value in the same way. -/
theorem At.alignUp_rdPtr (h : At swap s w) (ha : IsAlign align) :
    alignUp s.rdPtr align = s.base + (w.length + pad w.length align) := by
  rw [h.rdPtr, alignUp_add ha.pos (ha.dvd.trans h.base), add_pad ha.pos]

theorem At.valueEnd_eq (h : At swap s w) (ha : IsAlign align) {bytes : List UInt8}
    (hsize : bytes.length = size) :
    s.valueEnd size align = s.base + (put align bytes w).length := by
  rw [valueEnd, h.alignUp_rdPtr ha, length_put ha.pos, add_pad ha.pos, hsize, Nat.add_assoc]

/-- **The bytes of a value** are in the buffer where the reader looks for them. -/
theorem At.bytesAt_eq (h : At swap s w) (ha : IsAlign align) {bytes : List UInt8}
    (hsize : bytes.length = size) (hput : Agrees s (put align bytes w)) :
    s.bytesAt (alignUp s.rdPtr align) size = bytes := by
  obtain ⟨rest, hrest⟩ := hput
  have htake := hrest.take_drop
  rw [List.length_append, List.length_replicate] at htake
  rw [bytesAt, h.alignUp_rdPtr ha, Nat.add_sub_cancel_left, ← hsize, htake]

theorem At.valueEnd_le (h : At swap s w) (ha : IsAlign align) {bytes : List UInt8}
    (hsize : bytes.length = size) (hput : Agrees s (put align bytes w)) :
    s.valueEnd size align ≤ s.wrPtr := by
  rw [h.valueEnd_eq ha hsize, wrPtr]
  exact Nat.add_le_add_left hput.le _

/-- The position behind a value. -/
theorem At.next (h : At swap s w) (ha : IsAlign align) {bytes : List UInt8}
    (hsize : bytes.length = size) (hput : Agrees s (put align bytes w)) :
    SameBuffer s (s.setRdPtr (s.valueEnd size align)) ∧
      At swap (s.setRdPtr (s.valueEnd size align)) (put align bytes w) := by
  refine ⟨⟨rfl, rfl, rfl⟩, h.doByteSwap, h.base, h.good, ?_, hput⟩
  rw [setRdPtr_rdPtr_of_le (h.valueEnd_le ha hsize hput), h.valueEnd_eq ha hsize, setRdPtr_base]

theorem native_wireImage (h : At swap s w) (x : BitVec (8 * size)) :
    s.native (wireImage size swap x) = image size x := by
  rw [native, wireImage, h.doByteSwap]
  split_ifs
  · exact List.reverse_reverse _
  · rfl

/-- **A word is read back.** -/
theorem reads_readWord (h : At swap s w) (ha : IsAlign align) (hsize : size ≤ 2 ^ 62)
    {x : BitVec (8 * size)} (hput : Agrees s (put align (wireImage size swap x) w)) :
    Reads swap (readWord size align) x s (put align (wireImage size swap x) w) := by
  have hlen := length_wireImage size swap x
  refine ⟨_, ?_, h.next ha hlen hput⟩
  rw [readWord_eq h.inBounds ha hsize, if_pos (h.valueEnd_le ha hlen hput),
    h.bytesAt_eq ha hlen hput, native_wireImage h, ofImage_image]

/-- **An octet is read back.** -/
theorem reads_read1 (h : At swap s w) {x : Octet} (hput : Agrees s (put 1 (image 1 x) w)) :
    Reads swap read1 x s (put 1 (image 1 x) w) := by
  have hlen : (image 1 x).length = 1 := length_leBytes 1 _
  have hend := h.valueEnd_le isAlign_one hlen hput
  have hbytes := h.bytesAt_eq isAlign_one hlen hput
  have hnext := h.next isAlign_one hlen hput
  rw [valueEnd, alignUp_one] at hend hnext
  rw [alignUp_one] at hbytes
  have himage : ofImage 1 (image 1 x) = x := @ofImage_image 1 x
  refine ⟨_, ?_, hnext⟩
  rw [read1_eq h.inBounds, if_pos (Nat.lt_of_succ_le hend), hbytes, himage]

theorem nativeArray_flatMap (h : At swap s w) (xs : List (BitVec (8 * size))) :
    s.nativeArray size xs.length (xs.flatMap (wireImage size swap)) = arrayImage size xs := by
  rw [nativeArray, h.doByteSwap, ← OutputCDR.flatMap_wireImage]
  split_ifs
  · exact swapArray_swapArray _ (length_arrayImage xs)
  · rfl

theorem length_flatMap_wireImage (swap : Bool) (xs : List (BitVec (8 * size))) :
    (xs.flatMap (wireImage size swap)).length = size * xs.length := by
  rw [← OutputCDR.flatMap_wireImage]
  split_ifs
  · exact length_swapArray _ (length_arrayImage xs)
  · exact length_arrayImage xs

/-- **The image of an array is read back.** -/
theorem reads_readArray (h : At swap s w) (ha : IsAlign align)
    (hsize : size = 1 ∨ size = 2 ∨ size = 4 ∨ size = 8 ∨ size = 16)
    {xs : List (BitVec (8 * size))} (hlen : xs.length < 2 ^ 32)
    (hput : Agrees s (putArray size swap align xs w)) :
    Reads swap (readArray size align xs.length) (arrayImage size xs) s
      (putArray size swap align xs w) := by
  rw [putArray] at hput ⊢
  split_ifs at hput ⊢ with hnil
  · rw [hnil]
    exact reads_pure h _
  · have hbytes := length_flatMap_wireImage swap xs
    refine ⟨_, ?_, h.next ha hbytes hput⟩
    rw [readArray_eq h.inBounds h.good ha hsize hlen (by simpa using hnil)
      (h.valueEnd_le ha hbytes hput), h.bytesAt_eq ha hbytes hput, nativeArray_flatMap h]

/-- The bytes of an array are left before it is read. -/
theorem At.le_length (h : At swap s w) (ha : IsAlign align)
    {xs : List (BitVec (8 * size))} (hput : Agrees s (putArray size swap align xs w)) :
    size * xs.length ≤ s.length := by
  have hle := hput.le
  have hlen : w.length + size * xs.length ≤ (putArray size swap align xs w).length := by
    rw [putArray]
    split_ifs with hnil
    · rw [hnil, List.length_nil, Nat.mul_zero, Nat.add_zero]
    · have hbytes := length_flatMap_wireImage swap xs
      have hpad := le_alignUp ha.pos w.length
      rw [length_put ha.pos]
      omega
  rw [length_eq h.inBounds, h.rdPtr, wrPtr]
  omega

/-- **An array is read back.** -/
theorem reads_readWordArray (h : At swap s w) (ha : IsAlign align)
    (hsize : size = 1 ∨ size = 2 ∨ size = 4 ∨ size = 8 ∨ size = 16)
    {xs : List (BitVec (8 * size))} {length : ULong} (hlen : length.toNat = xs.length)
    (hput : Agrees s (putArray size swap align xs w)) :
    Reads swap (readWordArray size align length) xs s (putArray size swap align xs w) := by
  have hlt : xs.length < 2 ^ 32 := hlen ▸ length.isLt
  have hle := h.le_length ha hput
  have hnot : ¬length.toNat * size % 2 ^ 64 > s.length := by
    rw [hlen, Nat.mul_comm]
    exact Nat.not_lt.mpr ((Nat.mod_le _ _).trans hle)
  obtain ⟨t, heq, ht⟩ := reads_readArray h ha hsize hlt hput
  refine ⟨t, ?_, ht⟩
  rw [readWordArray, get_bind_apply, if_neg hnot, hlen, bind_of_ok heq, ofArrayImage_arrayImage,
    pure_apply]

end InputCDR

end AceTao.Cdr
