import AceTao.Cdr.Output

/-!
# What the basic insertions do

A stream is `Ready` when it has nothing chained behind `current_` and `current_alignment_` agrees
with the number of bytes inserted so far, modulo the largest alignment. Every insertion of a
primitive then appends padding up to its alignment and its bytes (`put`), wherever a new block has
to be started: `writeArray_spec`, `writeWord_spec`. The bytes of the stream are the only thing that
is said about the blocks, so none of these statements depends on how the stream is fragmented.
-/

namespace AceTao.Cdr

open Program ByteImage AlignUp

/-- The bytes of a stream; the values of padding are not given. -/
abbrev Wire := List (Option UInt8)

/-- The padding before a value. -/
def pad (pos align : ℕ) : ℕ := alignUp pos align - pos

/-- **A value is inserted** behind its padding. -/
def put (align : ℕ) (bytes : List UInt8) (w : Wire) : Wire :=
  w ++ List.replicate (pad w.length align) none ++ bytes.map some

theorem add_pad {align : ℕ} (ha : 0 < align) (pos : ℕ) :
    pos + pad pos align = alignUp pos align := by
  have h := le_alignUp ha pos
  rw [pad]
  omega

theorem pad_le {align : ℕ} (ha : IsAlign align) (pos : ℕ) : pad pos align ≤ 7 := by
  have h := alignUp_lt ha.pos pos
  have h8 := ha.le
  rw [pad]
  omega

@[simp] theorem pad_one (pos : ℕ) : pad pos 1 = 0 := by
  rw [pad, alignUp_one, Nat.sub_self]

theorem length_put {align : ℕ} (ha : 0 < align) (bytes : List UInt8) (w : Wire) :
    (put align bytes w).length = alignUp w.length align + bytes.length := by
  rw [put, List.length_append, List.length_append, List.length_replicate, List.length_map,
    add_pad ha]

@[simp] theorem put_one (bytes : List UInt8) (w : Wire) : put 1 bytes w = w ++ bytes.map some := by
  rw [put, pad_one, List.replicate_zero, List.append_nil]

/-- The image of a word in the stream. -/
def wireImage (size : ℕ) (swap : Bool) (x : BitVec (8 * size)) : List UInt8 :=
  if swap then (image size x).reverse else image size x

@[simp] theorem length_wireImage (size : ℕ) (swap : Bool) (x : BitVec (8 * size)) :
    (wireImage size swap x).length = size := by
  rw [wireImage]
  split_ifs <;> simp

/-- A byte is the same in both orders. -/
theorem wireImage_one (swap : Bool) (x : BitVec (8 * 1)) : wireImage 1 swap x = image 1 x := by
  rw [wireImage]
  split_ifs
  · rfl
  · rfl

/-- The bytes of an array in the stream; an empty array leaves no padding. -/
def putArray (size : ℕ) (swap : Bool) (align : ℕ) (xs : List (BitVec (8 * size))) (w : Wire) :
    Wire :=
  if xs = [] then w else put align (xs.flatMap (wireImage size swap)) w

/-! ### Sizes of new blocks -/

theorem le_firstSizeFrom (minsize newsize : ℕ) (h : 0 < newsize) :
    minsize ≤ firstSizeFrom minsize newsize h := by
  induction newsize, h using firstSizeFrom.induct minsize with
  | case1 newsize h hlt hexp ih =>
    rw [firstSizeFrom, if_pos hlt, if_pos hexp]
    exact ih
  | case2 newsize h hlt hexp ih =>
    rw [firstSizeFrom, if_pos hlt, if_neg hexp]
    exact ih
  | case3 newsize h hlt =>
    rw [firstSizeFrom, if_neg hlt]
    exact Nat.le_of_not_lt hlt

theorem le_firstSize (minsize : ℕ) : minsize ≤ firstSize minsize := by
  rw [firstSize]
  split_ifs with h
  · exact h ▸ Nat.zero_le _
  · exact le_firstSizeFrom ..

/-- A new size is larger than what is asked for. -/
theorem lt_nextSize {minsize : ℕ} (h : 0 < minsize) : minsize < nextSize minsize := by
  have hle := le_firstSize minsize
  rw [nextSize]
  split_ifs with heq hexp
  · omega
  · rw [linearGrowthChunk]
    omega
  · omega

namespace OutputCDR

/-- **The stream is ready**: nothing is chained behind `current_`, and `current_alignment_` is the
number of bytes inserted, modulo the largest alignment. -/
structure Ready (s : OutputCDR) : Prop where
  cont : s.cont = []
  good : s.goodBit = true
  lt : s.currentAlignment < 2 ^ 64
  aligned : s.currentAlignment % 8 = s.wire.length % 8

/-- **The stream is in one block**, the first, which can hold `capacity` bytes. -/
structure OneBlock (capacity : ℕ) (s : OutputCDR) : Prop where
  writable : s.currentIsWritable = true
  done : s.done = []
  maxSize : s.current.maxSize = s.current.rdPtr + capacity

/-- What no insertion changes. -/
structure SameConfig (s t : OutputCDR) : Prop where
  doByteSwap : t.doByteSwap = s.doByteSwap
  memcpyTradeoff : t.memcpyTradeoff = s.memcpyTradeoff
  majorVersion : t.majorVersion = s.majorVersion
  minorVersion : t.minorVersion = s.minorVersion

theorem SameConfig.refl (s : OutputCDR) : SameConfig s s := ⟨rfl, rfl, rfl, rfl⟩

theorem SameConfig.trans {s t u : OutputCDR} (h : SameConfig s t) (h' : SameConfig t u) :
    SameConfig s u :=
  ⟨h'.doByteSwap.trans h.doByteSwap, h'.memcpyTradeoff.trans h.memcpyTradeoff,
    h'.majorVersion.trans h.majorVersion, h'.minorVersion.trans h.minorVersion⟩

variable {heap : ℕ → ℕ} {s t : OutputCDR} {size align : ℕ}

theorem init_ready (base size memcpyTradeoff : ℕ) (doByteSwap : Bool) (major minor : UInt8) :
    Ready (init base size memcpyTradeoff doByteSwap major minor) :=
  ⟨rfl, rfl, Nat.two_pow_pos 64, rfl⟩

@[simp] theorem init_wire (base size memcpyTradeoff : ℕ) (doByteSwap : Bool)
    (major minor : UInt8) : (init base size memcpyTradeoff doByteSwap major minor).wire = [] := rfl

theorem wire_eq (s : OutputCDR) :
    s.wire = s.done.flatMap Block.contents ++ s.current.contents := by
  rw [wire, blocks, List.flatMap_append, List.flatMap_singleton]

theorem claim_wire (s : OutputCDR) (n : ℕ) :
    (s.claim n).wire = s.wire ++ List.replicate n none := by
  rw [wire_eq, wire_eq, claim, List.append_assoc]

theorem insertBlock_wire (s : OutputCDR) (b : Block) :
    (s.insertBlock b).wire = s.wire ++ b.contents := by
  rw [wire_eq, wire_eq, insertBlock, List.flatMap_append, List.flatMap_singleton]

/-- In one block the next value fits as long as the capacity is not exceeded. -/
theorem OneBlock.fits {capacity n : ℕ} (h : OneBlock capacity s)
    (hle : s.wire.length + n ≤ capacity) : s.current.wrPtr + n ≤ s.current.maxSize := by
  rw [wire_eq, h.done, List.flatMap_nil, List.nil_append] at hle
  rw [Block.wrPtr, h.maxSize]
  omega

/-- The counter gives the padding the position asks for. -/
theorem padding_eq (h : Ready s) (ha : IsAlign align) :
    s.padding align = pad s.wire.length align := by
  have hlt := h.lt
  have haligned := h.aligned
  rw [padding, alignBinary_mod ha, pad, alignUp, alignUp]
  rcases ha with rfl | rfl | rfl | rfl <;> omega

/-! ### Claiming bytes -/

/-- **Bytes are claimed** at the end of the stream: `buf` is where the last `size` of them begin, in
the current block. -/
structure Claimed (s : OutputCDR) (size align buf : ℕ) (t : OutputCDR) : Prop where
  ready : Ready t
  config : SameConfig s t
  wire : t.wire = s.wire ++ List.replicate (pad s.wire.length align + size) none
  ge : t.current.rdPtr ≤ buf
  ends : buf + size = t.current.wrPtr
  oneBlock : ∀ capacity, OneBlock capacity s →
    s.wire.length + (pad s.wire.length align + size) ≤ capacity → OneBlock capacity t

/-- Where the bytes fit in the current block. -/
theorem adjustLoop_of_fits (h : Ready s) (ha : IsAlign align) (calls : ℕ)
    (hw : s.currentIsWritable = true)
    (hfits : s.current.wrPtr + pad s.wire.length align + size ≤ s.current.maxSize) :
    ∃ buf t, adjustLoop heap (calls + 1) size align s = some (.ok buf, t) ∧
      Claimed s size align buf t := by
  have hcond : (s.currentIsWritable &&
      decide (s.current.wrPtr + pad s.wire.length align + size ≤ s.current.maxSize)) = true := by
    rw [hw]
    simpa using hfits
  refine ⟨s.current.wrPtr + pad s.wire.length align, s.claim (pad s.wire.length align + size), ?_,
    ⟨h.cont, h.good, Nat.mod_lt _ (Nat.two_pow_pos 64), ?_⟩, ⟨rfl, rfl, rfl, rfl⟩,
    claim_wire s _, ?_, ?_, fun _ hone _ => ⟨hw, hone.done, hone.maxSize⟩⟩
  · rw [adjustLoop, get_bind_apply, padding_eq h ha, if_pos hcond]
    rfl
  · have haligned := h.aligned
    rw [claim_wire, List.length_append, List.length_replicate, claim]
    dsimp only
    omega
  · exact (Nat.le_add_right _ _).trans (Nat.le_add_right _ _)
  · rw [Block.wrPtr, Block.wrPtr, claim]
    dsimp only
    rw [List.length_append, List.length_replicate]
    omega

/-- A block that is allocated is larger than the current one and than what is asked for. -/
theorem grow_eq (heap : ℕ → ℕ) (size : ℕ) (h : Ready s) :
    ∃ t, grow heap size s = some (.ok (), t) ∧ Ready t ∧ SameConfig s t ∧ t.wire = s.wire ∧
      t.currentIsWritable = true ∧ t.current.contents = [] ∧ t.current.rdPtr ≤ 7 ∧
      t.current.maxSize = t.current.size ∧ s.current.size < t.current.size ∧
      size + 8 < t.current.size := by
  have hneeds : s.needsBlock size = true := by
    rw [needsBlock, h.cont, Bool.or_true]
  have hwire : (s.insertBlock (newBlock heap s size)).wire = s.wire := by
    rw [insertBlock_wire, newBlock, List.append_nil]
  refine ⟨s.insertBlock (newBlock heap s size), ?_, ⟨h.cont, rfl, h.lt, ?_⟩, ⟨rfl, rfl, rfl, rfl⟩,
    hwire, rfl, rfl, ?_, rfl, ?_, ?_⟩
  · rw [grow, get_bind_apply, hneeds, if_pos rfl]
    rfl
  · rw [hwire]
    exact h.aligned
  · dsimp only [insertBlock, newBlock]
    rw [maxAlignment]
    split_ifs <;> omega
  · dsimp only [insertBlock, newBlock]
    rw [h.cont, maxAlignment]
    dsimp only
    split_ifs with hlt
    · exact lt_nextSize (by omega)
    · exact (Nat.le_of_not_lt hlt).trans_lt (lt_nextSize (by omega))
  · dsimp only [insertBlock, newBlock]
    rw [h.cont, maxAlignment]
    dsimp only
    split_ifs with hlt
    · exact hlt.trans (lt_nextSize (by omega))
    · exact lt_nextSize (by omega)

/-- **In a new block** the bytes fit, or the next one is larger. -/
theorem adjustLoop_of_new (heap : ℕ → ℕ) (ha : IsAlign align) (calls : ℕ) (h : Ready s)
    (hw : s.currentIsWritable = true) (hempty : s.current.contents = [])
    (hrd : s.current.rdPtr ≤ 7) (hmax : s.current.maxSize = s.current.size)
    (hsize : size + 14 ≤ s.current.size + calls) :
    ∃ buf t, adjustLoop heap (calls + 1) size align s = some (.ok buf, t) ∧
      Claimed s size align buf t := by
  induction calls generalizing s with
  | zero =>
    have hpad := pad_le ha s.wire.length
    refine adjustLoop_of_fits h ha 0 hw ?_
    rw [Block.wrPtr, hempty, List.length_nil]
    omega
  | succ calls ih =>
    by_cases hfits : s.current.wrPtr + pad s.wire.length align + size ≤ s.current.maxSize
    · exact adjustLoop_of_fits h ha (calls + 1) hw hfits
    · obtain ⟨t, hgrow, ht, hconfig, hwire, htw, htempty, htrd, htmax, hlt, -⟩ :=
        grow_eq heap size h
      obtain ⟨buf, u, hadjust, hu⟩ := ih ht htw htempty htrd htmax (by omega)
      refine ⟨buf, u, ?_, hu.ready, hconfig.trans hu.config, ?_, hu.ge, hu.ends, ?_⟩
      · rw [adjustLoop, get_bind_apply, padding_eq h ha, hw, if_neg (by simpa using hfits),
          bind_of_ok hgrow, hadjust]
      · rw [hu.wire, hwire]
      · intro capacity hone hle
        have hroom := hone.fits hle
        omega

/-- **`adjust` claims the bytes**, in the current block or in a new one. -/
theorem adjust_spec (heap : ℕ → ℕ) (size : ℕ) (h : Ready s) (ha : IsAlign align) :
    ∃ buf t, adjust heap size align s = some (.ok buf, t) ∧ Claimed s size align buf t := by
  by_cases hfits : s.currentIsWritable = true ∧
      s.current.wrPtr + pad s.wire.length align + size ≤ s.current.maxSize
  · exact adjustLoop_of_fits h ha 7 hfits.1 hfits.2
  · obtain ⟨t, hgrow, ht, hconfig, hwire, htw, htempty, htrd, htmax, -, hlt⟩ :=
      grow_eq heap size h
    obtain ⟨buf, u, hadjust, hu⟩ := adjustLoop_of_new heap ha 6 ht htw htempty htrd htmax
      (show size + 14 ≤ _ by omega)
    refine ⟨buf, u, ?_, hu.ready, hconfig.trans hu.config, ?_, hu.ge, hu.ends, ?_⟩
    · rw [adjust, adjustLoop, get_bind_apply, padding_eq h ha, if_neg (by simpa using hfits),
        bind_of_ok hgrow, hadjust]
    · rw [hu.wire, hwire]
    · intro capacity hone hle
      have hroom := hone.fits hle
      exact absurd ⟨hone.writable, by omega⟩ hfits

/-! ### Storing them -/

/-- What is left of a list whose last entries are cut off. -/
theorem append_take_eq {α : Type} {a c w : List α} {x : α} {k p n : ℕ}
    (h : a ++ c = w ++ List.replicate (p + n) x) (hc : c.length = k + n) :
    a ++ c.take k = w ++ List.replicate p x := by
  have hlen := congrArg List.length h
  simp only [List.length_append, List.length_replicate, hc] at hlen
  have htake := congrArg (List.take (a.length + k)) h
  rwa [List.take_length_add_append, List.replicate_add, ← List.append_assoc,
    List.take_left' (by rw [List.length_append, List.length_replicate]; omega)] at htake

/-- **The bytes `w` are in the stream**, after an operation on `s`. A stream in one block that can
hold them is still in one block. -/
structure WritesTo (s : OutputCDR) (w : Wire) (t : OutputCDR) : Prop where
  ready : Ready t
  config : SameConfig s t
  wire : t.wire = w
  le : s.wire.length ≤ w.length
  oneBlock : ∀ capacity, OneBlock capacity s → w.length ≤ capacity → OneBlock capacity t

/-- **The operation writes.** -/
def Writes (m : Writer Unit) (s : OutputCDR) (w : Wire) : Prop :=
  ∃ t, m s = some (.ok (), t) ∧ WritesTo s w t

/-- **Claimed bytes are stored.** -/
theorem store_spec {buf : ℕ} {bytes : List UInt8} (h : Claimed s size align buf t)
    (ha : IsAlign align) (hbytes : bytes.length = size) :
    ∃ u, store buf bytes t = some (.ok (), u) ∧ WritesTo s (put align bytes s.wire) u := by
  have hge := h.ge
  have hends := h.ends
  rw [Block.wrPtr] at hends
  have hwire := h.wire
  rw [wire_eq] at hwire
  have hlen : t.current.contents.length = buf - t.current.rdPtr + size := by omega
  have hfront := append_take_eq hwire hlen
  have hput : t.done.flatMap Block.contents ++ (t.current.contents.take (buf - t.current.rdPtr) ++
      bytes.map some ++ t.current.contents.drop (buf - t.current.rdPtr + bytes.length))
      = put align bytes s.wire := by
    rw [hbytes, ← hlen, List.drop_length, List.append_nil, ← List.append_assoc, hfront, put]
  have hlength : (put align bytes s.wire).length
      = s.wire.length + (pad s.wire.length align + size) := by
    rw [length_put ha.pos, ← add_pad ha.pos, hbytes, Nat.add_assoc]
  refine ⟨_, rfl, ⟨h.ready.cont, h.ready.good, h.ready.lt, ?_⟩, ⟨h.config.doByteSwap,
    h.config.memcpyTradeoff, h.config.majorVersion, h.config.minorVersion⟩,
    (wire_eq _).trans hput, by omega, fun capacity hone hle => ?_⟩
  · have haligned := h.ready.aligned
    rw [wire_eq, hput, hlength]
    rwa [h.wire, List.length_append, List.length_replicate] at haligned
  · have ht := h.oneBlock capacity hone (hlength ▸ hle)
    exact ⟨ht.writable, ht.done, ht.maxSize⟩

/-- **Sequencing.** -/
theorem Writes.bind {m : Writer Unit} {f : Unit → Writer Unit} {w w' : Wire} (hm : Writes m s w)
    (hf : ∀ t, Ready t → SameConfig s t → t.wire = w → Writes (f ()) t w') :
    Writes (m >>= f) s w' := by
  obtain ⟨t, heq, ht⟩ := hm
  obtain ⟨u, heq', hu⟩ := hf t ht.ready ht.config ht.wire
  have hle := hu.le
  rw [ht.wire] at hle
  exact ⟨u, (bind_of_ok heq).trans heq', hu.ready, ht.config.trans hu.config, hu.wire,
    ht.le.trans hle, fun capacity hone hcap =>
      hu.oneBlock capacity (ht.oneBlock capacity hone (hle.trans hcap)) hcap⟩

theorem writes_pure (h : Ready s) : Writes (pure ()) s s.wire :=
  ⟨s, rfl, h, SameConfig.refl s, rfl, le_rfl, fun _ hone _ => hone⟩

/-- **Claiming and storing**: `bytes` may depend on the configuration. -/
theorem writes_adjust_bind {f : ℕ → Writer Unit} {bytes : List UInt8} (h : Ready s)
    (ha : IsAlign align) (hbytes : bytes.length = size)
    (hf : ∀ buf t, Ready t → SameConfig s t → f buf t = store buf bytes t) :
    Writes (adjust heap size align >>= f) s (put align bytes s.wire) := by
  obtain ⟨buf, t, heq, ht⟩ := adjust_spec heap size h ha
  obtain ⟨u, hstore, hu⟩ := store_spec ht ha hbytes
  exact ⟨u, by rw [bind_of_ok heq, hf buf t ht.ready ht.config, hstore], hu⟩

/-! ### Words and arrays -/

theorem writes_write1 (h : Ready s) (x : Octet) :
    Writes (write1 heap x) s (put 1 (image 1 x) s.wire) :=
  writes_adjust_bind h isAlign_one (length_image _) fun _ _ _ _ => rfl

theorem writes_writeWord (h : Ready s) (ha : IsAlign align) (x : BitVec (8 * size)) :
    Writes (writeWord heap size align x) s (put align (wireImage size s.doByteSwap x) s.wire) := by
  refine writes_adjust_bind h ha (length_wireImage _ _ _) fun buf t _ hconfig => ?_
  rw [get_bind_apply, hconfig.doByteSwap, wireImage]

/-- **The image of an array is written.** -/
theorem writes_writeArray (heap : ℕ → ℕ) (x : List UInt8) {length : ℕ} (h : Ready s)
    (ha : IsAlign align) (hsize : size = 1 ∨ size = 2 ∨ size = 4 ∨ size = 8 ∨ size = 16)
    (hpos : length ≠ 0) (hx : size * length ≤ x.length) :
    Writes (writeArray heap size align x length) s (put align
      (if s.doByteSwap then swapArray size length (x.take (size * length))
        else x.take (size * length)) s.wire) := by
  have htake : (x.take (size * length)).length = size * length := by
    rw [List.length_take]
    exact Nat.min_eq_left hx
  rw [writeArray, if_neg hpos]
  refine writes_adjust_bind h ha ?_ fun buf t _ hconfig => ?_
  · split_ifs
    · exact length_swapArray _ htake
    · exact htake
  · rw [get_bind_apply, hconfig.doByteSwap]
    rcases s.doByteSwap with _ | _
    · rfl
    · rcases eq_or_ne size 1 with rfl | hne
      · rw [if_pos (by simp), if_pos rfl, swapArray_one (by rw [htake, Nat.one_mul])]
      · rw [if_neg (by simpa using hne), if_pos (hsize.resolve_left hne), if_pos rfl]

theorem flatMap_wireImage (swap : Bool) (xs : List (BitVec (8 * size))) :
    (if swap then swapArray size xs.length (arrayImage size xs) else arrayImage size xs)
      = xs.flatMap (wireImage size swap) := by
  rcases swap with _ | _
  · rfl
  · rw [if_pos rfl, swapArray_arrayImage]
    rfl

/-- **An array is written**, up to the length that is given. -/
theorem writes_writeWordArray (heap : ℕ → ℕ) {xs : List (BitVec (8 * size))} {length : ULong}
    (h : Ready s) (ha : IsAlign align)
    (hsize : size = 1 ∨ size = 2 ∨ size = 4 ∨ size = 8 ∨ size = 16)
    (hlen : length.toNat ≤ xs.length) :
    Writes (writeWordArray heap size align xs length) s
      (putArray size s.doByteSwap align (xs.take length.toNat) s.wire) := by
  have htake : (xs.take length.toNat).length = length.toNat := by
    rw [List.length_take]
    exact Nat.min_eq_left hlen
  have hsplit : (arrayImage size xs).take (size * length.toNat) =
      arrayImage size (xs.take length.toNat) := by
    have happend : arrayImage size xs =
        arrayImage size (xs.take length.toNat) ++ arrayImage size (xs.drop length.toNat) := by
      rw [arrayImage, arrayImage, arrayImage, ← List.flatMap_append, List.take_append_drop]
    rw [happend, List.take_left' (by rw [length_arrayImage, htake])]
  rw [writeWordArray, putArray]
  split_ifs with hnil
  · have hzero : length.toNat = 0 := by rw [← htake, hnil, List.length_nil]
    rw [hzero, writeArray, if_pos rfl]
    exact writes_pure h
  · have hpos : length.toNat ≠ 0 := fun hzero => hnil (by rw [hzero, List.take_zero])
    have hle : size * length.toNat ≤ (arrayImage size xs).length := by
      rw [length_arrayImage]
      exact Nat.mul_le_mul_left _ hlen
    have hwrites := writes_writeArray heap (arrayImage size xs) h ha hsize hpos hle
    have hflat := flatMap_wireImage s.doByteSwap (xs.take length.toNat)
    rw [htake] at hflat
    rwa [hsplit, hflat] at hwrites

end OutputCDR

end AceTao.Cdr

/-!
## Claiming bytes when memory is short

`grow_and_adjust` allocates a message block, and answers `-1` when there is no memory for it; the
flag is cleared then, and nothing else changes. Here a parameter `memory` says for which sizes there
is a block. `adjustWithin` claims the same bytes as `adjust` or it fails (`adjustWithin_spec`), and
the bytes that it claims are those from `buf` to `wr_ptr`.
-/

namespace AceTao.Cdr

open Program ByteImage AlignUp

namespace OutputCDR

variable (heap : ℕ → ℕ) (memory : ℕ → Bool)

/-- What `grow_and_adjust` does before it calls `adjust` again. -/
def growWithin (size : ℕ) : Writer Unit := do
  let s ← Program.get
  if s.needsBlock size && !memory (newBlock heap s size).size then fail .bounds
  else grow heap size

/-- `adjust`, with at most `calls` calls. -/
def adjustWithinLoop : ℕ → ℕ → ℕ → Writer ℕ
  | 0, _, _ => Program.undefined
  | calls + 1, size, align => do
    let s ← Program.get
    let offset := s.padding align
    let buf := s.current.wrPtr + offset
    if s.currentIsWritable && buf + size ≤ s.current.maxSize then do
      Program.modify fun s => s.claim (offset + size)
      pure buf
    else do
      growWithin heap memory size
      adjustWithinLoop calls size align

/-- **Claim bytes**, if there is memory for them. -/
def adjustWithin (size align : ℕ) : Writer ℕ := adjustWithinLoop heap memory 8 size align

/-- `write_ulong`, if there is memory for it. -/
def writeUlongWithin (x : ULong) : Writer Unit := do
  let buf ← adjustWithin heap memory 4 4
  let s ← Program.get
  store buf (wireImage 4 s.doByteSwap x)

variable {heap memory} {s t : OutputCDR} {size align buf : ℕ}

/-- Where memory is short the flag is cleared. -/
theorem growWithin_eq (size : ℕ) (s : OutputCDR) :
    growWithin heap memory size s = grow heap size s ∨
      ∃ u, growWithin heap memory size s = some (.error .bounds, u) := by
  rw [growWithin, get_bind_apply, ite_run]
  split_ifs
  · exact Or.inr ⟨_, rfl⟩
  · exact Or.inl rfl

theorem adjustWithinLoop_of_ok {calls : ℕ}
    (h : adjustLoop heap calls size align s = some (.ok buf, t)) :
    adjustWithinLoop heap memory calls size align s = some (.ok buf, t) ∨
      ∃ u, adjustWithinLoop heap memory calls size align s = some (.error .bounds, u) := by
  induction calls generalizing s with
  | zero => cases h
  | succ calls ih =>
    rw [adjustLoop, get_bind_apply, ite_run] at h
    rw [adjustWithinLoop, get_bind_apply, ite_run]
    split_ifs at h ⊢
    · exact Or.inl h
    · obtain ⟨_, u, hgrow, hloop⟩ := bind_eq_ok.mp h
      rcases @growWithin_eq heap memory size s with heq | ⟨v, heq⟩
      · rw [bind_of_ok (heq.trans hgrow)]
        exact ih hloop
      · exact Or.inr ⟨v, bind_of_error heq⟩

/-- **Bytes are claimed**, or memory is short. -/
theorem adjustWithin_spec (h : Ready s) (ha : IsAlign align) (size : ℕ) :
    (∃ buf t, adjustWithin heap memory size align s = some (.ok buf, t) ∧
      Claimed s size align buf t) ∨
    ∃ u, adjustWithin heap memory size align s = some (.error .bounds, u) := by
  obtain ⟨buf, t, heq, ht⟩ := adjust_spec heap size h ha
  rcases adjustWithinLoop_of_ok heq with hok | herror
  · exact Or.inl ⟨buf, t, hok, ht⟩
  · exact Or.inr herror

/-- **With enough memory** bytes are claimed as `adjust` claims them. -/
theorem adjustWithin_of_memory (hmemory : ∀ k, memory k = true) (size align : ℕ) :
    adjustWithin heap memory size align = adjust heap size align := by
  have hgrow : growWithin heap memory size = grow heap size := by
    funext s
    rw [growWithin, get_bind_apply, hmemory, Bool.not_true, Bool.and_false]
    rfl
  have hloop : ∀ calls, adjustWithinLoop heap memory calls size align =
      adjustLoop heap calls size align := by
    intro calls
    induction calls with
    | zero => rfl
    | succ calls ih => rw [adjustWithinLoop, adjustLoop, hgrow, ih]
  exact hloop 8

/-- A word is written behind its padding, or memory is short. -/
theorem writeUlongWithin_spec (h : Ready s) (x : ULong) :
    Writes (writeUlongWithin heap memory x) s (put 4 (wireImage 4 s.doByteSwap x) s.wire) ∨
      ∃ u, writeUlongWithin heap memory x s = some (.error .bounds, u) := by
  rcases adjustWithin_spec h isAlign_four 4 with ⟨buf, t, heq, ht⟩ | ⟨u, heq⟩
  · obtain ⟨u, hstore, hu⟩ := store_spec ht isAlign_four (length_wireImage 4 s.doByteSwap x)
    refine Or.inl ⟨u, ?_, hu⟩
    rw [writeUlongWithin, bind_of_ok heq, get_bind_apply, ht.config.doByteSwap, hstore]
  · exact Or.inr ⟨u, bind_of_error heq⟩

end OutputCDR

end AceTao.Cdr
