import AceTao.Cdr.Types
import AceTao.Cdr.Input
import AceTao.Library.Program

/-!
# Inserting values into a CDR stream

`ACE_OutputCDR` inserts typed values into a chain of message blocks, from `start_` to `current_`.
Offsets into a block are counted from the start of its buffer; of its address only the remainder
modulo the largest alignment matters, so the comparisons with `end` are made on offsets. The
contents of a block are the bytes from `rd_ptr` to `wr_ptr`, where a byte that nothing has been
stored in is `none`.

The addresses of the blocks that are allocated come from a parameter `heap`: the `k`-th block is
at the address `heap k`. Memory is never exhausted, there are no translators, and swapping on write
is enabled. `adjust` and `grow_and_adjust` call each other; here the number of calls is bounded,
and an exhausted bound has no answer. `OutputCDR.adjust_spec` shows that it never is.
-/

namespace AceTao.Cdr

open ByteImage

/-- A message block: the address and the sizes of its buffer, the offset of `rd_ptr`, and the bytes
from there to `wr_ptr`. -/
structure Block where
  base : ℕ
  size : ℕ
  maxSize : ℕ
  rdPtr : ℕ
  contents : List (Option UInt8)

def Block.wrPtr (b : Block) : ℕ := b.rdPtr + b.contents.length

/-- A message block of the caller, in a chain. -/
structure SourceBlock where
  dontDelete : Bool
  base : ℕ
  size : ℕ
  maxSize : ℕ
  rdPtr : ℕ
  contents : List UInt8

/-- The block that shares the data of a block of the caller. -/
def SourceBlock.duplicate (i : SourceBlock) : Block :=
  ⟨i.base, i.size, i.maxSize, i.rdPtr, i.contents.map some⟩

/-- The state of an `ACE_OutputCDR`: the chain up to `current_`, the blocks behind it, and how many
blocks it has allocated. -/
structure OutputCDR where
  done : List Block
  current : Block
  cont : List Block
  currentAlignment : ℕ
  currentIsWritable : Bool
  doByteSwap : Bool
  goodBit : Bool
  memcpyTradeoff : ℕ
  majorVersion : UInt8
  minorVersion : UInt8
  allocations : ℕ

abbrev Writer (α : Type) := Program OutputCDR Failure α

def maxAlignment : ℕ := 8
def defaultBufsize : ℕ := 512
def expGrowthMax : ℕ := 65536
def linearGrowthChunk : ℕ := 65536

/-- The loop that grows a size until it is enough. -/
def firstSizeFrom (minsize newsize : ℕ) (h : 0 < newsize) : ℕ :=
  if newsize < minsize then
    if newsize < expGrowthMax then firstSizeFrom minsize (newsize * 2) (by omega)
    else firstSizeFrom minsize (newsize + linearGrowthChunk) (by omega)
  else newsize
termination_by minsize - newsize
decreasing_by
  · omega
  · rw [linearGrowthChunk]
    omega

def firstSize (minsize : ℕ) : ℕ :=
  if minsize = 0 then defaultBufsize else firstSizeFrom minsize defaultBufsize (by decide)

def nextSize (minsize : ℕ) : ℕ :=
  let newsize := firstSize minsize
  if newsize = minsize then
    if newsize < expGrowthMax then newsize * 2 else newsize + linearGrowthChunk
  else newsize

namespace OutputCDR

/-- A stream over a first block, with `rd_ptr` and `wr_ptr` at its first aligned byte. -/
def init (base size memcpyTradeoff : ℕ) (doByteSwap : Bool) (majorVersion minorVersion : UInt8) :
    OutputCDR where
  done := []
  current := ⟨base, size, size, alignBinary base maxAlignment - base, []⟩
  cont := []
  currentAlignment := 0
  currentIsWritable := true
  doByteSwap := doByteSwap
  goodBit := true
  memcpyTradeoff := memcpyTradeoff
  majorVersion := majorVersion
  minorVersion := minorVersion
  allocations := 0

/-- The blocks from `begin` to `end`. -/
def blocks (s : OutputCDR) : List Block := s.done ++ [s.current]

/-- **The bytes of the stream.** -/
def wire (s : OutputCDR) : List (Option UInt8) := s.blocks.flatMap Block.contents

def totalLength (s : OutputCDR) : ℕ := (s.blocks.map fun b => b.contents.length).sum

def giop12 (s : OutputCDR) : Bool := s.majorVersion = 1 && s.minorVersion = 2

def fail {α : Type} (e : Failure) : Writer α := do
  Program.modify fun s => { s with goodBit := false }
  Program.throw e

/-! ### Growing -/

/-- Whether a block has to be allocated. -/
def needsBlock (s : OutputCDR) (size : ℕ) : Bool :=
  !s.currentIsWritable || match s.cont with
    | [] => true
    | next :: _ => next.size < size + maxAlignment

/-- The block `grow_and_adjust` allocates; it starts with the alignment the last one ended with. -/
def newBlock (heap : ℕ → ℕ) (s : OutputCDR) (size : ℕ) : Block :=
  let cursize := match s.cont with
    | [] => s.current.size
    | next :: _ => next.size
  let minsize := if size + maxAlignment < cursize then cursize else size + maxAlignment
  let newsize := nextSize minsize
  let base := heap s.allocations
  let tmpalign := base % maxAlignment
  let curalign := s.currentAlignment % maxAlignment
  let offset := if tmpalign ≤ curalign then curalign - tmpalign
    else curalign + maxAlignment - tmpalign
  ⟨base, newsize, newsize, offset, []⟩

/-- Insert a block that has been allocated behind the current one, and make it the current one. -/
def insertBlock (s : OutputCDR) (b : Block) : OutputCDR :=
  { s with
    goodBit := true
    allocations := s.allocations + 1
    done := s.done ++ [s.current]
    current := b
    currentIsWritable := true }

/-- What `grow_and_adjust` does before it calls `adjust` again. -/
def grow (heap : ℕ → ℕ) (size : ℕ) : Writer Unit := do
  let s ← Program.get
  if s.needsBlock size then
    Program.modify fun s => s.insertBlock (newBlock heap s size)
  else match s.cont with
    | [] => Program.undefined
    | next :: rest =>
      Program.modify fun s => { s with
        done := s.done ++ [s.current]
        current := next
        cont := rest
        currentIsWritable := true }

/-- The padding before a value. -/
def padding (s : OutputCDR) (align : ℕ) : ℕ :=
  (alignBinary s.currentAlignment align + 2 ^ 64 - s.currentAlignment) % 2 ^ 64

/-- Move `wr_ptr` over `n` bytes that nothing has been stored in. -/
def claim (s : OutputCDR) (n : ℕ) : OutputCDR :=
  { s with
    currentAlignment := (s.currentAlignment + n) % 2 ^ 64
    current := { s.current with contents := s.current.contents ++ List.replicate n none } }

/-- `adjust`, with at most `calls` calls. -/
def adjustLoop (heap : ℕ → ℕ) : ℕ → ℕ → ℕ → Writer ℕ
  | 0, _, _ => Program.undefined
  | calls + 1, size, align => do
    let s ← Program.get
    let offset := s.padding align
    let buf := s.current.wrPtr + offset
    if s.currentIsWritable && buf + size ≤ s.current.maxSize then do
      Program.modify fun s => s.claim (offset + size)
      pure buf
    else do
      grow heap size
      adjustLoop heap calls size align

/-- Each block that is allocated is larger than the one before. -/
def adjust (heap : ℕ → ℕ) (size align : ℕ) : Writer ℕ := adjustLoop heap 8 size align

/-- Store bytes at an offset of the current block. -/
def store (buf : ℕ) (bytes : List UInt8) : Writer Unit :=
  Program.modify fun s => { s with
    current := { s.current with
      contents := s.current.contents.take (buf - s.current.rdPtr) ++ bytes.map some ++
        s.current.contents.drop (buf - s.current.rdPtr + bytes.length) } }

/-! ### Words and arrays -/

variable (heap : ℕ → ℕ)

def write1 (x : Octet) : Writer Unit := do
  let buf ← adjust heap 1 1
  store buf (image 1 x)

/-- What `write_2`, `write_4`, `write_8` and `write_16` do. -/
def writeWord (size align : ℕ) (x : BitVec (8 * size)) : Writer Unit := do
  let buf ← adjust heap size align
  let s ← Program.get
  store buf (if s.doByteSwap then (image size x).reverse else image size x)

def write2 (x : UShort) : Writer Unit := writeWord heap 2 2 x
def write4 (x : ULong) : Writer Unit := writeWord heap 4 4 x
def write8 (x : ULongLong) : Writer Unit := writeWord heap 8 8 x
def write16 (x : LongDouble) : Writer Unit := writeWord heap 16 8 x

def writeOctet (x : Octet) : Writer Unit := write1 heap x
def writeInt8 (x : Octet) : Writer Unit := write1 heap x
def writeUint8 (x : Octet) : Writer Unit := write1 heap x
def writeShort (x : UShort) : Writer Unit := write2 heap x
def writeUshort (x : UShort) : Writer Unit := write2 heap x
def writeLong (x : ULong) : Writer Unit := write4 heap x
def writeUlong (x : ULong) : Writer Unit := write4 heap x
def writeLonglong (x : ULongLong) : Writer Unit := write8 heap x
def writeUlonglong (x : ULongLong) : Writer Unit := write8 heap x
def writeFloat (x : ULong) : Writer Unit := write4 heap x
def writeDouble (x : ULongLong) : Writer Unit := write8 heap x
def writeLongdouble (x : LongDouble) : Writer Unit := write16 heap x
def writeBoolean (x : Bool) : Writer Unit := writeOctet heap (if x then 1 else 0)
def writeChar (x : Octet) : Writer Unit := write1 heap x

/-- An array of `length` elements of `size` bytes with a given image. -/
def writeArray (size align : ℕ) (x : List UInt8) (length : ℕ) : Writer Unit :=
  if length = 0 then pure ()
  else do
    let buf ← adjust heap (size * length) align
    let s ← Program.get
    let source := x.take (size * length)
    if !s.doByteSwap || size = 1 then store buf source
    else if size = 2 ∨ size = 4 ∨ size = 8 ∨ size = 16 then
      store buf (swapArray size length source)
    else fail .content

/-- What the typed array operations do. -/
def writeWordArray (size align : ℕ) (x : List (BitVec (8 * size))) (length : ULong) :
    Writer Unit :=
  writeArray heap size align (arrayImage size x) length.toNat

def writeOctetArray : List Octet → ULong → Writer Unit := writeWordArray heap 1 1
def writeInt8Array : List Octet → ULong → Writer Unit := writeWordArray heap 1 1
def writeUint8Array : List Octet → ULong → Writer Unit := writeWordArray heap 1 1
def writeShortArray : List UShort → ULong → Writer Unit := writeWordArray heap 2 2
def writeUshortArray : List UShort → ULong → Writer Unit := writeWordArray heap 2 2
def writeLongArray : List ULong → ULong → Writer Unit := writeWordArray heap 4 4
def writeUlongArray : List ULong → ULong → Writer Unit := writeWordArray heap 4 4
def writeLonglongArray : List ULongLong → ULong → Writer Unit := writeWordArray heap 8 8
def writeUlonglongArray : List ULongLong → ULong → Writer Unit := writeWordArray heap 8 8
def writeFloatArray : List ULong → ULong → Writer Unit := writeWordArray heap 4 4
def writeDoubleArray : List ULongLong → ULong → Writer Unit := writeWordArray heap 8 8
def writeLongdoubleArray : List LongDouble → ULong → Writer Unit := writeWordArray heap 16 8
def writeCharArray : List Octet → ULong → Writer Unit := writeWordArray heap 1 1

/-- The loop over an array of booleans stops where the flag is clear. -/
def writeBooleans : List Bool → Writer Unit
  | [] => pure ()
  | x :: xs => do
    let s ← Program.get
    if s.goodBit then do
      writeBoolean heap x
      writeBooleans xs
    else pure ()

def writeBooleanArray (x : List Bool) (length : ULong) : Writer Unit := do
  writeBooleans heap (x.take length.toNat)
  let s ← Program.get
  if s.goodBit then pure () else Program.throw .earlier

/-! ### Strings -/

/-- A string of `len` characters, followed in memory by its terminator. -/
def writeStringLen (len : ULong) (x : List Octet) : Writer Unit :=
  if len ≠ 0 then do
    writeUlong heap (len + 1)
    writeCharArray heap (x ++ [0]) (len + 1)
  else do
    writeUlong heap 1
    writeChar heap 0

/-- A string, whose length is cast to `ULong`. -/
def writeString (x : List Octet) : Writer Unit :=
  writeStringLen heap (BitVec.ofNat 32 x.length) x

/-! ### Chains of message blocks -/

/-- What chaining a block of the caller does. The blocks behind `current_` are released. -/
def chain (i : SourceBlock) (s : OutputCDR) : OutputCDR :=
  { s with
    goodBit := true
    done := s.done ++ [s.current]
    current := i.duplicate
    cont := []
    currentIsWritable := false
    currentAlignment := (s.currentAlignment + i.contents.length) % maxAlignment }

/-- A small block that fits is copied, and so is a block that does not own its data. The length of a
copy is cast to `ULong`. -/
def writeOctetArrayMb : List SourceBlock → Writer Unit
  | [] => pure ()
  | i :: mb => do
    let s ← Program.get
    let length := i.contents.length
    if i.dontDelete ∨
        (length < s.memcpyTradeoff ∧ s.current.wrPtr + length < s.current.maxSize) then do
      writeArray heap 1 1 i.contents (length % 2 ^ 32)
      writeOctetArrayMb mb
    else do
      Program.modify (chain i)
      writeOctetArrayMb mb

/-! ### Wide characters -/

section Wide

variable (wcharMaxbytes : ℕ)

/-- Wide characters are not allowed with GIOP 1.0. -/
def writeWchar (x : WChar) : Writer Unit := do
  let s ← Program.get
  if wcharMaxbytes = 0 then fail .unsupported
  else if s.giop12 then do
    let len : Octet := BitVec.ofNat 8 wcharMaxbytes
    write1 heap len
    if wcharMaxbytes = 4 then writeArray heap 1 1 (image 4 x) len.toNat
    else if wcharMaxbytes = 2 then
      writeArray heap 1 1 (image 2 (x.setWidth 16)) len.toNat
    else writeArray heap 1 1 (image 1 (x.setWidth 8)) len.toNat
  else if s.minorVersion = 0 then fail .unsupported
  else if wcharMaxbytes = 4 then write4 heap x
  else if wcharMaxbytes = 2 then write2 heap (x.setWidth 16)
  else write1 heap (x.setWidth 8)

/-- An array of wide characters that are shorter in the stream than in memory. -/
def writeWcharArrayI (x : List WChar) (length : ULong) : Writer Unit :=
  if length = 0 then pure ()
  else do
    let align := if wcharMaxbytes = 2 then 2 else 1
    let buf ← adjust heap (wcharMaxbytes * length.toNat % 2 ^ 64) align
    let s ← Program.get
    let x := x.take length.toNat
    if wcharMaxbytes = 2 then
      store buf (x.flatMap fun c =>
        let sx := image 2 (c.setWidth 16)
        if s.doByteSwap then sx.reverse else sx)
    else store buf (x.flatMap fun c => image 1 (c.setWidth 8))
    if s.goodBit then pure () else Program.throw .earlier

def writeWcharArray (x : List WChar) (length : ULong) : Writer Unit :=
  if wcharMaxbytes = 0 then fail .unsupported
  else if wcharMaxbytes = 4 then writeArray heap 4 4 (arrayImage 4 x) length.toNat
  else writeWcharArrayI heap wcharMaxbytes x length

/-- A wide string of `len` characters, followed in memory by its terminator; `none` is a null
pointer. In GIOP 1.2 the length is in bytes and there is no terminator. -/
def writeWstringLen (len : ULong) (x : Option (List WChar)) : Writer Unit := do
  let s ← Program.get
  if wcharMaxbytes = 0 then fail .unsupported
  else if s.giop12 then
    match x with
    | some x => do
      writeUlong heap (InputCDR.truncateCast (wcharMaxbytes * len.toNat))
      writeWcharArray heap wcharMaxbytes (x ++ [0]) len
    | none => writeUlong heap 0
  else
    match x with
    | some x => do
      writeUlong heap (len + 1)
      writeWcharArray heap wcharMaxbytes (x ++ [0]) (len + 1)
    | none => do
      writeUlong heap 1
      writeWchar heap wcharMaxbytes 0

/-- A wide string given by a pointer. -/
def writeWstring (x : List WChar) : Writer Unit :=
  writeWstringLen heap wcharMaxbytes (BitVec.ofNat 32 x.length) (some x)

/-- A wide string given as a `std::wstring`. -/
def writeStdWstring (x : List WChar) : Writer Unit :=
  writeWstringLen heap wcharMaxbytes (BitVec.ofNat 32 x.length) (if x = [] then none else some x)

end Wide

end OutputCDR

end AceTao.Cdr
