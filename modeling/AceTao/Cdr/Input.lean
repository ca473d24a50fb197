import AceTao.Cdr.Types
import AceTao.Library.Machine
import AceTao.Library.Program

/-!
# Extracting values from a CDR stream

`ACE_InputCDR` extracts typed values from a message held in one buffer. The buffer is given by the
address of its first byte and by its bytes up to `wr_ptr`; `rd_ptr` is an address, and so is what
`adjust` computes from it, modulo `2 ^ 64`. A load outside the buffer has no answer.

Every operation of the source answers a `Boolean`. Here it is a `Program` that ends with the value
read, or with the reason (`Failure`) why the answer is `false`; the reason is not part of the
state, and no operation depends on it.

The host is little-endian and its `wchar_t` has four bytes. Swapping on read is enabled. The
procedures that reverse the bytes of arrays in unrolled loops are `ByteImage.swapArray`. A
destination is large enough and memory is never exhausted.
-/

namespace AceTao.Cdr

open ByteImage

/-- Buffers lie in the lower half of the address space. -/
def addressLimit : ℕ := 2 ^ 63

/-- Why an operation answers `false`: a test of the bounds failed, the bytes are not those of a
value, the operation is not available for wide characters of the configured size, or an earlier
operation failed. -/
inductive Failure
  | bounds
  | content
  | unsupported
  | earlier
  deriving DecidableEq, Repr

/-- The state of an `ACE_InputCDR`: its buffer up to `wr_ptr`, `rd_ptr`, and its flags. -/
structure InputCDR where
  base : ℕ
  data : List UInt8
  rdPtr : ℕ
  doByteSwap : Bool
  goodBit : Bool
  majorVersion : UInt8
  minorVersion : UInt8
  fits : base + data.length ≤ addressLimit

/-- An operation on the stream. -/
abbrev Reader (α : Type) := Program InputCDR Failure α

namespace InputCDR

def wrPtr (s : InputCDR) : ℕ := s.base + s.data.length

/-- The bytes left, a difference of pointers in `size_t`. -/
def length (s : InputCDR) : ℕ := (s.wrPtr + 2 ^ 64 - s.rdPtr) % 2 ^ 64

def giop12 (s : InputCDR) : Bool := s.majorVersion = 1 && s.minorVersion = 2

/-- Move `rd_ptr`. -/
def setRdPtr (s : InputCDR) (ptr : ℕ) : InputCDR := { s with rdPtr := ptr % 2 ^ 64 }

/-- Set the flag. -/
def setGoodBit (s : InputCDR) (b : Bool) : InputCDR := { s with goodBit := b }

section Projections

variable (s : InputCDR) (p : ℕ) (b : Bool)

@[simp] theorem setRdPtr_base : (s.setRdPtr p).base = s.base := rfl
@[simp] theorem setRdPtr_data : (s.setRdPtr p).data = s.data := rfl
@[simp] theorem setRdPtr_rdPtr : (s.setRdPtr p).rdPtr = p % 2 ^ 64 := rfl
@[simp] theorem setRdPtr_wrPtr : (s.setRdPtr p).wrPtr = s.wrPtr := rfl
@[simp] theorem setRdPtr_goodBit : (s.setRdPtr p).goodBit = s.goodBit := rfl
@[simp] theorem setRdPtr_doByteSwap : (s.setRdPtr p).doByteSwap = s.doByteSwap := rfl
@[simp] theorem setRdPtr_giop12 : (s.setRdPtr p).giop12 = s.giop12 := rfl
@[simp] theorem setGoodBit_base : (s.setGoodBit b).base = s.base := rfl
@[simp] theorem setGoodBit_data : (s.setGoodBit b).data = s.data := rfl
@[simp] theorem setGoodBit_rdPtr : (s.setGoodBit b).rdPtr = s.rdPtr := rfl
@[simp] theorem setGoodBit_wrPtr : (s.setGoodBit b).wrPtr = s.wrPtr := rfl
@[simp] theorem setGoodBit_goodBit : (s.setGoodBit b).goodBit = b := rfl
@[simp] theorem setGoodBit_doByteSwap : (s.setGoodBit b).doByteSwap = s.doByteSwap := rfl
@[simp] theorem setGoodBit_giop12 : (s.setGoodBit b).giop12 = s.giop12 := rfl

end Projections

/-! ### The buffer -/

/-- The answer `false`, with the flag cleared. -/
def fail {α : Type} (e : Failure) : Reader α := do
  Program.modify fun s => s.setGoodBit false
  Program.throw e

/-- Clear the flag where an operation answers `false`. -/
def orFail {α : Type} (m : Reader α) : Reader α := Program.handle m fail

/-- The flag takes the answer of a translator. -/
def assignGoodBit {α : Type} (m : Reader α) : Reader α :=
  Program.handle (do
    let x ← m
    Program.modify fun s => s.setGoodBit true
    pure x) fail

/-- The answer of an operation that ends with `return this->good_bit_`. -/
def returnGoodBit {α : Type} (x : α) : Reader α := do
  let s ← Program.get
  if s.goodBit then pure x else Program.throw .earlier

/-- The `n` bytes at an address. -/
def load (addr n : ℕ) : Reader (List UInt8) := do
  let s ← Program.get
  if s.base ≤ addr ∧ addr + n ≤ s.wrPtr then
    pure ((s.data.drop (addr - s.base)).take n)
  else Program.undefined

def adjust (size align : ℕ) : Reader ℕ := do
  let s ← Program.get
  let buf := alignBinary s.rdPtr align
  let last := (buf + size) % 2 ^ 64
  if last ≤ s.wrPtr then do
    Program.modify fun s => s.setRdPtr last
    pure buf
  else fail .bounds

/-! ### Words -/

def read1 : Reader Octet := do
  let s ← Program.get
  if s.rdPtr < s.wrPtr then do
    let bytes ← load s.rdPtr 1
    Program.modify fun s => s.setRdPtr (s.rdPtr + 1)
    pure (ofImage 1 bytes)
  else fail .bounds

/-- What `read_2`, `read_4`, `read_8` and `read_16` do. -/
def readWord (size align : ℕ) : Reader (BitVec (8 * size)) := do
  let buf ← orFail (adjust size align)
  let s ← Program.get
  let bytes ← load buf size
  pure (ofImage size (if s.doByteSwap then bytes.reverse else bytes))

def read2 : Reader UShort := readWord 2 2
def read4 : Reader ULong := readWord 4 4
def read8 : Reader ULongLong := readWord 8 8
def read16 : Reader LongDouble := readWord 16 8

def readOctet : Reader Octet := read1
def readShort : Reader UShort := read2
def readUshort : Reader UShort := read2
def readLong : Reader ULong := read4
def readUlong : Reader ULong := read4
def readLonglong : Reader ULongLong := read8
def readUlonglong : Reader ULongLong := read8
def readFloat : Reader ULong := read4
def readDouble : Reader ULongLong := read8
def readLongdouble : Reader LongDouble := read16
def readInt8 : Reader Octet := read1
def readUint8 : Reader Octet := read1

/-- An octet other than 0 and 1 is a failure. -/
def readBoolean : Reader Bool := do
  let tmp ← readOctet
  Program.modify fun s => s.setGoodBit (tmp &&& ~~~1 == 0)
  let s ← Program.get
  if s.goodBit then pure (tmp ≠ 0) else Program.throw .content

/-! ### Arrays -/

/-- The image of an array of `length` elements of `size` bytes. -/
def readArray (size align length : ℕ) : Reader (List UInt8) :=
  if length = 0 then pure []
  else do
    let buf ← adjust (size * length % 2 ^ 64) align
    let s ← Program.get
    let bytes ← load buf (size * length % 2 ^ 64)
    if !s.doByteSwap || size = 1 then returnGoodBit bytes
    else if size = 2 ∨ size = 4 ∨ size = 8 ∨ size = 16 then
      returnGoodBit (swapArray size length bytes)
    else fail .content

/-- What the typed array operations do: the test that the elements fit in what is left of the
stream comes before the padding is known. -/
def readWordArray (size align : ℕ) (length : ULong) : Reader (List (BitVec (8 * size))) := do
  let s ← Program.get
  if length.toNat * size % 2 ^ 64 > s.length then fail .bounds
  else do
    let bytes ← readArray size align length.toNat
    pure (ofArrayImage size length.toNat bytes)

def readOctetArray : ULong → Reader (List Octet) := readWordArray 1 1
def readInt8Array : ULong → Reader (List Octet) := readWordArray 1 1
def readUint8Array : ULong → Reader (List Octet) := readWordArray 1 1
def readShortArray : ULong → Reader (List UShort) := readWordArray 2 2
def readUshortArray : ULong → Reader (List UShort) := readWordArray 2 2
def readLongArray : ULong → Reader (List ULong) := readWordArray 4 4
def readUlongArray : ULong → Reader (List ULong) := readWordArray 4 4
def readLonglongArray : ULong → Reader (List ULongLong) := readWordArray 8 8
def readUlonglongArray : ULong → Reader (List ULongLong) := readWordArray 8 8
def readFloatArray : ULong → Reader (List ULong) := readWordArray 4 4
def readDoubleArray : ULong → Reader (List ULongLong) := readWordArray 8 8
def readLongdoubleArray : ULong → Reader (List LongDouble) := readWordArray 16 8

/-- The loop over the elements of an array of booleans stops where the flag is clear. -/
def readBooleans : ℕ → Reader (List Bool)
  | 0 => returnGoodBit []
  | n + 1 => do
    let s ← Program.get
    if s.goodBit then do
      let x ← readBoolean
      let xs ← readBooleans n
      pure (x :: xs)
    else Program.throw .earlier

def readBooleanArray (length : ULong) : Reader (List Bool) := do
  let s ← Program.get
  if length.toNat > s.length then fail .bounds
  else readBooleans length.toNat

/-! ### Characters -/

end InputCDR

/-- What a translator of characters does on a stream. -/
structure CharTranslator where
  readChar : Reader Octet
  readString : Reader (List Octet)
  readStdString : Reader (List Octet)
  readCharArray : ULong → Reader (List Octet)

/-- What a translator of wide characters does on a stream. -/
structure WcharTranslator where
  readWchar : Reader WChar
  readWstring : Reader (List WChar)
  readStdWstring : Reader (List WChar)
  readWcharArray : ULong → Reader (List WChar)

/-- How characters are read: the size of a wide character in the stream, which is a static member
of `ACE_OutputCDR`, and the translators of the stream. -/
structure Codeset where
  wcharMaxbytes : ℕ
  charTranslator : Option CharTranslator
  wcharTranslator : Option WcharTranslator

/-- No translators. -/
def Codeset.plain (wcharMaxbytes : ℕ) : Codeset := ⟨wcharMaxbytes, none, none⟩

namespace InputCDR

variable (c : Codeset)

def readChar : Reader Octet :=
  match c.charTranslator with
  | none => read1
  | some t => t.readChar

def readCharArray (length : ULong) : Reader (List Octet) := do
  let s ← Program.get
  if length.toNat > s.length then fail .bounds
  else
    match c.charTranslator with
    | none => do
      let bytes ← readArray 1 1 length.toNat
      pure (ofArrayImage 1 length.toNat bytes)
    | some t => t.readCharArray length

/-- What a write of the low bytes of a wide character leaves in it. -/
def overlay (bytes : List UInt8) (stale : WChar) : WChar :=
  ofImage 4 ((bytes ++ (image 4 stale).drop bytes.length).take 4)

/-- A wide character. `stale` is what the destination held before, which a character of fewer
bytes leaves in part. -/
def readWchar (stale : WChar) : Reader WChar :=
  match c.wcharTranslator with
  | some t => assignGoodBit t.readWchar
  | none => do
    let s ← Program.get
    if c.wcharMaxbytes = 0 then fail .unsupported
    else if c.wcharMaxbytes = 4 then
      if s.giop12 then do
        let len ← orFail read1
        let bytes ← readArray len.toNat 1 1
        pure (overlay bytes stale)
      else read4
    else if s.giop12 then orFail do
      let len ← read1
      if len = 2 then do
        let bytes ← readArray len.toNat 1 1
        -- a `Short` holds the two bytes
        pure ((ofImage 2 bytes).signExtend 32)
      else do
        let bytes ← readArray len.toNat 1 1
        pure ((overlay bytes stale).setWidth 8 |>.setWidth 32)
    else if c.wcharMaxbytes = 2 then orFail do
      let sx ← read2
      pure (sx.setWidth 32)
    else orFail do
      let ox ← read1
      pure (ox.setWidth 32)

/-- An array of wide characters that are shorter in the stream than in memory. -/
def readWcharArrayI (length : ULong) : Reader (List WChar) :=
  if length = 0 then pure []
  else do
    let align := if c.wcharMaxbytes = 2 then 2 else 1
    let buf ← adjust (c.wcharMaxbytes * length.toNat % 2 ^ 64) align
    let s ← Program.get
    if c.wcharMaxbytes = 2 then do
      let bytes ← load buf (2 * length.toNat)
      let sb := if s.doByteSwap then swapArray 2 length.toNat bytes else bytes
      returnGoodBit ((ofArrayImage 2 length.toNat sb).map fun x => x.setWidth 32)
    else do
      let bytes ← load buf length.toNat
      returnGoodBit ((ofArrayImage 1 length.toNat bytes).map fun x => x.setWidth 32)

def readWcharArray (length : ULong) : Reader (List WChar) := do
  let s ← Program.get
  if length.toNat * c.wcharMaxbytes % 2 ^ 64 > s.length then fail .bounds
  else
    match c.wcharTranslator with
    | some t => t.readWcharArray length
    | none =>
      if c.wcharMaxbytes ≠ 4 then readWcharArrayI c length
      else do
        let bytes ← readArray 4 4 length.toNat
        pure (ofArrayImage 4 length.toNat bytes)

/-! ### Skipping -/

def skipOctet : Reader Unit := do
  let _ ← read1

def skipChar : Reader Unit := skipOctet

def skipBoolean : Reader Unit := do
  skipOctet
  returnGoodBit ()

def skipUshort : Reader Unit := do
  let _ ← read2

def skipShort : Reader Unit := skipUshort

def skipUlong : Reader Unit := do
  let _ ← read4

def skipLong : Reader Unit := skipUlong

def skipUlonglong : Reader Unit := do
  let _ ← read8

def skipLonglong : Reader Unit := skipUlonglong

def skipFloat : Reader Unit := skipUlong

def skipDouble : Reader Unit := skipUlonglong

def skipLongdouble : Reader Unit := do
  let _ ← read16

/-- The octets of a fixed point number, up to the one whose low half is a sign. -/
def skipFixedOctets : ℕ → Reader Unit
  | 0 => Program.throw .content
  | n + 1 => do
    let x ← read1
    if x &&& 0xf = 0xc ∨ x &&& 0xf = 0xd then pure ()
    else skipFixedOctets n

def skipFixed : Reader Unit := skipFixedOctets 16

def skipBytes (len : ℕ) : Reader Unit := do
  let s ← Program.get
  if (s.rdPtr + len) % 2 ^ 64 ≤ s.wrPtr then
    Program.modify fun s => s.setRdPtr (s.rdPtr + len)
  else fail .bounds

/-- A length of all ones announces an indirection. -/
def skipString : Reader Unit := do
  let len ← readUlong
  if len = BitVec.allOnes 32 then do
    let _ ← orFail readLong
  else do
    let s ← Program.get
    if (s.rdPtr + len.toNat) % 2 ^ 64 ≤ s.wrPtr then
      Program.modify fun s => s.setRdPtr (s.rdPtr + len.toNat)
    else fail .bounds

def skipWchar : Reader Unit := do
  let s ← Program.get
  if s.giop12 then do
    let len ← orFail read1
    skipBytes len.toNat
  else if c.wcharMaxbytes = 2 then do
    let _ ← read2
  else do
    let _ ← read4

/-- The loop that skips the characters of a wide string one by one. -/
def skipWchars : ℕ → Reader Unit
  | 0 => pure ()
  | n + 1 => do
    skipWchar c
    skipWchars n

def skipWstring : Reader Unit := do
  let len ← readUlong
  if len ≠ 0 then do
    let s ← Program.get
    if s.giop12 then skipBytes len.toNat else skipWchars c len.toNat
  else pure ()

/-! ### Strings -/

/-- The octets of a fixed point number. -/
def readFixedOctets : ℕ → Reader (List Octet)
  | 0 => Program.throw .content
  | n + 1 => do
    let x ← read1
    if x &&& 0xf = 0xc ∨ x &&& 0xf = 0xd then pure [x]
    else do
      let xs ← readFixedOctets n
      pure (x :: xs)

def readFixed : Reader (List Octet) := readFixedOctets 16

/-- A string up to its terminator. -/
def cString {n : ℕ} (x : List (BitVec n)) : List (BitVec n) := x.takeWhile (· ≠ 0)

/-- A string as an array of characters with its terminator. -/
def readString : Reader (List Octet) :=
  match c.charTranslator with
  | some t => assignGoodBit t.readString
  | none => do
    let len ← readUlong
    let s ← Program.get
    if 0 < len.toNat ∧ len.toNat ≤ s.length then orFail (readCharArray c len)
    else if len = 0 then pure [0]
    else fail .bounds

/-- A string as an `ACE_CString`. -/
def readAceString : Reader (List Octet) := orFail do
  let data ← readString c
  pure (cString data)

/-- A string as a `std::string`. -/
def readStdString : Reader (List Octet) :=
  match c.charTranslator with
  | some t => assignGoodBit t.readStdString
  | none => do
    let len ← readUlong
    let s ← Program.get
    if 0 < len.toNat ∧ len.toNat ≤ s.length then do
      let x ← orFail (readCharArray c (len - 1))
      skipChar
      pure x
    else fail (if len = 0 then .content else .bounds)

/-- A saturating cast to `ULong`. -/
def truncateCast (n : ℕ) : ULong := BitVec.ofNat 32 (min n (2 ^ 32 - 1))

/-- A wide string as an array of characters with its terminator. -/
def readWstring : Reader (List WChar) :=
  match c.wcharTranslator with
  | some t => assignGoodBit t.readWstring
  | none =>
    if c.wcharMaxbytes = 0 then fail .unsupported
    else do
      let len ← readUlong
      let s ← Program.get
      if 0 < len.toNat ∧ len.toNat ≤ s.length then
        if s.giop12 then do
          let x ← orFail (readWcharArray c (len / truncateCast c.wcharMaxbytes))
          pure (x ++ [0])
        else orFail (readWcharArray c len)
      else if len = 0 then pure [0]
      else fail .bounds

/-- A wide string as a `std::wstring`. -/
def readStdWstring : Reader (List WChar) :=
  match c.wcharTranslator with
  | some t => assignGoodBit t.readStdWstring
  | none =>
    if c.wcharMaxbytes = 0 then fail .unsupported
    else do
      let len ← readUlong
      let s ← Program.get
      if 0 < len.toNat ∧ len.toNat ≤ s.length then
        if s.giop12 then orFail (readWcharArray c (len / truncateCast c.wcharMaxbytes))
        else do
          let x ← if len = 1 then pure [] else orFail (readWcharArray c (len - 1))
          skipWchar c
          pure x
      else if len = 0 then pure []
      else fail .bounds

end InputCDR

end AceTao.Cdr

/-!
## Sequences of extractions

The calls a program can make on an `ACE_InputCDR` and the machine they drive: the state is the
stream, the output of a call is its answer, with the value read left out.
-/

namespace AceTao.Cdr

/-- The destinations of a string. -/
inductive StringForm
  | chars | aceString | stdString

/-- The destinations of a wide string. -/
inductive WstringForm
  | wchars | stdWstring

inductive Call
  | read (x : Scalar)
  | readArray (x : Scalar) (length : ULong)
  | readBoolean
  | readBooleanArray (length : ULong)
  | readChar
  | readCharArray (length : ULong)
  | readWchar (stale : WChar)
  | readWcharArray (length : ULong)
  | readString (form : StringForm)
  | readWstring (form : WstringForm)
  | readFixed
  | skip (x : Scalar)
  | skipBoolean
  | skipChar
  | skipWchar
  | skipString
  | skipWstring
  | skipFixed
  | skipBytes (len : ULongLong)

namespace InputCDR

/-- Forget the value read. -/
def dropValue {α : Type} (m : Reader α) : Reader Unit := do
  let _ ← m

def readScalar : (x : Scalar) → Reader x.Value
  | .octet => readOctet
  | .int8 => readInt8
  | .uint8 => readUint8
  | .short => readShort
  | .ushort => readUshort
  | .long => readLong
  | .ulong => readUlong
  | .longlong => readLonglong
  | .ulonglong => readUlonglong
  | .float => readFloat
  | .double => readDouble
  | .longdouble => readLongdouble

def readScalarArray (length : ULong) : (x : Scalar) → Reader (List x.Value)
  | .octet => readOctetArray length
  | .int8 => readInt8Array length
  | .uint8 => readUint8Array length
  | .short => readShortArray length
  | .ushort => readUshortArray length
  | .long => readLongArray length
  | .ulong => readUlongArray length
  | .longlong => readLonglongArray length
  | .ulonglong => readUlonglongArray length
  | .float => readFloatArray length
  | .double => readDoubleArray length
  | .longdouble => readLongdoubleArray length

/-- There is no separate skip of a signed or unsigned octet. -/
def skipScalar : Scalar → Reader Unit
  | .octet | .int8 | .uint8 => skipOctet
  | .short => skipShort
  | .ushort => skipUshort
  | .long => skipLong
  | .ulong => skipUlong
  | .longlong => skipLonglong
  | .ulonglong => skipUlonglong
  | .float => skipFloat
  | .double => skipDouble
  | .longdouble => skipLongdouble

def perform (c : Codeset) : Call → Reader Unit
  | .read x => dropValue (readScalar x)
  | .readArray x length => dropValue (readScalarArray length x)
  | .readBoolean => dropValue readBoolean
  | .readBooleanArray length => dropValue (readBooleanArray length)
  | .readChar => dropValue (readChar c)
  | .readCharArray length => dropValue (readCharArray c length)
  | .readWchar stale => dropValue (readWchar c stale)
  | .readWcharArray length => dropValue (readWcharArray c length)
  | .readString .chars => dropValue (readString c)
  | .readString .aceString => dropValue (readAceString c)
  | .readString .stdString => dropValue (readStdString c)
  | .readWstring .wchars => dropValue (readWstring c)
  | .readWstring .stdWstring => dropValue (readStdWstring c)
  | .readFixed => dropValue readFixed
  | .skip x => skipScalar x
  | .skipBoolean => skipBoolean
  | .skipChar => skipChar
  | .skipWchar => skipWchar c
  | .skipString => skipString
  | .skipWstring => skipWstring c
  | .skipFixed => skipFixed
  | .skipBytes len => skipBytes len.toNat

/-- **The machine**: a call and its answer. -/
def step (c : Codeset) (s : InputCDR) (call : Call) : Option (InputCDR × Except Failure Unit) :=
  (perform c call s).map Prod.swap

theorem step_eq_some {c : Codeset} {s t : InputCDR} {call : Call} {r : Except Failure Unit} :
    step c s call = some (t, r) ↔ perform c call s = some (r, t) := by
  rw [step, Option.map_eq_some_iff]
  constructor
  · rintro ⟨⟨r', t'⟩, h, heq⟩
    cases heq
    exact h
  · exact fun h => ⟨(r, t), h, rfl⟩

end InputCDR

end AceTao.Cdr
