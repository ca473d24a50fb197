import AceTao.Cdr.Destination
import AceTao.Cdr.OutputSpec
import AceTao.Marshal.Skip

/-!
# Appending sequences and arrays

`TAO_Marshal_Sequence::append` and `TAO_Marshal_Array::append` copy the elements of a sequence or an
array from one stream to another. Elements of a basic type are copied all at once: `adjust` reserves
their bytes in the destination, and one of the array operations of the source stream stores into
them. The store is checked here against the bytes that are reserved, from `buf` to `wr_ptr`
(`appendBulk`), and has no answer when there are too few. The elements of the other types are
appended one by one, and what appends one of them is a parameter.

The streams have no translators. What an operation that answers `false` has stored is left out, since
the append throws then.
-/

namespace AceTao.Cdr.InputCDR

open ByteImage

/-- What the typed array operations do, with an array of so many bytes. -/
def readWordArrayInto (size align room : ℕ) (length : ULong) : Reader (List UInt8) := do
  let s ← Program.get
  if length.toNat * size % 2 ^ 64 > s.length then fail .bounds
  else readArrayInto room size align length.toNat

/-- The loop over the elements of an array of booleans, with room for so many octets. -/
def readBooleansInto : ℕ → ℕ → Reader (List UInt8)
  | _, 0 => returnGoodBit []
  | room, n + 1 => do
    let s ← Program.get
    if s.goodBit then do
      let x ← readBoolean
      let first ← store room (image 1 (if x then 1 else 0))
      let rest ← readBooleansInto (room - 1) n
      pure (first ++ rest)
    else Program.throw .earlier

def readBooleanArrayInto (room : ℕ) (length : ULong) : Reader (List UInt8) := do
  let s ← Program.get
  if length.toNat > s.length then fail .bounds
  else readBooleansInto room length.toNat

/-- `read_wchar_array`, with an array of so many bytes. In memory a wide character has four. -/
def readWcharBytesInto (n room : ℕ) (length : ULong) : Reader (List UInt8) := do
  let x ← readWcharArrayInto (.plain n) (room / 4) length
  pure (arrayImage 4 x)

end AceTao.Cdr.InputCDR

namespace AceTao.Marshal

open Cdr InputCDR

/-- The stream that is read and the one that is written. -/
structure Streams where
  src : InputCDR
  dest : OutputCDR

/-- A step of the traversal of two streams. -/
abbrev Appender (α : Type) := Program Streams SystemException α

variable {α R : Type}

/-- An operation of the source. -/
def source (m : Reader α) : Appender α := fun s =>
  (m s.src).map fun r => (r.1.mapError fun _ => .marshal, ⟨r.2, s.dest⟩)

/-- An operation of the destination. -/
def destination (m : Writer α) : Appender α := fun s =>
  (m s.dest).map fun r => (r.1.mapError fun _ => .marshal, ⟨s.src, r.2⟩)

/-- How elements are copied all at once: the size and the alignment for `adjust`, and the operation
that reads an array of so many bytes. -/
structure Bulk where
  size : ℕ
  align : ℕ
  read : ℕ → ULong → Reader (List UInt8)

/-- The operation for each kind, for wide characters of `n` bytes. -/
def TypeCode.bulk (n : ℕ) : TypeCode R → Option Bulk
  | .octet => some ⟨1, 1, readWordArrayInto 1 1⟩
  | .boolean => some ⟨1, 1, readBooleanArrayInto⟩
  | .char => some ⟨1, 1, readWordArrayInto 1 1⟩
  | .short | .ushort => some ⟨2, 2, readWordArrayInto 2 2⟩
  | .wchar => some ⟨2, 2, readWcharBytesInto n⟩
  | .long | .ulong | .float => some ⟨4, 4, readWordArrayInto 4 4⟩
  | .double | .longlong | .ulonglong => some ⟨8, 8, readWordArrayInto 8 8⟩
  | .longdouble => some ⟨16, 8, readWordArrayInto 16 8⟩
  | _ => none

section Append

variable (heap : ℕ → ℕ) (memory : ℕ → Bool)

/-- Elements that are copied all at once. Nothing is read when `adjust` fails. -/
def appendBulk (b : Bulk) (bounds : ULong) : Appender TraverseStatus := do
  match ← destination
      (OutputCDR.adjustWithin heap memory (b.size * bounds.toNat % 2 ^ 64) b.align).attempt with
  | none => pure .traverseContinue
  | some buf => do
    let s ← Program.get
    let bytes ← source (b.read (s.dest.current.wrPtr - buf) bounds)
    destination (OutputCDR.store buf bytes)
    pure .traverseContinue

/-- The elements of a sequence or an array, given what appends one of them. -/
def appendElements (append : Appender TraverseStatus) (n : ℕ) (content : TypeCode R)
    (bounds : ULong) : Appender TraverseStatus :=
  match content.bulk n with
  | some b => appendBulk heap memory b bounds
  | none => mustContinue (traverse (List.replicate bounds.toNat append))

def MarshalSequence.append (append : Appender TraverseStatus) (n : ℕ) (content : TypeCode R) :
    Appender TraverseStatus := do
  let bounds ← source readUlong
  destination (OutputCDR.writeUlongWithin heap memory bounds)
  if bounds = 0 then pure .traverseContinue
  else appendElements heap memory append n content bounds

def MarshalArray.append (append : Appender TraverseStatus) (n : ℕ) (content : TypeCode R)
    (length : ULong) : Appender TraverseStatus :=
  appendElements heap memory append n content length

end Append

end AceTao.Marshal
