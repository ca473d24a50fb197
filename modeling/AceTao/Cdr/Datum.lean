import AceTao.Cdr.OutputSpec

/-!
# Values and their bytes in a stream

The values a program inserts one after the other (`Datum`), the operation that inserts each, and
the bytes it is expected to leave in the stream: `Datum.put` appends to a stream the padding and
the bytes of a value, whatever blocks the stream is made of. `Datum.writes` says that the
operations do exactly this.
-/

namespace AceTao.Cdr

open Program ByteImage AlignUp

/-- **A typed value.** The length of an array is a `ULong` by its type. -/
inductive Datum
  | scalar (x : Scalar) (v : x.Value)
  | boolean (b : Bool)
  | char (c : Octet)
  | string (cs : List Octet)
  | array (x : Scalar) (vs : List x.Value) (h : vs.length < 2 ^ 32)
  | booleanArray (bs : List Bool) (h : bs.length < 2 ^ 32)
  | charArray (cs : List Octet) (h : cs.length < 2 ^ 32)

/-! ### The expected bytes -/

def booleanOctet (b : Bool) : Octet := if b then 1 else 0

/-- The bytes of a string: its length with the terminator, a `ULong`, and its characters. -/
def putString (swap : Bool) (cs : List Octet) (w : Wire) : Wire :=
  let len : ULong := BitVec.ofNat 32 cs.length
  if len = 0 then put 1 (image 1 0) (put 4 (wireImage 4 swap 1) w)
  else putArray 1 swap 1 ((cs ++ [0]).take (len + 1).toNat) (put 4 (wireImage 4 swap (len + 1)) w)

/-- **The bytes of a value** behind those that are in the stream. -/
def Datum.put (swap : Bool) : Datum → Wire → Wire
  | .scalar x v, w => Cdr.put x.align (wireImage x.size swap v) w
  | .boolean b, w => Cdr.put 1 (image 1 (booleanOctet b)) w
  | .char c, w => Cdr.put 1 (image 1 c) w
  | .string cs, w => putString swap cs w
  | .array x vs _, w => putArray x.size swap x.align vs w
  | .booleanArray bs _, w => bs.foldl (fun w b => Cdr.put 1 (image 1 (booleanOctet b)) w) w
  | .charArray cs _, w => putArray 1 swap 1 cs w

namespace OutputCDR

variable (heap : ℕ → ℕ) {s : OutputCDR}

/-! ### The operations -/

def writeScalar : (x : Scalar) → x.Value → Writer Unit
  | .octet => writeOctet heap
  | .int8 => writeInt8 heap
  | .uint8 => writeUint8 heap
  | .short => writeShort heap
  | .ushort => writeUshort heap
  | .long => writeLong heap
  | .ulong => writeUlong heap
  | .longlong => writeLonglong heap
  | .ulonglong => writeUlonglong heap
  | .float => writeFloat heap
  | .double => writeDouble heap
  | .longdouble => writeLongdouble heap

def writeScalarArray : (x : Scalar) → List x.Value → ULong → Writer Unit
  | .octet => writeOctetArray heap
  | .int8 => writeInt8Array heap
  | .uint8 => writeUint8Array heap
  | .short => writeShortArray heap
  | .ushort => writeUshortArray heap
  | .long => writeLongArray heap
  | .ulong => writeUlongArray heap
  | .longlong => writeLonglongArray heap
  | .ulonglong => writeUlonglongArray heap
  | .float => writeFloatArray heap
  | .double => writeDoubleArray heap
  | .longdouble => writeLongdoubleArray heap

/-- The operation that inserts a value. -/
def writeDatum : Datum → Writer Unit
  | .scalar x v => writeScalar heap x v
  | .boolean b => writeBoolean heap b
  | .char c => writeChar heap c
  | .string cs => writeString heap cs
  | .array x vs _ => writeScalarArray heap x vs (BitVec.ofNat 32 vs.length)
  | .booleanArray bs _ => writeBooleanArray heap bs (BitVec.ofNat 32 bs.length)
  | .charArray cs _ => writeCharArray heap cs (BitVec.ofNat 32 cs.length)

/-! ### What they insert -/

theorem writes_writeScalar (h : Ready s) (x : Scalar) (v : x.Value) :
    Writes (writeScalar heap x v) s (put x.align (wireImage x.size s.doByteSwap v) s.wire) := by
  cases x with
  | octet | int8 | uint8 =>
    rw [show wireImage _ s.doByteSwap v = image 1 v from wireImage_one s.doByteSwap v]
    exact writes_write1 h v
  | short | ushort => exact writes_writeWord h isAlign_two v
  | long | ulong | float => exact writes_writeWord h isAlign_four v
  | longlong | ulonglong | double | longdouble => exact writes_writeWord h isAlign_eight v

/-- An array whose length is given in full. -/
theorem writes_writeWordArray_length {size align : ℕ} {xs : List (BitVec (8 * size))}
    (h : Ready s) (ha : IsAlign align)
    (hsize : size = 1 ∨ size = 2 ∨ size = 4 ∨ size = 8 ∨ size = 16) (hlen : xs.length < 2 ^ 32) :
    Writes (writeWordArray heap size align xs (BitVec.ofNat 32 xs.length)) s
      (putArray size s.doByteSwap align xs s.wire) := by
  have hnat : (BitVec.ofNat 32 xs.length).toNat = xs.length := by
    rw [BitVec.toNat_ofNat, Nat.mod_eq_of_lt hlen]
  have hwrites := writes_writeWordArray heap h ha hsize hnat.le
  rwa [hnat, List.take_length] at hwrites

theorem writes_writeScalarArray (h : Ready s) (x : Scalar) (vs : List x.Value)
    (hlen : vs.length < 2 ^ 32) :
    Writes (writeScalarArray heap x vs (BitVec.ofNat 32 vs.length)) s
      (putArray x.size s.doByteSwap x.align vs s.wire) := by
  have hwrites := writes_writeWordArray_length heap h x.isAlign x.size_cases hlen
  cases x <;> exact hwrites

theorem writes_writeBooleans (bs : List Bool) (h : Ready s) : Writes (writeBooleans heap bs) s
    (bs.foldl (fun w b => put 1 (image 1 (booleanOctet b)) w) s.wire) := by
  induction bs generalizing s with
  | nil => exact writes_pure h
  | cons b bs ih =>
    have hif : writeBooleans heap (b :: bs) s =
        (writeBoolean heap b >>= fun _ => writeBooleans heap bs) s := by
      rw [writeBooleans, get_bind_apply, h.good, if_pos rfl]
    have hwrites : Writes (writeBoolean heap b >>= fun _ => writeBooleans heap bs) s
        (bs.foldl (fun w b => put 1 (image 1 (booleanOctet b)) w)
          (put 1 (image 1 (booleanOctet b)) s.wire)) :=
      (writes_write1 h (booleanOctet b)).bind fun t ht _ hwire => hwire ▸ ih ht
    obtain ⟨t, heq, ht⟩ := hwrites
    exact ⟨t, hif.trans heq, ht⟩

theorem writes_writeBooleanArray (bs : List Bool) (hlen : bs.length < 2 ^ 32) (h : Ready s) :
    Writes (writeBooleanArray heap bs (BitVec.ofNat 32 bs.length)) s
      (bs.foldl (fun w b => put 1 (image 1 (booleanOctet b)) w) s.wire) := by
  have hnat : (BitVec.ofNat 32 bs.length).toNat = bs.length := by
    rw [BitVec.toNat_ofNat, Nat.mod_eq_of_lt hlen]
  rw [writeBooleanArray, hnat, List.take_length]
  refine (writes_writeBooleans heap bs h).bind fun t ht _ hwire => ?_
  obtain ⟨u, heq, hu⟩ := writes_pure ht
  refine ⟨u, ?_, hwire ▸ hu⟩
  rw [get_bind_apply, ht.good, if_pos rfl, heq]

theorem writes_writeString (h : Ready s) (cs : List Octet) :
    Writes (writeString heap cs) s (putString s.doByteSwap cs s.wire) := by
  rw [writeString, writeStringLen, putString]
  generalize hlen : BitVec.ofNat 32 cs.length = len
  by_cases hzero : len = 0
  · rw [if_neg (by simpa using hzero), if_pos hzero]
    refine (writes_writeWord h isAlign_four 1).bind fun t ht hconfig hwire => ?_
    exact hwire ▸ writes_write1 ht 0
  · rw [if_pos hzero, if_neg hzero]
    refine (writes_writeWord h isAlign_four (len + 1)).bind fun t ht hconfig hwire => ?_
    have hle : (len + 1).toNat ≤ (cs ++ [0]).length := by
      have hnat : len.toNat ≤ cs.length := by
        rw [← hlen, BitVec.toNat_ofNat]
        exact Nat.mod_le _ _
      rw [List.length_append, List.length_singleton, BitVec.toNat_add]
      exact (Nat.mod_le _ _).trans (Nat.add_le_add_right hnat 1)
    have hwrites := writes_writeWordArray heap ht isAlign_one (Or.inl rfl) hle
    rwa [hwire, hconfig.doByteSwap] at hwrites

/-- **The operation that inserts a value** appends its bytes. -/
theorem writes_writeDatum (h : Ready s) (d : Datum) :
    Writes (writeDatum heap d) s (d.put s.doByteSwap s.wire) := by
  cases d with
  | scalar x v => exact writes_writeScalar heap h x v
  | boolean b => exact writes_write1 h (booleanOctet b)
  | char c => exact writes_write1 h c
  | string cs => exact writes_writeString heap h cs
  | array x vs hlen => exact writes_writeScalarArray heap h x vs hlen
  | booleanArray bs hlen => exact writes_writeBooleanArray heap bs hlen h
  | charArray cs hlen => exact writes_writeWordArray_length heap h isAlign_one (Or.inl rfl) hlen

end OutputCDR

end AceTao.Cdr
