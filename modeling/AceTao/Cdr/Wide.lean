import AceTao.Cdr.Input
import AceTao.Cdr.OutputSpec

/-!
# Wide characters and their bytes in a stream

A wide character has `n` bytes in the stream, where `n` is 1, 2 or 4, and is narrowed to them
(`narrow`). In GIOP 1.2 a single character is preceded by its size, and the length of a string is in
bytes; in GIOP 1.1 it is the number of characters with the terminator, which is in the stream as
well. `Wide.put` appends the bytes of a character or of a string, in the byte order of the host, and
the operations that insert them do exactly this (`OutputCDR.writes_writeWide`).
-/

namespace AceTao.Cdr

open Program ByteImage AlignUp

/-- The sizes of a wide character in a stream. -/
def IsWidth (n : ℕ) : Prop := n = 1 ∨ n = 2 ∨ n = 4

theorem IsWidth.isAlign {n : ℕ} (h : IsWidth n) : IsAlign n := by
  rcases h with rfl | rfl | rfl
  · exact isAlign_one
  · exact isAlign_two
  · exact isAlign_four

theorem IsWidth.size_cases {n : ℕ} (h : IsWidth n) :
    n = 1 ∨ n = 2 ∨ n = 4 ∨ n = 8 ∨ n = 16 := by
  rcases h with rfl | rfl | rfl <;> decide

theorem IsWidth.le {n : ℕ} (h : IsWidth n) : n ≤ 4 := by
  rcases h with rfl | rfl | rfl <;> decide

/-- The low bytes of a wide character. -/
def narrow (n : ℕ) (x : WChar) : BitVec (8 * n) := x.setWidth (8 * n)

theorem narrow_four (x : WChar) : narrow 4 x = x := BitVec.setWidth_eq x

/-- A character that has `n` bytes is the same after it has been narrowed to them. -/
theorem setWidth_narrow {n : ℕ} {x : WChar} (h : x.toNat < 256 ^ n) :
    (narrow n x).setWidth 32 = x := by
  refine BitVec.eq_of_toNat_eq ?_
  rw [narrow, BitVec.toNat_setWidth, BitVec.toNat_setWidth, Nat.pow_mul, Nat.mod_eq_of_lt h,
    Nat.mod_eq_of_lt x.isLt]

/-- A wide character, or a wide string without embedded NUL. -/
inductive Wide
  | wchar (x : WChar)
  | wstring (cs : List WChar) (h : (0 : WChar) ∉ cs)

/-- How a value is passed to the operations: the types of a string where it is written and where it
is read, and what the destination of a character held before. -/
structure Access where
  written : WstringForm
  read : WstringForm
  stale : WChar

/-- The bytes of a wide character: in GIOP 1.2 its size, and then its bytes as they are. -/
def putWcharIn (swap : Bool) (n : ℕ) (giop12 : Bool) (x : WChar) (w : Wire) : Wire :=
  if giop12 then put 1 (image n (narrow n x)) (put 1 (image 1 (BitVec.ofNat 8 n)) w)
  else put n (wireImage n swap (narrow n x)) w

/-- The bytes of an array of wide characters. -/
def putWcharsIn (swap : Bool) (n : ℕ) (xs : List WChar) (w : Wire) : Wire :=
  putArray n swap n (xs.map (narrow n)) w

/-- The bytes of a wide string of `len` characters, with its terminator in memory. -/
def putWstringIn (swap : Bool) (n : ℕ) (giop12 : Bool) (len : ULong) (cs : List WChar) (w : Wire) :
    Wire :=
  if giop12 then
    putWcharsIn swap n ((cs ++ [0]).take len.toNat)
      (put 4 (wireImage 4 swap (InputCDR.truncateCast (n * len.toNat))) w)
  else putWcharsIn swap n ((cs ++ [0]).take (len + 1).toNat) (put 4 (wireImage 4 swap (len + 1)) w)

/-- The bytes of an array of wide characters. -/
def putWide (n : ℕ) (xs : List WChar) (w : Wire) : Wire := putArray n false n (xs.map (narrow n)) w

/-- The bytes of a wide string of `len` characters, with its terminator in memory. -/
def putWstring (n : ℕ) (giop12 : Bool) (len : ULong) (cs : List WChar) (w : Wire) : Wire :=
  if giop12 then
    putWide n ((cs ++ [0]).take len.toNat)
      (put 4 (image 4 (InputCDR.truncateCast (n * len.toNat))) w)
  else putWide n ((cs ++ [0]).take (len + 1).toNat) (put 4 (image 4 (len + 1)) w)

/-- **The bytes of a wide value** behind those that are in the stream. -/
def Wide.put (n : ℕ) (giop12 : Bool) : Wide → Wire → Wire
  | .wchar x, w =>
    if giop12 then Cdr.put 1 (image n (narrow n x)) (Cdr.put 1 (image 1 (BitVec.ofNat 8 n)) w)
    else Cdr.put n (image n (narrow n x)) w
  | .wstring cs _, w => putWstring n giop12 (BitVec.ofNat 32 cs.length) cs w

namespace OutputCDR

variable {heap : ℕ → ℕ} {s : OutputCDR} {n : ℕ}

/-- The operation that inserts a wide value. -/
def writeWide (heap : ℕ → ℕ) (n : ℕ) : Wide → Access → Writer Unit
  | .wchar x, _ => writeWchar heap n x
  | .wstring cs _, ⟨.wchars, _, _⟩ => writeWstring heap n cs
  | .wstring cs _, ⟨.stdWstring, _, _⟩ => writeStdWstring heap n cs

/-- The operation that inserts a wide string. -/
def writeWstringAs (heap : ℕ → ℕ) (n : ℕ) : WstringForm → List WChar → Writer Unit
  | .wchars, cs => writeWstring heap n cs
  | .stdWstring, cs => writeStdWstring heap n cs

/-- The bytes of a character, one by one. -/
theorem writes_octets (h : Ready s) (hn : IsWidth n) (x : BitVec (8 * n)) :
    Writes (writeArray heap 1 1 (image n x) n) s (put 1 (image n x) s.wire) := by
  have hpos : n ≠ 0 := by rcases hn with rfl | rfl | rfl <;> decide
  have hwrites := writes_writeArray heap (image n x) h isAlign_one (Or.inl rfl) hpos
    (by rw [length_image, Nat.one_mul])
  have htake : (image n x).take (1 * n) = image n x :=
    List.take_of_length_le (by rw [length_image, Nat.one_mul])
  rwa [htake, swapArray_one (length_image x), ite_self] at hwrites

theorem writes_writeWchar (h : Ready s) (hn : IsWidth n) (hminor : s.minorVersion ≠ 0)
    (x : WChar) :
    Writes (writeWchar heap n x) s (putWcharIn s.doByteSwap n s.giop12 x s.wire) := by
  have hpos : n ≠ 0 := by rcases hn with rfl | rfl | rfl <;> decide
  rw [putWcharIn]
  by_cases hgiop : s.giop12 = true
  · rw [if_pos hgiop]
    have hfirst : Writes (write1 heap (BitVec.ofNat 8 n) >>= fun _ =>
        writeArray heap 1 1 (image n (narrow n x)) n) s
        (put 1 (image n (narrow n x)) (put 1 (image 1 (BitVec.ofNat 8 n)) s.wire)) :=
      (writes_write1 h (BitVec.ofNat 8 n)).bind fun t ht _ hwire =>
        hwire ▸ writes_octets ht hn (narrow n x)
    obtain ⟨t, heq, ht⟩ := hfirst
    refine ⟨t, ?_, ht⟩
    rw [← heq, writeWchar, get_bind_apply, if_neg hpos, if_pos hgiop]
    rcases hn with rfl | rfl | rfl
    · rfl
    · rfl
    · rw [narrow_four]
      rfl
  · rw [if_neg hgiop]
    have hwrites := @writes_writeWord heap s n n h hn.isAlign (narrow n x)
    rw [Writes, writeWchar, get_bind_apply, if_neg hpos, if_neg hgiop, if_neg hminor]
    rcases hn with rfl | rfl | rfl
    · rw [if_neg (by decide), if_neg (by decide), wireImage_one]
      exact writes_write1 h (narrow 1 x)
    · rw [if_neg (by decide), if_pos rfl]
      exact hwrites
    · rw [narrow_four] at hwrites ⊢
      rw [if_pos rfl]
      exact hwrites

/-- The loop over an array of narrow characters. -/
theorem writes_writeWcharArrayI (h : Ready s) (hn : n = 1 ∨ n = 2) {xs : List WChar}
    {length : ULong} (hlen : length.toNat ≤ xs.length) :
    Writes (writeWcharArrayI heap n xs length) s
      (putWcharsIn s.doByteSwap n (xs.take length.toNat) s.wire) := by
  have hwidth : IsWidth n := hn.imp_right Or.inl
  have hzero : xs.take length.toNat = [] ↔ length = 0 := by
    rw [List.take_eq_nil_iff]
    constructor
    · rintro (hnat | rfl)
      · exact BitVec.eq_of_toNat_eq hnat
      · exact BitVec.eq_of_toNat_eq (Nat.eq_zero_of_le_zero hlen)
    · rintro rfl
      exact Or.inl rfl
  rw [writeWcharArrayI, putWcharsIn, putArray]
  by_cases hnil : xs.take length.toNat = []
  · rw [if_pos (hzero.mp hnil), if_pos (List.map_eq_nil_iff.mpr hnil)]
    exact writes_pure h
  · rw [if_neg (mt hzero.mpr hnil), if_neg (mt List.map_eq_nil_iff.mp hnil)]
    have hlt := length.isLt
    have hmod : n * length.toNat % 2 ^ 64 = n * length.toNat := by
      have hmul : n * length.toNat ≤ 4 * 2 ^ 32 := Nat.mul_le_mul hwidth.le hlt.le
      exact Nat.mod_eq_of_lt (by omega)
    have halign : (if n = 2 then 2 else 1) = n := by rcases hn with rfl | rfl <;> rfl
    have hbytes : (((xs.take length.toNat).map (narrow n)).flatMap
        (wireImage n s.doByteSwap)).length = n * length.toNat := by
      rw [List.length_flatMap]
      simp only [length_wireImage, List.map_const', List.sum_replicate_nat, List.length_map,
        List.length_take, Nat.min_eq_left hlen, Nat.mul_comm]
    rw [hmod, halign]
    refine writes_adjust_bind h hwidth.isAlign hbytes fun buf t ht hconfig => ?_
    have hgood : t.goodBit = true := ht.good
    have hstore (bytes : List UInt8) : ((store buf bytes >>= fun _ =>
        if t.goodBit then pure () else Program.throw .earlier) : Writer Unit) t =
        store buf bytes t := by
      rw [hgood, if_pos rfl]
      rfl
    rw [get_bind_apply, List.flatMap_map]
    rcases hn with rfl | rfl
    · rw [if_neg (by decide), show wireImage 1 s.doByteSwap = image 1 from
        funext (wireImage_one s.doByteSwap)]
      exact hstore _
    · rw [if_pos rfl, hconfig.doByteSwap]
      exact hstore _

theorem writes_writeWcharArray (h : Ready s) (hn : IsWidth n) {xs : List WChar} {length : ULong}
    (hlen : length.toNat ≤ xs.length) :
    Writes (writeWcharArray heap n xs length) s
      (putWcharsIn s.doByteSwap n (xs.take length.toNat) s.wire) := by
  rcases hn with rfl | rfl | rfl
  · exact writes_writeWcharArrayI h (Or.inl rfl) hlen
  · exact writes_writeWcharArrayI h (Or.inr rfl) hlen
  · have hmap : (xs.take length.toNat).map (narrow 4) = xs.take length.toNat := by
      rw [show narrow 4 = id from funext narrow_four, List.map_id]
    rw [putWcharsIn, hmap]
    exact @writes_writeWordArray s 4 4 heap xs length h isAlign_four (by decide) hlen

/-- **A wide string**, given by its length and where its characters are. -/
theorem writes_writeWstringLen (h : Ready s) (hn : IsWidth n) (cs : List WChar) :
    Writes (writeWstringLen heap n (BitVec.ofNat 32 cs.length) (some cs)) s
      (putWstringIn s.doByteSwap n s.giop12 (BitVec.ofNat 32 cs.length) cs s.wire) := by
  have hpos : n ≠ 0 := by rcases hn with rfl | rfl | rfl <;> decide
  have hlen : (BitVec.ofNat 32 cs.length).toNat ≤ cs.length := by
    rw [BitVec.toNat_ofNat]
    exact Nat.mod_le _ _
  have hsucc : (BitVec.ofNat 32 cs.length + 1).toNat ≤ cs.length + 1 := by
    rw [BitVec.toNat_add]
    exact (Nat.mod_le _ _).trans (Nat.add_le_add_right hlen 1)
  have hfull : (cs ++ [0]).length = cs.length + 1 := List.length_append
  -- the length, and the characters behind it
  have hboth (field length : ULong) (hle : length.toNat ≤ (cs ++ [0]).length) :
      Writes (writeUlong heap field >>= fun _ => writeWcharArray heap n (cs ++ [0]) length) s
        (putWcharsIn s.doByteSwap n ((cs ++ [0]).take length.toNat)
          (put 4 (wireImage 4 s.doByteSwap field) s.wire)) := by
    refine (@writes_writeWord heap s 4 4 h isAlign_four field).bind fun t ht hconfig hwire => ?_
    rw [← hwire, ← hconfig.doByteSwap]
    exact writes_writeWcharArray ht hn hle
  rw [Writes, writeWstringLen, get_bind_apply, if_neg hpos, putWstringIn]
  by_cases hgiop : s.giop12 = true
  · rw [if_pos hgiop, if_pos hgiop]
    exact hboth _ _ (by omega)
  · rw [if_neg hgiop, if_neg hgiop]
    exact hboth _ _ (by omega)

/-- An empty `std::wstring` is written as an empty string. -/
theorem writes_nullWstring (h : Ready s) (hn : IsWidth n) (hminor : s.minorVersion ≠ 0) :
    Writes (writeWstringLen heap n 0 none) s
      (putWstringIn s.doByteSwap n s.giop12 0 [] s.wire) := by
  have hpos : n ≠ 0 := by rcases hn with rfl | rfl | rfl <;> decide
  rw [Writes, writeWstringLen, get_bind_apply, if_neg hpos, putWstringIn]
  by_cases hgiop : s.giop12 = true
  · rw [if_pos hgiop, if_pos hgiop]
    exact @writes_writeWord heap s 4 4 h isAlign_four 0
  · rw [if_neg hgiop, if_neg hgiop]
    refine (@writes_writeWord heap s 4 4 h isAlign_four 1).bind fun t ht hconfig hwire => ?_
    have hversion : t.giop12 = s.giop12 := by
      rw [giop12, giop12, hconfig.majorVersion, hconfig.minorVersion]
    have hwrites := @writes_writeWchar heap t n ht hn (hconfig.minorVersion ▸ hminor) 0
    rw [putWcharIn, hversion, if_neg hgiop, hwire, hconfig.doByteSwap] at hwrites
    have htake : ([] ++ [0] : List WChar).take ((0 : ULong) + 1).toNat = [0] := rfl
    rw [htake, putWcharsIn, List.map_cons, List.map_nil, putArray,
      if_neg (List.cons_ne_nil _ _), List.flatMap_singleton]
    exact hwrites

/-- **A wide string is inserted**, whatever its type is. -/
theorem writes_wstring (h : Ready s) (hn : IsWidth n) (hminor : s.minorVersion ≠ 0)
    (form : WstringForm) (cs : List WChar) :
    Writes (writeWstringAs heap n form cs) s
      (putWstringIn s.doByteSwap n s.giop12 (BitVec.ofNat 32 cs.length) cs s.wire) := by
  cases form with
  | wchars => exact writes_writeWstringLen h hn cs
  | stdWstring =>
    rw [writeWstringAs, writeStdWstring]
    split_ifs with hnil
    · subst hnil
      exact writes_nullWstring h hn hminor
    · exact writes_writeWstringLen h hn cs

/-- **A wide value is inserted** in the byte order of the host. -/
theorem writes_writeWide (h : Ready s) (hn : IsWidth n) (hswap : s.doByteSwap = false)
    (hminor : s.minorVersion ≠ 0) (x : Wide) (a : Access) :
    Writes (writeWide heap n x a) s (x.put n s.giop12 s.wire) := by
  obtain ⟨written, read, stale⟩ := a
  cases x with
  | wchar x =>
    have hwrites := @writes_writeWchar heap s n h hn hminor x
    rw [hswap] at hwrites
    exact hwrites
  | wstring cs hnul =>
    have hwrites := @writes_wstring heap s n h hn hminor written cs
    rw [hswap] at hwrites
    cases written <;> exact hwrites

end OutputCDR

end AceTao.Cdr
