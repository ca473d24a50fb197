import AceTao.Cdr.Input

/-!
# What the basic extractions do

While `rd_ptr` is between the start of the data and `wr_ptr` (`InBounds`), no address computed by
the basic operations wraps around, so each of them has a closed form: `adjust_eq`, `read1_eq`,
`readWord_eq`, `readArray_eq`. Everything that is proved about the other operations rests on
these.
-/

namespace AceTao.Cdr

open Program ByteImage AlignUp

namespace InputCDR

/-- **`rd_ptr` is in range**. -/
structure InBounds (s : InputCDR) : Prop where
  ge : s.base ≤ s.rdPtr
  le : s.rdPtr ≤ s.wrPtr

variable {s t : InputCDR} {size align : ℕ}

theorem wrPtr_le (s : InputCDR) : s.wrPtr ≤ 2 ^ 63 := s.fits

theorem InBounds.setGoodBit (h : InBounds s) (b : Bool) : InBounds (s.setGoodBit b) :=
  ⟨h.ge, h.le⟩

theorem InBounds.setRdPtr (h : InBounds s) {p : ℕ} (hp : s.rdPtr ≤ p) (hle : p ≤ s.wrPtr) :
    InBounds (s.setRdPtr p) := by
  have hwr := s.wrPtr_le
  have hmod : p % 2 ^ 64 = p := Nat.mod_eq_of_lt (by omega)
  constructor
  · rw [setRdPtr_base, setRdPtr_rdPtr, hmod]
    exact h.ge.trans hp
  · rw [setRdPtr_rdPtr, setRdPtr_wrPtr, hmod]
    exact hle

theorem setRdPtr_rdPtr_of_le {p : ℕ} (hp : p ≤ s.wrPtr) : (s.setRdPtr p).rdPtr = p := by
  have hwr := s.wrPtr_le
  rw [setRdPtr_rdPtr, Nat.mod_eq_of_lt (by omega)]

/-- The difference of the pointers does not wrap around. -/
theorem length_eq (h : InBounds s) : s.length = s.wrPtr - s.rdPtr := by
  have hwr := s.wrPtr_le
  have hle := h.le
  rw [length]
  omega

/-! ### Loads -/

/-- The bytes a load takes. -/
def bytesAt (s : InputCDR) (addr n : ℕ) : List UInt8 := (s.data.drop (addr - s.base)).take n

@[simp] theorem setRdPtr_bytesAt (p addr n : ℕ) :
    (s.setRdPtr p).bytesAt addr n = s.bytesAt addr n := rfl

theorem load_eq {addr n : ℕ} (hge : s.base ≤ addr) (hle : addr + n ≤ s.wrPtr) :
    load addr n s = some (.ok (s.bytesAt addr n), s) := by
  rw [load, get_bind_apply, if_pos ⟨hge, hle⟩]
  rfl

theorem length_bytesAt {addr n : ℕ} (hge : s.base ≤ addr) (hle : addr + n ≤ s.wrPtr) :
    (s.bytesAt addr n).length = n := by
  rw [wrPtr] at hle
  rw [bytesAt, List.length_take, List.length_drop]
  omega

/-! ### Alignment and words -/

/-- Where a value of `size` bytes ends when it is read next. -/
def valueEnd (s : InputCDR) (size align : ℕ) : ℕ := alignUp s.rdPtr align + size

theorem rdPtr_le_valueEnd (ha : IsAlign align) : s.rdPtr ≤ s.valueEnd size align :=
  (le_alignUp ha.pos _).trans (Nat.le_add_right _ _)

theorem adjust_eq (h : InBounds s) (ha : IsAlign align) (hsize : size ≤ 2 ^ 62) :
    adjust size align s = if s.valueEnd size align ≤ s.wrPtr
      then some (.ok (alignUp s.rdPtr align), s.setRdPtr (s.valueEnd size align))
      else some (.error .bounds, s.setGoodBit false) := by
  have hwr := s.wrPtr_le
  have hle := h.le
  have hlt := alignUp_lt ha.pos s.rdPtr
  have ha8 := ha.le
  have hmod : (alignUp s.rdPtr align + size) % 2 ^ 64 = s.valueEnd size align :=
    Nat.mod_eq_of_lt (by omega)
  rw [adjust, get_bind_apply, alignBinary_eq ha (by omega)]
  rw [hmod, ite_run]
  rfl

theorem orFail_eq {α : Type} {m : Reader α} {x : α} (h : m s = some (.ok x, t)) :
    orFail m s = some (.ok x, t) := handle_of_ok h

theorem orFail_of_error {α : Type} {m : Reader α} {e : Failure} (h : m s = some (.error e, t)) :
    orFail m s = some (.error e, t.setGoodBit false) := by
  rw [orFail, handle, h]
  rfl

/-- An answer `true` is passed on. -/
theorem eq_of_orFail {α : Type} {m : Reader α} {x : α} (h : orFail m s = some (.ok x, t)) :
    m s = some (.ok x, t) := by
  rcases handle_eq_some.mp h with ⟨a, ha, hm⟩ | ⟨e, u, -, he⟩
  · cases ha
    exact hm
  · cases he

theorem read1_eq (h : InBounds s) : read1 s = if s.rdPtr < s.wrPtr
    then some (.ok (ofImage 1 (s.bytesAt s.rdPtr 1)), s.setRdPtr (s.rdPtr + 1))
    else some (.error .bounds, s.setGoodBit false) := by
  rw [read1, get_bind_apply, ite_run]
  split_ifs with hlt
  · rw [bind_of_ok (load_eq h.ge hlt)]
    rfl
  · rfl

/-- A boolean that is there, whatever its octet. -/
theorem readBoolean_eq (h : InBounds s) (hlt : s.rdPtr < s.wrPtr) {x : Octet}
    (hx : x = ofImage 1 (s.bytesAt s.rdPtr 1)) :
    readBoolean s = some (if x &&& ~~~1 == 0 then .ok (x ≠ 0 : Bool) else .error .content,
      (s.setRdPtr (s.rdPtr + 1)).setGoodBit (x &&& ~~~1 == 0)) := by
  have heq := read1_eq h
  rw [if_pos hlt, ← hx] at heq
  rw [readBoolean, readOctet, bind_of_ok heq, modify_bind_apply, get_bind_apply,
    setGoodBit_goodBit, ite_run, apply_ite (fun r => some (r, _))]
  rfl

/-- The image of a word in the byte order of the host. -/
def native (s : InputCDR) (bytes : List UInt8) : List UInt8 :=
  if s.doByteSwap then bytes.reverse else bytes

theorem readWord_eq (h : InBounds s) (ha : IsAlign align) (hsize : size ≤ 2 ^ 62) :
    readWord size align s = if s.valueEnd size align ≤ s.wrPtr
      then some (.ok (ofImage size (s.native (s.bytesAt (alignUp s.rdPtr align) size))),
        s.setRdPtr (s.valueEnd size align))
      else some (.error .bounds, s.setGoodBit false) := by
  have hadjust := adjust_eq h ha hsize
  rw [readWord]
  split_ifs at hadjust ⊢ with hend
  · have hload : load (alignUp s.rdPtr align) size (s.setRdPtr (s.valueEnd size align)) =
        some (.ok (s.bytesAt (alignUp s.rdPtr align) size), _) :=
      load_eq (h.ge.trans (le_alignUp ha.pos _)) hend
    rw [bind_of_ok (orFail_eq hadjust), get_bind_apply, bind_of_ok hload]
    rfl
  · rw [bind_apply, orFail_of_error hadjust]
    rfl

/-! ### Arrays -/

theorem returnGoodBit_eq {α : Type} (h : s.goodBit = true) (x : α) :
    returnGoodBit x s = some (.ok x, s) := by
  rw [returnGoodBit, get_bind_apply, h, if_pos rfl, pure_apply]

/-- The image of an array in the byte order of the host. -/
def nativeArray (s : InputCDR) (size length : ℕ) (bytes : List UInt8) : List UInt8 :=
  if s.doByteSwap then swapArray size length bytes else bytes

/-- **An array that fits** is read. -/
theorem readArray_eq {length : ℕ} (h : InBounds s) (hgood : s.goodBit = true) (ha : IsAlign align)
    (hsize : size = 1 ∨ size = 2 ∨ size = 4 ∨ size = 8 ∨ size = 16) (hlen : length < 2 ^ 32)
    (hpos : length ≠ 0) (hend : s.valueEnd (size * length) align ≤ s.wrPtr) :
    readArray size align length s =
      some (.ok (s.nativeArray size length (s.bytesAt (alignUp s.rdPtr align) (size * length))),
        s.setRdPtr (s.valueEnd (size * length) align)) := by
  have hmul : size * length ≤ 16 * 2 ^ 32 := Nat.mul_le_mul (by omega) hlen.le
  have hmod : size * length % 2 ^ 64 = size * length := Nat.mod_eq_of_lt (by omega)
  have hge := h.ge.trans (le_alignUp ha.pos _)
  have hadjust := adjust_eq h ha (show size * length ≤ 2 ^ 62 by omega)
  rw [if_pos hend] at hadjust
  have hload : load (alignUp s.rdPtr align) (size * length)
      (s.setRdPtr (s.valueEnd (size * length) align)) =
      some (.ok (s.bytesAt (alignUp s.rdPtr align) (size * length)), _) := load_eq hge hend
  have hreturn (x : List UInt8) := returnGoodBit_eq
    (s := s.setRdPtr (s.valueEnd (size * length) align)) hgood x
  rw [readArray, if_neg hpos, hmod, bind_of_ok hadjust, get_bind_apply, bind_of_ok hload,
    setRdPtr_doByteSwap, nativeArray]
  rcases s.doByteSwap with _ | _
  · exact hreturn _
  · rcases eq_or_ne size 1 with rfl | hne
    · rw [if_pos (by simp), if_pos rfl, hreturn,
        swapArray_one (by rw [length_bytesAt hge hend, Nat.one_mul])]
    · rw [if_neg (by simpa using hne), if_pos (hsize.resolve_left hne), if_pos rfl, hreturn]

end InputCDR

end AceTao.Cdr
