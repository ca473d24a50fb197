import AceTao.Library.AlignUp
import AceTao.Library.ByteImage

/-!
# The types of CDR

The sizes and alignments of the types that `ACE_CDR` marshals, and the rounding of addresses and
positions by masking. On addresses and counters below `2 ^ 64` the mask rounds up modulo `2 ^ 64`
(`alignBinary_mod`).
-/

namespace AceTao.Cdr

open AlignUp

abbrev Octet := BitVec 8
abbrev UShort := BitVec 16
abbrev ULong := BitVec 32
abbrev ULongLong := BitVec 64
abbrev LongDouble := BitVec 128
abbrev WChar := BitVec 32

/-- The values of a fixed size for which the streams have an operation and one for arrays. -/
inductive Scalar
  | octet | int8 | uint8 | short | ushort | long | ulong | longlong | ulonglong | float | double
  | longdouble

namespace Scalar

def size : Scalar → ℕ
  | .octet | .int8 | .uint8 => 1
  | .short | .ushort => 2
  | .long | .ulong | .float => 4
  | .longlong | .ulonglong | .double => 8
  | .longdouble => 16

/-- A `long double` is aligned like the largest of the other types. -/
def align : Scalar → ℕ
  | .octet | .int8 | .uint8 => 1
  | .short | .ushort => 2
  | .long | .ulong | .float => 4
  | .longlong | .ulonglong | .double | .longdouble => 8

/-- The bits of a value. -/
abbrev Value (x : Scalar) := BitVec (8 * x.size)

end Scalar

/-- Rounding up to a power of two, by masking. -/
def alignBinary (ptr alignment : ℕ) : ℕ :=
  ((BitVec.ofNat 64 ptr + (BitVec.ofNat 64 alignment - 1)) &&&
    ~~~(BitVec.ofNat 64 alignment - 1)).toNat

/-- The alignments of the CDR types. -/
def IsAlign (align : ℕ) : Prop := align = 1 ∨ align = 2 ∨ align = 4 ∨ align = 8

theorem IsAlign.pos {align : ℕ} (h : IsAlign align) : 0 < align := by
  rcases h with rfl | rfl | rfl | rfl <;> decide

theorem IsAlign.le {align : ℕ} (h : IsAlign align) : align ≤ 8 := by
  rcases h with rfl | rfl | rfl | rfl <;> decide

theorem IsAlign.dvd {align : ℕ} (h : IsAlign align) : align ∣ 8 := by
  rcases h with rfl | rfl | rfl | rfl <;> decide

theorem isAlign_one : IsAlign 1 := Or.inl rfl
theorem isAlign_two : IsAlign 2 := Or.inr (Or.inl rfl)
theorem isAlign_four : IsAlign 4 := Or.inr (Or.inr (Or.inl rfl))
theorem isAlign_eight : IsAlign 8 := Or.inr (Or.inr (Or.inr rfl))

theorem Scalar.isAlign (x : Scalar) : IsAlign x.align := by
  cases x <;> first
    | exact isAlign_one
    | exact isAlign_two
    | exact isAlign_four
    | exact isAlign_eight

theorem Scalar.size_cases (x : Scalar) :
    x.size = 1 ∨ x.size = 2 ∨ x.size = 4 ∨ x.size = 8 ∨ x.size = 16 := by
  cases x <;> decide

/-- **The mask rounds up** modulo `2 ^ 64`. -/
theorem alignBinary_mod {align : ℕ} (ha : IsAlign align) (ptr : ℕ) :
    alignBinary ptr align = alignUp ptr align % 2 ^ 64 := by
  have hpow : ∃ k < 64, align = 2 ^ k := by
    rcases ha with rfl | rfl | rfl | rfl
    · exact ⟨0, by decide, rfl⟩
    · exact ⟨1, by decide, rfl⟩
    · exact ⟨2, by decide, rfl⟩
    · exact ⟨3, by decide, rfl⟩
  have hsum : (BitVec.ofNat 64 ptr + (BitVec.ofNat 64 align - 1)).toNat
      = (ptr + (align - 1)) % 2 ^ 64 := by
    have hle := ha.le
    have hpos := ha.pos
    simp only [BitVec.toNat_add, BitVec.toNat_sub, BitVec.toNat_ofNat, BitVec.ofNat_eq_ofNat]
    omega
  obtain ⟨k, hk, hkeq⟩ := hpow
  have hmask : alignBinary ptr align = (ptr + (align - 1)) % 2 ^ 64 / align * align := by
    rw [← hsum, alignBinary, hkeq, and_not_eq hk]
  rw [hmask, alignUp]
  rcases ha with rfl | rfl | rfl | rfl <;> omega

/-- The mask rounds an address up, as long as it does not wrap around. -/
theorem alignBinary_eq {ptr align : ℕ} (ha : IsAlign align) (h : ptr ≤ 2 ^ 63) :
    alignBinary ptr align = alignUp ptr align := by
  have hlt := alignUp_lt ha.pos ptr
  have hle := ha.le
  rw [alignBinary_mod ha, Nat.mod_eq_of_lt (by omega)]

end AceTao.Cdr
