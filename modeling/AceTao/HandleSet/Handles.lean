import Mathlib.Data.BitVec
import Mathlib.Data.Finset.Card
import Mathlib.Data.Int.Notation
import Mathlib.Data.List.Nodup
import Mathlib.Logic.Function.Basic
import Mathlib.Tactic.SplitIfs
import AceTao.Library.BitCount

/-!
# `ACE_Handle_Set`: the code

A set of handles is an `fd_set` with its number of bits and its largest handle. The mask is an array
of words of 64 bits; a word outside the array has no value, and a function that reads one is
undefined. `count_bits` has two variants, which a build chooses from.

Words are shifted right arithmetically and the sign bit is masked off. The loop that looks for the
next bit of a word does not end on the word zero; the functions are then undefined.
-/

namespace AceTao

/-- The sizes of a build: `MAXSIZE`, and the number of words of an `fd_set`, in which the handles
below `MAXSIZE` have their bits. -/
structure FdConfig where
  maxSize : ℕ
  numWords : ℕ
  pos : 0 < maxSize
  le : maxSize ≤ 64 * numWords

/-- Which of its two variants `count_bits` is. -/
inductive CountVariant
  /-- The lookup in `nbits_`. -/
  | table
  /-- The loop of `ACE_HAS_HANDLE_SET_OPTIMIZED_FOR_SELECT`. -/
  | loop
  deriving DecidableEq

/-- `fd_set`. -/
abbrev FdSet (c : FdConfig) : Type := Fin c.numWords → BitVec 64

/-- **`ACE_Handle_Set`**. -/
structure HandleSet (c : FdConfig) where
  size : ℤ
  maxHandle : ℤ
  mask : FdSet c

namespace HandleSet

variable {c : FdConfig}

/-- `ACE_INVALID_HANDLE`. -/
def invalidHandle : ℤ := -1

/-- `maskp[i]`. -/
def maskp (m : FdSet c) (i : ℤ) : Option (BitVec 64) :=
  if h : 0 ≤ i ∧ i.toNat < c.numWords then some (m ⟨i.toNat, h.2⟩) else none

/-- `(val >> 1) & ACE_MSB_MASK`. -/
def shiftRight (val : BitVec 64) : BitVec 64 := val.sshiftRight 1 &&& ~~~(1#64 <<< 63)

/-- The shift is a logical one. -/
theorem toNat_shiftRight (val : BitVec 64) : (shiftRight val).toNat = val.toNat / 2 := by
  have heq : shiftRight val = val >>> 1 := by
    ext i hi
    simp only [shiftRight, BitVec.getElem_and, BitVec.getElem_not, BitVec.getElem_shiftLeft,
      BitVec.getElem_ushiftRight, BitVec.getElem_sshiftRight]
    rcases Nat.lt_or_ge i 63 with hlt | hge
    · have hlt' : 1 + i < 64 := by omega
      simp [hlt, hlt', BitVec.getLsbD_eq_getElem]
    · have h63 : i = 63 := by omega
      subst h63
      simp
  rw [heq, BitVec.toNat_ushiftRight, Nat.shiftRight_eq_div_pow, pow_one]

/-! ### `count_bits` -/

/-- `nbits_`. -/
def nbits : List ℕ :=
  [0, 1, 1, 2, 1, 2, 2, 3, 1, 2, 2, 3, 2, 3, 3, 4,
   1, 2, 2, 3, 2, 3, 3, 4, 2, 3, 3, 4, 3, 4, 4, 5,
   1, 2, 2, 3, 2, 3, 3, 4, 2, 3, 3, 4, 3, 4, 4, 5,
   2, 3, 3, 4, 3, 4, 4, 5, 3, 4, 4, 5, 4, 5, 5, 6,
   1, 2, 2, 3, 2, 3, 3, 4, 2, 3, 3, 4, 3, 4, 4, 5,
   2, 3, 3, 4, 3, 4, 4, 5, 3, 4, 4, 5, 4, 5, 5, 6,
   2, 3, 3, 4, 3, 4, 4, 5, 3, 4, 4, 5, 4, 5, 5, 6,
   3, 4, 4, 5, 4, 5, 5, 6, 4, 5, 5, 6, 5, 6, 6, 7,
   1, 2, 2, 3, 2, 3, 3, 4, 2, 3, 3, 4, 3, 4, 4, 5,
   2, 3, 3, 4, 3, 4, 4, 5, 3, 4, 4, 5, 4, 5, 5, 6,
   2, 3, 3, 4, 3, 4, 4, 5, 3, 4, 4, 5, 4, 5, 5, 6,
   3, 4, 4, 5, 4, 5, 5, 6, 4, 5, 5, 6, 5, 6, 6, 7,
   2, 3, 3, 4, 3, 4, 4, 5, 3, 4, 4, 5, 4, 5, 5, 6,
   3, 4, 4, 5, 4, 5, 5, 6, 4, 5, 5, 6, 5, 6, 6, 7,
   3, 4, 4, 5, 4, 5, 5, 6, 4, 5, 5, 6, 5, 6, 6, 7,
   4, 5, 5, 6, 5, 6, 6, 7, 5, 6, 6, 7, 6, 7, 7, 8]

/-- `nbits_[n & 0xff]`. -/
def nbitsOf (n : BitVec 64) : ℕ := nbits.getD (n &&& 0xff).toNat 0

/-- The loop of `count_bits`: `m &= m - 1` until `m` is zero. -/
def countLoop (m : BitVec 64) : ℕ :=
  if m = 0 then 0 else countLoop (m &&& (m - 1)) + 1
termination_by m.toNat
decreasing_by
  rename_i h
  have hpos : m.toNat ≠ 0 := fun h0 => h (BitVec.eq_of_toNat_eq h0)
  rw [BitVec.toNat_and]
  refine lt_of_le_of_lt Nat.and_le_right ?_
  have hle : 1#64 ≤ m := by
    rw [BitVec.le_def]
    exact Nat.one_le_iff_ne_zero.mpr hpos
  rw [show (1 : BitVec 64) = 1#64 from rfl, BitVec.toNat_sub_of_le hle]
  exact Nat.sub_lt (Nat.pos_of_ne_zero hpos) Nat.one_pos

/-- **`count_bits`**. -/
def countBits (v : CountVariant) (n : BitVec 64) : ℕ :=
  match v with
  | .loop => countLoop n
  | .table => nbitsOf n + nbitsOf (n >>> 8) + nbitsOf (n >>> 16) + nbitsOf (n >>> 24)

/-! ### `sync` and `set_max` -/

/-- The loop of `set_max` that looks for the last word that is not zero. -/
def lastWord (m : FdSet c) : ℕ → Option ℕ
  | 0 =>
    match maskp m 0 with
    | none => none
    -- the loop goes on in front of the array
    | some val => if val = 0 then none else some 0
  | i + 1 =>
    match maskp m (i + 1 : ℕ) with
    | none => none
    | some val => if val = 0 then lastWord m i else some (i + 1)

/-- The loop of `set_max` over the bits of a word: `while ((val & ~1) != 0)`. -/
def topBit (val : BitVec 64) : ℕ :=
  if val &&& ~~~1#64 ≠ 0 then topBit (shiftRight val) + 1 else 0
termination_by val.toNat
decreasing_by
  rename_i h
  have hpos : val.toNat ≠ 0 := fun h0 => h (by
    rw [show val = 0#64 from BitVec.eq_of_toNat_eq h0]
    decide)
  rw [toNat_shiftRight]
  exact Nat.div_lt_self (Nat.pos_of_ne_zero hpos) Nat.one_lt_two

/-- **`set_max`**. -/
def setMax (s : HandleSet c) (currentMax : ℤ) : Option (HandleSet c) :=
  let max : Option ℤ :=
    if s.size = 0 then some invalidHandle
    else
      match lastWord s.mask ((currentMax - 1).tdiv 64).toNat with
      | none => none
      | some i => (maskp s.mask i).map fun val => (i * 64 + topBit val : ℕ)
  max.map fun max =>
    { s with maxHandle := if max ≥ (c.maxSize : ℤ) then (c.maxSize : ℤ) - 1 else max }

/-- The loop of `sync`, from a word down to the first one. -/
def countWords (v : CountVariant) (m : FdSet c) : ℕ → Option ℕ
  | 0 => (maskp m 0).map (countBits v)
  | i + 1 =>
    match maskp m (i + 1 : ℕ), countWords v m i with
    | some val, some n => some (countBits v val + n)
    | _, _ => none

/-- **`sync`**. -/
def sync (v : CountVariant) (s : HandleSet c) (max : ℤ) : Option (HandleSet c) :=
  match countWords v s.mask ((max - 1).tdiv 64).toNat with
  | none => none
  | some n => setMax { s with size := n } max

/-! ### Bits -/

/-- `FD_ISSET`, which `is_set` calls. -/
def isSet (m : FdSet c) (handle : ℕ) : Bool :=
  match maskp m (handle / 64 : ℕ) with
  | none => false
  | some val => decide (val &&& (1#64 <<< (handle % 64)) ≠ 0)

/-- `FD_SET`. -/
def fdSet (m : FdSet c) (handle : Fin c.maxSize) : FdSet c :=
  let i : Fin c.numWords := ⟨handle / 64, Nat.div_lt_of_lt_mul (handle.isLt.trans_le c.le)⟩
  Function.update m i (m i ||| 1#64 <<< (handle.val % 64))

/-- `FD_CLR`. -/
def fdClr (m : FdSet c) (handle : Fin c.maxSize) : FdSet c :=
  let i : Fin c.numWords := ⟨handle / 64, Nat.div_lt_of_lt_mul (handle.isLt.trans_le c.le)⟩
  Function.update m i (m i &&& ~~~(1#64 <<< (handle.val % 64)))

/-- **`reset`**, which the constructor calls. -/
def reset (c : FdConfig) : HandleSet c := ⟨0, invalidHandle, fun _ => 0⟩

/-- **`set_bit`**. -/
def setBit (s : HandleSet c) (handle : Fin c.maxSize) : HandleSet c :=
  if isSet s.mask handle then s
  else
    { size := s.size + 1
      maxHandle := if (handle : ℤ) > s.maxHandle then handle else s.maxHandle
      mask := fdSet s.mask handle }

/-- **`clr_bit`**. -/
def clrBit (s : HandleSet c) (handle : Fin c.maxSize) : Option (HandleSet c) :=
  if isSet s.mask handle then
    let s : HandleSet c := { s with size := s.size - 1, mask := fdClr s.mask handle }
    if (handle : ℤ) = s.maxHandle then setMax s s.maxHandle else some s
  else some s

end HandleSet

end AceTao

/-!
## The handles of a set

`handles` lists the handles whose bits are set, in ascending order: it is what a set of handles
stands for. `FD_SET` and `FD_CLR` add and remove one handle, and `count_bits` counts the handles of
a word. The table of `count_bits` is looked up for the four lowest bytes of a word only: it counts
the handles in the lower half of their word (`countBits_eq`).
-/

namespace AceTao

namespace HandleSet

variable {c : FdConfig} {m : FdSet c}

/-! ### Words -/

theorem maskp_of_lt {i : ℕ} (h : i < c.numWords) : maskp m (i : ℤ) = some (m ⟨i, h⟩) := by
  rw [maskp, dif_pos ⟨Int.natCast_nonneg i, by simpa using h⟩]
  simp

theorem maskp_of_le {i : ℕ} (h : c.numWords ≤ i) : maskp m (i : ℤ) = none := by
  rw [maskp, dif_neg]
  rintro ⟨-, hlt⟩
  rw [Int.toNat_natCast] at hlt
  omega

theorem getLsbD_one_shiftLeft {k : ℕ} (hk : k < 64) (i : ℕ) :
    (1#64 <<< k).getLsbD i = decide (i = k) := by
  rw [BitVec.getLsbD_shiftLeft, BitVec.getLsbD_one, Bool.eq_iff_iff]
  simp
  omega

theorem and_shiftLeft_ne_zero (val : BitVec 64) {k : ℕ} (hk : k < 64) :
    val &&& (1#64 <<< k) ≠ 0 ↔ val.toNat.testBit k = true := by
  constructor
  · intro h
    by_contra hbit
    refine h (BitVec.eq_of_getLsbD_eq fun i hi => ?_)
    rw [BitVec.getLsbD_and, getLsbD_one_shiftLeft hk]
    rcases eq_or_ne i k with rfl | hne
    · simp [BitVec.getLsbD, hbit]
    · simp [hne]
  · intro h heq
    have hbit := congrArg (BitVec.getLsbD · k) heq
    simp only [BitVec.getLsbD_and, getLsbD_one_shiftLeft hk, decide_true, Bool.and_true] at hbit
    rw [BitVec.getLsbD, h] at hbit
    simp at hbit

/-- A handle is set where its word has the bit. -/
theorem isSet_of_lt {h : ℕ} (hlt : h / 64 < c.numWords) :
    isSet m h = (m ⟨h / 64, hlt⟩).toNat.testBit (h % 64) := by
  rw [isSet, maskp_of_lt hlt]
  rw [Bool.eq_iff_iff, decide_eq_true_iff, and_shiftLeft_ne_zero _ (Nat.mod_lt h (by decide))]

theorem isSet_of_le {h : ℕ} (hle : c.numWords ≤ h / 64) : isSet m h = false := by
  rw [isSet, maskp_of_le hle]

theorem lt_of_isSet {h : ℕ} (hs : isSet m h = true) : h < 64 * c.numWords := by
  by_contra hle
  rw [isSet_of_le (by omega)] at hs
  cases hs

/-- The bits of a word are its handles. -/
theorem isSet_word {k i : ℕ} (hk : k < c.numWords) (hi : i < 64) :
    isSet m (64 * k + i) = (m ⟨k, hk⟩).toNat.testBit i := by
  have hdiv : (64 * k + i) / 64 = k := by omega
  have hmod : (64 * k + i) % 64 = i := by omega
  rw [isSet_of_lt (by rwa [hdiv]), hmod]
  simp only [hdiv]

/-! ### `FD_SET` and `FD_CLR` -/

theorem isSet_update {i : Fin c.numWords} {val : BitVec 64} {h : ℕ} :
    isSet (Function.update m i val) h =
      if h / 64 = i then val.toNat.testBit (h % 64) else isSet m h := by
  rcases Nat.lt_or_ge (h / 64) c.numWords with hlt | hle
  · rw [isSet_of_lt hlt, isSet_of_lt hlt]
    split_ifs with hi
    · rw [Function.update_apply, if_pos (Fin.ext hi)]
    · rw [Function.update_apply, if_neg fun heq => hi (congrArg Fin.val heq)]
  · rw [isSet_of_le hle, isSet_of_le hle, if_neg]
    have hi := i.isLt
    omega

theorem isSet_of_div_eq {i : Fin c.numWords} {h : ℕ} (hi : h / 64 = i) :
    isSet m h = (m i).toNat.testBit (h % 64) := by
  have hlt : h / 64 < c.numWords := hi ▸ i.isLt
  rw [isSet_of_lt hlt]
  exact congrArg (fun j => (m j).toNat.testBit (h % 64)) (Fin.ext hi)

/-- `FD_SET` **adds the handle**. -/
theorem isSet_fdSet (m : FdSet c) (handle : Fin c.maxSize) (h : ℕ) :
    isSet (fdSet m handle) h = true ↔ h = handle ∨ isSet m h = true := by
  rw [fdSet, isSet_update]
  have hk := Nat.mod_lt handle.val (Nat.zero_lt_succ 63)
  split_ifs with hi
  · rw [isSet_of_div_eq hi, ← BitVec.getLsbD, BitVec.getLsbD_or, getLsbD_one_shiftLeft hk,
      Bool.or_eq_true, decide_eq_true_iff, ← BitVec.getLsbD, or_comm]
    have hiff : h % 64 = handle % 64 ↔ h = handle := by
      dsimp only at hi
      omega
    rw [hiff]
  · have hne : h ≠ handle := by
      rintro rfl
      exact hi rfl
    simp [hne]

/-- `FD_CLR` **removes the handle**. -/
theorem isSet_fdClr (m : FdSet c) (handle : Fin c.maxSize) (h : ℕ) :
    isSet (fdClr m handle) h = true ↔ h ≠ handle ∧ isSet m h = true := by
  rw [fdClr, isSet_update]
  have hk := Nat.mod_lt handle.val (Nat.zero_lt_succ 63)
  have hh := Nat.mod_lt h (Nat.zero_lt_succ 63)
  split_ifs with hi
  · rw [isSet_of_div_eq hi, ← BitVec.getLsbD, BitVec.getLsbD_and, BitVec.getLsbD_not,
      getLsbD_one_shiftLeft hk, ← BitVec.getLsbD, and_comm]
    have hiff : h % 64 = handle % 64 ↔ h = handle := by
      dsimp only at hi
      omega
    simp [hiff, hh]
  · have hne : h ≠ handle := by
      rintro rfl
      exact hi rfl
    simp [hne]

/-! ### The list of handles -/

/-- **The handles** of a set, in ascending order. -/
def handles (m : FdSet c) : List ℕ := (List.range (64 * c.numWords)).filter (isSet m)

theorem mem_handles {h : ℕ} : h ∈ handles m ↔ isSet m h = true := by
  rw [handles, List.mem_filter, List.mem_range]
  exact ⟨fun h => h.2, fun h => ⟨lt_of_isSet h, h⟩⟩

theorem nodup_handles : (handles m).Nodup := List.nodup_range.filter _

theorem pairwise_handles : (handles m).Pairwise (· < ·) := List.pairwise_lt_range.filter _

/-- A set with one more handle is one longer. -/
theorem length_handles_add {m' : FdSet c} {a : ℕ} (ha : isSet m a = false)
    (h : ∀ x, isSet m' x = true ↔ x = a ∨ isSet m x = true) :
    (handles m').length = (handles m).length + 1 := by
  have hins : (handles m').toFinset = insert a (handles m).toFinset := by
    ext x
    rw [List.mem_toFinset, mem_handles, h, Finset.mem_insert, List.mem_toFinset, mem_handles]
  have hmem : a ∉ (handles m).toFinset := by
    rw [List.mem_toFinset, mem_handles, ha]
    decide
  rw [← List.toFinset_card_of_nodup nodup_handles, hins, Finset.card_insert_of_notMem hmem,
    List.toFinset_card_of_nodup nodup_handles]

/-! ### Counting -/

/-- The bits that a variant of `count_bits` looks at. -/
def Counted (v : CountVariant) (h : ℕ) : Prop := v = .loop ∨ h % 64 < 32

instance (v : CountVariant) (h : ℕ) : Decidable (Counted v h) :=
  inferInstanceAs (Decidable (_ ∨ _))

theorem countLoop_eq (n : BitVec 64) : countLoop n = bitCount 64 n.toNat := by
  induction n using countLoop.induct with
  | case1 =>
    rw [countLoop, if_pos rfl]
    rfl
  | case2 n hn ih =>
    have hne : n.toNat ≠ 0 := fun h0 => hn (BitVec.eq_of_toNat_eq h0)
    have hle : 1#64 ≤ n := by
      rw [BitVec.le_def]
      exact Nat.one_le_iff_ne_zero.mpr hne
    rw [countLoop, if_neg hn, ih, BitVec.toNat_and, show (1 : BitVec 64) = 1#64 from rfl,
      BitVec.toNat_sub_of_le hle]
    exact bitCount_and_pred n.isLt hne

set_option maxRecDepth 4000 in
theorem nbitsOf_eq (n : BitVec 64) : nbitsOf n = bitCount 8 n.toNat := by
  have hall : ∀ b : Fin 256, nbits.getD b 0 = bitCount 8 b := by decide
  have hmod : (n &&& 0xff).toNat = n.toNat % 2 ^ 8 := by
    rw [BitVec.toNat_and]
    exact Nat.and_two_pow_sub_one_eq_mod _ 8
  rw [nbitsOf, hmod, ← bitCount_mod]
  exact hall ⟨n.toNat % 2 ^ 8, Nat.mod_lt _ (by decide)⟩

/-- **`count_bits`** counts the bits that its variant looks at. -/
theorem countBits_eq (v : CountVariant) (n : BitVec 64) :
    countBits v n = (List.range 64).countP fun i => n.toNat.testBit i && decide (Counted v i) := by
  rcases v with _ | _
  · have hlow : ∀ k l : ℕ, bitCount (k + l) n.toNat =
        bitCount k n.toNat + bitCount l (n >>> k).toNat := fun k l => by
      rw [bitCount_add, BitVec.toNat_ushiftRight, Nat.shiftRight_eq_div_pow]
    have h16 : bitCount 16 n.toNat = _ := hlow 8 8
    have h24 : bitCount 24 n.toNat = _ := hlow 16 8
    have h32 : bitCount 32 n.toNat = _ := hlow 24 8
    have hsplit : List.range 64 = List.range 32 ++ (List.range 32).map fun i => 32 + i := by
      rw [← List.range_add]
    have hhigh : (List.range 32).countP ((fun i => n.toNat.testBit i &&
        decide (Counted .table i)) ∘ fun i => 32 + i) = 0 := by
      rw [List.countP_eq_zero]
      intro i hi
      have hlt := List.mem_range.mp hi
      have hnot : ¬Counted .table (32 + i) := by
        rintro (h | h)
        · cases h
        · omega
      simp [hnot]
    have hsum : countBits .table n = bitCount 32 n.toNat := by
      simp only [countBits, nbitsOf_eq]
      omega
    rw [hsum, hsplit, List.countP_append, List.countP_map, hhigh, Nat.add_zero]
    refine List.countP_congr fun i hi => ?_
    have hlt := List.mem_range.mp hi
    have hc : Counted .table i := Or.inr (by omega)
    simp [hc]
  · rw [countBits, countLoop_eq, bitCount]
    simp [Counted]

/-- The handles up to the end of a word: those before the word, and its own. -/
theorem countP_range_word (p : ℕ → Bool) (k : ℕ) :
    (List.range (64 * (k + 1))).countP p =
      (List.range 64).countP (p ∘ fun x => 64 * k + x) + (List.range (64 * k)).countP p := by
  rw [Nat.mul_succ, List.range_add, List.countP_append, List.countP_map, Nat.add_comm]

theorem countBits_word (v : CountVariant) {k : ℕ} (hk : k < c.numWords) :
    countBits v (m ⟨k, hk⟩) = (List.range 64).countP
      ((fun h => isSet m h && decide (Counted v h)) ∘ fun x => 64 * k + x) := by
  rw [countBits_eq]
  refine List.countP_congr fun x hx => ?_
  have hx := List.mem_range.mp hx
  have hc : Counted v (64 * k + x) ↔ Counted v x := by
    rw [Counted, Counted, Nat.mul_add_mod]
  rw [Function.comp_apply, isSet_word hk hx]
  simp only [hc]

/-- **The loop of `sync`** counts the handles up to the end of a word that its variant looks at. -/
theorem countWords_eq (v : CountVariant) {i : ℕ} (hi : i < c.numWords) :
    countWords v m i = some ((List.range (64 * (i + 1))).countP fun h =>
      isSet m h && decide (Counted v h)) := by
  induction i with
  | zero =>
    have h0 := maskp_of_lt (m := m) hi
    rw [Int.natCast_zero] at h0
    rw [countWords, h0, Option.map_some, countBits_word v hi, countP_range_word]
    rfl
  | succ i ih =>
    rw [countWords, maskp_of_lt hi, ih (by omega), countP_range_word _ (i + 1),
      ← countBits_word v hi]

end HandleSet

end AceTao
