import Mathlib.Data.List.Basic
import Mathlib.Tactic.NormNum

/-!
# The images of machine words in memory

A word of `size` bytes is stored as its bytes, the least significant one first (`ByteImage.image`);
`ByteImage.ofImage` loads it again. An array is stored as the images of its elements, one after
the other (`ByteImage.arrayImage`, `ByteImage.ofArrayImage`), and `ByteImage.swapArray` reverses
the bytes of each of its elements in place.

The two directions are inverse (`ByteImage.ofImage_image`, `ByteImage.ofArrayImage_arrayImage`),
and swapping the image of an array is taking the swapped image of each element
(`ByteImage.swapArray_arrayImage`).
-/

namespace ByteImage

/-- The `n` low bytes of a number, the least significant one first. -/
def leBytes : ℕ → ℕ → List UInt8
  | 0, _ => []
  | n + 1, v => UInt8.ofNat v :: leBytes n (v / 256)

/-- The number that a list of bytes stands for. -/
def ofLeBytes : List UInt8 → ℕ
  | [] => 0
  | b :: bs => b.toNat + 256 * ofLeBytes bs

@[simp] theorem length_leBytes (n v : ℕ) : (leBytes n v).length = n := by
  induction n generalizing v with
  | zero => rfl
  | succ n ih => rw [leBytes, List.length_cons, ih]

theorem ofLeBytes_leBytes {n v : ℕ} (h : v < 256 ^ n) : ofLeBytes (leBytes n v) = v := by
  induction n generalizing v with
  | zero =>
    rw [Nat.pow_zero] at h
    rw [leBytes, ofLeBytes]
    omega
  | succ n ih =>
    have hdiv : v / 256 < 256 ^ n := by
      rw [Nat.div_lt_iff_lt_mul (by norm_num)]
      rwa [Nat.pow_succ] at h
    rw [leBytes, ofLeBytes, ih hdiv, UInt8.toNat_ofNat']
    exact Nat.mod_add_div v 256

theorem ofLeBytes_lt (bs : List UInt8) : ofLeBytes bs < 256 ^ bs.length := by
  induction bs with
  | nil => simp [ofLeBytes]
  | cons b bs ih =>
    have hb := b.toNat_lt
    rw [ofLeBytes, List.length_cons, Nat.pow_succ]
    omega

theorem leBytes_ofLeBytes (bs : List UInt8) : leBytes bs.length (ofLeBytes bs) = bs := by
  induction bs with
  | nil => rfl
  | cons b bs ih =>
    have hb := b.toNat_lt
    have hdiv : (b.toNat + 256 * ofLeBytes bs) / 256 = ofLeBytes bs := by omega
    rw [List.length_cons, ofLeBytes, leBytes, hdiv, ih]
    congr 1
    refine UInt8.toNat_inj.mp ?_
    rw [UInt8.toNat_ofNat']
    omega

/-! ### Words -/

/-- **The image of a word** of `size` bytes. -/
def image (size : ℕ) (x : BitVec (8 * size)) : List UInt8 := leBytes size x.toNat

/-- The word with a given image. -/
def ofImage (size : ℕ) (bs : List UInt8) : BitVec (8 * size) := BitVec.ofNat _ (ofLeBytes bs)

variable {size : ℕ}

@[simp] theorem length_image (x : BitVec (8 * size)) : (image size x).length = size :=
  length_leBytes size _

@[simp] theorem ofImage_image (x : BitVec (8 * size)) : ofImage size (image size x) = x := by
  have hx : x.toNat < 256 ^ size := by
    have h := x.isLt
    rwa [Nat.pow_mul] at h
  rw [ofImage, image, ofLeBytes_leBytes hx, BitVec.ofNat_toNat, BitVec.setWidth_eq]

theorem image_ofImage {bs : List UInt8} (h : bs.length = size) : image size (ofImage size bs) = bs := by
  subst h
  have hlt : ofLeBytes bs < 2 ^ (8 * bs.length) := by
    rw [Nat.pow_mul]
    exact ofLeBytes_lt bs
  rw [image, ofImage, BitVec.toNat_ofNat, Nat.mod_eq_of_lt hlt, leBytes_ofLeBytes]

/-! ### Arrays -/

/-- **The image of an array**. -/
def arrayImage (size : ℕ) (xs : List (BitVec (8 * size))) : List UInt8 := xs.flatMap (image size)

/-- The array of `n` elements with a given image. -/
def ofArrayImage (size : ℕ) : ℕ → List UInt8 → List (BitVec (8 * size))
  | 0, _ => []
  | n + 1, bs => ofImage size (bs.take size) :: ofArrayImage size n (bs.drop size)

/-- The image of an array of `n` elements with the bytes of each element reversed. -/
def swapArray (size : ℕ) : ℕ → List UInt8 → List UInt8
  | 0, _ => []
  | n + 1, bs => (bs.take size).reverse ++ swapArray size n (bs.drop size)

@[simp] theorem length_ofArrayImage (n : ℕ) (bs : List UInt8) :
    (ofArrayImage size n bs).length = n := by
  induction n generalizing bs with
  | zero => rfl
  | succ n ih => rw [ofArrayImage, List.length_cons, ih]

@[simp] theorem arrayImage_nil : arrayImage size ([] : List (BitVec (8 * size))) = [] := rfl

@[simp] theorem arrayImage_cons (x : BitVec (8 * size)) (xs : List (BitVec (8 * size))) :
    arrayImage size (x :: xs) = image size x ++ arrayImage size xs := rfl

@[simp] theorem length_arrayImage (xs : List (BitVec (8 * size))) :
    (arrayImage size xs).length = size * xs.length := by
  induction xs with
  | nil => rfl
  | cons x xs ih => rw [arrayImage_cons, List.length_append, length_image, ih, List.length_cons,
      Nat.mul_succ, Nat.add_comm]

@[simp] theorem ofArrayImage_arrayImage (xs : List (BitVec (8 * size))) :
    ofArrayImage size xs.length (arrayImage size xs) = xs := by
  induction xs with
  | nil => rfl
  | cons x xs ih =>
    rw [arrayImage_cons, List.length_cons, ofArrayImage, List.take_left' (length_image x),
      List.drop_left' (length_image x), ofImage_image, ih]

/-- **Swapping an array swaps each element.** -/
theorem swapArray_arrayImage (xs : List (BitVec (8 * size))) :
    swapArray size xs.length (arrayImage size xs) = xs.flatMap fun x => (image size x).reverse := by
  induction xs with
  | nil => rfl
  | cons x xs ih =>
    rw [arrayImage_cons, List.length_cons, swapArray, List.take_left' (length_image x),
      List.drop_left' (length_image x), ih, List.flatMap_cons]

/-- There is nothing to reverse in an array of bytes. -/
theorem swapArray_one {n : ℕ} {bs : List UInt8} (h : bs.length = n) : swapArray 1 n bs = bs := by
  induction n generalizing bs with
  | zero => exact (List.eq_nil_of_length_eq_zero h).symm
  | succ n ih =>
    obtain _ | ⟨b, bs⟩ := bs
    · cases h
    · rw [swapArray, List.drop_one, List.tail_cons, ih (Nat.succ.inj h)]
      rfl

/-- Swapping twice gives the array back. -/
theorem swapArray_swapArray (n : ℕ) {bs : List UInt8} (h : bs.length = size * n) :
    swapArray size n (swapArray size n bs) = bs := by
  induction n generalizing bs with
  | zero => exact (List.eq_nil_of_length_eq_zero h).symm
  | succ n ih =>
    have htake : ((bs.take size).reverse).length = size := by
      rw [List.length_reverse, List.length_take, h]
      exact Nat.min_eq_left (Nat.le_mul_of_pos_right _ n.succ_pos)
    have hdrop : (bs.drop size).length = size * n := by
      rw [List.length_drop, h, Nat.mul_succ, Nat.add_sub_cancel]
    rw [swapArray, swapArray, List.take_left' htake, List.drop_left' htake, List.reverse_reverse,
      ih hdrop, List.take_append_drop]

@[simp] theorem length_swapArray (n : ℕ) {bs : List UInt8} (h : bs.length = size * n) :
    (swapArray size n bs).length = size * n := by
  induction n generalizing bs with
  | zero => rfl
  | succ n ih =>
    have hdrop : (bs.drop size).length = size * n := by
      rw [List.length_drop, h, Nat.mul_succ, Nat.add_sub_cancel]
    rw [swapArray, List.length_append, ih hdrop, List.length_reverse, List.length_take, h,
      Nat.min_eq_left (Nat.le_mul_of_pos_right _ n.succ_pos), Nat.mul_succ, Nat.add_comm]

end ByteImage
