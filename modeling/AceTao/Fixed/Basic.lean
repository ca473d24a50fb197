import Mathlib.Data.Rat.Floor
import Mathlib.Tactic.FieldSimp
import Mathlib.Tactic.Positivity
import AceTao.Library.DigitLists

/-!
# Decimal numbers with a fixed point

`Fixed` is `ACE_CDR::Fixed`: an array of 31 decimal digits and a sign, with the number of the digits
that are used and the number of those that stand behind the point. The octets of `value_` hold two
digits each, and the sign stands in the last half octet; here `value` is the list of the digits, the
least significant one first, so that `value[n]` is what `digit (n)` is in the source.

`Fixed.Valid` is the representation invariant: digits that are not used are zero, and zero is not
negative. The number itself is `Fixed.toRat`.
-/

namespace AceTao

open DigitList

def maxDigits : ℕ := 31

/-- **A decimal number** with a fixed point. -/
structure Fixed where
  value : List ℕ
  negative : Bool
  digits : ℕ
  scale : ℕ
  deriving DecidableEq, Repr

namespace Fixed

/-- What an operation may fail with: the exception `overflow_error`, an iterator that is outside of
the digits, or a recursion that does not end. -/
inductive Fault
  | overflow
  | outside
  | depth
  deriving DecidableEq, Repr

/-! ### The source -/

def sign (f : Fixed) : Bool := f.negative

def digit (f : Fixed) (n : ℕ) : ℕ := f.value.getD n 0

def setDigit (f : Fixed) (n val : ℕ) : Fixed := { f with value := f.value.set n val }

/-- The digit at an iterator. -/
def deref (f : Fixed) (n : ℕ) : Except Fault ℕ :=
  if n < f.value.length then .ok (f.digit n) else .error .outside

/-- The digit at an iterator is assigned. -/
def assign (f : Fixed) (n val : ℕ) : Except Fault Fixed :=
  if n < f.value.length then .ok (f.setDigit n val) else .error .outside

/-- How many steps it takes an iterator to get to the end. One that is behind the end does not get
there. -/
def steps (iter last : ℕ) : Except Fault ℕ :=
  if iter ≤ last then .ok (last - iter) else .error .outside

/-- The operator `-`. -/
def neg (f : Fixed) : Fixed := { f with negative := !f.sign }

/-- The operator `!`, which compares all octets with those of zero. -/
def isZero (f : Fixed) : Bool := f.value.all (· == 0) && !f.sign

/-- The digits of an integer; a `ULongLong` has 20 of them at most. -/
def integerDigits : ℕ → ℕ → List ℕ
  | 0, _ => []
  | k + 1, val => val % 10 :: if 10 ≤ val then integerDigits k (val / 10) else []

/-- `from_integer`, for an integer that is not negative. -/
def fromInteger (val : ℕ) : Fixed :=
  let ds := integerDigits 20 val
  { value := ds ++ List.replicate (maxDigits - ds.length) 0
    negative := false
    digits := ds.length
    scale := 0 }

/-! ### The number -/

/-- The digits of the array, as a number. -/
def mantissa (f : Fixed) : ℕ := Nat.ofDigits 10 f.value

/-- **The number** that is represented. -/
def toRat (f : Fixed) : ℚ := (if f.negative then -1 else 1) * (f.mantissa / 10 ^ f.scale)

/-- An array of decimal digits. -/
structure Decimal (f : Fixed) : Prop where
  length : f.value.length = maxDigits
  isDigits : IsDigits 10 f.value

/-- **The representation invariant.** -/
structure Valid (f : Fixed) : Prop extends Decimal f where
  scale_le : f.scale ≤ f.digits
  digits_le : f.digits ≤ maxDigits
  clean : ∀ n, f.digits ≤ n → f.digit n = 0
  unsigned : f.mantissa = 0 → f.negative = false

instance (f : Fixed) : Decidable (Decimal f) :=
  decidable_of_iff (f.value.length = maxDigits ∧ IsDigits 10 f.value)
    ⟨fun h => ⟨h.1, h.2⟩, fun h => ⟨h.length, h.isDigits⟩⟩

variable {f g : Fixed} {n k : ℕ}

theorem mantissa_lt (h : Decimal f) : f.mantissa < 10 ^ maxDigits :=
  h.length ▸ h.isDigits.ofDigits_lt (by norm_num)

/-- **A digit** is a digit of the number. -/
theorem digit_eq (h : Decimal f) (n : ℕ) : f.digit n = f.mantissa / 10 ^ n % 10 :=
  getD_eq h.isDigits (by norm_num) n

theorem digit_lt (h : Decimal f) (n : ℕ) : f.digit n < 10 := h.isDigits.getD_lt (by norm_num) n

/-- The digits that are used are those of the number. -/
theorem clean_iff (h : Decimal f) (k : ℕ) :
    (∀ n, k ≤ n → f.digit n = 0) ↔ f.mantissa < 10 ^ k :=
  (ofDigits_lt_pow_iff h.isDigits (by norm_num) k).symm

theorem Valid.mantissa_lt (h : Valid f) : f.mantissa < 10 ^ f.digits :=
  (clean_iff h.toDecimal f.digits).mp h.clean

/-- **Valid representations** in terms of their numbers. -/
theorem valid_iff : Valid f ↔ Decimal f ∧ f.scale ≤ f.digits ∧ f.digits ≤ maxDigits ∧
    f.mantissa < 10 ^ f.digits ∧ (f.mantissa = 0 → f.negative = false) := by
  constructor
  · exact fun h => ⟨h.toDecimal, h.scale_le, h.digits_le, h.mantissa_lt, h.unsigned⟩
  · rintro ⟨hd, hscale, hdigits, hlt, hsign⟩
    exact ⟨hd, hscale, hdigits, (clean_iff hd _).mpr hlt, hsign⟩

instance (f : Fixed) : Decidable (Valid f) := decidable_of_iff' _ valid_iff

/-! ### Digits -/

@[simp] theorem setDigit_digits (f : Fixed) (n val : ℕ) :
    (f.setDigit n val).digits = f.digits := rfl

theorem Decimal.setDigit (h : Decimal f) {val : ℕ} (hval : val < 10) (n : ℕ) :
    Decimal (f.setDigit n val) :=
  ⟨by rw [Fixed.setDigit, List.length_set, h.length], h.isDigits.set hval n⟩

/-- **Assigning a digit** adds the difference at its place. -/
theorem mantissa_setDigit (h : Decimal f) (hn : n < maxDigits) (val : ℕ) :
    (f.setDigit n val).mantissa + 10 ^ n * f.digit n = f.mantissa + 10 ^ n * val :=
  ofDigits_set_add 10 (h.length ▸ hn) val

/-- The number above a digit that is assigned. -/
theorem mantissa_setDigit_div (h : Decimal f) {val : ℕ} (hval : val < 10) (hn : n < k) :
    (f.setDigit n val).mantissa / 10 ^ k = f.mantissa / 10 ^ k := by
  rw [mantissa, mantissa,
    Nat.ofDigits_div_pow_eq_ofDigits_drop k (by norm_num) _ (h.setDigit hval n).isDigits,
    Nat.ofDigits_div_pow_eq_ofDigits_drop k (by norm_num) _ h.isDigits, setDigit,
    List.drop_set_of_lt hn]

theorem digit_setDigit (h : Decimal f) (hn : n < maxDigits) (val m : ℕ) :
    (f.setDigit n val).digit m = if m = n then val else f.digit m := by
  rw [digit, setDigit, digit, List.getD_eq_getElem?_getD, List.getD_eq_getElem?_getD]
  by_cases heq : m = n
  · subst heq
    rw [if_pos rfl, List.getElem?_set_self (h.length ▸ hn), Option.getD_some]
  · rw [if_neg heq, List.getElem?_set_ne (Ne.symm heq)]

theorem deref_eq (h : Decimal f) (hn : n < maxDigits) : f.deref n = .ok (f.digit n) :=
  if_pos (h.length ▸ hn)

theorem assign_eq (h : Decimal f) (hn : n < maxDigits) (val : ℕ) :
    f.assign n val = .ok (f.setDigit n val) :=
  if_pos (h.length ▸ hn)

theorem all_zero_iff (f : Fixed) : f.value.all (· == 0) = true ↔ f.value =
    List.replicate f.value.length 0 := by
  rw [List.all_eq_true, List.eq_replicate_iff]
  exact ⟨fun h => ⟨rfl, fun d hd => by simpa using h d hd⟩, fun h d hd => by simpa using h.2 d hd⟩

/-- Where `!` holds the number is zero. -/
theorem mantissa_of_isZero (h : f.isZero = true) : f.mantissa = 0 := by
  rw [isZero, Bool.and_eq_true, all_zero_iff] at h
  rw [mantissa, h.1, Nat.ofDigits_replicate_zero]

/-- The operator `!` for a number that is not negative. -/
theorem isZero_iff (h : Decimal f) (hneg : f.negative = false) :
    f.isZero = true ↔ f.mantissa = 0 := by
  refine ⟨mantissa_of_isZero, fun hzero => ?_⟩
  rw [isZero, sign, hneg, Bool.not_false, Bool.and_true, List.all_eq_true]
  intro d hd
  obtain ⟨i, hi⟩ := List.mem_iff_getElem?.mp hd
  have hdigit := digit_eq h i
  rw [hzero, Nat.zero_div, Nat.zero_mod, digit, List.getD_eq_getElem?_getD, hi,
    Option.getD_some] at hdigit
  simpa using hdigit

end Fixed

end AceTao

/-!
## Moving the digits

`normalize` moves the digits down over zeros behind the point, `lshift` moves them up as far as no
digit is lost, and `ltrim` forgets zeros in front. In terms of the number, `normalize` divides it
(`normalize_spec`), `lshift` multiplies it (`lshift_spec`), and `ltrim` keeps it (`ltrim_spec`).
-/

namespace AceTao.Fixed

open DigitList

/-! ### The source -/

/-- The first loop of `normalize`: how many nibbles can be moved. Behind the last digit it looks at
a nibble that decides nothing. -/
def normalizeNibbles (f : Fixed) (minScale : ℕ) : ℕ → ℕ → ℕ
  | 0, nibbles => nibbles
  | k + 1, nibbles =>
    if f.digit nibbles = 0 ∧ minScale < f.scale - nibbles
      then normalizeNibbles f minScale k (nibbles + 1)
    else nibbles

/-- The second loop: the digits from `idx` on are moved, and what they leave is cleared. -/
def moveNibbles (nibbles : ℕ) : ℕ → ℕ → Fixed → Fixed
  | 0, _, f => f
  | k + 1, idx, f =>
    let f := f.setDigit (idx - nibbles) (f.digit idx)
    let f := f.setDigit idx 0
    moveNibbles nibbles k (idx + 1) f

/-- The loop that clears the digits from `i` on. -/
def clearDigits : ℕ → ℕ → Fixed → Fixed
  | 0, _, f => f
  | k + 1, i, f => clearDigits k (i + 1) (f.setDigit i 0)

/-- **Zeros behind the point** are removed, down to a scale. -/
def normalize (f : Fixed) (minScale : ℕ) : Fixed :=
  if f.digit 0 ≠ 0 ∨ f.scale = 0 then f
  else
    let nibbles := normalizeNibbles f minScale f.scale 0
    let f := moveNibbles nibbles (f.digits - nibbles) nibbles f
    { f with scale := f.scale - nibbles, digits := f.digits - nibbles }

/-- The loop of `lshift` over the octets, which hold two digits each. -/
def lshiftBytes (f : Fixed) : ℕ → ℕ → ℕ
  | 0, bytes => bytes
  | k + 1, bytes =>
    if f.digit (30 - 2 * bytes) ≠ 0 ∨ f.digit (29 - 2 * bytes) ≠ 0 then bytes
    else lshiftBytes f k (bytes + 1)

/-- How far `lshift` moves the digits. -/
def lshiftCount (f : Fixed) (digits : ℕ) : ℕ :=
  let bytes := lshiftBytes f (digits / 2) 0
  if digits % 2 ≠ 0 ∧ f.digit (30 - 2 * bytes) = 0 then 2 * bytes + 1
  else if bytes ≠ 0 then 2 * bytes
  else 0

/-- **The digits are moved up**, by up to `digits` places. -/
def lshift (f : Fixed) (digits : ℕ) : Fixed × ℕ :=
  let shifted := lshiftCount f digits
  ({ f with
      value := List.replicate shifted 0 ++ f.value.take (maxDigits - shifted)
      digits := if f.digits + shifted > maxDigits then maxDigits else f.digits + shifted
      scale := if f.scale + shifted > maxDigits then maxDigits else f.scale + shifted },
    shifted)

/-- The loop of `ltrim`, with the number of digits. -/
def ltrimDigits (f : Fixed) : ℕ → ℕ
  | 0 => 0
  | i + 1 => if f.scale ≤ i ∧ 0 < i ∧ f.digit i = 0 then ltrimDigits f i else i + 1

/-- **Zeros in front** are forgotten. -/
def ltrim (f : Fixed) : Fixed := { f with digits := ltrimDigits f f.digits }

/-! ### Normalization -/

variable {f : Fixed} {k n : ℕ}

/-- Where the low digits are zero, as many are moved as the scale allows. -/
theorem normalizeNibbles_eq {minScale nibbles : ℕ} (hscale : minScale + k = f.scale)
    (hzero : ∀ n < k, f.digit n = 0) (hle : nibbles ≤ k) {fuel : ℕ} (hfuel : k ≤ nibbles + fuel) :
    normalizeNibbles f minScale fuel nibbles = k := by
  induction fuel generalizing nibbles with
  | zero => exact le_antisymm hle hfuel
  | succ fuel ih =>
    rw [normalizeNibbles]
    rcases hle.lt_or_eq with hlt | rfl
    · rw [if_pos ⟨hzero nibbles hlt, by omega⟩]
      exact ih hlt (by omega)
    · rw [if_neg]
      rintro ⟨-, hlt⟩
      omega

/-- What stays the same besides the digits of the array. -/
structure SameShape (f g : Fixed) : Prop where
  negative : g.negative = f.negative
  digits : g.digits = f.digits
  scale : g.scale = f.scale

theorem SameShape.trans {g u : Fixed} (h : SameShape f g) (h' : SameShape g u) : SameShape f u :=
  ⟨h'.negative.trans h.negative, h'.digits.trans h.digits, h'.scale.trans h.scale⟩

theorem sameShape_setDigit (f : Fixed) (n val : ℕ) : SameShape f (f.setDigit n val) :=
  ⟨rfl, rfl, rfl⟩

/-- **The loop that moves the digits**: those from `idx` on get behind `lo`, where there are zeros
before. -/
theorem moveNibbles_spec {nibbles idx lo hi : ℕ} (h : Decimal f) (hpos : 0 < nibbles)
    (hidx : nibbles ≤ idx) (hle : idx + k ≤ maxDigits) (hf : f.mantissa = lo + 10 ^ idx * hi)
    (hlo : lo < 10 ^ (idx - nibbles)) (hhi : hi < 10 ^ k) :
    Decimal (moveNibbles nibbles k idx f) ∧ SameShape f (moveNibbles nibbles k idx f) ∧
      (moveNibbles nibbles k idx f).mantissa = lo + 10 ^ (idx - nibbles) * hi := by
  induction k generalizing f idx lo hi with
  | zero =>
    obtain rfl : hi = 0 := by
      rw [pow_zero] at hhi
      omega
    exact ⟨h, ⟨rfl, rfl, rfl⟩, by rw [moveNibbles, hf, Nat.mul_zero, Nat.mul_zero]⟩
  | succ k ih =>
    have hsplit : 10 ^ idx = 10 ^ (idx - nibbles) * 10 ^ nibbles := by
      rw [← pow_add, Nat.sub_add_cancel hidx]
    have hpow : 0 < 10 ^ idx := Nat.pow_pos (by norm_num)
    have hpow' : 0 < 10 ^ (idx - nibbles) := Nat.pow_pos (by norm_num)
    have hdigit : f.digit idx = hi % 10 := by
      have hlt : lo < 10 ^ idx :=
        hlo.trans_le (Nat.pow_le_pow_right (by norm_num) (Nat.sub_le _ _))
      rw [digit_eq h, hf, Nat.add_mul_div_left _ _ hpow, Nat.div_eq_of_lt hlt, Nat.zero_add]
    have hzero : f.digit (idx - nibbles) = 0 := by
      rw [digit_eq h, hf, hsplit, Nat.mul_assoc, Nat.add_mul_div_left _ _ hpow',
        Nat.div_eq_of_lt hlo, Nat.zero_add]
      obtain ⟨m, rfl⟩ := Nat.exists_eq_add_of_lt hpos
      rw [Nat.zero_add, pow_succ, Nat.mul_assoc, Nat.mul_left_comm]
      exact Nat.mul_mod_right _ _
    -- the digit is copied, and then cleared
    have hd1 : Decimal (f.setDigit (idx - nibbles) (f.digit idx)) :=
      h.setDigit (digit_lt h idx) _
    have hm1 := mantissa_setDigit h (show idx - nibbles < maxDigits by omega) (f.digit idx)
    have hdigit1 : (f.setDigit (idx - nibbles) (f.digit idx)).digit idx = f.digit idx := by
      rw [digit_setDigit h (by omega), if_neg (by omega)]
    have hm2 := mantissa_setDigit hd1 (show idx < maxDigits by omega) 0
    rw [hdigit1, Nat.mul_zero, Nat.add_zero] at hm2
    rw [hzero, Nat.mul_zero, Nat.add_zero, hf] at hm1
    have hmod := Nat.div_add_mod hi 10
    obtain ⟨hdec, hshape, hvalue⟩ := @ih ((f.setDigit (idx - nibbles) (f.digit idx)).setDigit idx 0)
      (idx + 1) (lo + 10 ^ (idx - nibbles) * (hi % 10)) (hi / 10) (hd1.setDigit (by norm_num) _)
      (by omega) (by omega) (by
        rw [hdigit] at hm1 hm2 ⊢
        have hval : 10 ^ idx * hi = 10 ^ (idx + 1) * (hi / 10) + 10 ^ idx * (hi % 10) := by
          conv_lhs => rw [← hmod]
          ring
        omega)
      (by
        have hsucc : 10 ^ (idx + 1 - nibbles) = 10 * 10 ^ (idx - nibbles) := by
          rw [show idx + 1 - nibbles = idx - nibbles + 1 by omega, pow_succ, Nat.mul_comm]
        have hlt := Nat.mod_lt hi (show 0 < 10 by norm_num)
        have hmul : 10 ^ (idx - nibbles) * (hi % 10) ≤ 10 ^ (idx - nibbles) * 9 :=
          Nat.mul_le_mul_left _ (by omega)
        omega)
      (by
        rw [pow_succ] at hhi
        omega)
    refine ⟨hdec, ((sameShape_setDigit ..).trans (sameShape_setDigit ..)).trans hshape, ?_⟩
    rw [moveNibbles]
    refine hvalue.trans ?_
    rw [show idx + 1 - nibbles = idx - nibbles + 1 by omega]
    conv_rhs => rw [← hmod]
    ring

/-- **Normalization** down to a scale, where the digits behind it are zero. -/
theorem normalize_spec {minScale m : ℕ} (h : Decimal f) (hscale : f.scale ≤ f.digits)
    (hdigits : f.digits ≤ maxDigits) (hpos : 0 < k) (hk : minScale + k = f.scale)
    (hf : f.mantissa = 10 ^ k * m) (hlt : f.mantissa < 10 ^ f.digits) :
    Decimal (f.normalize minScale) ∧ (f.normalize minScale).negative = f.negative ∧
      (f.normalize minScale).digits = f.digits - k ∧ (f.normalize minScale).scale = minScale ∧
      (f.normalize minScale).mantissa = m := by
  have hzero : ∀ n < k, f.digit n = 0 := by
    intro n hn
    obtain ⟨j, rfl⟩ := Nat.exists_eq_add_of_lt hn
    rw [digit_eq h, hf, show 10 ^ (n + j + 1) * m = 10 ^ n * (10 * (10 ^ j * m)) by ring,
      Nat.mul_div_cancel_left _ (Nat.pow_pos (by norm_num)), Nat.mul_mod_right]
  have hnibbles : normalizeNibbles f minScale f.scale 0 = k :=
    normalizeNibbles_eq hk hzero (Nat.zero_le k) (by omega)
  have hnot : ¬(f.digit 0 ≠ 0 ∨ f.scale = 0) := by
    rw [not_or, not_not]
    exact ⟨hzero 0 hpos, by omega⟩
  obtain ⟨hdec, hshape, hvalue⟩ := @moveNibbles_spec f (f.digits - k) k k 0 m h hpos le_rfl
    (by omega) (by rw [hf, Nat.zero_add]) (Nat.pow_pos (by norm_num)) (by
      refine Nat.lt_of_mul_lt_mul_left (a := 10 ^ k) ?_
      rw [← pow_add, show k + (f.digits - k) = f.digits by omega, ← hf]
      exact hlt)
  rw [Nat.sub_self, pow_zero, Nat.one_mul, Nat.zero_add] at hvalue
  rw [normalize, if_neg hnot]
  dsimp only
  rw [hnibbles]
  refine ⟨⟨hdec.length, hdec.isDigits⟩, hshape.negative, ?_, ?_, hvalue⟩
  · exact congrArg (· - k) hshape.digits
  · refine (congrArg (· - k) hshape.scale).trans ?_
    omega

/-- **Clearing digits** from the least on. -/
theorem clearDigits_spec {i : ℕ} (h : Decimal f) (hle : i + k ≤ maxDigits) :
    Decimal (clearDigits k i f) ∧ SameShape f (clearDigits k i f) ∧
      (clearDigits k i f).mantissa + 10 ^ i * (f.mantissa / 10 ^ i % 10 ^ k) = f.mantissa := by
  induction k generalizing f i with
  | zero =>
    refine ⟨h, ⟨rfl, rfl, rfl⟩, ?_⟩
    rw [clearDigits, pow_zero, Nat.mod_one, Nat.mul_zero, Nat.add_zero]
  | succ k ih =>
    have hset := mantissa_setDigit h (show i < maxDigits by omega) 0
    rw [Nat.mul_zero, Nat.add_zero] at hset
    have hd : Decimal (f.setDigit i 0) := h.setDigit (by norm_num) i
    obtain ⟨hdec, hshape, hvalue⟩ := @ih (f.setDigit i 0) (i + 1) hd (by omega)
    refine ⟨hdec, (sameShape_setDigit ..).trans hshape, ?_⟩
    have hdigit := digit_eq h i
    have hdiv : (f.setDigit i 0).mantissa / 10 ^ (i + 1) = f.mantissa / 10 ^ i / 10 := by
      rw [mantissa_setDigit_div h (by norm_num) i.lt_succ_self, pow_succ, Nat.div_div_eq_div_mul]
    rw [clearDigits]
    rw [hdiv] at hvalue
    have hmod : f.mantissa / 10 ^ i % 10 ^ (k + 1) =
        f.digit i + 10 * (f.mantissa / 10 ^ i / 10 % 10 ^ k) := by
      rw [hdigit, pow_succ', Nat.mod_mul]
    calc (clearDigits k (i + 1) (f.setDigit i 0)).mantissa +
          10 ^ i * (f.mantissa / 10 ^ i % 10 ^ (k + 1))
        = (clearDigits k (i + 1) (f.setDigit i 0)).mantissa +
            10 ^ (i + 1) * (f.mantissa / 10 ^ i / 10 % 10 ^ k) + 10 ^ i * f.digit i := by
          rw [hmod]; ring
      _ = f.mantissa := by rw [hvalue, hset]

/-- The lowest digits. -/
theorem clearDigits_zero_spec (h : Decimal f) (hle : k ≤ maxDigits) :
    Decimal (clearDigits k 0 f) ∧ SameShape f (clearDigits k 0 f) ∧
      (clearDigits k 0 f).mantissa = 10 ^ k * (f.mantissa / 10 ^ k) := by
  obtain ⟨hdec, hshape, hvalue⟩ := @clearDigits_spec f k 0 h (by omega)
  refine ⟨hdec, hshape, ?_⟩
  rw [pow_zero, Nat.one_mul, Nat.div_one] at hvalue
  have hsplit := Nat.div_add_mod f.mantissa (10 ^ k)
  omega

/-! ### Shifting to the left -/

/-- The digits in front that are zero. -/
def leadingZeros (m : ℕ) : ℕ := maxDigits - (Nat.digits 10 m).length

/-- How far a number is moved, of at most `d` places: an even number of places is only moved by
pairs of digits. -/
def shiftBy (m d : ℕ) : ℕ :=
  if d % 2 ≠ 0 then min (leadingZeros m) d else 2 * min (leadingZeros m / 2) (d / 2)

theorem le_leadingZeros_iff {m : ℕ} (hn : n ≤ maxDigits) (hm : m < 10 ^ maxDigits) :
    n ≤ leadingZeros m ↔ m < 10 ^ (maxDigits - n) := by
  have hlen := (Nat.digits_length_le_iff (by norm_num) m).mpr hm
  rw [← Nat.digits_length_le_iff (by norm_num), leadingZeros]
  omega

theorem leadingZeros_le (m : ℕ) : leadingZeros m ≤ maxDigits := Nat.sub_le _ _

theorem shiftBy_le (m d : ℕ) : shiftBy m d ≤ d := by
  rw [shiftBy]
  split_ifs <;> omega

theorem shiftBy_le_leadingZeros (m d : ℕ) : shiftBy m d ≤ leadingZeros m := by
  rw [shiftBy]
  split_ifs <;> omega

/-- Where there is room enough, the number is moved as far as it should be. -/
theorem shiftBy_eq {m d : ℕ} (h : d ≤ leadingZeros m) : shiftBy m d = d := by
  rw [shiftBy]
  split_ifs <;> omega

/-- No digit is lost. -/
theorem shiftBy_mul_lt {m : ℕ} (hm : m < 10 ^ maxDigits) (d : ℕ) :
    10 ^ shiftBy m d * m < 10 ^ maxDigits := by
  have hle := (shiftBy_le_leadingZeros m d)
  have hmax := hle.trans (leadingZeros_le m)
  have hlt := (le_leadingZeros_iff hmax hm).mp hle
  calc 10 ^ shiftBy m d * m < 10 ^ shiftBy m d * 10 ^ (maxDigits - shiftBy m d) :=
        Nat.mul_lt_mul_of_pos_left hlt (Nat.pow_pos (by norm_num))
    _ = 10 ^ maxDigits := by rw [← pow_add, Nat.add_sub_cancel' hmax]

/-- The greatest digit of a number is zero. -/
theorem digit_eq_zero_iff (h : Decimal f) (hlt : f.mantissa < 10 ^ (n + 1)) :
    f.digit n = 0 ↔ f.mantissa < 10 ^ n := by
  have hdiv : f.mantissa / 10 ^ n < 10 := by
    rw [Nat.div_lt_iff_lt_mul (Nat.pow_pos (by norm_num)), ← pow_succ']
    exact hlt
  rw [digit_eq h, Nat.mod_eq_of_lt hdiv, Nat.div_eq_zero_iff_lt (Nat.pow_pos (by norm_num))]

/-- The zeros in front of a number, one by one. -/
theorem digit_leading_iff (h : Decimal f) (hn : n < maxDigits) (hzeros : n ≤ leadingZeros f.mantissa) :
    f.digit (30 - n) = 0 ↔ n + 1 ≤ leadingZeros f.mantissa := by
  have hm := mantissa_lt h
  have hsucc : maxDigits - n = 30 - n + 1 := by
    rw [maxDigits] at hn ⊢
    omega
  have hlt := (le_leadingZeros_iff hn.le hm).mp hzeros
  rw [hsucc] at hlt
  rw [digit_eq_zero_iff h hlt, le_leadingZeros_iff hn hm, maxDigits,
    show 31 - (n + 1) = 30 - n by omega]

theorem lshiftBytes_eq (h : Decimal f) {bytes : ℕ} (hle : bytes ≤ leadingZeros f.mantissa / 2)
    (hmax : bytes + k ≤ 15) :
    lshiftBytes f k bytes = min (leadingZeros f.mantissa / 2) (bytes + k) := by
  induction k generalizing bytes with
  | zero => exact (Nat.min_eq_right hle).symm
  | succ k ih =>
    have hmax' : maxDigits = 31 := rfl
    have hfirst := digit_leading_iff h (show 2 * bytes < maxDigits by omega) (by omega)
    rw [lshiftBytes]
    by_cases hone : 2 * bytes + 1 ≤ leadingZeros f.mantissa
    · have hsecond := digit_leading_iff h (show 2 * bytes + 1 < maxDigits by omega) hone
      rw [show 30 - (2 * bytes + 1) = 29 - 2 * bytes by omega] at hsecond
      by_cases htwo : 2 * bytes + 1 + 1 ≤ leadingZeros f.mantissa
      · rw [if_neg (fun hc => hc.elim (absurd (hfirst.mpr hone)) (absurd (hsecond.mpr htwo))),
          ih (by omega) (by omega)]
        omega
      · rw [if_pos (Or.inr (mt hsecond.mp htwo))]
        omega
    · rw [if_pos (Or.inl (mt hfirst.mp hone))]
      omega

theorem lshiftCount_eq (h : Decimal f) {d : ℕ} (hd : d ≤ maxDigits) :
    lshiftCount f d = shiftBy f.mantissa d := by
  have hmax : maxDigits = 31 := rfl
  have hbytes := @lshiftBytes_eq f (d / 2) h 0 (Nat.zero_le _) (by omega)
  rw [Nat.zero_add] at hbytes
  have hnext := digit_leading_iff h
    (show 2 * min (leadingZeros f.mantissa / 2) (d / 2) < maxDigits by omega) (by omega)
  rw [lshiftCount, hbytes, shiftBy]
  by_cases hodd : d % 2 ≠ 0
  · rw [if_pos hodd]
    by_cases hroom : 2 * min (leadingZeros f.mantissa / 2) (d / 2) + 1 ≤ leadingZeros f.mantissa
    · rw [if_pos ⟨hodd, hnext.mpr hroom⟩]
      omega
    · rw [if_neg (fun hc => hroom (hnext.mp hc.2))]
      split_ifs <;> omega
  · rw [if_neg hodd, if_neg (fun hc => hodd hc.1)]
    split_ifs <;> omega

/-- **Shifting to the left** multiplies the number. -/
theorem lshift_spec (h : Decimal f) {d : ℕ} (hd : d ≤ maxDigits) :
    (f.lshift d).2 = shiftBy f.mantissa d ∧ Decimal (f.lshift d).1 ∧
      (f.lshift d).1.negative = f.negative ∧
      (f.lshift d).1.digits = min (f.digits + shiftBy f.mantissa d) maxDigits ∧
      (f.lshift d).1.scale = min (f.scale + shiftBy f.mantissa d) maxDigits ∧
      (f.lshift d).1.mantissa = 10 ^ shiftBy f.mantissa d * f.mantissa := by
  have hle : shiftBy f.mantissa d ≤ maxDigits := (shiftBy_le _ _).trans hd
  have hmove := ofDigits_moveUp h.isDigits (by norm_num) (h.length ▸ hle)
  rw [h.length] at hmove
  rw [lshift]
  dsimp only
  rw [lshiftCount_eq h hd]
  refine ⟨rfl, ⟨?_, ?_⟩, rfl, ?_, ?_, hmove.trans (Nat.mod_eq_of_lt ?_)⟩
  · rw [List.length_append, List.length_replicate, List.length_take, h.length]
    omega
  · exact (isDigits_replicate (by norm_num) _).append (h.isDigits.take _)
  · split_ifs <;> omega
  · split_ifs <;> omega
  · exact shiftBy_mul_lt (mantissa_lt h) d

/-! ### Zeros in front -/

theorem ltrimDigits_spec (h : Decimal f) (hlt : f.mantissa < 10 ^ k) (hscale : f.scale ≤ k) :
    ltrimDigits f k ≤ k ∧ f.scale ≤ ltrimDigits f k ∧ f.mantissa < 10 ^ ltrimDigits f k ∧
      (ltrimDigits f k ≤ 1 ∨ ltrimDigits f k = f.scale ∨
        10 ^ (ltrimDigits f k - 1) ≤ f.mantissa) := by
  induction k with
  | zero => exact ⟨le_rfl, hscale, hlt, Or.inl (Nat.zero_le 1)⟩
  | succ i ih =>
    rw [ltrimDigits]
    split_ifs with hzero
    · obtain ⟨hle, hi, hd⟩ := hzero
      obtain ⟨h1, h2, h3, h4⟩ := ih ((digit_eq_zero_iff h hlt).mp hd) hle
      exact ⟨h1.trans i.le_succ, h2, h3, h4⟩
    · refine ⟨le_rfl, hscale, hlt, ?_⟩
      by_contra hc
      rw [not_or, not_or, Nat.add_sub_cancel, not_le, not_le] at hc
      exact hzero ⟨by omega, by omega, (digit_eq_zero_iff h hlt).mpr hc.2.2⟩

/-- **Forgetting zeros** keeps the number. -/
theorem ltrim_spec (h : Decimal f) (hlt : f.mantissa < 10 ^ f.digits) (hscale : f.scale ≤ f.digits) :
    Decimal f.ltrim ∧ f.ltrim.negative = f.negative ∧ f.ltrim.scale = f.scale ∧
      f.ltrim.mantissa = f.mantissa ∧ f.ltrim.digits ≤ f.digits ∧ f.scale ≤ f.ltrim.digits ∧
      f.mantissa < 10 ^ f.ltrim.digits ∧
      (f.ltrim.digits ≤ 1 ∨ f.ltrim.digits = f.scale ∨
        10 ^ (f.ltrim.digits - 1) ≤ f.mantissa) := by
  obtain ⟨h1, h2, h3, h4⟩ := ltrimDigits_spec h hlt hscale
  exact ⟨⟨h.length, h.isDigits⟩, rfl, rfl, rfl, h1, h2, h3, h4⟩

end AceTao.Fixed
