import Mathlib.Algebra.BigOperators.Intervals
import Mathlib.Algebra.BigOperators.Ring.Finset
import Mathlib.Data.Nat.Digits.Lemmas

/-!
# Numbers as lists of digits

A list of digits in a base `b`, the least significant one first, stands for the number
`Nat.ofDigits b`. A digit of the list is a digit of the number (`getD_eq`), replacing it adds the
difference at its place (`ofDigits_set_add`), and moving the digits up multiplies
(`ofDigits_moveUp`).

The product of two numbers that are given by their digits is found column by column: a column adds up
the products of the digits whose places add up to its own (`columnSum`), and the sum of the columns at
their places is the product (`sum_columns`). `carryColumns` passes the carry from column to column;
what it leaves is the sum in digits (`ofDigits_carryColumns`).
-/

namespace DigitList

section Digits

open Nat

/-- The digits are digits in base `b`. -/
def IsDigits (b : ℕ) (ds : List ℕ) : Prop := ∀ d ∈ ds, d < b

instance (b : ℕ) (ds : List ℕ) : Decidable (IsDigits b ds) :=
  inferInstanceAs (Decidable (∀ d ∈ ds, d < b))

variable {b d i k x : ℕ} {ds es : List ℕ}

theorem IsDigits.append (h : IsDigits b ds) (h' : IsDigits b es) : IsDigits b (ds ++ es) := by
  intro d hd
  rcases List.mem_append.mp hd with hd | hd
  · exact h d hd
  · exact h' d hd

theorem isDigits_cons : IsDigits b (d :: ds) ↔ d < b ∧ IsDigits b ds := List.forall_mem_cons

theorem IsDigits.take (h : IsDigits b ds) (k : ℕ) : IsDigits b (ds.take k) :=
  fun d hd => h d (List.mem_of_mem_take hd)

theorem IsDigits.set (h : IsDigits b ds) (hx : x < b) (i : ℕ) : IsDigits b (ds.set i x) := by
  intro d hd
  rcases List.mem_or_eq_of_mem_set hd with hd | rfl
  · exact h d hd
  · exact hx

theorem isDigits_replicate (hb : 0 < b) (k : ℕ) : IsDigits b (List.replicate k 0) := by
  intro d hd
  rw [List.eq_of_mem_replicate hd]
  exact hb

theorem IsDigits.getD_lt (h : IsDigits b ds) (hb : 0 < b) (i : ℕ) : ds.getD i 0 < b := by
  rw [List.getD_eq_getElem?_getD]
  rcases hi : ds[i]? with _ | d
  · exact hb
  · exact h d (List.mem_of_getElem? hi)

theorem IsDigits.ofDigits_lt (h : IsDigits b ds) (hb : 1 < b) : ofDigits b ds < b ^ ds.length :=
  ofDigits_lt_base_pow_length hb h

/-! ### Digits of the list and of the number -/

/-- **A digit of the list** is a digit of the number. -/
theorem getD_eq (h : IsDigits b ds) (hb : 0 < b) (i : ℕ) :
    ds.getD i 0 = ofDigits b ds / b ^ i % b := by
  rw [ofDigits_div_pow_eq_ofDigits_drop i hb ds h, List.getD_eq_getElem?_getD,
    ← Nat.add_zero i, ← List.getElem?_drop, Nat.add_zero]
  rcases hdrop : ds.drop i with _ | ⟨d, rest⟩
  · rw [List.getElem?_nil, Option.getD_none, ofDigits_nil, Nat.zero_mod]
  · have hd : d < b := h d (List.mem_of_mem_drop (hdrop ▸ List.mem_cons_self))
    rw [List.getElem?_cons_zero, Option.getD_some, ofDigits_cons, Nat.add_mul_mod_self_left,
      Nat.mod_eq_of_lt hd]

/-- **Replacing a digit** adds the difference at its place. -/
theorem ofDigits_set_add (b : ℕ) (hi : i < ds.length) (x : ℕ) :
    ofDigits b (ds.set i x) + b ^ i * ds.getD i 0 = ofDigits b ds + b ^ i * x := by
  induction ds generalizing i with
  | nil => exact absurd hi (Nat.not_lt_zero i)
  | cons d ds ih =>
    rcases i with _ | i
    · simp only [List.set_cons_zero, ofDigits_cons, List.getD_cons_zero, pow_zero, one_mul]
      omega
    · have hrest := ih (Nat.lt_of_succ_lt_succ hi)
      simp only [List.set_cons_succ, ofDigits_cons, List.getD_cons_succ]
      calc d + b * ofDigits b (ds.set i x) + b ^ (i + 1) * ds.getD i 0
          = d + b * (ofDigits b (ds.set i x) + b ^ i * ds.getD i 0) := by ring
        _ = d + b * (ofDigits b ds + b ^ i * x) := by rw [hrest]
        _ = d + b * ofDigits b ds + b ^ (i + 1) * x := by ring

/-- Two lists with the same digits in every place. -/
theorem eq_of_getD_eq (hlen : ds.length = es.length)
    (h : ∀ i < ds.length, ds.getD i 0 = es.getD i 0) : ds = es := by
  refine List.ext_getElem hlen fun i hi hi' => ?_
  have heq := h i hi
  rwa [List.getD_eq_getElem?_getD, List.getD_eq_getElem?_getD, List.getElem?_eq_getElem hi,
    List.getElem?_eq_getElem hi', Option.getD_some, Option.getD_some] at heq

/-- The number is smaller than a power when the digits from its place on are zero. -/
theorem ofDigits_lt_pow_iff (h : IsDigits b ds) (hb : 1 < b) (k : ℕ) :
    ofDigits b ds < b ^ k ↔ ∀ i, k ≤ i → ds.getD i 0 = 0 := by
  have hpos : 0 < b := zero_lt_of_lt hb
  constructor
  · intro hlt i hi
    rw [getD_eq h hpos, Nat.div_eq_of_lt (hlt.trans_le (Nat.pow_le_pow_right hpos hi)),
      Nat.zero_mod]
  · intro hzero
    have hrest : ds.drop k = List.replicate (ds.length - k) 0 := by
      refine eq_of_getD_eq (by rw [List.length_drop, List.length_replicate]) fun i _ => ?_
      have hi := hzero (k + i) (Nat.le_add_right _ _)
      rw [List.getD_eq_getElem?_getD, List.getElem?_drop, ← List.getD_eq_getElem?_getD, hi]
      simp [List.getD_eq_getElem?_getD, List.getElem?_replicate]
      split_ifs <;> rfl
    have hsplit := ofDigits_div_pow_eq_ofDigits_drop k hpos ds h
    rw [hrest, ofDigits_replicate_zero] at hsplit
    exact (Nat.div_eq_zero_iff_lt (Nat.pow_pos hpos)).mp hsplit

/-! ### Moving digits -/

/-- **Moving the digits up** multiplies the number, which loses the digits at the end. -/
theorem ofDigits_moveUp (h : IsDigits b ds) (hb : 1 < b) (hk : k ≤ ds.length) :
    ofDigits b (List.replicate k 0 ++ ds.take (ds.length - k)) =
      b ^ k * ofDigits b ds % b ^ ds.length := by
  have hpos : 0 < b := zero_lt_of_lt hb
  have hpow : b ^ ds.length = b ^ k * b ^ (ds.length - k) := by
    rw [← pow_add, Nat.add_sub_cancel' hk]
  rw [ofDigits_append, ofDigits_replicate_zero, List.length_replicate, Nat.zero_add,
    ← ofDigits_mod_pow_eq_ofDigits_take _ hpos ds h, hpow, Nat.mul_mod_mul_left]

end Digits

/-! ### Multiplication by columns -/

section Columns

open Finset

variable {b k m n i c : ℕ} {x y S : ℕ → ℕ}

/-- The rows of a column: the places of the right number that go with a place of the left. -/
def rows (m n col : ℕ) : Finset ℕ := Ico (col + 1 - m) (min (col + 1) n)

theorem mem_rows {row col : ℕ} : row ∈ rows m n col ↔ row < n ∧ row ≤ col ∧ col - row < m := by
  rw [rows, mem_Ico]
  omega

/-- **A column** of the product. -/
def columnSum (x y : ℕ → ℕ) (m n col : ℕ) : ℕ := ∑ row ∈ rows m n col, x (col - row) * y row

/-- One row of the product, over the columns that it reaches. -/
theorem sum_row (x : ℕ → ℕ) {row : ℕ} (hrow : row < n) :
    ∑ col ∈ range (m + n), (if row ≤ col ∧ col - row < m then x (col - row) * b ^ col else 0) =
      b ^ row * ∑ i ∈ range m, x i * b ^ i := by
  rw [← sum_filter, mul_sum]
  refine sum_bij' (fun col _ => col - row) (fun i _ => row + i) ?_ ?_ ?_ ?_ ?_
  · intro col hcol
    rw [mem_filter] at hcol
    exact mem_range.mpr hcol.2.2
  · intro i hi
    rw [mem_range] at hi
    rw [mem_filter, mem_range]
    omega
  · intro col hcol
    rw [mem_filter] at hcol
    exact Nat.add_sub_cancel' hcol.2.1
  · exact fun i _ => Nat.add_sub_cancel_left row i
  · intro col hcol
    rw [mem_filter] at hcol
    rw [Nat.mul_left_comm, ← pow_add, Nat.add_sub_cancel' hcol.2.1]

/-- **The columns add up to the product.** -/
theorem sum_columns (b : ℕ) (x y : ℕ → ℕ) (m n : ℕ) :
    ∑ col ∈ range (m + n), columnSum x y m n col * b ^ col =
      (∑ i ∈ range m, x i * b ^ i) * ∑ j ∈ range n, y j * b ^ j := by
  calc ∑ col ∈ range (m + n), columnSum x y m n col * b ^ col
      = ∑ col ∈ range (m + n), ∑ row ∈ range n,
          y row * (if row ≤ col ∧ col - row < m then x (col - row) * b ^ col else 0) := by
        refine sum_congr rfl fun col _ => ?_
        have hrows : rows m n col = (range n).filter fun row => row ≤ col ∧ col - row < m := by
          ext row
          rw [mem_rows, mem_filter, mem_range]
        rw [columnSum, hrows, sum_mul, sum_filter]
        refine sum_congr rfl fun row _ => ?_
        split_ifs
        · ring
        · rfl
    _ = ∑ row ∈ range n, y row * (b ^ row * ∑ i ∈ range m, x i * b ^ i) := by
        rw [sum_comm]
        refine sum_congr rfl fun row hrow => ?_
        rw [← mul_sum, sum_row x (mem_range.mp hrow)]
    _ = _ := by
        rw [mul_sum]
        exact sum_congr rfl fun row _ => by ring

/-- The carry is passed from column to column. -/
def carryColumns (b : ℕ) (S : ℕ → ℕ) : ℕ → ℕ → ℕ → List ℕ
  | 0, _, _ => []
  | k + 1, col, carry => (carry + S col) % b :: carryColumns b S k (col + 1) ((carry + S col) / b)

/-- **What the columns leave** is their sum, as far as there are columns. -/
theorem ofDigits_carryColumns (b : ℕ) (S : ℕ → ℕ) (k col c : ℕ) :
    Nat.ofDigits b (carryColumns b S k col c) =
      (c + ∑ i ∈ range k, S (col + i) * b ^ i) % b ^ k := by
  induction k generalizing col c with
  | zero => rw [carryColumns, Nat.ofDigits_nil, pow_zero, Nat.mod_one]
  | succ k ih =>
    have hsum : c + ∑ i ∈ range (k + 1), S (col + i) * b ^ i =
        c + S col + b * ∑ i ∈ range k, S (col + 1 + i) * b ^ i := by
      rw [sum_range_succ', pow_zero, Nat.mul_one, Nat.add_zero, mul_sum, Nat.add_comm (∑ _ ∈ _, _),
        ← Nat.add_assoc]
      refine congrArg (c + S col + ·) (sum_congr rfl fun i _ => ?_)
      rw [Nat.add_assoc col 1 i, Nat.add_comm 1 i, pow_succ]
      ring
    rw [carryColumns, Nat.ofDigits_cons, ih, hsum, pow_succ', Nat.mod_mul]
    rcases Nat.eq_zero_or_pos b with rfl | hb
    · simp
    · rw [Nat.add_mul_mod_self_left, Nat.add_mul_div_left _ _ hb]

theorem isDigits_carryColumns (hb : 0 < b) (S : ℕ → ℕ) (k col c : ℕ) :
    IsDigits b (carryColumns b S k col c) := by
  induction k generalizing col c with
  | zero => exact nofun
  | succ k ih => exact isDigits_cons.mpr ⟨Nat.mod_lt _ hb, ih _ _⟩

/-- The lowest digits of a number, added up. -/
theorem sum_digits (b x k : ℕ) : ∑ i ∈ range k, x / b ^ i % b * b ^ i = x % b ^ k := by
  induction k with
  | zero => rw [range_zero, sum_empty, pow_zero, Nat.mod_one]
  | succ k ih => rw [sum_range_succ, ih, Nat.mod_pow_succ, Nat.mul_comm (b ^ k)]

end Columns

end DigitList
