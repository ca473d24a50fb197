import Mathlib.Data.List.Basic
import Mathlib.Data.List.TakeDrop
import Mathlib.Order.Basic
import Mathlib.Data.Nat.Basic

/-!
# Pieces at their places

A list is cut into pieces, of which some may be empty. Each piece has a place, where those before it
end (`Tiling.start`), and every place of the whole lies in a piece (`Tiling.exists_piece`).

The pieces are put together again in any order: a memory that has the pieces with some numbers
(`Tiling.Agrees`) keeps them when another piece is copied to its place (`Tiling.Agrees.fill`), and
when it has all of them, it has the whole (`Tiling.Agrees.eq_flatten`).
-/

namespace Tiling

variable {α : Type*} {pieces : List (List α)} {p : List α} {i j k : ℕ}

/-- **Where a piece begins.** -/
def start (pieces : List (List α)) (i : ℕ) : ℕ := (pieces.take i).flatten.length

theorem start_zero (pieces : List (List α)) : start pieces 0 = 0 := rfl

theorem start_length (pieces : List (List α)) :
    start pieces pieces.length = pieces.flatten.length := by
  rw [start, List.take_length]

/-- Pieces behind the others do not move them. -/
theorem start_append (h : i ≤ pieces.length) (more : List (List α)) :
    start (pieces ++ more) i = start pieces i := by
  rw [start, List.take_append_of_le_length h]
  rfl

theorem start_mono (pieces : List (List α)) (h : i ≤ j) : start pieces i ≤ start pieces j := by
  obtain ⟨n, rfl⟩ := Nat.exists_eq_add_of_le h
  rw [start, start, List.take_add, List.flatten_append, List.length_append]
  exact Nat.le_add_right _ _

/-- **The whole around a piece.** -/
theorem flatten_eq (h : pieces[i]? = some p) : pieces.flatten =
    (pieces.take i).flatten ++ (p ++ (pieces.drop (i + 1)).flatten) := by
  obtain ⟨hi, hp⟩ := List.getElem?_eq_some_iff.mp h
  rw [← List.flatten_cons, ← hp, ← List.drop_eq_getElem_cons hi, ← List.flatten_append,
    List.take_append_drop]

/-- A piece ends inside of the whole. -/
theorem start_add_length_le (h : pieces[i]? = some p) :
    start pieces i + p.length ≤ pieces.flatten.length := by
  rw [flatten_eq h, List.length_append, List.length_append, start]
  omega

/-- **What is at a place in a piece.** -/
theorem getElem?_flatten (h : pieces[i]? = some p) (hk : k < p.length) :
    pieces.flatten[start pieces i + k]? = p[k]? := by
  rw [flatten_eq h, start, List.getElem?_append_right (Nat.le_add_right _ _),
    Nat.add_sub_cancel_left, List.getElem?_append_left hk]

/-- **Every place lies in a piece.** -/
theorem exists_piece (hk : k < pieces.flatten.length) :
    ∃ i p, pieces[i]? = some p ∧ start pieces i ≤ k ∧ k < start pieces i + p.length := by
  induction pieces generalizing k with
  | nil => exact absurd hk (Nat.not_lt_zero k)
  | cons q pieces ih =>
    by_cases hlt : k < q.length
    · exact ⟨0, q, rfl, Nat.zero_le k, by rw [start_zero, Nat.zero_add]; exact hlt⟩
    · rw [List.flatten_cons, List.length_append] at hk
      obtain ⟨i, p, hp, hle, hend⟩ := @ih (k - q.length) (by omega)
      have hstart : start (q :: pieces) (i + 1) = q.length + start pieces i := by
        rw [start, List.take_succ_cons, List.flatten_cons, List.length_append]
        rfl
      exact ⟨i + 1, p, hp, by omega, by omega⟩

/-! ### Putting the pieces together -/

/-- **A memory agrees** with the whole in the pieces that are marked. -/
def Agrees (pieces : List (List α)) (marked : ℕ → Prop) (memory : ℕ → Option α) : Prop :=
  ∀ i p, pieces[i]? = some p → marked i → ∀ k, start pieces i ≤ k → k < start pieces i + p.length →
    memory k = pieces.flatten[k]?

variable {marked marked' : ℕ → Prop} {memory memory' : ℕ → Option α}

theorem agrees_of_forall_not (h : ∀ i < pieces.length, ¬marked i) :
    Agrees pieces marked memory := by
  intro i p hp hi
  exact absurd hi (h i (List.getElem?_eq_some_iff.mp hp).1)

/-- **A piece more.** -/
theorem Agrees.fill (h : Agrees pieces marked memory) (hp : pieces[j]? = some p)
    (hmarked : ∀ i, marked' i → marked i ∨ i = j)
    (hin : ∀ k, start pieces j ≤ k → k < start pieces j + p.length →
      memory' k = p[k - start pieces j]?)
    (hout : ∀ k, ¬(start pieces j ≤ k ∧ k < start pieces j + p.length) → memory' k = memory k) :
    Agrees pieces marked' memory' := by
  intro i q hq hi k hle hlt
  by_cases hk : start pieces j ≤ k ∧ k < start pieces j + p.length
  · have hflat := @getElem?_flatten _ _ _ j (k - start pieces j) hp (by omega)
    rw [Nat.add_sub_cancel' hk.1] at hflat
    rw [hin k hk.1 hk.2, hflat]
  · rw [hout k hk]
    rcases hmarked i hi with hold | rfl
    · exact h i q hq hold k hle hlt
    · cases hp.symm.trans hq
      exact absurd ⟨hle, hlt⟩ hk

/-- **All pieces are the whole.** -/
theorem Agrees.eq_flatten (h : Agrees pieces marked memory) (hall : ∀ i < pieces.length, marked i) :
    (List.range pieces.flatten.length).map memory = pieces.flatten.map some := by
  refine List.ext_getElem (by rw [List.length_map, List.length_range, List.length_map])
    fun k hk _ => ?_
  rw [List.length_map, List.length_range] at hk
  obtain ⟨i, p, hp, hle, hlt⟩ := exists_piece hk
  have hi := (List.getElem?_eq_some_iff.mp hp).1
  rw [List.getElem_map, List.getElem_map, List.getElem_range, h i p hp (hall i hi) k hle hlt,
    List.getElem?_eq_getElem hk]

end Tiling
