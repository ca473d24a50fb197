import Mathlib.Data.List.Basic
import Mathlib.Data.List.TakeDrop
import Mathlib.Order.Basic
import Mathlib.Data.Nat.Basic

/-!
# Cutting blocks into windows

A sequence of values is held in blocks, some of which may be empty. `BlockCut.cut` takes the pieces
that fill a window of a given size off the front; the block at the border is split. The pieces hold
the first values, and the rest holds the others (`BlockCut.flatten_cut`).

How many pieces a window takes is seen from where the blocks begin and end: `BlockCut.count` counts
those that touch it (`BlockCut.length_cut`). What has been cut off does not count for a later window
(`BlockCut.count_cut`).
-/

namespace BlockCut

variable {α : Type*}

/-- **The pieces that fill a window**, and what is left. Empty blocks in front of the window's end
are pieces too. -/
def cut : ℕ → List (List α) → List (List α) × List (List α)
  | _, [] => ([], [])
  | room, b :: bs =>
    if b.length < room then (b :: (cut (room - b.length) bs).1, (cut (room - b.length) bs).2)
    else if b.length = room then ([b], bs)
    else ([b.take room], b.drop room :: bs)

/-- How many blocks touch the window from `lo` to `hi`, when the first one begins at `s`. An empty
block touches the window that it lies in. -/
def count (lo hi : ℕ) : ℕ → List (List α) → ℕ
  | _, [] => 0
  | s, b :: bs => (if s < hi ∧ (lo < s + b.length ∨ lo ≤ s) then 1 else 0) +
      count lo hi (s + b.length) bs

variable {room lo hi s : ℕ} {b : List α} {bs : List (List α)}

theorem cut_of_lt (h : b.length < room) :
    cut room (b :: bs) = (b :: (cut (room - b.length) bs).1, (cut (room - b.length) bs).2) :=
  if_pos h

theorem cut_of_eq (h : b.length = room) : cut room (b :: bs) = ([b], bs) :=
  (if_neg h.not_lt).trans (if_pos h)

theorem cut_of_gt (h : room < b.length) :
    cut room (b :: bs) = ([b.take room], b.drop room :: bs) :=
  (if_neg (Nat.not_lt_of_gt h)).trans (if_neg h.ne')

/-- **The pieces hold what the window takes**, the rest what it leaves. -/
theorem flatten_cut (room : ℕ) (bs : List (List α)) :
    (cut room bs).1.flatten = bs.flatten.take room ∧
      (cut room bs).2.flatten = bs.flatten.drop room := by
  induction bs generalizing room with
  | nil => exact ⟨List.take_nil.symm, List.drop_nil.symm⟩
  | cons b bs ih =>
    rw [List.flatten_cons, List.take_append, List.drop_append]
    rcases lt_trichotomy b.length room with hlt | heq | hgt
    · rw [cut_of_lt hlt, List.flatten_cons, (ih _).1, (ih _).2, List.take_of_length_le hlt.le,
        List.drop_of_length_le hlt.le]
      exact ⟨rfl, rfl⟩
    · subst heq
      rw [cut_of_eq rfl, Nat.sub_self, List.take_zero, List.drop_zero, List.take_length,
        List.drop_length, List.flatten_singleton, List.append_nil]
      exact ⟨rfl, rfl⟩
    · rw [cut_of_gt hgt, Nat.sub_eq_zero_of_le hgt.le, List.take_zero, List.drop_zero,
        List.flatten_singleton, List.flatten_cons, List.append_nil]
      exact ⟨rfl, rfl⟩

/-- Behind a window no block touches it. -/
theorem count_of_le (h : hi ≤ s) (bs : List (List α)) : count lo hi s bs = 0 := by
  induction bs generalizing s with
  | nil => rfl
  | cons b bs ih =>
    rw [count, if_neg fun hb => absurd hb.1 (Nat.not_lt.mpr h), ih (h.trans (Nat.le_add_right _ _))]

/-- **How many pieces a window takes**, from a place in it on. -/
theorem length_cut (hlo : lo ≤ s) (hs : s < hi) (bs : List (List α)) :
    (cut (hi - s) bs).1.length = count lo hi s bs := by
  induction bs generalizing s with
  | nil => rfl
  | cons b bs ih =>
    rw [count, if_pos ⟨hs, Or.inr hlo⟩]
    rcases lt_trichotomy b.length (hi - s) with hlt | heq | hgt
    · rw [cut_of_lt hlt, List.length_cons, Nat.sub_sub,
        ih (hlo.trans (Nat.le_add_right _ _)) (by omega)]
      exact Nat.add_comm _ _
    · rw [cut_of_eq heq, count_of_le (by omega)]
      rfl
    · rw [cut_of_gt hgt, count_of_le (by omega)]
      rfl

/-- **A later window** does not notice what has been cut off. -/
theorem count_cut {lo' hi' : ℕ} (hs : s < hi) (hle : hi ≤ lo') (hlt : lo' < hi')
    (bs : List (List α)) : count lo' hi' hi (cut (hi - s) bs).2 = count lo' hi' s bs := by
  induction bs generalizing s with
  | nil => rfl
  | cons b bs ih =>
    rcases lt_trichotomy b.length (hi - s) with hless | heq | hgt
    · rw [cut_of_lt hless, count, if_neg (by omega), Nat.zero_add, Nat.sub_sub]
      exact ih (by omega)
    · rw [cut_of_eq heq, count, if_neg (by omega), Nat.zero_add, heq, Nat.add_sub_cancel' hs.le]
    · have hend : hi + (b.drop (hi - s)).length = s + b.length := by
        rw [List.length_drop]
        omega
      rw [cut_of_gt hgt, count, count, hend]
      refine congrArg (· + _) (if_congr ?_ rfl rfl)
      omega

/-! ### Windows of one size -/

variable {p : ℕ}

/-- The `k`-th window of size `p`. -/
def window (p k : ℕ) (l : List α) : List α := (l.drop (k * p)).take p

theorem length_window_le (p k : ℕ) (l : List α) : (window p k l).length ≤ p :=
  List.length_take_le ..

/-- Every window but the last is full. -/
theorem length_window {k : ℕ} {l : List α} (h : (k + 1) * p ≤ l.length) :
    (window p k l).length = p := by
  rw [Nat.add_mul, Nat.one_mul] at h
  rw [window, List.length_take, List.length_drop]
  omega

/-- **The windows one after the other** are the whole. -/
theorem flatten_windows (p n : ℕ) (l : List α) :
    ((List.range n).map fun k => window p k l).flatten = l.take (n * p) := by
  induction n with
  | zero => rw [Nat.zero_mul, List.take_zero]; rfl
  | succ n ih =>
    rw [List.range_succ, List.map_append, List.flatten_append, ih, List.map_singleton,
      List.flatten_singleton, Nat.add_mul, Nat.one_mul, window]
    exact List.take_add.symm

end BlockCut
