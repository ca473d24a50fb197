import Mathlib.Data.List.Basic
import Mathlib.Data.List.Infix

/-!
# Buffers of a fixed length

A buffer is a list whose length never changes. A store is defined inside the buffer only. What a
program has filled in so far is a prefix of the buffer; `Buffer.store_append` and
`Buffer.storeAll_append` extend it, and `Buffer.store_inside` replaces a value in it.
-/

namespace Buffer

variable {α : Type*}

/-- **A store** of one value. -/
def store (buf : List α) (i : ℕ) (x : α) : Option (List α) :=
  if i < buf.length then some (buf.set i x) else none

/-- **A store of several values**, from an index on. -/
def storeAll (buf : List α) (i : ℕ) (xs : List α) : Option (List α) :=
  if i + xs.length ≤ buf.length then some (buf.take i ++ xs ++ buf.drop (i + xs.length)) else none

variable {buf xs ys : List α} {x y : α}

/-- What follows a prefix that is not the whole buffer is a value and a rest. -/
theorem exists_prefix_append (h : xs <+: buf) (hlt : xs.length < buf.length) :
    ∃ y, xs ++ [y] <+: buf := by
  obtain ⟨rest, rfl⟩ := h
  rcases rest with _ | ⟨y, rest⟩
  · simp at hlt
  · exact ⟨y, rest, by simp⟩

/-- A store **inside** the prefix. -/
theorem store_inside (h : xs ++ y :: ys <+: buf) (x : α) :
    ∃ buf', store buf xs.length x = some buf' ∧ xs ++ x :: ys <+: buf' ∧
      buf'.length = buf.length := by
  obtain ⟨rest, rfl⟩ := h
  refine ⟨xs ++ x :: ys ++ rest, ?_, List.prefix_append _ _, by simp⟩
  rw [store, if_pos (by simp), List.append_assoc, List.set_append_right _ _ (le_refl _)]
  simp

/-- A store **right after** the prefix. -/
theorem store_append (h : xs <+: buf) (hlt : xs.length < buf.length) (x : α) :
    ∃ buf', store buf xs.length x = some buf' ∧ xs ++ [x] <+: buf' ∧
      buf'.length = buf.length := by
  obtain ⟨y, hy⟩ := exists_prefix_append h hlt
  exact store_inside hy x

/-- A store of several values right after the prefix. -/
theorem storeAll_append (h : xs <+: buf) (hle : xs.length + ys.length ≤ buf.length) :
    ∃ buf', storeAll buf xs.length ys = some buf' ∧ xs ++ ys <+: buf' ∧
      buf'.length = buf.length := by
  obtain ⟨rest, rfl⟩ := h
  refine ⟨xs ++ ys ++ rest.drop ys.length, ?_, List.prefix_append _ _, ?_⟩
  · rw [storeAll, if_pos hle]
    simp [List.drop_append]
  · simp only [List.length_append, List.length_drop] at hle ⊢
    omega

end Buffer
