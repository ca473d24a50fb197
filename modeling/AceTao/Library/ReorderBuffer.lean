import AceTao.Library.Machine
import Mathlib.Data.List.Range
import Mathlib.Logic.Function.Basic

/-!
# Reorder buffers

Numbered items arrive in any order and any number of times, and are released in the order of their
numbers. A *window* has the number that is released next and the items that arrived too early. An
item with a smaller number is dropped; any other item is kept, where it replaces one with the same
number, and then all items up to the first gap are released (`ReorderBuffer.Receives`).

Over a run the items released are numbered without gaps and without repetition
(`Steps.released_numbers`), they all arrived (`Steps.mem_released`), nothing that could be
released is kept (`Steps.next_not_received`), and they are a function of what arrived
(`Steps.released_unique`).
-/

namespace ReorderBuffer

open Machine

variable {α : Type*}

/-- The number of the item to be released next, and the items that are kept. -/
structure Window (α : Type*) where
  next : ℕ
  held : ℕ → Option α

namespace Window

/-- The window with one more item kept. -/
def put (w : Window α) (n : ℕ) (x : α) : Window α :=
  { w with held := Function.update w.held n (some x) }

/-- The window when the next `count` items are gone. -/
def drop (w : Window α) (count : ℕ) : Window α :=
  ⟨w.next + count, fun k => if k < w.next + count then none else w.held k⟩

theorem held_put_self (w : Window α) (n : ℕ) (x : α) : (w.put n x).held n = some x :=
  Function.update_self ..

theorem held_put_of_ne {n k : ℕ} (h : k ≠ n) (w : Window α) (x : α) :
    (w.put n x).held k = w.held k :=
  Function.update_of_ne h ..

theorem held_drop_of_le {w : Window α} {count k : ℕ} (h : w.next + count ≤ k) :
    (w.drop count).held k = w.held k :=
  if_neg (Nat.not_lt.mpr h)

theorem held_of_drop {w : Window α} {count k : ℕ} {x : α} (h : (w.drop count).held k = some x) :
    w.held k = some x := by
  rcases Nat.lt_or_ge k (w.next + count) with hlt | hle
  · exact absurd ((if_pos hlt).symm.trans h) nofun
  · exact (held_drop_of_le hle).symm.trans h

/-- The next `count` items are `out`, and the one behind them is missing. -/
def Front (w : Window α) (count : ℕ) (out : List α) : Prop :=
  out.map some = (List.range' w.next count).map w.held ∧ w.held (w.next + count) = none

/-- What is kept has its own number, and the item to be released next is not kept. -/
structure Valid (number : α → ℕ) (w : Window α) : Prop where
  number_eq : ∀ n x, w.held n = some x → number x = n
  next_eq : w.held w.next = none

end Window

/-- **An item arrives**: it is dropped, or kept until all items before it have arrived. -/
inductive Receives (number : α → ℕ) : Window α → α → List α → Window α → Prop
  | dropped {w : Window α} {x : α} (h : number x < w.next) : Receives number w x [] w
  | kept {w : Window α} {x : α} {count : ℕ} {out : List α} (h : w.next ≤ number x)
    (hout : (w.put (number x) x).Front count out) :
    Receives number w x out ((w.put (number x) x).drop count)

variable {number : α → ℕ} {w w' w₁ w₂ : Window α} {x : α} {out out₁ out₂ : List α} {count : ℕ}

/-! ### One item -/

namespace Window

theorem Front.length_eq (h : w.Front count out) : out.length = count := by
  have := congrArg List.length h.1
  rwa [List.length_map, List.length_map, List.length_range'] at this

/-- The numbers up to the gap are kept. -/
theorem Front.held_ne_none (h : w.Front count out) {i : ℕ} (hi : i < count) :
    w.held (w.next + i) ≠ none := by
  have hmem : w.held (w.next + i) ∈ out.map some := by
    rw [h.1]
    exact List.mem_map_of_mem (List.mem_range'_1.mpr ⟨by omega, by omega⟩)
  obtain ⟨y, -, hy⟩ := List.mem_map.mp hmem
  rw [← hy]
  exact Option.some_ne_none y

/-- The items up to the first gap are determined by the window. -/
theorem Front.unique {count' : ℕ} {out' : List α} (h : w.Front count out)
    (h' : w.Front count' out') : count = count' ∧ out = out' := by
  have hcount : count = count' := by
    rcases Nat.lt_trichotomy count count' with hlt | heq | hlt
    · exact absurd h.2 (h'.held_ne_none hlt)
    · exact heq
    · exact absurd h'.2 (h.held_ne_none hlt)
  subst hcount
  exact ⟨rfl, List.map_injective_iff.mpr (Option.some_injective α) (h.1.trans h'.1.symm)⟩

theorem Front.held_of_mem (h : w.Front count out) {y : α} (hy : y ∈ out) :
    ∃ n, w.held n = some y := by
  have hmem : some y ∈ (List.range' w.next count).map w.held := h.1 ▸ List.mem_map_of_mem hy
  obtain ⟨n, -, hn⟩ := List.mem_map.mp hmem
  exact ⟨n, hn⟩

/-- The items up to the gap are numbered one after the other. -/
theorem Front.numbers (h : w.Front count out)
    (hnumber : ∀ n x, w.held n = some x → number x = n) :
    out.map number = List.range' w.next count := by
  have hheld : ∀ n ∈ List.range' w.next count, (w.held n).map number = some n := by
    intro n hn
    rw [List.mem_range'_1] at hn
    have hsome := h.held_ne_none (show n - w.next < count by omega)
    rw [Nat.add_sub_cancel' hn.1] at hsome
    obtain ⟨y, hy⟩ := Option.ne_none_iff_exists'.mp hsome
    rw [hy, Option.map_some, hnumber n y hy]
  refine List.map_injective_iff.mpr (Option.some_injective ℕ) ?_
  calc (out.map number).map some = (out.map some).map (Option.map number) := by
        rw [List.map_map, List.map_map]
        rfl
    _ = (List.range' w.next count).map some := by
        rw [h.1, List.map_map]
        exact List.map_congr_left hheld

end Window

/-- Nothing is released twice, and the window has one state. -/
theorem Receives.unique (h₁ : Receives number w x out₁ w₁) (h₂ : Receives number w x out₂ w₂) :
    out₁ = out₂ ∧ w₁ = w₂ := by
  cases h₁ with
  | dropped hlt =>
    cases h₂ with
    | dropped => exact ⟨rfl, rfl⟩
    | kept hle => omega
  | kept hle hout =>
    cases h₂ with
    | dropped => omega
    | kept _ hout' =>
      obtain ⟨rfl, rfl⟩ := hout.unique hout'
      exact ⟨rfl, rfl⟩

theorem Window.Valid.put (h : w.Valid number) :
    ∀ n y, (w.put (number x) x).held n = some y → number y = n := by
  intro n y hy
  rcases eq_or_ne n (number x) with rfl | hn
  · rw [w.held_put_self] at hy
    rw [Option.some.inj hy]
  · rw [w.held_put_of_ne hn] at hy
    exact h.number_eq n y hy

theorem Receives.valid (h : Receives number w x out w') (hw : w.Valid number) :
    w'.Valid number := by
  cases h with
  | dropped => exact hw
  | kept _ hout =>
    exact ⟨fun n y hy => hw.put n y (Window.held_of_drop hy),
      (Window.held_drop_of_le le_rfl).trans hout.2⟩

/-- **An item arrives**: the items released are numbered from the next number on. -/
theorem Receives.numbers (h : Receives number w x out w') (hw : w.Valid number) :
    out.map number = List.range' w.next out.length ∧ w'.next = w.next + out.length := by
  cases h with
  | dropped => exact ⟨rfl, rfl⟩
  | kept hle hout =>
    rw [hout.length_eq]
    exact ⟨hout.numbers hw.put, rfl⟩

theorem Receives.mem (h : Receives number w x out w') {y : α} (hy : y ∈ out) :
    y = x ∨ ∃ n, w.held n = some y := by
  cases h with
  | dropped => exact absurd hy (List.not_mem_nil)
  | kept hle hout =>
    obtain ⟨n, hn⟩ := hout.held_of_mem hy
    rcases eq_or_ne n (number x) with rfl | hne
    · rw [w.held_put_self] at hn
      exact Or.inl (Option.some.inj hn).symm
    · rw [w.held_put_of_ne hne] at hn
      exact Or.inr ⟨n, hn⟩

theorem Receives.held (h : Receives number w x out w') {n : ℕ} {y : α}
    (hy : w'.held n = some y) : y = x ∨ w.held n = some y := by
  cases h with
  | dropped => exact Or.inr hy
  | kept =>
    have hput := Window.held_of_drop hy
    rcases eq_or_ne n (number x) with rfl | hne
    · rw [w.held_put_self] at hput
      exact Or.inl (Option.some.inj hput).symm
    · rw [w.held_put_of_ne hne] at hput
      exact Or.inr hput

/-- A number has arrived when it has been released or an item with this number is kept. -/
def Window.Arrived (w : Window α) (n : ℕ) : Prop := n < w.next ∨ (w.held n).isSome

theorem Receives.arrived (h : Receives number w x out w') {n : ℕ}
    (hn : n = number x ∨ w.Arrived n) : w'.Arrived n := by
  cases h with
  | dropped hlt =>
    rcases hn with rfl | hn
    · exact Or.inl hlt
    · exact hn
  | @kept count _ hle hout =>
    rcases Nat.lt_or_ge n (w.next + count) with hlt | hge
    · exact Or.inl hlt
    · refine Or.inr ?_
      rw [Window.held_drop_of_le (w := w.put (number x) x) hge]
      rcases eq_or_ne n (number x) with rfl | hne
      · rw [w.held_put_self]
        rfl
      · rw [w.held_put_of_ne hne]
        rcases hn with hn | hlt | hsome
        · exact absurd hn hne
        · omega
        · exact hsome

/-! ### Runs -/

variable {xs : List α} {outs outs₁ outs₂ : List (List α)}

theorem Steps.valid (h : Steps (Receives number) w xs outs w') (hw : w.Valid number) :
    w'.Valid number := by
  induction h with
  | nil => exact hw
  | cons h _ ih => exact ih (h.valid hw)

/-- **The items released in a run are numbered one after the other.** -/
theorem Steps.released_numbers (h : Steps (Receives number) w xs outs w') (hw : w.Valid number) :
    outs.flatten.map number = List.range' w.next outs.flatten.length ∧
      w'.next = w.next + outs.flatten.length := by
  induction h with
  | nil => exact ⟨rfl, rfl⟩
  | cons h _ ih =>
    obtain ⟨hout, hnext⟩ := h.numbers hw
    obtain ⟨houts, hlast⟩ := ih (h.valid hw)
    rw [List.flatten_cons, List.map_append, List.length_append, hout, houts, hnext,
      List.range'_append_1, hlast, hnext, Nat.add_assoc]
    exact ⟨rfl, rfl⟩

/-- What is released has arrived, or was kept before. -/
theorem Steps.mem_released (h : Steps (Receives number) w xs outs w') {y : α}
    (hy : y ∈ outs.flatten) : y ∈ xs ∨ ∃ n, w.held n = some y := by
  induction h with
  | nil => exact absurd hy List.not_mem_nil
  | cons h _ ih =>
    rw [List.flatten_cons, List.mem_append] at hy
    rcases hy with hy | hy
    · exact (h.mem hy).imp_left fun he => List.mem_cons.mpr (Or.inl he)
    · rcases ih hy with hmem | ⟨n, hn⟩
      · exact Or.inl (List.mem_cons_of_mem _ hmem)
      · exact (h.held hn).imp (fun he => List.mem_cons.mpr (Or.inl he)) fun hw => ⟨n, hw⟩

theorem Steps.arrived (h : Steps (Receives number) w xs outs w') {n : ℕ} (hn : w.Arrived n) :
    w'.Arrived n := by
  induction h with
  | nil => exact hn
  | cons h _ ih => exact ih (h.arrived (Or.inr hn))

theorem Steps.arrived_of_mem (h : Steps (Receives number) w xs outs w') (hx : x ∈ xs) :
    w'.Arrived (number x) := by
  induction h with
  | nil => exact absurd hx List.not_mem_nil
  | cons h hs ih =>
    rcases List.mem_cons.mp hx with rfl | hx
    · exact Steps.arrived hs (h.arrived (Or.inl rfl))
    · exact ih hx

/-- **Nothing is left**: the number behind those that have been released has not arrived. -/
theorem Steps.next_not_received (h : Steps (Receives number) w xs outs w')
    (hw : w.Valid number) : ∀ x ∈ xs, number x ≠ w'.next := by
  intro x hx heq
  rcases Steps.arrived_of_mem h hx with hlt | hsome
  · omega
  · rw [heq, (Steps.valid h hw).next_eq] at hsome
    cases hsome

/-- **What is released is a function of what arrives.** -/
theorem Steps.released_unique (h₁ : Steps (Receives number) w xs outs₁ w₁)
    (h₂ : Steps (Receives number) w xs outs₂ w₂) : outs₁ = outs₂ ∧ w₁ = w₂ := by
  induction h₁ generalizing outs₂ with
  | nil =>
    cases h₂
    exact ⟨rfl, rfl⟩
  | cons h _ ih =>
    cases h₂ with
    | cons h' hs' =>
      obtain ⟨rfl, rfl⟩ := h.unique h'
      obtain ⟨rfl, rfl⟩ := ih hs'
      exact ⟨rfl, rfl⟩

end ReorderBuffer
