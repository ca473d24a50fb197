import Mathlib.Order.Basic
import Mathlib.Logic.Function.Basic
import Mathlib.Logic.Equiv.Basic
import Mathlib.Data.Multiset.Range
import Mathlib.Data.Multiset.MapFold

/-!
# Binary heaps with a hole

The order theory of a binary heap stored in an array: the keys are a function
`key : ℕ → τ` into a linear order, of which the slots below `n` are in use, and the
parent of slot `i` is slot `(i - 1) / 2`.

Sifting moves one entry along a path of the tree. In between, the array is *nearly* a
heap: `BinaryHeap.OrderedUp` is the order while an entry climbs from slot `s` and
`BinaryHeap.OrderedDown` the order while it sinks. One step of sifting swaps the entry with
its parent or with its smaller child (`BinaryHeap.OrderedUp.swap`,
`BinaryHeap.OrderedDown.swap`), and the order is restored when the step is no longer called
for (`BinaryHeap.OrderedUp.done`, `BinaryHeap.OrderedDown.done`). Removing an arbitrary slot
puts the last entry in its place and lands in one of the two
(`BinaryHeap.Ordered.replace_up`, `BinaryHeap.Ordered.replace_down`).
-/

namespace BinaryHeap

variable {τ : Type*} [LinearOrder τ] {key : ℕ → τ} {n s c i : ℕ}

/-- The parent of a slot; the root is its own. -/
def parent (i : ℕ) : ℕ := (i - 1) / 2

theorem parent_lt (h : 0 < i) : parent i < i := by
  unfold parent
  omega

/-- The children of a slot. -/
theorem parent_eq_iff (h : 0 < i) : parent i = s ↔ i = 2 * s + 1 ∨ i = 2 * s + 2 := by
  unfold parent
  omega

/-- **Heap order**: no entry is below its parent. -/
def Ordered (key : ℕ → τ) (n : ℕ) : Prop :=
  ∀ i, 0 < i → i < n → key (parent i) ≤ key i

/-- Heap order while the entry of slot `s` climbs. -/
structure OrderedUp (key : ℕ → τ) (n s : ℕ) : Prop where
  /-- Every other entry is above its parent. -/
  others : ∀ i, 0 < i → i < n → i ≠ s → key (parent i) ≤ key i
  /-- The children of the slot are above its parent as well. -/
  across : 0 < s → ∀ i, 0 < i → i < n → parent i = s → key (parent s) ≤ key i

/-- Heap order while the entry of slot `s` sinks. -/
structure OrderedDown (key : ℕ → τ) (n s : ℕ) : Prop where
  /-- Every entry but a child of the slot is above its parent. -/
  others : ∀ i, 0 < i → i < n → parent i ≠ s → key (parent i) ≤ key i
  /-- The children of the slot are above its parent. -/
  across : 0 < s → ∀ i, 0 < i → i < n → parent i = s → key (parent s) ≤ key i

/-! ### The root -/

/-- **The root of a heap is its minimum.** -/
theorem Ordered.root_le (h : Ordered key n) (hi : i < n) : key 0 ≤ key i := by
  induction i using Nat.strongRecOn with
  | ind i ih =>
    rcases Nat.eq_zero_or_pos i with rfl | hpos
    · exact le_rfl
    · have hlt := parent_lt hpos
      exact (ih (parent i) hlt (by omega)).trans (h i hpos hi)

theorem Ordered.mono {m : ℕ} (h : Ordered key n) (hm : m ≤ n) : Ordered key m :=
  fun i hpos hi => h i hpos (by omega)

/-! ### Climbing -/

/-- The entry climbs no further: it is at the root, or above its parent. -/
theorem OrderedUp.done (h : OrderedUp key n s) (hs : s = 0 ∨ key (parent s) ≤ key s) :
    Ordered key n := by
  intro i hpos hi
  rcases eq_or_ne i s with rfl | hne
  · exact hs.resolve_left (by omega)
  · exact h.others i hpos hi hne

/-- **One step up**: the entry changes places with its larger parent. -/
theorem OrderedUp.swap (h : OrderedUp key n s) (hs : 0 < s) (hn : s < n)
    (hlt : key s < key (parent s)) :
    OrderedUp (key ∘ Equiv.swap s (parent s)) n (parent s) := by
  have hp := parent_lt hs
  constructor
  · intro i hpos hi hne
    have hpi := parent_lt hpos
    simp only [Function.comp_apply]
    rcases eq_or_ne i s with rfl | his
    · rw [Equiv.swap_apply_left, Equiv.swap_apply_right]
      exact hlt.le
    · rw [Equiv.swap_apply_of_ne_of_ne his hne]
      by_cases h₁ : parent i = s
      · rw [h₁, Equiv.swap_apply_left]
        exact h.across hs i hpos hi h₁
      by_cases h₂ : parent i = parent s
      · rw [h₂, Equiv.swap_apply_right]
        exact hlt.le.trans (h₂ ▸ h.others i hpos hi his)
      · rw [Equiv.swap_apply_of_ne_of_ne h₁ h₂]
        exact h.others i hpos hi his
  · intro hps i hpos hi hpar
    have hpp := parent_lt hps
    simp only [Function.comp_apply]
    rw [Equiv.swap_apply_of_ne_of_ne (by omega) (by omega)]
    have hgrand := h.others (parent s) hps (by omega) (by omega)
    rcases eq_or_ne i s with rfl | his
    · rwa [Equiv.swap_apply_left]
    · have hpi := parent_lt hpos
      rw [Equiv.swap_apply_of_ne_of_ne his (by omega)]
      exact hgrand.trans (hpar ▸ h.others i hpos hi his)

/-! ### Sinking -/

/-- The entry sinks no further: no child is below it. -/
theorem OrderedDown.done (h : OrderedDown key n s)
    (hs : ∀ i, 0 < i → i < n → parent i = s → key s ≤ key i) : Ordered key n := by
  intro i hpos hi
  by_cases hpar : parent i = s
  · rw [hpar]
    exact hs i hpos hi hpar
  · exact h.others i hpos hi hpar

/-- **One step down**: the entry changes places with its smaller child. -/
theorem OrderedDown.swap (h : OrderedDown key n s) (hc : 0 < c) (hn : c < n)
    (hpc : parent c = s) (hmin : ∀ i, 0 < i → i < n → parent i = s → key c ≤ key i)
    (hlt : key c < key s) :
    OrderedDown (key ∘ Equiv.swap s c) n c := by
  have hsc : s < c := hpc ▸ parent_lt hc
  constructor
  · intro i hpos hi hne
    have hpi := parent_lt hpos
    simp only [Function.comp_apply]
    by_cases hps : parent i = s
    · rw [hps, Equiv.swap_apply_left]
      rcases eq_or_ne i c with rfl | hic
      · rw [Equiv.swap_apply_right]
        exact hlt.le
      · rw [Equiv.swap_apply_of_ne_of_ne (by omega) hic]
        exact hmin i hpos hi hps
    · rw [Equiv.swap_apply_of_ne_of_ne hps hne]
      rcases eq_or_ne i s with rfl | his
      · rw [Equiv.swap_apply_left]
        exact h.across hpos c hc hn hpc
      · have hic : i ≠ c := fun hic => hps (hic ▸ hpc)
        rw [Equiv.swap_apply_of_ne_of_ne his hic]
        exact h.others i hpos hi hps
  · intro _ i hpos hi hpar
    have hpi := parent_lt hpos
    simp only [Function.comp_apply]
    rw [hpc, Equiv.swap_apply_left, Equiv.swap_apply_of_ne_of_ne (by omega) (by omega)]
    exact hpar ▸ h.others i hpos hi (by omega)

/-! ### Putting the last entry in the place of another -/

/-- A new entry at the end starts to climb. -/
theorem Ordered.insert (h : Ordered key n) (x : τ) :
    OrderedUp (Function.update key n x) (n + 1) n := by
  constructor
  · intro i hpos hi hne
    have hpi := parent_lt hpos
    rw [Function.update_of_ne hne, Function.update_of_ne (by omega)]
    exact h i hpos (by omega)
  · intro _ i hpos hi hpar
    have hpi := parent_lt hpos
    omega

/-- The last entry takes the place of slot `s` and is below the parent: it climbs. -/
theorem Ordered.replace_up (h : Ordered key (n + 1)) (hs : 0 < s) (hn : s < n)
    (hlt : key n < key (parent s)) : OrderedUp (Function.update key s (key n)) n s := by
  have hp := parent_lt hs
  constructor
  · intro i hpos hi hne
    have hpi := parent_lt hpos
    rw [Function.update_of_ne hne]
    by_cases hpar : parent i = s
    · rw [hpar, Function.update_self]
      exact hlt.le.trans ((h s hs (by omega)).trans (hpar ▸ h i hpos (by omega)))
    · rw [Function.update_of_ne hpar]
      exact h i hpos (by omega)
  · intro _ i hpos hi hpar
    have hpi := parent_lt hpos
    rw [Function.update_of_ne (by omega), Function.update_of_ne (by omega)]
    exact (h s hs (by omega)).trans (hpar ▸ h i hpos (by omega))

/-- The last entry takes the place of slot `s` and is not below the parent: it sinks. -/
theorem Ordered.replace_down (h : Ordered key (n + 1)) (hn : s < n)
    (hle : s = 0 ∨ key (parent s) ≤ key n) :
    OrderedDown (Function.update key s (key n)) n s := by
  constructor
  · intro i hpos hi hpar
    have hpi := parent_lt hpos
    rw [Function.update_of_ne hpar]
    rcases eq_or_ne i s with rfl | hne
    · rw [Function.update_self]
      exact hle.resolve_left (by omega)
    · rw [Function.update_of_ne hne]
      exact h i hpos (by omega)
  · intro hs i hpos hi hpar
    have hpi := parent_lt hpos
    have hp := parent_lt hs
    rw [Function.update_of_ne (by omega), Function.update_of_ne (by omega)]
    exact (h s hs (by omega)).trans (hpar ▸ h i hpos (by omega))

/-! ### The contents of an array -/

variable {ν : Type*}

/-- A permutation of the used ss keeps the contents. -/
theorem map_range_perm {f g : ℕ → ν} {σ : Equiv.Perm ℕ} (hσ : ∀ i, n ≤ i → σ i = i)
    (h : f = g ∘ σ) : (Multiset.range n).map f = (Multiset.range n).map g := by
  have hrange : (Multiset.range n).map σ = Multiset.range n := by
    refine (Multiset.Nodup.ext ((Multiset.nodup_range n).map σ.injective)
      (Multiset.nodup_range n)).mpr fun i => ?_
    simp only [Multiset.mem_map, Multiset.mem_range]
    constructor
    · rintro ⟨j, hj, rfl⟩
      by_contra hge
      have := σ.injective (hσ (σ j) (by omega))
      omega
    · intro hi
      refine ⟨σ.symm i, ?_, σ.apply_symm_apply i⟩
      by_contra hge
      have hfix := hσ (σ.symm i) (by omega)
      rw [σ.apply_symm_apply] at hfix
      omega
  calc (Multiset.range n).map f = ((Multiset.range n).map σ).map g := by
        rw [h, Multiset.map_map]
    _ = (Multiset.range n).map g := by rw [hrange]

theorem map_range_update_self {f : ℕ → ν} {x : ν} :
    (Multiset.range n).map (Function.update f n x) = (Multiset.range n).map f := by
  refine Multiset.map_congr rfl fun i hi => ?_
  rw [Multiset.mem_range] at hi
  rw [Function.update_of_ne hi.ne]

/-- Overwriting one of the first `n` entries with the entry of index `n` forgets the
overwritten entry. -/
theorem map_range_replace {f : ℕ → ν} (h : s < n) :
    f s ::ₘ (Multiset.range n).map (Function.update f s (f n))
      = (Multiset.range (n + 1)).map f := by
  have hswap : Function.update f s (f n) = Function.update (f ∘ Equiv.swap s n) n (f n) := by
    funext i
    rcases eq_or_ne i n with rfl | hin
    · rw [Function.update_self, Function.update_of_ne h.ne']
    rcases eq_or_ne i s with rfl | his
    · rw [Function.update_self, Function.update_of_ne hin, Function.comp_apply,
        Equiv.swap_apply_left]
    · rw [Function.update_of_ne his, Function.update_of_ne hin, Function.comp_apply,
        Equiv.swap_apply_of_ne_of_ne his hin]
  have hperm : (Multiset.range (n + 1)).map (f ∘ Equiv.swap s n)
      = (Multiset.range (n + 1)).map f :=
    map_range_perm (σ := Equiv.swap s n)
      (fun i hi => Equiv.swap_apply_of_ne_of_ne (by omega) (by omega)) rfl
  rw [hswap, map_range_update_self, ← hperm, Multiset.range_succ, Multiset.map_cons,
    Function.comp_apply, Equiv.swap_apply_right]

end BinaryHeap
