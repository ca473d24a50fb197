import Mathlib.Data.List.DropRight
import Mathlib.Order.Basic
import Mathlib.Order.Lattice

/-!
# Insertion from the back of a sorted list

A list sorted by a key, into which an entry is inserted by searching from the back: past the
entries of a larger key, and after the first one whose key is not larger. Entries of equal
key thus stay in the order of their insertion. On a sorted list this is the same as putting
the entry between the entries of at most its key and those of a larger one
(`SortedInsert.insertBack_eq_filter`).
-/

namespace SortedInsert

variable {ν τ : Type*} [LinearOrder τ] (key : ν → τ)

/-- The list is **sorted** by the key. -/
abbrev Sorted (l : List ν) : Prop := l.Pairwise fun a b => key a ≤ key b

/-- **Insertion from the back**: after the last entry whose key is not larger. -/
def insertBack (x : ν) (l : List ν) : List ν :=
  l.rdropWhile (fun y => key x < key y) ++ x :: l.rtakeWhile (fun y => key x < key y)

variable {key} {x : ν} {l l' : List ν}

theorem insertBack_perm : (insertBack key x l).Perm (x :: l) := by
  rw [insertBack]
  refine List.perm_middle.trans ?_
  rw [List.rdropWhile_append_rtakeWhile]

@[simp] theorem mem_insertBack {y : ν} : y ∈ insertBack key x l ↔ y = x ∨ y ∈ l := by
  rw [insertBack_perm.mem_iff, List.mem_cons]

/-- In a sorted list the entries the search passes are the larger ones. -/
theorem search_eq_filter (h : Sorted key l) :
    l.rdropWhile (fun y => key x < key y) = l.filter (fun y => key y ≤ key x) ∧
      l.rtakeWhile (fun y => key x < key y) = l.filter (fun y => key x < key y) := by
  have happ := List.rdropWhile_append_rtakeWhile (l := l) (p := fun y => decide (key x < key y))
  -- what the search leaves is at most the last entry it leaves, which is not larger
  have hleft : ∀ y ∈ l.rdropWhile (fun y => key x < key y), key y ≤ key x := by
    intro y hy
    have hne : l.rdropWhile (fun y => key x < key y) ≠ [] := List.ne_nil_of_mem hy
    have hlast := List.rdropWhile_last_not _ l hne
    rw [decide_eq_true_eq, not_lt] at hlast
    have hsorted : Sorted key (l.rdropWhile (fun y => key x < key y)) :=
      h.sublist (List.rdropWhile_prefix ..).sublist
    refine le_trans ?_ hlast
    rw [← List.dropLast_append_getLast hne] at hy hsorted
    rcases List.mem_append.mp hy with hy | hy
    · exact (List.pairwise_append.mp hsorted).2.2 y hy _ (List.mem_singleton.mpr rfl)
    · rw [List.mem_singleton.mp hy]
  have hright : ∀ y ∈ l.rtakeWhile (fun y => key x < key y), key x < key y := by
    intro y hy
    have hp := List.mem_rtakeWhile_imp hy
    rwa [decide_eq_true_eq] at hp
  have hsplit : ∀ p : ν → Bool, l.filter p
      = (l.rdropWhile (fun y => key x < key y)).filter p
        ++ (l.rtakeWhile (fun y => key x < key y)).filter p := by
    intro p
    rw [← List.filter_append, happ]
  constructor
  · rw [hsplit, List.filter_eq_self.mpr (by simpa using hleft), List.filter_eq_nil_iff.mpr
      (by simpa using hright), List.append_nil]
  · rw [hsplit, List.filter_eq_nil_iff.mpr (by simpa using hleft), List.filter_eq_self.mpr
      (by simpa using hright), List.nil_append]

/-- **Insertion into a sorted list** puts the entry between those of at most its key and those
of a larger one. -/
theorem insertBack_eq_filter (h : Sorted key l) : insertBack key x l
    = l.filter (fun y => key y ≤ key x) ++ x :: l.filter (fun y => key x < key y) := by
  rw [insertBack, (search_eq_filter h).1, (search_eq_filter h).2]

/-- Insertion keeps the list sorted. -/
theorem insertBack_sorted (h : Sorted key l) : Sorted key (insertBack key x l) := by
  rw [insertBack_eq_filter h]
  refine List.pairwise_append.mpr ⟨h.filter _, List.pairwise_cons.mpr ⟨?_, h.filter _⟩, ?_⟩
  · intro y hy
    exact (of_decide_eq_true (List.mem_filter.mp hy).2).le
  · intro y hy z hz
    have hyx := of_decide_eq_true (List.mem_filter.mp hy).2
    rcases List.mem_cons.mp hz with rfl | hz
    · exact hyx
    · exact hyx.trans (of_decide_eq_true (List.mem_filter.mp hz).2).le

/-- The first entry of a sorted list has the least key. -/
theorem head_le {y : ν} (h : Sorted key (x :: l)) (hy : y ∈ x :: l) : key x ≤ key y := by
  rcases List.mem_cons.mp hy with rfl | hy
  · exact le_rfl
  · exact (List.pairwise_cons.mp h).1 y hy

/-- An entry comes first when it is inserted before all others. -/
theorem head?_insertBack (h : Sorted key l) : (insertBack key x l).head?
    = if ∀ y ∈ l.head?, key x < key y then some x else l.head? := by
  rw [insertBack_eq_filter h]
  cases l with
  | nil => rfl
  | cons y l =>
    by_cases hxy : key x < key y
    · have hnone : (y :: l).filter (fun z => key z ≤ key x) = [] := by
        rw [List.filter_eq_nil_iff]
        intro z hz
        rw [decide_eq_true_eq, not_le]
        exact hxy.trans_le (head_le h hz)
      rw [hnone, if_pos (by simpa using hxy), List.nil_append, List.head?_cons]
    · rw [if_neg (by simpa using hxy), List.filter_cons_of_pos (by simpa using hxy),
        List.cons_append, List.head?_cons, List.head?_cons]

/-- Insertion and filtering commute. -/
theorem filter_insertBack (h : Sorted key l) (p : ν → Bool) : (insertBack key x l).filter p
    = if p x then insertBack key x (l.filter p) else l.filter p := by
  split
  case isTrue hp =>
    rw [insertBack_eq_filter h, insertBack_eq_filter (h.filter p), List.filter_append,
      List.filter_cons_of_pos hp, List.filter_filter, List.filter_filter, List.filter_filter,
      List.filter_filter]
    simp only [Bool.and_comm]
  case isFalse hp =>
    rw [insertBack, List.filter_append, List.filter_cons_of_neg hp, ← List.filter_append,
      List.rdropWhile_append_rtakeWhile]

/-- Insertion commutes with a map that keeps the keys. -/
theorem insertBack_map {f : ν → ν} (hf : ∀ y, key (f y) = key y) :
    insertBack key (f x) (l.map f) = (insertBack key x l).map f := by
  have hcomp : (fun y => decide (key (f x) < key y)) ∘ f = fun y => decide (key x < key y) := by
    funext y
    rw [Function.comp_apply, hf, hf]
  rw [insertBack, insertBack, List.rdropWhile, List.rtakeWhile, ← List.map_reverse,
    List.dropWhile_map, List.takeWhile_map, hcomp, ← List.map_reverse, ← List.map_reverse,
    List.map_append, List.map_cons]
  rfl

end SortedInsert

/-!
## Stable queues

Entries with keys arrive one after the other, and are kept in a list that is sorted by their keys. The
list is *stable* when the entries of each key are in the order of their arrival
(`StableQueue.Sorts`). Then its head is the first arrival of least key (`Sorts.head?_eq`), whatever
has been removed in between.

The first entry of least key (`StableQueue.firstLeast`) of a list that need not be sorted is found
by a loop that goes backward and takes every entry which is not larger (`foldl_takeNotLarger`), and
by one that goes forward and takes every smaller one (`foldl_takeSmaller`).
-/

namespace StableQueue

open SortedInsert

variable {ν τ : Type*} [LinearOrder τ]

/-- The entries of each key are the same, in the same order. -/
def SameLevels (key : ν → τ) (es l : List ν) : Prop :=
  ∀ k, es.filter (fun x => key x = k) = l.filter fun x => key x = k

/-- **A stable queue** of the arrivals in `l`. -/
structure Sorts (key : ν → τ) (es l : List ν) : Prop where
  sorted : Sorted key es
  levels : SameLevels key es l

/-- **The first entry of least key**. -/
def firstLeast (key : ν → τ) (l : List ν) : Option ν := l.find? fun x => ∀ y ∈ l, key x ≤ key y

variable {key : ν → τ} {es l : List ν} {x : ν}

theorem firstLeast_spec (h : firstLeast key l = some x) : x ∈ l ∧ ∀ y ∈ l, key x ≤ key y := by
  rw [firstLeast] at h
  exact ⟨List.mem_of_find?_eq_some h, by simpa using List.find?_some h⟩

/-- One more entry in front. -/
theorem firstLeast_cons (x : ν) (l : List ν) : firstLeast key (x :: l) =
    if ∀ y ∈ l, key x ≤ key y then some x else firstLeast key l := by
  rw [firstLeast]
  split_ifs with hx
  · exact List.find?_cons_of_pos (by simpa using hx)
  · rw [List.find?_cons_of_neg (by simpa using hx), firstLeast]
    push Not at hx
    obtain ⟨y, hy, hlt⟩ := hx
    congr 1
    funext z
    rw [decide_eq_decide, List.forall_mem_cons]
    exact ⟨fun h => h.2, fun h => ⟨((h y hy).trans_lt hlt).le, h⟩⟩

theorem exists_firstLeast {k : ν → τ} (h : l ≠ []) : ∃ x, firstLeast k l = some x := by
  induction l with
  | nil => exact absurd rfl h
  | cons x l ih =>
    rw [firstLeast_cons]
    split_ifs with hx
    · exact ⟨x, rfl⟩
    · rcases l with _ | ⟨y, l⟩
      · exact absurd (List.forall_mem_nil _) hx
      · exact ih (List.cons_ne_nil y l)

/-- The entries of the least key. -/
theorem firstLeast_eq_find? (h : firstLeast key l = some x) :
    firstLeast key l = l.find? fun y => key y = key x := by
  obtain ⟨hx, hle⟩ := firstLeast_spec h
  rw [firstLeast, ← List.head?_filter, ← List.head?_filter]
  congr 1
  refine List.filter_congr fun y hy => ?_
  rw [decide_eq_decide]
  exact ⟨fun hall => le_antisymm (hall x hx) (hle y hy), fun heq z hz => heq ▸ hle z hz⟩

/-! ### Levels -/

theorem SameLevels.mem_iff (h : SameLevels key es l) : x ∈ es ↔ x ∈ l := by
  have hfilter : ∀ m : List ν, x ∈ m ↔ x ∈ m.filter fun y => key y = key x := fun m => by
    rw [List.mem_filter, decide_eq_true_eq, eq_self, and_true]
  rw [hfilter es, hfilter l, h (key x)]

/-- The first entry of least key is that of the arrivals. -/
theorem SameLevels.firstLeast_eq (h : SameLevels key es l) : firstLeast key es = firstLeast key l := by
  rcases es with _ | ⟨e, es⟩
  · rcases l with _ | ⟨x, l⟩
    · rfl
    · exact absurd (h.mem_iff.mpr (List.mem_cons_self ..)) (List.not_mem_nil)
  · obtain ⟨x, hx⟩ := exists_firstLeast (k := key) (List.cons_ne_nil e es)
    obtain ⟨y, hy⟩ := exists_firstLeast (k := key) (List.ne_nil_of_mem
      (h.mem_iff.mp (List.mem_cons_self ..)))
    obtain ⟨hxmem, hxle⟩ := firstLeast_spec hx
    obtain ⟨hymem, hyle⟩ := firstLeast_spec hy
    have hkey : key x = key y :=
      le_antisymm (hxle y (h.mem_iff.mpr hymem)) (hyle x (h.mem_iff.mp hxmem))
    rw [firstLeast_eq_find? hx, firstLeast_eq_find? hy, ← List.head?_filter, ← List.head?_filter,
      hkey, h (key y)]

/-! ### Stable queues -/

theorem sorts_nil (key : ν → τ) : Sorts key [] [] := ⟨List.Pairwise.nil, fun _ => rfl⟩

/-- **An arrival** goes behind the last entry whose key is not larger. -/
theorem Sorts.insert (h : Sorts key es l) (x : ν) : Sorts key (insertBack key x es) (l ++ [x]) := by
  refine ⟨insertBack_sorted h.sorted, fun k => ?_⟩
  rw [filter_insertBack h.sorted, List.filter_append, ← h.levels k]
  split_ifs with hk
  · rw [decide_eq_true_eq] at hk
    have hlevel : ∀ y ∈ es.filter (fun y => key y = k), key y = key x := fun y hy =>
      (of_decide_eq_true (List.mem_filter.mp hy).2).trans hk.symm
    have hle : (es.filter fun y => key y = k).filter (fun y => key y ≤ key x) =
        es.filter fun y => key y = k :=
      List.filter_eq_self.mpr fun y hy => decide_eq_true (hlevel y hy).le
    have hlt : (es.filter fun y => key y = k).filter (fun y => key x < key y) = [] :=
      List.filter_eq_nil_iff.mpr fun y hy => by simp [hlevel y hy]
    rw [insertBack_eq_filter (h.sorted.filter _), hle, hlt]
    simp [hk]
  · rw [List.filter_cons_of_neg (p := fun y => decide (key y = k)) hk, List.filter_nil,
      List.append_nil]

/-- **Removals** anywhere. -/
theorem Sorts.filter (h : Sorts key es l) (p : ν → Bool) : Sorts key (es.filter p) (l.filter p) := by
  refine ⟨h.sorted.filter p, fun k => ?_⟩
  rw [List.filter_comm, h.levels k, List.filter_comm]

/-- **The head** is the first arrival of least key. -/
theorem Sorts.head?_eq (h : Sorts key es l) : es.head? = firstLeast key l := by
  rw [← h.levels.firstLeast_eq]
  rcases es with _ | ⟨e, es⟩
  · rfl
  · rw [firstLeast_cons, if_pos (List.pairwise_cons.mp h.sorted).1, List.head?_cons]

/-! ### Loops -/

/-- The loop takes an entry that is not larger than what it has. -/
def takeNotLarger (key : ν → τ) (s : Option ν × τ) (x : ν) : Option ν × τ :=
  if key x ≤ s.2 then (some x, key x) else s

/-- The loop takes an entry that is smaller than what it has. -/
def takeSmaller (key : ν → τ) (s : Option ν × τ) (x : ν) : Option ν × τ :=
  if key x < s.2 then (some x, key x) else s

/-- **The backward loop**. -/
theorem foldl_takeNotLarger {top : τ} (htop : ∀ x, key x ≤ top) (h : firstLeast key l = some x) :
    l.reverse.foldl (takeNotLarger key) (none, top) = (some x, key x) := by
  induction l generalizing x with
  | nil => cases h
  | cons y l ih =>
    rw [List.reverse_cons, List.foldl_append, List.foldl_cons, List.foldl_nil]
    rw [firstLeast_cons] at h
    rcases l with _ | ⟨z, l⟩
    · rw [if_pos (List.forall_mem_nil _), Option.some.injEq] at h
      rw [List.reverse_nil, List.foldl_nil, takeNotLarger, if_pos (htop y), h]
    · obtain ⟨w, hw⟩ := exists_firstLeast (k := key) (List.cons_ne_nil z l)
      obtain ⟨hwmem, hwle⟩ := firstLeast_spec hw
      rw [ih hw, takeNotLarger]
      dsimp only
      split_ifs at h with hall
      · rw [if_pos (hall w hwmem), Option.some.inj h]
      · have hlt : ¬key y ≤ key w := fun hle => hall fun u hu => hle.trans (hwle u hu)
        rw [if_neg hlt, Option.some.inj (hw.symm.trans h)]

/-- The forward loop keeps what it has when there is nothing smaller. -/
theorem foldl_takeSmaller_of_le {s : Option ν × τ} (h : ∀ x ∈ l, s.2 ≤ key x) :
    l.foldl (takeSmaller key) s = s := by
  induction l with
  | nil => rfl
  | cons y l ih =>
    obtain ⟨hy, hl⟩ := List.forall_mem_cons.mp h
    rw [List.foldl_cons, takeSmaller, if_neg (not_lt.mpr hy), ih hl]

/-- **The forward loop**. -/
theorem foldl_takeSmaller {s : Option ν × τ} (h : firstLeast key l = some x) (hx : key x < s.2) :
    l.foldl (takeSmaller key) s = (some x, key x) := by
  induction l generalizing s with
  | nil => cases h
  | cons y l ih =>
    rw [firstLeast_cons] at h
    rw [List.foldl_cons, takeSmaller]
    split_ifs at h with hall
    · obtain rfl := Option.some.inj h
      rw [if_pos hx, foldl_takeSmaller_of_le hall]
    · have hxy : key x < key y := by
        obtain ⟨hmem, hle⟩ := firstLeast_spec h
        by_contra hcon
        exact hall fun z hz => (not_lt.mp hcon).trans (hle z hz)
      split_ifs
      · exact ih h hxy
      · exact ih h hx

end StableQueue
