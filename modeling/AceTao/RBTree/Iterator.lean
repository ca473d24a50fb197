import AceTao.RBTree.Runs
import Mathlib.Data.List.Basic

/-!
# The iterators

An iterator starts at the outermost node on one side, and `RB_tree_successor` or
`RB_tree_predecessor` leads from a node to the next one: into the subtree on the side of the
direction, or up to the first ancestor that lies in this direction. What is yet to be visited is
the node itself, its subtree in this direction and what is `ahead` on the path (`remaining`); a
step takes the first of these away (`remaining_neighbour`). So an iterator visits the entries in
ascending or in descending order, each of them once (`Map.run_visited`).
-/

namespace AceTao.RBTree

open RBTree.Tree Machine

variable {α κ τ : Type*} {s : Side} {c : Color} {x y : Tree α} {a : α} {f : Frame α}
  {path : List (Frame α)}

/-- The items of a tree in the order in which a walk in a direction meets them. -/
def walk (s : Side) (x : Tree α) : List α :=
  match s with
  | .right => items x
  | .left => (items x).reverse

/-- The items on a path that are yet to be met. -/
def ahead (s : Side) (path : List (Frame α)) : List α :=
  match s with
  | .right => after path
  | .left => (before path).reverse

/-- **What is yet to be visited**, at a node. -/
def remaining (s : Side) (p : Tree α × List (Frame α)) : List α :=
  match p with
  | (.nil, path) => ahead s path
  | (.node c l a r, path) => a :: walk s ((Tree.node c l a r).child s) ++ ahead s path

/-- An iterator: the items that it gives, of which there are at most so many. -/
def visited (s : Side) : ℕ → Option (Tree α × List (Frame α)) → List α
  | n + 1, some (.node c l a r, path) => a :: visited s n (neighbour s (.node c l a r, path))
  | _, _ => []

theorem walk_mk : walk s (Tree.mk s.other c x a y) = walk s x ++ a :: walk s y := by
  cases s with
  | right => rfl
  | left =>
    dsimp only [walk, Side.other, Tree.mk, items]
    rw [List.reverse_append, List.reverse_cons, List.append_assoc]
    rfl

theorem ahead_cons_same : ahead s (⟨s, c, a, x⟩ :: path) = ahead s path := by
  cases s <;> rfl

theorem ahead_cons_other :
    ahead s (⟨s.other, c, a, x⟩ :: path) = a :: walk s x ++ ahead s path := by
  cases s with
  | right => rfl
  | left =>
    dsimp only [ahead, walk, Side.other, before]
    rw [List.reverse_append, List.reverse_append]
    rfl

theorem remaining_mk :
    remaining s (Tree.mk s.other c x a y, path) = a :: walk s y ++ ahead s path := by
  cases s <;> rfl

/-- A node has a child on each side. -/
theorem exists_mk (s : Side) (hx : x ≠ .nil) : ∃ c l a r, x = Tree.mk s c l a r := by
  cases x with
  | nil => exact absurd rfl hx
  | node c l a r =>
    cases s with
    | left => exact ⟨c, l, a, r, rfl⟩
    | right => exact ⟨c, r, a, l, rfl⟩

/-! ### Steps -/

theorem extreme_mk : extreme s (Tree.mk s c x a y) path =
    if x.isNil then (Tree.mk s c x a y, path) else extreme s x (⟨s, c, a, y⟩ :: path) := by
  cases s <;> rfl

theorem neighbour_mk : neighbour s (Tree.mk s.other c x a y, path) =
    if y.isNil then climb s (Tree.mk s.other c x a y) path
    else some (extreme s.other y (⟨s, c, a, x⟩ :: path)) := by
  cases s <;> rfl

/-- **The outermost node**: all of the subtree is yet to be visited. -/
theorem remaining_extreme (s : Side) (x : Tree α) (path : List (Frame α)) :
    remaining s (extreme s.other x path) = walk s x ++ ahead s path := by
  induction hsize : size x using Nat.strongRecOn generalizing x path with
  | _ n ih =>
    by_cases hx : x = .nil
    · subst hx
      cases s <;> rfl
    · obtain ⟨c, l, a, r, rfl⟩ := exists_mk s.other hx
      rw [extreme_mk, walk_mk]
      split_ifs with hnil
      · rw [remaining_mk, isNil_iff.mp hnil]
        cases s <;> rfl
      · have hlt : size l < n := by
          rw [← hsize]
          cases s with
          | left => exact Nat.lt_succ_of_le (Nat.le_add_left _ _)
          | right => exact Nat.lt_succ_of_le (Nat.le_add_right _ _)
        rw [ih (size l) hlt l _ rfl, ahead_cons_other, List.append_assoc, List.cons_append]

/-- **Up the path**, to the first node that is ahead. -/
theorem climb_spec (s : Side) (x : Tree α) (path : List (Frame α)) :
    (climb s x path = none ∧ ahead s path = []) ∨
      ∃ c l a r path', climb s x path = some (.node c l a r, path') ∧
        remaining s (.node c l a r, path') = ahead s path := by
  induction path generalizing x with
  | nil => exact Or.inl ⟨rfl, by cases s <;> rfl⟩
  | cons f path ih =>
    obtain ⟨s', c, a, y⟩ := f
    rw [climb]
    by_cases hs : s' = s
    · subst hs
      rw [if_pos rfl, ahead_cons_same]
      exact ih _
    · obtain rfl : s' = s.other := by
        cases s <;> cases s'
        · exact absurd rfl hs
        · rfl
        · rfl
        · exact absurd rfl hs
      rw [if_neg hs, ahead_cons_other, ← remaining_mk (c := c) (x := x)]
      cases s with
      | left => exact Or.inr ⟨_, _, _, _, _, rfl, rfl⟩
      | right => exact Or.inr ⟨_, _, _, _, _, rfl, rfl⟩

/-- **One step**: the first of what is yet to be visited is taken away. -/
theorem remaining_neighbour (s : Side) (c : Color) (l : Tree α) (a : α) (r : Tree α)
    (path : List (Frame α)) :
    ∃ rest, remaining s (.node c l a r, path) = a :: rest ∧
      ((neighbour s (.node c l a r, path) = none ∧ rest = []) ∨
        ∃ c' l' a' r' path', neighbour s (.node c l a r, path) = some (.node c' l' a' r', path') ∧
          remaining s (.node c' l' a' r', path') = rest) := by
  obtain ⟨c₁, x, b, y, hmk⟩ := exists_mk s.other (x := .node c l a r) (fun h => by cases h)
  obtain rfl : a = b := by cases s <;> injection hmk
  rw [hmk, remaining_mk, neighbour_mk]
  refine ⟨walk s y ++ ahead s path, rfl, ?_⟩
  split_ifs with hnil
  · rw [isNil_iff.mp hnil, show walk s (Tree.nil : Tree α) = [] by cases s <;> rfl, List.nil_append]
    exact climb_spec s _ path
  · refine Or.inr ?_
    have hremaining := remaining_extreme s y (⟨s, c₁, a, x⟩ :: path)
    obtain ⟨c', a', y', path', hextreme, -, -⟩ := extreme_spec s.other y (⟨s, c₁, a, x⟩ :: path)
      fun h => hnil (isNil_iff.mpr h)
    rw [ahead_cons_same, hextreme] at hremaining
    rw [hextreme]
    obtain ⟨c₂, l', d, r', hnode⟩ := exists_mk .left (x := Tree.mk s.other c' .nil a' y')
      (fun h => by cases s <;> cases h)
    rw [hnode] at hremaining ⊢
    exact ⟨_, _, _, _, _, rfl, hremaining⟩

/-- **A walk** gives the items that are yet to be visited, one after the other. -/
theorem visited_eq_take (n : ℕ) (p : Tree α × List (Frame α)) (hp : p.1 ≠ .nil) :
    visited s n (some p) = (remaining s p).take n := by
  induction n generalizing p with
  | zero => rfl
  | succ n ih =>
    obtain ⟨x, path⟩ := p
    cases x with
    | nil => exact absurd rfl hp
    | node c l a r =>
      obtain ⟨rest, hrest, hnext⟩ := remaining_neighbour s c l a r path
      rw [visited, hrest, List.take_succ_cons]
      refine congrArg _ ?_
      rcases hnext with ⟨hnone, rfl⟩ | ⟨c', l', a', r', path', hsome, rfl⟩
      · rw [hnone, List.take_nil]
        cases n <;> rfl
      · rw [hsome]
        exact ih _ (fun h => by cases h)

/-- **An iterator over the tree.** -/
theorem visited_extreme (s : Side) (x : Tree α) (n : ℕ) :
    visited s n (some (extreme s.other x [])) = (walk s x).take n := by
  by_cases hx : x = .nil
  · subst hx
    rw [show walk s (Tree.nil : Tree α) = [] by cases s <;> rfl, List.take_nil]
    cases n <;> cases s <;> rfl
  · obtain ⟨c, a, y, path, hextreme, -⟩ := extreme_spec s.other x [] hx
    have hremaining := remaining_extreme s x []
    rw [show ahead s ([] : List (Frame α)) = [] by cases s <;> rfl, List.append_nil] at hremaining
    rw [visited_eq_take, hremaining]
    rw [hextreme]
    exact fun h => by cases s <;> cases h

/-- **After every run**, the iterator and the reverse iterator give the entries of the map in
ascending and in descending order. -/
theorem Map.run_visited (o : WeakOrder κ) (events : List (Event κ τ)) :
    ∃ t l results, run (Map.step o) Map.empty events = some (t, results) ∧
      run (specStep o) [] events = some (l, results) ∧ o.Sorted l ∧
      ∀ n, visited .right n (some (extreme .left t.root [])) = l.take n ∧
        visited .left n (some (extreme .right t.root [])) = l.reverse.take n := by
  obtain ⟨t, l, results, hrun, hspec, h⟩ := Map.run_represents o events
  refine ⟨t, l, results, hrun, hspec, h.sorted, fun n => ⟨?_, ?_⟩⟩
  · rw [← h.items_eq]
    exact visited_extreme .right t.root n
  · rw [← h.items_eq]
    exact visited_extreme .left t.root n

end AceTao.RBTree
