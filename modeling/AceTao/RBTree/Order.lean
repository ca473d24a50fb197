import AceTao.Library.Machine
import AceTao.RBTree.Basic
import Mathlib.Data.List.Basic

/-!
# The entries of the tree in order

The items in the order of the tree are those before a node, the node's own and those behind it, and
this is so at each place on a path. A rotation leaves them as they are, so `RB_rebalance` and
`RB_delete_fixup` do (`items_rebalance`, `items_deleteFixup`), for any tree and whatever its colours
are. So each operation does to the list of the items what it would do to a map that is a sorted list
(`Map.run_simulates`), and `find_node` finds the place.
-/

namespace AceTao.RBTree

open RBTree.Tree Machine

variable {α κ τ : Type*}

/-- **The items** in the order of the tree. -/
def items : Tree α → List α
  | .nil => []
  | .node _ l a r => items l ++ a :: items r

/-- The items to the left of a path. -/
def before : List (Frame α) → List α
  | [] => []
  | f :: path => match f.side with
    | .left => before path
    | .right => before path ++ (items f.sibling ++ [f.item])

/-- The items to the right of a path. -/
def after : List (Frame α) → List α
  | [] => []
  | f :: path => match f.side with
    | .left => f.item :: items f.sibling ++ after path
    | .right => after path

variable {x y : Tree α} {a : α} {c c' : Color} {s : Side} {f g : Frame α} {path : List (Frame α)}

/-- The items of a node whose child is on the given side. -/
theorem items_mk (s : Side) (c : Color) (x : Tree α) (a : α) (y : Tree α) :
    items (Tree.mk s c x a y) = match s with
      | .left => items x ++ a :: items y
      | .right => items y ++ a :: items x := by
  cases s <;> rfl

/-- **A place in the tree.** -/
theorem items_zip (x : Tree α) (path : List (Frame α)) :
    items (zip x path) = before path ++ (items x ++ after path) := by
  induction path generalizing x with
  | nil => exact (List.append_nil _).symm
  | cons f path ih =>
    obtain ⟨s, c, a, y⟩ := f
    rw [zip, ih, Frame.plug, items_mk]
    cases s with
    | left =>
      dsimp only [before, after]
      rw [List.append_assoc, List.cons_append]
    | right =>
      dsimp only [before, after]
      simp only [List.append_assoc, List.cons_append, List.nil_append]

theorem items_zip_congr (h : items x = items y) : items (zip x path) = items (zip y path) := by
  rw [items_zip, items_zip, h]

@[simp] theorem items_setColor (c : Color) (x : Tree α) : items (x.setColor c) = items x := by
  cases x <;> rfl

@[simp] theorem items_setChildColor (s : Side) (c : Color) (x : Tree α) :
    items (x.setChildColor s c) = items x := by
  cases x with
  | nil => rfl
  | node c' l a r =>
    cases s with
    | left => rw [setChildColor, items, items, items_setColor]
    | right => rw [setChildColor, items, items, items_setColor]

@[simp] theorem items_rotateLeft (x : Tree α) : items x.rotateLeft = items x := by
  rcases x with _ | ⟨c, l, a, _ | ⟨c', l', a', r'⟩⟩
  · rfl
  · rfl
  · simp only [rotateLeft, items, List.append_assoc, List.cons_append]

@[simp] theorem items_rotateRight (x : Tree α) : items x.rotateRight = items x := by
  rcases x with _ | ⟨c, _ | ⟨c', l', a', r'⟩, a, r⟩
  · rfl
  · rfl
  · simp only [rotateRight, items, List.append_assoc, List.cons_append]

/-- **Rotations** leave the order as it is. -/
@[simp] theorem items_rotate (s : Side) (x : Tree α) : items (rotate s x) = items x := by
  cases s with
  | left => exact items_rotateLeft x
  | right => exact items_rotateRight x

/-- The items of a node depend on those of its children, and not on the colours. -/
theorem items_plug_congr {y' : Tree α} (hx : items x = items y) (hy : items f.sibling = items y') :
    items (f.plug x) = items (Frame.plug ⟨f.side, c, f.item, y'⟩ y) := by
  rw [Frame.plug, Frame.plug, items_mk, items_mk, hx, hy]

/-! ### Balancing -/

/-- **`RB_rebalance`** keeps the order. -/
theorem items_rebalance (x : Tree α) (path : List (Frame α)) :
    items (rebalance x path) = items (zip x path) := by
  induction x, path using rebalance.induct with
  | case1 x f g path hf hg ih =>
    rw [rebalance, if_pos hf, if_pos hg, ih, zip, zip]
    refine items_zip_congr ?_
    exact (items_plug_congr (items_setColor _ _).symm (items_setColor _ _).symm).symm
  | case2 x f g path hf hg =>
    rw [rebalance, if_pos hf, if_neg hg, zip, zip]
    refine items_zip_congr ?_
    rw [items_rotate]
    refine (items_plug_congr (f := g) ?_ rfl).symm
    rw [items_setColor]
    split_ifs
    · rfl
    · rw [items_rotate]
  | case3 x f g path hf => rw [rebalance, if_neg hf]
  | case4 x path hpath =>
    rw [rebalance]
    exact hpath

theorem items_fixupRotate (x : Tree α) (f : Frame α) :
    items (fixupRotate x f) = items (f.plug x) := by
  rw [fixupRotate, items_rotate]
  refine (items_plug_congr (c := .black) rfl ?_).symm
  rw [items_setChildColor, items_setColor]
  split_ifs
  · rfl
  · rw [items_rotate, items_setColor, items_setChildColor]

/-- The parent below its other child, to which it was rotated. -/
theorem items_below (s : Side) (c₁ c₂ : Color) (x : Tree α) (a b : α) (l r : Tree α)
    (c c' : Color) :
    items (Frame.plug ⟨s, c₁, a, (node c l a r).child s.other⟩
        (Frame.plug ⟨s, c₂, b, (node c l a r).child s⟩ x)) =
      items (Frame.plug ⟨s, c', b, node c l a r⟩ x) := by
  cases s with
  | left =>
    simp only [Frame.plug, Tree.mk, child, Side.other, items, List.append_assoc, List.cons_append]
  | right =>
    simp only [Frame.plug, Tree.mk, child, Side.other, items, List.append_assoc, List.cons_append]

/-- **`RB_delete_fixup`** keeps the order. -/
theorem items_deleteFixup (x : Tree α) (path : List (Frame α)) :
    items (deleteFixup x path) = items (zip x path) := by
  induction path generalizing x with
  | nil => exact items_setColor _ _
  | cons f path ih =>
    rw [deleteFixup]
    split_ifs with hred
    · exact items_zip_congr (items_setColor _ _)
    have hblack : items (if blackChildren f.sibling then
        deleteFixup (Frame.plug { f with sibling := f.sibling.setColor .red } x) path
        else (zip (fixupRotate x f) path).setColor .black) = items (zip x (f :: path)) := by
      split_ifs
      · rw [ih, zip]
        exact items_zip_congr (items_plug_congr rfl (items_setColor _ _).symm).symm
      · rw [items_setColor, zip]
        exact items_zip_congr (items_fixupRotate x f)
    obtain ⟨s, c, b, w⟩ := f
    rcases w with _ | ⟨_ | _, l, a, r⟩
    · exact hblack
    · dsimp only
      split_ifs
      · rw [zip, zip]
        refine items_zip_congr ?_
        rw [← items_below s .black .red x a b l r .red c]
        refine (items_plug_congr (f := ⟨s, .black, a, _⟩) ?_ rfl).symm
        rw [items_setColor]
        exact items_plug_congr rfl (items_setColor _ _).symm
      · rw [items_setColor, zip, zip]
        refine items_zip_congr ?_
        rw [← items_below s .black .red x a b l r .red c]
        exact (items_plug_congr (f := ⟨s, .black, a, _⟩) (items_fixupRotate _ _).symm rfl).symm
    · exact hblack

/-! ### Removing a node -/

theorem zip_append (x : Tree α) (p q : List (Frame α)) : zip x (p ++ q) = zip (zip x p) q := by
  induction p generalizing x with
  | nil => rfl
  | cons f p ih => exact ih (f.plug x)

theorem before_append (p q : List (Frame α)) : before (p ++ q) = before q ++ before p := by
  induction p with
  | nil => exact (List.append_nil _).symm
  | cons f p ih =>
    obtain ⟨s, c, a, y⟩ := f
    cases s with
    | left => exact ih
    | right =>
      rw [List.cons_append, before, before, ih]
      exact List.append_assoc _ _ _

theorem after_append (p q : List (Frame α)) : after (p ++ q) = after p ++ after q := by
  induction p with
  | nil => rfl
  | cons f p ih =>
    obtain ⟨s, c, a, y⟩ := f
    cases s with
    | left =>
      rw [List.cons_append, after, after, ih]
      exact (List.append_assoc _ _ _).symm
    | right => exact ih

theorem isNil_iff : x.isNil = true ↔ x = .nil := by
  cases x with
  | nil => exact ⟨fun _ => rfl, fun _ => rfl⟩
  | node c l a r => exact ⟨fun h => (by cases h), fun h => (by cases h)⟩

/-- **The outermost node** on one side. -/
theorem extreme_spec (s : Side) (x : Tree α) (path : List (Frame α)) (hx : x ≠ .nil) :
    ∃ c a y path', extreme s x path = (Tree.mk s c .nil a y, path') ∧
      zip (Tree.mk s c .nil a y) path' = zip x path ∧
      match s with
        | .left => before path' = before path
        | .right => after path' = after path := by
  induction x generalizing path with
  | nil => exact absurd rfl hx
  | node c l a r ihl ihr =>
    cases s with
    | left =>
      rw [extreme]
      by_cases hnil : l.isNil = true
      · obtain rfl := isNil_iff.mp hnil
        exact ⟨c, a, r, path, if_pos rfl, rfl, rfl⟩
      · obtain ⟨c', a', y, path', heq, hzip, hbefore⟩ :=
          ihl (⟨.left, c, a, r⟩ :: path) (fun h => hnil (isNil_iff.mpr h))
        exact ⟨c', a', y, path', (if_neg hnil).trans heq, hzip, hbefore⟩
    | right =>
      rw [extreme]
      by_cases hnil : r.isNil = true
      · obtain rfl := isNil_iff.mp hnil
        exact ⟨c, a, l, path, if_pos rfl, rfl, rfl⟩
      · obtain ⟨c', a', y, path', heq, hzip, hafter⟩ :=
          ihr (⟨.right, c, a, l⟩ :: path) (fun h => hnil (isNil_iff.mpr h))
        exact ⟨c', a', y, path', (if_neg hnil).trans heq, hzip, hafter⟩

/-- **`remove_i`** takes the item of the node away. -/
theorem items_removeNode (c : Color) (l : Tree α) (a : α) (r : Tree α) (path : List (Frame α)) :
    items (removeNode c l a r path) = before path ++ items l ++ (items r ++ after path) := by
  rw [removeNode]
  by_cases hboth : (!l.isNil && !r.isNil) = true
  · rw [if_pos hboth]
    rw [Bool.and_eq_true, Bool.not_eq_true', Bool.not_eq_true'] at hboth
    obtain ⟨cy, ay, ry, frames, hextreme, hzip, hbefore⟩ := extreme_spec .left r []
      (fun h => by rw [isNil_iff.mpr h] at hboth; cases hboth.2)
    have hr : items r = ay :: items ry ++ after frames := by
      have hitems := congrArg items hzip
      rw [items_zip, show before frames = [] from hbefore] at hitems
      exact hitems.symm
    have hitems : items (zip ry (frames ++ ⟨.right, c, ay, l⟩ :: path)) =
        before path ++ items l ++ (items r ++ after path) := by
      rw [items_zip, before_append, after_append, hbefore, hr]
      simp only [before, after, List.append_assoc, List.nil_append, List.cons_append,
        List.append_nil]
    rw [hextreme]
    dsimp only [Tree.mk]
    rw [if_pos (show (Tree.nil : Tree α).isNil = true from rfl)]
    split_ifs
    · rw [items_deleteFixup]
      exact hitems
    · exact hitems
  · rw [if_neg hboth]
    have hitems : items (zip (if l.isNil then r else l) path) =
        before path ++ items l ++ (items r ++ after path) := by
      rw [items_zip]
      by_cases hnil : l.isNil = true
      · rw [if_pos hnil, isNil_iff.mp hnil, items, List.append_nil]
      · have hr : r = .nil := by
          rw [← isNil_iff]
          by_contra hr
          rw [Bool.not_eq_true] at hnil hr
          rw [hnil, hr] at hboth
          exact hboth rfl
        rw [if_neg hnil, hr, items, List.nil_append, List.append_assoc]
    dsimp only
    by_cases hc : c = .black
    · rw [if_pos hc, items_deleteFixup]
      exact hitems
    · rw [if_neg hc]
      exact hitems

/-! ### Keys -/

variable {o : WeakOrder κ} {k : κ} {v : τ} {t : Tree (κ × τ)} {p : List (Frame (κ × τ))}

/-- **`find_node`** ends at a node around which the key is, or that has the key. -/
theorem findNode_spec (ht : t ≠ .nil) (hsorted : o.Sorted (items (zip t p)))
    (hp : o.Around k (before p) (after p)) :
    ∃ c l a r p' result, findNode o k t p = (.node c l a r, p', result) ∧
      zip (.node c l a r) p' = zip t p ∧ o.Around k (before p') (after p') ∧
      match result with
        | .exact => o.same a.1 k = true
        | .left => r = .nil ∧ o.lt a.1 k = true
        | .right => l = .nil ∧ o.lt k a.1 = true := by
  induction t generalizing p with
  | nil => exact absurd rfl ht
  | node c l a r ihl ihr =>
    have hplace : o.Around a.1 (before p ++ items l) (items r ++ after p) := by
      rw [items_zip, items, List.append_assoc, List.cons_append, ← List.append_assoc] at hsorted
      exact (WeakOrder.sorted_append_cons.mp hsorted).2.2
    rw [findNode]
    by_cases hlt : o.lt a.1 k = true
    · rw [if_pos hlt]
      by_cases hnil : r.isNil = true
      · rw [if_pos hnil]
        exact ⟨c, l, a, r, p, .left, rfl, rfl, hp, isNil_iff.mp hnil, hlt⟩
      · rw [if_neg hnil]
        refine ihr (fun h => hnil (isNil_iff.mpr h)) hsorted ⟨fun e he => ?_, hp.2⟩
        -- The node and what is to its left have smaller keys.
        rw [before, ← List.append_assoc] at he
        rcases List.mem_append.mp he with he | he
        · exact o.trans _ _ _ (hplace.1 e he) hlt
        · rw [List.mem_singleton.mp he]
          exact hlt
    · rw [if_neg hlt]
      by_cases hgt : o.lt k a.1 = true
      · rw [if_pos hgt]
        by_cases hnil : l.isNil = true
        · rw [if_pos hnil]
          exact ⟨c, l, a, r, p, .right, rfl, rfl, hp, isNil_iff.mp hnil, hgt⟩
        · rw [if_neg hnil]
          refine ihl (fun h => hnil (isNil_iff.mpr h)) hsorted ⟨hp.1, fun e he => ?_⟩
          rw [after, List.cons_append] at he
          rcases List.mem_cons.mp he with rfl | he
          · exact hgt
          · exact o.trans _ _ _ hgt (hplace.2 e he)
      · rw [if_neg hgt]
        rw [Bool.not_eq_true] at hlt hgt
        exact ⟨c, l, a, r, p, .exact, rfl, rfl, hp, WeakOrder.same_iff.mpr ⟨hlt, hgt⟩⟩

end AceTao.RBTree
