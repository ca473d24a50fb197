import AceTao.RBTree.Basic
import Mathlib.Algebra.GroupWithZero.Nat
import Mathlib.Data.List.Basic

/-!
# Red-black trees

No red node has a red child, and the paths from the root to the leaves have the same number of
black nodes. `Balanced c n x` says so of a subtree, with the colour of its root and this number,
and `Hole n path` of the rest of the tree, where a subtree with the number `n` is missing. A red
subtree fits where the parent is black (`balanced_zip`). `RB_rebalance` brings a red subtree up
whose parent may be red (`balanced_rebalance`), and `RB_delete_fixup` a subtree that has one black
node too few (`balanced_deleteFixup`); both end with a tree that has a black root.
-/

namespace AceTao.RBTree

open RBTree.Tree

variable {α : Type*}

/-- **Red-black trees**, with the colour of the root and the number of black nodes on each path. -/
inductive Balanced : Color → ℕ → Tree α → Prop
  | nil : Balanced .black 0 .nil
  | red {n : ℕ} {l r : Tree α} {a : α} (hl : Balanced .black n l) (hr : Balanced .black n r) :
    Balanced .red n (.node .red l a r)
  | black {n : ℕ} {c c' : Color} {l r : Tree α} {a : α} (hl : Balanced c n l)
    (hr : Balanced c' n r) : Balanced .black (n + 1) (.node .black l a r)

/-- The colour of the parent. -/
def parentColor : List (Frame α) → Color
  | [] => .black
  | f :: _ => f.color

/-- **The rest of a red-black tree** with a black root. -/
inductive Hole : ℕ → List (Frame α) → Prop
  | nil (n : ℕ) : Hole n []
  | red {n : ℕ} {s : Side} {a : α} {y : Tree α} {g : Frame α} {path : List (Frame α)}
    (hy : Balanced .black n y) (hg : g.color = .black) (h : Hole n (g :: path)) :
    Hole n (⟨s, .red, a, y⟩ :: g :: path)
  | black {n : ℕ} {c : Color} {s : Side} {a : α} {y : Tree α} {path : List (Frame α)}
    (hy : Balanced c n y) (h : Hole (n + 1) path) : Hole n (⟨s, .black, a, y⟩ :: path)

variable {x y : Tree α} {a : α} {c c' : Color} {s : Side} {f g : Frame α} {path : List (Frame α)}
  {n : ℕ}

theorem Balanced.mk_red (hx : Balanced .black n x) (hy : Balanced .black n y) (s : Side) (a : α) :
    Balanced .red n (Tree.mk s .red x a y) := by
  cases s with
  | left => exact .red hx hy
  | right => exact .red hy hx

theorem Balanced.mk_black (hx : Balanced c n x) (hy : Balanced c' n y) (s : Side) (a : α) :
    Balanced .black (n + 1) (Tree.mk s .black x a y) := by
  cases s with
  | left => exact .black hx hy
  | right => exact .black hy hx

/-- A tree is red or not, as its root. -/
theorem Balanced.isRed_iff (h : Balanced c n x) : x.isRed = true ↔ c = .red := by
  cases h with
  | nil => exact ⟨fun h => (by cases h), fun h => (by cases h)⟩
  | red => exact ⟨fun _ => rfl, fun _ => rfl⟩
  | black => exact ⟨fun h => (by cases h), fun h => (by cases h)⟩

/-- The children of a red node, on either side. -/
theorem Balanced.of_red (h : Balanced .red n x) (s : Side) :
    ∃ l a r, x = Tree.mk s .red l a r ∧ Balanced .black n l ∧ Balanced .black n r := by
  cases h with
  | @red _ l r a hl hr =>
    cases s with
    | left => exact ⟨l, a, r, rfl, hl, hr⟩
    | right => exact ⟨r, a, l, rfl, hr, hl⟩

/-- The children of a black node, on either side. -/
theorem Balanced.of_black (h : Balanced .black (n + 1) x) (s : Side) :
    ∃ l a r c c', x = Tree.mk s .black l a r ∧ Balanced c n l ∧ Balanced c' n r := by
  cases h with
  | @black _ c c' l r a hl hr =>
    cases s with
    | left => exact ⟨l, a, r, c, c', rfl, hl, hr⟩
    | right => exact ⟨r, a, l, c', c, rfl, hr, hl⟩

/-- A red root can be made black. -/
theorem Balanced.setColor_black (h : Balanced c n x) :
    ∃ m, Balanced .black m (x.setColor .black) := by
  cases h with
  | nil => exact ⟨0, .nil⟩
  | red hl hr => exact ⟨_, .black hl hr⟩
  | black hl hr => exact ⟨_, .black hl hr⟩

/-- **A subtree in its place.** -/
theorem balanced_zip (hx : Balanced c n x) (hp : Hole n path)
    (hc : c = .red → path ≠ [] ∧ parentColor path = .black) :
    ∃ m, Balanced .black m (zip x path) := by
  induction path generalizing x n c with
  | nil =>
    cases c with
    | red => exact absurd rfl (hc rfl).1
    | black => exact ⟨n, hx⟩
  | cons f path ih =>
    cases hp with
    | red hy hg h =>
      cases c with
      | red => cases (hc rfl).2
      | black => exact ih (hx.mk_red hy _ _) h fun _ => ⟨List.cons_ne_nil _ _, hg⟩
    | black hy h => exact ih (hx.mk_black hy _ _) h fun h => by cases h

/-! ### The functions on a node with a side -/

theorem mk_other (s : Side) : Tree.mk s.other c x a y = Tree.mk s c y a x := by
  cases s <;> rfl

@[simp] theorem setColor_mk : (Tree.mk s c x a y).setColor c' = Tree.mk s c' x a y := by
  cases s <;> rfl

@[simp] theorem setChildColor_mk :
    (Tree.mk s c x a y).setChildColor s c' = Tree.mk s c (x.setColor c') a y := by
  cases s <;> rfl

@[simp] theorem setChildColor_other_mk :
    (Tree.mk s c x a y).setChildColor s.other c' = Tree.mk s c x a (y.setColor c') := by
  cases s <;> rfl

@[simp] theorem child_mk : (Tree.mk s c x a y).child s = x := by
  cases s <;> rfl

@[simp] theorem child_other_mk : (Tree.mk s c x a y).child s.other = y := by
  cases s <;> rfl

@[simp] theorem rotate_mk {x' y' : Tree α} {a' : α} :
    rotate s (Tree.mk s c x a (Tree.mk s c' x' a' y')) =
      Tree.mk s c' (Tree.mk s c x a x') a' y' := by
  cases s <;> rfl

@[simp] theorem rotate_other_mk {x' y' : Tree α} {a' : α} :
    rotate s.other (Tree.mk s c (Tree.mk s c' x' a' y') a y) =
      Tree.mk s c' x' a' (Tree.mk s c y' a y) := by
  cases s <;> rfl

/-! ### After an insertion -/

/-- **`RB_rebalance`**. -/
theorem balanced_rebalance (hx : Balanced .red n x) (hp : Hole n path) :
    ∃ m, Balanced .black m ((rebalance x path).setColor .black) := by
  induction x, path using rebalance.induct generalizing n with
  | case1 x f g path hf hg ih =>
    rw [rebalance, if_pos hf, if_pos hg]
    cases hp with
    | black => cases hf
    | red hy hg' h =>
      cases h with
      | red => cases hg'
      | black hz h =>
        obtain rfl := hz.isRed_iff.mp hg
        obtain ⟨l, b, r, rfl, hl, hr⟩ := hz.of_red .left
        refine ih ?_ h
        simp only [Frame.plug, setColor_mk]
        exact (hx.mk_black hy _ _).mk_red (hl.mk_black hr _ _) _ _
  | case2 x f g path hf hg =>
    rw [rebalance, if_pos hf, if_neg hg]
    cases hp with
    | black => cases hf
    | @red _ s a y _ _ hy hg' h =>
      cases h with
      | red => cases hg'
      | @black _ cz s' b z _ hz h =>
        have hz : Balanced .black n z := by
          cases cz with
          | red => exact absurd (hz.isRed_iff.mpr rfl) hg
          | black => exact hz
        have hzip : ∀ w, Balanced .black (n + 1) w →
            ∃ m, Balanced .black m ((zip w path).setColor .black) := by
          intro w hw
          obtain ⟨m, hm⟩ := balanced_zip hw h (fun h => by cases h)
          exact hm.setColor_black
        refine hzip _ ?_
        by_cases hs : s = s'
        · subst hs
          simp only [if_pos, Frame.plug, setColor_mk, rotate_other_mk]
          exact hx.mk_black (hy.mk_red hz _ _) _ _
        · obtain rfl : s = s'.other := by
            cases s <;> cases s'
            · exact absurd rfl hs
            · rfl
            · rfl
            · exact absurd rfl hs
          obtain ⟨l, d, r, rfl, hl, hr⟩ := hx.of_red s'
          simp only [if_neg hs, Frame.plug, mk_other, setColor_mk, rotate_mk, rotate_other_mk]
          exact (hy.mk_red hl _ _).mk_black (hr.mk_red hz _ _) _ _
  | case3 x f g path hf =>
    rw [rebalance, if_neg hf]
    obtain ⟨m, hm⟩ := balanced_zip hx hp fun _ => ⟨List.cons_ne_nil _ _, by
      rw [parentColor]
      cases hc : f.color with
      | red => exact absurd hc hf
      | black => rfl⟩
    exact hm.setColor_black
  | case4 x path hpath =>
    have hzip : rebalance x path = zip x path := by
      rw [rebalance]
      exact hpath
    rw [hzip]
    cases hp with
    | nil => exact hx.setColor_black
    | red hy hg h => exact absurd rfl (hpath _ _ _)
    | black hy h =>
      obtain ⟨m, hm⟩ := balanced_zip hx (.black hy h) fun _ => ⟨List.cons_ne_nil _ _, rfl⟩
      exact hm.setColor_black

/-! ### After a removal -/

theorem blackChildren_mk :
    blackChildren (Tree.mk s c x a y) = true ↔ x.isRed = false ∧ y.isRed = false := by
  cases s with
  | left => simp [blackChildren, Tree.mk, Tree.isNil, Tree.child]
  | right => simp [blackChildren, Tree.mk, Tree.isNil, Tree.child, and_comm]

/-- A red node of which the children are black can be made from a black one. -/
theorem Balanced.setColor_red (h : Balanced .black (n + 1) x) (hb : blackChildren x = true) :
    Balanced .red n (x.setColor .red) := by
  obtain ⟨l, a, r, c, c', rfl, hl, hr⟩ := h.of_black .left
  obtain ⟨hlred, hrred⟩ := blackChildren_mk.mp hb
  have hl : Balanced .black n l := by
    cases c with
    | red => rw [hl.isRed_iff.mpr rfl] at hlred; cases hlred
    | black => exact hl
  have hr : Balanced .black n r := by
    cases c' with
    | red => rw [hr.isRed_iff.mpr rfl] at hrred; cases hrred
    | black => exact hr
  rw [setColor_mk]
  exact hl.mk_red hr _ _

theorem Balanced.mk (hx : Balanced .black n x) (hy : Balanced .black n y) (s : Side) (c : Color)
    (a : α) : Balanced c (if c = .red then n else n + 1) (Tree.mk s c x a y) := by
  cases c with
  | red => exact hx.mk_red hy s a
  | black => exact hx.mk_black hy s a

/-- **The last case**, where the sibling has a red child: the subtree of the parent gets the black
node that is missing. -/
theorem balanced_fixupRotate {w : Tree α} (hx : Balanced c n x) (hw : Balanced .black (n + 1) w)
    (hred : ¬ blackChildren w = true) (s : Side) (c' : Color) (a : α) :
    Balanced c' (if c' = .red then n + 1 else n + 2) (fixupRotate x ⟨s, c', a, w⟩) := by
  obtain ⟨l, b, r, cl, cr, rfl, hl, hr⟩ := hw.of_black s
  rw [fixupRotate]
  dsimp only
  rw [child_other_mk]
  by_cases houter : r.isRed = true
  · obtain rfl := hr.isRed_iff.mp houter
    obtain ⟨r₁, d, r₂, rfl, hr₁, hr₂⟩ := hr.of_red s
    simp only [if_pos houter, Frame.plug, setColor_mk, setChildColor_other_mk, rotate_mk]
    exact (hx.mk_black hl _ _).mk (hr₁.mk_black hr₂ _ _) _ _ _
  · have hinner : l.isRed = true := by
      by_contra hl
      rw [Bool.not_eq_true] at hl houter
      exact hred (blackChildren_mk.mpr ⟨hl, houter⟩)
    obtain rfl := hl.isRed_iff.mp hinner
    obtain ⟨l₁, d, l₂, rfl, hl₁, hl₂⟩ := hl.of_red s
    simp only [if_neg houter, Frame.plug, setColor_mk, setChildColor_mk, rotate_other_mk,
      setChildColor_other_mk, rotate_mk]
    exact (hx.mk_black hl₁ _ _).mk (hl₂.mk_black hr _ _) _ _ _

/-- **`RB_delete_fixup`**. -/
theorem balanced_deleteFixup (hx : Balanced c n x) (hp : Hole (n + 1) path) :
    ∃ m, Balanced .black m (deleteFixup x path) := by
  induction path generalizing x n c with
  | nil => exact hx.setColor_black
  | cons f path ih =>
    rw [deleteFixup]
    by_cases hred : x.isRed = true
    · obtain rfl := hx.isRed_iff.mp hred
      obtain ⟨l, a, r, rfl, hl, hr⟩ := hx.of_red .left
      rw [if_pos hred, setColor_mk]
      exact balanced_zip (hl.mk_black hr _ _) hp fun h => by cases h
    rw [if_neg hred]
    obtain ⟨s, cf, a, w⟩ := f
    -- The sibling is black: the subtree of the parent has the number that is right for it, or one
    -- less, and then its root is black.
    have hblack : Balanced .black (n + 1) w →
        ∃ m, Balanced .black m (if blackChildren w then
            deleteFixup (Frame.plug ⟨s, cf, a, w.setColor .red⟩ x) path
          else (zip (fixupRotate x ⟨s, cf, a, w⟩) path).setColor .black) := by
      intro hw
      by_cases hchildren : blackChildren w = true
      · have hw' := hw.setColor_red hchildren
        rw [if_pos hchildren]
        cases hp with
        | black hy h => exact ih (hx.mk_black hw' s a) h
        | @red _ _ _ _ g path hy hg h =>
          rw [Frame.plug, deleteFixup, if_pos (by cases s <;> rfl), setColor_mk]
          exact balanced_zip (hx.mk_black hw' s a) h fun h => by cases h
      · have hrotated := balanced_fixupRotate hx hw hchildren s cf a
        rw [if_neg hchildren]
        cases hp with
        | black hy h =>
          obtain ⟨m, hm⟩ := balanced_zip hrotated h fun h => by cases h
          exact hm.setColor_black
        | red hy hg h =>
          obtain ⟨m, hm⟩ := balanced_zip hrotated h fun _ => ⟨List.cons_ne_nil _ _, hg⟩
          exact hm.setColor_black
    rcases w with _ | ⟨_ | _, l, b, r⟩
    · cases hp with
      | red hy => cases hy
      | black hy => cases hy
    · -- The sibling is red, and the parent is black.
      cases hp with
      | red hy => cases hy
      | black hy h =>
        obtain ⟨l', b', r', hmk, hl, hr⟩ := (show Balanced .red (n + 1) (Tree.node .red l b r) by
          cases hy with
          | red hl hr => exact .red hl hr).of_red s
        dsimp only
        rw [hmk, child_mk, child_other_mk, show b = b' by cases s <;> injection hmk]
        by_cases hchildren : blackChildren l' = true
        · rw [if_pos hchildren, Frame.plug, setColor_mk]
          exact balanced_zip (hx.mk_black (hl.setColor_red hchildren) s a) (.black hr h)
            fun h => by cases h
        · rw [if_neg hchildren]
          obtain ⟨m, hm⟩ := balanced_zip (balanced_fixupRotate hx hl hchildren s .red a)
            (.black (s := s) (a := b') hr h) fun _ => ⟨List.cons_ne_nil _ _, rfl⟩
          exact hm.setColor_black
    · refine hblack ?_
      cases hp with
      | red hy => exact hy
      | black hy =>
        cases hy with
        | black hl hr => exact .black hl hr

/-! ### Places in a red-black tree -/

/-- **A place in a red-black tree**: a subtree, and the rest of the tree. -/
theorem Balanced.of_zip {m : ℕ} (h : Balanced .black m (zip x path)) :
    ∃ c n, Balanced c n x ∧ Hole n path ∧
      (c = .red → path ≠ [] ∧ parentColor path = .black) := by
  induction path generalizing x with
  | nil => exact ⟨.black, m, h, .nil m, fun h => by cases h⟩
  | cons f path ih =>
    obtain ⟨c, n, hplug, hhole, hc⟩ := ih h
    obtain ⟨s, cf, a, y⟩ := f
    have hred : ∀ x y : Tree α, Balanced c n (Tree.node cf x a y) → cf = .red →
        c = .red ∧ Balanced .black n x ∧ Balanced .black n y := by
      rintro x y hxy rfl
      cases hxy with
      | red hx hy => exact ⟨rfl, hx, hy⟩
    have hblack : ∀ x y : Tree α, Balanced c n (Tree.node cf x a y) → cf = .black →
        ∃ n' c₁ c₂, n = n' + 1 ∧ Balanced c₁ n' x ∧ Balanced c₂ n' y := by
      rintro x y hxy rfl
      cases hxy with
      | black hx hy => exact ⟨_, _, _, rfl, hx, hy⟩
    cases cf with
    | red =>
      have hxy : c = .red ∧ Balanced .black n x ∧ Balanced .black n y := by
        cases s with
        | left => exact hred _ _ hplug rfl
        | right =>
          obtain ⟨hc, hy, hx⟩ := hred _ _ hplug rfl
          exact ⟨hc, hx, hy⟩
      obtain ⟨rfl, hx, hy⟩ := hxy
      obtain ⟨hne, hparent⟩ := hc rfl
      obtain ⟨g, path, rfl⟩ := List.exists_cons_of_ne_nil hne
      exact ⟨.black, n, hx, .red hy hparent hhole, fun h => by cases h⟩
    | black =>
      have hxy : ∃ n' c₁ c₂, n = n' + 1 ∧ Balanced c₁ n' x ∧ Balanced c₂ n' y := by
        cases s with
        | left => exact hblack _ _ hplug rfl
        | right =>
          obtain ⟨n', c₁, c₂, hn, hy, hx⟩ := hblack _ _ hplug rfl
          exact ⟨n', c₂, c₁, hn, hx, hy⟩
      obtain ⟨n', c₁, c₂, rfl, hx, hy⟩ := hxy
      exact ⟨c₁, n', hx, .black hy hhole, fun _ => ⟨List.cons_ne_nil _ _, rfl⟩⟩

/-- **An insertion** where a leaf is. -/
theorem balanced_insert {m : ℕ} (h : Balanced .black m (zip .nil path)) (a : α) :
    ∃ m, Balanced .black m ((rebalance (.node .red .nil a .nil) path).setColor .black) := by
  obtain ⟨c, n, hnil, hhole, -⟩ := h.of_zip
  cases hnil with
  | nil => exact balanced_rebalance (.red .nil .nil) hhole

/-- A node is replaced by one of its children. -/
theorem balanced_splice {m : ℕ} {l r : Tree α} (h : Balanced .black m (zip (.node c l a r) path))
    (hx : x = l ∨ x = r) :
    ∃ m, Balanced .black m (if c = .black then deleteFixup x path else zip x path) := by
  obtain ⟨c', n, hnode, hhole, hc⟩ := h.of_zip
  cases hnode with
  | red hl hr =>
    rw [if_neg (fun h => by cases h)]
    rcases hx with rfl | rfl
    · exact balanced_zip hl hhole fun h => by cases h
    · exact balanced_zip hr hhole fun h => by cases h
  | black hl hr =>
    rw [if_pos rfl]
    rcases hx with rfl | rfl
    · exact balanced_deleteFixup hl hhole
    · exact balanced_deleteFixup hr hhole

/-- Whether a tree is a red-black tree does not depend on an item. -/
theorem Balanced.congr_item {m : ℕ} {l r : Tree α}
    (h : Balanced .black m (zip (.node c l a r) path)) (b : α) :
    ∃ m, Balanced .black m (zip (.node c l b r) path) := by
  obtain ⟨c', n, hnode, hhole, hc⟩ := h.of_zip
  cases hnode with
  | red hl hr => exact balanced_zip (.red hl hr) hhole hc
  | black hl hr => exact balanced_zip (.black hl hr) hhole hc

/-! ### Height -/

/-- The number of nodes on the longest path. -/
def height : Tree α → ℕ
  | .nil => 0
  | .node _ l _ r => max (height l) (height r) + 1

def size : Tree α → ℕ
  | .nil => 0
  | .node _ l _ r => size l + size r + 1

/-- There are as many black nodes on each path as the size allows for, and as many red ones. -/
theorem Balanced.height_le (h : Balanced c n x) :
    height x ≤ (if c = .red then 2 * n + 1 else 2 * n) ∧ 2 ^ n ≤ size x + 1 := by
  induction h with
  | nil => exact ⟨Nat.le_refl _, Nat.le_refl _⟩
  | red hl hr ihl ihr =>
    obtain ⟨hhl, hsl⟩ := ihl
    obtain ⟨hhr, -⟩ := ihr
    rw [if_neg (fun h => by cases h)] at hhl hhr
    rw [if_pos rfl, height, size]
    omega
  | @black n c c' _ _ _ hl hr ihl ihr =>
    obtain ⟨hhl, hsl⟩ := ihl
    obtain ⟨hhr, hsr⟩ := ihr
    have hle : ∀ c : Color, (if c = .red then 2 * n + 1 else 2 * n) ≤ 2 * n + 1 := by
      intro c
      split_ifs
      · exact Nat.le_refl _
      · exact Nat.le_succ _
    have hl := Nat.le_trans hhl (hle c)
    have hr := Nat.le_trans hhr (hle c')
    rw [if_neg (fun h => by cases h), height, size, Nat.pow_succ]
    omega

end AceTao.RBTree
