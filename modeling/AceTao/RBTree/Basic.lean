import AceTao.Library.SortedMap
import Mathlib.Data.List.Basic

/-!
# `ACE_RB_Tree`

A node with pointers to its children and its parent is a tree together with its path: a list of
frames from the parent up to the root, each with the side that the child is on, and with the
colour, the item and the other child of the node. An operation that goes up along the pointers to
the parents goes along the path, and what it does to the nodes it passes is done to the frames.
The functions that differ only by exchanging left and right have the side as an argument.
-/

namespace AceTao.RBTree

/-- **`RB_Tree_Node_Color`**. -/
inductive Color
  | red
  | black
  deriving DecidableEq

inductive Side
  | left
  | right
  deriving DecidableEq

def Side.other : Side → Side
  | .left => .right
  | .right => .left

/-- **`ACE_RB_Tree_Node`**, with its subtrees. -/
inductive Tree (α : Type*)
  | nil
  | node (color : Color) (left : Tree α) (item : α) (right : Tree α)
  deriving DecidableEq

/-- A node on the path, without the child on the path. -/
structure Frame (α : Type*) where
  side : Side
  color : Color
  item : α
  sibling : Tree α

variable {α κ τ : Type*}

namespace Tree

/-- A node of which one child is on the given side. -/
def mk (s : Side) (c : Color) (x : Tree α) (a : α) (y : Tree α) : Tree α :=
  match s with
  | .left => node c x a y
  | .right => node c y a x

def child (s : Side) : Tree α → Tree α
  | nil => nil
  | node _ l _ r => match s with
    | .left => l
    | .right => r

def isRed : Tree α → Bool
  | node .red _ _ _ => true
  | _ => false

def isNil : Tree α → Bool
  | nil => true
  | _ => false

def setColor (c : Color) : Tree α → Tree α
  | nil => nil
  | node _ l a r => node c l a r

/-- A child gets a colour. -/
def setChildColor (s : Side) (c : Color) : Tree α → Tree α
  | nil => nil
  | node c' l a r => match s with
    | .left => node c' (l.setColor c) a r
    | .right => node c' l a (r.setColor c)

/-- **`RB_rotate_left`**. -/
def rotateLeft : Tree α → Tree α
  | node c l a (node c' l' a' r') => node c' (node c l a l') a' r'
  | t => t

/-- **`RB_rotate_right`**. -/
def rotateRight : Tree α → Tree α
  | node c (node c' l' a' r') a r => node c' l' a' (node c r' a r)
  | t => t

def rotate : Side → Tree α → Tree α
  | .left => rotateLeft
  | .right => rotateRight

end Tree

open RBTree.Tree

/-- The node of a frame. -/
def Frame.plug (f : Frame α) (x : Tree α) : Tree α := Tree.mk f.side f.color x f.item f.sibling

/-- The whole tree of a node and its path. -/
def zip (x : Tree α) : List (Frame α) → Tree α
  | [] => x
  | f :: path => zip (f.plug x) path

/-- **`RB_rebalance`**: the whole tree afterwards. -/
def rebalance : Tree α → List (Frame α) → Tree α
  | x, f :: g :: path =>
    if f.color = .red then
      if g.sibling.isRed then
        rebalance ((Frame.plug { g with color := .red, sibling := g.sibling.setColor .black }
          ((f.plug x).setColor .black))) path
      else
        -- A child on the inner side is rotated to the outer one first.
        let parent := if f.side = g.side then f.plug x else rotate g.side (f.plug x)
        zip (rotate g.side.other (Frame.plug { g with color := .red } (parent.setColor .black)))
          path
    else zip x (f :: g :: path)
  | x, path => zip x path

/-- The last case of the loop in `RB_delete_fixup`, on the subtree of the parent: the sibling `w`
has a red child, and if the outer one is black, `w` is rotated first. -/
def fixupRotate (x : Tree α) (f : Frame α) : Tree α :=
  let w := if (f.sibling.child f.side.other).isRed then f.sibling
    else rotate f.side.other ((f.sibling.setChildColor f.side .black).setColor .red)
  let w := (w.setColor f.color).setChildColor f.side.other .black
  rotate f.side (Frame.plug { f with color := .black, sibling := w } x)

/-- The children of `w` are black, and `w` is a node. -/
def blackChildren (w : Tree α) : Bool :=
  !w.isNil && (!(w.child .left).isRed && !(w.child .right).isRed)

/-- **`RB_delete_fixup`**: the whole tree afterwards. -/
def deleteFixup : Tree α → List (Frame α) → Tree α
  | x, [] => x.setColor .black
  | x, f :: path =>
    if x.isRed then zip (x.setColor .black) (f :: path)
    else match f.sibling with
      | .node .red l a r =>
        -- The parent is rotated to the side of `x`; it is red then, and `w` is above it.
        let w := Tree.node .red l a r
        let g : Frame α := ⟨f.side, .black, a, w.child f.side.other⟩
        let f' : Frame α := ⟨f.side, .red, f.item, w.child f.side⟩
        if blackChildren f'.sibling then
          -- `x` is the parent in the next round, and since it is red the loop ends.
          zip ((Frame.plug { f' with sibling := f'.sibling.setColor .red } x).setColor .black)
            (g :: path)
        else (zip (fixupRotate x f') (g :: path)).setColor .black
      | w =>
        if blackChildren w then
          deleteFixup (Frame.plug { f with sibling := w.setColor .red } x) path
        else (zip (fixupRotate x f) path).setColor .black

/-! ### Nodes -/

/-- **`RB_tree_minimum`** and `RB_tree_maximum`: along the children on one side. -/
def extreme (s : Side) : Tree α → List (Frame α) → Tree α × List (Frame α)
  | .nil, path => (.nil, path)
  | .node c l a r, path => match s with
    | .left =>
      if l.isNil then (.node c l a r, path) else extreme .left l (⟨.left, c, a, r⟩ :: path)
    | .right =>
      if r.isNil then (.node c l a r, path) else extreme .right r (⟨.right, c, a, l⟩ :: path)

/-- Up to the first parent on the other side. -/
def climb (s : Side) : Tree α → List (Frame α) → Option (Tree α × List (Frame α))
  | _, [] => none
  | x, f :: path => if f.side = s then climb s (f.plug x) path else some (f.plug x, path)

/-- **`RB_tree_successor`**, and with the other side `RB_tree_predecessor`. -/
def neighbour (s : Side) : Tree α × List (Frame α) → Option (Tree α × List (Frame α))
  | (.nil, _) => none
  | (.node c l a r, path) => match s with
    | .right => if r.isNil then climb .right (.node c l a r) path
      else some (extreme .left r (⟨.right, c, a, l⟩ :: path))
    | .left => if l.isNil then climb .left (.node c l a r) path
      else some (extreme .right l (⟨.left, c, a, r⟩ :: path))

/-- **`remove_i`**, for the node of which the children and the path are given. -/
def removeNode (c : Color) (l : Tree α) (a : α) (r : Tree α) (path : List (Frame α)) : Tree α :=
  if !l.isNil && !r.isNil then
    match extreme .left r [] with
    | (.node cy ly ay ry, frames) =>
      -- The successor takes the place and the colour of the node.
      let x := if ly.isNil then ry else ly
      let path := frames ++ ⟨.right, c, ay, l⟩ :: path
      if cy = .black then deleteFixup x path else zip x path
    | (.nil, _) => zip (.node c l a r) path
  else
    let x := if l.isNil then r else l
    if c = .black then deleteFixup x path else zip x path

/-! ### Keys -/

/-- **`RB_SearchResult`**. -/
inductive SearchResult
  | left
  | exact
  | right
  deriving DecidableEq

variable (o : WeakOrder κ)

/-- **`find_node`**: the node where the search ends, if the tree is not empty. -/
def findNode (k : κ) : Tree (κ × τ) → List (Frame (κ × τ)) →
    Tree (κ × τ) × List (Frame (κ × τ)) × SearchResult
  | .nil, path => (.nil, path, .left)
  | .node c l a r, path =>
    if o.lt a.1 k then
      if r.isNil then (.node c l a r, path, .left) else findNode k r (⟨.right, c, a, l⟩ :: path)
    else if o.lt k a.1 then
      if l.isNil then (.node c l a r, path, .right) else findNode k l (⟨.left, c, a, r⟩ :: path)
    else (.node c l a r, path, .exact)

/-- **`ACE_RB_Tree`**. -/
structure Map (κ τ : Type*) where
  root : Tree (κ × τ)
  currentSize : ℕ

namespace Map

variable {o}

/-- The tree without nodes. -/
def empty : Map κ τ := ⟨.nil, 0⟩

variable (o)

/-- **`insert_i`**: 1 and the entry of the key, if there is one, and else 0. -/
def insertI (t : Map κ τ) (k : κ) (v : τ) : Map κ τ × Option (κ × τ) :=
  match findNode o k t.root [] with
  | (.nil, _, _) => (⟨.node .black .nil (k, v) .nil, t.currentSize + 1⟩, none)
  | (.node _ _ a _, _, .exact) => (t, some a)
  | (.node c l a _, path, .left) =>
    (⟨(rebalance (.node .red .nil (k, v) .nil) (⟨.right, c, a, l⟩ :: path)).setColor .black,
      t.currentSize + 1⟩, none)
  | (.node c _ a r, path, .right) =>
    (⟨(rebalance (.node .red .nil (k, v) .nil) (⟨.left, c, a, r⟩ :: path)).setColor .black,
      t.currentSize + 1⟩, none)

/-- **`rebind`**: `insert_i`, and the entry of the key is overwritten, if there is one. -/
def rebind (t : Map κ τ) (k : κ) (v : τ) : Map κ τ × Option (κ × τ) :=
  match t.insertI o k v with
  | (t', none) => (t', none)
  | (t', some a) =>
    match findNode o k t.root [] with
    | (.node c l _ r, path, _) => ({ t' with root := zip (.node c l (k, v) r) path }, some a)
    | _ => (t', some a)

/-- **`remove_i`**: 1 and the entry of the key, if there is one, and else 0. -/
def removeI (t : Map κ τ) (k : κ) : Map κ τ × Option (κ × τ) :=
  match findNode o k t.root [] with
  | (.node c l a r, path, .exact) => (⟨removeNode c l a r path, t.currentSize - 1⟩, some a)
  | _ => (t, none)

/-- **`find_i`**. -/
def findI (t : Map κ τ) (k : κ) : Option (κ × τ) :=
  match findNode o k t.root [] with
  | (.node _ _ a _, _, .exact) => some a
  | _ => none

end Map

end AceTao.RBTree
