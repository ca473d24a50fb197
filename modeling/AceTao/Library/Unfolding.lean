import Mathlib.Data.List.Forall2

/-!
# Unfoldings of graphs

The nodes of a graph have a *shape* and a list of *children*. The unfolding of a node is the tree,
infinite if there is a cycle, that is found by following the children: at each path from the node it
has the shape of the node at its end, if there is one (`Unfolding.observe`). Two nodes agree if they
have the same unfolding.

* `Unfolding.Agree.forall₂` goes from nodes to their children;
* `Unfolding.AgreeTo.step` goes back, for unfoldings to a depth, and `Unfolding.agree_iff` says that
  agreement is agreement to every depth: so what holds of two nodes and is inherited by their
  children can be shown to be agreement by induction on the depth.
-/

namespace Unfolding

variable {ν σ : Type*} {shape : ν → σ} {children : ν → List ν} {x y z : ν} {n : ℕ}

/-- **The unfolding**: the shape at the end of a path, each step of which picks a child. -/
def observe (shape : ν → σ) (children : ν → List ν) : List ℕ → ν → Option σ
  | [], x => some (shape x)
  | i :: path, x => (children x)[i]?.bind (observe shape children path)

/-- **Two nodes agree**: they have the same unfolding. -/
def Agree (shape : ν → σ) (children : ν → List ν) (x y : ν) : Prop :=
  ∀ path, observe shape children path x = observe shape children path y

/-- To a depth. -/
def AgreeTo (shape : ν → σ) (children : ν → List ν) (n : ℕ) (x y : ν) : Prop :=
  ∀ path, path.length < n → observe shape children path x = observe shape children path y

theorem agree_iff : Agree shape children x y ↔ ∀ n, AgreeTo shape children n x y :=
  ⟨fun h _ path _ => h path, fun h path => h _ path (Nat.lt_succ_self _)⟩

theorem Agree.refl (x : ν) : Agree shape children x x := fun _ => rfl

theorem Agree.symm (h : Agree shape children x y) : Agree shape children y x :=
  fun path => (h path).symm

theorem AgreeTo.trans (h : AgreeTo shape children n x y) (h' : Agree shape children y z) :
    AgreeTo shape children n x z := fun path hlt => (h path hlt).trans (h' path)

theorem AgreeTo.mono {m : ℕ} (h : AgreeTo shape children n x y) (hle : m ≤ n) :
    AgreeTo shape children m x y := fun path hlt => h path (Nat.lt_of_lt_of_le hlt hle)

theorem agreeTo_zero : AgreeTo shape children 0 x y := fun _ hlt => absurd hlt (Nat.not_lt_zero _)

/-- Nodes of one shape with the same children agree. -/
theorem agree_of_eq (hshape : shape x = shape y) (hchildren : children x = children y) :
    Agree shape children x y
  | [] => congrArg some hshape
  | i :: path => by rw [observe, observe, hchildren]

/-! ### Children -/

theorem Agree.shape_eq (h : Agree shape children x y) : shape x = shape y := Option.some.inj (h [])

/-- **The children of nodes that agree** agree. -/
theorem Agree.forall₂ (h : Agree shape children x y) :
    List.Forall₂ (Agree shape children) (children x) (children y) := by
  have hget (i : ℕ) (path : List ℕ) : (children x)[i]?.bind (observe shape children path) =
      (children y)[i]?.bind (observe shape children path) := h (i :: path)
  have hsome (i : ℕ) : (children x)[i]?.isSome = (children y)[i]?.isSome := by
    have hi := congrArg Option.isSome (hget i [])
    rwa [Option.isSome_bind, Option.isSome_bind] at hi
  have hlength : (children x).length = (children y).length := by
    refine Nat.le_antisymm (Nat.le_of_not_lt fun hlt => ?_) (Nat.le_of_not_lt fun hlt => ?_)
    · have hi := hsome (children y).length
      rw [List.getElem?_eq_getElem hlt, List.getElem?_eq_none (Nat.le_refl _)] at hi
      cases hi
    · have hi := hsome (children x).length
      rw [List.getElem?_eq_getElem hlt, List.getElem?_eq_none (Nat.le_refl _)] at hi
      cases hi
  refine List.forall₂_iff_get.mpr ⟨hlength, fun i hx hy path => ?_⟩
  have hi := hget i path
  rw [List.getElem?_eq_getElem hx, List.getElem?_eq_getElem hy] at hi
  exact hi

/-- **Nodes of one shape whose children agree** to a depth agree to one more. -/
theorem AgreeTo.step (hshape : shape x = shape y)
    (hchildren : List.Forall₂ (AgreeTo shape children n) (children x) (children y)) :
    AgreeTo shape children (n + 1) x y := by
  intro path hlt
  cases path with
  | nil => exact congrArg some hshape
  | cons i path =>
    have hpath : path.length < n := Nat.lt_of_succ_lt_succ hlt
    obtain ⟨hlength, hget⟩ := List.forall₂_iff_get.mp hchildren
    rw [observe, observe]
    by_cases hx : i < (children x).length
    · have hy : i < (children y).length := hlength ▸ hx
      rw [List.getElem?_eq_getElem hx, List.getElem?_eq_getElem hy]
      exact hget i hx hy path hpath
    · have hy : ¬i < (children y).length := hlength ▸ hx
      rw [List.getElem?_eq_none (Nat.not_lt.mp hx), List.getElem?_eq_none (Nat.not_lt.mp hy)]

/-! ### Reachability -/

/-- **A node is reached** from another by following children. -/
inductive Reaches (children : ν → List ν) : ν → ν → Prop
  | refl (x : ν) : Reaches children x x
  | tail {x y z : ν} (h : Reaches children x y) (hz : z ∈ children y) : Reaches children x z

end Unfolding
