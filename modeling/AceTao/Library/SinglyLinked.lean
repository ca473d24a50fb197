import Mathlib.Data.List.Nodup
import Mathlib.Logic.Function.Basic

/-!
# Singly linked lists in memory

The nodes of a list are at addresses, and each has one link: `next a` is the link of the node at
`a`, an address or null.

* `SinglyLinked.Segment`: the nodes at the addresses of a list are linked one to the next, and the
  last one to a given end. Segments are joined (`segment_append`), a node is put behind another one
  (`Segment.insert`) and the node behind another one is taken out (`Segment.remove`).
* `SinglyLinked.walk`: a loop that follows the links, with a body that may break out of it. It goes
  on for a given number of nodes at most; nodes that are linked in a circle have no end. Along a
  segment a walk does what `visit` does along the list (`walk_eq`).
-/

namespace SinglyLinked

variable {A β γ : Type*}

/-- **Linked nodes**: each one of `l` is linked to the next, and the last one to `q`. -/
def Segment (next : A → Option A) : List A → Option A → Prop
  | [], _ => True
  | a :: l, q => next a = l.head?.or q ∧ Segment next l q

variable {next next' : A → Option A} {a b : A} {l l₁ l₂ : List A} {q : Option A}

@[simp] theorem segment_nil : Segment next [] q := trivial

@[simp] theorem segment_cons :
    Segment next (a :: l) q ↔ next a = l.head?.or q ∧ Segment next l q := Iff.rfl

/-- **Segments are joined** where the first one ends in the head of the second. -/
theorem segment_append :
    Segment next (l₁ ++ l₂) q ↔ Segment next l₁ (l₂.head?.or q) ∧ Segment next l₂ q := by
  induction l₁ with
  | nil => simp
  | cons a l₁ ih => rw [List.cons_append, segment_cons, segment_cons, ih, List.head?_append,
      Option.or_assoc, and_assoc]

/-- Only the links of its nodes matter. -/
theorem Segment.congr (h : Segment next l q) (heq : ∀ x ∈ l, next' x = next x) :
    Segment next' l q := by
  induction l with
  | nil => trivial
  | cons a l ih =>
    obtain ⟨ha, hl⟩ := h
    exact ⟨(heq a (by simp)).trans ha, ih hl fun x hx => heq x (by simp [hx])⟩

section Update

variable [DecidableEq A]

/-- The link of another node may change. -/
theorem Segment.update (h : Segment next l q) (ha : a ∉ l) (x : Option A) :
    Segment (Function.update next a x) l q :=
  h.congr fun _ hy => Function.update_of_ne (ne_of_mem_of_not_mem hy ha) _ _

/-- **A node is put behind another one.** -/
theorem Segment.insert (h : Segment next (l₁ ++ a :: l₂) q) (hnodup : (l₁ ++ a :: l₂).Nodup)
    (hb : b ∉ l₁ ++ a :: l₂) :
    Segment (Function.update (Function.update next b (next a)) a (some b))
      (l₁ ++ a :: b :: l₂) q := by
  obtain ⟨h₁, ha, h₂⟩ := segment_append.mp h
  simp only [List.mem_append, List.mem_cons, not_or] at hb
  obtain ⟨-, hcons, hdisj⟩ := List.nodup_append.mp hnodup
  have ha₁ : a ∉ l₁ := fun hmem => hdisj a hmem a (by simp) rfl
  have ha₂ : a ∉ l₂ := (List.nodup_cons.mp hcons).1
  refine segment_append.mpr ⟨(h₁.update hb.1 _).update ha₁ _, ?_, ?_, ?_⟩
  · simp
  · rw [Function.update_of_ne hb.2.1, Function.update_self, ha]
  · exact (h₂.update hb.2.2 _).update ha₂ _

/-- **The node behind another one is taken out.** -/
theorem Segment.remove (h : Segment next (l₁ ++ a :: b :: l₂) q)
    (hnodup : (l₁ ++ a :: b :: l₂).Nodup) :
    Segment (Function.update next a (next b)) (l₁ ++ a :: l₂) q := by
  obtain ⟨h₁, -, hb, h₂⟩ := segment_append.mp h
  obtain ⟨-, hcons, hdisj⟩ := List.nodup_append.mp hnodup
  have ha₁ : a ∉ l₁ := fun hmem => hdisj a hmem a (by simp) rfl
  have ha₂ : a ∉ l₂ := fun hmem => (List.nodup_cons.mp hcons).1 (by simp [hmem])
  refine segment_append.mpr ⟨h₁.update ha₁ _, ?_, h₂.update ha₂ _⟩
  rw [Function.update_self, hb]

end Update

/-! ### Loops along the links -/

/-- **A loop along the links** from `p`, through `n` nodes at most. The body goes on with a new
value, or it breaks out of the loop with a result. -/
def walk (next : A → Option A) (body : β → A → β ⊕ γ) : ℕ → Option A → β → Option (β ⊕ γ)
  | _, none, x => some (.inl x)
  | 0, some _, _ => none
  | n + 1, some a, x =>
    match body x a with
    | .inl x' => walk next body n (next a) x'
    | .inr y => some (.inr y)

/-- The same loop along a list. -/
def visit (body : β → A → β ⊕ γ) : List A → β → β ⊕ γ
  | [], x => .inl x
  | a :: l, x =>
    match body x a with
    | .inl x' => visit body l x'
    | .inr y => .inr y

/-- **A walk along linked nodes visits the list**, when it may go through that many nodes. -/
theorem walk_eq {body : β → A → β ⊕ γ} (h : Segment next l none) {n : ℕ} (hn : l.length ≤ n)
    (x : β) : walk next body n l.head? x = some (visit body l x) := by
  induction l generalizing n x with
  | nil => rw [List.head?_nil, walk, visit]
  | cons a l ih =>
    obtain ⟨ha, hl⟩ := h
    obtain ⟨n, rfl⟩ : ∃ m, n = m + 1 := ⟨n - 1, by simp only [List.length_cons] at hn; omega⟩
    rw [List.head?_cons, walk, visit]
    rcases body x a with x' | y
    · have hnext : next a = l.head? := by rw [ha, Option.or_none]
      simp only
      rw [hnext]
      exact ih hl (by simpa using hn) x'
    · rfl

end SinglyLinked
