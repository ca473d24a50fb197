import Mathlib.Data.List.Basic
import Mathlib.Data.Nat.Notation

/-!
# Maps as sorted lists

A finite map whose keys are compared by a strict weak order is a list of entries with strictly
ascending keys. Two keys of which neither is below the other are the same key. An operation looks at
a place in the list, with smaller keys before it and greater ones behind it: `lookup_middle`,
`bind_middle`, `erase_middle` and `lookup_gap`, `bind_gap`, `erase_gap` say what it does there, and
are all that an implementation by a search needs.
-/

namespace AceTao

/-- **A strict weak order**, as a function that can be run. -/
structure WeakOrder (κ : Type*) where
  lt : κ → κ → Bool
  irrefl : ∀ a, lt a a = false
  trans : ∀ a b c, lt a b = true → lt b c = true → lt a c = true
  split : ∀ a b c, lt a c = true → lt a b = true ∨ lt b c = true

namespace WeakOrder

variable {κ τ : Type*} (o : WeakOrder κ) {a b c k : κ} {e : κ × τ} {l l₁ l₂ : List (κ × τ)} {v : τ}

/-- Neither key is below the other. -/
def same (a b : κ) : Bool := !o.lt a b && !o.lt b a

theorem asymm (h : o.lt a b = true) : o.lt b a = false := by
  by_contra hba
  rw [Bool.not_eq_false] at hba
  have hirrefl := o.irrefl a
  rw [o.trans a b a h hba] at hirrefl
  cases hirrefl

variable {o}

theorem same_iff : o.same a b = true ↔ o.lt a b = false ∧ o.lt b a = false := by
  rw [same, Bool.and_eq_true, Bool.not_eq_true', Bool.not_eq_true']

theorem not_same_of_lt (h : o.lt a b = true) : o.same a b = false ∧ o.same b a = false := by
  rw [same, same, h, o.asymm h]
  exact ⟨rfl, rfl⟩

theorem lt_of_lt_of_same (h : o.lt a b = true) (hs : o.same b c = true) : o.lt a c = true := by
  rcases o.split a c b h with hac | hcb
  · exact hac
  · rw [(same_iff.mp hs).2] at hcb
    cases hcb

theorem lt_of_same_of_lt (hs : o.same a b = true) (h : o.lt b c = true) : o.lt a c = true := by
  rcases o.split b a c h with hba | hac
  · rw [(same_iff.mp hs).2] at hba
    cases hba
  · exact hac

theorem same_symm (h : o.same a b = true) : o.same b a = true :=
  same_iff.mpr (same_iff.mp h).symm

variable (o)

/-- The keys are strictly ascending. -/
def Sorted (l : List (κ × τ)) : Prop := l.Pairwise fun e e' => o.lt e.1 e'.1 = true

/-- The entry of a key. -/
def lookup (k : κ) (l : List (κ × τ)) : Option (κ × τ) := l.find? fun e => o.same e.1 k

/-- A new entry; an entry that there is for the key is left as it is. -/
def bind (k : κ) (v : τ) (l : List (κ × τ)) : List (κ × τ) :=
  if (o.lookup k l).isSome then l
  else l.takeWhile (fun e => o.lt e.1 k) ++ (k, v) :: l.dropWhile fun e => o.lt e.1 k

/-- A new entry, in the place of that of the key, if there is one. -/
def rebind (k : κ) (v : τ) (l : List (κ × τ)) : List (κ × τ) :=
  if (o.lookup k l).isSome then l.map fun e => if o.same e.1 k then (k, v) else e
  else o.bind k v l

/-- Without the entry of a key. -/
def erase (k : κ) (l : List (κ × τ)) : List (κ × τ) := l.filter fun e => !o.same e.1 k

/-- The place of a key: smaller keys before it, and greater ones behind it. -/
def Around (k : κ) (l₁ l₂ : List (κ × τ)) : Prop :=
  (∀ e ∈ l₁, o.lt e.1 k = true) ∧ ∀ e ∈ l₂, o.lt k e.1 = true

variable {o}

theorem sorted_append_cons : o.Sorted (l₁ ++ e :: l₂) ↔
    o.Sorted l₁ ∧ o.Sorted l₂ ∧ o.Around e.1 l₁ l₂ := by
  rw [Sorted, List.pairwise_append, List.pairwise_cons]
  constructor
  · rintro ⟨h₁, ⟨h, h₂⟩, h₁₂⟩
    exact ⟨h₁, h₂, fun x hx => h₁₂ x hx e List.mem_cons_self, h⟩
  · rintro ⟨h₁, h₂, h, h'⟩
    refine ⟨h₁, ⟨h', h₂⟩, fun x hx y hy => ?_⟩
    rcases List.mem_cons.mp hy with rfl | hy
    · exact h x hx
    · exact o.trans _ _ _ (h x hx) (h' y hy)

theorem Sorted.insert (h : o.Sorted (l₁ ++ l₂)) (hk : o.Around k l₁ l₂) :
    o.Sorted (l₁ ++ (k, v) :: l₂) := by
  obtain ⟨h₁, h₂, -⟩ := List.pairwise_append.mp h
  exact sorted_append_cons.mpr ⟨h₁, h₂, hk⟩

theorem Sorted.remove (h : o.Sorted (l₁ ++ e :: l₂)) : o.Sorted (l₁ ++ l₂) :=
  List.Pairwise.sublist ((List.sublist_cons_self _ _).append_left _) h

/-- The place of an entry is that of its key, and of each key that is the same. -/
theorem Around.congr (h : o.Around a l₁ l₂) (hs : o.same a k = true) : o.Around k l₁ l₂ :=
  ⟨fun e he => lt_of_lt_of_same (h.1 e he) hs,
    fun e he => lt_of_same_of_lt (same_symm hs) (h.2 e he)⟩

/-! ### A key that is in the list -/

theorem not_same_left (h : o.Around k l₁ l₂) {x : κ × τ} (hx : x ∈ l₁) : o.same x.1 k = false :=
  (not_same_of_lt (h.1 x hx)).1

theorem not_same_right (h : o.Around k l₁ l₂) {x : κ × τ} (hx : x ∈ l₂) : o.same x.1 k = false :=
  (not_same_of_lt (h.2 x hx)).2

theorem lookup_middle (h : o.Around k l₁ l₂) (he : o.same e.1 k = true) :
    o.lookup k (l₁ ++ e :: l₂) = some e := by
  rw [lookup, List.find?_append, List.find?_eq_none.mpr, Option.none_or, List.find?_cons, he]
  intro x hx
  rw [not_same_left h hx]
  exact Bool.false_ne_true

theorem bind_middle (h : o.Around k l₁ l₂) (he : o.same e.1 k = true) :
    o.bind k v (l₁ ++ e :: l₂) = l₁ ++ e :: l₂ := by
  rw [bind, lookup_middle h he, if_pos Option.isSome_some]

theorem rebind_middle (h : o.Around k l₁ l₂) (he : o.same e.1 k = true) :
    o.rebind k v (l₁ ++ e :: l₂) = l₁ ++ (k, v) :: l₂ := by
  rw [rebind, lookup_middle h he, if_pos Option.isSome_some, List.map_append, List.map_cons,
    if_pos he]
  congr 1
  · refine (List.map_congr_left fun x hx => ?_).trans (List.map_id _)
    rw [not_same_left h hx]
    rfl
  · refine congrArg _ ((List.map_congr_left fun x hx => ?_).trans (List.map_id _))
    rw [not_same_right h hx]
    rfl

theorem erase_middle (h : o.Around k l₁ l₂) (he : o.same e.1 k = true) :
    o.erase k (l₁ ++ e :: l₂) = l₁ ++ l₂ := by
  rw [erase, List.filter_append, List.filter_cons_of_neg (by rw [he]; exact Bool.false_ne_true),
    List.filter_eq_self.mpr, List.filter_eq_self.mpr]
  · intro x hx
    rw [not_same_right h hx]
    rfl
  · intro x hx
    rw [not_same_left h hx]
    rfl

/-! ### A key that is not in the list -/

theorem lookup_gap (h : o.Around k l₁ l₂) : o.lookup k (l₁ ++ l₂) = none := by
  rw [lookup, List.find?_eq_none]
  intro x hx
  rcases List.mem_append.mp hx with hx | hx
  · rw [not_same_left h hx]
    exact Bool.false_ne_true
  · rw [not_same_right h hx]
    exact Bool.false_ne_true

theorem bind_gap (h : o.Around k l₁ l₂) : o.bind k v (l₁ ++ l₂) = l₁ ++ (k, v) :: l₂ := by
  have hhead : ∀ x ∈ l₂.head?, ¬ o.lt x.1 k = true := by
    intro x hx
    rw [o.asymm (h.2 x (List.mem_of_mem_head? hx))]
    exact Bool.false_ne_true
  have hdrop : l₂.takeWhile (fun e => o.lt e.1 k) = [] ∧
      l₂.dropWhile (fun e => o.lt e.1 k) = l₂ := by
    cases l₂ with
    | nil => exact ⟨rfl, rfl⟩
    | cons x l₂ =>
      have hx := hhead x rfl
      exact ⟨List.takeWhile_cons_of_neg hx, List.dropWhile_cons_of_neg hx⟩
  rw [bind, lookup_gap h, if_neg (fun hsome => by cases hsome),
    List.takeWhile_append_of_pos h.1, List.dropWhile_append_of_pos h.1, hdrop.1, hdrop.2,
    List.append_nil]

theorem erase_gap (h : o.Around k l₁ l₂) : o.erase k (l₁ ++ l₂) = l₁ ++ l₂ := by
  rw [erase, List.filter_eq_self]
  intro x hx
  rcases List.mem_append.mp hx with hx | hx
  · rw [not_same_left h hx]
    rfl
  · rw [not_same_right h hx]
    rfl

end WeakOrder

end AceTao
