import AceTao.RBTree.Balance
import AceTao.RBTree.Order
import Mathlib.Algebra.GroupWithZero.Nat
import Mathlib.Data.List.Basic

/-!
# The map

Each operation on the tree does what the same operation does on a sorted list, and the tree stays a
red-black tree whose root is black; so every run of operations gives the results that the list gives
(`Map.run_simulates`), and no path is longer than twice the logarithm of the number of entries.
-/

namespace AceTao.RBTree

open RBTree.Tree Machine

variable {κ τ : Type*} {o : WeakOrder κ} {k : κ} {v : τ}

/-- **The map that a tree stands for.** -/
structure Represents (o : WeakOrder κ) (t : Map κ τ) (l : List (κ × τ)) : Prop where
  items_eq : items t.root = l
  sorted : o.Sorted l
  size_eq : t.currentSize = l.length
  balanced : ∃ m, Balanced .black m t.root

/-- The operations. -/
inductive Event (κ τ : Type*)
  | insert (k : κ) (v : τ)
  | rebind (k : κ) (v : τ)
  | remove (k : κ)
  | find (k : κ)

/-- **A call** on the tree, and the entry of the key that there was. -/
def Map.step (o : WeakOrder κ) (t : Map κ τ) : Event κ τ → Option (Map κ τ × Option (κ × τ))
  | .insert k v => some (t.insertI o k v)
  | .rebind k v => some (t.rebind o k v)
  | .remove k => some (t.removeI o k)
  | .find k => some (t, t.findI o k)

/-- **The same call** on a sorted list. -/
def specStep (o : WeakOrder κ) (l : List (κ × τ)) :
    Event κ τ → Option (List (κ × τ) × Option (κ × τ))
  | .insert k v => some (o.bind k v l, o.lookup k l)
  | .rebind k v => some (o.rebind k v l, o.lookup k l)
  | .remove k => some (o.erase k l, o.lookup k l)
  | .find k => some (l, o.lookup k l)

variable {t : Map κ τ} {l : List (κ × τ)}

theorem represents_empty : Represents o (Map.empty : Map κ τ) [] :=
  ⟨rfl, List.Pairwise.nil, rfl, 0, .nil⟩

/-- **Where the search ends**: the list is split around the key. -/
theorem Represents.findNode (h : Represents o t l) (hne : t.root ≠ .nil) (k : κ) :
    ∃ c x a y path result, RBTree.findNode o k t.root [] = (.node c x a y, path, result) ∧
      zip (.node c x a y) path = t.root ∧
      match result with
        | .exact => o.same a.1 k = true ∧
          l = (before path ++ items x) ++ a :: (items y ++ after path) ∧
          o.Around k (before path ++ items x) (items y ++ after path)
        | .left => y = .nil ∧ l = (before path ++ (items x ++ [a])) ++ after path ∧
          o.Around k (before path ++ (items x ++ [a])) (after path)
        | .right => x = .nil ∧ l = before path ++ (a :: items y ++ after path) ∧
          o.Around k (before path) (a :: items y ++ after path) := by
  have hsorted : o.Sorted (items (zip t.root [])) := h.items_eq ▸ h.sorted
  obtain ⟨c, x, a, y, path, result, hfind, hzip, haround, hresult⟩ :=
    findNode_spec hne hsorted ⟨List.forall_mem_nil _, List.forall_mem_nil _⟩
  have hl : l = before path ++ (items x ++ a :: items y ++ after path) := by
    rw [← h.items_eq, show t.root = zip (.node c x a y) path from hzip.symm, items_zip]
    rfl
  have hplace : o.Around a.1 (before path ++ items x) (items y ++ after path) := by
    have hs := h.sorted
    rw [hl, List.append_assoc, List.cons_append, ← List.append_assoc] at hs
    exact (WeakOrder.sorted_append_cons.mp hs).2.2
  refine ⟨c, x, a, y, path, result, hfind, hzip, ?_⟩
  cases result with
  | exact =>
    refine ⟨hresult, ?_, hplace.congr hresult⟩
    rw [hl]
    simp only [List.append_assoc, List.cons_append]
  | left =>
    obtain ⟨rfl, hlt⟩ := hresult
    refine ⟨rfl, ?_, fun e he => ?_, haround.2⟩
    · rw [hl]
      simp only [items, List.append_assoc, List.cons_append, List.nil_append]
    · rw [← List.append_assoc] at he
      rcases List.mem_append.mp he with he | he
      · exact o.trans _ _ _ (hplace.1 e he) hlt
      · rw [List.mem_singleton.mp he]
        exact hlt
  | right =>
    obtain ⟨rfl, hgt⟩ := hresult
    refine ⟨rfl, ?_, haround.1, fun e he => ?_⟩
    · rw [hl]
      simp only [items, List.nil_append]
    · rw [List.cons_append] at he
      rcases List.mem_cons.mp he with rfl | he
      · exact hgt
      · exact o.trans _ _ _ hgt (hplace.2 e he)

theorem Represents.of_nil (h : Represents o t l) (hnil : t.root = .nil) : l = [] := by
  rw [← h.items_eq, hnil]
  rfl

/-- **A new entry** at the place of its key. -/
theorem Represents.insert {l₁ l₂ : List (κ × τ)} {path : List (Frame (κ × τ))}
    (h : Represents o t (l₁ ++ l₂)) (hk : o.Around k l₁ l₂) (hzip : zip .nil path = t.root)
    (hbefore : before path = l₁) (hafter : after path = l₂) :
    Represents o ⟨(rebalance (.node .red .nil (k, v) .nil) path).setColor .black,
      t.currentSize + 1⟩ (l₁ ++ (k, v) :: l₂) := by
  obtain ⟨m, hm⟩ := h.balanced
  refine ⟨?_, h.sorted.insert hk, ?_, balanced_insert (hzip ▸ hm) _⟩
  · dsimp only
    rw [items_setColor, items_rebalance, items_zip, hbefore, hafter]
    rfl
  · dsimp only
    rw [h.size_eq, List.length_append, List.length_append, List.length_cons]
    omega

/-- **`insert_i`**. -/
theorem Represents.insertI (h : Represents o t l) (k : κ) (v : τ) :
    Represents o (t.insertI o k v).1 (o.bind k v l) ∧ (t.insertI o k v).2 = o.lookup k l := by
  rw [Map.insertI]
  by_cases hnil : t.root = .nil
  · obtain rfl := h.of_nil hnil
    rw [hnil, RBTree.findNode]
    refine ⟨⟨rfl, List.pairwise_singleton _ _, ?_, 1, .black .nil .nil⟩, rfl⟩
    dsimp only
    rw [h.size_eq]
    rfl
  · obtain ⟨c, x, a, y, path, result, hfind, hzip, hresult⟩ := h.findNode hnil k
    rw [hfind]
    cases result with
    | exact =>
      obtain ⟨hsame, hl, hk⟩ := hresult
      rw [hl, WeakOrder.bind_middle hk hsame, WeakOrder.lookup_middle hk hsame, ← hl]
      exact ⟨h, rfl⟩
    | left =>
      obtain ⟨rfl, hl, hk⟩ := hresult
      rw [hl] at h ⊢
      rw [WeakOrder.bind_gap hk, WeakOrder.lookup_gap hk]
      exact ⟨h.insert hk hzip rfl rfl, rfl⟩
    | right =>
      obtain ⟨rfl, hl, hk⟩ := hresult
      rw [hl] at h ⊢
      rw [WeakOrder.bind_gap hk, WeakOrder.lookup_gap hk]
      exact ⟨h.insert hk hzip rfl rfl, rfl⟩

/-- **`rebind`**. -/
theorem Represents.rebind (h : Represents o t l) (k : κ) (v : τ) :
    Represents o (t.rebind o k v).1 (o.rebind k v l) ∧ (t.rebind o k v).2 = o.lookup k l := by
  obtain ⟨hinsert, hentry⟩ := h.insertI k v
  rw [Map.rebind]
  generalize hresult : t.insertI o k v = result at hinsert hentry
  obtain ⟨t', entry⟩ := result
  cases entry with
  | none =>
    dsimp only at hinsert hentry ⊢
    rw [WeakOrder.rebind, ← hentry, if_neg (fun h => by cases h)]
    exact ⟨hinsert, rfl⟩
  | some e =>
    have hne : t.root ≠ .nil := by
      intro hnil
      rw [h.of_nil hnil] at hentry
      cases hentry
    obtain ⟨c, x, a, y, path, result, hfind, hzip, hcases⟩ := h.findNode hne k
    dsimp only
    rw [hfind]
    refine ⟨?_, hentry⟩
    cases result with
    | exact =>
      obtain ⟨hsame, hl, hk⟩ := hcases
      rw [Map.insertI, hfind] at hresult
      obtain rfl : t = t' := congrArg Prod.fst hresult
      obtain ⟨m, hm⟩ := h.balanced
      rw [← hzip] at hm
      rw [hl, WeakOrder.rebind_middle hk hsame]
      refine ⟨?_, ?_, ?_, hm.congr_item (k, v)⟩
      · dsimp only
        rw [items_zip, items]
        simp only [List.append_assoc, List.cons_append]
      · have hsorted := h.sorted
        rw [hl] at hsorted
        exact hsorted.remove.insert hk
      · dsimp only
        rw [h.size_eq, hl]
        simp only [List.length_append, List.length_cons]
    | left =>
      obtain ⟨rfl, hl, hk⟩ := hcases
      rw [hl, WeakOrder.lookup_gap hk] at hentry
      cases hentry
    | right =>
      obtain ⟨rfl, hl, hk⟩ := hcases
      rw [hl, WeakOrder.lookup_gap hk] at hentry
      cases hentry

/-- **The balance after `remove_i`**. -/
theorem balanced_removeNode {α : Type*} {c : Color} {l r : Tree α} {a : α} {path : List (Frame α)}
    {m : ℕ} (h : Balanced .black m (zip (.node c l a r) path)) :
    ∃ m, Balanced .black m (removeNode c l a r path) := by
  rw [removeNode]
  by_cases hboth : (!l.isNil && !r.isNil) = true
  · rw [if_pos hboth]
    rw [Bool.and_eq_true, Bool.not_eq_true', Bool.not_eq_true'] at hboth
    obtain ⟨cy, ay, ry, frames, hextreme, hzip, -⟩ := extreme_spec .left r []
      (fun h => by rw [isNil_iff.mpr h] at hboth; cases hboth.2)
    -- The tree with the item of the successor in the place of the node.
    obtain ⟨m', hm'⟩ := h.congr_item ay
    have hwhole : zip (.node cy .nil ay ry) (frames ++ ⟨.right, c, ay, l⟩ :: path) =
        zip (.node c l ay r) path := by
      rw [zip_append, zip, show zip (.node cy .nil ay ry) frames = r from hzip]
      rfl
    rw [← hwhole] at hm'
    rw [hextreme]
    exact balanced_splice hm' (Or.inr rfl)
  · rw [if_neg hboth]
    refine balanced_splice h ?_
    split_ifs
    · exact Or.inr rfl
    · exact Or.inl rfl

/-- **`remove_i`**. -/
theorem Represents.removeI (h : Represents o t l) (k : κ) :
    Represents o (t.removeI o k).1 (o.erase k l) ∧ (t.removeI o k).2 = o.lookup k l := by
  rw [Map.removeI]
  by_cases hnil : t.root = .nil
  · obtain rfl := h.of_nil hnil
    rw [hnil, RBTree.findNode]
    exact ⟨h, rfl⟩
  · obtain ⟨c, x, a, y, path, result, hfind, hzip, hresult⟩ := h.findNode hnil k
    rw [hfind]
    cases result with
    | exact =>
      obtain ⟨hsame, hl, hk⟩ := hresult
      obtain ⟨m, hm⟩ := h.balanced
      rw [← hzip] at hm
      rw [hl, WeakOrder.erase_middle hk hsame, WeakOrder.lookup_middle hk hsame]
      refine ⟨⟨?_, ?_, ?_, balanced_removeNode hm⟩, rfl⟩
      · exact items_removeNode _ _ _ _ _
      · have hsorted := h.sorted
        rw [hl] at hsorted
        exact hsorted.remove
      · dsimp only
        rw [h.size_eq, hl]
        simp only [List.length_append, List.length_cons]
        omega
    | left =>
      obtain ⟨rfl, hl, hk⟩ := hresult
      rw [hl] at h ⊢
      rw [WeakOrder.erase_gap hk, WeakOrder.lookup_gap hk]
      exact ⟨h, rfl⟩
    | right =>
      obtain ⟨rfl, hl, hk⟩ := hresult
      rw [hl] at h ⊢
      rw [WeakOrder.erase_gap hk, WeakOrder.lookup_gap hk]
      exact ⟨h, rfl⟩

/-- **`find_i`**. -/
theorem Represents.findI (h : Represents o t l) (k : κ) : t.findI o k = o.lookup k l := by
  rw [Map.findI]
  by_cases hnil : t.root = .nil
  · rw [h.of_nil hnil, hnil]
    rfl
  · obtain ⟨c, x, a, y, path, result, hfind, hzip, hresult⟩ := h.findNode hnil k
    rw [hfind]
    cases result with
    | exact =>
      obtain ⟨hsame, hl, hk⟩ := hresult
      rw [hl, WeakOrder.lookup_middle hk hsame]
    | left =>
      obtain ⟨rfl, hl, hk⟩ := hresult
      rw [hl, WeakOrder.lookup_gap hk]
    | right =>
      obtain ⟨rfl, hl, hk⟩ := hresult
      rw [hl, WeakOrder.lookup_gap hk]

/-- **One call.** -/
theorem Represents.step (h : Represents o t l) (e : Event κ τ) :
    Option.Rel (fun p p' => Represents o p.1 p'.1 ∧ p.2 = p'.2) (t.step o e) (specStep o l e) := by
  cases e with
  | insert k v => exact .some (h.insertI k v)
  | rebind k v => exact .some (h.rebind k v)
  | remove k => exact .some (h.removeI k)
  | find k => exact .some ⟨h, h.findI k⟩

theorem length_items {α : Type*} (x : Tree α) : (items x).length = RBTree.size x := by
  induction x with
  | nil => rfl
  | node c l a r ihl ihr =>
    rw [items, RBTree.size, List.length_append, List.length_cons, ihl, ihr]
    rfl

/-- A run on the tree, and the same run on a sorted list. -/
theorem Map.run_represents (o : WeakOrder κ) (events : List (Event κ τ)) :
    ∃ t l results, run (Map.step o) Map.empty events = some (t, results) ∧
      run (specStep o) [] events = some (l, results) ∧ Represents o t l := by
  have hstep : ∀ (t : Map κ τ) (l : List (κ × τ)) (e : Event κ τ), Represents o t l → True →
      Option.Rel (fun p p' => Represents o p.1 p'.1 ∧ p.2 = p'.2) (Map.step o t e)
        (specStep o l e) := fun t l e h _ => h.step e
  have hguard : Guarded (Map.step o) (fun _ _ => True) Map.empty events :=
    guarded_of_forall_mem (fun _ _ _ => trivial) _
  have hlock := run_lockstep hstep (represents_empty (o := o)) hguard
  obtain ⟨t, results, hrun, -⟩ := run_isSome_of_guarded (P := fun _ => True)
    (fun t e _ _ => by cases e <;> exact ⟨_, _, rfl, trivial⟩) trivial hguard
  rw [hrun] at hlock
  generalize hspec : run (specStep o) [] events = spec at hlock
  cases hlock with
  | @some _ pair hpair =>
    obtain ⟨l, results'⟩ := pair
    obtain ⟨h, rfl⟩ := hpair
    exact ⟨t, l, results, hrun, rfl, h⟩

/-- **Every run** on the tree gives what the same run on a sorted list gives, and the tree stays a
red-black tree, of which the height is at most twice the logarithm of the number of entries. -/
theorem Map.run_simulates (o : WeakOrder κ) (events : List (Event κ τ)) :
    ∃ t l results, run (Map.step o) Map.empty events = some (t, results) ∧
      run (specStep o) [] events = some (l, results) ∧ items t.root = l ∧ o.Sorted l ∧
      t.currentSize = l.length ∧ (∃ m, Balanced .black m t.root) ∧
      2 ^ height t.root ≤ (l.length + 1) ^ 2 := by
  obtain ⟨t, l, results, hrun, hspec, h⟩ := Map.run_represents o events
  obtain ⟨m, hm⟩ := h.balanced
  obtain ⟨hheight, hpow⟩ := hm.height_le
  rw [if_neg (fun h => by cases h)] at hheight
  refine ⟨t, l, results, hrun, hspec, h.items_eq, h.sorted, h.size_eq, h.balanced, ?_⟩
  rw [← length_items, h.items_eq] at hpow
  calc 2 ^ height t.root ≤ 2 ^ (2 * m) := Nat.pow_le_pow_right (Nat.succ_pos 1) hheight
    _ = (2 ^ m) ^ 2 := by rw [Nat.mul_comm, Nat.pow_mul]
    _ ≤ (l.length + 1) ^ 2 := Nat.pow_le_pow_left hpow 2

end AceTao.RBTree
