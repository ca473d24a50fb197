import AceTao.TimerHeap.Basic

/-!
# `ACE_Timer_Heap_T`: sifting

What `reheap_up` and `reheap_down` do to the two arrays. While a node is in the hand and
its slot is a hole, `AceTao.TimerHeap.view` is the array with the node put into the hole.
One iteration of either loop swaps two entries of the view and moves the hole along
(`AceTao.TimerHeap.Sifting.copy`), so the loops permute the used slots, keep every id
pointing at its node and touch no other id (`AceTao.TimerHeap.Sifted`). The order of the
times is the library's: `AceTao.TimerHeap.reheapUp_ordered` and
`AceTao.TimerHeap.reheapDown_ordered`.
-/

namespace AceTao

namespace TimerHeap

open BinaryHeap (parent parent_lt parent_eq_iff Ordered OrderedUp OrderedDown)

variable {α β : Type} {s s' : TimerHeap α β} {m : TimerNode α β} {n slot c : ℕ}

/-- The times of an array of nodes. -/
def times (f : ℕ → TimerNode α β) (i : ℕ) : TimeValue := (f i).timerValue

/-- The array with the node in the hand put into the hole. -/
def view (s : TimerHeap α β) (slot : ℕ) (m : TimerNode α β) : ℕ → TimerNode α β :=
  Function.update s.heap slot m

@[simp] theorem view_self : s.view slot m slot = m := Function.update_self ..

theorem view_of_ne {i : ℕ} (h : i ≠ slot) : s.view slot m i = s.heap i :=
  Function.update_of_ne h ..

/-- Two used slots never hold nodes of the same id. -/
def DistinctIds (f : ℕ → TimerNode α β) (n : ℕ) : Prop :=
  ∀ i j, i < n → j < n → (f i).timerId.toNat = (f j).timerId.toNat → i = j

/-- **During a sift**: the hole is a used slot, and the id of every other node points at
it. -/
structure Sifting (s : TimerHeap α β) (n slot : ℕ) (m : TimerNode α β) : Prop where
  slot_lt : slot < n
  distinct : DistinctIds (s.view slot m) n
  located : ∀ i, i < n → i ≠ slot → s.timerIds (s.heap i).timerId.toNat = i

/-- **After a sift** of the view `f`: the used slots are permuted, every id points at its
node, and the ids of other nodes are as they were. -/
structure Sifted (s s' : TimerHeap α β) (n : ℕ) (f : ℕ → TimerNode α β) : Prop where
  perm : ∃ σ : Equiv.Perm ℕ, (∀ i, n ≤ i → σ i = i) ∧ s'.heap = f ∘ σ
  located : ∀ i, i < n → s'.timerIds (s'.heap i).timerId.toNat = i
  frame : ∀ k, (∀ i, i < n → (f i).timerId.toNat ≠ k) → s'.timerIds k = s.timerIds k
  rest : s' = { s with heap := s'.heap, timerIds := s'.timerIds }

/-! ### One iteration -/

/-- Moving the node of slot `c` into the hole swaps two entries of the view. -/
theorem view_copy (hc : c ≠ slot) :
    (s.copy slot (s.heap c)).view c m = s.view slot m ∘ Equiv.swap slot c := by
  funext i
  simp only [view, copy, Function.comp_apply]
  rcases eq_or_ne i c with rfl | hic
  · rw [Function.update_self, Equiv.swap_apply_right, Function.update_self]
  rcases eq_or_ne i slot with rfl | his
  · rw [Function.update_of_ne hic, Function.update_self, Equiv.swap_apply_left,
      Function.update_of_ne hc]
  · rw [Function.update_of_ne hic, Function.update_of_ne his,
      Equiv.swap_apply_of_ne_of_ne his hic, Function.update_of_ne his]

/-- A swap of used slots stays below the bound. -/
theorem swap_lt {i : ℕ} (hs : slot < n) (hc : c < n) (hi : i < n) : Equiv.swap slot c i < n := by
  rw [Equiv.swap_apply_def]
  split_ifs <;> assumption

/-- **The hole moves along**: one iteration of either loop. -/
theorem Sifting.copy (h : Sifting s n slot m) (hc : c < n) (hne : c ≠ slot) :
    Sifting (s.copy slot (s.heap c)) n c m := by
  refine ⟨hc, ?_, ?_⟩
  · rw [view_copy hne]
    intro i j hi hj hij
    exact (Equiv.swap slot c).injective
      (h.distinct _ _ (swap_lt h.slot_lt hc hi) (swap_lt h.slot_lt hc hj) hij)
  · intro i hi hic
    simp only [TimerHeap.copy]
    rcases eq_or_ne i slot with rfl | his
    · rw [Function.update_self, Function.update_self]
    · rw [Function.update_of_ne his]
      rw [Function.update_of_ne]
      · exact h.located i hi his
      · intro hid
        refine hic (h.distinct i c hi hc ?_)
        rw [view_of_ne his, view_of_ne hne, hid]

/-- The node drops into the hole. -/
theorem Sifting.done (h : Sifting s n slot m) :
    Sifted s (s.copy slot m) n (s.view slot m) where
  perm := ⟨Equiv.refl ℕ, fun _ _ => rfl, rfl⟩
  located i hi := by
    simp only [TimerHeap.copy]
    rcases eq_or_ne i slot with rfl | his
    · rw [Function.update_self, Function.update_self]
    · rw [Function.update_of_ne his, Function.update_of_ne]
      · exact h.located i hi his
      · intro hid
        refine his (h.distinct i slot hi h.slot_lt ?_)
        rw [view_of_ne his, view_self, hid]
  frame k hk := by
    have hm := hk slot h.slot_lt
    rw [view_self] at hm
    exact Function.update_of_ne hm.symm ..
  rest := rfl

/-- What the rest of a loop does after an iteration, seen from before the iteration. -/
theorem Sifted.of_copy (h : Sifted (s.copy slot (s.heap c)) s' n (s.view slot m ∘ Equiv.swap slot c))
    (hs : slot < n) (hc : c < n) (hne : c ≠ slot) : Sifted s s' n (s.view slot m) where
  perm := by
    obtain ⟨σ, hσ, heq⟩ := h.perm
    refine ⟨σ.trans (Equiv.swap slot c), fun i hi => ?_, ?_⟩
    · rw [Equiv.trans_apply, hσ i hi, Equiv.swap_apply_of_ne_of_ne (by omega) (by omega)]
    · rw [heq]
      rfl
  located := h.located
  frame k hk := by
    have hc' := hk c hc
    rw [view_of_ne hne] at hc'
    rw [h.frame k fun i hi => hk _ (swap_lt hs hc hi)]
    exact Function.update_of_ne hc'.symm ..
  rest := h.rest

/-! ### `reheap_up` -/

/-- **`reheap_up` is a sift.** -/
theorem reheapUp_sifted (h : Sifting s n slot m) :
    Sifted s (s.reheapUp m slot) n (s.view slot m) := by
  induction slot, s using reheapUp.induct m with
  | case1 slot s hpos hlt ih =>
    have hp : heapParent slot < slot := heapParent_eq slot ▸ parent_lt hpos
    have hn := h.slot_lt
    rw [reheapUp, if_pos hpos, if_pos hlt]
    refine Sifted.of_copy ?_ hn (hp.trans hn) hp.ne
    rw [← view_copy hp.ne]
    exact ih (h.copy (hp.trans hn) hp.ne)
  | case2 slot s hpos hlt =>
    rw [reheapUp, if_pos hpos, if_neg hlt]
    exact h.done
  | case3 slot s hpos =>
    rw [reheapUp, if_neg hpos]
    exact h.done

/-- **`reheap_up` restores the order** when the node has to climb. -/
theorem reheapUp_ordered (hn : slot < n) (h : OrderedUp (times (s.view slot m)) n slot) :
    Ordered (times (s.reheapUp m slot).heap) n := by
  induction slot, s using reheapUp.induct m with
  | case1 slot s hpos hlt ih =>
    rw [heapParent_eq] at *
    have hp := parent_lt hpos
    rw [reheapUp, if_pos hpos, heapParent_eq, if_pos hlt]
    refine ih (hp.trans hn) ?_
    rw [view_copy hp.ne]
    refine h.swap hpos hn ?_
    simp only [times, view_self, view_of_ne hp.ne]
    exact hlt
  | case2 slot s hpos hlt =>
    rw [heapParent_eq] at hlt
    rw [reheapUp, if_pos hpos, heapParent_eq, if_neg hlt]
    refine h.done (Or.inr ?_)
    simp only [times, view_self, view_of_ne (parent_lt hpos).ne]
    exact not_lt.mp hlt
  | case3 slot s hpos =>
    rw [reheapUp, if_neg hpos]
    exact h.done (Or.inl (by omega))

/-! ### `reheap_down` -/

/-- The smaller child is a used child of the slot, below every other one. -/
theorem smallerChild_spec (h : heapLchild slot < s.curSize) :
    let child := s.smallerChild (heapLchild slot)
    slot < child ∧ child < s.curSize ∧ parent child = slot ∧
      ∀ i, 0 < i → i < s.curSize → parent i = slot →
        (s.heap child).timerValue ≤ (s.heap i).timerValue := by
  unfold smallerChild heapLchild at *
  split
  case isTrue hc =>
    refine ⟨by omega, by omega, (parent_eq_iff (by omega)).mpr (by omega), ?_⟩
    intro i hpos hi hpar
    rcases (parent_eq_iff hpos).mp hpar with rfl | rfl
    · rw [two_mul]
      exact hc.2.le
    · rw [two_mul]
  case isFalse hc =>
    refine ⟨by omega, by omega, (parent_eq_iff (by omega)).mpr (by omega), ?_⟩
    intro i hpos hi hpar
    rcases (parent_eq_iff hpos).mp hpar with rfl | rfl
    · rw [two_mul]
    · rw [two_mul] at *
      exact not_lt.mp fun hlt => hc ⟨hi, hlt⟩

/-- **`reheap_down` is a sift.** -/
theorem reheapDown_sifted (h : Sifting s s.curSize slot m) :
    Sifted s (s.reheapDown m slot) s.curSize (s.view slot m) := by
  induction slot, s using reheapDown.induct m with
  | case1 slot s hc child hlt ih =>
    obtain ⟨hsc, hcn, -, -⟩ := smallerChild_spec hc
    rw [reheapDown, if_pos hc]
    dsimp only
    rw [if_pos hlt]
    refine Sifted.of_copy ?_ h.slot_lt hcn hsc.ne'
    rw [← view_copy hsc.ne']
    exact ih (h.copy hcn hsc.ne')
  | case2 slot s hc child hlt =>
    rw [reheapDown, if_pos hc]
    dsimp only
    rw [if_neg hlt]
    exact h.done
  | case3 slot s hc =>
    rw [reheapDown, if_neg hc]
    exact h.done

/-- **`reheap_down` restores the order** when the node has to sink. -/
theorem reheapDown_ordered (h : OrderedDown (times (s.view slot m)) s.curSize slot) :
    Ordered (times (s.reheapDown m slot).heap) s.curSize := by
  induction slot, s using reheapDown.induct m with
  | case1 slot s hc child hlt ih =>
    obtain ⟨hsc, hcn, hpar, hmin⟩ := smallerChild_spec hc
    rw [reheapDown, if_pos hc]
    dsimp only
    rw [if_pos hlt]
    refine ih ?_
    rw [view_copy hsc.ne']
    refine h.swap (by omega) hcn hpar (fun i hpos hi hpi => ?_) ?_
    · have hlti := parent_lt hpos
      simp only [times, view_of_ne hsc.ne', view_of_ne (show i ≠ slot by omega)]
      exact hmin i hpos hi hpi
    · simp only [times, view_self, view_of_ne hsc.ne']
      exact hlt
  | case2 slot s hc child hlt =>
    obtain ⟨hsc, hcn, hpar, hmin⟩ := smallerChild_spec hc
    rw [reheapDown, if_pos hc]
    dsimp only
    rw [if_neg hlt]
    refine h.done fun i hpos hi hpi => ?_
    have hlti := parent_lt hpos
    simp only [times, view_self, view_of_ne (show i ≠ slot by omega)]
    exact (not_lt.mp hlt).trans (hmin i hpos hi hpi)
  | case3 slot s hc =>
    rw [reheapDown, if_neg hc]
    refine h.done fun i hpos hi hpi => ?_
    have := (parent_eq_iff hpos).mp hpi
    unfold heapLchild at hc
    omega

end TimerHeap

end AceTao
