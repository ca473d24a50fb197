import Mathlib.Data.Finset.Card
import AceTao.TimerHeap.Sift

/-!
# `ACE_Timer_Heap_T`: taking a node out and putting one in

What `remove` and `insert` do to a timer heap whose two arrays point at each other
(`AceTao.TimerHeap.Linked`), said once for all the operations built on them:
`AceTao.TimerHeap.remove_spec` and `AceTao.TimerHeap.reheapUp_spec`. Both are stated over
the multiset of the nodes in the heap, `AceTao.TimerHeap.nodes`, so that what becomes of
the ids can be followed without following the slots.
-/

namespace AceTao

namespace TimerHeap

open BinaryHeap (parent parent_lt Ordered OrderedUp OrderedDown)

variable {α β : Type} {s s' : TimerHeap α β} {nd : TimerNode α β} {n slot : ℕ}

/-- The nodes in the heap. -/
def nodes (s : TimerHeap α β) : Multiset (TimerNode α β) :=
  (Multiset.range s.curSize).map s.heap

theorem mem_nodes : nd ∈ s.nodes ↔ ∃ i, i < s.curSize ∧ s.heap i = nd := by
  simp [nodes]

theorem heap_mem_nodes {i : ℕ} (h : i < s.curSize) : s.heap i ∈ s.nodes :=
  mem_nodes.mpr ⟨i, h, rfl⟩

@[simp] theorem card_nodes : s.nodes.card = s.curSize := by
  simp [nodes]

/-- **The two arrays point at each other**: every node of the heap has an id in range, its
id points at its slot, and an id that points at a slot is the id of the node there. -/
structure Linked (s : TimerHeap α β) : Prop where
  range : ∀ nd ∈ s.nodes, 0 ≤ nd.timerId ∧ nd.timerId < s.maxSize
  located : ∀ i, i < s.curSize → s.timerIds (s.heap i).timerId.toNat = i
  inverse : ∀ k, k < s.maxSize → 0 ≤ s.timerIds k →
    ∃ i, i < s.curSize ∧ s.timerIds k = i ∧ (s.heap i).timerId = k

/-- The heap order of the used slots. -/
def HeapOrdered (s : TimerHeap α β) : Prop := Ordered (times s.heap) s.curSize

/-- Ids that point back are distinct. -/
theorem Linked.distinct (h : Linked s) : DistinctIds s.heap s.curSize := by
  intro i j hi hj hij
  have hi' := h.located i hi
  rw [hij, h.located j hj] at hi'
  exact_mod_cast hi'.symm

/-! ### `remove` -/

theorem times_update {f : ℕ → TimerNode α β} {x : TimerNode α β} :
    times (Function.update f slot x) = Function.update (times f) slot x.timerValue := by
  funext i
  simp only [times, Function.update_apply]
  split <;> rfl

theorem view_copy_self {m : TimerNode α β} :
    (s.copy slot m).view slot m = Function.update s.heap slot m := by
  simp only [view, copy, Function.update_idem]

/-- **What `remove` does**: a node leaves the heap, its id is marked `-2`, the ids of the
others still point at them, and no other id changes. -/
structure Removed (s s' : TimerHeap α β) (nd : TimerNode α β) : Prop where
  nodes : nd ::ₘ s'.nodes = s.nodes
  located : ∀ i, i < s'.curSize → s'.timerIds (s'.heap i).timerId.toNat = i
  limbo : s'.timerIds nd.timerId.toNat = -2
  frame : ∀ k, (∀ nd' ∈ s.nodes, nd'.timerId.toNat ≠ k) → s'.timerIds k = s.timerIds k
  rest : s' = { s with
    curSize := s.curSize - 1, curLimbo := s.curLimbo + 1, heap := s'.heap,
    timerIds := s'.timerIds }

/-- The last node in the place of a removed one: the sift that closes the gap starts. -/
theorem Linked.sifting (h : Linked s) (hn : s.curSize = n + 1) (hs : slot < n) :
    Sifting (({ s with curSize := n } : TimerHeap α β).copy slot (s.heap n)) n slot
      (s.heap n) where
  slot_lt := hs
  distinct := by
    rw [view_copy_self]
    intro i j hi hj hij
    rcases eq_or_ne i slot with his | his <;> rcases eq_or_ne j slot with hjs | hjs
    · rw [his, hjs]
    · rw [his, Function.update_self, Function.update_of_ne hjs] at hij
      have := h.distinct n j (by omega) (by omega) hij
      omega
    · rw [hjs, Function.update_self, Function.update_of_ne his] at hij
      have := h.distinct i n (by omega) (by omega) hij
      omega
    · rw [Function.update_of_ne his, Function.update_of_ne hjs] at hij
      exact h.distinct i j (by omega) (by omega) hij
  located := by
    intro i hi his
    simp only [copy]
    rw [Function.update_of_ne his, Function.update_of_ne]
    · exact h.located i (by omega)
    · intro hid
      have := h.distinct i n (by omega) (by omega) hid
      omega

/-- What closing the gap does. -/
structure Filled (s t : TimerHeap α β) (n slot : ℕ) : Prop where
  nodes : s.heap slot ::ₘ (Multiset.range n).map t.heap = s.nodes
  located : ∀ i, i < n → t.timerIds (t.heap i).timerId.toNat = i
  frame : ∀ k, (∀ nd ∈ s.nodes, nd.timerId.toNat ≠ k) → t.timerIds k = s.timerIds k
  rest : t = { s with curSize := n, heap := t.heap, timerIds := t.timerIds }

/-- A sift that starts from the last node in the place of a removed one closes the gap. -/
theorem Sifted.filled {t : TimerHeap α β} (hn : s.curSize = n + 1) (hs : slot < n)
    (h : Sifted (({ s with curSize := n } : TimerHeap α β).copy slot (s.heap n)) t n
      (Function.update s.heap slot (s.heap n))) : Filled s t n slot where
  nodes := by
    obtain ⟨σ, hσ, heq⟩ := h.perm
    rw [BinaryHeap.map_range_perm hσ heq, BinaryHeap.map_range_replace hs, nodes, hn]
  located := h.located
  frame k hk := by
    rw [h.frame k]
    · exact Function.update_of_ne (hk _ (heap_mem_nodes (by omega))).symm ..
    · intro i hi
      rcases eq_or_ne i slot with rfl | his
      · rw [Function.update_self]
        exact hk _ (heap_mem_nodes (by omega))
      · rw [Function.update_of_ne his]
        exact hk _ (heap_mem_nodes (by omega))
  rest := h.rest

/-- `fillSlot` closes the gap. -/
theorem fillSlot_filled (h : Linked s) (hn : s.curSize = n + 1) (hs : slot < n + 1) :
    Filled s (fillSlot slot { s with curSize := n }) n slot := by
  unfold fillSlot
  dsimp only
  split
  case isTrue hlt =>
    have hsift := h.sifting hn hlt
    split
    · have := reheapDown_sifted hsift
      rw [view_copy_self] at this
      exact this.filled hn hlt
    · have := reheapUp_sifted hsift
      rw [view_copy_self] at this
      exact this.filled hn hlt
  case isFalse hge =>
    -- the removed node was the last one
    obtain rfl : slot = n := by omega
    refine ⟨?_, fun i hi => h.located i (by omega), fun k _ => rfl, rfl⟩
    rw [nodes, hn, Multiset.range_succ, Multiset.map_cons]

/-- `fillSlot` restores the order. -/
theorem fillSlot_ordered (h : HeapOrdered s) (hn : s.curSize = n + 1) (hs : slot < n + 1) :
    Ordered (times (fillSlot slot { s with curSize := n }).heap) n := by
  rw [HeapOrdered, hn] at h
  unfold fillSlot
  dsimp only
  split
  case isTrue hlt =>
    have htimes : times ((({ s with curSize := n } : TimerHeap α β).copy slot (s.heap n)).view slot
        (s.heap n)) = Function.update (times s.heap) slot (times s.heap n) := by
      rw [view_copy_self, times_update]
      rfl
    split
    case isTrue hle =>
      refine reheapDown_ordered ?_
      rw [htimes]
      refine h.replace_down hlt ?_
      rcases Nat.eq_zero_or_pos slot with h0 | hpos
      · exact Or.inl h0
      · refine Or.inr ?_
        rw [heapParent_eq, copy] at hle
        dsimp only at hle
        rwa [Function.update_of_ne (parent_lt hpos).ne] at hle
    case isFalse hle =>
      have hpos : 0 < slot := by
        by_contra h0
        obtain rfl : slot = 0 := by omega
        refine hle ?_
        rw [heapParent_eq, copy]
        simp [parent]
      refine reheapUp_ordered hlt ?_
      rw [htimes]
      refine h.replace_up hpos hlt ?_
      rw [heapParent_eq, copy] at hle
      dsimp only at hle
      rw [Function.update_of_ne (parent_lt hpos).ne] at hle
      exact not_le.mp hle
  case isFalse hge =>
    exact h.mono (by omega)

/-- Distinct ids, over the multiset of nodes. -/
theorem Linked.nodup (h : Linked s) : (s.nodes.map fun nd => nd.timerId.toNat).Nodup := by
  rw [nodes, Multiset.map_map]
  refine Multiset.Nodup.map_on (fun i hi j hj hij => ?_) (Multiset.nodup_range _)
  rw [Multiset.mem_range] at hi hj
  exact h.distinct i j hi hj hij

/-- **`remove` takes out the node of the slot.** -/
theorem remove_spec (h : Linked s) (hs : slot < s.curSize) :
    (s.remove slot).1 = s.heap slot ∧ Removed s (s.remove slot).2 (s.heap slot) := by
  obtain ⟨n, hn⟩ : ∃ n, s.curSize = n + 1 := ⟨s.curSize - 1, by omega⟩
  have hf := fillSlot_filled h hn (by omega : slot < n + 1)
  have hn' : s.curSize - 1 = n := by omega
  have hcur : (fillSlot slot { s with curSize := n }).curSize = n := by rw [hf.rest]
  have hmem : s.heap slot ∈ s.nodes := heap_mem_nodes hs
  -- the id of the removed node is the id of no node that stays
  have hne : ∀ i, i < n →
      ((fillSlot slot { s with curSize := n }).heap i).timerId.toNat
        ≠ (s.heap slot).timerId.toNat := by
    intro i hi heq
    have hnd := h.nodup
    rw [← hf.nodes, Multiset.map_cons, Multiset.nodup_cons] at hnd
    exact hnd.1 (Multiset.mem_map.mpr ⟨_, Multiset.mem_map.mpr ⟨i, Multiset.mem_range.mpr hi, rfl⟩,
      heq⟩)
  refine ⟨rfl, ?_⟩
  simp only [remove, hn']
  constructor
  · rw [← hf.nodes]
    simp only [nodes, hcur]
  · intro i hi
    dsimp only at hi ⊢
    rw [hcur] at hi
    rw [Function.update_of_ne (hne i hi)]
    exact hf.located i hi
  · exact Function.update_self ..
  · intro k hk
    dsimp only
    rw [Function.update_of_ne (hk _ hmem).symm]
    exact hf.frame k hk
  · rw [hf.rest, hn']

/-- **`remove` keeps the heap order.** -/
theorem remove_ordered (h : Linked s) (ho : HeapOrdered s) (hs : slot < s.curSize) :
    HeapOrdered (s.remove slot).2 := by
  obtain ⟨n, hn⟩ : ∃ n, s.curSize = n + 1 := ⟨s.curSize - 1, by omega⟩
  have hn' : s.curSize - 1 = n := by omega
  have hcur := congrArg curSize (fillSlot_filled h hn (by omega : slot < n + 1)).rest
  simp only [HeapOrdered, remove, hn']
  rw [hcur]
  exact fillSlot_ordered ho hn (by omega)

/-! ### `insert` -/

/-- **What inserting a node does**, when there is room. -/
structure Inserted (s s' : TimerHeap α β) (nd : TimerNode α β) : Prop where
  nodes : s'.nodes = nd ::ₘ s.nodes
  located : ∀ i, i < s'.curSize → s'.timerIds (s'.heap i).timerId.toNat = i
  frame : ∀ k, (∀ nd' ∈ s.nodes, nd'.timerId.toNat ≠ k) → nd.timerId.toNat ≠ k →
    s'.timerIds k = s.timerIds k
  rest : s' = { s with curSize := s.curSize + 1, heap := s'.heap, timerIds := s'.timerIds }

/-- A node whose id is the id of no node of the heap can climb from the end. -/
theorem Linked.sifting_end (h : Linked s)
    (hnew : ∀ nd' ∈ s.nodes, nd'.timerId.toNat ≠ nd.timerId.toNat) :
    Sifting s (s.curSize + 1) s.curSize nd where
  slot_lt := by omega
  distinct := by
    intro i j hi hj hij
    rcases eq_or_ne i s.curSize with his | his <;> rcases eq_or_ne j s.curSize with hjs | hjs
    · rw [his, hjs]
    · rw [his, view_self, view_of_ne hjs] at hij
      exact absurd hij.symm (hnew _ (heap_mem_nodes (by omega)))
    · rw [hjs, view_self, view_of_ne his] at hij
      exact absurd hij (hnew _ (heap_mem_nodes (by omega)))
    · rw [view_of_ne his, view_of_ne hjs] at hij
      exact h.distinct i j (by omega) (by omega) hij
  located i hi his := h.located i (by omega)

/-- **`insert` puts in a node** whose id is the id of no node of the heap, after growing
the arrays when they are nearly full. -/
theorem insert_spec (nd : TimerNode α β) (h : Linked s.makeRoom)
    (hnew : ∀ nd' ∈ s.makeRoom.nodes, nd'.timerId.toNat ≠ nd.timerId.toNat) :
    Inserted s.makeRoom (s.insert nd) nd := by
  have hsift := reheapUp_sifted (h.sifting_end hnew)
  have hcur := congrArg curSize hsift.rest
  dsimp only at hcur
  constructor
  · obtain ⟨σ, hσ, heq⟩ := hsift.perm
    simp only [nodes, insert, hcur]
    rw [BinaryHeap.map_range_perm hσ heq, Multiset.range_succ, Multiset.map_cons, view_self, view,
      BinaryHeap.map_range_update_self]
  · intro i hi
    simp only [insert, hcur] at hi ⊢
    exact hsift.located i hi
  · intro k hk hne
    refine hsift.frame k fun i hi => ?_
    rcases eq_or_ne i s.makeRoom.curSize with rfl | his
    · rwa [view_self]
    · rw [view_of_ne his]
      exact hk _ (heap_mem_nodes (by omega))
  · simp only [insert, hcur]
    rw [hsift.rest]

/-- **`insert` keeps the heap order.** -/
theorem insert_ordered (nd : TimerNode α β) (ho : HeapOrdered s.makeRoom) : HeapOrdered (s.insert nd) := by
  simp only [HeapOrdered, insert]
  rw [reheapUp_curSize]
  refine reheapUp_ordered (by omega) ?_
  rw [view, times_update]
  exact Ordered.insert ho _

/-! ### Growth -/

theorem growHeap_timerIds (k : ℕ) : s.growHeap.timerIds k =
    if s.maxSize ≤ k ∧ k < s.maxSize * 2 then -((k : ℤ) + 1) else s.timerIds k := rfl

/-- Growing the arrays keeps them pointing at each other. -/
theorem Linked.growHeap (h : Linked s) : Linked s.growHeap where
  range nd hnd := by
    obtain ⟨h₀, hlt⟩ := h.range nd hnd
    refine ⟨h₀, ?_⟩
    simp only [TimerHeap.growHeap]
    push_cast
    omega
  located i hi := by
    obtain ⟨h₀, hlt⟩ := h.range _ (heap_mem_nodes hi)
    show s.growHeap.timerIds (s.heap i).timerId.toNat = i
    rw [growHeap_timerIds, if_neg (by omega)]
    exact h.located i hi
  inverse k hk hk' := by
    rcases Nat.lt_or_ge k s.maxSize with hlt | hge
    · rw [growHeap_timerIds, if_neg (by omega)] at hk' ⊢
      exact h.inverse k hlt hk'
    · rw [growHeap_timerIds, if_pos ⟨hge, hk⟩] at hk'
      omega

theorem Linked.makeRoom (h : Linked s) : Linked s.makeRoom := by
  unfold TimerHeap.makeRoom
  split
  · exact h.growHeap
  · exact h

@[simp] theorem makeRoom_curSize : s.makeRoom.curSize = s.curSize := by
  unfold makeRoom
  split <;> rfl

@[simp] theorem makeRoom_heap : s.makeRoom.heap = s.heap := by
  unfold makeRoom
  split <;> rfl

@[simp] theorem makeRoom_nodes : s.makeRoom.nodes = s.nodes := by
  simp only [nodes, makeRoom_curSize, makeRoom_heap]

/-! ### Pointing at each other, kept -/

/-- It is enough that the ids of the nodes point at them and that the other ids are
negative. -/
theorem Linked.of_located (hr : ∀ nd ∈ s.nodes, 0 ≤ nd.timerId ∧ nd.timerId < s.maxSize)
    (hl : ∀ i, i < s.curSize → s.timerIds (s.heap i).timerId.toNat = i)
    (hout : ∀ k, k < s.maxSize → (∀ nd ∈ s.nodes, nd.timerId.toNat ≠ k) → s.timerIds k < 0) :
    Linked s where
  range := hr
  located := hl
  inverse k hk hk' := by
    by_cases hex : ∃ nd ∈ s.nodes, nd.timerId.toNat = k
    · obtain ⟨nd, hnd, rfl⟩ := hex
      obtain ⟨i, hi, rfl⟩ := mem_nodes.mp hnd
      exact ⟨i, hi, hl i hi, (Int.toNat_of_nonneg (hr _ hnd).1).symm⟩
    · have := hout k hk fun nd hnd heq => hex ⟨nd, hnd, heq⟩
      omega

/-- An id in range that no node of the heap has is negative. -/
theorem Linked.neg_of_forall_ne {k : ℕ} (h : Linked s) (hk : k < s.maxSize)
    (hout : ∀ nd ∈ s.nodes, nd.timerId.toNat ≠ k) : s.timerIds k < 0 := by
  by_contra hneg
  obtain ⟨i, hi, -, hid⟩ := h.inverse k hk (by omega)
  refine hout _ (heap_mem_nodes hi) ?_
  rw [hid, Int.toNat_natCast]

/-- An id that a node of the heap has is not negative. -/
theorem Linked.nonneg_of_mem (h : Linked s) (hnd : nd ∈ s.nodes) :
    0 ≤ s.timerIds nd.timerId.toNat := by
  obtain ⟨i, hi, rfl⟩ := mem_nodes.mp hnd
  rw [h.located i hi]
  omega

theorem Removed.maxSize (h : Removed s s' nd) : s'.maxSize = s.maxSize := by rw [h.rest]

theorem Inserted.maxSize (h : Inserted s s' nd) : s'.maxSize = s.maxSize := by rw [h.rest]

/-- **`remove` keeps the arrays pointing at each other.** -/
theorem Removed.linked (h : Removed s s' nd) (hl : Linked s) : Linked s' := by
  refine Linked.of_located (fun nd' hnd' => ?_) h.located fun k hk hout => ?_
  · rw [h.maxSize]
    exact hl.range nd' (h.nodes ▸ Multiset.mem_cons_of_mem hnd')
  · rw [h.maxSize] at hk
    rcases eq_or_ne nd.timerId.toNat k with rfl | hne
    · rw [h.limbo]
      omega
    · have hout' : ∀ nd' ∈ s.nodes, nd'.timerId.toNat ≠ k := by
        rw [← h.nodes]
        exact Multiset.forall_mem_cons.mpr ⟨hne, hout⟩
      rw [h.frame k hout']
      exact hl.neg_of_forall_ne hk hout'

/-- **`insert` keeps the arrays pointing at each other.** -/
theorem Inserted.linked (h : Inserted s s' nd) (hl : Linked s) (h₀ : 0 ≤ nd.timerId)
    (hlt : nd.timerId < s.maxSize) : Linked s' := by
  refine Linked.of_located ?_ h.located fun k hk hout => ?_
  · rw [h.nodes, h.maxSize]
    exact Multiset.forall_mem_cons.mpr ⟨⟨h₀, hlt⟩, hl.range⟩
  · rw [h.maxSize] at hk
    rw [h.nodes] at hout
    obtain ⟨hne, hout⟩ := Multiset.forall_mem_cons.mp hout
    rw [h.frame k hout hne]
    exact hl.neg_of_forall_ne hk hout

end TimerHeap

end AceTao

/-!
## `ACE_Timer_Heap_T`: the allocation of ids

The ids are handed out by a cursor `timer_ids_curr_` that marches up the array, and when
it reaches the end restarts at `timer_ids_min_free_`, the lowest id freed behind the
cursor. `grow_heap` forgets `timer_ids_min_free_`, so an id freed behind the cursor can be
lost: it is found again only when the cursor passes by. What makes the allocator correct
is that at most one id is ever lost (`AceTao.TimerHeap.Alloc.lost`) while at least two
are free: the arrays are grown when the last free id but one has been handed out.
-/

namespace AceTao

namespace TimerHeap

variable {α β : Type} {s s' : TimerHeap α β} {k : ℕ}

/-- A **free** id: neither in the heap nor in limbo. -/
def Free (s : TimerHeap α β) (k : ℕ) : Prop :=
  k < s.maxSize ∧ s.timerIds k < 0 ∧ s.timerIds k ≠ -2

instance (s : TimerHeap α β) (k : ℕ) : Decidable (Free s k) :=
  inferInstanceAs (Decidable (_ ∧ _ ∧ _))

/-- **The invariant of the allocator**, over the set of free ids, the length of the
arrays, the cursor and the lowest freed id. -/
structure Alloc (free : ℕ → Prop) (maxSize curr minFree : ℕ) : Prop where
  /-- The cursor is an id. -/
  curr_lt : curr < maxSize
  /-- The lowest freed id is free and behind the cursor, unless there is none. -/
  restart : minFree = maxSize ∨ minFree ≤ curr ∧ free minFree
  /-- At most one free id behind the cursor is below it. -/
  lost : ∀ i j, i ≤ curr → j ≤ curr → i < minFree → j < minFree → free i → free j → i = j

/-- The invariant of the allocator, of a timer heap. -/
def AllocInv (s : TimerHeap α β) : Prop :=
  Alloc (Free s) s.maxSize s.timerIdsCurr s.timerIdsMinFree

/-! ### The cursor -/

/-- The scan stops at the first free id, or at the end of the array. -/
theorem scanFree_spec (c : ℕ) (hc : c ≤ s.maxSize) :
    c ≤ s.scanFree c ∧ s.scanFree c ≤ s.maxSize ∧
      (∀ i, c ≤ i → i < s.scanFree c → ¬Free s i) ∧
      (s.scanFree c < s.maxSize → Free s (s.scanFree c)) := by
  induction c using scanFree.induct s with
  | case1 c h ih =>
    rw [scanFree, if_pos h]
    obtain ⟨h₁, h₂, h₃, h₄⟩ := ih h.1
    refine ⟨by omega, h₂, fun i hi hlt hf => ?_, h₄⟩
    rcases eq_or_ne i c with rfl | hne
    · obtain ⟨-, hneg, hlimbo⟩ := hf
      omega
    · exact h₃ i (by omega) hlt hf
  | case2 c h =>
    rw [scanFree, if_neg h]
    refine ⟨le_rfl, hc, fun i _ _ => by omega, fun hlt => ⟨hlt, ?_⟩⟩
    constructor <;> omega

/-- **`pop_freelist` hands out a free id** when two are free, the next one on the march of
the cursor if there is one, and what is left satisfies the invariant of the allocator
without it. -/
theorem popFreelist_spec (h : AllocInv s)
    (h₂ : ∃ i j, i ≠ j ∧ Free s i ∧ Free s j) :
    ∃ k : ℕ, s.popFreelist.1 = k ∧ Free s k ∧
      (∀ i, s.timerIdsCurr < i → Free s i → s.timerIdsCurr < k ∧ k ≤ i) ∧
      Alloc (fun i => Free s i ∧ i ≠ k) s.maxSize k s.popFreelist.2.timerIdsMinFree ∧
      s.popFreelist.2 = { s with
        timerIdsCurr := k, timerIdsMinFree := s.popFreelist.2.timerIdsMinFree } := by
  have hcurr := h.curr_lt
  obtain ⟨hge, hle, hskip, hstop⟩ := s.scanFree_spec (s.timerIdsCurr + 1) (by omega)
  unfold popFreelist
  dsimp only
  split
  case isTrue hend =>
    -- the cursor restarts at the lowest freed id, which must exist
    have hbehind : ∀ i, Free s i → i ≤ s.timerIdsCurr := by
      intro i hi
      by_contra hlt
      have := hi.1
      exact hskip i (by omega) (by omega) hi
    rcases h.restart with hmax | ⟨hmin, hfree⟩
    · obtain ⟨i, j, hij, hi, hj⟩ := h₂
      have hi' := hi.1
      have hj' := hj.1
      exact absurd (h.lost i j (hbehind i hi) (hbehind j hj) (by omega) (by omega) hi hj) hij
    · refine ⟨s.timerIdsMinFree, rfl, hfree, fun i hi hf => ?_, ⟨hfree.1, Or.inl rfl, ?_⟩, rfl⟩
      · have := hbehind i hf
        omega
      rintro i j hi hj - - ⟨hi', hik⟩ ⟨hj', hjk⟩
      exact h.lost i j (by omega) (by omega) (by omega) (by omega) hi' hj'
  case isFalse hend =>
    refine ⟨s.scanFree (s.timerIdsCurr + 1), rfl, hstop (by omega), fun i hi hf => ?_,
      ⟨by omega, ?_, ?_⟩, rfl⟩
    · refine ⟨by omega, ?_⟩
      by_contra hlt
      exact hskip i (by omega) (by omega) hf
    · rcases h.restart with hmax | ⟨hmin, hfree⟩
      · exact Or.inl hmax
      · exact Or.inr ⟨show s.timerIdsMinFree ≤ _ by omega, hfree, show s.timerIdsMinFree ≠ _ by omega⟩
    · rintro i j hi hj hi' hj' ⟨hif, hik⟩ ⟨hjf, hjk⟩
      -- a free id up to the new cursor is the new cursor or behind the old one
      have hbehind : ∀ i, i ≤ s.scanFree (s.timerIdsCurr + 1) → Free s i →
          i ≠ s.scanFree (s.timerIdsCurr + 1) → i ≤ s.timerIdsCurr := by
        intro i hi hf hne
        by_contra hlt
        exact hskip i (by omega) (by omega) hf
      exact h.lost i j (hbehind i hi hif hik) (hbehind j hj hjf hjk) hi' hj' hif hjf

/-- **Giving an id back** keeps the invariant of the allocator. -/
theorem Alloc.push {free : ℕ → Prop} {maxSize curr minFree : ℕ}
    (h : Alloc free maxSize curr minFree) :
    Alloc (fun i => free i ∨ i = k) maxSize curr
      (if k < minFree ∧ k ≤ curr then k else minFree) where
  curr_lt := h.curr_lt
  restart := by
    split
    case isTrue hlt => exact Or.inr ⟨hlt.2, Or.inr rfl⟩
    case isFalse hge =>
      rcases h.restart with hmax | ⟨hmin, hfree⟩
      · exact Or.inl hmax
      · exact Or.inr ⟨hmin, Or.inl hfree⟩
  lost i j hi hj hi' hj' hif hjf := by
    split at hi'
    case isTrue hlt =>
      rw [if_pos hlt] at hj'
      exact h.lost i j hi hj (by omega) (by omega) (hif.resolve_right (by omega))
        (hjf.resolve_right (by omega))
    case isFalse hge =>
      rw [if_neg hge] at hj'
      exact h.lost i j hi hj hi' hj' (hif.resolve_right (by omega)) (hjf.resolve_right (by omega))

/-- **Growing the arrays** keeps the invariant of the allocator when at most one old id is
free. -/
theorem Alloc.grow {free : ℕ → Prop} {maxSize curr minFree m : ℕ}
    (h : Alloc free maxSize curr minFree) (hm : maxSize ≤ m)
    (hone : ∀ i j, i < maxSize → j < maxSize → free i → free j → i = j) {free' : ℕ → Prop}
    (hfree : ∀ i, i < maxSize → free' i → free i) : Alloc free' m curr m where
  curr_lt := h.curr_lt.trans_le hm
  restart := Or.inl rfl
  lost i j hi hj _ _ hif hjf := by
    have hcurr := h.curr_lt
    exact hone i j (by omega) (by omega) (hfree i (by omega) hif) (hfree j (by omega) hjf)

theorem Alloc.congr {free free' : ℕ → Prop} {maxSize curr minFree : ℕ}
    (h : Alloc free maxSize curr minFree) (hfree : ∀ i, free' i ↔ free i) :
    Alloc free' maxSize curr minFree := by
  obtain rfl : free' = free := funext fun i => propext (hfree i)
  exact h

end TimerHeap

end AceTao
