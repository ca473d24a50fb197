import AceTao.TimerHeap.Nodes

/-!
# `ACE_Timer_Heap_T`: the representation invariant

`AceTao.TimerHeap.Inv` relates a timer heap to the nodes in limbo, which are in the hands
of the caller between `remove_first` and `reschedule` or `free_node`. Each operation keeps
it (`AceTao.TimerHeap.Inv.remove`, `AceTao.TimerHeap.Inv.freeNode`,
`AceTao.TimerHeap.Inv.reschedule`, `AceTao.TimerHeap.Inv.scheduleI`), and the number of
free ids follows from it by counting (`AceTao.TimerHeap.Inv.card_free`).
-/

namespace AceTao

namespace TimerHeap

variable {α β : Type} {s s' : TimerHeap α β} {nd nd' : TimerNode α β}
  {held : Multiset (TimerNode α β)} {slot : ℕ}

/-- **The representation invariant** of a timer heap whose nodes in limbo are `held`. -/
structure Inv (s : TimerHeap α β) (held : Multiset (TimerNode α β)) : Prop where
  linked : Linked s
  ordered : HeapOrdered s
  /-- Two ids are always free. -/
  room : s.curSize + s.curLimbo + 2 ≤ s.maxSize
  limbo : ∀ k : ℕ, k < s.maxSize → (s.timerIds k = -2 ↔ ∃ nd ∈ held, nd.timerId = k)
  heldRange : ∀ nd ∈ held, 0 ≤ nd.timerId ∧ nd.timerId < s.maxSize
  heldNodup : (held.map fun nd => nd.timerId.toNat).Nodup
  heldCard : held.card = s.curLimbo
  /-- The pool of preallocated nodes holds the nodes that are not in use. -/
  pool : ∀ f, s.preallocatedNodesFreelist = some f → f + s.curSize + s.curLimbo = s.maxSize
  alloc : AllocInv s

/-! ### Counting the ids -/

/-- The ids of the nodes in the heap are the non-negative entries. -/
theorem Linked.card_used (h : Linked s) :
    ((Finset.range s.maxSize).filter fun k => 0 ≤ s.timerIds k).card = s.curSize := by
  have himage : (Finset.range s.maxSize).filter (fun k => 0 ≤ s.timerIds k)
      = (Finset.range s.curSize).image fun i => (s.heap i).timerId.toNat := by
    ext k
    simp only [Finset.mem_filter, Finset.mem_range, Finset.mem_image]
    constructor
    · rintro ⟨hk, hk'⟩
      obtain ⟨i, hi, -, hid⟩ := h.inverse k hk hk'
      exact ⟨i, hi, by rw [hid, Int.toNat_natCast]⟩
    · rintro ⟨i, hi, rfl⟩
      have hr := h.range _ (heap_mem_nodes hi)
      have hl := h.located i hi
      omega
  rw [himage, Finset.card_image_of_injOn, Finset.card_range]
  intro i hi j hj hij
  exact h.distinct i j (Finset.mem_range.mp hi) (Finset.mem_range.mp hj) hij

/-- The ids of the nodes in limbo are the entries `-2`. -/
theorem Inv.card_limbo (h : Inv s held) :
    ((Finset.range s.maxSize).filter fun k => s.timerIds k = -2).card = s.curLimbo := by
  have himage : (Finset.range s.maxSize).filter (fun k => s.timerIds k = -2)
      = ⟨held.map fun nd => nd.timerId.toNat, h.heldNodup⟩ := by
    ext k
    simp only [Finset.mem_filter, Finset.mem_range, Finset.mem_mk, Multiset.mem_map]
    constructor
    · rintro ⟨hk, hk'⟩
      obtain ⟨nd, hnd, hid⟩ := (h.limbo k hk).mp hk'
      exact ⟨nd, hnd, by rw [hid, Int.toNat_natCast]⟩
    · rintro ⟨nd, hnd, rfl⟩
      obtain ⟨h₀, hlt⟩ := h.heldRange nd hnd
      exact ⟨by omega, (h.limbo _ (by omega)).mpr ⟨nd, hnd, (Int.toNat_of_nonneg h₀).symm⟩⟩
  rw [himage, Finset.card_mk, Multiset.card_map, h.heldCard]

/-- **The ids that are not in the heap and not in limbo are free.** -/
theorem Inv.card_free (h : Inv s held) :
    ((Finset.range s.maxSize).filter (Free s)).card + s.curSize + s.curLimbo = s.maxSize := by
  have hused := h.linked.card_used
  have hlimbo := h.card_limbo
  have hsplit := Finset.card_filter_add_card_filter_not (s := Finset.range s.maxSize)
    (fun k => 0 ≤ s.timerIds k)
  have hsplit' := Finset.card_filter_add_card_filter_not
    (s := (Finset.range s.maxSize).filter fun k => ¬0 ≤ s.timerIds k)
    (fun k => s.timerIds k = -2)
  have h₁ : ((Finset.range s.maxSize).filter fun k => ¬0 ≤ s.timerIds k).filter
      (fun k => s.timerIds k = -2)
      = (Finset.range s.maxSize).filter fun k => s.timerIds k = -2 := by
    ext k
    simp only [Finset.mem_filter, Finset.mem_range]
    omega
  have h₂ : ((Finset.range s.maxSize).filter fun k => ¬0 ≤ s.timerIds k).filter
      (fun k => ¬s.timerIds k = -2)
      = (Finset.range s.maxSize).filter (Free s) := by
    ext k
    simp only [Finset.mem_filter, Finset.mem_range, Free]
    omega
  rw [h₁, h₂] at hsplit'
  rw [Finset.card_range] at hsplit
  omega

/-- Two ids are free. -/
theorem Inv.two_free (h : Inv s held) : ∃ i j, i ≠ j ∧ Free s i ∧ Free s j := by
  have hcard := h.card_free
  have hroom := h.room
  obtain ⟨i, hi, j, hj, hij⟩ := Finset.one_lt_card.mp
    (show 1 < ((Finset.range s.maxSize).filter (Free s)).card by omega)
  exact ⟨i, j, hij, (Finset.mem_filter.mp hi).2, (Finset.mem_filter.mp hj).2⟩

/-- When the arrays are nearly full, only one other id is free beside a given one. -/
theorem Inv.one_free (h : Inv s held) (hfull : s.maxSize ≤ s.curSize + s.curLimbo + 2) {k : ℕ}
    (hk : Free s k) {i j : ℕ} (hi : Free s i) (hj : Free s j) (hik : i ≠ k) (hjk : j ≠ k) :
    i = j := by
  have hcard := h.card_free
  have hroom := h.room
  have hmem : ∀ i, Free s i → i ∈ (Finset.range s.maxSize).filter (Free s) := fun i hi =>
    Finset.mem_filter.mpr ⟨Finset.mem_range.mpr hi.1, hi⟩
  have herase : (((Finset.range s.maxSize).filter (Free s)).erase k).card ≤ 1 := by
    rw [Finset.card_erase_of_mem (hmem k hk)]
    omega
  exact Finset.card_le_one.mp herase i (Finset.mem_erase.mpr ⟨hik, hmem i hi⟩) j
    (Finset.mem_erase.mpr ⟨hjk, hmem j hj⟩)

/-! ### Taking a node out -/

/-- The id of a node in limbo is the id of no node in the heap. -/
theorem Inv.held_ne (h : Inv s (nd ::ₘ held)) (hnd : nd' ∈ s.nodes) :
    nd'.timerId.toNat ≠ nd.timerId.toNat := by
  intro heq
  obtain ⟨h₀, hlt⟩ := h.heldRange nd (Multiset.mem_cons_self ..)
  have hneg := (h.limbo nd.timerId.toNat (by omega)).mpr
    ⟨nd, Multiset.mem_cons_self .., (Int.toNat_of_nonneg h₀).symm⟩
  have hpos := h.linked.nonneg_of_mem hnd
  rw [heq] at hpos
  omega

/-- The entry of a node in limbo. -/
theorem Inv.held_limbo (h : Inv s (nd ::ₘ held)) : s.timerIds nd.timerId.toNat = -2 := by
  obtain ⟨h₀, hlt⟩ := h.heldRange nd (Multiset.mem_cons_self ..)
  exact (h.limbo nd.timerId.toNat (by omega)).mpr
    ⟨nd, Multiset.mem_cons_self .., (Int.toNat_of_nonneg h₀).symm⟩

/-- `remove` changes no id but those of the nodes in the heap. -/
theorem Removed.timerIds_of_neg (h : Removed s s' nd) (hl : Linked s) {k : ℕ}
    (hk : s.timerIds k < 0) : s'.timerIds k = s.timerIds k :=
  h.frame k fun nd' hnd' heq => by
    have := hl.nonneg_of_mem hnd'
    rw [heq] at this
    omega

/-- After `remove` the negative entries are those from before and the one of the node taken
out. -/
theorem Removed.neg_iff (h : Removed s s' nd) (hl : Linked s) {k : ℕ} (hk : k < s.maxSize) :
    s'.timerIds k < 0 ↔ s.timerIds k < 0 ∨ k = nd.timerId.toNat := by
  constructor
  · intro hneg
    by_contra hcon
    obtain ⟨i, hi, -, hid⟩ := hl.inverse k hk (by omega)
    have hmem := heap_mem_nodes hi
    rw [← h.nodes, Multiset.mem_cons] at hmem
    rcases hmem with heq | hmem
    · rw [heq] at hid
      omega
    · have := (h.linked hl).nonneg_of_mem hmem
      rw [hid, Int.toNat_natCast] at this
      omega
  · rintro (hneg | rfl)
    · rw [h.timerIds_of_neg hl hneg]
      exact hneg
    · rw [h.limbo]
      omega

/-- **`remove` keeps the invariant**: the node is in limbo. -/
theorem Inv.remove (h : Inv s held) (hs : slot < s.curSize) :
    Inv (s.remove slot).2 (s.heap slot ::ₘ held) := by
  obtain ⟨-, hr⟩ := remove_spec h.linked hs
  have hord := remove_ordered h.linked h.ordered hs
  have hroom := h.room
  generalize (s.remove slot).2 = s' at hr hord
  have hmem : s.heap slot ∈ s.nodes := heap_mem_nodes hs
  obtain ⟨h₀, hlt⟩ := h.linked.range _ hmem
  have hnonneg := h.linked.nonneg_of_mem hmem
  have hcur : s'.curSize = s.curSize - 1 := by rw [hr.rest]
  have hlimbo : s'.curLimbo = s.curLimbo + 1 := by rw [hr.rest]
  constructor
  · exact hr.linked h.linked
  · exact hord
  · rw [hr.maxSize, hcur, hlimbo]
    omega
  · intro k hk
    rw [hr.maxSize] at hk
    have hiff := hr.neg_iff h.linked hk
    by_cases hkid : k = (s.heap slot).timerId.toNat
    · rw [hkid, hr.limbo]
      exact ⟨fun _ => ⟨_, Multiset.mem_cons_self .., (Int.toNat_of_nonneg h₀).symm⟩, fun _ => rfl⟩
    · have hex : (∃ nd ∈ s.heap slot ::ₘ held, nd.timerId = k) ↔ ∃ nd ∈ held, nd.timerId = k := by
        refine ⟨fun ⟨nd, hnd, hid⟩ => ⟨nd, (Multiset.mem_cons.mp hnd).resolve_left ?_, hid⟩,
          fun ⟨nd, hnd, hid⟩ => ⟨nd, Multiset.mem_cons_of_mem hnd, hid⟩⟩
        rintro rfl
        omega
      rw [hex, ← h.limbo k hk]
      by_cases hneg : s.timerIds k < 0
      · rw [hr.timerIds_of_neg h.linked hneg]
      · omega
  · intro nd hnd
    rw [hr.maxSize]
    rcases Multiset.mem_cons.mp hnd with rfl | hnd
    · exact ⟨h₀, hlt⟩
    · exact h.heldRange nd hnd
  · rw [Multiset.map_cons, Multiset.nodup_cons]
    refine ⟨fun hcon => ?_, h.heldNodup⟩
    obtain ⟨nd, hnd, hid⟩ := Multiset.mem_map.mp hcon
    obtain ⟨h₀', hlt'⟩ := h.heldRange nd hnd
    have := (h.limbo nd.timerId.toNat (by omega)).mpr
      ⟨nd, hnd, (Int.toNat_of_nonneg h₀').symm⟩
    rw [hid] at this
    omega
  · rw [Multiset.card_cons, h.heldCard, hlimbo]
  · intro f hf
    rw [hr.rest] at hf
    have := h.pool f hf
    rw [hr.maxSize, hcur, hlimbo]
    omega
  · have hfree : ∀ k, Free s' k ↔ Free s k := by
      intro k
      unfold Free
      rw [hr.maxSize]
      refine and_congr_right fun hk => ?_
      rw [hr.neg_iff h.linked hk]
      by_cases hkid : k = (s.heap slot).timerId.toNat
      · rw [hkid, hr.limbo]
        omega
      · by_cases hneg : s.timerIds k < 0
        · rw [hr.timerIds_of_neg h.linked hneg]
          omega
        · omega
    unfold AllocInv
    rw [hr.rest]
    exact (h.alloc).congr fun i => by rw [← hfree i, hr.rest]

/-- **`free_node` keeps the invariant**: a node in limbo gives its id back. -/
theorem Inv.freeNode (h : Inv s (nd ::ₘ held)) : Inv (s.freeNode nd) held := by
  have hlimbo := h.held_limbo
  have hcard := h.heldCard
  have hroom := h.room
  obtain ⟨h₀, hlt⟩ := h.heldRange nd (Multiset.mem_cons_self ..)
  rw [Multiset.card_cons] at hcard
  have hnodup := h.heldNodup
  rw [Multiset.map_cons, Multiset.nodup_cons] at hnodup
  have hids : ∀ k, k ≠ nd.timerId.toNat → (s.freeNode nd).timerIds k = s.timerIds k :=
    fun k hk => Function.update_of_ne hk ..
  have hself : (s.freeNode nd).timerIds nd.timerId.toNat = -1 := Function.update_self ..
  have hcur : (s.freeNode nd).curSize = s.curSize := if_pos hlimbo
  have hlim : (s.freeNode nd).curLimbo = s.curLimbo - 1 := if_pos hlimbo
  have hnodes : (s.freeNode nd).nodes = s.nodes := by
    simp only [nodes, hcur]
    rfl
  constructor
  · refine Linked.of_located ?_ (fun i hi => ?_) fun k hk hout => ?_
    · rw [hnodes]
      exact h.linked.range
    · rw [hcur] at hi
      show (s.freeNode nd).timerIds (s.heap i).timerId.toNat = i
      rw [hids _ (h.held_ne (heap_mem_nodes hi))]
      exact h.linked.located i hi
    · by_cases hkid : k = nd.timerId.toNat
      · rw [hkid, hself]
        omega
      · rw [hids k hkid]
        rw [hnodes] at hout
        exact h.linked.neg_of_forall_ne hk hout
  · unfold HeapOrdered
    rw [hcur]
    exact h.ordered
  · rw [hcur, hlim]
    show _ ≤ s.maxSize
    omega
  · intro k hk
    by_cases hkid : k = nd.timerId.toNat
    · rw [hkid, hself]
      refine ⟨by omega, ?_⟩
      rintro ⟨nd', hnd', hid⟩
      exact absurd (Multiset.mem_map.mpr ⟨nd', hnd', by rw [hid, Int.toNat_natCast]⟩) hnodup.1
    · rw [hids k hkid, h.limbo k hk]
      constructor
      · rintro ⟨nd', hnd', hid⟩
        refine ⟨nd', (Multiset.mem_cons.mp hnd').resolve_left ?_, hid⟩
        rintro rfl
        omega
      · rintro ⟨nd', hnd', hid⟩
        exact ⟨nd', Multiset.mem_cons_of_mem hnd', hid⟩
  · exact fun nd' hnd' => h.heldRange nd' (Multiset.mem_cons_of_mem hnd')
  · exact hnodup.2
  · rw [hlim]
    omega
  · intro f hf
    rw [hcur, hlim]
    simp only [TimerHeap.freeNode, pushFreelist, Option.map_eq_some_iff] at hf
    obtain ⟨f', hf', rfl⟩ := hf
    have := h.pool f' hf'
    show _ = s.maxSize
    omega
  · refine (Alloc.push (k := nd.timerId.toNat) h.alloc).congr fun i => ?_
    unfold Free
    by_cases hi : i = nd.timerId.toNat
    · rw [hi, hself]
      refine ⟨fun _ => Or.inr rfl, fun _ => ⟨?_, by omega, by omega⟩⟩
      show _ < s.maxSize
      omega
    · rw [hids i hi]
      exact ⟨Or.inl, fun hf => hf.resolve_right hi⟩

theorem freeNode_nodes (h : Inv s (nd ::ₘ held)) : (s.freeNode nd).nodes = s.nodes := by
  have hcur : (s.freeNode nd).curSize = s.curSize := if_pos h.held_limbo
  simp only [nodes, hcur]
  rfl

/-! ### Putting a node in -/

/-- Inserting a node whose id has a negative entry makes that entry non-negative and leaves
the other negative entries alone. -/
theorem Inserted.neg_iff (h : Inserted s s' nd) (hl : Linked s) (k : ℕ) :
    (s'.timerIds k < 0 ↔ s.timerIds k < 0 ∧ k ≠ nd.timerId.toNat) ∧
      (s'.timerIds k < 0 → s'.timerIds k = s.timerIds k) := by
  have hmem : ∀ nd' ∈ s'.nodes, 0 ≤ s'.timerIds nd'.timerId.toNat := by
    intro nd' hnd'
    obtain ⟨i, hi, rfl⟩ := mem_nodes.mp hnd'
    rw [h.located i hi]
    omega
  rw [h.nodes] at hmem
  obtain ⟨hnd, hmem⟩ := Multiset.forall_mem_cons.mp hmem
  by_cases hkid : k = nd.timerId.toNat
  · rw [hkid]
    omega
  · by_cases hout : ∀ nd' ∈ s.nodes, nd'.timerId.toNat ≠ k
    · rw [h.frame k hout (Ne.symm hkid)]
      exact ⟨⟨fun hn => ⟨hn, hkid⟩, fun hn => hn.1⟩, fun _ => rfl⟩
    · obtain ⟨nd', hnd', heq⟩ : ∃ nd' ∈ s.nodes, nd'.timerId.toNat = k := by
        by_contra hcon
        exact hout fun nd' hnd' heq => hcon ⟨nd', hnd', heq⟩
      have h₁ := hl.nonneg_of_mem hnd'
      have h₂ := hmem nd' hnd'
      rw [heq] at h₁ h₂
      omega

/-- **`reschedule` keeps the invariant**: a node in limbo goes back into the heap, at any
time. -/
theorem Inv.reschedule (h : Inv s (nd ::ₘ held)) (hid : nd'.timerId = nd.timerId) :
    Inv (s.reschedule nd') held ∧ (s.reschedule nd').nodes = nd' ::ₘ s.nodes ∧
      (s.reschedule nd').maxSize = s.maxSize := by
  have hlimbo := h.held_limbo
  have hcard := h.heldCard
  have hroom := h.room
  obtain ⟨h₀, hlt⟩ := h.heldRange nd (Multiset.mem_cons_self ..)
  rw [Multiset.card_cons] at hcard
  have hnodup := h.heldNodup
  rw [Multiset.map_cons, Multiset.nodup_cons] at hnodup
  have hresch : s.reschedule nd' = insert nd' { s with curLimbo := s.curLimbo - 1 } := by
    unfold TimerHeap.reschedule
    rw [hid, if_pos hlimbo]
  rw [hresch]
  -- one id has just left limbo, so there is room
  have hmake : ({ s with curLimbo := s.curLimbo - 1 } : TimerHeap α β).makeRoom
      = { s with curLimbo := s.curLimbo - 1 } := by
    refine if_neg ?_
    dsimp only
    omega
  have hlinked : Linked { s with curLimbo := s.curLimbo - 1 } := ⟨h.linked.range, h.linked.located,
    h.linked.inverse⟩
  have hins := insert_spec nd' (s := { s with curLimbo := s.curLimbo - 1 })
    (by rw [hmake]; exact hlinked) (by rw [hmake, hid]; exact fun nd' hnd' => h.held_ne hnd')
  have hord := insert_ordered nd' (s := { s with curLimbo := s.curLimbo - 1 })
    (by rw [hmake]; exact h.ordered)
  rw [hmake] at hins
  generalize insert nd' { s with curLimbo := s.curLimbo - 1 } = s' at hins hord
  have hcur : s'.curSize = s.curSize + 1 := by rw [hins.rest]
  have hlim : s'.curLimbo = s.curLimbo - 1 := by rw [hins.rest]
  have hmax : s'.maxSize = s.maxSize := hins.maxSize
  have hneg := hins.neg_iff hlinked
  rw [hid] at hneg
  dsimp only at hneg
  refine ⟨⟨?_, hord, ?_, ?_, ?_, hnodup.2, ?_, ?_, ?_⟩, hins.nodes, hmax⟩
  · exact hins.linked hlinked (by omega) (show nd'.timerId < s.maxSize by omega)
  · omega
  · intro k hk
    rw [hmax] at hk
    obtain ⟨h₁, h₂⟩ := hneg k
    have hex : (∃ nd'' ∈ held, nd''.timerId = k) ↔ s.timerIds k = -2 ∧ k ≠ nd.timerId.toNat := by
      rw [h.limbo k hk]
      constructor
      · rintro ⟨nd'', hnd'', heq⟩
        refine ⟨⟨nd'', Multiset.mem_cons_of_mem hnd'', heq⟩, fun hk => hnodup.1 ?_⟩
        exact Multiset.mem_map.mpr ⟨nd'', hnd'', by omega⟩
      · rintro ⟨⟨nd'', hnd'', heq⟩, hne⟩
        refine ⟨nd'', (Multiset.mem_cons.mp hnd'').resolve_left ?_, heq⟩
        rintro rfl
        omega
    rw [hex]
    clear hex
    omega
  · intro nd'' hnd''
    rw [hmax]
    exact h.heldRange nd'' (Multiset.mem_cons_of_mem hnd'')
  · omega
  · intro f hf
    rw [hins.rest] at hf
    have := h.pool f hf
    omega
  · unfold AllocInv
    have hfree : ∀ k, Free s' k ↔ Free s k := by
      intro k
      unfold Free
      rw [hmax]
      refine and_congr_right fun hk => ?_
      obtain ⟨h₁, h₂⟩ := hneg k
      by_cases hkid : k = nd.timerId.toNat
      · rw [hkid] at h₁ ⊢
        omega
      · omega
    rw [hins.rest]
    exact h.alloc.congr fun i => by rw [← hfree i, hins.rest]

/-- Allocating a preallocated node never finds the pool empty. -/
theorem Inv.allocNode (h : Inv s held) {curr minFree : ℕ} :
    ({ s with timerIdsCurr := curr, timerIdsMinFree := minFree } : TimerHeap α β).allocNode
      = { s with
          timerIdsCurr := curr
          timerIdsMinFree := minFree
          preallocatedNodesFreelist := s.preallocatedNodesFreelist.map (· - 1) } := by
  have hroom := h.room
  unfold TimerHeap.allocNode
  dsimp only
  split
  · rename_i hnone
    rw [hnone]
    rfl
  · rename_i free hsome
    have := h.pool free hsome
    rw [if_neg (by omega), hsome]

/-- The heap `t` in which `schedule_i` inserts a node with the id `k`: there is room, the
old ids are as in `s`, the new ones are free, and the allocator is past `k`. -/
structure Ready (s t : TimerHeap α β) (k : ℕ) : Prop where
  linked : Linked t
  ordered : HeapOrdered t
  nodes : t.nodes = s.nodes
  curLimbo : t.curLimbo = s.curLimbo
  maxSize_le : s.maxSize ≤ t.maxSize
  room : t.curSize + 1 + t.curLimbo + 2 ≤ t.maxSize
  oldIds : ∀ i, i < s.maxSize → t.timerIds i = s.timerIds i
  newIds : ∀ i, s.maxSize ≤ i → i < t.maxSize → t.timerIds i < 0 ∧ t.timerIds i ≠ -2
  pool : ∀ f, t.preallocatedNodesFreelist = some f → f + (t.curSize + 1) + t.curLimbo = t.maxSize
  curr : t.timerIdsCurr = k
  alloc : Alloc (fun i => Free t i ∧ i ≠ k) t.maxSize k t.timerIdsMinFree

/-- After handing out an id and allocating a node the heap is ready for the insertion. -/
theorem Inv.ready (h : Inv s held) {k minFree : ℕ} (hfree : Free s k)
    (halloc : Alloc (fun i => Free s i ∧ i ≠ k) s.maxSize k minFree) :
    Ready s ({ s with
      timerIdsCurr := k
      timerIdsMinFree := minFree
      preallocatedNodesFreelist := s.preallocatedNodesFreelist.map (· - 1) } :
        TimerHeap α β).makeRoom k := by
  have hroom := h.room
  have hlinked : Linked ({ s with
      timerIdsCurr := k
      timerIdsMinFree := minFree
      preallocatedNodesFreelist := s.preallocatedNodesFreelist.map (· - 1) } : TimerHeap α β) :=
    ⟨h.linked.range, h.linked.located, h.linked.inverse⟩
  unfold TimerHeap.makeRoom
  dsimp only
  split
  case isTrue hfull =>
    refine ⟨hlinked.growHeap, h.ordered, rfl, rfl, ?_, ?_, ?_, ?_, ?_, rfl, ?_⟩
    · show s.maxSize ≤ s.maxSize * 2
      omega
    · show s.curSize + 1 + s.curLimbo + 2 ≤ s.maxSize * 2
      omega
    · intro i hi
      rw [growHeap_timerIds, if_neg (show ¬(s.maxSize ≤ i ∧ _) by omega)]
    · intro i hge hlt
      rw [growHeap_timerIds, if_pos ⟨hge, hlt⟩]
      have : 2 ≤ i := (show 2 ≤ s.maxSize by omega).trans hge
      omega
    · intro f hf
      simp only [TimerHeap.growHeap, Option.map_map, Option.map_eq_some_iff, Function.comp_apply] at hf
      obtain ⟨f', hf', rfl⟩ := hf
      have := h.pool f' hf'
      show f' - 1 + s.maxSize + (s.curSize + 1) + s.curLimbo = s.maxSize * 2
      omega
    · -- only one old id is free besides `k`, and the growth may forget it
      refine halloc.grow (show s.maxSize ≤ s.maxSize * 2 by omega) ?_ ?_
      · exact fun i j _ _ hi hj => h.one_free hfull hfree hi.1 hj.1 hi.2 hj.2
      · rintro i hi ⟨⟨-, hi₁, hi₂⟩, hik⟩
        rw [growHeap_timerIds, if_neg (show ¬(s.maxSize ≤ i ∧ _) by omega)] at hi₁ hi₂
        exact ⟨⟨hi, hi₁, hi₂⟩, hik⟩
  case isFalse hroom' =>
    refine ⟨hlinked, h.ordered, rfl, rfl, le_rfl, ?_, fun i _ => rfl, fun i h₁ h₂ => ?_, ?_, rfl,
      halloc⟩
    · show s.curSize + 1 + s.curLimbo + 2 ≤ s.maxSize
      omega
    · have : i < s.maxSize := h₂
      omega
    · intro f hf
      simp only [Option.map_eq_some_iff] at hf
      obtain ⟨f', hf', rfl⟩ := hf
      have := h.pool f' hf'
      show f' - 1 + (s.curSize + 1) + s.curLimbo = s.maxSize
      omega

/-- After the insertion the new id is no longer free; the others are as they were. -/
theorem Ready.free_iff {t : TimerHeap α β} {k : ℕ} (hr : Ready s t k) (hid : nd.timerId = k)
    (hins : Inserted t s' nd) (i : ℕ) : Free s' i ↔ Free t i ∧ i ≠ k := by
  obtain ⟨h₁, h₂⟩ := hins.neg_iff hr.linked i
  rw [hid, Int.toNat_natCast] at h₁
  unfold Free
  rw [hins.maxSize]
  omega

/-- Inserting the node with the new id leads back to the invariant. -/
theorem Ready.inv {t : TimerHeap α β} {k : ℕ} (h : Inv s held) (hr : Ready s t k)
    (hfree : Free s k) (hid : nd.timerId = k) (hins : Inserted t s' nd) (hord : HeapOrdered s') :
    Inv s' held := by
  have hmax := hins.maxSize
  have hle := hr.maxSize_le
  have hcur : s'.curSize = t.curSize + 1 := by rw [hins.rest]
  have hlim : s'.curLimbo = t.curLimbo := by rw [hins.rest]
  have hneg := hins.neg_iff hr.linked
  rw [hid, Int.toNat_natCast] at hneg
  have hroom := hr.room
  have hfree' := hr.free_iff hid hins
  obtain ⟨hk, hk₁, hk₂⟩ := hfree
  refine ⟨?_, hord, by omega, ?_, ?_, h.heldNodup, ?_, ?_, ?_⟩
  · exact hins.linked hr.linked (by omega) (by omega)
  · intro i hi
    obtain ⟨h₁, h₂⟩ := hneg i
    rcases Nat.lt_or_ge i s.maxSize with hlt | hge
    · rw [← h.limbo i hlt]
      rw [hr.oldIds i hlt] at h₁ h₂
      rcases eq_or_ne i k with rfl | hne
      · omega
      · omega
    · have hnew := hr.newIds i hge (by omega)
      refine ⟨fun heq => absurd (h₂ (by omega)) (by omega), fun ⟨nd', hnd', heq⟩ => ?_⟩
      have := h.heldRange nd' hnd'
      omega
  · intro nd' hnd'
    have := h.heldRange nd' hnd'
    omega
  · rw [h.heldCard, hlim, hr.curLimbo]
  · intro f hf
    rw [hins.rest] at hf
    have := hr.pool f hf
    omega
  · unfold AllocInv
    have hcurr : s'.timerIdsCurr = k := by
      rw [hins.rest]
      exact hr.curr
    have hmin : s'.timerIdsMinFree = t.timerIdsMinFree := by rw [hins.rest]
    rw [hmax, hcurr, hmin]
    exact hr.alloc.congr hfree'

/-- **What `schedule_i` does**: a node with a free id, the next one on the march of the
cursor, goes into the heap, and the arrays grow by free ids if they grow. -/
structure Scheduled (s s' : TimerHeap α β) (nd : TimerNode α β) (k : ℕ) : Prop where
  free : Free s k
  next : ∀ i, s.timerIdsCurr < i → Free s i → s.timerIdsCurr < k ∧ k ≤ i
  nodes : s'.nodes = nd ::ₘ s.nodes
  curr : s'.timerIdsCurr = k
  stays : ∀ i, Free s i → i ≠ k → Free s' i
  grown : ∀ i, s.maxSize ≤ i → i < s'.maxSize → Free s' i

/-- **`schedule_i` keeps the invariant**, and hands out a free id. -/
theorem Inv.scheduleI (h : Inv s held) (type : α) (act : β) (futureTime interval : TimeValue) :
    ∃ k : ℕ, s.popFreelist.1 = k ∧ (s.scheduleI type act futureTime interval).1 = k ∧
      Inv (s.scheduleI type act futureTime interval).2 held ∧
      Scheduled s (s.scheduleI type act futureTime interval).2
        ⟨type, act, futureTime, interval, k⟩ k := by
  have hroom := h.room
  obtain ⟨k, hk, hfree, hnext, halloc, hpop⟩ := popFreelist_spec h.alloc h.two_free
  refine ⟨k, hk, ?_⟩
  unfold TimerHeap.scheduleI
  rw [if_pos (by omega)]
  dsimp only
  rw [hk]
  generalize s.popFreelist.2.timerIdsMinFree = minFree at halloc hpop
  rw [hpop, h.allocNode]
  have hready := h.ready hfree halloc
  have hnew : ∀ nd ∈ s.nodes, nd.timerId.toNat ≠ k := by
    intro nd hnd heq
    have := h.linked.nonneg_of_mem hnd
    have := hfree.2.1
    rw [heq] at *
    omega
  have hins := insert_spec ⟨type, act, futureTime, interval, k⟩ hready.linked
    (by rw [hready.nodes]; exact hnew)
  have hord := insert_ordered ⟨type, act, futureTime, interval, k⟩ hready.ordered
  have hfree' := hready.free_iff rfl hins
  have hle := hready.maxSize_le
  refine ⟨rfl, hready.inv h hfree rfl hins hord, hfree, hnext, ?_, ?_, fun i hi hne => ?_,
    fun i hge hlt => ?_⟩
  · rw [hins.nodes, hready.nodes]
  · rw [hins.rest]
    exact hready.curr
  · have hi' := hi.1
    rw [hfree']
    unfold Free
    rw [hready.oldIds i hi.1]
    exact ⟨⟨by omega, hi.2⟩, hne⟩
  · rw [hins.maxSize] at hlt
    have hk' := hfree.1
    exact (hfree' i).mpr ⟨⟨hlt, hready.newIds i hge hlt⟩, by omega⟩

end TimerHeap

end AceTao
