import AceTao.TimerQueue
import AceTao.Library.BinaryHeap

/-!
# `ACE_Timer_Heap_T`: the code

The timer heap keeps its nodes in a binary heap `heap_`, the first `cur_size_` slots of
an array of `max_size_`, and an array `timer_ids_` of the same length that says for each
timer id where its node is: a slot of the heap, `-2` for a node *in limbo*, taken out of
the heap but not given back, or another negative number for a free id.

The arrays are functions on `ℕ`. A node is a value: the pointers of `heap_` are unique,
and the nodes in limbo are in the hands of the caller. `reheapDown` and `reheapUp` are the
loops of the source, and the parent and the child they keep in a variable are computed
from the slot. The assertions of the source are not part of the functions; a release build
does not check them. Indexing `timer_ids_` at `max_size_`, which the range checks of
`cancel` and `reset_interval` let through, is undefined and the functions return `none`.
-/

namespace AceTao

open BinaryHeap (parent parent_lt)

/-- **`ACE_Timer_Heap_T`**. -/
structure TimerHeap (α β : Type) where
  /-- `max_size_`: the length of the arrays. -/
  maxSize : ℕ
  /-- `cur_size_`: the number of nodes in the heap. -/
  curSize : ℕ
  /-- `cur_limbo_`: the number of nodes in limbo. -/
  curLimbo : ℕ
  /-- `heap_` -/
  heap : ℕ → TimerNode α β
  /-- `timer_ids_` -/
  timerIds : ℕ → ℤ
  /-- `timer_ids_curr_`: the id given out last. -/
  timerIdsCurr : ℕ
  /-- `timer_ids_min_free_`: the lowest freed id that the march of `timer_ids_curr_` has
  passed, or `max_size_`. -/
  timerIdsMinFree : ℕ
  /-- The length of `preallocated_nodes_freelist_` when nodes are preallocated. -/
  preallocatedNodesFreelist : Option ℕ

namespace TimerHeap

variable {α β : Type}

/-- `ACE_HEAP_PARENT`. -/
def heapParent (x : ℕ) : ℕ := if x = 0 then 0 else (x - 1) / 2

/-- `ACE_HEAP_LCHILD`. -/
def heapLchild (x : ℕ) : ℕ := x + x + 1

theorem heapParent_eq (x : ℕ) : heapParent x = parent x := by
  unfold heapParent parent
  split <;> omega

/-- The constructor: every id is free. The array of nodes is not initialised. -/
def init (size : ℕ) (preallocated : Bool) (heap : ℕ → TimerNode α β) : TimerHeap α β where
  maxSize := min size (2 ^ 63 - 1)
  curSize := 0
  curLimbo := 0
  heap := heap
  timerIds := fun _ => -1
  timerIdsCurr := 0
  timerIdsMinFree := 0
  preallocatedNodesFreelist := if preallocated then some (min size (2 ^ 63 - 1)) else none

/-- `is_empty`. -/
def isEmpty (s : TimerHeap α β) : Bool := s.curSize = 0

/-- `earliest_time`. -/
def earliestTime (s : TimerHeap α β) : TimeValue := (s.heap 0).timerValue

/-- `get_first`. -/
def getFirst (s : TimerHeap α β) : Option (TimerNode α β) :=
  if s.curSize = 0 then none else some (s.heap 0)

/-! ### The ids -/

/-- The scan of `pop_freelist`: the first id from `c` on whose entry is free, or
`max_size_`. -/
def scanFree (s : TimerHeap α β) (c : ℕ) : ℕ :=
  if c < s.maxSize ∧ (0 ≤ s.timerIds c ∨ s.timerIds c = -2) then scanFree s (c + 1) else c
termination_by s.maxSize - c

/-- `pop_freelist`, which `timer_id` calls. -/
def popFreelist (s : TimerHeap α β) : ℤ × TimerHeap α β :=
  let curr := scanFree s (s.timerIdsCurr + 1)
  if curr = s.maxSize then
    (s.timerIdsMinFree,
      { s with timerIdsCurr := s.timerIdsMinFree, timerIdsMinFree := s.maxSize })
  else (curr, { s with timerIdsCurr := curr })

/-- `push_freelist`. -/
def pushFreelist (oldId : ℤ) (s : TimerHeap α β) : TimerHeap α β :=
  let oldid := oldId.toNat
  { s with
    curLimbo := if s.timerIds oldid = -2 then s.curLimbo - 1 else s.curLimbo
    curSize := if s.timerIds oldid = -2 then s.curSize else s.curSize - 1
    timerIds := Function.update s.timerIds oldid (-1)
    timerIdsMinFree :=
      if oldid < s.timerIdsMinFree ∧ oldid ≤ s.timerIdsCurr then oldid else s.timerIdsMinFree }

/-! ### The heap -/

/-- `copy`: a node is put into a slot, and its id points there. -/
def copy (slot : ℕ) (movedNode : TimerNode α β) (s : TimerHeap α β) : TimerHeap α β :=
  { s with
    heap := Function.update s.heap slot movedNode
    timerIds := Function.update s.timerIds movedNode.timerId.toNat slot }

@[simp] theorem copy_curSize (slot : ℕ) (n : TimerNode α β) (s : TimerHeap α β) :
    (s.copy slot n).curSize = s.curSize := rfl

/-- The smaller child of a slot, as `reheap_down` chooses it. -/
def smallerChild (s : TimerHeap α β) (child : ℕ) : ℕ :=
  if child + 1 < s.curSize ∧ (s.heap (child + 1)).timerValue < (s.heap child).timerValue then
    child + 1
  else child

theorem smallerChild_ge (s : TimerHeap α β) (child : ℕ) : child ≤ s.smallerChild child := by
  unfold smallerChild
  split <;> omega

/-- `reheap_down`. -/
def reheapDown (movedNode : TimerNode α β) (slot : ℕ) (s : TimerHeap α β) : TimerHeap α β :=
  if heapLchild slot < s.curSize then
    let child := s.smallerChild (heapLchild slot)
    if (s.heap child).timerValue < movedNode.timerValue then
      reheapDown movedNode child (s.copy slot (s.heap child))
    else s.copy slot movedNode
  else s.copy slot movedNode
termination_by s.curSize - slot
decreasing_by
  have hge := s.smallerChild_ge (heapLchild slot)
  simp only [heapLchild, copy_curSize] at *
  omega

/-- `reheap_up`. -/
def reheapUp (movedNode : TimerNode α β) (slot : ℕ) (s : TimerHeap α β) : TimerHeap α β :=
  if 0 < slot then
    if movedNode.timerValue < (s.heap (heapParent slot)).timerValue then
      reheapUp movedNode (heapParent slot) (s.copy slot (s.heap (heapParent slot)))
    else s.copy slot movedNode
  else s.copy slot movedNode
termination_by slot
decreasing_by
  rw [heapParent_eq]
  exact parent_lt ‹_›

/-- The part of `remove` that closes the gap: the last node moves to the slot and is sifted
down or up. -/
def fillSlot (slot : ℕ) (s : TimerHeap α β) : TimerHeap α β :=
  if slot < s.curSize then
    let movedNode := s.heap s.curSize
    let s' := s.copy slot movedNode
    if (s'.heap (heapParent slot)).timerValue ≤ movedNode.timerValue then
      s'.reheapDown movedNode slot
    else s'.reheapUp movedNode slot
  else s

/-- `remove`: the node of a slot leaves the heap for limbo. -/
def remove (slot : ℕ) (s : TimerHeap α β) : TimerNode α β × TimerHeap α β :=
  let removedNode := s.heap slot
  let s' := fillSlot slot { s with curSize := s.curSize - 1 }
  (removedNode,
    { s' with
      timerIds := Function.update s'.timerIds removedNode.timerId.toNat (-2)
      curLimbo := s'.curLimbo + 1 })

/-- `grow_heap`: the arrays double, and so does the pool of preallocated nodes. -/
def growHeap (s : TimerHeap α β) : TimerHeap α β :=
  { s with
    timerIds := fun i => if s.maxSize ≤ i ∧ i < s.maxSize * 2 then -((i : ℤ) + 1) else s.timerIds i
    preallocatedNodesFreelist := s.preallocatedNodesFreelist.map (· + s.maxSize)
    maxSize := s.maxSize * 2
    timerIdsMinFree := s.maxSize * 2 }

/-- The growth `insert` starts with. -/
def makeRoom (s : TimerHeap α β) : TimerHeap α β :=
  if s.maxSize ≤ s.curSize + s.curLimbo + 2 then s.growHeap else s

/-- `insert`. -/
def insert (newNode : TimerNode α β) (s : TimerHeap α β) : TimerHeap α β :=
  let s' := s.makeRoom.reheapUp newNode s.makeRoom.curSize
  { s' with curSize := s'.curSize + 1 }

/-! ### The operations of the queue -/

/-- `reschedule`. -/
def reschedule (expired : TimerNode α β) (s : TimerHeap α β) : TimerHeap α β :=
  insert expired
    (if s.timerIds expired.timerId.toNat = -2 then { s with curLimbo := s.curLimbo - 1 } else s)

/-- `alloc_node`: only the pool of preallocated nodes matters. -/
def allocNode (s : TimerHeap α β) : TimerHeap α β :=
  match s.preallocatedNodesFreelist with
  | none => s
  | some free =>
    let s' := if free = 0 then s.growHeap else s
    { s' with preallocatedNodesFreelist := s'.preallocatedNodesFreelist.map (· - 1) }

/-- `free_node`. -/
def freeNode (node : TimerNode α β) (s : TimerHeap α β) : TimerHeap α β :=
  let s' := s.pushFreelist node.timerId
  { s' with preallocatedNodesFreelist := s'.preallocatedNodesFreelist.map (· + 1) }

/-- `schedule_i`. -/
def scheduleI (type : α) (act : β) (futureTime interval : TimeValue) (s : TimerHeap α β) :
    ℤ × TimerHeap α β :=
  if s.curSize + s.curLimbo < s.maxSize then
    let p := s.popFreelist
    (p.1, p.2.allocNode.insert ⟨type, act, futureTime, interval, p.1⟩)
  else (-1, s)

/-- The slot that `cancel` and `reset_interval` find for an id: `none` is the read at
`timer_ids_[max_size_]`, `some none` an id that is not in the heap. -/
def lookup (timerId : ℤ) (s : TimerHeap α β) : Option (Option ℕ) :=
  if timerId < 0 ∨ (s.maxSize : ℤ) < timerId then some none
  else if timerId = s.maxSize then none
  else
    let slot := s.timerIds timerId.toNat
    if slot < 0 then some none
    else if timerId ≠ (s.heap slot.toNat).timerId then some none
    else some (some slot.toNat)

/-- `cancel (timer_id, act)`: the number of timers cancelled and what `*act` is set to. -/
def cancel (timerId : ℤ) (s : TimerHeap α β) : Option (ℤ × Option β × TimerHeap α β) :=
  (s.lookup timerId).map fun
    | none => (0, none, s)
    | some slot =>
      let p := s.remove slot
      (1, some p.1.act, p.2.freeNode p.1)

/-- `reset_interval`. -/
def resetInterval (timerId : ℤ) (interval : TimeValue) (s : TimerHeap α β) :
    Option (ℤ × TimerHeap α β) :=
  (s.lookup timerId).map fun
    | none => (-1, s)
    | some slot =>
      (0, { s with heap := Function.update s.heap slot ((s.heap slot).setInterval interval) })

/-- `remove_first`. -/
def removeFirst (s : TimerHeap α β) : Option (TimerNode α β × TimerHeap α β) :=
  if s.curSize = 0 then none else some (s.remove 0)

/-! ### Cancelling by type

The loop goes back to the first slot after each removal; it ends because the heap gets
smaller. -/

theorem reheapDown_curSize (m : TimerNode α β) (slot : ℕ) (s : TimerHeap α β) :
    (s.reheapDown m slot).curSize = s.curSize := by
  induction slot, s using reheapDown.induct m with
  | case1 slot s hc child hlt ih =>
    rw [reheapDown, if_pos hc]
    dsimp only
    rw [if_pos hlt, ih, copy_curSize]
  | case2 slot s hc child hlt =>
    rw [reheapDown, if_pos hc]
    dsimp only
    rw [if_neg hlt, copy_curSize]
  | case3 slot s hc => rw [reheapDown, if_neg hc, copy_curSize]

theorem reheapUp_curSize (m : TimerNode α β) (slot : ℕ) (s : TimerHeap α β) :
    (s.reheapUp m slot).curSize = s.curSize := by
  induction slot, s using reheapUp.induct m with
  | case1 slot s hpos hlt ih => rw [reheapUp, if_pos hpos, if_pos hlt, ih, copy_curSize]
  | case2 slot s hpos hlt => rw [reheapUp, if_pos hpos, if_neg hlt, copy_curSize]
  | case3 slot s hpos => rw [reheapUp, if_neg hpos, copy_curSize]

theorem remove_curSize (slot : ℕ) (s : TimerHeap α β) :
    (s.remove slot).2.curSize = s.curSize - 1 := by
  simp only [remove, fillSlot]
  split
  · split
    · rw [reheapDown_curSize, copy_curSize]
    · rw [reheapUp_curSize, copy_curSize]
  · rfl

theorem freeNode_curSize_le (nd : TimerNode α β) (s : TimerHeap α β) :
    (s.freeNode nd).curSize ≤ s.curSize := by
  simp only [freeNode, pushFreelist]
  split <;> omega

/-- The loop of `cancel (type)`. -/
def cancelTypeLoop [DecidableEq α] (type : α) (i : ℕ) (s : TimerHeap α β) : ℕ × TimerHeap α β :=
  if i < s.curSize then
    if (s.heap i).type = type then
      let p := s.remove i
      let r := cancelTypeLoop type 0 (p.2.freeNode p.1)
      (r.1 + 1, r.2)
    else cancelTypeLoop type (i + 1) s
  else (0, s)
termination_by (s.curSize, s.curSize - i)
decreasing_by
  · have hle := (s.remove i).2.freeNode_curSize_le (s.remove i).1
    rw [remove_curSize] at hle
    exact Prod.Lex.left _ _ (by omega)
  · exact Prod.Lex.right _ (by omega)

/-- `cancel (type)`. -/
def cancelType [DecidableEq α] (type : α) (s : TimerHeap α β) : ℤ × TimerHeap α β :=
  let r := s.cancelTypeLoop type 0
  (r.1, r.2)

end TimerHeap

end AceTao
