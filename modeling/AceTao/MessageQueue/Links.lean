import AceTao.MessageQueue.Basic
import Mathlib.Data.BitVec
import Mathlib.Algebra.BigOperators.Group.List.Basic
import Mathlib.Algebra.Group.Prod

/-!
# The links of a message queue

The blocks of a queue are linked from the head to the tail, and the counters are those of the
messages (`MessageQueue.Represents`). The functions that enqueue and dequeue, whose pointers go to
the blocks of the list only, put a block between two others and take one out:

* `enqueueHeadI_spec`, `enqueueTailI_spec` and `spliceAndCount_spec`: a block is added in front, at
  the end, and behind another block;
* `patchUp_spec` and `dequeued_spec`: any block is removed.
-/

namespace AceTao

open DoublyLinked

namespace MessageQueue

variable {A : Type} {q q' : MessageQueue A} {es es₁ es₂ : List (A × Message)} {e : A × Message}
  {a : A} {b : MessageBlock A}

/-- The size and the length of a message. -/
def total (m : Message) : BitVec 64 × BitVec 64 := ((m.size, m.length) :: m.cont).sum

theorem totalSizeAndLength_eq (m : Message) (s l : BitVec 64) :
    totalSizeAndLength m s l = (s, l) + total m := by
  have hfold : ∀ (is : List (BitVec 64 × BitVec 64)) (t : BitVec 64 × BitVec 64),
      is.foldl (fun t i => (t.1 + i.1, t.2 + i.2)) t = t + is.sum := by
    intro is
    induction is with
    | nil => intro t; rw [List.foldl_nil, List.sum_nil, add_zero]
    | cons i is ih =>
      intro t
      rw [List.foldl_cons, ih, List.sum_cons, ← add_assoc]
      rfl
  exact hfold _ _

/-- The blocks from the head to the tail. -/
structure Linked (q : MessageQueue A) (es : List (A × Message)) : Prop where
  head : q.head = (es.map Prod.fst).head?
  tail : q.tail = (es.map Prod.fst).getLast?
  isList : IsList (linksBy q.blocks MessageBlock.next) (linksBy q.blocks MessageBlock.prev)
    (es.map Prod.fst)
  holds : ∀ e ∈ es, Holds q.blocks MessageBlock.message e

/-- **The messages of a queue**, from the head to the tail. -/
structure Represents (q : MessageQueue A) (es : List (A × Message)) : Prop extends Linked q es where
  count : q.curCount = (es.length : BitVec 64)
  totals : (q.curBytes, q.curLength) = (es.map fun e => total e.2).sum
  active : q.state = .activated

theorem represents_init (blocks : A → Option (MessageBlock A)) (hwm lwm : BitVec 64) (c c' : ℤ) :
    Represents (init blocks hwm lwm c c') [] :=
  ⟨⟨rfl, rfl, isList_nil _ _, List.forall_mem_nil _⟩, rfl, rfl, rfl⟩

theorem Linked.length_lt [Fintype A] (h : Linked q es) : es.length < turns A := by
  have hle := h.isList.nodup.length_le_card
  rw [List.length_map] at hle
  exact Nat.lt_succ_of_le hle

/-- The block of an entry. -/
theorem Linked.block_eq (h : Linked q (es₁ ++ e :: es₂)) :
    q.blocks e.1 = some ⟨e.2, (es₂.map Prod.fst).head?, (es₁.map Prod.fst).getLast?⟩ := by
  obtain ⟨b, hb, hmessage⟩ := h.holds e (by simp)
  have hnext := h.isList.next_eq (es₁.map Prod.fst) e.1 (es₂.map Prod.fst) (by simp)
  have hprev := h.isList.prev_eq (es₁.map Prod.fst) e.1 (es₂.map Prod.fst) (by simp)
  rw [linksBy, hb, Option.map_some, Option.some.injEq] at hnext hprev
  rw [hb, ← hmessage, ← hnext, ← hprev]

/-! ### Adding a block -/

/-- What an insertion between two lists of blocks does to the block at `x`. -/
def linkTo (l₁ l₂ : List A) [DecidableEq A] (a x : A) (b : MessageBlock A) : MessageBlock A :=
  { b with
    next := if l₁.getLast? = some x then some a else b.next
    prev := if l₂.head? = some x then some a else b.prev }

variable [DecidableEq A]

/-- **A block is added.** -/
theorem Represents.insert (h : Represents q (es₁ ++ es₂)) (ha : e.1 ∉ (es₁ ++ es₂).map Prod.fst)
    (hhead : q'.head = ((es₁ ++ e :: es₂).map Prod.fst).head?)
    (htail : q'.tail = ((es₁ ++ e :: es₂).map Prod.fst).getLast?)
    (hnew : q'.blocks e.1 = some ⟨e.2, (es₂.map Prod.fst).head?, (es₁.map Prod.fst).getLast?⟩)
    (hold : ∀ x ∈ (es₁ ++ es₂).map Prod.fst, q'.blocks x =
      (q.blocks x).map (linkTo (es₁.map Prod.fst) (es₂.map Prod.fst) e.1 x))
    (hcount : q'.curCount = q.curCount + 1)
    (htotals : (q'.curBytes, q'.curLength) = (q.curBytes, q.curLength) + total e.2)
    (hstate : q'.state = q.state) : Represents q' (es₁ ++ e :: es₂) := by
  have hblock : ∀ x ∈ (es₁ ++ es₂).map Prod.fst, ∃ b, q.blocks x = some b := fun x hx => by
    obtain ⟨e, he, rfl⟩ := List.mem_map.mp hx
    obtain ⟨b, hb, -⟩ := h.holds e he
    exact ⟨b, hb⟩
  have hlist := h.isList
  rw [List.map_append] at hlist hold ha hblock
  refine ⟨⟨hhead, htail, ?_, ?_⟩, ?_, ?_, hstate.trans h.active⟩
  · rw [List.map_append, List.map_cons]
    refine hlist.insert ha ?_ ?_ (fun x hx => ?_) fun x hx => ?_
    · rw [linksBy, hnew]
      rfl
    · rw [linksBy, hnew]
      rfl
    · obtain ⟨b, hb⟩ := hblock x hx
      rw [linksBy, linksBy, hold x hx, hb, Option.map_some, Option.map_some, Option.map_some, linkTo]
      split_ifs <;> rfl
    · obtain ⟨b, hb⟩ := hblock x hx
      rw [linksBy, linksBy, hold x hx, hb, Option.map_some, Option.map_some, Option.map_some, linkTo]
      split_ifs <;> rfl
  · intro f hf
    rcases eq_or_ne f e with rfl | hne
    · exact ⟨_, hnew, rfl⟩
    · have hmem : f ∈ es₁ ++ es₂ := by
        rw [List.mem_append, List.mem_cons] at hf
        rw [List.mem_append]
        rcases hf with hf | hf | hf
        · exact Or.inl hf
        · exact absurd hf hne
        · exact Or.inr hf
      obtain ⟨b, hb, hmessage⟩ := h.holds f hmem
      refine ⟨linkTo (es₁.map Prod.fst) (es₂.map Prod.fst) e.1 f.1 b, ?_, hmessage⟩
      rw [hold f.1 (by rw [← List.map_append]; exact List.mem_map_of_mem hmem), hb]
      rfl
  · rw [hcount, h.count, List.length_append, List.length_append, List.length_cons, ← add_assoc]
    push_cast
    rfl
  · rw [htotals, h.totals, List.map_append, List.map_append, List.map_cons, List.sum_append,
      List.sum_append, List.sum_cons, add_assoc, add_comm (List.sum _) (total e.2)]

theorem modify_eq (h : q.blocks a = some b) (f : MessageBlock A → MessageBlock A) :
    q.modify a f = some { q with blocks := Function.update q.blocks a (some (f b)) } := by
  rw [modify, h]
  rfl

/-- A block that nothing follows is its whole chain. -/
theorem chainLoop_eq (h : q.blocks a = some b) (hnext : b.next = none) (n : ℕ) :
    chainLoop (n + 1) q a = some (q, a) := by
  rw [chainLoop, h, Option.bind_eq_bind, Option.bind_some, hnext]

omit [DecidableEq A] in
theorem account_totals (m : Message) : ((q.account m).curBytes, (q.account m).curLength) =
    (q.curBytes, q.curLength) + total m := by
  rw [account, totalSizeAndLength_eq]

variable [Fintype A]

/-- **`enqueue_head_i`**. -/
theorem enqueueHeadI_spec (h : Represents q es) (hb : q.blocks a = some b) (hnext : b.next = none)
    (ha : a ∉ es.map Prod.fst) : ∃ q' code, q.enqueueHeadI a = some (q', code) ∧
      Represents q' ((a, b.message) :: es) := by
  have hb' : (q.account b.message).blocks a = some b := hb
  rw [enqueueHeadI, hb, Option.bind_eq_bind, Option.bind_some, turns, chainLoop_eq hb' hnext]
  simp only [Option.bind_eq_bind, Option.bind_some, modify_eq hb']
  rw [modify_eq (Function.update_self ..), Option.bind_some, Function.update_idem]
  rcases es with _ | ⟨e, es⟩
  · have hhead : (q.account b.message).head = none := h.head
    simp only [hhead]
    refine ⟨_, _, rfl, ?_⟩
    refine Represents.insert (show Represents q ([] ++ []) from h) ha rfl rfl
      (Function.update_self ..) ?_ rfl
      (account_totals _) rfl
    exact fun x hx => absurd hx (List.not_mem_nil)
  · have hhead : (q.account b.message).head = some e.1 := h.head
    have hne : e.1 ≠ a := fun heq => ha (heq ▸ List.mem_cons_self ..)
    have hblock := Linked.block_eq (show Linked q ([] ++ e :: es) from h.toLinked)
    simp only [hhead]
    rw [modify_eq ((Function.update_of_ne hne ..).trans hblock), Option.bind_some]
    refine ⟨_, _, rfl, ?_⟩
    refine Represents.insert (e := (a, b.message)) (show Represents q ([] ++ e :: es) from h) ha
      rfl ?_ ?_ (fun x hx => ?_) rfl (account_totals _) rfl
    · rw [List.nil_append, List.map_cons, List.map_cons, List.getLast?_cons_cons, ← List.map_cons,
        ← h.tail]
      rfl
    · exact (Function.update_of_ne hne.symm ..).trans (Function.update_self ..)
    · have hxa : x ≠ a := fun heq => ha (heq ▸ hx)
      rcases eq_or_ne x e.1 with rfl | hxe
      · refine (Function.update_self ..).trans ?_
        rw [hblock]
        simp [linkTo]
      · refine (Function.update_of_ne hxe ..).trans ((Function.update_of_ne hxa ..).trans ?_)
        obtain ⟨f, hf, rfl⟩ := List.mem_map.mp hx
        obtain ⟨c, hc, -⟩ := h.holds f hf
        have hlink : linkTo [] (List.map Prod.fst (e :: es)) a f.1 c = c := by
          simp [linkTo, hxe.symm]
        exact hc.trans (by rw [hc, Option.map_some, List.map_nil, hlink])

/-- **`enqueue_tail_i`**. -/
theorem enqueueTailI_spec (h : Represents q es) (hb : q.blocks a = some b) (hnext : b.next = none)
    (ha : a ∉ es.map Prod.fst) : ∃ q' code, q.enqueueTailI a = some (q', code) ∧
      Represents q' (es ++ [(a, b.message)]) := by
  have hb' : (q.account b.message).blocks a = some b := hb
  rw [enqueueTailI, hb, Option.bind_eq_bind, Option.bind_some, turns, chainLoop_eq hb' hnext]
  simp only [Option.bind_eq_bind, Option.bind_some]
  rcases List.eq_nil_or_concat' es with rfl | ⟨es, e, rfl⟩
  · have htail : (q.account b.message).tail = none := h.tail
    simp only [htail]
    rw [modify_eq (by exact hb'), Option.bind_some]
    refine ⟨_, _, rfl, ?_⟩
    refine Represents.insert (show Represents q ([] ++ []) from h) ha rfl rfl ?_ ?_ rfl (account_totals _) rfl
    · exact (Function.update_self ..).trans (by rw [hnext]; rfl)
    · exact fun x hx => absurd hx (List.not_mem_nil)
  · have htail : (q.account b.message).tail = some e.1 := h.tail.trans (by simp)
    have hne : e.1 ≠ a := fun heq => ha (heq ▸ List.mem_map_of_mem (by simp))
    have hblock := Linked.block_eq (show Linked q (es ++ e :: []) from h.toLinked)
    simp only [htail]
    rw [modify_eq (by exact hblock), Option.bind_some,
      modify_eq ((Function.update_of_ne hne.symm ..).trans hb), Option.bind_some]
    refine ⟨_, _, rfl, ?_⟩
    rw [← List.append_nil (es ++ [e])] at h ha
    refine Represents.insert (e := (a, b.message)) h ha ?_ ?_ ?_ (fun x hx => ?_) rfl
      (account_totals _) rfl
    · exact h.head.trans (by simp)
    · simp
    · exact (Function.update_self ..).trans (by simp [hnext])
    · have hxa : x ≠ a := fun heq => ha (heq ▸ hx)
      refine (Function.update_of_ne hxa ..).trans ?_
      rcases eq_or_ne x e.1 with rfl | hxe
      · refine (Function.update_self ..).trans ?_
        rw [hblock]
        simp [linkTo]
      · refine (Function.update_of_ne hxe ..).trans ?_
        obtain ⟨f, hf, rfl⟩ := List.mem_map.mp hx
        obtain ⟨c, hc, -⟩ := h.holds f hf
        have hlink : linkTo (List.map Prod.fst (es ++ [e])) [] a f.1 c = c := by
          simp [linkTo, hxe.symm]
        exact hc.trans (by rw [hc, Option.map_some, List.map_nil, hlink])

omit [Fintype A] in
/-- The three blocks that an insertion between two others changes. -/
theorem splice_eq {temp next : A} {t n : MessageBlock A} (hb : q.blocks a = some b)
    (ht : q.blocks temp = some t) (htn : t.next = some next) (hn : q.blocks next = some n)
    (hta : temp ≠ a) (hna : next ≠ a) (hnt : next ≠ temp) :
    q.splice a temp = some { q with
      blocks := Function.update (Function.update (Function.update q.blocks a
        (some ⟨b.message, some next, some temp⟩)) next (some ⟨n.message, n.next, some a⟩)) temp
        (some ⟨t.message, some a, t.prev⟩) } := by
  have ht₁ : Function.update q.blocks a (some ⟨b.message, b.next, some temp⟩) temp = some t :=
    (Function.update_of_ne hta ..).trans ht
  have ht₂ : Function.update q.blocks a (some ⟨b.message, some next, some temp⟩) temp = some t :=
    (Function.update_of_ne hta ..).trans ht
  have hn₂ : Function.update q.blocks a (some ⟨b.message, some next, some temp⟩) next = some n :=
    (Function.update_of_ne hna ..).trans hn
  simp only [splice, Option.bind_eq_bind, modify_eq hb, Option.bind_some]
  rw [ht₁, Option.bind_some, modify_eq (by exact Function.update_self ..), Option.bind_some, htn]
  simp only [Function.update_idem]
  rw [ht₂, Option.bind_some, htn, Option.bind_some, modify_eq (by exact hn₂), Option.bind_some,
    modify_eq ((Function.update_of_ne hnt.symm ..).trans ht₂)]

omit [Fintype A] in
/-- **A block behind another one that is not the last.** -/
theorem spliceAndCount_spec {f : A × Message} (h : Represents q (es₁ ++ e :: f :: es₂))
    (hb : q.blocks a = some b) (ha : a ∉ (es₁ ++ e :: f :: es₂).map Prod.fst) :
    ∃ q' code, q.spliceAndCount a e.1 = some (q', code) ∧
      Represents q' (es₁ ++ e :: (a, b.message) :: f :: es₂) := by
  have hea : e.1 ≠ a := fun heq => ha (heq ▸ List.mem_map_of_mem (by simp))
  have hfa : f.1 ≠ a := fun heq => ha (heq ▸ List.mem_map_of_mem (by simp))
  have hfe : f.1 ≠ e.1 := by
    have hnodup := h.isList.nodup
    rw [List.map_append, List.map_cons, List.map_cons] at hnodup
    have hnotMem := (List.nodup_cons.mp (List.nodup_append.mp hnodup).2.1).1
    exact fun heq => hnotMem (heq ▸ List.mem_cons_self ..)
  have he := h.toLinked.block_eq
  have hcons : es₁ ++ e :: f :: es₂ = (es₁ ++ [e]) ++ f :: es₂ := by simp
  have hf := (hcons ▸ h.toLinked).block_eq
  rw [spliceAndCount, splice_eq hb he rfl hf hea hfa hfe, Option.bind_eq_bind, Option.bind_some]
  simp only [Option.bind_eq_bind]
  rw [Function.update_of_ne hea.symm, Function.update_of_ne hfa.symm, Function.update_self,
    Option.bind_some]
  refine ⟨_, _, rfl, ?_⟩
  rw [hcons] at h ha
  rw [show es₁ ++ e :: (a, b.message) :: f :: es₂ = (es₁ ++ [e]) ++ (a, b.message) :: f :: es₂ by
    simp]
  refine Represents.insert (e := (a, b.message)) h ha ?_ ?_ ?_ (fun x hx => ?_) rfl
    (account_totals _) rfl
  · exact h.head.trans (by simp)
  · exact h.tail.trans (by simp)
  · refine (Function.update_of_ne hea.symm ..).trans ((Function.update_of_ne hfa.symm ..).trans ?_)
    exact (Function.update_self ..).trans (by simp)
  · have hxa : x ≠ a := fun heq => ha (heq ▸ hx)
    rcases eq_or_ne x e.1 with rfl | hxe
    · refine (Function.update_self ..).trans ?_
      rw [he]
      simp [linkTo, hfe]
    · refine (Function.update_of_ne hxe ..).trans ?_
      rcases eq_or_ne x f.1 with rfl | hxf
      · refine (Function.update_self ..).trans ?_
        rw [hf]
        simp [linkTo, hfe.symm]
      · refine (Function.update_of_ne hxf ..).trans ((Function.update_of_ne hxa ..).trans ?_)
        obtain ⟨g, hg, rfl⟩ := List.mem_map.mp hx
        obtain ⟨c, hc, -⟩ := h.holds g hg
        have hlink : linkTo ((es₁ ++ [e]).map Prod.fst) ((f :: es₂).map Prod.fst) a g.1 c = c := by
          simp [linkTo, hxe.symm, hxf.symm]
        exact hc.trans (by rw [hc, Option.map_some, hlink])

/-! ### Removing a block -/

omit [Fintype A]

/-- What a removal between two lists of blocks does to the block at `x`. -/
def linkAcross (l₁ l₂ : List A) (x : A) (b : MessageBlock A) : MessageBlock A :=
  { b with
    next := if l₁.getLast? = some x then l₂.head? else b.next
    prev := if l₂.head? = some x then l₁.getLast? else b.prev }

/-- **A block is taken out.** -/
theorem Linked.remove (h : Linked q (es₁ ++ e :: es₂))
    (hhead : q'.head = ((es₁ ++ es₂).map Prod.fst).head?)
    (htail : q'.tail = ((es₁ ++ es₂).map Prod.fst).getLast?)
    (hold : ∀ x ∈ (es₁ ++ es₂).map Prod.fst, q'.blocks x =
      (q.blocks x).map (linkAcross (es₁.map Prod.fst) (es₂.map Prod.fst) x)) :
    Linked q' (es₁ ++ es₂) := by
  have hsub : ∀ f ∈ es₁ ++ es₂, f ∈ es₁ ++ e :: es₂ := fun f hf => by
    rw [List.mem_append, List.mem_cons]
    exact (List.mem_append.mp hf).imp_right Or.inr
  have hblock : ∀ x ∈ (es₁ ++ es₂).map Prod.fst, ∃ b, q.blocks x = some b := fun x hx => by
    obtain ⟨f, hf, rfl⟩ := List.mem_map.mp hx
    obtain ⟨b, hb, -⟩ := h.holds f (hsub f hf)
    exact ⟨b, hb⟩
  have hlist := h.isList
  refine ⟨hhead, htail, ?_, fun f hf => ?_⟩
  · rw [List.map_append, List.map_cons] at hlist
    rw [List.map_append] at hold hblock ⊢
    refine hlist.erase (fun x hx => ?_) fun x hx => ?_
    · obtain ⟨b, hb⟩ := hblock x hx
      rw [linksBy, linksBy, hold x hx, hb, Option.map_some, Option.map_some, Option.map_some,
        linkAcross]
      split_ifs <;> rfl
    · obtain ⟨b, hb⟩ := hblock x hx
      rw [linksBy, linksBy, hold x hx, hb, Option.map_some, Option.map_some, Option.map_some,
        linkAcross]
      split_ifs <;> rfl
  · obtain ⟨b, hb, hmessage⟩ := h.holds f (hsub f hf)
    refine ⟨linkAcross (es₁.map Prod.fst) (es₂.map Prod.fst) f.1 b, ?_, hmessage⟩
    rw [hold f.1 (List.mem_map_of_mem hf), hb]
    rfl

theorem linkNext_eq {prev : Option A} (hprev : ∀ p, prev = some p → ∃ b, q.blocks p = some b)
    (next : Option A) : q.linkNext prev next = some { q with
      head := if prev = none then next else q.head
      blocks := fun x =>
        if prev = some x then (q.blocks x).map fun b => { b with next := next } else q.blocks x } := by
  rcases prev with _ | p
  · rfl
  · obtain ⟨b, hb⟩ := hprev p rfl
    rw [linkNext, modify_eq hb, if_neg (Option.some_ne_none p), Option.some.injEq]
    congr 1
    funext x
    rcases eq_or_ne x p with rfl | hne
    · rw [Function.update_self, if_pos rfl, hb, Option.map_some]
    · rw [Function.update_of_ne hne, if_neg (by simpa using hne.symm)]

theorem linkPrev_eq {next : Option A} (hnext : ∀ n, next = some n → ∃ b, q.blocks n = some b)
    (prev : Option A) : q.linkPrev prev next = some { q with
      tail := if next = none then prev else q.tail
      blocks := fun x =>
        if next = some x then (q.blocks x).map fun b => { b with prev := prev } else q.blocks x } := by
  rcases next with _ | n
  · rfl
  · obtain ⟨b, hb⟩ := hnext n rfl
    rw [linkPrev, modify_eq hb, if_neg (Option.some_ne_none n), Option.some.injEq]
    congr 1
    funext x
    rcases eq_or_ne x n with rfl | hne
    · rw [Function.update_self, if_pos rfl, hb, Option.map_some]
    · rw [Function.update_of_ne hne, if_neg (by simpa using hne.symm)]

/-- **The neighbours of a block are linked to each other.** -/
theorem patchUp_spec (h : Linked q (es₁ ++ e :: es₂)) :
    ∃ q', q.patchUp e.1 = some q' ∧ Linked q' (es₁ ++ es₂) ∧
      Holds q'.blocks MessageBlock.message e ∧ q'.curCount = q.curCount ∧
      q'.curBytes = q.curBytes ∧ q'.curLength = q.curLength ∧ q'.state = q.state := by
  have he := h.block_eq
  have hnodup := h.isList.nodup
  rw [List.map_append, List.map_cons] at hnodup
  obtain ⟨hnotMem, -⟩ := List.nodup_cons.mp (List.nodup_middle.mp hnodup)
  rw [List.mem_append, not_or] at hnotMem
  have hprev : ∀ p, (es₁.map Prod.fst).getLast? = some p → p ∈ es₁.map Prod.fst := fun p hp =>
    List.mem_of_getLast? hp
  have hnext : ∀ n, (es₂.map Prod.fst).head? = some n → n ∈ es₂.map Prod.fst := fun n hn =>
    List.mem_of_head? hn
  have hblock : ∀ x ∈ (es₁ ++ e :: es₂).map Prod.fst, ∃ b, q.blocks x = some b := fun x hx => by
    obtain ⟨f, hf, rfl⟩ := List.mem_map.mp hx
    obtain ⟨b, hb, -⟩ := h.holds f hf
    exact ⟨b, hb⟩
  have hep : ¬(es₁.map Prod.fst).getLast? = some e.1 := fun heq => hnotMem.1 (hprev _ heq)
  have hen : ¬(es₂.map Prod.fst).head? = some e.1 := fun heq => hnotMem.2 (hnext _ heq)
  have hmapPrev : ∀ p, (es₁.map Prod.fst).getLast? = some p → ∃ b, q.blocks p = some b := fun p hp =>
    hblock p (by rw [List.map_append]; exact List.mem_append_left _ (hprev p hp))
  have hmapNext : ∀ n, (es₂.map Prod.fst).head? = some n → ∃ b, q.blocks n = some b := fun n hn =>
    hblock n (by
      rw [List.map_append, List.map_cons]
      exact List.mem_append_right _ (List.mem_cons_of_mem _ (hnext n hn)))
  rw [patchUp, he, Option.bind_eq_bind, Option.bind_some, linkNext_eq hmapPrev]
  simp only [Option.bind_eq_bind, Option.bind_some]
  rw [if_neg hep, he, Option.bind_some]
  rw [linkPrev_eq (fun n hn => ?_)]
  · refine ⟨_, rfl, h.remove ?_ ?_ (fun x hx => ?_), ?_, rfl, rfl, rfl, rfl⟩
    · rw [h.head]
      rcases es₁ with _ | ⟨p, es₁⟩
      · rfl
      · simp
    · rw [h.tail]
      rcases es₂ with _ | ⟨n, es₂⟩
      · simp
      · simp
    · obtain ⟨b, hb⟩ := hblock x (by
        rw [List.map_append] at hx ⊢
        rw [List.map_cons, List.mem_append, List.mem_cons]
        exact (List.mem_append.mp hx).imp_right Or.inr)
      simp only [hb, Option.map_some, linkAcross]
      split_ifs <;> rfl
    · refine ⟨⟨e.2, (es₂.map Prod.fst).head?, (es₁.map Prod.fst).getLast?⟩, ?_, rfl⟩
      simp only
      rw [if_neg hen, if_neg hep, he]
  · obtain ⟨b, hb⟩ := hmapNext n hn
    simp only [hb, Option.map_some]
    split_ifs
    · exact ⟨_, rfl⟩
    · exact ⟨_, rfl⟩

/-- With one block or none behind, both pointers are null already when no block is left. -/
theorem resetEnds_eq (h : Linked q es) (hcount : q.curCount = (es.length : BitVec 64)) :
    q.resetEnds = q := by
  rw [resetEnds]
  split_ifs with hreset
  · obtain ⟨hzero, heq⟩ := hreset
    have hnil : es = [] := by
      rcases es with _ | ⟨f, es⟩
      · rfl
      · rw [h.head, h.tail, List.map_cons, List.head?_cons, List.getLast?_cons] at heq
        rcases List.eq_nil_or_concat' es with rfl | ⟨es, g, rfl⟩
        · rw [hcount, List.length_singleton] at hzero
          exact absurd hzero (by decide)
        · have hnodup := h.isList.nodup
          rw [List.map_cons, List.map_append] at hnodup
          refine absurd (List.mem_append_right _ ?_) (List.nodup_cons.mp hnodup).1
          simpa using heq
    subst hnil
    have hhead : q.head = none := h.head
    have htail : q.tail = none := h.tail
    rw [← hhead]
    nth_rewrite 2 [hhead]
    rw [← htail]
  · rfl

/-- **The end of a dequeue.** -/
theorem dequeued_spec (h : Linked q es) (he : Holds q.blocks MessageBlock.message e)
    (hnotMem : e.1 ∉ es.map Prod.fst) (hcount : q.curCount = (es.length : BitVec 64) + 1)
    (htotals : (q.curBytes, q.curLength) = total e.2 + (es.map fun e => total e.2).sum)
    (hactive : q.state = .activated) : ∃ q' code, q.dequeued e.1 = some (q', ⟨code, none, some e.1⟩) ∧
      Represents q' es := by
  obtain ⟨b, hb, hmessage⟩ := he
  have hne : ∀ f ∈ es, f.1 ≠ e.1 := fun f hf heq => hnotMem (heq ▸ List.mem_map_of_mem hf)
  have hlinked : Linked { q with
      curBytes := q.curBytes - (totalSizeAndLength b.message 0 0).1
      curLength := q.curLength - (totalSizeAndLength b.message 0 0).2
      curCount := q.curCount - 1 } es := ⟨h.head, h.tail, h.isList, h.holds⟩
  have hone : q.curCount - 1 = (es.length : BitVec 64) := by rw [hcount, add_sub_cancel_right]
  simp only [dequeued, hb, Option.bind_eq_bind, Option.bind_some]
  rw [resetEnds_eq hlinked hone, modify_eq (by exact hb), Option.bind_some,
    modify_eq (by exact Function.update_self ..), Option.bind_some]
  refine ⟨_, _, rfl, ⟨h.head, h.tail, h.isList.congr ?_ ?_, fun f hf => ?_⟩, hone, ?_, hactive⟩
  · intro x hx
    have hxe : x ≠ e.1 := fun heq => hnotMem (heq ▸ hx)
    simp only [linksBy, Function.update_of_ne hxe]
  · intro x hx
    have hxe : x ≠ e.1 := fun heq => hnotMem (heq ▸ hx)
    simp only [linksBy, Function.update_of_ne hxe]
  · obtain ⟨c, hc, hcm⟩ := h.holds f hf
    refine ⟨c, ?_, hcm⟩
    simp only [Function.update_of_ne (hne f hf), hc]
  · simp only [totalSizeAndLength_eq, hmessage]
    rw [← Prod.mk_sub_mk, htotals, Prod.mk.eta, ← Prod.zero_eq_mk, zero_add, add_sub_cancel_left]

end MessageQueue

end AceTao
