import AceTao.Library.StableQueue
import AceTao.MessageQueue.Links
import Mathlib.Data.List.TakeWhile

/-!
# The operations of a message queue on its messages

On the list of the messages from head to tail, `enqueue_prio` is an insertion from the back by
decreasing priorities (`enqueueI_spec`). `enqueue_deadline` puts a message *behind* the first one
of a later deadline (`insertDeadline`, `enqueueDeadlineI_spec`). `dequeue_prio` and
`dequeue_deadline` take out the first message of the lowest priority and of the earliest deadline
(`dequeuePrioI_spec`, `dequeueDeadlineI_spec`).
-/

namespace AceTao

open DoublyLinked SortedInsert StableQueue

namespace MessageQueue

variable {A : Type} {q : MessageQueue A} {es es₁ es₂ : List (A × Message)} {e : A × Message}
  {a : A} {b : MessageBlock A}

/-! ### Keys -/

/-- Higher priorities come first. -/
def prioKey (e : A × Message) : (Fin (2 ^ 64))ᵒᵈ := OrderDual.toDual e.2.msgPriority

/-- Earlier deadlines come first. -/
def deadlineKey (e : A × Message) : TimeValue := e.2.msgDeadlineTime

/-- Where `enqueue_deadline` puts a message. -/
def insertDeadline (e : A × Message) (es : List (A × Message)) : List (A × Message) :=
  let front := es.takeWhile fun f => deadlineKey f ≤ deadlineKey e
  let back := es.dropWhile fun f => deadlineKey f ≤ deadlineKey e
  front ++ back.take 1 ++ e :: back.drop 1

/-! ### Enqueueing -/

theorem Linked.path (h : Linked q es) :
    Path (linksBy q.blocks MessageBlock.next) q.head (es.map Prod.fst) := by
  rw [h.head]
  exact @IsList.path _ _ _ [] _ h.isList

theorem Linked.path_reverse (h : Linked q es) :
    Path (linksBy q.blocks MessageBlock.prev) q.tail (es.reverse.map Prod.fst) := by
  rw [h.tail, List.map_reverse]
  exact @IsList.path_reverse _ _ _ _ [] (by rw [List.append_nil]; exact h.isList)

variable [DecidableEq A]

/-- **A block that is not in the queue** is changed. -/
theorem Represents.write (h : Represents q es) (ha : a ∉ es.map Prod.fst) (b : MessageBlock A) :
    Represents { q with blocks := Function.update q.blocks a (some b) } es := by
  have hne : ∀ x ∈ es.map Prod.fst, Function.update q.blocks a (some b) x = q.blocks x := by
    intro x hx
    exact Function.update_of_ne (fun heq => ha (by rwa [← heq])) ..
  refine ⟨⟨h.head, h.tail, h.isList.congr (fun x hx => ?_) fun x hx => ?_, fun f hf => ?_⟩,
    h.count, h.totals, h.active⟩
  · exact congrArg (Option.map MessageBlock.next) (hne x hx)
  · exact congrArg (Option.map MessageBlock.prev) (hne x hx)
  · obtain ⟨c, hc, hmessage⟩ := h.holds f hf
    exact ⟨c, (hne f.1 (List.mem_map_of_mem hf)).trans hc, hmessage⟩

variable [Fintype A]

/-- **A block behind any other.** -/
theorem enqueueBehind_spec (h : Represents q (es₁ ++ e :: es₂)) (hb : q.blocks a = some b)
    (hnext : b.next = none) (ha : a ∉ (es₁ ++ e :: es₂).map Prod.fst) :
    ∃ q' code, q.enqueueBehind a e.1 = some (q', code) ∧
      Represents q' (es₁ ++ e :: (a, b.message) :: es₂) := by
  rw [enqueueBehind, h.toLinked.block_eq, Option.bind_eq_bind, Option.bind_some]
  rcases es₂ with _ | ⟨f, es₂⟩
  · obtain ⟨q', code, hq', hr⟩ := enqueueTailI_spec h hb hnext ha
    exact ⟨q', code, hq', by rwa [List.append_assoc] at hr⟩
  · exact spliceAndCount_spec h hb ha

omit [Fintype A] in
/-- `new_item->next (0)`. -/
theorem clearNext_spec (h : Represents q es) (hb : q.blocks a = some b)
    (ha : a ∉ es.map Prod.fst) : ∃ q₁ b₁, (q.modify a fun b => { b with next := none }) = some q₁ ∧
      Represents q₁ es ∧ q₁.blocks a = some b₁ ∧ b₁.next = none ∧ b₁.message = b.message :=
  ⟨_, _, modify_eq hb _, h.write ha _, Function.update_self .., rfl, rfl⟩

omit [DecidableEq A] [Fintype A] in
theorem Linked.eq_nil (h : Linked q es) (hhead : q.head = none) : es = [] := by
  rw [h.head, List.head?_eq_none_iff, List.map_eq_nil_iff] at hhead
  exact hhead

omit [DecidableEq A] in
/-- The backward loop passes the messages of a lower priority. -/
theorem scan_prio (h : Linked q es) (a : A) (m : Message) :
    scan q.blocks MessageBlock.prev (fun t => m.msgPriority ≤ t.message.msgPriority) (turns A) q.tail =
      some (((es.rdropWhile fun f => prioKey (a, m) < prioKey f).getLast?).map Prod.fst) := by
  have hes : ∀ e ∈ es.reverse, Holds q.blocks MessageBlock.message e := fun e he =>
    h.holds e (List.mem_reverse.mp he)
  have hloop := scan_eq (p := fun t : Message => decide (m.msgPriority ≤ t.msgPriority))
    h.path_reverse hes (by rw [List.length_reverse]; exact h.length_lt)
  rw [hloop, List.rdropWhile, List.getLast?_reverse, List.find?_eq_head?_dropWhile_not]
  congr 4
  funext f
  rw [← decide_not, decide_eq_decide, not_le]
  rfl

omit [DecidableEq A] in
/-- The forward loop passes the messages of a deadline that is not later. -/
theorem scan_deadline (h : Linked q es) (a : A) (m : Message) :
    scan q.blocks MessageBlock.next (fun t => m.msgDeadlineTime < t.message.msgDeadlineTime) (turns A)
      q.head = some (((es.dropWhile fun f => deadlineKey f ≤ deadlineKey (a, m)).head?).map
        Prod.fst) := by
  have hloop := scan_eq (p := fun t : Message => decide (m.msgDeadlineTime < t.msgDeadlineTime))
    h.path h.holds h.length_lt
  rw [hloop, List.find?_eq_head?_dropWhile_not]
  congr 4
  funext f
  rw [← decide_not, decide_eq_decide, not_lt]
  rfl

/-- **`enqueue_i`** inserts from the back. -/
theorem enqueueI_spec (h : Represents q es) (hb : q.blocks a = some b) (ha : a ∉ es.map Prod.fst) :
    ∃ q' code, q.enqueueI (some a) = some (q', code) ∧
      Represents q' (insertBack prioKey (a, b.message) es) := by
  obtain ⟨q₁, b₁, hmodify, h₁, hb₁, hnext, hmessage⟩ := clearNext_spec h hb ha
  rw [enqueueI, hmodify, Option.bind_eq_bind, Option.bind_some, ← hmessage]
  rcases hhead : q₁.head with _ | p
  · obtain rfl := h₁.eq_nil hhead
    exact enqueueHeadI_spec h₁ hb₁ hnext ha
  · simp only [hb₁, Option.bind_eq_bind, Option.bind_some]
    rw [scan_prio h₁.toLinked a, Option.bind_some, insertBack]
    have hsplit := List.rdropWhile_append_rtakeWhile (l := es)
      (p := fun f => decide (prioKey (a, b₁.message) < prioKey f))
    generalize es.rdropWhile (fun f => prioKey (a, b₁.message) < prioKey f) = es₁ at hsplit ⊢
    generalize es.rtakeWhile (fun f => prioKey (a, b₁.message) < prioKey f) = es₂ at hsplit ⊢
    subst hsplit
    rcases List.eq_nil_or_concat' es₁ with rfl | ⟨es₁, t, rfl⟩
    · exact enqueueHeadI_spec h₁ hb₁ hnext ha
    · rw [List.getLast?_concat, Option.map_some]
      rw [List.append_assoc] at h₁ ha ⊢
      exact enqueueBehind_spec h₁ hb₁ hnext ha

/-- **`enqueue_deadline_i`** inserts behind the first message of a later deadline. -/
theorem enqueueDeadlineI_spec (h : Represents q es) (hb : q.blocks a = some b)
    (ha : a ∉ es.map Prod.fst) : ∃ q' code, q.enqueueDeadlineI (some a) = some (q', code) ∧
      Represents q' (insertDeadline (a, b.message) es) := by
  obtain ⟨q₁, b₁, hmodify, h₁, hb₁, hnext, hmessage⟩ := clearNext_spec h hb ha
  rw [enqueueDeadlineI, hmodify, Option.bind_eq_bind, Option.bind_some, ← hmessage]
  rcases hhead : q₁.head with _ | p
  · obtain rfl := h₁.eq_nil hhead
    exact enqueueHeadI_spec h₁ hb₁ hnext ha
  · simp only [hb₁, Option.bind_eq_bind, Option.bind_some]
    rw [← hhead, scan_deadline h₁.toLinked a, Option.bind_some]
    simp only [insertDeadline]
    have hsplit := List.takeWhile_append_dropWhile (l := es)
      (p := fun f => decide (deadlineKey f ≤ deadlineKey (a, b₁.message)))
    generalize es.takeWhile (fun f => deadlineKey f ≤ deadlineKey (a, b₁.message)) = es₁ at hsplit ⊢
    generalize es.dropWhile (fun f => deadlineKey f ≤ deadlineKey (a, b₁.message)) = es₂ at hsplit ⊢
    subst hsplit
    rcases es₂ with _ | ⟨t, es₂⟩
    · rw [List.append_nil] at h₁ ha
      simpa using enqueueTailI_spec h₁ hb₁ hnext ha
    · simpa using enqueueBehind_spec h₁ hb₁ hnext ha

/-! ### Dequeueing -/

omit [Fintype A] in
/-- **Any block is taken out.** -/
theorem takeOut_spec (h : Represents q (es₁ ++ e :: es₂)) : ∃ q' code,
    ((q.patchUp e.1).bind fun q => q.dequeued e.1) = some (q', ⟨code, none, some e.1⟩) ∧
      Represents q' (es₁ ++ es₂) := by
  obtain ⟨q₁, hq₁, hlinked, he, hcount, hbytes, hlength, hstate⟩ := patchUp_spec h.toLinked
  have hnodup := h.isList.nodup
  rw [List.map_append, List.map_cons] at hnodup
  rw [hq₁, Option.bind_some]
  refine dequeued_spec hlinked he ?_ ?_ ?_ (hstate.trans h.active)
  · rw [List.map_append]
    exact (List.nodup_cons.mp (List.nodup_middle.mp hnodup)).1
  · rw [hcount, h.count, List.length_append, List.length_append, List.length_cons, ← add_assoc]
    push_cast
    rfl
  · rw [hbytes, hlength, h.totals, List.map_append, List.map_append, List.map_cons, List.sum_append,
      List.sum_append, List.sum_cons, add_left_comm]

omit [Fintype A] in
/-- `dequeue_head_i` does to the first block what the others do to the chosen one. -/
theorem dequeueHeadI_eq (h : Linked q (e :: es)) :
    q.dequeueHeadI = (q.patchUp e.1).bind fun q => q.dequeued e.1 := by
  have hhead : q.head = some e.1 := h.head
  have he := Linked.block_eq (show Linked q ([] ++ e :: es) from h)
  rw [dequeueHeadI, hhead, patchUp, he]
  rcases es with _ | ⟨f, es⟩
  · simp [linkNext, linkPrev, he]
  · simp [linkNext, linkPrev, he]

omit [Fintype A] in
/-- **`dequeue_head_i`** takes out the first message. -/
theorem dequeueHeadI_spec (h : Represents q (e :: es)) : ∃ q' code,
    q.dequeueHeadI = some (q', ⟨code, none, some e.1⟩) ∧ Represents q' es := by
  rw [dequeueHeadI_eq h.toLinked]
  exact takeOut_spec (show Represents q ([] ++ e :: es) from h)

omit [DecidableEq A] [Fintype A] in
/-- The loops that choose a block choose an entry. -/
theorem foldl_fst {τ : Type} {f : Option A × τ → A → Message → Option A × τ}
    {g : Option (A × Message) × τ → A × Message → Option (A × Message) × τ}
    (hfg : ∀ s e, f (s.1.map Prod.fst, s.2) e.1 e.2 = ((g s e).1.map Prod.fst, (g s e).2))
    (top : τ) (es : List (A × Message)) : es.foldl (fun s e => f s e.1 e.2) (none, top) =
      ((es.foldl g (none, top)).1.map Prod.fst, (es.foldl g (none, top)).2) := by
  have hrun : ∀ s, es.foldl (fun s e => f s e.1 e.2) (s.1.map Prod.fst, s.2) =
      ((es.foldl g s).1.map Prod.fst, (es.foldl g s).2) := by
    induction es with
    | nil => exact fun s => rfl
    | cons e es ih => exact fun s => by rw [List.foldl_cons, List.foldl_cons, hfg, ih]
  exact hrun (none, top)

omit [DecidableEq A] in
/-- **The loop of `dequeue_prio_i`** chooses the first message of the lowest priority. -/
theorem choosePrio_loop (h : Linked q es)
    (he : firstLeast (fun f : A × Message => f.2.msgPriority) es = some e) :
    accumulate q.blocks MessageBlock.prev (fun s temp b => choosePrio s temp b.message) (turns A)
      q.tail (none, ulongMax) = some (some e.1, e.2.msgPriority) := by
  have hes : ∀ e ∈ es.reverse, Holds q.blocks MessageBlock.message e := fun e he =>
    h.holds e (List.mem_reverse.mp he)
  have hloop := accumulate_eq (f := choosePrio) (s := (none, ulongMax)) h.path_reverse hes
    (by rw [List.length_reverse]; exact h.length_lt)
  have htop : ∀ x : A × Message, x.2.msgPriority ≤ ulongMax := fun x =>
    Fin.le_def.mpr (Nat.le_sub_one_of_lt x.2.msgPriority.isLt)
  rw [hloop, foldl_fst (g := takeNotLarger fun f => f.2.msgPriority) (fun s e => ?_),
    foldl_takeNotLarger htop he]
  · rfl
  · rw [choosePrio, takeNotLarger]
    split_ifs <;> rfl

omit [DecidableEq A] in
/-- **The loop of `dequeue_deadline_i`** chooses the first message of the earliest deadline, or none
when no deadline is before `max_time`. -/
theorem chooseDeadline_loop (h : Linked q (e :: es)) {f : A × Message}
    (hf : firstLeast deadlineKey (e :: es) = some f) : ∃ s,
    accumulate q.blocks MessageBlock.next (fun s temp b => chooseDeadline s temp b.message) (turns A)
      q.head (none, TimeValue.maxTime) = some s ∧ s.1.getD e.1 = f.1 := by
  have hloop := accumulate_eq (f := chooseDeadline) (s := (none, TimeValue.maxTime)) h.path h.holds
    h.length_lt
  rw [foldl_fst (g := takeSmaller deadlineKey) (fun s e => ?_)] at hloop
  · refine ⟨_, hloop, ?_⟩
    rcases (TimeValue.le_maxTime (deadlineKey f)).lt_or_eq with hlt | heq
    · rw [foldl_takeSmaller hf hlt]
      rfl
    · obtain ⟨-, hle⟩ := firstLeast_spec hf
      have hall : ∀ g ∈ e :: es, TimeValue.maxTime ≤ deadlineKey g := fun g hg => heq ▸ hle g hg
      have hef : e = f := by
        rw [firstLeast_cons, if_pos fun g hg => (TimeValue.le_maxTime _).trans
          (hall g (List.mem_cons_of_mem _ hg)), Option.some.injEq] at hf
        exact hf
      rw [foldl_takeSmaller_of_le hall, hef]
      rfl
  · rw [chooseDeadline, takeSmaller, deadlineKey]
    split_ifs <;> rfl

/-- **`dequeue_prio_i`** takes out the first message of the lowest priority. -/
theorem dequeuePrioI_spec (h : Represents q (es₁ ++ e :: es₂))
    (he : firstLeast (fun f : A × Message => f.2.msgPriority) (es₁ ++ e :: es₂) = some e) :
    ∃ q' code, q.dequeuePrioI = some (q', ⟨code, none, some e.1⟩) ∧ Represents q' (es₁ ++ es₂) := by
  rcases hhead : q.head with _ | p
  · exact absurd (h.eq_nil hhead) (by simp)
  · rw [dequeuePrioI, hhead]
    simp only [choosePrio_loop h.toLinked he, Option.bind_eq_bind, Option.bind_some, Option.getD_some]
    exact takeOut_spec h

/-- **`dequeue_deadline_i`** takes out the first message of the earliest deadline. -/
theorem dequeueDeadlineI_eq (h : Linked q (e :: es)) {f : A × Message}
    (hf : firstLeast deadlineKey (e :: es) = some f) :
    q.dequeueDeadlineI = (q.patchUp f.1).bind fun q => q.dequeued f.1 := by
  have hhead : q.head = some e.1 := h.head
  obtain ⟨s, hs, hchosen⟩ := chooseDeadline_loop h hf
  rw [dequeueDeadlineI, hhead]
  simp only [← hhead, hs, Option.bind_eq_bind, Option.bind_some, hchosen]

omit [DecidableEq A] in
/-- What `contents` reads. -/
theorem contents_eq (h : Linked q es) : q.contents = some es := by
  have hloop := accumulate_eq (f := fun (l : List (A × Message)) a m => l ++ [(a, m)]) (s := [])
    h.path h.holds h.length_lt
  rw [contents, hloop, Option.some.injEq]
  have happend : ∀ l : List (A × Message), es.foldl (fun s e => s ++ [e]) l = l ++ es := fun l => by
    rw [List.foldl_append_eq_append, ← List.flatMap_def, List.flatMap_singleton']
  exact happend []

end MessageQueue

end AceTao
