import AceTao.Library.Machine
import AceTao.MessageQueue.Spec
import Mathlib.Data.Fin.VecNotation

/-!
# Runs of a message queue

A run is told with its *arrivals*: the messages in the queue in the order in which they were
enqueued, whatever order the queue keeps them in (`MessageQueue.history`). The application changes
or enqueues only a block that is not in the queue (`Owned`).

* With `enqueue_prio`, `dequeue_head` and `dequeue_prio`, the queue is a stable queue of its
  arrivals, so that the one takes out the oldest message of the highest priority and the other the
  oldest of the lowest (`serves_of_run`).
* With `enqueue_deadline` and `dequeue_head` it is one as long as no message arrives before whose
  deadline another one in the queue has (`deadlineOrdered_of_run`). Any other arrival goes behind a
  message of a later deadline (`not_deadlineOrdered_three`).
-/

namespace AceTao

open DoublyLinked SortedInsert StableQueue

namespace MessageQueue

variable {A : Type} {q : MessageQueue A} {es es₁ es₂ l : List (A × Message)} {e : A × Message}
  {a : A} {b : MessageBlock A} {c : Command A}

/-! ### Arrivals -/

variable [DecidableEq A]

/-- The arrivals after an operation and its result. -/
def arrive (q : MessageQueue A) (l : List (A × Message)) (c : Command A) (r : Result A) :
    List (A × Message) :=
  match c with
  | .write _ _ => l
  | .enqueuePrio newItem | .enqueueDeadline newItem =>
    match newItem.bind fun a => (q.blocks a).map fun b => (a, b.message) with
    | none => l
    | some e => if r.errno = none then l ++ [e] else l
  | .dequeueHead | .dequeuePrio | .dequeueDeadline => l.filter fun e => r.item ≠ some e.1

variable [Fintype A]

/-- **A step with the arrivals.** -/
def history (s : MessageQueue A × List (A × Message)) (c : Command A) :
    Option ((MessageQueue A × List (A × Message)) × Result A) :=
  (step s.1 c).map fun (q, r) => ((q, arrive s.1 s.2 c r), r)

omit [DecidableEq A] in
/-- The blocks in the queue. -/
def queued (q : MessageQueue A) : List A := (q.contents.getD []).map Prod.fst

/-- **The application uses only blocks that are not in the queue**, and that are there. -/
def Owned (q : MessageQueue A) : Command A → Prop
  | .write a _ => a ∉ q.queued
  | .enqueuePrio (some a) | .enqueueDeadline (some a) => a ∉ q.queued ∧ q.blocks a ≠ none
  | _ => True

/-- The operations of a priority queue. -/
def Command.IsPrio : Command A → Prop
  | .write _ _ | .enqueuePrio _ | .dequeueHead | .dequeuePrio => True
  | _ => False

/-- The operations of a queue of deadlines. -/
def Command.IsDeadline : Command A → Prop
  | .write _ _ | .enqueueDeadline _ | .dequeueHead => True
  | _ => False

instance : ∀ c : Command A, Decidable c.IsPrio
  | .write _ _ | .enqueuePrio _ | .dequeueHead | .dequeuePrio => .isTrue trivial
  | .enqueueDeadline _ | .dequeueDeadline => .isFalse id

instance : ∀ c : Command A, Decidable c.IsDeadline
  | .write _ _ | .enqueueDeadline _ | .dequeueHead => .isTrue trivial
  | .enqueuePrio _ | .dequeuePrio | .dequeueDeadline => .isFalse id

instance (q : MessageQueue A) : ∀ c : Command A, Decidable (Owned q c)
  | .write a _ => inferInstanceAs (Decidable (a ∉ q.queued))
  | .enqueuePrio (some a) | .enqueueDeadline (some a) =>
    match h : q.blocks a with
    | none => .isFalse fun ho => ho.2 h
    | some b => decidable_of_iff (a ∉ q.queued)
      ⟨fun ha => ⟨ha, h.trans_ne (Option.some_ne_none b)⟩, fun ho => ho.1⟩
  | .enqueuePrio none | .enqueueDeadline none | .dequeueHead | .dequeuePrio | .dequeueDeadline =>
    .isTrue trivial

/-- **A stable queue of the arrivals.** -/
def Keeps {τ : Type} [LinearOrder τ] (key : A × Message → τ)
    (s : MessageQueue A × List (A × Message)) : Prop :=
  ∃ es, Represents s.1 es ∧ Sorts key es s.2

omit [DecidableEq A] in
theorem queued_eq (h : Linked q es) : q.queued = es.map Prod.fst := by
  rw [queued, contents_eq h, Option.getD_some]

/-! ### Steps -/

omit [DecidableEq A] [Fintype A] in
theorem isEmptyI_eq (h : Linked q es) : q.isEmptyI = true ↔ es = [] := by
  rw [isEmptyI, h.tail, decide_eq_true_eq, List.getLast?_eq_none_iff, List.map_eq_nil_iff]

omit [DecidableEq A] [Fintype A] in
/-- An empty queue has nothing to give. -/
theorem dequeue_nil (h : Represents q [])
    (remove : MessageQueue A → Option (MessageQueue A × Result A)) :
    dequeue remove q = some (q, ⟨-1, some .ewouldblock, none⟩) := by
  rw [dequeue, h.active, if_neg (by decide), if_pos ((isEmptyI_eq h.toLinked).mpr rfl)]

omit [DecidableEq A] [Fintype A] in
theorem dequeue_eq (h : Represents q es) (hes : es ≠ [])
    (remove : MessageQueue A → Option (MessageQueue A × Result A)) :
    dequeue remove q = remove q := by
  rw [dequeue, h.active, if_neg (by decide), if_neg (mt (isEmptyI_eq h.toLinked).mp hes)]

omit [DecidableEq A] [Fintype A] in
/-- A full queue refuses a message. -/
theorem enqueue_full (h : Represents q es) (hfull : q.isFullI = true)
    (insert : MessageQueue A → Option A → Option (MessageQueue A × ℤ)) (newItem : Option A) :
    enqueue insert q newItem = some (q, ⟨-1, some .ewouldblock, none⟩) := by
  rw [enqueue, h.active, if_neg (by decide), if_pos hfull]

omit [DecidableEq A] [Fintype A] in
theorem enqueue_eq (h : Represents q es) (hfull : ¬q.isFullI = true)
    (insert : MessageQueue A → Option A → Option (MessageQueue A × ℤ)) (newItem : Option A) :
    enqueue insert q newItem =
      (insert q newItem).map fun (q, code) => (q, ⟨code, none, none⟩) := by
  rw [enqueue, h.active, if_neg (by decide), if_neg hfull]

omit [Fintype A] in
/-- What is left in the queue. -/
theorem filter_removed (h : Linked q (es₁ ++ e :: es₂)) :
    (es₁ ++ e :: es₂).filter (fun f => some e.1 ≠ some f.1) = es₁ ++ es₂ := by
  have hnodup := h.isList.nodup
  rw [List.map_append, List.map_cons] at hnodup
  have hnotMem := (List.nodup_cons.mp (List.nodup_middle.mp hnodup)).1
  rw [← List.map_append] at hnotMem
  have hkeep : ∀ f ∈ es₁ ++ es₂, decide (some e.1 ≠ some f.1) = true := fun f hf => by
    refine decide_eq_true fun heq => hnotMem ?_
    rw [Option.some.inj heq]
    exact List.mem_map_of_mem hf
  have hdrop : ¬decide (some e.1 ≠ some e.1) = true := by simp
  rw [List.filter_append, List.filter_cons_of_neg (p := fun f : A × Message => some e.1 ≠ some f.1)
    hdrop, ← List.filter_append,
    List.filter_eq_self.mpr hkeep]

section Keeps

variable {τ : Type} [LinearOrder τ] {key : A × Message → τ}

omit [Fintype A] in
/-- **An operation that dequeues** takes out one message, or finds the queue empty. -/
theorem Keeps.dequeue (h : Represents q es) (hs : Sorts key es l)
    {remove : MessageQueue A → Option (MessageQueue A × Result A)}
    (hremove : es ≠ [] → ∃ es₁ e es₂ q' code, es = es₁ ++ e :: es₂ ∧
      remove q = some (q', ⟨code, none, some e.1⟩) ∧ Represents q' (es₁ ++ es₂)) :
    ∃ q' r, dequeue remove q = some (q', r) ∧
      Keeps key (q', l.filter fun f => r.item ≠ some f.1) := by
  rcases eq_or_ne es [] with rfl | hne
  · refine ⟨q, _, dequeue_nil h remove, [], h, ?_⟩
    have hl : l = [] := List.eq_nil_iff_forall_not_mem.mpr fun f hf =>
      List.not_mem_nil (hs.levels.mem_iff.mpr hf)
    rw [hl] at hs ⊢
    exact hs
  · obtain ⟨es₁, e, es₂, q', code, rfl, hr, h'⟩ := hremove hne
    refine ⟨q', _, (dequeue_eq h hne remove).trans hr, es₁ ++ es₂, h', ?_⟩
    rw [← filter_removed h.toLinked]
    exact hs.filter _

/-- **An operation that enqueues** puts a message in its place, or finds the queue full. -/
theorem Keeps.enqueue (h : Represents q es) (hs : Sorts key es l) {newItem : Option A}
    (hnew : ∀ a, newItem = some a → a ∉ q.queued ∧ q.blocks a ≠ none)
    {insert : MessageQueue A → Option A → Option (MessageQueue A × ℤ)}
    (hnone : insert q none = some (q, -1))
    (hinsert : ¬q.isFullI = true → ∀ a b, newItem = some a → q.blocks a = some b →
      a ∉ es.map Prod.fst → ∃ es' q' code, insert q (some a) = some (q', code) ∧ Represents q' es' ∧
        Sorts key es' (l ++ [(a, b.message)])) :
    ∃ q' r, enqueue insert q newItem = some (q', r) ∧
      Keeps key (q', arrive q l (.enqueuePrio newItem) r) := by
  by_cases hfull : q.isFullI = true
  · refine ⟨q, _, enqueue_full h hfull insert newItem, es, h, ?_⟩
    rw [arrive]
    split
    · exact hs
    · exact hs
  · rw [enqueue_eq h hfull insert]
    rcases newItem with _ | a
    · exact ⟨q, _, by rw [hnone]; rfl, es, h, hs⟩
    · obtain ⟨ha, hb⟩ := hnew a rfl
      rw [queued_eq h.toLinked] at ha
      obtain ⟨b, hb⟩ := Option.ne_none_iff_exists'.mp hb
      obtain ⟨es', q', code, hr, h', hs'⟩ := hinsert hfull a b rfl hb ha
      refine ⟨q', _, by rw [hr]; rfl, es', h', ?_⟩
      rw [arrive, Option.bind_some, hb]
      exact hs'

/-- **A block of the application** is written. -/
theorem Keeps.write (h : Represents q es) (hs : Sorts key es l) (ha : a ∉ q.queued)
    (b : MessageBlock A) : Keeps key ({ q with blocks := Function.update q.blocks a (some b) }, l) := by
  rw [queued_eq h.toLinked] at ha
  exact ⟨es, h.write ha b, hs⟩

omit [Fintype A] in
/-- `dequeue_head` in a stable queue. -/
theorem Keeps.dequeueHead (h : Represents q es) (hs : Sorts key es l) :
    ∃ q' r, q.dequeueHead = some (q', r) ∧ Keeps key (q', l.filter fun f => r.item ≠ some f.1) := by
  refine Keeps.dequeue h hs fun hne => ?_
  obtain ⟨e, es, rfl⟩ := List.exists_cons_of_ne_nil hne
  obtain ⟨q', code, hr, h'⟩ := dequeueHeadI_spec h
  exact ⟨[], e, es, q', code, rfl, hr, h'⟩

end Keeps

/-- **A step of a priority queue.** -/
theorem Keeps.step_prio (h : Keeps prioKey (q, l)) (hc : c.IsPrio) (ho : Owned q c) :
    ∃ s r, history (q, l) c = some (s, r) ∧ Keeps prioKey s := by
  obtain ⟨es, h, hs⟩ := h
  have hmap : (∃ q' r, step q c = some (q', r) ∧ Keeps prioKey (q', arrive q l c r)) →
      ∃ s r, history (q, l) c = some (s, r) ∧ Keeps prioKey s := by
    rintro ⟨q', r, hstep, hk⟩
    exact ⟨(q', arrive q l c r), r, by rw [history, hstep]; rfl, hk⟩
  apply hmap
  cases c with
  | write a b => exact ⟨_, _, rfl, Keeps.write h hs ho b⟩
  | enqueuePrio newItem =>
    refine Keeps.enqueue h hs (fun a ha => ?_) rfl fun hfull a b ha hb hmem => ?_
    · subst ha
      exact ho
    · obtain ⟨q', code, hr, h'⟩ := enqueueI_spec h hb hmem
      exact ⟨_, q', code, hr, h', hs.insert _⟩
  | enqueueDeadline newItem => exact hc.elim
  | dequeueHead => exact Keeps.dequeueHead h hs
  | dequeuePrio =>
    refine Keeps.dequeue h hs fun hne => ?_
    obtain ⟨e, he⟩ := exists_firstLeast (k := fun f : A × Message => f.2.msgPriority) hne
    obtain ⟨es₁, es₂, rfl⟩ := List.append_of_mem (firstLeast_spec he).1
    obtain ⟨q', code, hr, h'⟩ := dequeuePrioI_spec h he
    exact ⟨es₁, e, es₂, q', code, rfl, hr, h'⟩
  | dequeueDeadline => exact hc.elim

/-! ### Priorities -/

/-- The oldest arrival of the highest priority. -/
def oldestHighest (l : List (A × Message)) : Option (A × Message) :=
  l.find? fun e => ∀ f ∈ l, f.2.msgPriority ≤ e.2.msgPriority

/-- The oldest arrival of the lowest priority. -/
def oldestLowest (l : List (A × Message)) : Option (A × Message) :=
  l.find? fun e => ∀ f ∈ l, e.2.msgPriority ≤ f.2.msgPriority

/-- **What the two operations take out** when there are messages in the queue. -/
def ServesPriorities (s : MessageQueue A × List (A × Message)) : Prop :=
  s.2 ≠ [] →
    (∃ e q' code, oldestHighest s.2 = some e ∧
      s.1.dequeueHead = some (q', ⟨code, none, some e.1⟩)) ∧
    ∃ e q' code, oldestLowest s.2 = some e ∧
      s.1.dequeuePrio = some (q', ⟨code, none, some e.1⟩)

theorem Keeps.servesPriorities {s : MessageQueue A × List (A × Message)} (h : Keeps prioKey s) :
    ServesPriorities s := by
  obtain ⟨es, h, hs⟩ := h
  intro hl
  have hne : es ≠ [] := by
    rintro rfl
    exact hl (List.eq_nil_iff_forall_not_mem.mpr fun f hf =>
      List.not_mem_nil (hs.levels.mem_iff.mpr hf))
  constructor
  · obtain ⟨e, es, rfl⟩ := List.exists_cons_of_ne_nil hne
    obtain ⟨q', code, hr, -⟩ := dequeueHeadI_spec h
    exact ⟨e, q', code, hs.head?_eq.symm, (dequeue_eq h hne _).trans hr⟩
  · obtain ⟨e, he⟩ := exists_firstLeast (k := fun f : A × Message => f.2.msgPriority) hne
    have hlevels : SameLevels (fun f : A × Message => f.2.msgPriority) es s.2 := hs.levels
    obtain ⟨es₁, es₂, rfl⟩ := List.append_of_mem (firstLeast_spec he).1
    obtain ⟨q', code, hr, -⟩ := dequeuePrioI_spec h he
    exact ⟨e, q', code, hlevels.firstLeast_eq.symm.trans he, (dequeue_eq h hne _).trans hr⟩

/-- **Every run of a priority queue**: `dequeue_head` takes out the oldest message of the highest
priority, and `dequeue_prio` the oldest of the lowest. -/
theorem serves_of_run (blocks : A → Option (MessageBlock A)) (hwm lwm : BitVec 64) (ne nf : ℤ)
    (cs : List (Command A)) (hcs : Machine.Guarded history (fun s c => c.IsPrio ∧ Owned s.1 c)
      (init blocks hwm lwm ne nf, []) cs) :
    ∃ s rs, Machine.run history (init blocks hwm lwm ne nf, []) cs = some (s, rs) ∧
      ServesPriorities s := by
  obtain ⟨s, rs, hr, hk⟩ := Machine.run_isSome_of_guarded (P := Keeps prioKey)
    (fun s c hk hg => by
      obtain ⟨s', r, hstep, hk'⟩ := Keeps.step_prio hk hg.1 hg.2
      exact ⟨s', r, hstep, hk'⟩)
    ⟨[], represents_init blocks hwm lwm ne nf, sorts_nil prioKey⟩ hcs
  exact ⟨s, rs, hr, hk.servesPriorities⟩

/-- Three blocks with messages of the given priorities and deadlines. -/
def threeBlocks (prio : Fin 3 → Fin (2 ^ 64)) (deadline : Fin 3 → ℤ) (a : Fin 3) :
    Option (MessageBlock (Fin 3)) :=
  some ⟨⟨prio a, TimeValue.set (deadline a) 0, 64, 16, []⟩, none, none⟩

/-- A message of a higher priority overtakes one, and another stays behind. -/
theorem serves_of_run_three : ∃ s rs, Machine.run history
    (init (threeBlocks ![1, 2, 1] 0) 4096 0 0 0, [])
    [.enqueuePrio (some 0), .enqueuePrio (some 1), .enqueuePrio (some 2)] = some (s, rs) ∧
      ServesPriorities s :=
  serves_of_run _ _ _ _ _ _ (by decide +kernel)

/-! ### Deadlines -/

omit [DecidableEq A] [Fintype A] in
/-- An arrival of the latest deadline becomes the last message. -/
theorem insertDeadline_eq (h : ∀ f ∈ es, deadlineKey f ≤ deadlineKey e) :
    insertDeadline e es = insertBack deadlineKey e es := by
  have hfront : es.takeWhile (fun f => deadlineKey f ≤ deadlineKey e) = es :=
    List.takeWhile_eq_self_iff.mpr fun f hf => decide_eq_true (h f hf)
  have hback : es.dropWhile (fun f => deadlineKey f ≤ deadlineKey e) = [] :=
    List.dropWhile_eq_nil_iff.mpr fun f hf => decide_eq_true (h f hf)
  have hall : ∀ f ∈ es, ¬decide (deadlineKey e < deadlineKey f) = true := fun f hf => by
    simpa using h f hf
  simp only [insertDeadline]
  rw [hfront, hback, List.take_nil, List.append_nil, List.drop_nil, insertBack,
    List.rdropWhile_eq_self_iff.mpr fun hne => hall _ (List.getLast_mem hne),
    List.rtakeWhile_eq_nil_iff.mpr fun hne => hall _ (List.getLast_mem hne)]

/-- **The messages are ordered by their deadlines**, those of a deadline by their arrival, and the
head is what `dequeue_deadline` takes out. -/
def DeadlineOrdered (s : MessageQueue A × List (A × Message)) : Prop :=
  ∃ es, s.1.contents = some es ∧
    es.Pairwise (fun e f => e.2.msgDeadlineTime ≤ f.2.msgDeadlineTime) ∧
    (∀ d, es.filter (fun e => e.2.msgDeadlineTime = d) =
      s.2.filter fun e => e.2.msgDeadlineTime = d) ∧
    s.1.dequeueHead = s.1.dequeueDeadline

/-- **No message arrives before its turn**: when the queue takes a message, those in it have no later
deadline. -/
def NoneLater (q : MessageQueue A) : Command A → Prop
  | .enqueueDeadline (some a) => q.isFullI = false → ∀ b ∈ q.blocks a, ∀ e ∈ q.contents.getD [],
      e.2.msgDeadlineTime ≤ b.message.msgDeadlineTime
  | _ => True

instance (q : MessageQueue A) : ∀ c : Command A, Decidable (NoneLater q c)
  | .enqueueDeadline (some a) => inferInstanceAs (Decidable (q.isFullI = false → ∀ b ∈ q.blocks a,
      ∀ e ∈ q.contents.getD [], e.2.msgDeadlineTime ≤ b.message.msgDeadlineTime))
  | .write _ _ | .enqueuePrio _ | .enqueueDeadline none | .dequeueHead | .dequeuePrio
  | .dequeueDeadline => .isTrue trivial

/-- **A step of a queue of deadlines.** -/
theorem Keeps.step_deadline (h : Keeps deadlineKey (q, l)) (hc : c.IsDeadline) (ho : Owned q c)
    (hlate : NoneLater q c) : ∃ s r, history (q, l) c = some (s, r) ∧ Keeps deadlineKey s := by
  obtain ⟨es, h, hs⟩ := h
  have hmap : (∃ q' r, step q c = some (q', r) ∧ Keeps deadlineKey (q', arrive q l c r)) →
      ∃ s r, history (q, l) c = some (s, r) ∧ Keeps deadlineKey s := by
    rintro ⟨q', r, hstep, hk⟩
    exact ⟨(q', arrive q l c r), r, by rw [history, hstep]; rfl, hk⟩
  apply hmap
  cases c with
  | write a b => exact ⟨_, _, rfl, Keeps.write h hs ho b⟩
  | enqueuePrio newItem => exact hc.elim
  | enqueueDeadline newItem =>
    refine Keeps.enqueue h hs (fun a ha => ?_) rfl fun hfull a b ha hb hmem => ?_
    · subst ha
      exact ho
    · subst ha
      have hle : ∀ f ∈ es, deadlineKey f ≤ deadlineKey (a, b.message) := fun f hf =>
        hlate (Bool.eq_false_of_not_eq_true hfull) b hb f (by rwa [contents_eq h.toLinked])
      obtain ⟨q', code, hr, h'⟩ := enqueueDeadlineI_spec h hb hmem
      rw [insertDeadline_eq hle] at h'
      exact ⟨_, q', code, hr, h', hs.insert _⟩
  | dequeueHead => exact Keeps.dequeueHead h hs
  | dequeuePrio => exact hc.elim
  | dequeueDeadline => exact hc.elim

theorem Keeps.deadlineOrdered {s : MessageQueue A × List (A × Message)} (h : Keeps deadlineKey s) :
    DeadlineOrdered s := by
  obtain ⟨es, h, hs⟩ := h
  refine ⟨es, contents_eq h.toLinked, hs.sorted, fun d => by convert hs.levels d <;> rfl, ?_⟩
  rcases es with _ | ⟨e, es⟩
  · exact (dequeue_nil h _).trans (dequeue_nil h _).symm
  · have hne := List.cons_ne_nil e es
    have hfirst : firstLeast deadlineKey (e :: es) = some e :=
      hs.levels.firstLeast_eq.trans (hs.head?_eq.symm.trans (List.head?_cons ..))
    refine (dequeue_eq h hne _).trans (Eq.trans ?_ (dequeue_eq h hne _).symm)
    rw [dequeueHeadI_eq h.toLinked, dequeueDeadlineI_eq h.toLinked hfirst]

/-- **Every run of a queue of deadlines in which no message arrives before its turn.** -/
theorem deadlineOrdered_of_run (blocks : A → Option (MessageBlock A)) (hwm lwm : BitVec 64) (ne nf : ℤ)
    (cs : List (Command A)) (hcs : Machine.Guarded history
      (fun s c => c.IsDeadline ∧ Owned s.1 c ∧ NoneLater s.1 c)
      (init blocks hwm lwm ne nf, []) cs) :
    ∃ s rs, Machine.run history (init blocks hwm lwm ne nf, []) cs = some (s, rs) ∧
      DeadlineOrdered s := by
  obtain ⟨s, rs, hr, hk⟩ := Machine.run_isSome_of_guarded (P := Keeps deadlineKey)
    (fun s c hk hg => by
      obtain ⟨s', r, hstep, hk'⟩ := Keeps.step_deadline hk hg.1 hg.2.1 hg.2.2
      exact ⟨s', r, hstep, hk'⟩)
    ⟨[], represents_init blocks hwm lwm ne nf, sorts_nil deadlineKey⟩ hcs
  exact ⟨s, rs, hr, hk.deadlineOrdered⟩

/-- Three arrivals of later and later deadlines. -/
theorem deadlineOrdered_of_run_three : ∃ s rs, Machine.run history
    (init (threeBlocks 0 ![10, 20, 20]) 4096 0 0 0, [])
    [.enqueueDeadline (some 0), .enqueueDeadline (some 1), .enqueueDeadline (some 2)] =
      some (s, rs) ∧ DeadlineOrdered s :=
  deadlineOrdered_of_run _ _ _ _ _ _ (by decide +kernel)

/-- **Three deadlines out of order**: the message of the earliest goes behind the one that it should
go in front of. -/
theorem not_deadlineOrdered_three : ¬∀ cs : List (Command (Fin 3)), Machine.Guarded history
    (fun s c => c.IsDeadline ∧ Owned s.1 c) (init (threeBlocks 0 ![10, 20, 5]) 4096 0 0 0, []) cs →
      ∃ s rs, Machine.run history (init (threeBlocks 0 ![10, 20, 5]) 4096 0 0 0, []) cs =
        some (s, rs) ∧ DeadlineOrdered s := by
  intro h
  obtain ⟨s, rs, hrun, es, hes, hsorted, -⟩ := h
    [.enqueueDeadline (some 0), .enqueueDeadline (some 1), .enqueueDeadline (some 2)]
    (by decide +kernel)
  have heval : (Machine.run history (init (threeBlocks 0 ![10, 20, 5]) 4096 0 0 0, [])
      [.enqueueDeadline (some 0), .enqueueDeadline (some 1), .enqueueDeadline (some 2)]).map
        (fun p => p.1.1.contents.any fun es =>
          decide (es.Pairwise fun e f => e.2.msgDeadlineTime ≤ f.2.msgDeadlineTime)) =
      some false := by decide +kernel
  rw [hrun, Option.map_some, hes, Option.any_some, decide_eq_true hsorted, Option.some.injEq] at heval
  cases heval

end MessageQueue

end AceTao
