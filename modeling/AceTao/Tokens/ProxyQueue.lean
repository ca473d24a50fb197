import Mathlib.Data.Fintype.Card
import AceTao.Library.Machine
import AceTao.Library.SinglyLinked

/-!
# The queue of a token

`ACE_Token_Proxy_Queue`: the entries of the proxies that hold a token or wait for it, linked through
their `next_`. An entry is put at a given position, where `-1` is the end, and it is removed by its
address.

Nothing keeps the three fields of the queue and the links of the entries consistent. They represent
a list of entries (`ProxyQueue.Represents`) as long as no entry is put in that is there already, and
as long as no entry is put at the end by counting: `enqueue` then leaves `tail_` where it was. Under
these conditions every operation does what it says to the list that is represented
(`enqueue_spec`, `remove_spec`, `dequeue_spec`), and the loops along the queue go along that list
(`Represents.walk_eq`).
-/

namespace AceTao.Tokens

open SinglyLinked

/-- `ACE_Token_Proxy_Queue`, with the links `next_` of the entries. -/
structure ProxyQueue (E : Type) where
  head : Option E
  tail : Option E
  next : E → Option E
  size : ℤ

namespace ProxyQueue

variable {E : Type}

/-- The constructor. -/
def empty : ProxyQueue E := ⟨none, none, fun _ => none, 0⟩

/-- The loop of `enqueue` that walks to the insertion point; it stops at the end of the queue. -/
def advance (next : E → Option E) : ℕ → E → E
  | 0, temp => temp
  | x + 1, temp =>
    match next temp with
    | none => temp
    | some temp' => advance next x temp'

section

variable [DecidableEq E]

/-- `enqueue`. It has no answer where it goes through a null `tail_`. -/
def enqueue (q : ProxyQueue E) (tpq : E) (position : ℤ) : Option (ProxyQueue E) :=
  let next := Function.update q.next tpq none
  let q := { q with next := next, size := q.size + 1 }
  match q.head with
  | none => some { q with head := some tpq, tail := some tpq }
  | some head =>
    if position = 0 then
      some { q with next := Function.update next tpq (some head), head := some tpq }
    else if position = -1 then
      match q.tail with
      | none => none
      | some tail =>
        some { q with next := Function.update next tail (some tpq), tail := some tpq }
    else
      -- an entry put behind the last one does not become the tail
      let temp := advance next (position - 1).toNat head
      some { q with
        next := Function.update (Function.update next tpq (next temp)) temp (some tpq) }

/-- `dequeue`. -/
def dequeue (q : ProxyQueue E) : ProxyQueue E :=
  match q.head with
  | none => q
  | some temp =>
    { q with
      head := q.next temp
      next := Function.update q.next temp none
      size := q.size - 1 }

variable [Fintype E]

/-- A loop along the queue from `current`. One that goes through more entries than there are has
gone round a circle and has no end. -/
def walk {β γ : Type} (q : ProxyQueue E) (body : β → E → β ⊕ γ) (current : Option E) (x : β) :
    Option (β ⊕ γ) :=
  SinglyLinked.walk q.next body (Fintype.card E) current x

/-- The body of the loop of `remove`: it breaks at the entry, with the one before it. -/
def findPrevious (removeMe : E) (previous : Option E) (temp : E) : Option E ⊕ Option E :=
  if temp = removeMe then .inr previous else .inl (some temp)

/-- `remove`. -/
def remove (q : ProxyQueue E) (removeMe : E) : Option (ProxyQueue E) :=
  match q.head with
  | none => some q
  | some head =>
    if head = removeMe then
      let head' := q.next head
      some { q with
        head := head'
        tail := if head' = none then none else q.tail
        size := q.size - 1 }
    else
      match q.walk (findPrevious removeMe) q.head none with
      | none => none
      | some (.inl _) => some q
      | some (.inr none) => none
      | some (.inr (some previous)) =>
        some { q with
          next := Function.update q.next previous (q.next removeMe)
          tail := if q.tail = some removeMe then some previous else q.tail
          size := q.size - 1 }

end

/-! ### The list that a queue represents -/

/-- **The queue represents a list of entries.** -/
structure Represents (q : ProxyQueue E) (l : List E) : Prop where
  nodup : l.Nodup
  head : q.head = l.head?
  segment : Segment q.next l none
  tail : l ≠ [] → q.tail = l.getLast?
  size : q.size = l.length

/-- Where an entry belongs that is put at a position. -/
def place (l : List E) (e : E) (position : ℤ) : List E :=
  if l = [] ∨ position = 0 then e :: l
  else if position = -1 then l ++ [e]
  else l.take (max 1 position.toNat) ++ e :: l.drop (max 1 position.toNat)

/-- **A position that `enqueue` gets right**: the front, the end when it is asked for by `-1`, and
the places between two entries. -/
def Between (l : List E) (position : ℤ) : Prop :=
  l = [] ∨ position = 0 ∨ position = -1 ∨ max 1 position.toNat < l.length

instance (l : List E) (position : ℤ) : Decidable (Between l position) :=
  inferInstanceAs (Decidable (_ ∨ _))

variable {q : ProxyQueue E} {l : List E} {e : E}

theorem place_back : place l e (-1) = l ++ [e] := by
  rcases l with _ | ⟨a, l⟩
  · rfl
  · rw [place, if_neg (by simp), if_pos rfl]

/-- Wherever it is put, the entry comes in addition to the others. -/
theorem place_perm (position : ℤ) : (place l e position).Perm (e :: l) := by
  unfold place
  split_ifs
  · exact List.Perm.refl _
  · exact List.perm_append_singleton e l
  · refine List.perm_middle.trans ?_
    rw [List.take_append_drop]

theorem represents_empty : Represents (empty : ProxyQueue E) [] :=
  ⟨List.nodup_nil, rfl, trivial, fun h => absurd rfl h, rfl⟩

theorem Represents.length_le [Fintype E] (h : q.Represents l) : l.length ≤ Fintype.card E :=
  h.nodup.length_le_card

/-- **A loop along the queue goes along the list.** -/
theorem Represents.walk_eq [Fintype E] (h : q.Represents l) {β γ : Type} (body : β → E → β ⊕ γ)
    (x : β) : q.walk body q.head x = some (visit body l x) := by
  rw [walk, h.head]
  exact SinglyLinked.walk_eq h.segment h.length_le x

/-- A loop that starts behind the head. -/
theorem Represents.walk_tail [Fintype E] (h : q.Represents (e :: l)) {β γ : Type}
    (body : β → E → β ⊕ γ) (x : β) : q.walk body (q.next e) x = some (visit body l x) := by
  obtain ⟨hnext, hl⟩ := h.segment
  rw [walk, hnext, Option.or_none]
  have hle := h.length_le
  exact SinglyLinked.walk_eq hl (by simp only [List.length_cons] at hle; omega) x

/-- The entries that are linked from the head. -/
def entries [Fintype E] (q : ProxyQueue E) : List E :=
  match q.walk (γ := Empty) (fun l e => .inl (l ++ [e])) q.head [] with
  | some (.inl l) => l
  | _ => []

theorem Represents.entries_eq [Fintype E] (h : q.Represents l) : q.entries = l := by
  have hvisit : ∀ acc l, visit (γ := Empty) (fun l e => .inl (l ++ [e])) l acc =
      .inl (acc ++ l : List E) := by
    intro acc l
    induction l generalizing acc with
    | nil => simp [visit]
    | cons a l ih => rw [visit]; simp only [ih, List.append_assoc, List.singleton_append]
  rw [entries, h.walk_eq, hvisit, List.nil_append]

/-- Walking on for fewer steps than there are entries behind. -/
theorem advance_eq {next : E → Option E} {a : E} {q : Option E} {x : ℕ} {l : List E}
    (h : Segment next (a :: l) q) (hx : x ≤ l.length) :
    ∃ l₁ temp l₂, a :: l = l₁ ++ temp :: l₂ ∧ l₁.length = x ∧ advance next x a = temp := by
  induction x generalizing a l with
  | zero => exact ⟨[], a, l, rfl, rfl, rfl⟩
  | succ x ih =>
    rcases l with _ | ⟨b, l⟩
    · simp at hx
    · obtain ⟨l₁, temp, l₂, heq, hlen, hadv⟩ := ih h.2 (by simpa using hx)
      refine ⟨a :: l₁, temp, l₂, by rw [heq]; rfl, by rw [List.length_cons, hlen], ?_⟩
      have hnext : next a = some b := by simpa using h.1
      simp only [advance, hnext]
      exact hadv

section

variable [DecidableEq E]

omit [DecidableEq E] in
theorem getLast?_cons_concat (l₁ l₂ : List E) (a t : E) :
    (l₁ ++ a :: (l₂ ++ [t])).getLast? = some t := by
  rw [← List.cons_append, ← List.append_assoc, List.getLast?_concat]

theorem enqueue_of_empty (h : q.head = none) (position : ℤ) :
    q.enqueue e position =
      some ⟨some e, some e, Function.update q.next e none, q.size + 1⟩ := by
  simp only [enqueue, h]

theorem enqueue_front {a : E} (h : q.head = some a) :
    q.enqueue e 0 = some ⟨some e, q.tail,
      Function.update (Function.update q.next e none) e (some a), q.size + 1⟩ := by
  simp only [enqueue, h, if_true]

theorem enqueue_back {a t : E} (h : q.head = some a) (ht : q.tail = some t) :
    q.enqueue e (-1) = some ⟨q.head, some e,
      Function.update (Function.update q.next e none) t (some e), q.size + 1⟩ := by
  simp only [enqueue, h, ht, if_true]
  rfl

theorem enqueue_behind {a temp : E} {position : ℤ} (h : q.head = some a) (h0 : position ≠ 0)
    (h1 : position ≠ -1)
    (hadv : advance (Function.update q.next e none) (position - 1).toNat a = temp) :
    q.enqueue e position = some ⟨q.head, q.tail,
      Function.update (Function.update (Function.update q.next e none) e
        (Function.update q.next e none temp)) temp (some e), q.size + 1⟩ := by
  simp only [enqueue, h, if_neg h0, if_neg h1, hadv]

/-- **`enqueue` puts the entry where it belongs.** -/
theorem enqueue_spec (h : q.Represents l) (he : e ∉ l) {position : ℤ}
    (hbetween : Between l position) :
    ∃ q', q.enqueue e position = some q' ∧ q'.Represents (place l e position) := by
  have hseg : Segment (Function.update q.next e none) l none := h.segment.update he none
  have hnodup : (e :: l).Nodup := List.nodup_cons.mpr ⟨he, h.nodup⟩
  have hsize : q.size + 1 = ((l.length + 1 : ℕ) : ℤ) := by rw [h.size]; simp
  rcases l with _ | ⟨a, l⟩
  · -- the entry makes up the entire list
    rw [place, if_pos (Or.inl rfl)]
    refine ⟨_, enqueue_of_empty h.head _, hnodup, rfl, ?_, fun _ => rfl, hsize⟩
    simp
  have hhead : q.head = some a := h.head
  have htail : q.tail = (a :: l).getLast? := h.tail (by simp)
  by_cases h0 : position = 0
  · rw [place, if_pos (Or.inr h0)]
    refine ⟨_, h0 ▸ enqueue_front hhead, hnodup, rfl, ?_, fun _ => ?_, hsize⟩
    · exact ⟨by simp, hseg.update he _⟩
    · simpa using htail
  by_cases h1 : position = -1
  · obtain ⟨l₀, t, hl⟩ : ∃ l₀ t, a :: l = l₀ ++ [t] :=
      ⟨_, _, (List.dropLast_concat_getLast (by simp : a :: l ≠ [])).symm⟩
    have ht : q.tail = some t := by rw [htail, hl, List.getLast?_concat]
    subst h1
    rw [place, if_neg (by simp), if_pos rfl]
    refine ⟨_, enqueue_back hhead ht, ?_, hhead, ?_, fun _ => ?_, ?_⟩
    · exact (List.perm_append_singleton e (a :: l)).nodup_iff.mpr hnodup
    · have hins := Segment.insert (b := e) (hl ▸ h.segment) (hl ▸ h.nodup) (hl ▸ he)
      have hlast : q.next t = none := by
        have := (segment_append.mp (hl ▸ h.segment)).2
        simpa using this
      rw [hlast] at hins
      rw [hl, List.append_assoc]
      exact hins
    · rw [List.getLast?_concat]
    · simpa using hsize
  · have hlt : max 1 position.toNat < (a :: l).length := by
      rcases hbetween with hnil | h | h | h
      · cases hnil
      · exact absurd h h0
      · exact absurd h h1
      · exact h
    have hx : (position - 1).toNat = max 1 position.toNat - 1 := by omega
    obtain ⟨l₁, temp, l₂, hl, hlen, hadv⟩ :=
      advance_eq hseg (x := (position - 1).toNat) (by simp only [List.length_cons] at hlt; omega)
    have hk : max 1 position.toNat = (l₁ ++ [temp]).length := by simp; omega
    have htake : place (a :: l) e position = l₁ ++ temp :: e :: l₂ := by
      have happ : l₁ ++ temp :: l₂ = (l₁ ++ [temp]) ++ l₂ := by simp
      rw [place, if_neg (by simp [h0]), if_neg h1, hk, hl, happ, List.take_left', List.drop_left']
        <;> simp
    have hne : l₂ ≠ [] := by
      rintro rfl
      rw [hl, hk] at hlt
      simp at hlt
    have hmem : temp ∈ a :: l := hl ▸ by simp
    rw [htake]
    refine ⟨_, enqueue_behind hhead h0 h1 hadv, ?_, ?_, ?_, fun _ => ?_, ?_⟩
    · rw [hl] at hnodup
      refine (List.Perm.nodup_iff ?_).mpr hnodup
      have hperm : ((l₁ ++ [temp]) ++ e :: l₂).Perm (e :: ((l₁ ++ [temp]) ++ l₂)) :=
        List.perm_middle
      simpa using hperm
    · rcases l₁ with _ | ⟨b, l₁⟩
      · cases hl; exact hhead
      · cases hl; exact hhead
    · exact Segment.insert (b := e) (hl ▸ hseg) (hl ▸ h.nodup) (hl ▸ he)
    · obtain ⟨l₃, t, rfl⟩ := List.eq_nil_or_concat' l₂ |>.resolve_left hne
      rw [htail, hl, getLast?_cons_concat, ← List.cons_append, getLast?_cons_concat]
    · rw [hsize, hl]
      simp
      omega

/-- **`dequeue` removes the first entry.** -/
theorem dequeue_spec (h : q.Represents l) : q.dequeue.Represents l.tail := by
  rcases l with _ | ⟨a, l⟩
  · rw [dequeue, h.head]
    exact h
  obtain ⟨hnext, hl⟩ := h.segment
  obtain ⟨ha, hnodup⟩ := List.nodup_cons.mp h.nodup
  rw [dequeue, h.head]
  refine ⟨hnodup, by simpa using hnext, hl.update ha _, fun hne => ?_, by rw [h.size]; simp⟩
  obtain ⟨l₀, t, rfl⟩ := List.eq_nil_or_concat' l |>.resolve_left hne
  rw [h.tail (by simp), List.tail_cons, List.getLast?_concat]
  exact getLast?_cons_concat [] l₀ a t

/-- The loop of `remove` finds the entry before the one to be removed. -/
theorem visit_findPrevious (l₁ l₂ : List E) (p : E) (x : Option E) (he : e ∉ l₁ ++ [p]) :
    visit (findPrevious e) (l₁ ++ p :: e :: l₂) x = .inr (some p) := by
  induction l₁ generalizing x with
  | nil =>
    have hp : p ≠ e := fun h => he (by simp [h])
    simp [visit, findPrevious, hp]
  | cons a l₁ ih =>
    have ha : a ≠ e := fun h => he (by simp [h])
    simp only [List.cons_append, visit, findPrevious, if_neg ha]
    exact ih _ fun h => he (by simp [h])

/-- It comes to the end when the entry is not there. -/
theorem visit_findPrevious_of_notMem {l : List E} (x : Option E) (he : e ∉ l) :
    ∃ y, visit (findPrevious e) l x = .inl y := by
  induction l generalizing x with
  | nil => exact ⟨x, rfl⟩
  | cons a l ih =>
    have ha : a ≠ e := fun h => he (by simp [h])
    simp only [visit, findPrevious, if_neg ha]
    exact ih _ fun h => he (by simp [h])

variable [Fintype E]

theorem remove_head {a : E} (h : q.head = some a) :
    q.remove a = some ⟨q.next a, if q.next a = none then none else q.tail, q.next, q.size - 1⟩ := by
  simp only [remove, h, if_true]

theorem remove_behind {a p : E} (h : q.head = some a) (hne : a ≠ e)
    (hwalk : q.walk (findPrevious e) (some a) none = some (.inr (some p))) :
    q.remove e = some ⟨q.head, if q.tail = some e then some p else q.tail,
      Function.update q.next p (q.next e), q.size - 1⟩ := by
  simp only [remove, h, if_neg hne, hwalk]

/-- **`remove` removes the entry**, if it is in the list. -/
theorem remove_spec (h : q.Represents l) (e : E) :
    ∃ q', q.remove e = some q' ∧ q'.Represents (l.erase e) := by
  have hnodup := h.nodup.erase e
  rcases l with _ | ⟨a, l⟩
  · exact ⟨q, by simp only [remove, h.head, List.head?_nil], h⟩
  have hhead : q.head = some a := h.head
  have htail : q.tail = (a :: l).getLast? := h.tail (by simp)
  by_cases hae : a = e
  · obtain ⟨hnext, hl⟩ := h.segment
    rw [Option.or_none] at hnext
    subst hae
    rw [List.erase_cons_head] at hnodup ⊢
    refine ⟨_, remove_head hhead, hnodup, hnext, hl, fun hne => ?_, ?_⟩
    · obtain ⟨l₀, t, rfl⟩ := List.eq_nil_or_concat' l |>.resolve_left hne
      have hsome : q.next a ≠ none := by rw [hnext]; cases l₀ <;> simp
      rw [if_neg hsome, htail, List.getLast?_concat]
      exact getLast?_cons_concat [] l₀ a t
    · rw [h.size]
      simp
  by_cases hmem : e ∈ a :: l
  · obtain ⟨l₀, l₂, hl, hnotin⟩ := List.eq_append_cons_of_mem hmem
    -- the entry is not the head, so there is one before it
    obtain ⟨l₁, p, rfl⟩ := List.eq_nil_or_concat' l₀ |>.resolve_left (by
      rintro rfl
      exact hae (List.cons.inj hl).1)
    rw [List.append_assoc, List.singleton_append] at hl
    have hwalk := h.walk_eq (findPrevious e) none
    rw [hl, visit_findPrevious l₁ l₂ p none hnotin, hhead] at hwalk
    have herase : (a :: l).erase e = l₁ ++ p :: l₂ := by
      have happ : l₁ ++ p :: e :: l₂ = (l₁ ++ [p]) ++ e :: l₂ := by simp
      rw [hl, happ, List.erase_append_right _ hnotin, List.erase_cons_head]
      simp
    rw [herase] at hnodup ⊢
    refine ⟨_, remove_behind hhead hae hwalk, hnodup, hhead.trans ?_, ?_, fun _ => ?_, ?_⟩
    · rcases l₁ with _ | ⟨b, l₁⟩
      · cases hl; rfl
      · cases hl; rfl
    · exact Segment.remove (hl ▸ h.segment) (hl ▸ h.nodup)
    · rw [htail, hl]
      obtain rfl | ⟨l₃, t, rfl⟩ := List.eq_nil_or_concat' l₂
      · simp
      · have hte : t ≠ e := by
          rintro rfl
          have := hl ▸ h.nodup
          simp [List.nodup_append] at this
        rw [← List.cons_append, getLast?_cons_concat, getLast?_cons_concat,
          if_neg (by simpa using hte)]
    · rw [h.size, hl]
      simp
      omega
  · obtain ⟨y, hy⟩ := visit_findPrevious_of_notMem none hmem
    have hwalk := h.walk_eq (findPrevious e) none
    rw [hy] at hwalk
    rw [List.erase_of_not_mem hmem]
    exact ⟨q, by simp only [remove, hhead, if_neg hae, hhead ▸ hwalk], h⟩

end

end ProxyQueue

end AceTao.Tokens

/-!
## Runs of the queue of a token

Whatever is done to an `ACE_Token_Proxy_Queue`, in any order, should be done to the list of its
entries, with `size_` and `tail_` in step (`ProxyQueue.Follows`). An entry that `enqueue` puts behind
the last one by counting does not become the tail: from then on `tail_` is wrong, and the next entry
put at the end takes the place of the one that is there. So this is true exactly of the runs in which
a positive position is smaller than the number of entries (`ProxyQueue.follows_iff`).
-/

namespace AceTao.Tokens

/-- The operations of `ACE_Token_Proxy_Queue`. -/
inductive QueueOp (E : Type)
  | enqueue (tpq : E) (position : ℤ)
  | dequeue
  | remove (removeMe : E)

namespace QueueOp

variable {E : Type}

/-- What an operation should do to the list of the entries. -/
def onList [DecidableEq E] (l : List E) : QueueOp E → List E
  | .enqueue tpq position => ProxyQueue.place l tpq position
  | .dequeue => l.tail
  | .remove removeMe => l.erase removeMe

/-- The entries are distinct. -/
def Distinct (l : List E) : QueueOp E → Prop
  | .enqueue tpq _ => tpq ∉ l
  | _ => True

/-- An entry is not put at the end by counting. -/
def Suits (l : List E) : QueueOp E → Prop
  | .enqueue _ position => ProxyQueue.Between l position
  | _ => True

instance [DecidableEq E] (l : List E) : ∀ op, Decidable (Distinct l op)
  | .enqueue tpq _ => inferInstanceAs (Decidable (tpq ∉ l))
  | .dequeue => isTrue trivial
  | .remove _ => isTrue trivial

instance (l : List E) : ∀ op, Decidable (Suits l op)
  | .enqueue _ position => inferInstanceAs (Decidable (ProxyQueue.Between l position))
  | .dequeue => isTrue trivial
  | .remove _ => isTrue trivial

/-- **The machine on lists.** -/
def listStep [DecidableEq E] (l : List E) (op : QueueOp E) : Option (List E × Unit) :=
  some (op.onList l, ())

end QueueOp

namespace ProxyQueue

variable {E : Type} [DecidableEq E] [Fintype E]

def perform (q : ProxyQueue E) : QueueOp E → Option (ProxyQueue E)
  | .enqueue tpq position => q.enqueue tpq position
  | .dequeue => some q.dequeue
  | .remove removeMe => q.remove removeMe

/-- **The queue follows the list**: it represents the list from the first state to the last. -/
def Follows : ProxyQueue E → List E → List (QueueOp E) → Prop
  | q, l, [] => q.Represents l
  | q, l, op :: ops =>
    q.Represents l ∧ ∃ q', q.perform op = some q' ∧ Follows q' (op.onList l) ops

variable {q : ProxyQueue E} {l : List E}

theorem Follows.represents {ops : List (QueueOp E)} (h : q.Follows l ops) : q.Represents l := by
  cases ops with
  | nil => exact h
  | cons op ops => exact h.1

/-- **One operation** does to the queue what it does to the list. -/
theorem perform_spec (h : q.Represents l) {op : QueueOp E} (hd : op.Distinct l)
    (hs : op.Suits l) : ∃ q', q.perform op = some q' ∧ q'.Represents (op.onList l) := by
  cases op with
  | enqueue tpq position => exact enqueue_spec h hd hs
  | dequeue => exact ⟨_, rfl, dequeue_spec h⟩
  | remove removeMe => exact remove_spec h removeMe

omit [Fintype E] in
/-- **An entry put at the end by counting is not the tail.** -/
theorem not_represents_of_not_between (h : q.Represents l) {e : E} (he : e ∉ l) {position : ℤ}
    (hnot : ¬Between l position) {q' : ProxyQueue E} (heq : q.enqueue e position = some q') :
    ¬q'.Represents (place l e position) := by
  intro h'
  obtain ⟨hne, h0, h1, hle⟩ : l ≠ [] ∧ position ≠ 0 ∧ position ≠ -1 ∧
      l.length ≤ max 1 position.toNat := by
    rw [Between, not_or, not_or, not_or, Nat.not_lt] at hnot
    exact hnot
  obtain ⟨a, ha⟩ : ∃ a, q.head = some a := by
    rw [h.head]
    exact ⟨_, List.head?_eq_some_head hne⟩
  have hend : place l e position = l ++ [e] := by
    rw [place, if_neg (by simp [hne, h0]), if_neg h1, List.take_of_length_le hle,
      List.drop_eq_nil_of_le hle]
  rw [enqueue_behind ha h0 h1 rfl] at heq
  have htail' : q'.tail = q.tail := by
    cases heq
    rfl
  have hlast : q'.tail = some e := by
    rw [h'.tail (by rw [hend]; simp), hend, List.getLast?_concat]
  rw [htail', h.tail hne] at hlast
  exact he (List.mem_of_getLast? hlast)

/-- **A run follows the list** if and only if every operation suits. -/
theorem follows_iff_guarded {ops : List (QueueOp E)} (h : q.Represents l)
    (hd : Machine.Guarded QueueOp.listStep QueueOp.Distinct l ops) :
    q.Follows l ops ↔ Machine.Guarded QueueOp.listStep QueueOp.Suits l ops := by
  induction ops generalizing q l with
  | nil => exact ⟨fun _ => trivial, fun _ => h⟩
  | cons op ops ih =>
    have hrest := hd.2 _ _ rfl
    constructor
    · rintro ⟨-, q', hq', hfollows⟩
      have hsuits : op.Suits l := by
        cases op with
        | enqueue tpq position =>
          by_contra hnot
          exact not_represents_of_not_between h hd.1 hnot hq' hfollows.represents
        | dequeue => trivial
        | remove removeMe => trivial
      refine ⟨hsuits, fun l' _ heq => ?_⟩
      cases heq
      exact (ih hfollows.represents hrest).mp hfollows
    · rintro ⟨hsuits, hguarded⟩
      obtain ⟨q', hq', h'⟩ := perform_spec h hd.1 hsuits
      exact ⟨h, q', hq', (ih h' hrest).mpr (hguarded _ _ rfl)⟩

/-- **From the empty queue on**, whatever distinct entries are put in. -/
theorem follows_iff {ops : List (QueueOp E)}
    (hd : Machine.Guarded QueueOp.listStep QueueOp.Distinct [] ops) :
    empty.Follows [] ops ↔ Machine.Guarded QueueOp.listStep QueueOp.Suits [] ops :=
  follows_iff_guarded represents_empty hd

section Example

/-- The owner goes behind one of the two that wait, and the other one gives up. -/
theorem follows_iff_three : (empty : ProxyQueue (Fin 3)).Follows []
    [.enqueue 0 0, .enqueue 1 (-1), .enqueue 2 (-1), .dequeue, .enqueue 0 1, .remove 2] :=
  (follows_iff (by decide)).mpr (by decide)

/-- The second entry is put behind the only one, at position 1, and the third at the end: the second
is lost. -/
theorem not_follows_past_end :
    ¬(empty : ProxyQueue (Fin 3)).Follows [] [.enqueue 0 0, .enqueue 1 1, .enqueue 2 (-1)] ∧
      ∃ q₁ q₂ q₃ : ProxyQueue (Fin 3), empty.enqueue 0 0 = some q₁ ∧ q₁.enqueue 1 1 = some q₂ ∧
        q₂.enqueue 2 (-1) = some q₃ ∧ q₂.entries = [0, 1] ∧ q₃.entries = [0, 2] := by
  constructor
  · rintro ⟨-, q₁, h₁, -, q₂, h₂, hfollows⟩
    cases h₁
    cases h₂
    have htail := hfollows.represents.tail (by decide)
    revert htail
    decide
  · exact ⟨_, _, _, rfl, rfl, rfl, by decide, by decide⟩

end Example

end ProxyQueue

end AceTao.Tokens
