import AceTao.Tokens.OwningPrefix

/-!
# The mutex token

`ACE_Mutex_Token`: the first entry of the queue owns the token, the others wait. A client that owns
it acquires it again through whatever proxy it uses, and a renewal takes the first entry out of the
queue and puts in the one of the caller.

The operations keep a queue that represents a list as long as no entry is queued a second time and
no entry is renewed to a position that `enqueue` gets wrong (`MutexToken.acquire_represents`,
`MutexToken.renew_represents`, …).
-/

namespace AceTao.Tokens

open SinglyLinked ProxyQueue

/-- `ACE_Mutex_Token`, with the nesting levels of its entries. -/
structure MutexToken (E : Type) where
  waiters : ProxyQueue E
  nestingLevel : E → ℕ

namespace MutexToken

variable {E C : Type} {p : Proxies E C}

/-- The constructor; the entries are new as well. -/
def init : MutexToken E := ⟨.empty, fun _ => 0⟩

def owner (t : MutexToken E) : Option E := t.waiters.head

section Client

variable [DecidableEq C]

/-- `is_owner`. -/
def isOwner (p : Proxies E C) (t : MutexToken E) (id : C) : Bool :=
  match t.owner with
  | none => false
  | some owner => p.clientId owner = id

/-- `owners`: the stack of the owners, and whether the client is among them. -/
def owners (p : Proxies E C) (t : MutexToken E) (id : C) : List E × Bool :=
  match t.owner with
  | none => ([], false)
  | some owner => ([owner], p.clientId owner = id)

/-- `is_waiting_for`. -/
def isWaitingFor [Fintype E] (p : Proxies E C) (t : MutexToken E) (id : C) : Option Bool :=
  match t.owner with
  | none => some false
  | some owner =>
    if t.isOwner p id then some false
    else (t.waiters.walk (RWToken.isWaitingForBody p id) (t.waiters.next owner) ()).map fun r =>
      r.elim (fun _ => false) fun b => b

end Client

variable [DecidableEq E]

/-- `enqueue` on the waiters. -/
def enqueue (t : MutexToken E) (caller : E) (position : ℤ) : Option (MutexToken E) :=
  (t.waiters.enqueue caller position).map fun q => { t with waiters := q }

/-- `dequeue` on the waiters. -/
def dequeue (t : MutexToken E) : MutexToken E := { t with waiters := t.waiters.dequeue }

/-- A recursive acquisition. -/
def nest (t : MutexToken E) (caller : E) : MutexToken E :=
  { t with nestingLevel := Function.update t.nestingLevel caller (t.nestingLevel caller + 1) }

/-- A recursive release. -/
def unnest (t : MutexToken E) (caller : E) : MutexToken E :=
  { t with nestingLevel := Function.update t.nestingLevel caller (t.nestingLevel caller - 1) }

/-- `ACE_Tokens::remove`. -/
def remove [Fintype E] (t : MutexToken E) (caller : E) : Option (MutexToken E) :=
  (t.waiters.remove caller).map fun q => { t with waiters := q }

variable [DecidableEq C]

/-- `acquire`. `checkDeadlock` is what `ACE_Token_Manager::check_deadlock` returns when it is
called, if it returns. -/
def acquire (p : Proxies E C) (t : MutexToken E) (caller : E) (ignoreDeadlock : Bool)
    (checkDeadlock : Option Bool) (notify : Bool) : Option (MutexToken E × Outcome E) := do
  if t.owner = none then
    let t ← t.enqueue caller (-1)
    return (t, { answer := .success })
  else if t.isOwner p (p.clientId caller) then
    return (t.nest caller, { answer := .success })
  else if ← if ignoreDeadlock then some false else checkDeadlock then
    return (t, { answer := .eDeadlk })
  else
    let t ← t.enqueue caller (-1)
    return (t, { answer := .eWouldBlock, slept := if notify then t.owner.toList else [] })

/-- `tryacquire`. -/
def tryacquire (p : Proxies E C) (t : MutexToken E) (caller : E) :
    Option (MutexToken E × Outcome E) := do
  if t.owner = none then
    let t ← t.enqueue caller (-1)
    return (t, { answer := .success })
  else if t.isOwner p (p.clientId caller) then
    return (t.nest caller, { answer := .success })
  else
    return (t, { answer := .eWouldBlock })

/-- `renew`. -/
def renew (p : Proxies E C) (t : MutexToken E) (caller : E) (requeuePosition : ℤ) :
    Option (MutexToken E × Outcome E) := do
  if !t.isOwner p (p.clientId caller) then
    return (t, { answer := .eAcces })
  else if t.waiters.size = 1 ∨ requeuePosition = 0 then
    return (t, { answer := .success })
  else
    let t ← t.dequeue.enqueue caller requeuePosition
    return (t, { answer := .eWouldBlock, acquired := t.owner.toList })

/-- `release`. Unlike that of a readers/writer token it succeeds for a client that waits. -/
def release [Fintype E] (p : Proxies E C) (t : MutexToken E) (caller : E) :
    Option (MutexToken E × Outcome E) := do
  if t.owner = none then
    return (t, { answer := .eAcces })
  else if t.isOwner p (p.clientId caller) then
    if 0 < t.nestingLevel caller then
      return (t.unnest caller, { answer := .success })
    else
      let t := t.dequeue
      return (t, { answer := .success, acquired := t.owner.toList })
  else
    let t ← t.remove caller
    return (t, { answer := .success })

/-! ### On a list of entries -/

variable {t : MutexToken E} {l : List E} {e : E} {c : C}

omit [DecidableEq E] [DecidableEq C] in
theorem owner_eq (h : t.waiters.Represents l) : t.owner = l.head? := h.head

omit [DecidableEq E] in
/-- The client owns the token when the first entry is one of its own. -/
theorem isOwner_eq (h : t.waiters.Represents l) :
    t.isOwner p c = true ↔ ∃ e, l.head? = some e ∧ p.clientId e = c := by
  rw [isOwner, owner_eq h]
  rcases l.head? with _ | e <;> simp

omit [DecidableEq E] in
theorem owners_eq (h : t.waiters.Represents l) :
    t.owners p c = (l.head?.toList, decide (∃ e, l.head? = some e ∧ p.clientId e = c)) := by
  rw [owners, owner_eq h]
  rcases l.head? with _ | e <;> simp

omit [DecidableEq E] in
/-- **`is_waiting_for`** finds out whether the client does not own the token, but is queued. -/
theorem isWaitingFor_eq [Fintype E] (h : t.waiters.Represents l) :
    t.isWaitingFor p c = some (decide
      ((¬∃ e, l.head? = some e ∧ p.clientId e = c) ∧ ∃ x ∈ l, p.clientId x = c)) := by
  rcases l with _ | ⟨a, l⟩
  · simp only [isWaitingFor, owner_eq h, List.head?_nil]
    simp
  · simp only [isWaitingFor, owner_eq h, List.head?_cons, isOwner_eq h, h.walk_tail,
      Option.map_some, RWToken.visit_isWaitingForBody]
    by_cases ha : p.clientId a = c <;> simp [ha]

/-- An entry that is not in the queue is put at its end. -/
theorem enqueue_back (h : t.waiters.Represents l) (he : e ∉ l) :
    ∃ t', t.enqueue e (-1) = some t' ∧ t'.waiters.Represents (l ++ [e]) := by
  have hbetween : Between l (-1) := Or.inr (Or.inr (Or.inl rfl))
  obtain ⟨q, hq, hrep⟩ := enqueue_spec h he hbetween
  rw [place_back] at hrep
  exact ⟨{ t with waiters := q }, by rw [enqueue, hq]; rfl, hrep⟩

/-- **`acquire` keeps the queue**, unless the entry is queued and would be queued again. -/
theorem acquire_represents (h : t.waiters.Represents l) {ignoreDeadlock deadlock notify : Bool}
    (hfresh : e ∈ l → t.isOwner p (p.clientId e) = true ∨
      ignoreDeadlock = false ∧ deadlock = true) :
    ∃ t' o l', t.acquire p e ignoreDeadlock (some deadlock) notify = some (t', o) ∧
      t'.waiters.Represents l' := by
  simp only [acquire, Option.bind_eq_bind, Option.pure_def]
  by_cases hnil : t.owner = none
  · have he : e ∉ l := by
      rw [owner_eq h, List.head?_eq_none_iff] at hnil
      simp [hnil]
    obtain ⟨t', heq, hrep⟩ := enqueue_back h he
    simp only [if_pos hnil, heq, Option.bind_some]
    exact ⟨_, _, _, rfl, hrep⟩
  by_cases howner : t.isOwner p (p.clientId e) = true
  · simp only [if_neg hnil, if_pos howner]
    exact ⟨_, _, _, rfl, h⟩
  by_cases hdead : ignoreDeadlock = false ∧ deadlock = true
  · simp only [if_neg hnil, if_neg howner, hdead.1, hdead.2]
    exact ⟨_, _, _, rfl, h⟩
  · obtain ⟨t', heq, hrep⟩ := enqueue_back h fun he => (hfresh he).elim howner hdead
    simp only [if_neg hnil, if_neg howner, heq, Option.bind_some]
    rcases ignoreDeadlock <;> rcases deadlock
    · exact ⟨_, _, _, rfl, hrep⟩
    · exact absurd ⟨rfl, rfl⟩ hdead
    · exact ⟨_, _, _, rfl, hrep⟩
    · exact ⟨_, _, _, rfl, hrep⟩

/-- **`tryacquire` keeps the queue**: it puts an entry in the empty queue only. -/
theorem tryacquire_represents (h : t.waiters.Represents l) (p : Proxies E C) (e : E) :
    ∃ t' o l', t.tryacquire p e = some (t', o) ∧ t'.waiters.Represents l' := by
  simp only [tryacquire, Option.bind_eq_bind, Option.pure_def]
  by_cases hnil : t.owner = none
  · have he : e ∉ l := by
      rw [owner_eq h, List.head?_eq_none_iff] at hnil
      simp [hnil]
    obtain ⟨t', heq, hrep⟩ := enqueue_back h he
    simp only [if_pos hnil, heq, Option.bind_some]
    exact ⟨_, _, _, rfl, hrep⟩
  · rw [if_neg hnil]
    split_ifs
    · exact ⟨_, _, _, rfl, h⟩
    · exact ⟨_, _, _, rfl, h⟩

/-- **`renew` keeps the queue** when the entry does not wait, and for a position that `enqueue` gets
right. -/
theorem renew_represents (h : t.waiters.Represents l) {position : ℤ}
    (hfresh : t.isOwner p (p.clientId e) = true → l.length ≠ 1 → position ≠ 0 →
      e ∉ l.tail ∧ Between l.tail position) :
    ∃ t' o l', t.renew p e position = some (t', o) ∧ t'.waiters.Represents l' := by
  simp only [renew, Option.bind_eq_bind, Option.pure_def]
  by_cases howner : t.isOwner p (p.clientId e) = true
  · have hsize : t.waiters.size = 1 ↔ l.length = 1 := by
      rw [h.size]
      omega
    by_cases hstay : t.waiters.size = 1 ∨ position = 0
    · simp only [howner, Bool.not_true, if_pos hstay]
      exact ⟨_, _, _, rfl, h⟩
    · obtain ⟨hlen, h0⟩ := not_or.mp hstay
      obtain ⟨he, hbetween⟩ := hfresh howner (fun hcon => hlen (hsize.mpr hcon)) h0
      obtain ⟨q, hq, hrep⟩ := enqueue_spec (dequeue_spec h) he hbetween
      have heq : t.dequeue.enqueue e position = some { t with waiters := q } := by
        rw [enqueue, dequeue, hq]
        rfl
      simp only [howner, Bool.not_true, if_neg hstay, heq, Option.bind_some]
      exact ⟨_, _, _, rfl, hrep⟩
  · simp only [Bool.not_eq_true] at howner
    simp only [howner, Bool.not_false, if_true]
    exact ⟨_, _, _, rfl, h⟩

variable [Fintype E]

/-- **`ACE_Tokens::remove` keeps the queue.** -/
theorem remove_represents (h : t.waiters.Represents l) (e : E) :
    ∃ t', t.remove e = some t' ∧ t'.waiters.Represents (l.erase e) := by
  obtain ⟨q, hq, hrep⟩ := remove_spec h e
  exact ⟨{ t with waiters := q }, by rw [remove, hq]; rfl, hrep⟩

/-- **`release` keeps the queue.** -/
theorem release_represents (h : t.waiters.Represents l) (p : Proxies E C) (e : E) :
    ∃ t' o l', t.release p e = some (t', o) ∧ t'.waiters.Represents l' := by
  obtain ⟨t', heq, hrep⟩ := remove_represents h e
  simp only [release, Option.bind_eq_bind, Option.pure_def, heq, Option.bind_some]
  split_ifs
  · exact ⟨_, _, _, rfl, h⟩
  · exact ⟨_, _, _, rfl, h⟩
  · exact ⟨_, _, _, rfl, dequeue_spec h⟩
  · exact ⟨_, _, _, rfl, hrep⟩

end MutexToken

end AceTao.Tokens
