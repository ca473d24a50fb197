import AceTao.Tokens.RWLine
import Mathlib.Algebra.Order.BigOperators.Group.Finset

/-!
# The books of the clients of a readers/writer token

The clients of a token know what they hold from what they are told: an acquisition is held when
`acquire` or `tryacquire` returned `0` or when `token_acquired` was called, and it is pending while
its entry is in the queue and nothing of the kind has happened. `Ledger` keeps these books, entry by
entry, from the requests and the answers alone.

The token keeps books of its own: the number of writers, the nesting levels and the queue. The two
agree (`Books`), and nothing is pending for an owner (`Settled`), as long as none of a few requests
is made (`RWLine.Admitted`): what they do goes wrong, sooner or later.
-/

namespace AceTao.Tokens

variable {E C : Type}

/-- What is held and what is pending, for each entry. -/
structure Ledger (E : Type) where
  held : E → ℕ
  pending : E → ℕ

/-- The calls of the methods of the proxies. `deadlock` is what `check_deadlock` finds. -/
inductive Request (E : Type)
  | acquire (e : E) (ignoreDeadlock deadlock notify : Bool)
  | tryacquire (e : E)
  | renew (e : E) (position : ℤ)
  | release (e : E)
  | remove (e : E)

namespace Ledger

def empty : Ledger E := ⟨fun _ => 0, fun _ => 0⟩

/-- The acquisitions that are not yet released or withdrawn. -/
def acquisitions (b : Ledger E) (e : E) : ℕ := b.held e + b.pending e

variable [DecidableEq E]

def grant (b : Ledger E) (e : E) : Ledger E :=
  { b with held := Function.update b.held e (b.held e + 1) }

def wait (b : Ledger E) (e : E) : Ledger E :=
  { b with pending := Function.update b.pending e (b.pending e + 1) }

/-- One acquisition is over, of those held if there are any. -/
def release (b : Ledger E) (e : E) : Ledger E :=
  if 0 < b.held e then { b with held := Function.update b.held e (b.held e - 1) }
  else { b with pending := Function.update b.pending e (b.pending e - 1) }

/-- The entry waits no longer. -/
def withdraw (b : Ledger E) (e : E) : Ledger E :=
  { b with pending := Function.update b.pending e 0 }

/-- What the entry holds is pending again. -/
def block (b : Ledger E) (e : E) : Ledger E :=
  ⟨Function.update b.held e 0, Function.update b.pending e (b.held e + b.pending e)⟩

/-- What is pending for these entries is held. -/
def promote (b : Ledger E) (acquired : List E) : Ledger E :=
  ⟨fun e => if e ∈ acquired then b.held e + b.pending e else b.held e,
    fun e => if e ∈ acquired then 0 else b.pending e⟩

/-- **The books after a request**, from the answer to it. -/
def record (b : Ledger E) (o : Outcome E) : Request E → Ledger E
  | .acquire e _ _ _ =>
    match o.answer with
    | .success => b.grant e
    | .eWouldBlock => b.wait e
    | _ => b
  | .tryacquire e => if o.answer = .success then b.grant e else b
  | .renew e _ => if o.answer = .eWouldBlock then (b.block e).promote o.acquired else b
  | .release e => if o.answer = .success then (b.release e).promote o.acquired else b.withdraw e
  | .remove _ => b

/-! #### What changes in the books -/

variable {b : Ledger E} {e x : E}

@[simp] theorem held_grant (b : Ledger E) (e x : E) :
    (b.grant e).held x = if x = e then b.held e + 1 else b.held x :=
  Function.update_apply _ _ _ _

@[simp] theorem pending_grant (b : Ledger E) (e : E) : (b.grant e).pending = b.pending := rfl

@[simp] theorem held_wait (b : Ledger E) (e : E) : (b.wait e).held = b.held := rfl

@[simp] theorem pending_wait (b : Ledger E) (e x : E) :
    (b.wait e).pending x = if x = e then b.pending e + 1 else b.pending x :=
  Function.update_apply _ _ _ _

@[simp] theorem held_withdraw (b : Ledger E) (e : E) : (b.withdraw e).held = b.held := rfl

@[simp] theorem pending_withdraw (b : Ledger E) (e x : E) :
    (b.withdraw e).pending x = if x = e then 0 else b.pending x :=
  Function.update_apply _ _ _ _

@[simp] theorem held_block (b : Ledger E) (e x : E) :
    (b.block e).held x = if x = e then 0 else b.held x :=
  Function.update_apply _ _ _ _

@[simp] theorem pending_block (b : Ledger E) (e x : E) :
    (b.block e).pending x = if x = e then b.held e + b.pending e else b.pending x :=
  Function.update_apply _ _ _ _

theorem acquisitions_grant (b : Ledger E) (e x : E) :
    (b.grant e).acquisitions x = b.acquisitions x + if x = e then 1 else 0 := by
  unfold acquisitions
  rw [held_grant, pending_grant]
  split_ifs with h
  · subst h
    omega
  · rfl

theorem acquisitions_wait (b : Ledger E) (e x : E) :
    (b.wait e).acquisitions x = b.acquisitions x + if x = e then 1 else 0 := by
  unfold acquisitions
  rw [held_wait, pending_wait]
  split_ifs with h
  · subst h
    omega
  · rfl

/-- A release is about one entry only. -/
theorem release_of_ne (h : x ≠ e) :
    (b.release e).held x = b.held x ∧ (b.release e).pending x = b.pending x := by
  unfold release
  split_ifs <;> simp [Function.update_of_ne h]

theorem acquisitions_release (b : Ledger E) (e : E) :
    (b.release e).acquisitions e = b.acquisitions e - 1 := by
  unfold release acquisitions
  split_ifs <;> simp only [Function.update_self] <;> omega

theorem release_le (b : Ledger E) (e x : E) :
    (b.release e).held x ≤ b.held x ∧ (b.release e).pending x ≤ b.pending x := by
  by_cases h : x = e
  · subst h
    unfold release
    split_ifs <;> simp
  · rw [(release_of_ne h).1, (release_of_ne h).2]
    exact ⟨le_rfl, le_rfl⟩

theorem acquisitions_block (b : Ledger E) (e x : E) :
    (b.block e).acquisitions x = b.acquisitions x := by
  unfold acquisitions
  rw [held_block, pending_block]
  split_ifs with h
  · rw [h, Nat.zero_add]
  · rfl

@[simp] theorem held_promote (b : Ledger E) (acquired : List E) (x : E) :
    (b.promote acquired).held x =
      if x ∈ acquired then b.held x + b.pending x else b.held x := rfl

@[simp] theorem pending_promote (b : Ledger E) (acquired : List E) (x : E) :
    (b.promote acquired).pending x = if x ∈ acquired then 0 else b.pending x := rfl

theorem acquisitions_promote (b : Ledger E) (acquired : List E) (x : E) :
    (b.promote acquired).acquisitions x = b.acquisitions x := by
  unfold acquisitions
  rw [held_promote, pending_promote]
  split_ifs <;> rfl

end Ledger

/-! ### The runs -/

section Runs

variable [DecidableEq E] [DecidableEq C]

/-- A request to the token. `ACE_Token_Proxy::remove` does nothing. -/
def RWToken.perform [Fintype E] (p : Proxies E C) (t : RWToken E) :
    Request E → Option (RWToken E × Outcome E)
  | .acquire e ignoreDeadlock deadlock notify =>
    t.acquire p e ignoreDeadlock (some deadlock) notify
  | .tryacquire e => t.tryacquire p e
  | .renew e position => t.renew p e position
  | .release e => t.proxyRelease p e
  | .remove _ => some (t, { answer := .success })

/-- The same request to the line. -/
def RWLine.perform (p : Proxies E C) (s : RWLine E) : Request E → RWLine E × Outcome E
  | .acquire e ignoreDeadlock deadlock notify => s.acquire p e ignoreDeadlock deadlock notify
  | .tryacquire e => s.tryacquire p e
  | .renew e position => s.renew p e position
  | .release e => s.proxyRelease p e
  | .remove _ => (s, { answer := .success })

/-- **A step**: a request to the token, and what the clients note down of it. -/
def RWToken.step [Fintype E] (p : Proxies E C) (s : RWToken E × Ledger E) (r : Request E) :
    Option ((RWToken E × Ledger E) × Outcome E) :=
  (s.1.perform p r).map fun (t, o) => ((t, s.2.record o r), o)

end Runs

/-! ### The requests that go right -/

/-- **Nothing depends on the entry**: another entry of its client is an owner as well, or no other
one holds anything. -/
def Alone (p : Proxies E C) (l : List E) (b : Ledger E) (e : E) : Prop :=
  (∃ x ∈ p.owners l, x ≠ e ∧ p.clientId x = p.clientId e) ∨
    ∀ x, x ≠ e → p.clientId x = p.clientId e → b.held x = 0

/-- **The requests that go right.** Those that go wrong are

* a write acquisition of a client that owns the token for reading only;
* an acquisition that queues an entry that is queued already;
* a renewal by an entry that is not an owner itself, one that counts beyond the last entry, and one
  after which a writer of the same client is next in line;
* a renewal or a release of an owner while its client holds something through another entry only;
* a release of a writer that was not acquired, of a writer that waits, and of a reader that waits
  with acquisitions left over. -/
def RWLine.Admitted [DecidableEq E] (p : Proxies E C) (s : RWLine E) (b : Ledger E) :
    Request E → Prop
  | .acquire e ignoreDeadlock deadlock _ =>
    (p.Owns s.waiters (p.clientId e) → p.type e = .writer →
      ∃ w, s.waiters.head? = some w ∧ p.type w = .writer) ∧
    (¬p.Owns s.waiters (p.clientId e) → e ∈ s.waiters →
      ignoreDeadlock = false ∧ deadlock = true)
  | .tryacquire e =>
    p.Owns s.waiters (p.clientId e) → p.type e = .writer →
      ∃ w, s.waiters.head? = some w ∧ p.type w = .writer
  | .renew e position =>
    p.Owns s.waiters (p.clientId e) → s.waiters.length ≠ 1 → position ≠ 0 →
      e ∈ p.owners s.waiters ∧ ProxyQueue.Between (s.waiters.erase e) position ∧
      Alone p s.waiters b e ∧
      (p.type e = .reader → ∀ w, (s.waiters.erase e).head? = some w → p.type w = .writer →
        p.clientId w ≠ p.clientId e)
  | .release e =>
    (p.Owns s.waiters (p.clientId e) → s.nestingLevel e = 0 →
      (e ∉ s.waiters → p.type e = .reader) ∧ (e ∈ p.owners s.waiters → Alone p s.waiters b e)) ∧
    (¬p.Owns s.waiters (p.clientId e) → e ∈ s.waiters →
      p.type e = .reader ∧ s.nestingLevel e = 0)
  | .remove _ => True

section Decide

variable [Fintype E] [DecidableEq E] [DecidableEq C]

instance (p : Proxies E C) (l : List E) (b : Ledger E) (e : E) : Decidable (Alone p l b e) :=
  inferInstanceAs (Decidable (_ ∨ _))

instance instDecidableExistsSome (o : Option E) (P : E → Prop) [DecidablePred P] :
    Decidable (∃ w, o = some w ∧ P w) :=
  match o with
  | none => isFalse (by rintro ⟨w, hw, -⟩; cases hw)
  | some w => decidable_of_iff (P w)
      ⟨fun h => ⟨w, rfl, h⟩, by rintro ⟨w', hw, h⟩; cases hw; exact h⟩

instance (p : Proxies E C) (s : RWLine E) (b : Ledger E) (r : Request E) :
    Decidable (s.Admitted p b r) :=
  match r with
  | .acquire _ _ _ _ => inferInstanceAs (Decidable (_ ∧ _))
  | .tryacquire _ => inferInstanceAs (Decidable (_ → _))
  | .renew _ _ => inferInstanceAs (Decidable (_ → _ → _ → _ ∧ _ ∧ _ ∧ _))
  | .release _ => inferInstanceAs (Decidable ((_ → _ → (_ → _) ∧ (_ → _)) ∧ (_ → _ → _)))
  | .remove _ => isTrue trivial

end Decide

/-- The line of a token, as the links of its queue have it. -/
def RWToken.line [Fintype E] (t : RWToken E) : RWLine E :=
  ⟨t.waiters.entries, t.numWriters, t.nestingLevel⟩

/-- The line is the one that the token refines. -/
theorem RWToken.Refines.line_eq [Fintype E] {t : RWToken E} {s : RWLine E} (h : t.Refines s) :
    t.line = s := by
  rw [line, h.waiters.entries_eq, h.numWriters, h.nestingLevel]

end AceTao.Tokens
