import AceTao.Tokens.OwningPrefix
import Mathlib.Algebra.Group.Basic
import Mathlib.Algebra.Ring.Int.Defs

/-!
# The readers/writer token on a list

What the operations of a readers/writer token do when its queue represents a list of entries: the
same operations on the list (`RWLine`). They have no loops and always an answer. The token refines
the line as long as its queue is used rightly: an entry that is put into it is not there already,
and a position at which it is put is one that `enqueue` gets right (`Refines.acquire`,
`Refines.renew`, …).
-/

namespace AceTao.Tokens

open ProxyQueue

variable {E C : Type}

/-- The entries that own or wait, the number of writers and the nesting levels. -/
structure RWLine (E : Type) where
  waiters : List E
  numWriters : ℤ
  nestingLevel : E → ℕ

namespace RWLine

/-- One for the proxy of a writer. -/
def weight (p : Proxies E C) (e : E) : ℤ := if p.type e = .writer then 1 else 0

theorem weight_of_reader {p : Proxies E C} {e : E} (h : p.type e = .reader) : weight p e = 0 := by
  simp [weight, h]

/-- Readers are admitted by the number of writers before they ask. -/
theorem admits_iff {p : Proxies E C} {e : E} {n : ℤ} :
    (p.type e = .reader ∧ n + weight p e = 0) ↔ (p.type e = .reader ∧ n = 0) :=
  and_congr_right fun h => by rw [weight_of_reader h, add_zero]

/-- The entry is put in the line for one acquisition more. -/
def join (p : Proxies E C) (s : RWLine E) (e : E) : RWLine E :=
  { s with waiters := s.waiters ++ [e], numWriters := s.numWriters + weight p e }

variable [DecidableEq E]

/-- An acquisition more of a client that owns the token. -/
def nest (p : Proxies E C) (s : RWLine E) (e : E) : RWLine E :=
  { s with
    numWriters := s.numWriters + weight p e
    nestingLevel := Function.update s.nestingLevel e (s.nestingLevel e + 1) }

/-- An acquisition less. -/
def unnest (p : Proxies E C) (s : RWLine E) (e : E) : RWLine E :=
  { s with
    numWriters := s.numWriters - weight p e
    nestingLevel := Function.update s.nestingLevel e (s.nestingLevel e - 1) }

/-- The entry leaves the line, and its acquisition is over. -/
def leave (p : Proxies E C) (s : RWLine E) (e : E) : RWLine E :=
  { s with waiters := s.waiters.erase e, numWriters := s.numWriters - weight p e }

/-- The entry leaves the line, but still counts. -/
def drop (s : RWLine E) (e : E) : RWLine E := { s with waiters := s.waiters.erase e }

/-- The entry goes to another place. -/
def requeue (s : RWLine E) (e : E) (position : ℤ) : RWLine E :=
  { s with waiters := place (s.waiters.erase e) e position }

variable [DecidableEq C]

/-- **`acquire`** on the line. -/
def acquire (p : Proxies E C) (s : RWLine E) (e : E) (ignoreDeadlock deadlock notify : Bool) :
    RWLine E × Outcome E :=
  if s.waiters = [] then (s.join p e, { answer := .success })
  else if p.Owns s.waiters (p.clientId e) then (s.nest p e, { answer := .success })
  else if p.type e = .reader ∧ s.numWriters = 0 then (s.join p e, { answer := .success })
  else if ignoreDeadlock = false ∧ deadlock = true then (s, { answer := .eDeadlk })
  else (s.join p e,
    { answer := .eWouldBlock, slept := if notify then p.owners (s.waiters ++ [e]) else [] })

/-- **`tryacquire`** on the line. -/
def tryacquire (p : Proxies E C) (s : RWLine E) (e : E) : RWLine E × Outcome E :=
  if s.waiters = [] then (s.join p e, { answer := .success })
  else if p.Owns s.waiters (p.clientId e) then (s.nest p e, { answer := .success })
  else if p.type e = .reader ∧ s.numWriters = 0 then (s.join p e, { answer := .success })
  else (s, { answer := .eWouldBlock })

/-- **`renew`** on the line. -/
def renew (p : Proxies E C) (s : RWLine E) (e : E) (position : ℤ) : RWLine E × Outcome E :=
  if ¬p.Owns s.waiters (p.clientId e) then (s, { answer := .eAcces })
  else if s.waiters.length = 1 ∨ position = 0 then (s, { answer := .success })
  else
    let s' := s.requeue e position
    if p.type e = .reader ∧ p.Owns s'.waiters (p.clientId e) then (s', { answer := .success })
    else (s', { answer := .eWouldBlock, acquired := RWToken.notified p s'.waiters e })

/-- **`ACE_Token_Proxy::release`** on the line. -/
def proxyRelease (p : Proxies E C) (s : RWLine E) (e : E) : RWLine E × Outcome E :=
  if ¬p.Owns s.waiters (p.clientId e) then (s.drop e, { answer := .eAcces })
  else if 0 < s.nestingLevel e then (s.unnest p e, { answer := .success })
  else
    let s' := s.leave p e
    (s', { answer := .success, acquired := RWToken.notified p s'.waiters e })

/-- An entry that `acquire` puts in the line is not there already, unless it is queued and its
client is neither an owner nor refused. -/
theorem acquire_fresh {p : Proxies E C} {s : RWLine E} {e : E}
    {ignoreDeadlock deadlock notify : Bool}
    (h : e ∈ s.waiters → p.Owns s.waiters (p.clientId e) ∨
      (ignoreDeadlock = false ∧ deadlock = true) ∧ ¬(p.type e = .reader ∧ s.numWriters = 0)) :
    (s.acquire p e ignoreDeadlock deadlock notify).1.waiters = s.waiters ∨ e ∉ s.waiters := by
  by_cases he : e ∈ s.waiters
  · refine Or.inl ?_
    unfold acquire
    rw [if_neg (List.ne_nil_of_mem he)]
    rcases h he with howns | ⟨hdead, hadmits⟩
    · rw [if_pos howns]
      rfl
    · by_cases howns : p.Owns s.waiters (p.clientId e)
      · rw [if_pos howns]
        rfl
      · rw [if_neg howns, if_neg hadmits, if_pos hdead]
  · exact Or.inr he

/-- The same for `tryacquire`, which queues nobody to wait. -/
theorem tryacquire_fresh {p : Proxies E C} {s : RWLine E} {e : E}
    (h : e ∈ s.waiters → p.Owns s.waiters (p.clientId e) ∨
      ¬(p.type e = .reader ∧ s.numWriters = 0)) :
    (s.tryacquire p e).1.waiters = s.waiters ∨ e ∉ s.waiters := by
  by_cases he : e ∈ s.waiters
  · refine Or.inl ?_
    unfold tryacquire
    rw [if_neg (List.ne_nil_of_mem he)]
    by_cases howns : p.Owns s.waiters (p.clientId e)
    · rw [if_pos howns]
      rfl
    · rw [if_neg howns, if_neg ((h he).resolve_left howns)]
  · exact Or.inr he

end RWLine

/-! ### The refinement -/

/-- **The token is the line**: its queue represents the list, and the numbers are the same. -/
structure RWToken.Refines (t : RWToken E) (s : RWLine E) : Prop where
  waiters : t.waiters.Represents s.waiters
  numWriters : t.numWriters = s.numWriters
  nestingLevel : t.nestingLevel = s.nestingLevel

namespace RWToken.Refines

variable {p : Proxies E C} {t : RWToken E} {s : RWLine E} {e : E}

theorem owner_eq_none (h : t.Refines s) : t.owner = none ↔ s.waiters = [] := by
  rw [owner, h.waiters.head, List.head?_eq_none_iff]

/-- The count of the writers goes up in front of all that follows. -/
theorem countWriter (h : t.Refines s) (p : Proxies E C) (e : E) :
    (t.countWriter p e 1).Refines { s with numWriters := s.numWriters + RWLine.weight p e } := by
  unfold RWToken.countWriter RWLine.weight
  split_ifs with hw
  · exact ⟨h.waiters, by rw [h.numWriters], h.nestingLevel⟩
  · exact ⟨h.waiters, by simp [h.numWriters], h.nestingLevel⟩

/-- The count of a failed acquisition is taken back. -/
theorem countWriter_back (h : t.Refines s) (p : Proxies E C) (e : E) :
    ((t.countWriter p e 1).countWriter p e (-1)).Refines s := by
  unfold RWToken.countWriter
  split_ifs with hw
  · exact ⟨h.waiters, by simp only [h.numWriters]; omega, h.nestingLevel⟩
  · exact h

/-- The count of a release goes down in front of all that follows. -/
theorem countWriter_neg (h : t.Refines s) (p : Proxies E C) (e : E) :
    (t.countWriter p e (-1)).Refines
      { s with numWriters := s.numWriters - RWLine.weight p e } := by
  unfold RWToken.countWriter RWLine.weight
  split_ifs with hw
  · exact ⟨h.waiters, by simp only [h.numWriters]; omega, h.nestingLevel⟩
  · exact ⟨h.waiters, by simp [h.numWriters], h.nestingLevel⟩

/-- What a client finds out about the owners. -/
theorem isOwner [DecidableEq C] [Fintype E] (h : t.Refines s) (p : Proxies E C) (c : C) :
    t.isOwner p c = some (decide (p.Owns s.waiters c)) := isOwner_eq h.waiters

variable [DecidableEq E]

/-- An entry that is not in the queue is put at its end. -/
theorem enqueue (h : t.Refines s) (he : e ∉ s.waiters) :
    ∃ t', t.enqueue e (-1) = some t' ∧
      t'.Refines { s with waiters := s.waiters ++ [e] } := by
  have hbetween : Between s.waiters (-1) := Or.inr (Or.inr (Or.inl rfl))
  obtain ⟨q, hq, hrep⟩ := enqueue_spec h.waiters he hbetween
  rw [place_back] at hrep
  exact ⟨{ t with waiters := q }, by rw [RWToken.enqueue, hq]; rfl, hrep, h.numWriters,
    h.nestingLevel⟩

/-- A recursive acquisition. -/
theorem nest (h : t.Refines s) (e : E) : (t.nest e).Refines
    { s with nestingLevel := Function.update s.nestingLevel e (s.nestingLevel e + 1) } :=
  ⟨h.waiters, h.numWriters, by rw [RWToken.nest, h.nestingLevel]⟩

variable [Fintype E]

theorem remove (h : t.Refines s) (e : E) :
    ∃ t', t.remove e = some t' ∧ t'.Refines (s.drop e) := by
  obtain ⟨q, hq, hrep⟩ := remove_spec h.waiters e
  exact ⟨{ t with waiters := q }, by rw [RWToken.remove, hq]; rfl, hrep, h.numWriters,
    h.nestingLevel⟩

variable [DecidableEq C]

/-- **`acquire`**: an entry that is put in the queue must not be there. -/
theorem acquire (h : t.Refines s) (p : Proxies E C) {e : E} {ignoreDeadlock deadlock notify : Bool}
    (hfresh : (s.acquire p e ignoreDeadlock deadlock notify).1.waiters = s.waiters ∨
      e ∉ s.waiters) :
    ∃ t', t.acquire p e ignoreDeadlock (some deadlock) notify =
        some (t', (s.acquire p e ignoreDeadlock deadlock notify).2) ∧
      t'.Refines (s.acquire p e ignoreDeadlock deadlock notify).1 := by
  have hc := h.countWriter p e
  have hjoin : (s.join p e).waiters = s.waiters ∨ e ∉ s.waiters → e ∉ s.waiters :=
    fun hor => hor.resolve_left (by simp [RWLine.join])
  simp only [RWToken.acquire, Option.bind_eq_bind, hc.owner_eq_none, hc.isOwner, Option.pure_def,
    Option.bind_some, hc.numWriters, decide_eq_true_eq, RWLine.admits_iff]
  unfold RWLine.acquire at hfresh ⊢
  by_cases hnil : s.waiters = []
  · simp only [if_pos hnil] at hfresh ⊢
    obtain ⟨t', heq, href⟩ := hc.enqueue (hjoin hfresh)
    exact ⟨t', by rw [heq]; rfl, href⟩
  by_cases howns : p.Owns s.waiters (p.clientId e)
  · simp only [if_neg hnil, if_pos howns] at hfresh ⊢
    exact ⟨_, rfl, hc.nest e⟩
  by_cases hadmits : p.type e = .reader ∧ s.numWriters = 0
  · simp only [if_neg hnil, if_neg howns, if_pos hadmits] at hfresh ⊢
    obtain ⟨t', heq, href⟩ := hc.enqueue (hjoin hfresh)
    exact ⟨t', by rw [heq]; rfl, href⟩
  by_cases hdead : ignoreDeadlock = false ∧ deadlock = true
  · simp only [if_neg hnil, if_neg howns, if_neg hadmits, hdead.1, hdead.2, if_true]
    exact ⟨_, rfl, h.countWriter_back p e⟩
  · simp only [if_neg hnil, if_neg howns, if_neg hadmits, if_neg hdead] at hfresh ⊢
    obtain ⟨t', heq, href⟩ := hc.enqueue (hjoin hfresh)
    have hslept := callSleepHooks_eq (p := p) href.waiters (by simp)
    refine ⟨t', ?_, href⟩
    simp only [heq, hslept, Option.bind_some]
    rcases ignoreDeadlock <;> rcases deadlock <;> rcases notify <;> simp_all

/-- **`tryacquire`.** -/
theorem tryacquire (h : t.Refines s) (p : Proxies E C) {e : E}
    (hfresh : (s.tryacquire p e).1.waiters = s.waiters ∨ e ∉ s.waiters) :
    ∃ t', t.tryacquire p e = some (t', (s.tryacquire p e).2) ∧
      t'.Refines (s.tryacquire p e).1 := by
  have hc := h.countWriter p e
  have hjoin : (s.join p e).waiters = s.waiters ∨ e ∉ s.waiters → e ∉ s.waiters :=
    fun hor => hor.resolve_left (by simp [RWLine.join])
  simp only [RWToken.tryacquire, Option.bind_eq_bind, hc.owner_eq_none, hc.isOwner, Option.pure_def,
    Option.bind_some, hc.numWriters, decide_eq_true_eq, RWLine.admits_iff]
  unfold RWLine.tryacquire at hfresh ⊢
  by_cases hnil : s.waiters = []
  · simp only [if_pos hnil] at hfresh ⊢
    obtain ⟨t', heq, href⟩ := hc.enqueue (hjoin hfresh)
    exact ⟨t', by rw [heq]; rfl, href⟩
  by_cases howns : p.Owns s.waiters (p.clientId e)
  · simp only [if_neg hnil, if_pos howns] at hfresh ⊢
    exact ⟨_, rfl, hc.nest e⟩
  by_cases hadmits : p.type e = .reader ∧ s.numWriters = 0
  · simp only [if_neg hnil, if_neg howns, if_pos hadmits] at hfresh ⊢
    obtain ⟨t', heq, href⟩ := hc.enqueue (hjoin hfresh)
    exact ⟨t', by rw [heq]; rfl, href⟩
  · simp only [if_neg hnil, if_neg howns, if_neg hadmits] at hfresh ⊢
    exact ⟨_, rfl, h.countWriter_back p e⟩

/-- **`renew`**: the position is one that `enqueue` gets right. -/
theorem renew (h : t.Refines s) (p : Proxies E C) {e : E} {position : ℤ}
    (hbetween : p.Owns s.waiters (p.clientId e) → s.waiters.length ≠ 1 → position ≠ 0 →
      Between (s.waiters.erase e) position) :
    ∃ t', t.renew p e position = some (t', (s.renew p e position).2) ∧
      t'.Refines (s.renew p e position).1 := by
  have hsize : t.waiters.size = 1 ↔ s.waiters.length = 1 := by
    rw [h.waiters.size]
    omega
  simp only [RWToken.renew, Option.bind_eq_bind, h.isOwner, Option.pure_def, Option.bind_some,
    hsize, Bool.not_eq_true', decide_eq_false_iff_not]
  unfold RWLine.renew
  by_cases howns : p.Owns s.waiters (p.clientId e)
  · by_cases hstay : s.waiters.length = 1 ∨ position = 0
    · simp only [howns, not_true_eq_false, if_false, if_pos hstay]
      exact ⟨_, rfl, h⟩
    obtain ⟨hlen, hpos⟩ := not_or.mp hstay
    obtain ⟨t₁, hremove, h₁⟩ := h.remove e
    have hnotin : e ∉ s.waiters.erase e := h.waiters.nodup.not_mem_erase
    obtain ⟨q, hq, hrep⟩ := enqueue_spec h₁.waiters hnotin (hbetween howns hlen hpos)
    have h₂ : RWToken.Refines { t₁ with waiters := q } (s.requeue e position) :=
      ⟨hrep, h₁.numWriters, h₁.nestingLevel⟩
    have henqueue : t₁.enqueue e position = some { t₁ with waiters := q } := by
      rw [RWToken.enqueue, hq]
      rfl
    simp only [howns, not_true_eq_false, if_false, if_neg hstay, hremove, henqueue,
      Option.bind_some, h₂.isOwner, notifyNewOwner_eq h₂.waiters]
    refine ⟨{ t₁ with waiters := q }, ?_, ?_⟩
    · by_cases hstill : p.Owns (s.requeue e position).waiters (p.clientId e)
      · rcases htype : p.type e <;> simp [hstill]
      · rcases htype : p.type e <;> simp [hstill]
    · split_ifs <;> exact h₂
  · simp only [howns, not_false_eq_true, if_true]
    exact ⟨_, rfl, h⟩

/-- **`ACE_Token_Proxy::release`.** -/
theorem proxyRelease (h : t.Refines s) (p : Proxies E C) (e : E) :
    ∃ t', t.proxyRelease p e = some (t', (s.proxyRelease p e).2) ∧
      t'.Refines (s.proxyRelease p e).1 := by
  have hcond : (s.waiters = [] ∨ ¬p.Owns s.waiters (p.clientId e)) ↔
      ¬p.Owns s.waiters (p.clientId e) := by
    refine or_iff_right_of_imp fun hnil => ?_
    rw [hnil]
    simp [Proxies.Owns]
  simp only [RWToken.proxyRelease, RWToken.release, Option.bind_eq_bind, h.isOwner, Option.pure_def,
    Option.bind_some, h.owner_eq_none, Bool.not_eq_true', decide_eq_false_iff_not, hcond]
  unfold RWLine.proxyRelease
  by_cases howns : p.Owns s.waiters (p.clientId e)
  · have hc := h.countWriter_neg p e
    have hnest : (t.countWriter p e (-1)).nestingLevel e = s.nestingLevel e := by
      rw [hc.nestingLevel]
    by_cases hn : 0 < s.nestingLevel e
    · simp only [howns, not_true_eq_false, if_false, hnest, if_pos hn, Option.bind_some]
      exact ⟨_, rfl, hc.waiters, hc.numWriters, by rw [RWToken.unnest, hc.nestingLevel]; rfl⟩
    · obtain ⟨t₁, hremove, h₁⟩ := hc.remove e
      have h₂ : t₁.Refines (s.leave p e) := h₁
      simp only [howns, not_true_eq_false, if_false, hnest, if_neg hn, hremove, Option.bind_some,
        notifyNewOwner_eq h₂.waiters]
      exact ⟨_, rfl, h₂⟩
  · obtain ⟨t₁, hremove, h₁⟩ := h.remove e
    simp only [howns, not_false_eq_true, if_true, Option.bind_some, hremove]
    exact ⟨_, rfl, h₁⟩

end RWToken.Refines

end AceTao.Tokens
