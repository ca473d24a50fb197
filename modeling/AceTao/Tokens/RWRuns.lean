import AceTao.Tokens.RWSound

/-!
# Runs of the readers/writer token

What holds after any sequence of requests of any number of clients to a readers/writer token
(`RWToken.Sound`): `num_writers_` is the number of write acquisitions that are queued or held,
whoever holds the token for writing holds it alone, and every entry of the owning prefix has been
granted the token.

A writer that gives up waiting breaks this: `ACE_Token_Proxy::release` takes its entry out of the
queue, but it is counted for ever (`not_sound_withdrawn`). So does every other of the requests that
`RWLine.Admitted` leaves out, at once or later. Without them the token is sound after every run
(`sound_of_admitted`).
-/

namespace AceTao.Tokens

open Proxies

variable {E C : Type} [Fintype E] [DecidableEq E]
variable {p : Proxies E C} {s : RWLine E} {b : Ledger E} {t : RWToken E} {r : Request E}

/-! ### One request -/

/-- Both sides of the books, and the new owners have been told. -/
def Kept (p : Proxies E C) (s : RWLine E) (b : Ledger E) : Prop := Books p s b ∧ Settled p s b

/-- A reader that is admitted is not queued. -/
theorem Kept.notMem_of_admitted (h : Kept p s b) {e : E}
    (howns : ¬p.Owns s.waiters (p.clientId e)) (h0 : s.numWriters = 0) : e ∉ s.waiters ∧
      ∀ x ∈ s.waiters, p.type x = .reader := by
  have hall : ∀ x ∈ s.waiters, p.type x = .reader := by
    intro x hx
    rcases htype : p.type x
    · rfl
    · have hcount := h.1.count x
      rw [h.1.acquisitions_eq_zero h0 htype, if_pos hx] at hcount
      omega
  refine ⟨fun he => howns ⟨e, mem_owners.mpr (Or.inl ?_), rfl⟩, hall⟩
  rw [readers_eq_self hall]
  exact he

/-- A reader joins when no writer is counted. -/
theorem Kept.joinReader (h : Kept p s b) {e : E} (howns : ¬p.Owns s.waiters (p.clientId e))
    (hadmits : p.type e = .reader ∧ s.numWriters = 0) :
    Kept p (s.join p e) (b.grant e) := by
  obtain ⟨he, hall⟩ := h.notMem_of_admitted howns hadmits.2
  have howners : ∀ l : List E, (∀ x ∈ l, p.type x = .reader) → ∀ x ∈ l, x ∈ p.owners l := by
    intro l hl x hx
    refine mem_owners.mpr (Or.inl ?_)
    rw [readers_eq_self hl]
    exact hx
  refine h.1.grant_join h.2 he (howners _ ?_) (howners _ hall) ?_ ?_
  · intro x hx
    rcases List.mem_append.mp hx with hx | hx
    · exact hall x hx
    · rw [List.mem_singleton.mp hx]
      exact hadmits.1
  · intro x hx
    exact (Nat.add_eq_zero_iff.mp (h.1.acquisitions_eq_zero hadmits.2 hx)).1
  · intro hw
    rw [hadmits.1] at hw
    cases hw

/-- The first entry owns the token. -/
theorem Kept.first (h : Kept p s b) {e : E} (hnil : s.waiters = []) :
    Kept p (s.join p e) (b.grant e) := by
  refine h.1.grant_join h.2 (by simp [hnil]) ?_ (by simp [hnil])
    (fun x _ => h.1.held_eq_zero_of_nil hnil x) fun _ => hnil
  intro x hx
  rw [hnil, List.nil_append, List.mem_singleton] at hx
  rw [hx, hnil]
  exact head_mem_owners rfl

/-- Nobody has had to do with a new token. -/
theorem kept_fresh : Kept p (⟨[], 0, fun _ => 0⟩ : RWLine E) .empty := by
  refine ⟨⟨List.nodup_nil, fun e => rfl, ?_, fun e h => ?_, fun e h => ?_, fun e _ h => ?_⟩,
    fun e _ => rfl⟩
  · simp [Ledger.empty, Ledger.acquisitions]
  all_goals cases h

variable [DecidableEq C]

/-- **A request that is admitted** keeps the books. -/
theorem Kept.perform (h : Kept p s b) (hadm : s.Admitted p b r) :
    Kept p (s.perform p r).1 (b.record (s.perform p r).2 r) := by
  cases r with
  | acquire e ignoreDeadlock deadlock notify =>
    simp only [RWLine.perform]
    unfold RWLine.acquire
    split_ifs with hnil howns hadmits hdead
    · exact h.first hnil
    · exact h.1.grant_nest h.2 howns (hadm.1 howns)
    · exact h.joinReader howns hadmits
    · exact h
    · refine h.1.wait_join h.2 (fun he => hdead (hadm.2 howns he)) hnil hadmits
    · refine h.1.wait_join h.2 (fun he => hdead (hadm.2 howns he)) hnil hadmits
  | tryacquire e =>
    simp only [RWLine.perform]
    unfold RWLine.tryacquire
    split_ifs with hnil howns hadmits
    · exact h.first hnil
    · exact h.1.grant_nest h.2 howns (hadm howns)
    · exact h.joinReader howns hadmits
    · exact h
  | renew e position =>
    simp only [RWLine.perform]
    unfold RWLine.renew
    by_cases howns : p.Owns s.waiters (p.clientId e)
    · rw [if_neg (not_not.mpr howns)]
      by_cases hstay : s.waiters.length = 1 ∨ position = 0
      · rw [if_pos hstay]
        exact h
      obtain ⟨hlen, h0⟩ := not_or.mp hstay
      obtain ⟨hown, -, halone, hnext⟩ := hadm howns hlen h0
      rw [if_neg hstay]
      by_cases hstill :
          p.type e = .reader ∧ p.Owns (s.requeue e position).waiters (p.clientId e)
      · rw [if_pos hstill]
        exact h.1.requeue_still h.2 hstill.1 hown hlen h0 hstill.2 (hnext hstill.1)
      · rw [if_neg hstill]
        exact h.1.requeue_block h.2 hown hstill halone
    · rw [if_pos howns]
      exact h
  | release e =>
    simp only [RWLine.perform]
    unfold RWLine.proxyRelease
    by_cases howns : p.Owns s.waiters (p.clientId e)
    · rw [if_neg (not_not.mpr howns)]
      by_cases hn : 0 < s.nestingLevel e
      · rw [if_pos hn]
        obtain ⟨hbooks, hset⟩ := h.1.release_unnest h.2 hn
        exact hbooks.promote (by simp) fun x hx _ => hset x hx
      · obtain ⟨hreader, halone⟩ := hadm.1 howns (Nat.eq_zero_of_not_pos hn)
        rw [if_neg hn]
        exact h.1.release h.2 (Nat.eq_zero_of_not_pos hn) hreader halone
    · rw [if_pos howns]
      exact h.1.withdraw_drop h.2 howns (hadm.2 howns)
  | remove e => exact h

/-- **A request that is admitted** uses the queue rightly, so the token does what the line does. -/
theorem Kept.refines (h : Kept p s b) (hadm : s.Admitted p b r) (href : t.Refines s) :
    ∃ t', t.perform p r = some (t', (s.perform p r).2) ∧ t'.Refines (s.perform p r).1 := by
  cases r with
  | acquire e ignoreDeadlock deadlock notify =>
    refine href.acquire p (RWLine.acquire_fresh fun he => ?_)
    refine or_iff_not_imp_left.mpr fun howns => ⟨hadm.2 howns he, fun hadmits => ?_⟩
    exact (h.notMem_of_admitted howns hadmits.2).1 he
  | tryacquire e =>
    refine href.tryacquire p (RWLine.tryacquire_fresh fun he => ?_)
    refine or_iff_not_imp_left.mpr fun howns hadmits => ?_
    exact (h.notMem_of_admitted howns hadmits.2).1 he
  | renew e position =>
    exact href.renew p fun howns hlen h0 => (hadm howns hlen h0).2.1
  | release e => exact href.proxyRelease p e
  | remove e => exact ⟨t, rfl, href⟩

/-! ### A run -/

/-- **What the token keeps**, with the entries of its queue in the order of their links. -/
structure RWToken.SoundAt (p : Proxies E C) (t : RWToken E) (b : Ledger E) (l : List E) :
    Prop where
  represents : t.waiters.Represents l
  /-- the number of writers is that of the write acquisitions queued or held -/
  count : t.numWriters = ∑ e, if p.type e = .writer then (b.acquisitions e : ℤ) else 0
  /-- so it is `0` when no writer is queued, and readers are admitted then -/
  noneQueued : (∀ e ∈ l, p.type e = .reader) → t.numWriters = 0 ∧
    ∀ e ignoreDeadlock deadlock notify, p.type e = .reader →
      ∃ t' o, t.acquire p e ignoreDeadlock (some deadlock) notify = some (t', o) ∧
        o.answer = .success
  /-- who holds the token for writing holds it alone -/
  exclusive : ∀ e e', p.type e = .writer → 0 < b.held e → 0 < b.held e' →
    p.clientId e' = p.clientId e
  /-- the owners have been granted the token, and hold it -/
  granted : ∀ c, ∃ isOwner, t.owners p c = some (p.owners l, isOwner) ∧
    ∀ e ∈ p.owners l, 0 < b.held e

/-- **The token is sound.** -/
def RWToken.Sound (p : Proxies E C) (t : RWToken E) (b : Ledger E) : Prop :=
  ∃ l, t.SoundAt p b l

/-- A reader asks when no writer is queued. -/
theorem Kept.acquire_success (h : Kept p s b) (href : t.Refines s)
    (hall : ∀ e ∈ s.waiters, p.type e = .reader) {e : E} (he : p.type e = .reader)
    (ignoreDeadlock deadlock notify : Bool) :
    ∃ t' o, t.acquire p e ignoreDeadlock (some deadlock) notify = some (t', o) ∧
      o.answer = .success := by
  have h0 := h.1.numWriters_eq_zero hall
  have hanswer : (s.acquire p e ignoreDeadlock deadlock notify).2.answer = .success := by
    unfold RWLine.acquire
    split_ifs with hnil howns hadmits
    · rfl
    · rfl
    · rfl
    all_goals exact absurd ⟨he, h0⟩ hadmits
  have hfresh : (s.acquire p e ignoreDeadlock deadlock notify).1.waiters = s.waiters ∨
      e ∉ s.waiters := by
    by_cases howns : p.Owns s.waiters (p.clientId e)
    · exact RWLine.acquire_fresh fun _ => Or.inl howns
    · exact Or.inr (h.notMem_of_admitted howns h0).1
  obtain ⟨t', heq, -⟩ := href.acquire p hfresh
  exact ⟨t', _, heq, hanswer⟩

/-- **The books make a token sound.** -/
theorem Kept.sound (h : Kept p s b) (href : t.Refines s) : t.SoundAt p b s.waiters := by
  refine ⟨href.waiters, href.numWriters.trans h.1.writers, fun hall => ⟨?_, ?_⟩,
    fun e e' hw he he' => ?_,
    fun c => ⟨_, RWToken.owners_eq href.waiters, fun e he => h.1.held_pos h.2 he⟩⟩
  · exact href.numWriters.trans (h.1.numWriters_eq_zero hall)
  · intro e ignoreDeadlock deadlock notify he
    exact h.acquire_success href hall he ignoreDeadlock deadlock notify
  · -- the writer at the head is the only owner
    obtain ⟨w, hhead, hwriter⟩ := h.1.exclusive e hw he
    obtain ⟨y, hy, hclient⟩ := h.1.holder e he
    obtain ⟨z, hz, hclient'⟩ := h.1.holder e' he'
    rw [← hclient, ← hclient', eq_of_head_writer hhead hwriter hy,
      eq_of_head_writer hhead hwriter hz]

/-- The requests that go right, in the words of the token. -/
def RWToken.Admitted (p : Proxies E C) (s : RWToken E × Ledger E) (r : Request E) : Prop :=
  s.1.line.Admitted p s.2 r

instance (p : Proxies E C) (s : RWToken E × Ledger E) (r : Request E) :
    Decidable (RWToken.Admitted p s r) :=
  inferInstanceAs (Decidable (s.1.line.Admitted p s.2 r))

/-- A new token, with which nobody has had to do. -/
def RWToken.fresh : RWToken E × Ledger E := (.init, .empty)

/-- **The readers/writer token is sound** after every run whose requests are all admitted: the run
has an end, and what the token keeps is kept. -/
theorem sound_of_admitted (p : Proxies E C) (requests : List (Request E))
    (hadm : Machine.Guarded (RWToken.step p) (RWToken.Admitted p) RWToken.fresh requests) :
    ∃ s outcomes, Machine.run (RWToken.step p) RWToken.fresh requests = some (s, outcomes) ∧
      s.1.Sound p s.2 := by
  have hprog : ∀ (s : RWToken E × Ledger E) (r : Request E),
      (∃ line, Kept p line s.2 ∧ s.1.Refines line) → RWToken.Admitted p s r →
      ∃ s' o, RWToken.step p s r = some (s', o) ∧
        ∃ line, Kept p line s'.2 ∧ s'.1.Refines line := by
    rintro s r ⟨line, hkept, href⟩ hr
    rw [RWToken.Admitted, href.line_eq] at hr
    obtain ⟨t', heq, href'⟩ := hkept.refines hr href
    exact ⟨_, _, by rw [RWToken.step, heq]; rfl, _, hkept.perform hr, href'⟩
  have hinit : ∃ line, Kept p line (RWToken.fresh (E := E)).2 ∧ RWToken.fresh.1.Refines line :=
    ⟨_, kept_fresh, ProxyQueue.represents_empty, rfl, rfl⟩
  obtain ⟨s, outcomes, hrun, line, hkept, href⟩ := Machine.run_isSome_of_guarded hprog hinit hadm
  exact ⟨s, outcomes, hrun, line.waiters, hkept.sound href⟩

/-! ### Three clients -/

/-- A reader, a writer and another reader, each of a client of its own. -/
def threeProxies : Proxies (Fin 3) (Fin 3) := ⟨id, fun e => if e = 1 then .writer else .reader⟩

theorem sound_of_admitted_three :
    ∃ s outcomes, Machine.run (RWToken.step threeProxies) RWToken.fresh
        [.acquire 0 false false false, .acquire 1 false false true, .tryacquire 2, .release 0,
          .acquire 1 false false false, .acquire 2 false false false, .renew 1 (-1), .release 2,
          .release 1, .release 1] = some (s, outcomes) ∧
      s.1.Sound threeProxies s.2 :=
  sound_of_admitted _ _ (by decide +kernel)

/-- **A writer that gives up waiting stays counted**: the first reader holds the token, the writer
waits, and its client calls `release` after a timeout. Nobody writes or waits to write then, but the
token counts one writer. -/
theorem not_sound_withdrawn :
    ¬∃ s outcomes, Machine.run (RWToken.step threeProxies) RWToken.fresh
        [.acquire 0 false false false, .acquire 1 false false false, .release 1] =
          some (s, outcomes) ∧
      s.1.Sound threeProxies s.2 := by
  rintro ⟨s, outcomes, hrun, l, h⟩
  have hcounts : ((Machine.run (RWToken.step threeProxies) RWToken.fresh
      [.acquire 0 false false false, .acquire 1 false false false, .release 1]).map fun r =>
        (r.1.1.numWriters, ∑ e, if threeProxies.type e = .writer then
          (r.1.2.acquisitions e : ℤ) else 0)) = some (1, 0) := by
    decide +kernel
  rw [hrun, Option.map_some, Option.some.injEq, Prod.mk.injEq] at hcounts
  have hcount := h.count
  rw [hcounts.1, hcounts.2] at hcount
  cases hcount

end AceTao.Tokens
