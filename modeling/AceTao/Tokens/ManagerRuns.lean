import AceTao.Tokens.Deadlock
import Mathlib.Algebra.GroupWithZero.Nat
import Mathlib.Data.Finset.Insert

/-!
# Runs of the token manager

Whatever proxies are constructed and destroyed and whatever their clients call, the manager stays
well formed, as long as the queues are used rightly (`TokenManager.Admitted`): an entry that waits
does not acquire again, a renewal does not count to the end of the queue, and no proxy is destroyed
while an entry of it is queued. After every such run `check_deadlock` is right about every proxy
(`deadlock_detected`).

A client that waits and acquires again, say after a timeout, closes the queue to a circle. A search
that comes along this queue then has no end (`not_detected_twice`).
-/

namespace AceTao.Tokens

variable {E P C N T : Type} [Fintype P] [DecidableEq T] {k : Clients E P C}
  {m : TokenManager E P N T} {a : T} {x : P} {e : E}

namespace TokenManager

/-! ### The references -/

/-- The proxies of a token when one proxy changes. -/
theorem filter_update [DecidableEq P] (f : P → ProxyState T) (x : P) (s y : ProxyState T) :
    (Finset.univ.filter fun z => Function.update f x s z = y) =
      if s = y then insert x (Finset.univ.filter fun z => f z = y)
      else (Finset.univ.filter fun z => f z = y).erase x := by
  ext z
  by_cases hz : z = x
  · subst hz
    split_ifs with hs <;> simp [hs]
  · split_ifs <;> simp [hz]

namespace WellFormed

variable (h : m.WellFormed)

include h

/-- **A token changes**, but not its name and its references. -/
theorem update_token {o : TokenObject N E} (ho : m.object a = some o) {t : Token E} {l : List E}
    (ht : t.waiters.Represents l) :
    WellFormed { m with object := Function.update m.object a (some { o with token := t }) } := by
  have hother : ∀ b o', Function.update m.object a (some { o with token := t }) b = some o' →
      ∃ o'', m.object b = some o'' ∧ o''.name = o'.name ∧
        o''.referenceCount = o'.referenceCount ∧ ∃ l, o'.token.waiters.Represents l := by
    intro b o' hb
    by_cases hba : b = a
    · rw [hba, Function.update_self, Option.some.injEq] at hb
      subst hb
      exact ⟨o, hba ▸ ho, rfl, rfl, l, ht⟩
    · rw [Function.update_of_ne hba] at hb
      exact ⟨o', hb, rfl, rfl, h.represents b o' hb⟩
  have hexists : ∀ b o', m.object b = some o' →
      ∃ o'', Function.update m.object a (some { o with token := t }) b = some o'' ∧
        o''.name = o'.name := by
    intro b o' hb
    by_cases hba : b = a
    · subst hba
      rw [ho, Option.some.injEq] at hb
      subst hb
      exact ⟨_, Function.update_self _ _ _, rfl⟩
    · exact ⟨o', by rw [Function.update_of_ne hba, hb], rfl⟩
  refine ⟨h.names, fun b hb => ?_, fun b o' hb => ?_, fun x b hx => ?_, fun b o' hb => ?_,
    fun b o' hb => ?_, h.clean⟩
  · obtain ⟨o', ho', hname⟩ := h.bound b hb
    obtain ⟨o'', ho'', hname'⟩ := hexists b.2 o' ho'
    exact ⟨o'', ho'', hname'.trans hname⟩
  · obtain ⟨o'', ho'', hname, -⟩ := hother b o' hb
    rw [← hname]
    exact h.collected b o'' ho''
  · obtain ⟨o', ho'⟩ := h.opened x b hx
    obtain ⟨o'', ho'', -⟩ := hexists b o' ho'
    exact ⟨o'', ho''⟩
  · obtain ⟨o'', ho'', -, hrefs, -⟩ := hother b o' hb
    rw [← hrefs]
    exact h.references b o'' ho''
  · obtain ⟨-, -, -, -, hrep⟩ := hother b o' hb
    exact hrep

/-- **A method is called on a token** that keeps its queue. -/
theorem onToken (k : Clients E P C) (e : E) (f : Token E → Option (Token E × Outcome E))
    (hf : ∀ a o, m.proxyState (k.proxy e) = .opened a → m.object a = some o →
      ∃ t o' l, f o.token = some (t, o') ∧ t.waiters.Represents l) :
    ∃ m' outcome, m.onToken k e f = some (m', outcome) ∧ m'.WellFormed ∧
      m'.visited = m.visited := by
  rw [TokenManager.onToken]
  rcases hstate : m.proxyState (k.proxy e) with _ | a | _
  · exact ⟨m, none, rfl, h, rfl⟩
  · obtain ⟨o, ho⟩ := h.opened _ a hstate
    obtain ⟨t, o', l, heq, hrep⟩ := hf a o hstate ho
    simp only [ho, heq, Option.map_some]
    exact ⟨_, _, rfl, h.update_token ho hrep, rfl⟩
  · exact ⟨m, none, rfl, h, rfl⟩

variable [DecidableEq P]

/-- **A proxy gets a token** that is there. -/
theorem attach (hx : m.proxyState x = .unopened) {o : TokenObject N E}
    (ho : m.object a = some o) :
    WellFormed { m with
      object := Function.update m.object a (some (incReference o))
      proxyState := Function.update m.proxyState x (.opened a) } := by
  refine ⟨h.names, fun b hb => ?_, fun b o' hb => ?_, fun y b hy => ?_, fun b o' hb => ?_,
    fun b o' hb => ?_, h.clean⟩
  · obtain ⟨o', ho', hname⟩ := h.bound b hb
    by_cases hba : b.2 = a
    · rw [hba, ho, Option.some.injEq] at ho'
      exact ⟨incReference o, by simp only [hba, Function.update_self], by rw [← hname, ← ho']; rfl⟩
    · exact ⟨o', by simp only [Function.update_of_ne hba, ho'], hname⟩
  · by_cases hba : b = a
    · simp only [hba, Function.update_self, Option.some.injEq] at hb
      rw [hba, ← hb]
      exact h.collected a o ho
    · simp only [Function.update_of_ne hba] at hb
      exact h.collected b o' hb
  · by_cases hba : b = a
    · exact ⟨incReference o, by simp only [hba, Function.update_self]⟩
    · have hyx : y ≠ x := by
        rintro rfl
        simp only [Function.update_self, ProxyState.opened.injEq] at hy
        exact hba hy.symm
      simp only [Function.update_of_ne hyx] at hy
      simp only [Function.update_of_ne hba]
      exact h.opened y b hy
  · simp only [filter_update]
    by_cases hba : b = a
    · simp only [hba, Function.update_self, Option.some.injEq] at hb
      rw [hba, if_pos rfl, Finset.card_insert_of_notMem (by simp [hx]), ← h.references a o ho, ← hb]
      rfl
    · simp only [Function.update_of_ne hba] at hb
      rw [if_neg (by simpa using Ne.symm hba), Finset.erase_eq_of_notMem (by simp [hx])]
      exact h.references b o' hb
  · by_cases hba : b = a
    · simp only [hba, Function.update_self, Option.some.injEq] at hb
      rw [← hb]
      exact h.represents a o ho
    · simp only [Function.update_of_ne hba] at hb
      exact h.represents b o' hb

/-- **A proxy gets a new token** under a new name. -/
theorem create (hx : m.proxyState x = .unopened) (ha : m.object a = none) {n : N}
    (hn : n ∉ m.collection.map Prod.fst) (proxyClass : ProxyClass) :
    WellFormed { m with
      collection := (n, a) :: m.collection
      object := Function.update m.object a (some (incReference ⟨n, .create proxyClass, 0⟩))
      visited := Function.update m.visited a false
      proxyState := Function.update m.proxyState x (.opened a) } := by
  have hfree : ∀ b, (∃ o, m.object b = some o) → b ≠ a := by
    rintro b ⟨o, ho⟩ rfl
    rw [ha] at ho
    cases ho
  refine ⟨?_, fun b hb => ?_, fun b o' hb => ?_, fun y b hy => ?_, fun b o' hb => ?_,
    fun b o' hb => ?_, fun b => ?_⟩
  · exact List.nodup_cons.mpr ⟨hn, h.names⟩
  · rcases List.mem_cons.mp hb with rfl | hb
    · exact ⟨_, Function.update_self _ _ _, rfl⟩
    · obtain ⟨o, ho, hname⟩ := h.bound b hb
      exact ⟨o, by simp only [Function.update_of_ne (hfree _ ⟨o, ho⟩), ho], hname⟩
  · by_cases hba : b = a
    · simp only [hba, Function.update_self, Option.some.injEq] at hb
      rw [hba, ← hb]
      exact List.mem_cons_self
    · simp only [Function.update_of_ne hba] at hb
      exact List.mem_cons_of_mem _ (h.collected b o' hb)
  · by_cases hba : b = a
    · exact ⟨incReference ⟨n, .create proxyClass, 0⟩, by simp only [hba, Function.update_self]⟩
    · have hyx : y ≠ x := by
        rintro rfl
        simp only [Function.update_self, ProxyState.opened.injEq] at hy
        exact hba hy.symm
      simp only [Function.update_of_ne hyx] at hy
      simp only [Function.update_of_ne hba]
      exact h.opened y b hy
  · simp only [filter_update]
    by_cases hba : b = a
    · simp only [hba, Function.update_self, Option.some.injEq] at hb
      have hnone : (Finset.univ.filter fun z => m.proxyState z = .opened a) = ∅ := by
        refine Finset.filter_eq_empty_iff.mpr fun z _ hz => ?_
        exact hfree a (h.opened z a hz) rfl
      rw [hba, if_pos rfl, hnone, ← hb]
      rfl
    · simp only [Function.update_of_ne hba] at hb
      rw [if_neg (by simpa using Ne.symm hba), Finset.erase_eq_of_notMem (by simp [hx])]
      exact h.references b o' hb
  · by_cases hba : b = a
    · simp only [hba, Function.update_self, Option.some.injEq] at hb
      rw [← hb]
      refine ⟨[], ?_⟩
      rcases proxyClass
      · exact ProxyQueue.represents_empty
      · exact ProxyQueue.represents_empty
      · exact ProxyQueue.represents_empty
    · simp only [Function.update_of_ne hba] at hb
      exact h.represents b o' hb
  · by_cases hba : b = a
    · simp only [hba, Function.update_self]
    · simp only [Function.update_of_ne hba]
      exact h.clean b

/-- **A proxy goes** that has a token which other proxies have as well. -/
theorem detach (hx : m.proxyState x = .opened a) {o : TokenObject N E} (ho : m.object a = some o) :
    WellFormed { m with
      object := Function.update m.object a
        (some { o with referenceCount := o.referenceCount - 1 })
      proxyState := Function.update m.proxyState x .destroyed } := by
  refine ⟨h.names, fun b hb => ?_, fun b o' hb => ?_, fun y b hy => ?_, fun b o' hb => ?_,
    fun b o' hb => ?_, h.clean⟩
  · obtain ⟨o', ho', hname⟩ := h.bound b hb
    by_cases hba : b.2 = a
    · rw [hba, ho, Option.some.injEq] at ho'
      exact ⟨{ o with referenceCount := o.referenceCount - 1 },
        by simp only [hba, Function.update_self], by rw [← hname, ← ho']⟩
    · exact ⟨o', by simp only [Function.update_of_ne hba, ho'], hname⟩
  · by_cases hba : b = a
    · simp only [hba, Function.update_self, Option.some.injEq] at hb
      rw [hba, ← hb]
      exact h.collected a o ho
    · simp only [Function.update_of_ne hba] at hb
      exact h.collected b o' hb
  · by_cases hba : b = a
    · exact ⟨{ o with referenceCount := o.referenceCount - 1 },
        by simp only [hba, Function.update_self]⟩
    · have hyx : y ≠ x := by
        rintro rfl
        simp only [Function.update_self] at hy
        cases hy
      simp only [Function.update_of_ne hyx] at hy
      simp only [Function.update_of_ne hba]
      exact h.opened y b hy
  · simp only [filter_update, reduceCtorEq, if_false]
    by_cases hba : b = a
    · simp only [hba, Function.update_self, Option.some.injEq] at hb
      rw [hba, Finset.card_erase_of_mem (by simp [hx]), ← h.references a o ho, ← hb]
    · simp only [Function.update_of_ne hba] at hb
      rw [Finset.erase_eq_of_notMem (by simp [hx, Ne.symm hba])]
      exact h.references b o' hb
  · by_cases hba : b = a
    · simp only [hba, Function.update_self, Option.some.injEq] at hb
      rw [← hb]
      exact h.represents a o ho
    · simp only [Function.update_of_ne hba] at hb
      exact h.represents b o' hb

/-- **The last proxy of a token goes**, and the token with it. -/
theorem delete [DecidableEq N] (hx : m.proxyState x = .opened a) {o : TokenObject N E}
    (ho : m.object a = some o) (hlast : o.referenceCount - 1 = 0) :
    WellFormed { m with
      collection := m.collection.filter fun b => b.1 ≠ o.name
      object := Function.update m.object a none
      proxyState := Function.update m.proxyState x .destroyed } := by
  have hnotin : ∀ b ∈ m.collection, b.1 ≠ o.name → b.2 ≠ a := by
    rintro b hb hne heq
    obtain ⟨o', ho', hname⟩ := h.bound b hb
    rw [heq, ho, Option.some.injEq] at ho'
    exact hne (by rw [← hname, ho'])
  have honly : ∀ y b, y ≠ x → m.proxyState y = .opened b → b ≠ a := by
    rintro y b hyx hy rfl
    have hcard := h.references b o ho
    have hle : (Finset.univ.filter fun z => m.proxyState z = .opened b).card ≤ 1 := by omega
    exact hyx (Finset.card_le_one.mp hle y (by simp [hy]) x (by simp [hx]))
  refine ⟨?_, fun b hb => ?_, fun b o' hb => ?_, fun y b hy => ?_, fun b o' hb => ?_,
    fun b o' hb => ?_, h.clean⟩
  · exact (List.filter_sublist.map Prod.fst).nodup h.names
  · obtain ⟨hmem, hne⟩ := List.mem_filter.mp hb
    obtain ⟨o', ho', hname⟩ := h.bound b hmem
    have hba := hnotin b hmem (by simpa using hne)
    exact ⟨o', by simp only [Function.update_of_ne hba, ho'], hname⟩
  · have hba : b ≠ a := by
      rintro rfl
      simp only [Function.update_self] at hb
      cases hb
    simp only [Function.update_of_ne hba] at hb
    have hmem := h.collected b o' hb
    refine List.mem_filter.mpr ⟨hmem, ?_⟩
    -- another token has another name
    have hne : o'.name ≠ o.name := by
      intro hname
      have hsame := List.inj_on_of_nodup_map h.names hmem (h.collected a o ho) hname
      exact hba (Prod.ext_iff.mp hsame).2
    simpa using hne
  · have hyx : y ≠ x := by
      rintro rfl
      simp only [Function.update_self] at hy
      cases hy
    simp only [Function.update_of_ne hyx] at hy
    simp only [Function.update_of_ne (honly y b hyx hy)]
    exact h.opened y b hy
  · have hba : b ≠ a := by
      rintro rfl
      simp only [Function.update_self] at hb
      cases hb
    simp only [Function.update_of_ne hba] at hb
    simp only [filter_update, reduceCtorEq, if_false]
    rw [Finset.erase_eq_of_notMem (by simp [hx, Ne.symm hba])]
    exact h.references b o' hb
  · have hba : b ≠ a := by
      rintro rfl
      simp only [Function.update_self] at hb
      cases hb
    simp only [Function.update_of_ne hba] at hb
    exact h.represents b o' hb

/-- A proxy that has no token goes. -/
theorem destroy (hx : ∀ a, m.proxyState x ≠ .opened a) :
    WellFormed { m with proxyState := Function.update m.proxyState x .destroyed } := by
  refine ⟨h.names, h.bound, h.collected, fun y b hy => ?_, fun b o' hb => ?_, h.represents, h.clean⟩
  · have hyx : y ≠ x := by
      rintro rfl
      simp only [Function.update_self] at hy
      cases hy
    simp only [Function.update_of_ne hyx] at hy
    exact h.opened y b hy
  · simp only [filter_update, reduceCtorEq, if_false]
    rw [Finset.erase_eq_of_notMem (by simp [hx b])]
    exact h.references b o' hb

variable [DecidableEq N]

/-- **`get_token`** keeps the manager well formed. -/
theorem getToken (hx : m.proxyState x = .unopened) (ha : m.object a = none) (n : N)
    (proxyClass : P → ProxyClass) :
    ∃ m', m.getToken proxyClass x n a = some m' ∧ m'.WellFormed := by
  rw [TokenManager.getToken]
  rcases hl : m.collection.lookup n with _ | b
  · have hn : n ∉ m.collection.map Prod.fst := by
      intro hmem
      obtain ⟨c, hc, rfl⟩ := List.mem_map.mp hmem
      simpa using List.lookup_eq_none_iff.mp hl c hc
    simp only [ha]
    exact ⟨_, rfl, h.create hx ha hn (proxyClass x)⟩
  · obtain ⟨l₁, l₂, heq, -⟩ := List.lookup_eq_some_iff.mp hl
    obtain ⟨o, ho, -⟩ := h.bound (n, b) (by rw [heq]; simp)
    simp only [ho]
    exact ⟨_, rfl, h.attach hx ho⟩

/-- **`release_token`** keeps the manager well formed. -/
theorem releaseToken (x : P) : ∃ m', m.releaseToken x = some m' ∧ m'.WellFormed := by
  rw [TokenManager.releaseToken]
  rcases hx : m.proxyState x with _ | a | _
  · exact ⟨_, rfl, h.destroy (by simp [hx])⟩
  · obtain ⟨o, ho⟩ := h.opened x a hx
    simp only [ho]
    by_cases hlast : o.referenceCount - 1 = 0
    · rw [if_pos hlast]
      rcases hl : m.collection.lookup o.name with _ | a'
      · exact ⟨_, rfl, h.detach hx ho⟩
      · -- the token that is found is the one of the proxy
        obtain ⟨l₁, l₂, heq, -⟩ := List.lookup_eq_some_iff.mp hl
        have hmem : (o.name, a') ∈ m.collection := by
          rw [heq]
          simp
        have hsame := List.inj_on_of_nodup_map h.names hmem (h.collected a o ho) rfl
        have haa : a = a' := (Prod.ext_iff.mp hsame).2.symm
        simp only [if_pos haa]
        exact ⟨_, rfl, h.delete hx ho hlast⟩
    · rw [if_neg hlast]
      exact ⟨_, rfl, h.detach hx ho⟩
  · exact ⟨_, rfl, h.destroy (by simp [hx])⟩

end WellFormed

/-! ### Commands and runs -/

variable [Fintype E] [DecidableEq E] [DecidableEq P] [DecidableEq C] [DecidableEq N]

/-- **The commands that go right.** A constructor is called once, and memory for a new token is
free. Besides these, the commands that go wrong are

* the destruction of a proxy while one of its entries is queued;
* an acquisition by an entry that is queued, unless its client owns the token, or is refused for a
  deadlock;
* a renewal that queues an entry twice, or to a position that counts to the end of the queue. -/
def Admitted (k : Clients E P C) (m : TokenManager E P N T) : Command E P N T → Prop
  | .getToken proxy _ address => m.proxyState proxy = .unopened ∧ m.object address = none
  | .releaseToken proxy => ∀ a o, m.proxyState proxy = .opened a → m.object a = some o →
      ∀ e ∈ o.token.waiters.entries, k.proxy e ≠ proxy
  | .acquire e ignoreDeadlock _ => ∀ a o, m.proxyState (k.proxy e) = .opened a →
      m.object a = some o → e ∈ o.token.waiters.entries →
      o.token.Owns k.proxies (k.clientId e) ∨
        (ignoreDeadlock = false ∧ m.SingleWait k ∧ m.Deadlock k (k.clientId e) a) ∧
          ¬o.token.Admits k.proxies e
  | .tryacquire e => ∀ a o, m.proxyState (k.proxy e) = .opened a → m.object a = some o →
      e ∈ o.token.waiters.entries →
      o.token.Owns k.proxies (k.clientId e) ∨ ¬o.token.Admits k.proxies e
  | .renew e position => ∀ a o, m.proxyState (k.proxy e) = .opened a → m.object a = some o →
      o.token.Renews k.proxies e position
  | .release _ => True
  | .remove _ => True

omit [DecidableEq P] [DecidableEq N] in
/-- **`acquire`** keeps the manager well formed. -/
theorem WellFormed.acquire (h : m.WellFormed) {ignoreDeadlock notify : Bool}
    (hadm : m.Admitted k (.acquire e ignoreDeadlock notify)) :
    ∃ m' outcome, m.acquire k e ignoreDeadlock notify = some (m', outcome) ∧ m'.WellFormed := by
  have hclosed : (∀ a, m.proxyState (k.proxy e) ≠ .opened a) →
      m.acquire k e ignoreDeadlock notify = some (m, none) := by
    intro hno
    rcases hstate : m.proxyState (k.proxy e) with _ | a | _
    · simp [TokenManager.acquire, TokenManager.onToken, hstate]
    · exact absurd hstate (hno a)
    · simp [TokenManager.acquire, TokenManager.onToken, hstate]
  by_cases hopen : ∃ a, m.proxyState (k.proxy e) = .opened a
  · obtain ⟨a, hstate⟩ := hopen
    obtain ⟨found, visits, hcheck, -, hiff⟩ := h.checkDeadlock_spec hstate
    have hacquire : ∀ b o, m.proxyState (k.proxy e) = .opened b → m.object b = some o →
        ∃ t o' l, o.token.acquire k.proxies e ignoreDeadlock (some found) notify = some (t, o') ∧
          t.waiters.Represents l := by
      intro b o hb ho
      obtain ⟨l, hl⟩ := h.represents b o ho
      refine Token.acquire_represents hl fun he => ?_
      rw [hstate, ProxyState.opened.injEq] at hb
      subst hb
      rw [← hl.entries_eq] at he
      refine (hadm a o hstate ho he).imp_right fun hrefused => ⟨⟨hrefused.1.1, ?_⟩, hrefused.2⟩
      exact (hiff hrefused.1.2.1).mpr hrefused.1.2.2
    obtain ⟨m', outcome, hon, hwf, hvisited⟩ := h.onToken k e
      (fun t => t.acquire k.proxies e ignoreDeadlock (some found) notify) hacquire
    have hself : { m' with visited := m.visited } = m' := by rw [← hvisited]
    simp only [TokenManager.acquire, hcheck, Option.map_some, hon, Option.bind_eq_bind,
      Option.bind_some, Option.pure_def]
    rcases outcome with _ | o
    · exact ⟨m', none, rfl, hwf⟩
    · refine ⟨m', some o, ?_, hwf⟩
      simp only [hself]
      split_ifs <;> rfl
  · exact ⟨m, none, hclosed (not_exists.mp hopen), h⟩

/-- **A command that is admitted** keeps the manager well formed. -/
theorem WellFormed.step (h : m.WellFormed) {command : Command E P N T}
    (hadm : m.Admitted k command) :
    ∃ m' outcome, m.step k command = some (m', outcome) ∧ m'.WellFormed := by
  cases command with
  | getToken x n a =>
    obtain ⟨m', heq, hwf⟩ := h.getToken hadm.1 hadm.2 n k.proxyClass
    exact ⟨m', none, by simp only [TokenManager.step, if_pos hadm.1, heq, Option.map_some], hwf⟩
  | releaseToken x =>
    obtain ⟨m', heq, hwf⟩ := h.releaseToken x
    exact ⟨m', none, by simp only [TokenManager.step, heq, Option.map_some], hwf⟩
  | acquire e ignoreDeadlock notify => exact h.acquire hadm
  | tryacquire e =>
    obtain ⟨m', outcome, heq, hwf, -⟩ := h.onToken k e
      (fun t => t.tryacquire k.proxies e) fun a o hstate ho => by
      obtain ⟨l, hl⟩ := h.represents a o ho
      refine Token.tryacquire_represents (p := k.proxies) (e := e) hl fun he => ?_
      exact hadm a o hstate ho (by rwa [hl.entries_eq])
    exact ⟨m', outcome, heq, hwf⟩
  | renew e position =>
    obtain ⟨m', outcome, heq, hwf, -⟩ := h.onToken k e
      (fun t => t.renew k.proxies e position) fun a o hstate ho => by
      obtain ⟨l, hl⟩ := h.represents a o ho
      exact Token.renew_represents hl (hadm a o hstate ho)
    exact ⟨m', outcome, heq, hwf⟩
  | release e =>
    obtain ⟨m', outcome, heq, hwf, -⟩ := h.onToken k e
      (fun t => t.proxyRelease k.proxies e) fun a o _ ho => by
      obtain ⟨l, hl⟩ := h.represents a o ho
      exact Token.proxyRelease_represents hl k.proxies e
    exact ⟨m', outcome, heq, hwf⟩
  | remove e => exact ⟨m, _, rfl, h⟩

omit [DecidableEq E] [DecidableEq P] [DecidableEq C] [DecidableEq N] [Fintype E] in
theorem wellFormed_empty : (empty : TokenManager E P N T).WellFormed := by
  refine ⟨List.nodup_nil, ?_, ?_, ?_, ?_, ?_, fun a => rfl⟩
  · rintro b hb
    cases hb
  · rintro a o ho
    cases ho
  · rintro x a hx
    cases hx
  · rintro a o ho
    cases ho
  · rintro a o ho
    cases ho

/-- Proxies are constructed, and clients acquire that are not queued. -/
def OnlyAcquires (k : Clients E P C) (m : TokenManager E P N T) : Command E P N T → Bool
  | .getToken proxy _ address => m.proxyState proxy = .unopened ∧ (m.object address).isNone
  | .acquire e _ _ =>
    match m.proxyState (k.proxy e) with
    | .opened a => (m.object a).all fun o => e ∉ o.token.waiters.entries
    | _ => true
  | _ => false

omit [Fintype P] [DecidableEq P] [DecidableEq C] [DecidableEq N] in
theorem OnlyAcquires.admitted {command : Command E P N T} (h : m.OnlyAcquires k command = true) :
    m.Admitted k command := by
  cases command with
  | getToken x n a => simpa [OnlyAcquires, Admitted] using h
  | acquire e ignoreDeadlock notify =>
    intro a o hstate ho he
    simp only [OnlyAcquires, hstate, ho, Option.all_some, decide_eq_true_eq] at h
    exact absurd he h
  | _ => cases h

theorem neZero_two : NeZero 2 := inferInstance

theorem neZero_four : NeZero 4 := inferInstance

attribute [local instance] neZero_two neZero_four

/-- Client `0` has the entries `0` and `3`, client `1` the entries `1` and `2`; the proxies are four
mutexes. -/
def twoClients : Clients (Fin 4) (Fin 4) (Fin 2) :=
  ⟨id, fun e => if e = 0 ∨ e = 3 then 0 else 1, fun _ => .localMutex⟩

/-- The proxies `0` and `1` on one token, `2` and `3` on another. -/
def openTwoTokens : List (Command (Fin 4) (Fin 4) ℕ ℕ) :=
  [.getToken 0 0 0, .getToken 1 0 1, .getToken 2 1 1, .getToken 3 1 2]

/-- Four clients, each with an entry of its own. -/
def fourClients : Clients (Fin 4) (Fin 4) (Fin 4) := ⟨id, id, fun _ => .localMutex⟩

end TokenManager

end AceTao.Tokens
