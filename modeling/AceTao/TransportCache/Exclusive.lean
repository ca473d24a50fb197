import AceTao.TransportCache.Consistent

/-!
# Who has been handed a transport

Threads share the cache; every section under its lock is one step. A thread that `find` answers an
available transport *holds* it until the transport is made idle. The discipline of the threads
(`HandedOut.Disciplined`) is that a transport is made idle only by the thread that holds it, if one
does, and that a thread ends only requests that it has begun.

The hand-out is *exclusive* (`HandedOut.Exclusive`) when neither `find` nor the purges choose a
transport that is held, and `purge_idle_transports` keeps those with active requests. The state of an
entry is what excludes it, and `cache_transport` overwrites the state when it is called for a
transport again. The hand-out is exclusive in all runs in which a transport that is cached is cached
again only where the search meets its entry, and there, while it is held, in a state in which it is
neither idle nor purgable (`HandedOut.exclusive_of_run`).
-/

namespace AceTao

/-- A step of a thread of `P`. -/
inductive ThreadOp (E T P : Type)
  | find (thread : P) (prop : E)
  | makeIdle (thread : P) (transport : T)
  | cacheTransport (prop : E) (transport : T) (state : EntryState) (connected memory : Bool)
  | beginActiveRequest (thread : P) (transport : T)
  | endActiveRequest (thread : P) (transport : T)
  | purge (s : TransportState T) (purgingOrder : ℕ → ℕ) (memory : Bool)
  | purgeIdleTransports (s : TransportState T)

/-- The operation of the cache. -/
def ThreadOp.toOp {E T P : Type} : ThreadOp E T P → CacheOp E T
  | .find _ prop => .findTransport (some prop) 0
  | .makeIdle _ t => .makeIdle t
  | .cacheTransport prop t state connected memory => .cacheTransport prop t state connected memory
  | .beginActiveRequest _ t => .beginActiveRequest t
  | .endActiveRequest _ t => .endActiveRequest t
  | .purge s order memory => .purge s order memory
  | .purgeIdleTransports s => .purgeIdleTransports s

/-- **The cache and the threads**: which thread holds a transport, and the requests that they have
begun and not ended. -/
structure HandedOut (E T P : Type) where
  cache : TransportCache E T
  holder : T → Option P
  requests : List (P × T)

namespace HandedOut

variable {E T P : Type}

/-! ### States -/

/-- A transport may be purged, or found, in this state. -/
def Free (state : EntryState) : Prop := state = .idleAndPurgable ∨ state = .purgableButNotIdle

theorem free_of_isEntryPurgable {c : TransportCache E T} {ts : TransportState T}
    {e : CacheEntry E T} (h : c.isEntryPurgable ts e) :
    Free e.intId.recycleState ∧ c.activeRequests e.transport = 0 := by
  rw [TransportCache.isEntryPurgable, TransportCache.canBePurged, Bool.and_eq_true,
    Bool.and_eq_true, Bool.or_eq_true, decide_eq_true_eq, decide_eq_true_eq, decide_eq_true_eq] at h
  exact ⟨h.1, h.2.1⟩

theorem free_of_isAvailable {e : CacheEntry E T} (h : e.isAvailable) :
    Free e.intId.recycleState := by
  rw [CacheEntry.isAvailable, Bool.and_eq_true, decide_eq_true_eq] at h
  exact .inl h.1

/-! ### Steps -/

variable [DecidableEq T]

def empty : HandedOut E T P := ⟨.empty, fun _ => none, []⟩

/-- The holders after a step. -/
def holderAfter (s : HandedOut E T P) : ThreadOp E T P → CacheAnswer T → T → Option P
  | .find p _, .found r =>
    match r.result, r.transport with
    | .available, some t => Function.update s.holder t (some p)
    | _, _ => s.holder
  | .makeIdle _ t, _ => Function.update s.holder t none
  | _, _ => s.holder

section Step

variable [DecidableEq P]

/-- The requests after a step. -/
def requestsAfter (s : HandedOut E T P) : ThreadOp E T P → CacheAnswer T → List (P × T)
  | .beginActiveRequest p t, .begun _ true => (p, t) :: s.requests
  | .endActiveRequest p t, _ => s.requests.erase (p, t)
  | _, _ => s.requests

/-- **A step of a thread.** -/
def step [DecidableEq E] (cfg : CacheConfig) (s : HandedOut E T P) (op : ThreadOp E T P) :
    Option (HandedOut E T P × CacheAnswer T) :=
  (s.cache.step cfg op.toOp).map fun (c, a) => (⟨c, s.holderAfter op a, s.requestsAfter op a⟩, a)

end Step

/-! ### The discipline -/

variable [DecidableEq E]

/-- **The discipline of the threads.** -/
def Disciplined (s : HandedOut E T P) : ThreadOp E T P → Prop
  | .makeIdle p t => ∀ q ∈ s.holder t, q = p
  | .endActiveRequest p t => (p, t) ∈ s.requests
  | _ => True

instance (s : HandedOut E T P) [DecidableEq P] : (op : ThreadOp E T P) → Decidable (Disciplined s op)
  | .makeIdle p t => inferInstanceAs (Decidable (∀ q ∈ s.holder t, q = p))
  | .endActiveRequest p t => inferInstanceAs (Decidable ((p, t) ∈ s.requests))
  | .find .. | .cacheTransport .. | .beginActiveRequest .. | .purge .. | .purgeIdleTransports .. =>
    isTrue trivial

instance (state : EntryState) : Decidable (Free state) := inferInstanceAs (Decidable (_ ∨ _))

/-- **Caching again**: only where the search meets the entry of the transport, and, while a thread
holds it, in a state in which it is neither idle nor purgable. -/
def CachesAgain (s : HandedOut E T P) : ThreadOp E T P → Prop
  | .cacheTransport prop t state connected _ =>
    ((∀ e ∈ s.cache.cacheMap, e.transport ≠ t) ∨
      ∃ e ∈ s.cache.cacheMap, e.transport = t ∧ e.extId.property = prop ∧
        ∀ j < e.extId.index, (s.cache.lookup ⟨prop, j⟩).isSome) ∧
      ((s.holder t).isSome → ¬Free (TransportCache.stateFor connected state))
  | _ => True

instance (s : HandedOut E T P) : (op : ThreadOp E T P) → Decidable (CachesAgain s op)
  | .cacheTransport .. => inferInstanceAs (Decidable (_ ∧ _))
  | .find .. | .makeIdle .. | .beginActiveRequest .. | .endActiveRequest .. | .purge ..
  | .purgeIdleTransports .. => isTrue trivial

/-- **The hand-out is exclusive** at a step. -/
def Exclusive (s s' : HandedOut E T P) : CacheAnswer T → Prop
  | .found r => r.result = .available → ∀ t ∈ r.transport, s.holder t = none
  | .transports ts =>
    (∀ t ∈ ts, s.holder t = none) ∧
      ∀ e ∈ s.cache.cacheMap, (s.holder e.transport).isSome ∨ 0 < s.cache.activeRequests e.transport →
        ∃ e' ∈ s'.cache.cacheMap, e'.transport = e.transport
  | _ => True

/-! ### What a step preserves -/

variable {cfg : CacheConfig} {s s' : HandedOut E T P}

/-- What holds in the runs: no entry of a transport that a thread holds is free, and the active
requests of a transport are those begun and not ended. -/
structure Inv (cfg : CacheConfig) (s : HandedOut E T P) : Prop where
  consistent : s.cache.Consistent cfg
  held : ∀ e ∈ s.cache.cacheMap, (s.holder e.transport).isSome → ¬Free e.intId.recycleState
  requests : ∀ t, s.cache.activeRequests t = s.requests.countP (·.2 = t)

omit [DecidableEq E] in
/-- An entry that is free has no holder. -/
theorem Inv.holder_eq_none (h : Inv cfg s) {e : CacheEntry E T} (he : e ∈ s.cache.cacheMap)
    (hfree : Free e.intId.recycleState) : s.holder e.transport = none :=
  Option.not_isSome_iff_eq_none.mp fun hsome => h.held e he hsome hfree

/-- **`find`.** -/
theorem Inv.find (h : Inv cfg s) {p : P} {prop : E} {c : TransportCache E T} {r : Found T}
    (hc : s.cache.find prop = some (c, r)) :
    Inv cfg ⟨c, s.holderAfter (.find p prop) (.found r), s.requests⟩ ∧
      (r.result = .available → ∀ t ∈ r.transport, s.holder t = none) := by
  rcases TransportCache.findLoop_cases (by nofun) hc with ⟨rfl, hr⟩ | ⟨e, he, hav, hr, ht, rfl⟩
  · refine ⟨?_, fun hav => absurd hav hr⟩
    have hholder : s.holderAfter (.find p prop) (.found r) = s.holder := by
      rw [holderAfter]
      split
      · rename_i hav _
        exact absurd hav hr
      · rfl
    rw [hholder]
    exact h
  · have hnone := h.holder_eq_none he (free_of_isAvailable hav)
    refine ⟨⟨?_, fun e' he' hsome => ?_, h.requests⟩, fun _ t hmem => ?_⟩
    · exact h.consistent.of_sameEntries
        (TransportCache.sameEntries_modify (CacheEntry.keepsFrame_recycleState _) e.id _)
    · obtain ⟨e₀, he₀, rfl⟩ := TransportCache.mem_modify.mp he'
      split_ifs with hid
      · rintro (hfree | hfree) <;> cases hfree
      · rw [if_neg hid] at hsome
        refine h.held e₀ he₀ ?_
        have hne : e₀.transport ≠ e.transport := fun heq =>
          hid (congrArg CacheEntry.id (h.consistent.eq_of_transport he₀ he heq))
        rw [holderAfter, hr, ht] at hsome
        dsimp only at hsome
        rwa [Function.update_of_ne hne] at hsome
    · rw [ht] at hmem
      cases hmem
      exact hnone

omit [DecidableEq E] in
/-- **`make_idle`.** -/
theorem Inv.makeIdle (h : Inv cfg s) {p : P} {t : T} {c : TransportCache E T} {r : ℤ}
    (hc : s.cache.makeIdle t = some (c, r)) (a : CacheAnswer T) :
    Inv cfg ⟨c, s.holderAfter (.makeIdle p t) a, s.requests⟩ := by
  have hholder : ∀ t', (s.holderAfter (.makeIdle p t) a t').isSome →
      t' ≠ t ∧ (s.holder t').isSome := by
    intro t' hsome
    rw [holderAfter] at hsome
    by_cases ht : t' = t
    · rw [ht, Function.update_self] at hsome
      cases hsome
    · exact ⟨ht, by rwa [Function.update_of_ne ht] at hsome⟩
  rw [TransportCache.makeIdle] at hc
  split at hc
  · cases hc
    exact ⟨h.consistent, fun e he hsome => h.held e he (hholder _ hsome).2, h.requests⟩
  · rename_i id hid
    obtain ⟨e, he, heq⟩ := Option.map_eq_some_iff.mp hc
    cases heq
    obtain ⟨hmem, hte⟩ := h.consistent.transport_eq hid he
    refine ⟨?_, fun e' he' hsome => ?_, h.requests⟩
    · exact h.consistent.of_sameEntries
        (TransportCache.sameEntries_modify (CacheEntry.keepsFrame_recycleState _) e.id _)
    · obtain ⟨e₀, he₀, rfl⟩ := TransportCache.mem_modify.mp he'
      split_ifs with hid₀
      · rw [if_pos hid₀] at hsome
        rw [h.consistent.eq_of_id he₀ hmem hid₀] at hsome
        exact absurd hte (hholder _ hsome).1
      · rw [if_neg hid₀] at hsome
        exact h.held e₀ he₀ (hholder _ hsome).2

/-- **`cache_transport`.** -/
theorem Inv.cacheTransport (h : Inv cfg s) {prop : E} {t : T} {state : EntryState}
    {connected memory : Bool} {c : TransportCache E T} {r : ℤ}
    (hagain : CachesAgain s (.cacheTransport prop t state connected memory))
    (hc : s.cache.cacheTransport cfg prop t state connected memory = some (c, r)) :
    Inv cfg ⟨c, s.holder, s.requests⟩ := by
  obtain ⟨hmeets, hstate⟩ := hagain
  rcases TransportCache.bindLoop_cases (by decide) hc with ⟨rfl, -⟩ | ⟨e, he, -, hte, rfl, -⟩ |
    ⟨k, -, -, hsize, hnone, hrow, rfl, -⟩
  · exact h
  · refine ⟨?_, fun e' he' hsome => ?_, h.requests⟩
    · exact h.consistent.of_sameEntries
        (TransportCache.sameEntries_modify (TransportCache.keepsFrame_rebound _) e.id _)
    · obtain ⟨e₀, he₀, rfl⟩ := TransportCache.mem_modify.mp he'
      split_ifs with hid
      · rw [if_pos hid, h.consistent.eq_of_id he₀ he hid] at hsome
        have ht : e.transport = t := hte
        have hsome : (s.holder e.transport).isSome := hsome
        rw [ht] at hsome
        exact hstate hsome
      · rw [if_neg hid] at hsome
        exact h.held e₀ he₀ hsome
  · have hnew : ∀ e ∈ s.cache.cacheMap, e.transport ≠ t := by
      rcases hmeets with hnew | ⟨e, he, hte, rfl, hfront⟩
      · exact hnew
      · -- the search would have met the entry of the transport
        rcases Nat.lt_trichotomy k e.extId.index with hlt | rfl | hlt
        · exact absurd hnone (Option.isSome_iff_ne_none.mp (hfront k hlt))
        · exact absurd rfl (TransportCache.lookup_eq_none.mp hnone e he)
        · obtain ⟨e', he', hne⟩ := hrow _ (Nat.zero_le _) hlt
          obtain ⟨hmem, hkey⟩ := TransportCache.lookup_eq_some he'
          rw [List.inj_on_of_nodup_map h.consistent.keys hmem he hkey] at hne
          exact absurd hte hne
    refine ⟨h.consistent.add (TransportCache.lookup_eq_none.mp hnone) hnew hsize,
      fun e' he' hsome => ?_, h.requests⟩
    rw [TransportCache.add, List.mem_append, List.mem_singleton] at he'
    rcases he' with he' | rfl
    · exact h.held e' he' hsome
    · exact hstate hsome

omit [DecidableEq E] in
/-- **`purge`.** -/
theorem Inv.purge (h : Inv cfg s) (ts : TransportState T) (order : ℕ → ℕ) (memory : Bool) :
    Inv cfg ⟨(s.cache.purge cfg ts order memory).1, s.holder, s.requests⟩ ∧
      ∀ t ∈ (s.cache.purge cfg ts order memory).2, s.holder t = none := by
  rw [TransportCache.purge]
  rcases hset : s.cache.fillSet cfg order memory with _ | sortedSet
  · exact ⟨h, List.forall_mem_nil _⟩
  · have hsub : sortedSet ⊆ s.cache.cacheMap := by
      rw [TransportCache.fillSet] at hset
      split_ifs at hset
      cases hset
      exact fun e he => List.take_subset _ _ (List.mem_mergeSort.mp he)
    dsimp only
    obtain ⟨hsame, hactive, hbusy, hchosen⟩ := TransportCache.purgeLoop_spec ts
      (((s.cache.intSize * cfg.percent).bmod (2 ^ 32)).tdiv 100) sortedSet 0 s.cache
    refine ⟨⟨h.consistent.of_sameEntries hsame, fun e he hsome => ?_, fun t => ?_⟩, fun t ht => ?_⟩
    · rcases hbusy e he with he | hstate
      · exact h.held e he hsome
      · rw [hstate]
        rintro (hfree | hfree) <;> cases hfree
    · exact (congrFun hactive t).trans (h.requests t)
    · obtain ⟨e, he, rfl, hpurgable⟩ := hchosen t ht
      exact h.holder_eq_none (hsub he) (free_of_isEntryPurgable hpurgable).1

omit [DecidableEq E] in
/-- **`purge_idle_transports`.** -/
theorem Inv.purgeIdleTransports (h : Inv cfg s) {ts : TransportState T} {c : TransportCache E T}
    {purged : List T} (hc : s.cache.purgeIdleTransports ts = some (c, purged)) :
    Inv cfg ⟨c, s.holder, s.requests⟩ ∧ (∀ t ∈ purged, s.holder t = none) ∧
      ∀ e ∈ s.cache.cacheMap, (s.holder e.transport).isSome ∨ 0 < s.cache.activeRequests e.transport →
        e ∈ c.cacheMap := by
  have hfree : ∀ e, s.cache.isEntryIdle ts e →
      Free e.intId.recycleState ∧ s.cache.activeRequests e.transport = 0 := fun e hidle => by
    rw [TransportCache.isEntryIdle, Bool.and_eq_true, Bool.and_eq_true] at hidle
    exact free_of_isEntryPurgable hidle.1.1
  obtain ⟨hcons, hactive, hsub, hkept, hpurged⟩ :=
    h.consistent.purgeIdleLoop (List.Subset.refl _) h.consistent.ids hc
  refine ⟨⟨hcons, fun e he => h.held e (hsub he), fun t => ?_⟩, fun t ht => ?_, fun e he hused => ?_⟩
  · exact (congrFun hactive t).trans (h.requests t)
  · obtain ⟨e, he, rfl, hidle⟩ := hpurged t ht
    exact h.holder_eq_none he (hfree e hidle).1
  · refine (hkept e he).resolve_right fun hidle => ?_
    obtain ⟨hstate, hzero⟩ := hfree e hidle
    rcases hused with hsome | hpos
    · exact h.held e he hsome hstate
    · exact hpos.ne' hzero

/-! ### Runs -/

variable [DecidableEq P]

omit [DecidableEq E] in
/-- **`begin_active_request`.** -/
theorem Inv.beginActiveRequest (h : Inv cfg s) (p : P) (t : T) :
    Inv cfg ⟨(s.cache.beginActiveRequest cfg t).1, s.holder,
      s.requestsAfter (.beginActiveRequest p t)
        (.begun (s.cache.beginActiveRequest cfg t).2.1 (s.cache.beginActiveRequest cfg t).2.2)⟩ := by
  rw [TransportCache.beginActiveRequest]
  split_ifs
  · exact h
  · exact h
  · refine ⟨h.consistent.of_sameEntries ⟨rfl, rfl, rfl⟩, h.held, fun t' => ?_⟩
    rw [requestsAfter, List.countP_cons, ← h.requests t']
    by_cases ht : t' = t
    · rw [ht, if_pos (decide_eq_true rfl)]
      exact Function.update_self _ _ _
    · rw [if_neg fun heq => ht (of_decide_eq_true heq).symm]
      exact Function.update_of_ne ht _ _

omit [DecidableEq E] in
/-- **`end_active_request`.** -/
theorem Inv.endActiveRequest (h : Inv cfg s) {p : P} {t : T} {c : TransportCache E T}
    (hp : (p, t) ∈ s.requests) (hc : s.cache.endActiveRequest t = some c) :
    Inv cfg ⟨c, s.holder, s.requests.erase (p, t)⟩ := by
  rw [TransportCache.endActiveRequest] at hc
  split_ifs at hc
  cases hc
  refine ⟨h.consistent.of_sameEntries ⟨rfl, rfl, rfl⟩, h.held, fun t' => ?_⟩
  have hcount := (List.perm_cons_erase hp).countP_eq (·.2 = t')
  rw [List.countP_cons, ← h.requests t'] at hcount
  by_cases ht : t' = t
  · rw [ht, if_pos (decide_eq_true rfl)] at hcount
    rw [ht, hcount]
    exact Function.update_self _ _ _
  · rw [if_neg fun heq => ht (of_decide_eq_true heq).symm, Nat.add_zero] at hcount
    exact (Function.update_of_ne ht _ _).trans hcount

omit [DecidableEq E] [DecidableEq P] in
theorem inv_empty : Inv cfg (empty : HandedOut E T P) where
  consistent := TransportCache.consistent_empty
  held := fun _ he => absurd he List.not_mem_nil
  requests := fun _ => rfl

/-- **One step** of disciplined threads that cache transports again only as they may. -/
theorem Inv.step (h : Inv cfg s) {op : ThreadOp E T P} {a : CacheAnswer T}
    (hdisciplined : Disciplined s op) (hagain : CachesAgain s op)
    (hc : step cfg s op = some (s', a)) : Inv cfg s' ∧ Exclusive s s' a := by
  obtain ⟨⟨c, a'⟩, hcache, heq⟩ := Option.map_eq_some_iff.mp hc
  cases heq
  cases op with
  | find p prop =>
    obtain ⟨⟨c₁, r⟩, hr, heq⟩ := Option.map_eq_some_iff.mp hcache
    cases heq
    exact h.find hr
  | makeIdle p t =>
    obtain ⟨⟨c₁, r⟩, hr, heq⟩ := Option.map_eq_some_iff.mp hcache
    cases heq
    exact ⟨h.makeIdle hr _, trivial⟩
  | cacheTransport prop t state connected memory =>
    obtain ⟨⟨c₁, r⟩, hr, heq⟩ := Option.map_eq_some_iff.mp hcache
    cases heq
    exact ⟨h.cacheTransport hagain hr, trivial⟩
  | beginActiveRequest p t =>
    cases hcache
    exact ⟨h.beginActiveRequest p t, trivial⟩
  | endActiveRequest p t =>
    obtain ⟨c₁, hr, heq⟩ := Option.map_eq_some_iff.mp hcache
    cases heq
    exact ⟨h.endActiveRequest hdisciplined hr, trivial⟩
  | purge ts order memory =>
    cases hcache
    obtain ⟨hinv, hchosen⟩ := h.purge ts order memory
    refine ⟨hinv, hchosen, fun e he _ => ?_⟩
    have hsame : TransportCache.SameEntries s.cache (s.cache.purge cfg ts order memory).1 :=
      TransportCache.sameEntries_purge ts order memory
    have hmem : e.transport ∈ s.cache.cacheMap.map CacheEntry.transport := List.mem_map_of_mem he
    rw [← show _ = s.cache.cacheMap.map CacheEntry.transport from
      hsame.map_eq fun f => f.2.2] at hmem
    exact List.mem_map.mp hmem
  | purgeIdleTransports ts =>
    obtain ⟨⟨c₁, purged⟩, hr, heq⟩ := Option.map_eq_some_iff.mp hcache
    cases heq
    obtain ⟨hinv, hchosen, hkept⟩ := h.purgeIdleTransports hr
    exact ⟨hinv, hchosen, fun e he hused => ⟨e, hkept e he hused, rfl⟩⟩

/-- **The hand-out is exclusive** at every step of every run of disciplined threads in which
transports are cached again only as they may, and a request that a thread has begun is active. -/
theorem exclusive_of_run (cfg : CacheConfig) {ops : List (ThreadOp E T P)}
    {answers : List (CacheAnswer T)}
    (hguard : Machine.Guarded (step cfg) (fun s op => Disciplined s op ∧ CachesAgain s op) empty ops)
    (hrun : Machine.run (step cfg) empty ops = some (s, answers)) :
    (∀ p t, (p, t) ∈ s.requests → 0 < s.cache.activeRequests t) ∧
      ∀ op s' a, Disciplined s op → CachesAgain s op → step cfg s op = some (s', a) →
        Exclusive s s' a := by
  have hinv : Inv cfg s := Machine.inv_run_of_guarded
    (fun _ _ _ _ h hop hc => (h.step hop.1 hop.2 hc).1) inv_empty hguard hrun
  refine ⟨fun p t hp => ?_, fun op s' a hdisciplined hagain hc =>
    (hinv.step hdisciplined hagain hc).2⟩
  rw [hinv.requests]
  exact List.countP_pos_iff.mpr ⟨(p, t), hp, decide_eq_true rfl⟩

section Example

/-- A transport is found by the thread 1, cached again as busy, used for a request, made idle, and
found by the thread 2. -/
def handOutTwice : List (ThreadOp ℕ ℕ ℕ) :=
  [.cacheTransport 0 7 .idleAndPurgable true true, .find 1 0, .cacheTransport 0 7 .busy true true,
    .beginActiveRequest 1 7, .endActiveRequest 1 7, .makeIdle 1 7, .find 2 0]

theorem exclusive_of_handOutTwice : ∃ s answers,
    Machine.run (step ⟨10, 10, 20, 1⟩) empty handOutTwice = some (s, answers) ∧
      (∀ p t, (p, t) ∈ s.requests → 0 < s.cache.activeRequests t) ∧
        ∀ op s' a, Disciplined s op → CachesAgain s op →
          step ⟨10, 10, 20, 1⟩ s op = some (s', a) → Exclusive s s' a := by
  have hguard : Machine.Guarded (step ⟨10, 10, 20, 1⟩)
      (fun s op => Disciplined s op ∧ CachesAgain s op) empty handOutTwice := by decide +kernel
  obtain ⟨s, answers, hrun⟩ : ∃ s answers,
      Machine.run (step ⟨10, 10, 20, 1⟩) empty handOutTwice = some (s, answers) := ⟨_, _, rfl⟩
  exact ⟨s, answers, hrun, exclusive_of_run _ hguard hrun⟩

/-- The thread 1 finds a transport, and it is cached again as idle. -/
def cacheWhileHeld : List (ThreadOp ℕ ℕ ℕ) :=
  [.cacheTransport 0 7 .idleAndPurgable true true, .find 1 0,
    .cacheTransport 0 7 .idleAndPurgable true true]

/-- **A transport that is held is found by another thread**, when it has been cached again. -/
theorem not_exclusive_when_cached_again : ∃ s answers,
    Machine.Guarded (step ⟨10, 10, 20, 1⟩) Disciplined empty cacheWhileHeld ∧
      Machine.run (step ⟨10, 10, 20, 1⟩) empty cacheWhileHeld = some (s, answers) ∧
      Disciplined s (.find 2 0) ∧ ∃ s' a, step ⟨10, 10, 20, 1⟩ s (.find 2 0) = some (s', a) ∧
        ¬Exclusive s s' a := by
  refine ⟨_, _, by decide +kernel, rfl, trivial, _, _, rfl, fun h => ?_⟩
  cases h rfl 7 rfl

end Example

end HandedOut

end AceTao
