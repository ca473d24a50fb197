import AceTao.Library.Machine
import AceTao.TransportCache.Entries

/-!
# The structure of the transport cache

The cache is *consistent* (`TransportCache.Consistent`) when its keys are pairwise distinct, no
transport is in two entries, the pointers of the transports are to their entries and null when they
have none, and there are no more entries than the maximum. Every operation but `cache_transport`
keeps it so.

`bind_i` looks for the transport itself only at the indices in front of the first that is free. When
an entry in front of that of the transport has been purged, or the transport is cached for another
endpoint, it adds a second entry for it. A call is *safe* (`TransportCache.Safe`) when the cache is
full, or one of the 2³² indices is the one at which the search has its end: the indices in front of
it are taken, and it is the index of the transport, or it is free and the transport is not cached.
The runs of safe calls have answers and keep the cache consistent
(`TransportCache.consistent_cache_of_run`).
-/

namespace AceTao

namespace TransportCache

variable {E T : Type} {c c' : TransportCache E T}

/-! ### Adding and removing an entry -/

/-- **The structure of the cache.** -/
structure Consistent (cfg : CacheConfig) (c : TransportCache E T) : Prop where
  keys : (c.cacheMap.map CacheEntry.extId).Nodup
  transports : (c.cacheMap.map CacheEntry.transport).Nodup
  ids : (c.cacheMap.map CacheEntry.id).Nodup
  fresh : ∀ e ∈ c.cacheMap, e.id < c.nextEntry
  cacheMapEntry : ∀ e ∈ c.cacheMap, c.cacheMapEntry e.transport = some e.id
  notCached : ∀ t, (∀ e ∈ c.cacheMap, e.transport ≠ t) → c.cacheMapEntry t = none
  size : c.currentSize ≤ cfg.cacheMaximum

variable {cfg : CacheConfig}

theorem consistent_empty : Consistent cfg (empty : TransportCache E T) where
  keys := List.nodup_nil
  transports := List.nodup_nil
  ids := List.nodup_nil
  fresh := nofun
  cacheMapEntry := nofun
  notCached := fun _ _ => rfl
  size := Nat.zero_le _

/-- What the structure says of the frames. -/
theorem Consistent.of_sameEntries (h : Consistent cfg c) (hsame : SameEntries c c') :
    Consistent cfg c' := by
  have hlen : c'.currentSize = c.currentSize := by
    have := congrArg List.length hsame.frames
    rwa [frames, frames, List.length_map, List.length_map] at this
  refine ⟨?_, ?_, ?_, fun e he => ?_, fun e he => ?_, fun t ht => ?_, hlen ▸ h.size⟩
  · exact (hsame.map_eq fun f => f.2.1) ▸ h.keys
  · exact (hsame.map_eq fun f => f.2.2) ▸ h.transports
  · exact (hsame.map_eq fun f => f.1) ▸ h.ids
  · obtain ⟨e₀, he₀, hf⟩ := hsame.mem he
    rw [hsame.nextEntry, ← show e₀.id = e.id from congrArg Prod.fst hf]
    exact h.fresh e₀ he₀
  · obtain ⟨e₀, he₀, hf⟩ := hsame.mem he
    rw [hsame.cacheMapEntry, ← show e₀.id = e.id from congrArg Prod.fst hf,
      ← show e₀.transport = e.transport from congrArg (fun f => f.2.2) hf]
    exact h.cacheMapEntry e₀ he₀
  · rw [hsame.cacheMapEntry]
    refine h.notCached t fun e₀ he₀ heq => ?_
    have hmem : e₀.transport ∈ c'.cacheMap.map CacheEntry.transport :=
      (hsame.map_eq fun f => f.2.2) ▸ List.mem_map_of_mem he₀
    obtain ⟨e, he, hte⟩ := List.mem_map.mp hmem
    exact ht e he (hte.trans heq)

variable [DecidableEq T]

/-- **A new entry** for a transport that has none. -/
theorem Consistent.add (h : Consistent cfg c) {key : CacheExtId E} {intId : CacheIntId T}
    (hkey : ∀ e ∈ c.cacheMap, e.extId ≠ key)
    (hnew : ∀ e ∈ c.cacheMap, e.transport ≠ intId.transport)
    (hsize : c.currentSize < cfg.cacheMaximum) : Consistent cfg (c.add key intId) := by
  have hmem : ∀ e, e ∈ (c.add key intId).cacheMap ↔
      e ∈ c.cacheMap ∨ e = ⟨c.nextEntry, key, intId⟩ := fun e => by
    rw [TransportCache.add, List.mem_append, List.mem_singleton]
  have hnodup : ∀ {α : Type} (g : CacheEntry E T → α), (c.cacheMap.map g).Nodup →
      (∀ e ∈ c.cacheMap, g e ≠ g ⟨c.nextEntry, key, intId⟩) →
      ((c.add key intId).cacheMap.map g).Nodup := by
    intro α g hg hne
    rw [TransportCache.add, List.map_append, List.map_singleton, ← List.concat_eq_append,
      List.nodup_concat]
    refine ⟨fun hin => ?_, hg⟩
    obtain ⟨e, he, heq⟩ := List.mem_map.mp hin
    exact hne e he heq
  refine ⟨hnodup _ h.keys hkey, hnodup _ h.transports hnew,
    hnodup _ h.ids fun e he => (h.fresh e he).ne, fun e he => ?_, fun e he => ?_, fun t ht => ?_, ?_⟩
  · rcases (hmem e).mp he with he | rfl
    · exact Nat.lt_succ_of_lt (h.fresh e he)
    · exact Nat.lt_succ_self _
  · rcases (hmem e).mp he with he | rfl
    · exact (Function.update_of_ne (hnew e he) _ _).trans (h.cacheMapEntry e he)
    · exact Function.update_self _ _ _
  · refine (Function.update_of_ne (fun heq => ?_) _ _).trans
      (h.notCached t fun e he => ht e ((hmem e).mpr (.inl he)))
    exact ht _ ((hmem _).mpr (.inr rfl)) heq.symm
  · rw [currentSize, TransportCache.add, List.length_append, List.length_singleton]
    exact hsize

/-- Removing the entry of a transport, with its pointer. -/
def remove (e : CacheEntry E T) (c : TransportCache E T) : TransportCache E T :=
  { c.unbind e.id with cacheMapEntry := Function.update c.cacheMapEntry e.transport none }

theorem mem_remove {e e' : CacheEntry E T} :
    e' ∈ (c.remove e).cacheMap ↔ e' ∈ c.cacheMap ∧ e'.id ≠ e.id := by
  rw [remove, unbind, List.mem_filter, decide_eq_true_eq]

omit [DecidableEq T] in
theorem Consistent.eq_of_id (h : Consistent cfg c) {e e' : CacheEntry E T} (he : e ∈ c.cacheMap)
    (he' : e' ∈ c.cacheMap) (heq : e.id = e'.id) : e = e' :=
  List.inj_on_of_nodup_map h.ids he he' heq

omit [DecidableEq T] in
theorem Consistent.eq_of_transport (h : Consistent cfg c) {e e' : CacheEntry E T}
    (he : e ∈ c.cacheMap) (he' : e' ∈ c.cacheMap) (heq : e.transport = e'.transport) : e = e' :=
  List.inj_on_of_nodup_map h.transports he he' heq

/-- **An entry is removed.** -/
theorem Consistent.remove (h : Consistent cfg c) {e : CacheEntry E T} (he : e ∈ c.cacheMap) :
    Consistent cfg (c.remove e) := by
  have hsub : (c.remove e).cacheMap.Sublist c.cacheMap := List.filter_sublist
  have hne : ∀ e' ∈ (c.remove e).cacheMap, e'.transport ≠ e.transport := by
    intro e' he' heq
    obtain ⟨hmem, hid⟩ := mem_remove.mp he'
    exact hid (congrArg CacheEntry.id (h.eq_of_transport hmem he heq))
  refine ⟨(hsub.map _).nodup h.keys, (hsub.map _).nodup h.transports, (hsub.map _).nodup h.ids,
    fun e' he' => h.fresh e' (hsub.mem he'), fun e' he' => ?_, fun t ht => ?_,
    hsub.length_le.trans h.size⟩
  · exact (Function.update_of_ne (hne e' he') _ _).trans (h.cacheMapEntry e' (hsub.mem he'))
  · by_cases hte : t = e.transport
    · exact hte ▸ Function.update_self _ _ _
    · refine (Function.update_of_ne hte _ _).trans (h.notCached t fun e' he' heq => ?_)
      refine ht e' (mem_remove.mpr ⟨he', fun hid => ?_⟩) heq
      exact hte (heq.symm.trans (congrArg CacheEntry.transport (h.eq_of_id he' he hid)))

/-! ### The pointers -/

omit [DecidableEq T] in
/-- **A pointer** is to the entry of the transport. -/
theorem Consistent.transport_eq (h : Consistent cfg c) {t : T} {id : ℕ}
    (hid : c.cacheMapEntry t = some id) {e : CacheEntry E T} (he : c.entryAt id = some e) :
    e ∈ c.cacheMap ∧ e.transport = t := by
  obtain ⟨hmem, rfl⟩ := entryAt_eq_some he
  refine ⟨hmem, ?_⟩
  by_contra hne
  have hcached : ¬∀ e ∈ c.cacheMap, e.transport ≠ t := fun hnone => by
    rw [h.notCached t hnone] at hid
    cases hid
  push Not at hcached
  obtain ⟨e', he', rfl⟩ := hcached
  rw [h.cacheMapEntry e' he'] at hid
  exact hne (congrArg CacheEntry.transport (h.eq_of_id hmem he' (Option.some.inj hid).symm))

/-- **Purging the entry of a transport** removes it. -/
theorem Consistent.purgeEntryI (h : Consistent cfg c) {t : T} {id : ℕ}
    (hid : c.cacheMapEntry t = some id) (hc : c.purgeEntryI t id = some c') :
    ∃ e ∈ c.cacheMap, e.transport = t ∧ c' = c.remove e := by
  obtain ⟨e, he, rfl⟩ := Option.map_eq_some_iff.mp hc
  obtain ⟨hmem, rfl⟩ := h.transport_eq hid he
  exact ⟨e, hmem, rfl, rfl⟩

/-- **What `purge_idle_transports` does**: it removes idle entries, and answers their
transports. -/
theorem Consistent.purgeIdleLoop (h : Consistent cfg c) {s : TransportState T}
    {es : List (CacheEntry E T)} {purged : List T} (hes : es ⊆ c.cacheMap)
    (hids : (es.map CacheEntry.id).Nodup) (hc : purgeIdleLoop s es c = some (c', purged)) :
    Consistent cfg c' ∧ c'.activeRequests = c.activeRequests ∧ c'.cacheMap ⊆ c.cacheMap ∧
      (∀ e ∈ c.cacheMap, e ∈ c'.cacheMap ∨ c.isEntryIdle s e) ∧
      ∀ t ∈ purged, ∃ e ∈ c.cacheMap, e.transport = t ∧ c.isEntryIdle s e := by
  induction es generalizing c purged with
  | nil =>
    cases hc
    exact ⟨h, rfl, List.Subset.refl _, fun e he => .inl he, nofun⟩
  | cons e es ih =>
    obtain ⟨he, htail⟩ := List.cons_subset.mp hes
    obtain ⟨hnew, hnodup⟩ := List.nodup_cons.mp hids
    rw [TransportCache.purgeIdleLoop] at hc
    split_ifs at hc with hidle
    · obtain ⟨c₁, hc₁, hc⟩ := Option.bind_eq_some_iff.mp hc
      obtain ⟨⟨c₂, purged'⟩, hc₂, heq⟩ := Option.map_eq_some_iff.mp hc
      cases heq
      obtain ⟨e', he', hte, rfl⟩ := h.purgeEntryI (h.cacheMapEntry e he) hc₁
      obtain rfl := h.eq_of_transport he' he hte
      have hsub : es ⊆ (c.remove e').cacheMap := fun e he => mem_remove.mpr
        ⟨htail he, fun hid => hnew (List.mem_map.mpr ⟨e, he, hid⟩)⟩
      obtain ⟨hcons, hactive, hmem, hkept, hpurged⟩ := ih (h.remove he') hsub hnodup hc₂
      refine ⟨hcons, hactive, fun e he => (mem_remove.mp (hmem he)).1, fun e he => ?_,
        fun t ht => ?_⟩
      · by_cases hid : e.id = e'.id
        · rw [h.eq_of_id he he' hid]
          exact .inr hidle
        · exact hkept e (mem_remove.mpr ⟨he, hid⟩)
      · rcases List.mem_cons.mp ht with rfl | ht
        · exact ⟨e', he', rfl, hidle⟩
        · obtain ⟨e, he, hte, hi⟩ := hpurged t ht
          exact ⟨e, (mem_remove.mp he).1, hte, hi⟩
    · exact ih h htail hnodup hc

theorem Consistent.close (h : Consistent cfg c) : Consistent cfg c.close := by
  refine ⟨List.nodup_nil, List.nodup_nil, List.nodup_nil, nofun, nofun, fun t _ => ?_,
    Nat.zero_le _⟩
  rw [TransportCache.close]
  dsimp only
  split
  · rfl
  · rename_i hnone
    refine h.notCached t fun e he heq => hnone (List.any_eq_true.mpr ⟨e, he, ?_⟩)
    exact decide_eq_true heq

/-! ### Caching a transport -/

variable [DecidableEq E]

/-- **The index at which the search for `prop` has its end**: those in front are taken, and it is
the index of the transport, or it is free and the transport is not cached. -/
def EndsAt (c : TransportCache E T) (prop : E) (transport : T) (memory : Bool) (i : ℕ) : Prop :=
  i < 2 ^ 32 ∧ (∀ j < i, (c.lookup ⟨prop, j⟩).isSome) ∧
    (∀ e ∈ c.lookup ⟨prop, i⟩, e.transport = transport) ∧
    ((c.lookup ⟨prop, i⟩).isNone → memory → ∀ e ∈ c.cacheMap, e.transport ≠ transport)

instance (c : TransportCache E T) (prop : E) (t : T) (memory : Bool) (i : ℕ) :
    Decidable (c.EndsAt prop t memory i) := by
  rw [EndsAt]
  infer_instance

/-- **A safe call.** The search has its end at one of as many indices as it has turns. -/
def Safe (cfg : CacheConfig) (c : TransportCache E T) : CacheOp E T → Prop
  | .cacheTransport prop t _ _ memory =>
    cfg.cacheMaximum ≤ c.currentSize ∨ ∃ i < c.turns, c.EndsAt prop t memory i
  | _ => True

instance (cfg : CacheConfig) (c : TransportCache E T) : (op : CacheOp E T) →
    Decidable (c.Safe cfg op)
  | .cacheTransport .. => inferInstanceAs (Decidable (_ ∨ _))
  | .findTransport .. | .makeIdle .. | .markConnected .. | .setEntryState .. | .purgeEntry ..
  | .purgeEntryWhenPurgable .. | .purge .. | .purgeIdleTransports .. | .close
  | .beginActiveRequest .. | .endActiveRequest .. => isTrue trivial

/-- **A safe call of `cache_transport` returns.** -/
theorem exists_cacheTransport {prop : E} {t : T} {state : EntryState} {connected memory : Bool}
    (h : Safe cfg c (.cacheTransport prop t state connected memory)) :
    ∃ c' r, c.cacheTransport cfg prop t state connected memory = some (c', r) := by
  rcases h with hfull | ⟨i, -, hi, hfront, hend, -⟩
  · refine ⟨c, -1, ?_⟩
    rw [cacheTransport, turns, bindLoop, if_pos hfull]
  · have htaken : ∀ j, 0 ≤ j → j < 0 + i → c.lookup ⟨prop, j⟩ ≠ none := fun j _ hj =>
      Option.isSome_iff_ne_none.mp (hfront j (by omega))
    obtain ⟨es, hrow, rfl⟩ := exists_row 0 htaken
    rw [← Nat.zero_add es.length] at hi hend
    exact bindLoop_isSome hrow hi (Nat.lt_succ_of_le hrow.length_le) hend

/-- A call at whose end the transport has an entry or is not cached. -/
theorem Consistent.cacheTransport (h : Consistent cfg c) {prop : E} {t : T} {state : EntryState}
    {connected memory : Bool} {r : ℤ}
    (hsafe : Safe cfg c (.cacheTransport prop t state connected memory))
    (hc : c.cacheTransport cfg prop t state connected memory = some (c', r)) :
    Consistent cfg c' := by
  rcases bindLoop_cases (by decide) hc with ⟨rfl, -⟩ | ⟨e, -, -, -, rfl, -⟩ |
    ⟨k, -, hmemory, hsize, hnone, hrow, rfl, -⟩
  · exact h
  · exact h.of_sameEntries (sameEntries_modify (keepsFrame_rebound _) e.id c)
  · refine h.add (lookup_eq_none.mp hnone) ?_ hsize
    rcases hsafe with hfull | ⟨i, -, hi, hfront, hend, hfree⟩
    · exact absurd hsize (Nat.not_lt_of_le hfull)
    · rcases Nat.lt_trichotomy k i with hki | rfl | hik
      · exact absurd hnone (Option.isSome_iff_ne_none.mp (hfront k hki))
      · exact hfree (Option.isNone_iff_eq_none.mpr hnone) hmemory
      · obtain ⟨e, he, hne⟩ := hrow i (Nat.zero_le i) hik
        exact absurd (hend e he) hne

/-! ### Runs -/

/-- **One operation.** -/
theorem Consistent.step (h : Consistent cfg c) {op : CacheOp E T} {a : CacheAnswer T}
    (hsafe : Safe cfg c op) (hc : step cfg c op = some (c', a)) : Consistent cfg c' := by
  rcases step_cases hc with hsame | ⟨t, id, hid, hp⟩ | ⟨s, purged, hp⟩ | rfl |
    ⟨prop, t, state, connected, memory, r, rfl, hr⟩
  · exact h.of_sameEntries hsame
  · obtain ⟨e, he, -, rfl⟩ := h.purgeEntryI hid hp
    exact h.remove he
  · exact (h.purgeIdleLoop (List.Subset.refl _) h.ids hp).1
  · exact h.close
  · exact h.cacheTransport hsafe hr

section Example

/-- A cache of ten transports at most. -/
def tenTransports : CacheConfig := ⟨10, 10, 20, 0⟩

/-- Two transports of an endpoint are cached. The second is found, cached again, made idle and
purged. -/
def cacheAndPurge : List (CacheOp ℕ ℕ) :=
  [.cacheTransport 0 1 .busy true true, .cacheTransport 0 2 .idleAndPurgable true true,
    .findTransport (some 0) 0, .cacheTransport 0 2 .busy true true, .makeIdle 2, .purgeEntry 2,
    .cacheTransport 0 3 .connecting false true, .markConnected 3 true, .close]

/-- The first of two transports of an endpoint is purged, and the second cached again. -/
def cacheBehindPurged : List (CacheOp ℕ ℕ) :=
  [.cacheTransport 0 1 .idleAndPurgable true true, .cacheTransport 0 2 .idleAndPurgable true true,
    .purgeEntry 1, .cacheTransport 0 2 .idleAndPurgable true true]

end Example

end TransportCache

end AceTao
