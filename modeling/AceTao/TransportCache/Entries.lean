import AceTao.TransportCache.Basic
import Mathlib.Data.List.Nodup
import Mathlib.Data.List.Perm.Subperm
import Mathlib.Order.Nat

/-!
# What the operations of the transport cache do to its entries

Two caches have the same entries (`TransportCache.SameEntries`) when they differ in the states of
them only. The searches go along a row of taken indices (`TransportCache.Row`), which is no longer
than the cache, so that they have turns enough.

`TransportCache.step_cases` says all that an operation can do to the entries. Of the searches and
of `purge` it is said in more detail by `bindLoop_cases`, `findLoop_cases` and `purgeLoop_spec`.
-/

namespace AceTao

namespace CacheEntry

variable {E T : Type}

/-- What of an entry never changes. -/
def frame (e : CacheEntry E T) : ℕ × CacheExtId E × T := (e.id, e.extId, e.transport)

/-- A change of an entry that keeps its frame. -/
def KeepsFrame (f : CacheEntry E T → CacheEntry E T) : Prop := ∀ e, (f e).frame = e.frame

theorem keepsFrame_recycleState (state : EntryState) :
    KeepsFrame (recycleState state : CacheEntry E T → CacheEntry E T) := fun _ => rfl

theorem keepsFrame_setConnected (connected : Bool) :
    KeepsFrame (setConnected connected : CacheEntry E T → CacheEntry E T) := fun _ => rfl

end CacheEntry

namespace TransportCache

variable {E T : Type} {c c' : TransportCache E T}

/-! ### What the operations do to the entries -/

/-- The entries, up to their states. -/
def frames (c : TransportCache E T) : List (ℕ × CacheExtId E × T) := c.cacheMap.map CacheEntry.frame

/-- Two caches with the same entries, up to their states. -/
structure SameEntries (c c' : TransportCache E T) : Prop where
  frames : c'.frames = c.frames
  nextEntry : c'.nextEntry = c.nextEntry
  cacheMapEntry : c'.cacheMapEntry = c.cacheMapEntry

theorem SameEntries.refl (c : TransportCache E T) : SameEntries c c := ⟨rfl, rfl, rfl⟩

theorem SameEntries.trans {c'' : TransportCache E T} (h : SameEntries c c')
    (h' : SameEntries c' c'') : SameEntries c c'' :=
  ⟨h'.frames.trans h.frames, h'.nextEntry.trans h.nextEntry,
    h'.cacheMapEntry.trans h.cacheMapEntry⟩

theorem sameEntries_modify {f : CacheEntry E T → CacheEntry E T} (hf : CacheEntry.KeepsFrame f)
    (id : ℕ) (c : TransportCache E T) : SameEntries c (c.modify id f) := by
  refine ⟨?_, rfl, rfl⟩
  rw [frames, frames, modify, List.map_map]
  refine List.map_congr_left fun e _ => ?_
  rw [Function.comp_apply]
  split
  · exact hf e
  · rfl

theorem SameEntries.map_eq {α : Type} (h : SameEntries c c') (g : ℕ × CacheExtId E × T → α) :
    c'.cacheMap.map (fun e => g e.frame) = c.cacheMap.map fun e => g e.frame := by
  have hmap := congrArg (List.map g) h.frames
  rwa [TransportCache.frames, TransportCache.frames, List.map_map, List.map_map] at hmap

/-- An entry of a cache with the same entries as another. -/
theorem SameEntries.mem (h : SameEntries c c') {e : CacheEntry E T} (he : e ∈ c'.cacheMap) :
    ∃ e₀ ∈ c.cacheMap, e₀.frame = e.frame := by
  have hmem : e.frame ∈ c'.frames := List.mem_map_of_mem he
  rw [h.frames] at hmem
  exact List.mem_map.mp hmem

theorem entryAt_eq_some {id : ℕ} {e : CacheEntry E T} (h : c.entryAt id = some e) :
    e ∈ c.cacheMap ∧ e.id = id := by
  rw [entryAt] at h
  exact ⟨List.mem_of_find?_eq_some h, of_decide_eq_true (List.find?_some h :)⟩

section Lookup

variable [DecidableEq E]

theorem lookup_eq_some {key : CacheExtId E} {e : CacheEntry E T} (h : c.lookup key = some e) :
    e ∈ c.cacheMap ∧ e.extId = key := by
  rw [lookup] at h
  exact ⟨List.mem_of_find?_eq_some h, of_decide_eq_true (List.find?_some h :)⟩

theorem lookup_eq_none {key : CacheExtId E} :
    c.lookup key = none ↔ ∀ e ∈ c.cacheMap, e.extId ≠ key := by
  rw [lookup, List.find?_eq_none]
  exact forall₂_congr fun e _ => by rw [decide_eq_true_eq]

/-- **A row of taken indices** from `k` on, with the entries at them. -/
def Row (c : TransportCache E T) (prop : E) : ℕ → List (CacheEntry E T) → Prop
  | _, [] => True
  | k, e :: es => c.lookup ⟨prop, k⟩ = some e ∧ c.Row prop (k + 1) es

theorem Row.mem {prop : E} {k : ℕ} {es : List (CacheEntry E T)} (h : c.Row prop k es)
    {e : CacheEntry E T} (he : e ∈ es) : e ∈ c.cacheMap ∧ e.extId.property = prop := by
  induction es generalizing k with
  | nil => exact absurd he List.not_mem_nil
  | cons e' es ih =>
    rcases List.mem_cons.mp he with rfl | he
    · obtain ⟨hmem, hkey⟩ := lookup_eq_some h.1
      exact ⟨hmem, by rw [hkey]⟩
    · exact ih h.2 he

/-- The entries of a row, by their indices. -/
theorem Row.exists_index {prop : E} {k : ℕ} {es : List (CacheEntry E T)} (h : c.Row prop k es)
    {e : CacheEntry E T} (he : e ∈ es) : ∃ j < es.length, c.lookup ⟨prop, k + j⟩ = some e := by
  induction es generalizing k with
  | nil => exact absurd he List.not_mem_nil
  | cons e' es ih =>
    rcases List.mem_cons.mp he with rfl | he
    · exact ⟨0, Nat.succ_pos _, h.1⟩
    · obtain ⟨j, hj, hje⟩ := ih h.2 he
      exact ⟨j + 1, Nat.succ_lt_succ hj, by rwa [Nat.add_comm j, ← Nat.add_assoc]⟩

theorem Row.lookup {prop : E} {k : ℕ} {es : List (CacheEntry E T)} (h : c.Row prop k es) {j : ℕ}
    (hj : j < es.length) : ∃ e ∈ es, c.lookup ⟨prop, k + j⟩ = some e := by
  induction es generalizing k j with
  | nil => exact absurd hj (Nat.not_lt_zero j)
  | cons e es ih =>
    rcases j with _ | j
    · exact ⟨e, List.mem_cons_self, h.1⟩
    · obtain ⟨e', he', hlookup⟩ := ih h.2 (Nat.lt_of_succ_lt_succ hj)
      exact ⟨e', List.mem_cons_of_mem e he', by rwa [Nat.add_comm j, ← Nat.add_assoc]⟩

/-- The keys of the entries of a row. -/
theorem Row.keys {prop : E} {k : ℕ} {es : List (CacheEntry E T)} (h : c.Row prop k es) :
    es.map CacheEntry.extId = (List.range' k es.length).map (CacheExtId.mk prop) := by
  induction es generalizing k with
  | nil => rfl
  | cons e es ih =>
    rw [List.map_cons, (lookup_eq_some h.1).2, ih h.2, List.length_cons, List.range'_succ,
      List.map_cons]

/-- **A row is no longer than the cache**, so that the searches have turns enough. -/
theorem Row.length_le {prop : E} {k : ℕ} {es : List (CacheEntry E T)} (h : c.Row prop k es) :
    es.length ≤ c.currentSize := by
  have hnodup : (es.map CacheEntry.extId).Nodup := by
    rw [h.keys]
    exact List.Nodup.map (fun i j hij => congrArg CacheExtId.index hij) List.nodup_range'
  have hsub : es ⊆ c.cacheMap := fun e he => (h.mem he).1
  exact ((List.Nodup.of_map _ hnodup).subperm hsub).length_le

/-- The indices below a bound are a row when they are taken. -/
theorem exists_row {prop : E} {n : ℕ} (k : ℕ)
    (h : ∀ j, k ≤ j → j < k + n → c.lookup ⟨prop, j⟩ ≠ none) :
    ∃ es, c.Row prop k es ∧ es.length = n := by
  induction n generalizing k with
  | zero => exact ⟨[], trivial, rfl⟩
  | succ n ih =>
    obtain ⟨e, he⟩ := Option.ne_none_iff_exists'.mp (h k le_rfl (by omega))
    obtain ⟨es, hes, hlen⟩ := ih (k + 1) fun j hj hlt => h j (by omega) (by omega)
    exact ⟨e :: es, ⟨he, hes⟩, by rw [List.length_cons, hlen]⟩

omit [DecidableEq E] in
theorem incrIndex_eq {prop : E} {k : ℕ} (h : k + 1 < 2 ^ 32) :
    CacheExtId.incrIndex ⟨prop, k⟩ = ⟨prop, k + 1⟩ := by
  rw [CacheExtId.incrIndex, Nat.mod_eq_of_lt h]

end Lookup

/-! ### The search for a free index -/

section Bind

variable [DecidableEq E] [DecidableEq T] {maximum : ℕ} {intId : CacheIntId T} {memory : Bool}

/-- The new state of an entry that is cached again. -/
def rebound (intId : CacheIntId T) (e : CacheEntry E T) : CacheEntry E T :=
  (e.recycleState intId.recycleState).setConnected intId.isConnected

omit [DecidableEq E] [DecidableEq T] in
theorem keepsFrame_rebound (intId : CacheIntId T) :
    CacheEntry.KeepsFrame (rebound intId : CacheEntry E T → CacheEntry E T) := fun _ => rfl

/-- **What `bind_i` can do**: nothing, when the cache is full or there is no memory; it finds the
transport, and sets its state; or it passes other transports, and adds an entry at the first index
that is free. -/
theorem bindLoop_cases {n k : ℕ} {prop : E} {r : ℤ} (hk : k < 2 ^ 32)
    (h : bindLoop maximum intId memory n ⟨prop, k⟩ c = some (c', r)) :
    (c' = c ∧ r = -1) ∨
      (∃ e ∈ c.cacheMap, e.extId.property = prop ∧ e.transport = intId.transport ∧
        c' = c.modify e.id (rebound intId) ∧ r = 0) ∨
      ∃ i < 2 ^ 32, memory = true ∧ c.currentSize < maximum ∧ c.lookup ⟨prop, i⟩ = none ∧
        (∀ j, k ≤ j → j < i → ∃ e, c.lookup ⟨prop, j⟩ = some e ∧ e.transport ≠ intId.transport) ∧
        c' = c.add ⟨prop, i⟩ intId ∧ r = 0 := by
  induction n generalizing k with
  | zero => cases h
  | succ n ih =>
    rw [bindLoop] at h
    by_cases hfull : maximum ≤ c.currentSize
    · rw [if_pos hfull] at h
      cases h
      exact .inl ⟨rfl, rfl⟩
    rw [if_neg hfull] at h
    rcases hlookup : c.lookup ⟨prop, k⟩ with _ | e
    · rw [hlookup] at h
      dsimp only at h
      by_cases hmemory : memory
      · rw [if_pos hmemory] at h
        cases h
        exact .inr (.inr ⟨k, hk, hmemory, Nat.lt_of_not_le hfull, hlookup,
          fun j hj hlt => absurd hlt (by omega), rfl, rfl⟩)
      · rw [if_neg hmemory] at h
        cases h
        exact .inl ⟨rfl, rfl⟩
    · rw [hlookup] at h
      dsimp only at h
      by_cases ht : e.transport = intId.transport
      · rw [if_pos ht] at h
        cases h
        obtain ⟨he, hkey⟩ := lookup_eq_some hlookup
        exact .inr (.inl ⟨e, he, by rw [hkey], ht, rfl, rfl⟩)
      · rw [if_neg ht, CacheExtId.incrIndex] at h
        rcases ih (Nat.mod_lt _ (by decide)) h with hr | hr | ⟨i, hi, hmem, hs, hnone, hrow, hr⟩
        · exact .inl hr
        · exact .inr (.inl hr)
        · refine .inr (.inr ⟨i, hi, hmem, hs, hnone, fun j hj hlt => ?_, hr⟩)
          rcases hj.eq_or_lt with rfl | hj
          · exact ⟨e, hlookup, ht⟩
          · -- the index behind `k` is not 0, as it is no larger than `i`
            have hsucc : k + 1 < 2 ^ 32 := by omega
            exact hrow j ((Nat.mod_eq_of_lt hsucc).le.trans hj) hlt

/-- **The search has its end** where the indices in front are taken, and the index is free or that of
the transport. -/
theorem bindLoop_isSome {n k : ℕ} {prop : E} {es : List (CacheEntry E T)} (hrow : c.Row prop k es)
    (hlt : k + es.length < 2 ^ 32) (hn : es.length < n)
    (hend : ∀ e, c.lookup ⟨prop, k + es.length⟩ = some e → e.transport = intId.transport) :
    ∃ c' r, bindLoop maximum intId memory n ⟨prop, k⟩ c = some (c', r) := by
  induction es generalizing n k with
  | nil =>
    obtain ⟨n, rfl⟩ := Nat.exists_eq_add_of_lt hn
    rw [List.length_nil, Nat.zero_add, bindLoop]
    split
    · exact ⟨_, _, rfl⟩
    · split
      · split <;> exact ⟨_, _, rfl⟩
      · rename_i e he
        rw [if_pos (hend e he)]
        exact ⟨_, _, rfl⟩
  | cons e es ih =>
    rw [List.length_cons] at hlt hn hend
    obtain ⟨n, rfl⟩ : ∃ m, n = m + 1 := ⟨n - 1, by omega⟩
    rw [bindLoop, hrow.1]
    split
    · exact ⟨_, _, rfl⟩
    · dsimp only
      split
      · exact ⟨_, _, rfl⟩
      · rw [incrIndex_eq (by omega)]
        refine ih hrow.2 (by omega) (by omega) fun e' he' => hend e' ?_
        rwa [← Nat.add_assoc, Nat.add_right_comm]

end Bind

/-! ### The search for an available transport -/

section Find

variable [DecidableEq E]

omit [DecidableEq E] in
theorem next_ne_available {r : Found T} (hr : r.result ≠ .available) (e : CacheEntry E T) :
    (r.next e).result ≠ .available := by
  rw [Found.next]
  split_ifs
  · nofun
  · exact hr
  · nofun
  · exact hr

/-- **What `find_i` can do**: it makes an available entry busy and answers its transport, or it
changes nothing and has found none that is available. -/
theorem findLoop_cases {n : ℕ} {key : CacheExtId E} {r r' : Found T} (hr : r.result ≠ .available)
    (h : findLoop n key r c = some (c', r')) :
    (c' = c ∧ r'.result ≠ .available) ∨
      ∃ e ∈ c.cacheMap, e.isAvailable ∧ r'.result = .available ∧ r'.transport = some e.transport ∧
        c' = c.modify e.id (CacheEntry.recycleState .busy) := by
  induction n generalizing key r with
  | zero => cases h
  | succ n ih =>
    rw [findLoop] at h
    rcases hlookup : c.lookup key with _ | e
    · rw [hlookup] at h
      cases h
      exact .inl ⟨rfl, hr⟩
    · rw [hlookup] at h
      dsimp only at h
      by_cases ha : e.isAvailable
      · rw [if_pos ha] at h
        cases h
        exact .inr ⟨e, (lookup_eq_some hlookup).1, ha, rfl, rfl, rfl⟩
      · rw [if_neg ha] at h
        exact ih (next_ne_available hr e) h

end Find

/-! ### Purging -/

/-- A transport's entries in states that can be purged. -/
theorem isEntryPurgable_congr (s : TransportState T) (h : c'.activeRequests = c.activeRequests)
    (e : CacheEntry E T) : c'.isEntryPurgable s e = c.isEntryPurgable s e := by
  rw [isEntryPurgable, isEntryPurgable, canBePurged, canBePurged, h]

/-- An entry of a cache in which one has been changed. -/
theorem mem_modify {id : ℕ} {f : CacheEntry E T → CacheEntry E T} {e' : CacheEntry E T} :
    e' ∈ (c.modify id f).cacheMap ↔ ∃ e ∈ c.cacheMap, (if e.id = id then f e else e) = e' :=
  List.mem_map

/-- **What `purge` does**: it makes entries busy that can be purged, and answers their
transports. -/
theorem purgeLoop_spec (s : TransportState T) (amount : ℤ) (es : List (CacheEntry E T)) (count : ℤ)
    (c : TransportCache E T) :
    SameEntries c (purgeLoop s amount es count c).1 ∧
      (purgeLoop s amount es count c).1.activeRequests = c.activeRequests ∧
      (∀ e ∈ (purgeLoop s amount es count c).1.cacheMap,
        e ∈ c.cacheMap ∨ e.intId.recycleState = .busy) ∧
      ∀ t ∈ (purgeLoop s amount es count c).2, ∃ e ∈ es, e.transport = t ∧ c.isEntryPurgable s e := by
  induction es generalizing count c with
  | nil => exact ⟨.refl c, rfl, fun e he => .inl he, nofun⟩
  | cons e es ih =>
    rw [purgeLoop]
    split_ifs with hcount hpurgable
    · obtain ⟨hsame, hactive, hstate, hclosed⟩ :=
        ih (count + 1) (c.modify e.id (CacheEntry.recycleState .busy))
      refine ⟨(sameEntries_modify (CacheEntry.keepsFrame_recycleState .busy) e.id c).trans hsame,
        hactive, fun e' he' => ?_, fun t ht => ?_⟩
      · rcases hstate e' he' with hmem | hbusy
        · obtain ⟨e₀, he₀, rfl⟩ := mem_modify.mp hmem
          split_ifs with hid
          · exact .inr rfl
          · exact .inl he₀
        · exact .inr hbusy
      · rcases List.mem_cons.mp ht with rfl | ht
        · exact ⟨e, List.mem_cons_self, rfl, hpurgable⟩
        · obtain ⟨e', he', hte, hp⟩ := hclosed t ht
          exact ⟨e', List.mem_cons_of_mem e he', hte, isEntryPurgable_congr s rfl e' ▸ hp⟩
    · obtain ⟨hsame, hactive, hstate, hclosed⟩ := ih count c
      refine ⟨hsame, hactive, hstate, fun t ht => ?_⟩
      obtain ⟨e', he', hte⟩ := hclosed t ht
      exact ⟨e', List.mem_cons_of_mem e he', hte⟩
    · exact ⟨.refl c, rfl, fun e' he' => .inl he', nofun⟩

/-! ### One operation -/

variable {cfg : CacheConfig}

theorem sameEntries_purge (s : TransportState T) (order : ℕ → ℕ) (memory : Bool) :
    SameEntries c (c.purge cfg s order memory).1 := by
  rw [purge]
  split
  · exact .refl c
  · exact (purgeLoop_spec s _ _ 0 c).1

variable [DecidableEq T]

theorem sameEntries_beginActiveRequest (t : T) :
    SameEntries c (c.beginActiveRequest cfg t).1 := by
  rw [beginActiveRequest]
  split_ifs
  · exact .refl c
  · exact .refl c
  · exact ⟨rfl, rfl, rfl⟩

variable [DecidableEq E]

/-- **What an operation can do**: change the states of entries, purge the entry of a transport, purge
the idle entries, remove all, or cache a transport. -/
theorem step_cases {op : CacheOp E T} {a : CacheAnswer T} (h : step cfg c op = some (c', a)) :
    SameEntries c c' ∨ (∃ t id, c.cacheMapEntry t = some id ∧ c.purgeEntryI t id = some c') ∨
      (∃ s purged, purgeIdleLoop s c.cacheMap c = some (c', purged)) ∨ c' = c.close ∨
      ∃ prop t state connected memory r, op = .cacheTransport prop t state connected memory ∧
        c.cacheTransport cfg prop t state connected memory = some (c', r) := by
  cases op with
  | cacheTransport prop t state connected memory =>
    obtain ⟨⟨c₁, r⟩, hr, heq⟩ := Option.map_eq_some_iff.mp h
    cases heq
    exact .inr (.inr (.inr (.inr ⟨prop, t, state, connected, memory, r, rfl, hr⟩)))
  | findTransport prop busyCount =>
    obtain ⟨⟨c₁, r⟩, hr, heq⟩ := Option.map_eq_some_iff.mp h
    cases heq
    rcases prop with _ | prop
    · cases hr
      exact .inl (.refl c)
    · rcases findLoop_cases (by nofun) hr with ⟨rfl, -⟩ | ⟨e, -, -, -, -, rfl⟩
      · exact .inl (.refl _)
      · exact .inl (sameEntries_modify (CacheEntry.keepsFrame_recycleState _) e.id c)
  | makeIdle t =>
    obtain ⟨⟨c₁, r⟩, hr, heq⟩ := Option.map_eq_some_iff.mp h
    cases heq
    rw [makeIdle] at hr
    split at hr
    · cases hr
      exact .inl (.refl c)
    · obtain ⟨e, -, heq⟩ := Option.map_eq_some_iff.mp hr
      cases heq
      exact .inl (sameEntries_modify (CacheEntry.keepsFrame_recycleState _) e.id c)
  | markConnected t state =>
    obtain ⟨c₁, hr, heq⟩ := Option.map_eq_some_iff.mp h
    cases heq
    rw [markConnected] at hr
    split at hr
    · cases hr
      exact .inl (.refl c)
    · obtain ⟨e, -, rfl⟩ := Option.map_eq_some_iff.mp hr
      exact .inl (sameEntries_modify (CacheEntry.keepsFrame_setConnected _) e.id c)
  | setEntryState t state connected =>
    obtain ⟨c₁, hr, heq⟩ := Option.map_eq_some_iff.mp h
    cases heq
    rw [setEntryState] at hr
    split at hr
    · cases hr
      exact .inl (.refl c)
    · obtain ⟨e, -, rfl⟩ := Option.map_eq_some_iff.mp hr
      refine .inl (sameEntries_modify (fun e => ?_) e.id c)
      dsimp only
      split <;> rfl
  | purgeEntry t =>
    obtain ⟨⟨c₁, r⟩, hr, heq⟩ := Option.map_eq_some_iff.mp h
    cases heq
    rw [purgeEntry] at hr
    split at hr
    · cases hr
      exact .inl (.refl c)
    · rename_i id hid
      obtain ⟨c₂, hp, heq⟩ := Option.map_eq_some_iff.mp hr
      cases heq
      exact .inr (.inl ⟨t, id, hid, hp⟩)
  | purgeEntryWhenPurgable s t =>
    obtain ⟨⟨c₁, r⟩, hr, heq⟩ := Option.map_eq_some_iff.mp h
    cases heq
    rw [purgeEntryWhenPurgable] at hr
    split at hr
    · cases hr
      exact .inl (.refl c)
    · rename_i id hid
      obtain ⟨e, -, hr⟩ := Option.bind_eq_some_iff.mp hr
      split at hr
      · obtain ⟨c₂, hp, heq⟩ := Option.map_eq_some_iff.mp hr
        cases heq
        exact .inr (.inl ⟨t, id, hid, hp⟩)
      · cases hr
        exact .inl (.refl c)
  | purge s order memory =>
    cases h
    exact .inl (sameEntries_purge s order memory)
  | purgeIdleTransports s =>
    obtain ⟨⟨c₁, purged⟩, hr, heq⟩ := Option.map_eq_some_iff.mp h
    cases heq
    exact .inr (.inr (.inl ⟨s, purged, hr⟩))
  | close =>
    cases h
    exact .inr (.inr (.inr (.inl rfl)))
  | beginActiveRequest t =>
    cases h
    exact .inl (sameEntries_beginActiveRequest t)
  | endActiveRequest t =>
    obtain ⟨c₁, hr, heq⟩ := Option.map_eq_some_iff.mp h
    cases heq
    rw [endActiveRequest] at hr
    split_ifs at hr
    cases hr
    exact .inl ⟨rfl, rfl, rfl⟩

end TransportCache

end AceTao
