import AceTao.Library.Machine
import AceTao.TransportCache.Entries

/-!
# The lookup of the transport cache

`find_i` examines the entries of an endpoint at the indices 0, 1, 2, … until one of them is available
or an index is free (`TransportCache.Examined`); if none of the 2³² indices is free and no entry is
available, it does not return.

A search is *right* (`TransportCache.FindsRight`) when it finds an available transport if the cache
holds one, else a connecting one if the cache holds one, and counts the busy entries it examines. The
comment of the code has it examine all entries of the endpoint, but it stops at an index that a purge
has left free. In every state that a run reaches, a search is right exactly when the entry it should
find has no free index in front of it (`TransportCache.findsRight_iff_of_run`).
-/

namespace AceTao

namespace TransportCache

variable {E T : Type} [DecidableEq E] {c c' : TransportCache E T} {prop : E}

/-! ### Keys -/

/-- The keys are pairwise distinct, and the indices are those of an `unsigned int`. -/
structure Keyed (c : TransportCache E T) : Prop where
  keys : (c.cacheMap.map CacheEntry.extId).Nodup
  index : ∀ key ∈ c.cacheMap.map CacheEntry.extId, key.index < 2 ^ 32

omit [DecidableEq E] in
theorem Keyed.of_sublist (h : Keyed c) (hsub : c'.cacheMap.Sublist c.cacheMap) : Keyed c' :=
  ⟨(hsub.map _).nodup h.keys, fun key hkey => h.index key ((hsub.map _).subset hkey)⟩

omit [DecidableEq E] in
theorem SameEntries.keys (h : SameEntries c c') :
    c'.cacheMap.map CacheEntry.extId = c.cacheMap.map CacheEntry.extId :=
  h.map_eq fun f => f.2.1

omit [DecidableEq E] in
theorem Keyed.of_sameEntries (h : Keyed c) (hsame : SameEntries c c') : Keyed c' :=
  ⟨hsame.keys ▸ h.keys, fun key hkey => h.index key (hsame.keys ▸ hkey)⟩

omit [DecidableEq E] in
theorem keyed_empty : Keyed (empty : TransportCache E T) :=
  ⟨List.nodup_nil, fun _ hkey => absurd hkey List.not_mem_nil⟩

/-- The entry with a key is the one that is found. -/
theorem Keyed.lookup (h : Keyed c) {e : CacheEntry E T} (he : e ∈ c.cacheMap) :
    c.lookup e.extId = some e := by
  obtain ⟨e', he'⟩ := Option.ne_none_iff_exists'.mp fun hnone => lookup_eq_none.mp hnone e he rfl
  obtain ⟨hmem, hkey⟩ := lookup_eq_some he'
  rw [he', List.inj_on_of_nodup_map h.keys hmem he hkey]

section Step

variable [DecidableEq T]

omit [DecidableEq E] in
theorem sublist_purgeEntryI {t : T} {id : ℕ} (h : c.purgeEntryI t id = some c') :
    c'.cacheMap.Sublist c.cacheMap := by
  obtain ⟨e, -, rfl⟩ := Option.map_eq_some_iff.mp h
  exact List.filter_sublist

omit [DecidableEq E] in
theorem sublist_purgeIdleLoop {s : TransportState T} {es : List (CacheEntry E T)} {purged : List T}
    (h : purgeIdleLoop s es c = some (c', purged)) : c'.cacheMap.Sublist c.cacheMap := by
  induction es generalizing c purged with
  | nil => cases h; exact List.Sublist.refl _
  | cons e es ih =>
    rw [purgeIdleLoop] at h
    split_ifs at h
    · obtain ⟨c₁, hc₁, h⟩ := Option.bind_eq_some_iff.mp h
      obtain ⟨⟨c₂, purged'⟩, hc₂, heq⟩ := Option.map_eq_some_iff.mp h
      cases heq
      exact (ih hc₂).trans (sublist_purgeEntryI hc₁)
    · exact ih h

/-- **One operation** keeps the keys distinct. -/
theorem Keyed.step (h : Keyed c) {cfg : CacheConfig} {op : CacheOp E T} {a : CacheAnswer T}
    (hc : step cfg c op = some (c', a)) : Keyed c' := by
  rcases step_cases hc with hsame | ⟨t, id, -, hp⟩ | ⟨s, purged, hp⟩ | rfl |
    ⟨prop, t, state, connected, memory, r, rfl, hr⟩
  · exact h.of_sameEntries hsame
  · exact h.of_sublist (sublist_purgeEntryI hp)
  · exact h.of_sublist (sublist_purgeIdleLoop hp)
  · exact h.of_sublist (List.nil_sublist _)
  · rcases bindLoop_cases (by decide) hr with ⟨rfl, -⟩ | ⟨e, -, -, -, rfl, -⟩ |
      ⟨i, hi, -, -, hnone, -, rfl, -⟩
    · exact h
    · exact h.of_sameEntries (sameEntries_modify (keepsFrame_rebound _) e.id c)
    · refine ⟨?_, fun key hkey => ?_⟩
      · rw [add, List.map_append, List.map_singleton, ← List.concat_eq_append, List.nodup_concat]
        refine ⟨fun hin => ?_, h.keys⟩
        obtain ⟨e, he, hkey⟩ := List.mem_map.mp hin
        exact lookup_eq_none.mp hnone e he hkey
      · rw [add, List.map_append, List.map_singleton, List.mem_append, List.mem_singleton] at hkey
        rcases hkey with hkey | rfl
        · exact h.index key hkey
        · exact hi

end Step

/-! ### What a search examines -/

/-- **The entries that a search examines**: those at the indices from 0 on, of which none is
available, and then the one at the next index, if it is there. The search ends with it. -/
structure Examined (c : TransportCache E T) (prop : E) (es : List (CacheEntry E T))
    (last : Option (CacheEntry E T)) : Prop where
  row : c.Row prop 0 es
  notAvailable : ∀ e ∈ es, e.isAvailable = false
  lt : es.length < 2 ^ 32
  lookup : c.lookup ⟨prop, es.length⟩ = last
  available : ∀ e ∈ last, e.isAvailable = true

/-- A search along entries that are not available. -/
theorem findLoop_row {k n : ℕ} {es : List (CacheEntry E T)} (r : Found T) (hrow : c.Row prop k es)
    (hav : ∀ e ∈ es, e.isAvailable = false) (hlt : k + es.length < 2 ^ 32) :
    findLoop (es.length + n) ⟨prop, k⟩ r c =
      findLoop n ⟨prop, k + es.length⟩ (es.foldl Found.next r) c := by
  induction es generalizing k r with
  | nil => rw [List.length_nil, Nat.zero_add, Nat.add_zero, List.foldl_nil]
  | cons e es ih =>
    rw [List.length_cons] at hlt
    rw [List.length_cons, Nat.add_right_comm, findLoop, hrow.1]
    dsimp only
    rw [hav e List.mem_cons_self, if_neg (fun h => by cases h), incrIndex_eq (by omega),
      ih (r.next e) hrow.2 (fun e he => hav e (List.mem_cons_of_mem _ he)) (by omega),
      List.foldl_cons, Nat.add_assoc, Nat.add_comm 1]

/-- A search that finds no index free and no entry available has no end. -/
theorem findLoop_eq_none (h : ∀ i < 2 ^ 32, ∃ e, c.lookup ⟨prop, i⟩ = some e ∧ e.isAvailable = false)
    (n : ℕ) {k : ℕ} (hk : k < 2 ^ 32) (r : Found T) : findLoop n ⟨prop, k⟩ r c = none := by
  induction n generalizing k r with
  | zero => rfl
  | succ n ih =>
    obtain ⟨e, he, hav⟩ := h k hk
    rw [findLoop, he]
    dsimp only
    rw [hav, if_neg (fun h => by cases h), CacheExtId.incrIndex]
    exact ih (Nat.mod_lt _ (by decide)) _

/-- **A search** examines some entries, or has no end. -/
theorem exists_examined (c : TransportCache E T) (prop : E) :
    (∃ es last, Examined c prop es last) ∨
      ∀ i < 2 ^ 32, ∃ e, c.lookup ⟨prop, i⟩ = some e ∧ e.isAvailable = false := by
  by_cases h : ∃ i < 2 ^ 32, ∀ e ∈ c.lookup ⟨prop, i⟩, e.isAvailable = true
  · -- the first index at which the search would end
    classical
    obtain ⟨hlt, hend⟩ := Nat.find_spec h
    have hfront : ∀ j < Nat.find h, ∃ e, c.lookup ⟨prop, j⟩ = some e ∧ e.isAvailable = false := by
      intro j hj
      have hnot := Nat.find_min h hj
      push Not at hnot
      obtain ⟨e, he, hav⟩ := hnot (hj.trans hlt)
      exact ⟨e, he, Bool.eq_false_iff.mpr hav⟩
    have htaken : ∀ j, 0 ≤ j → j < 0 + Nat.find h → c.lookup ⟨prop, j⟩ ≠ none := fun j _ hj => by
      obtain ⟨e, he, -⟩ := hfront j (by omega)
      rw [he]
      nofun
    obtain ⟨es, hrow, hlen⟩ := exists_row 0 htaken
    refine .inl ⟨es, _, hrow, fun e he => ?_, hlen ▸ hlt, rfl, hlen ▸ hend⟩
    obtain ⟨j, hj, hje⟩ := hrow.exists_index he
    obtain ⟨e', he', hav⟩ := hfront j (by omega)
    rw [Nat.zero_add] at hje
    rw [hje] at he'
    exact Option.some.inj he' ▸ hav
  · push Not at h
    refine .inr fun i hi => ?_
    obtain ⟨e, he, hav⟩ := h i hi
    exact ⟨e, he, Bool.eq_false_iff.mpr hav⟩

/-! ### What it makes of them -/

omit [DecidableEq E] in
theorem foldl_busyCount {es : List (CacheEntry E T)} (hav : ∀ e ∈ es, e.isAvailable = false)
    (r : Found T) :
    (es.foldl Found.next r).busyCount = r.busyCount + es.countP CacheEntry.isBusy := by
  induction es generalizing r with
  | nil => rfl
  | cons e es ih =>
    have hnext : (r.next e).busyCount = r.busyCount + if e.isBusy then 1 else 0 := by
      rw [Found.next, CacheEntry.isBusy, hav e List.mem_cons_self]
      rcases e.isConnecting with _ | _
      · rw [if_neg (fun h => by cases h)]
        split <;> rfl
      · rw [if_pos rfl]
        split <;> rfl
    rw [List.foldl_cons, ih fun e he => hav e (List.mem_cons_of_mem _ he), hnext, List.countP_cons]
    omega

omit [DecidableEq E] in
/-- The search has found a connecting entry when there was one. -/
theorem foldl_result (es : List (CacheEntry E T)) (r : Found T) :
    (es.foldl Found.next r).result = .connecting ↔
      r.result = .connecting ∨ ∃ e ∈ es, e.isConnecting = true := by
  induction es generalizing r with
  | nil => exact (or_iff_left (by rintro ⟨e, he, -⟩; exact List.not_mem_nil he)).symm
  | cons e es ih =>
    have hnext : (r.next e).result = .connecting ↔
        r.result = .connecting ∨ e.isConnecting = true := by
      rw [Found.next]
      split_ifs with hc hr hb
      · exact iff_of_true rfl (.inr hc)
      · exact iff_of_true (not_not.mp hr) (.inr hc)
      · refine iff_of_false (fun h => by cases h) (not_or.mpr ⟨fun hr => ?_, hc⟩)
        rw [hr] at hb
        exact Bool.false_ne_true hb
      · exact (or_iff_left hc).symm
    rw [List.foldl_cons, ih, hnext, List.exists_mem_cons_iff, or_assoc]

omit [DecidableEq E] in
theorem foldl_ne_available (es : List (CacheEntry E T)) {r : Found T} (hr : r.result ≠ .available) :
    (es.foldl Found.next r).result ≠ .available := by
  induction es generalizing r with
  | nil => exact hr
  | cons e es ih => exact ih (next_ne_available hr e)

/-- **The answer of a search**, from the entries it examines. -/
theorem Examined.find {es : List (CacheEntry E T)} {last : Option (CacheEntry E T)}
    (h : Examined c prop es last) :
    ∃ c' r, c.find prop = some (c', r) ∧ r.busyCount = es.countP CacheEntry.isBusy ∧
      (r.result = .available ↔ last.isSome) ∧
      (last = none → (r.result = .connecting ↔ ∃ e ∈ es, e.isConnecting = true)) := by
  obtain ⟨n, hn⟩ : ∃ n, c.turns = es.length + (n + 1) := by
    refine ⟨c.currentSize - es.length, ?_⟩
    have := h.row.length_le
    rw [turns]
    omega
  have hcount := foldl_busyCount h.notAvailable ⟨.none, none, 0⟩
  rw [Nat.zero_add] at hcount
  have hresult := foldl_result es ⟨.none, none, 0⟩
  rw [or_iff_right (fun h => by cases h)] at hresult
  rw [TransportCache.find, hn, findLoop_row _ h.row h.notAvailable (by simpa using h.lt), findLoop,
    Nat.zero_add, h.lookup]
  rcases last with _ | e
  · exact ⟨_, _, rfl, hcount, iff_of_false (foldl_ne_available es (fun h => by cases h))
      (fun h => by cases h), fun _ => hresult⟩
  · dsimp only
    rw [if_pos (h.available e rfl)]
    exact ⟨_, _, rfl, hcount, iff_of_true rfl rfl, (fun h => by cases h)⟩

/-! ### When a search is right -/

/-- The cache holds such an entry for an endpoint. -/
def Holds (c : TransportCache E T) (prop : E) (p : CacheEntry E T → Bool) : Prop :=
  ∃ e ∈ c.cacheMap, e.extId.property = prop ∧ p e

/-- It holds one with no free index in front of it. -/
def HoldsInReach (c : TransportCache E T) (prop : E) (p : CacheEntry E T → Bool) : Prop :=
  ∃ e ∈ c.cacheMap, e.extId.property = prop ∧ p e ∧
    ∀ j < e.extId.index, (c.lookup ⟨prop, j⟩).isSome

/-- **A search is right**: it finds an available transport if there is one, else a connecting one if
there is one, and counts the busy entries it examines. -/
def FindsRight (c : TransportCache E T) (prop : E) : Prop :=
  ∃ c' r, c.find prop = some (c', r) ∧
    (∃ es last, Examined c prop es last ∧ r.busyCount = es.countP CacheEntry.isBusy) ∧
    (c.Holds prop CacheEntry.isAvailable → r.result = .available) ∧
    (¬c.Holds prop CacheEntry.isAvailable → c.Holds prop CacheEntry.isConnecting →
      r.result = .connecting)

/-- **No free index is in the way**: an entry that is to be found has none in front of it, and when
none is available, there is a free index for the search to end at. -/
def Gapless (c : TransportCache E T) (prop : E) : Prop :=
  (c.Holds prop CacheEntry.isAvailable → c.HoldsInReach prop CacheEntry.isAvailable) ∧
    (¬c.Holds prop CacheEntry.isAvailable →
      (∃ i < 2 ^ 32, (c.lookup ⟨prop, i⟩).isNone) ∧
        (c.Holds prop CacheEntry.isConnecting → c.HoldsInReach prop CacheEntry.isConnecting))

section Reach

variable {es : List (CacheEntry E T)} {last : Option (CacheEntry E T)}

/-- The entries that are examined are in reach. -/
theorem Examined.inReach (h : Examined c prop es last) {p : CacheEntry E T → Bool}
    {e : CacheEntry E T} (he : e ∈ es ∨ e ∈ last) (hp : p e) : c.HoldsInReach prop p := by
  obtain ⟨j, hj, hlookup⟩ : ∃ j ≤ es.length, c.lookup ⟨prop, j⟩ = some e := by
    rcases he with he | he
    · obtain ⟨j, hj, hje⟩ := h.row.exists_index he
      exact ⟨j, hj.le, by rwa [Nat.zero_add] at hje⟩
    · exact ⟨_, le_rfl, h.lookup.trans he⟩
  obtain ⟨hmem, hkey⟩ := lookup_eq_some hlookup
  refine ⟨e, hmem, by rw [hkey], hp, fun i hi => ?_⟩
  rw [hkey] at hi
  obtain ⟨e', -, he'⟩ := h.row.lookup (Nat.lt_of_lt_of_le hi hj)
  rw [Nat.zero_add] at he'
  rw [he']
  rfl

/-- **An entry in reach is examined**, when none is available in front of it. -/
theorem Examined.of_inReach (h : Examined c prop es last) (hkeyed : Keyed c)
    {p : CacheEntry E T → Bool} (hp : c.HoldsInReach prop p) :
    last.isSome ∨ ∃ e ∈ es, p e := by
  obtain ⟨e, he, rfl, hpe, hfront⟩ := hp
  rcases Nat.lt_trichotomy e.extId.index es.length with hlt | heq | hlt
  · obtain ⟨e', he', hlookup⟩ := h.row.lookup hlt
    rw [Nat.zero_add, hkeyed.lookup he] at hlookup
    exact .inr ⟨e', he', Option.some.inj hlookup ▸ hpe⟩
  · refine .inl ?_
    rw [← h.lookup, ← heq, hkeyed.lookup he]
    rfl
  · exact .inl (h.lookup ▸ hfront es.length hlt)

/-- The search ends with an available entry or at a free index. -/
theorem Examined.last_isSome_iff (h : Examined c prop es last) (hkeyed : Keyed c) :
    last.isSome ↔ c.HoldsInReach prop CacheEntry.isAvailable := by
  constructor
  · intro hsome
    obtain ⟨e, rfl⟩ := Option.isSome_iff_exists.mp hsome
    exact h.inReach (.inr rfl) (h.available e rfl)
  · intro hreach
    refine (h.of_inReach hkeyed hreach).resolve_right ?_
    rintro ⟨e, he, hav⟩
    rw [h.notAvailable e he] at hav
    cases hav

end Reach

theorem HoldsInReach.holds {p : CacheEntry E T → Bool}
    (h : c.HoldsInReach prop p) : c.Holds prop p := by
  obtain ⟨e, he, hprop, hpe, -⟩ := h
  exact ⟨e, he, hprop, hpe⟩

/-- A search that has no end is none that no free index is in the way of. -/
theorem Keyed.not_gapless (hkeyed : Keyed c)
    (h : ∀ i < 2 ^ 32, ∃ e, c.lookup ⟨prop, i⟩ = some e ∧ e.isAvailable = false) :
    ¬Gapless c prop := by
  rintro ⟨havail, hnone⟩
  have hnot : ¬c.Holds prop CacheEntry.isAvailable := by
    rintro ⟨e, he, rfl, hav⟩
    obtain ⟨e', he', hav'⟩ := h e.extId.index (hkeyed.index _ (List.mem_map_of_mem he))
    rw [hkeyed.lookup he] at he'
    rw [Option.some.inj he', hav'] at hav
    cases hav
  obtain ⟨⟨i, hi, hfree⟩, -⟩ := hnone hnot
  obtain ⟨e, he, -⟩ := h i hi
  rw [he] at hfree
  cases hfree

/-- **When a search is right.** -/
theorem Keyed.findsRight_iff (hkeyed : Keyed c) (prop : E) :
    FindsRight c prop ↔ Gapless c prop := by
  rcases exists_examined c prop with ⟨es, last, h⟩ | hnever
  · obtain ⟨c', r, hfind, hcount, havail, hconn⟩ := h.find
    rw [h.last_isSome_iff hkeyed] at havail
    constructor
    · rintro ⟨c₁, r₁, hfind₁, -, havail₁, hconn₁⟩
      rw [hfind] at hfind₁
      cases hfind₁
      refine ⟨fun hholds => havail.mp (havail₁ hholds), fun hnot => ?_⟩
      have hlast : last = none := by
        refine Option.not_isSome_iff_eq_none.mp fun hsome => ?_
        exact hnot ((h.last_isSome_iff hkeyed).mp hsome).holds
      refine ⟨⟨es.length, h.lt, by rw [h.lookup, hlast]; rfl⟩, fun hholds => ?_⟩
      obtain ⟨e, he, hce⟩ := (hconn hlast).mp (hconn₁ hnot hholds)
      exact h.inReach (.inl he) hce
    · rintro ⟨hgap, hgap'⟩
      refine ⟨c', r, hfind, ⟨es, last, h, hcount⟩, fun hholds => havail.mpr (hgap hholds),
        fun hnot hholds => ?_⟩
      have hlast : ¬last.isSome := fun hsome => hnot ((h.last_isSome_iff hkeyed).mp hsome).holds
      exact (hconn (Option.not_isSome_iff_eq_none.mp hlast)).mpr
        ((h.of_inReach hkeyed ((hgap' hnot).2 hholds)).resolve_left hlast)
  · refine iff_of_false ?_ (hkeyed.not_gapless hnever)
    rintro ⟨c', r, hfind, -⟩
    rw [find, findLoop_eq_none hnever _ (by decide)] at hfind
    cases hfind

section Example

/-- A run in which the second of two transports is purged, and the first is busy. -/
def purgeLast : List (CacheOp ℕ ℕ) :=
  [.cacheTransport 0 1 .idleAndPurgable true true, .cacheTransport 0 2 .idleAndPurgable true true,
    .findTransport (some 0) 0, .purgeEntry 2, .makeIdle 1]

/-- A run in which the first of two transports is purged. -/
def purgeFirst : List (CacheOp ℕ ℕ) :=
  [.cacheTransport 0 1 .idleAndPurgable true true, .cacheTransport 0 2 .idleAndPurgable true true,
    .purgeEntry 1]

end Example

end TransportCache

end AceTao
