import Mathlib.Algebra.GroupWithZero.Nat
import Mathlib.Data.Int.Notation
import Mathlib.Data.Nat.Notation
import Mathlib.Logic.Function.Basic

/-!
# `Transport_Cache_Manager_T`: the code

The cache is a hash map from a transport descriptor and an index to a transport, the state it is in
and whether it is connected. The transports of one endpoint have the indices 0, 1, 2, …, as they
come: `bind_i` takes the first that is free. A transport has a pointer to its entry,
`cache_map_entry_`.

A descriptor is what `is_equivalent` tells of it. An entry has the number of its allocation, which
is what a pointer to it is; an operation that follows a pointer to an entry that is no longer in the
map has no answer. The order of the map is the order of a list. An index is a number, and its
arithmetic is modulo 2³²; a search for an index is given as many turns as there are entries and one
more, and has no answer if it takes more. Every operation is the section of it that is under the
lock of the cache; `purge` and `purge_idle_transports` answer the transports that they have chosen,
which are closed behind it. What is read of a transport there, and not written by the cache, are
parameters.
-/

namespace AceTao

/-- `Cache_Entries_State`. -/
inductive EntryState
  | idleAndPurgable | purgableButNotIdle | busy | closed | connecting | unknown
  deriving DecidableEq

/-- `Cache_ExtId_T`. -/
structure CacheExtId (E : Type) where
  property : E
  index : ℕ
  deriving DecidableEq

/-- `Cache_IntId_T`. -/
structure CacheIntId (T : Type) where
  transport : T
  recycleState : EntryState
  isConnected : Bool

/-- **An entry of the hash map**, an `ACE_Hash_Map_Entry`. -/
structure CacheEntry (E T : Type) where
  id : ℕ
  extId : CacheExtId E
  intId : CacheIntId T

/-- What the constructor is given. The purging strategy has a maximum of its own. -/
structure CacheConfig where
  cacheMaximum : ℕ
  strategyMaximum : ℤ
  percent : ℤ
  idleTimeout : ℤ

/-- What is read of the transports. -/
structure TransportState (T : Type) where
  /-- `tms_->has_request ()`. -/
  hasRequest : T → Bool
  /-- `idle_timeout_expired_i ()`. -/
  idleTimeoutExpired : T → Bool
  /-- What `is_idle ()` reads of the queues. -/
  queuesAreEmpty : T → Bool

/-- **`Transport_Cache_Manager_T`**, with what it writes of the transports. -/
structure TransportCache (E T : Type) where
  cacheMap : List (CacheEntry E T)
  nextEntry : ℕ
  cacheMapEntry : T → Option ℕ
  activeRequests : T → ℕ

/-- `Find_Result`. -/
inductive FindResult
  | none | connecting | busy | available
  deriving DecidableEq

/-- What a search has found. -/
structure Found (T : Type) where
  result : FindResult
  transport : Option T
  busyCount : ℕ

def CacheExtId.incrIndex {E : Type} (key : CacheExtId E) : CacheExtId E :=
  { key with index := (key.index + 1) % 2 ^ 32 }

namespace CacheEntry

variable {E T : Type}

/-- `item ().transport ()`. -/
def transport (e : CacheEntry E T) : T := e.intId.transport

def recycleState (state : EntryState) (e : CacheEntry E T) : CacheEntry E T :=
  { e with intId := { e.intId with recycleState := state } }

def setConnected (connected : Bool) (e : CacheEntry E T) : CacheEntry E T :=
  { e with intId := { e.intId with isConnected := connected } }

/-- `is_entry_available_i`. -/
def isAvailable (e : CacheEntry E T) : Bool :=
  e.intId.recycleState = .idleAndPurgable && e.intId.isConnected

/-- `is_entry_connecting_i`. -/
def isConnecting (e : CacheEntry E T) : Bool :=
  e.intId.recycleState = .connecting || !e.intId.isConnected

/-- An entry that a search counts. -/
def isBusy (e : CacheEntry E T) : Bool := !e.isAvailable && !e.isConnecting

end CacheEntry

/-- What the search makes of an entry that is not available. -/
def Found.next {E T : Type} (r : Found T) (entry : CacheEntry E T) : Found T :=
  if entry.isConnecting then
    if r.result ≠ .connecting then
      { r with transport := some entry.transport, result := .connecting }
    else r
  else if r.result = .none && r.busyCount = 0 then
    ⟨.busy, some entry.transport, r.busyCount + 1⟩
  else { r with busyCount := r.busyCount + 1 }

namespace TransportCache

variable {E T : Type}

/-- The cache that the constructor makes, and no transport has been in. -/
def empty : TransportCache E T := ⟨[], 0, fun _ => .none, fun _ => 0⟩

def currentSize (c : TransportCache E T) : ℕ := c.cacheMap.length

/-- The turns a search is given. -/
def turns (c : TransportCache E T) : ℕ := c.currentSize + 1

/-! ### The hash map -/

/-- The entry a pointer points to. -/
def entryAt (c : TransportCache E T) (id : ℕ) : Option (CacheEntry E T) :=
  c.cacheMap.find? fun e => e.id = id

/-- A change of an entry. -/
def modify (id : ℕ) (f : CacheEntry E T → CacheEntry E T) (c : TransportCache E T) :
    TransportCache E T :=
  { c with cacheMap := c.cacheMap.map fun e => if e.id = id then f e else e }

/-- **`unbind`** of an entry. -/
def unbind (id : ℕ) (c : TransportCache E T) : TransportCache E T :=
  { c with cacheMap := c.cacheMap.filter fun e => e.id ≠ id }

/-- What `bind` does when the key is not in the map, with the pointer of the transport. -/
def add (key : CacheExtId E) (intId : CacheIntId T) [DecidableEq T] (c : TransportCache E T) :
    TransportCache E T :=
  { c with
    cacheMap := c.cacheMap ++ [⟨c.nextEntry, key, intId⟩]
    nextEntry := c.nextEntry + 1
    cacheMapEntry := Function.update c.cacheMapEntry intId.transport (some c.nextEntry) }

variable [DecidableEq E]

/-- `find` of the hash map. -/
def lookup (c : TransportCache E T) (key : CacheExtId E) : Option (CacheEntry E T) :=
  c.cacheMap.find? fun e => e.extId = key

variable [DecidableEq T]

/-! ### Caching a transport -/

/-- The loop of `bind_i`. -/
def bindLoop (maximum : ℕ) (intId : CacheIntId T) (memory : Bool) :
    ℕ → CacheExtId E → TransportCache E T → Option (TransportCache E T × ℤ)
  | 0, _, _ => none
  | n + 1, key, c =>
    if maximum ≤ c.currentSize then some (c, -1)
    else
      match c.lookup key with
      | none => if memory then some (c.add key intId, 0) else some (c, -1)
      | some entry =>
        if entry.transport = intId.transport then
          some (c.modify entry.id fun e =>
            (e.recycleState intId.recycleState).setConnected intId.isConnected, 0)
        else bindLoop maximum intId memory n key.incrIndex c

/-- The state that `cache_transport` gives a transport. -/
def stateFor (connected : Bool) (state : EntryState) : EntryState :=
  if connected && state = .connecting then .idleAndPurgable else state

/-- **`cache_transport`.** -/
def cacheTransport (cfg : CacheConfig) (prop : E) (transport : T) (state : EntryState)
    (connected memory : Bool) (c : TransportCache E T) : Option (TransportCache E T × ℤ) :=
  bindLoop cfg.cacheMaximum ⟨transport, stateFor connected state, connected⟩ memory c.turns
    ⟨prop, 0⟩ c

/-! ### Finding a transport -/

/-- The loop of `find_i`. -/
def findLoop : ℕ → CacheExtId E → Found T → TransportCache E T →
    Option (TransportCache E T × Found T)
  | 0, _, _, _ => none
  | n + 1, key, r, c =>
    match c.lookup key with
    | none => some (c, r)
    | some entry =>
      if entry.isAvailable then
        some (c.modify entry.id (CacheEntry.recycleState .busy),
          { r with result := .available, transport := some entry.transport })
      else findLoop n key.incrIndex (Found.next r entry) c

/-- `find_i`. -/
def find (prop : E) (c : TransportCache E T) : Option (TransportCache E T × Found T) :=
  findLoop c.turns ⟨prop, 0⟩ ⟨.none, none, 0⟩ c

/-- **`find_transport`.** Without a descriptor it leaves the caller's `busy_count`. -/
def findTransport (prop : Option E) (busyCount : ℕ) (c : TransportCache E T) :
    Option (TransportCache E T × Found T) :=
  match prop with
  | none => some (c, ⟨.none, none, busyCount⟩)
  | some prop => c.find prop

/-! ### The entry of a transport -/

/-- **`make_idle`.** -/
def makeIdle (transport : T) (c : TransportCache E T) : Option (TransportCache E T × ℤ) :=
  match c.cacheMapEntry transport with
  | none => some (c, -1)
  | some id =>
    (c.entryAt id).map fun e => (c.modify e.id (CacheEntry.recycleState .idleAndPurgable), 0)

/-- **`mark_connected`.** -/
def markConnected (transport : T) (state : Bool) (c : TransportCache E T) :
    Option (TransportCache E T) :=
  match c.cacheMapEntry transport with
  | none => some c
  | some id => (c.entryAt id).map fun e => c.modify e.id (CacheEntry.setConnected state)

/-- **`set_entry_state`.** -/
def setEntryState (transport : T) (state : EntryState) (connected : Bool)
    (c : TransportCache E T) : Option (TransportCache E T) :=
  match c.cacheMapEntry transport with
  | none => some c
  | some id =>
    (c.entryAt id).map fun e => c.modify e.id fun e =>
      let e := e.recycleState state
      if state ≠ .unknown && state ≠ .connecting then e.setConnected connected else e

/-! ### Purging -/

/-- `can_be_purged ()`. -/
def canBePurged (s : TransportState T) (c : TransportCache E T) (transport : T) : Bool :=
  c.activeRequests transport = 0 && !s.hasRequest transport

/-- `is_idle ()`. -/
def isIdle (s : TransportState T) (c : TransportCache E T) (transport : T) : Bool :=
  c.activeRequests transport = 0 && s.queuesAreEmpty transport

/-- `is_entry_purgable_i`. -/
def isEntryPurgable (s : TransportState T) (c : TransportCache E T) (e : CacheEntry E T) : Bool :=
  (e.intId.recycleState = .idleAndPurgable || e.intId.recycleState = .purgableButNotIdle) &&
    c.canBePurged s e.transport

/-- Clear the pointer of a transport and unbind the entry. -/
def purgeEntryI (transport : T) (id : ℕ) (c : TransportCache E T) :
    Option (TransportCache E T) :=
  (c.entryAt id).map fun e =>
    { c.unbind e.id with cacheMapEntry := Function.update c.cacheMapEntry transport none }

/-- **`purge_entry`.** -/
def purgeEntry (transport : T) (c : TransportCache E T) : Option (TransportCache E T × ℤ) :=
  match c.cacheMapEntry transport with
  | none => some (c, 0)
  | some id => (c.purgeEntryI transport id).map fun c => (c, 0)

/-- **`purge_entry_when_purgable`.** -/
def purgeEntryWhenPurgable (s : TransportState T) (transport : T) (c : TransportCache E T) :
    Option (TransportCache E T × ℤ) :=
  match c.cacheMapEntry transport with
  | none => some (c, -1)
  | some id =>
    (c.entryAt id).bind fun e =>
      if c.isEntryPurgable s e then (c.purgeEntryI transport id).map fun c => (c, 0)
      else some (c, -1)

/-- The test of `purge_entry_if_idle_i`. -/
def isEntryIdle (s : TransportState T) (c : TransportCache E T) (e : CacheEntry E T) : Bool :=
  c.isEntryPurgable s e && s.idleTimeoutExpired e.transport && c.isIdle s e.transport

/-- The loop of `purge_idle_transports`, over the entries of the map. -/
def purgeIdleLoop (s : TransportState T) :
    List (CacheEntry E T) → TransportCache E T → Option (TransportCache E T × List T)
  | [], c => some (c, [])
  | e :: es, c =>
    if c.isEntryIdle s e then
      (c.purgeEntryI e.transport e.id).bind fun c =>
        (purgeIdleLoop s es c).map fun (c, purged) => (c, e.transport :: purged)
    else purgeIdleLoop s es c

/-- **`purge_idle_transports`.** -/
def purgeIdleTransports (s : TransportState T) (c : TransportCache E T) :
    Option (TransportCache E T × List T) :=
  purgeIdleLoop s c.cacheMap c

/-- The loop of `purge`, over the sorted entries. -/
def purgeLoop (s : TransportState T) (amount : ℤ) :
    List (CacheEntry E T) → ℤ → TransportCache E T → TransportCache E T × List T
  | [], _, c => (c, [])
  | e :: es, count, c =>
    if count < amount then
      if c.isEntryPurgable s e then
        let (c, closed) :=
          purgeLoop s amount es (count + 1) (c.modify e.id (CacheEntry.recycleState .busy))
        (c, e.transport :: closed)
      else purgeLoop s amount es count c
    else (c, [])

/-- The size as an `int`. -/
def intSize (c : TransportCache E T) : ℤ := (c.currentSize : ℤ).bmod (2 ^ 32)

/-- `fill_set_i`. The order is that of the purging orders of the transports, with entries that are
alike in it as `qsort` leaves them. -/
def fillSet (cfg : CacheConfig) (purgingOrder : ℕ → ℕ) (memory : Bool) (c : TransportCache E T) :
    Option (List (CacheEntry E T)) :=
  if 0 ≤ cfg.strategyMaximum && cfg.strategyMaximum ≤ c.intSize && memory then
    some ((c.cacheMap.take c.intSize.toNat).mergeSort fun e e' =>
      purgingOrder e.id ≤ purgingOrder e'.id)
  else none

/-- **`purge`.** -/
def purge (cfg : CacheConfig) (s : TransportState T) (purgingOrder : ℕ → ℕ) (memory : Bool)
    (c : TransportCache E T) : TransportCache E T × List T :=
  match c.fillSet cfg purgingOrder memory with
  | none => (c, [])
  | some sortedSet =>
    purgeLoop s (((c.intSize * cfg.percent).bmod (2 ^ 32)).tdiv 100) sortedSet 0 c

/-- **`close`.** -/
def close (c : TransportCache E T) : TransportCache E T :=
  { c with
    cacheMap := []
    cacheMapEntry := fun t => if c.cacheMap.any (·.transport = t) then none else c.cacheMapEntry t }

/-! ### Requests -/

/-- **`begin_active_request`**: its answer and `tracked`. -/
def beginActiveRequest (cfg : CacheConfig) (transport : T) (c : TransportCache E T) :
    TransportCache E T × Bool × Bool :=
  if cfg.idleTimeout ≤ 0 then (c, true, false)
  else if c.cacheMapEntry transport = none then (c, false, false)
  else
    ({ c with activeRequests :=
        Function.update c.activeRequests transport (c.activeRequests transport + 1) }, true, true)

/-- **`end_active_request`.** It has no answer when its assertion fails. -/
def endActiveRequest (transport : T) (c : TransportCache E T) : Option (TransportCache E T) :=
  if 0 < c.activeRequests transport then
    some { c with activeRequests :=
      Function.update c.activeRequests transport (c.activeRequests transport - 1) }
  else none

/-! ### Runs -/

end TransportCache

/-- The operations. -/
inductive CacheOp (E T : Type)
  | cacheTransport (prop : E) (transport : T) (state : EntryState) (connected memory : Bool)
  | findTransport (prop : Option E) (busyCount : ℕ)
  | makeIdle (transport : T)
  | markConnected (transport : T) (state : Bool)
  | setEntryState (transport : T) (state : EntryState) (connected : Bool)
  | purgeEntry (transport : T)
  | purgeEntryWhenPurgable (s : TransportState T) (transport : T)
  | purge (s : TransportState T) (purgingOrder : ℕ → ℕ) (memory : Bool)
  | purgeIdleTransports (s : TransportState T)
  | close
  | beginActiveRequest (transport : T)
  | endActiveRequest (transport : T)

/-- What they answer. -/
inductive CacheAnswer (T : Type)
  | done
  | result (retval : ℤ)
  | found (r : Found T)
  | transports (ts : List T)
  | begun (acquired tracked : Bool)

namespace TransportCache

variable {E T : Type} [DecidableEq E] [DecidableEq T]

/-- **One operation.** -/
def step (cfg : CacheConfig) (c : TransportCache E T) :
    CacheOp E T → Option (TransportCache E T × CacheAnswer T)
  | .cacheTransport prop t state connected memory =>
    (c.cacheTransport cfg prop t state connected memory).map fun (c, r) => (c, .result r)
  | .findTransport prop busyCount => (c.findTransport prop busyCount).map fun (c, r) => (c, .found r)
  | .makeIdle t => (c.makeIdle t).map fun (c, r) => (c, .result r)
  | .markConnected t state => (c.markConnected t state).map fun c => (c, .done)
  | .setEntryState t state connected => (c.setEntryState t state connected).map fun c => (c, .done)
  | .purgeEntry t => (c.purgeEntry t).map fun (c, r) => (c, .result r)
  | .purgeEntryWhenPurgable s t => (c.purgeEntryWhenPurgable s t).map fun (c, r) => (c, .result r)
  | .purge s order memory => some ((c.purge cfg s order memory).map id .transports)
  | .purgeIdleTransports s => (c.purgeIdleTransports s).map fun (c, ts) => (c, .transports ts)
  | .close => some (c.close, .done)
  | .beginActiveRequest t =>
    let (c, acquired, tracked) := c.beginActiveRequest cfg t
    some (c, .begun acquired tracked)
  | .endActiveRequest t => (c.endActiveRequest t).map fun c => (c, .done)

end TransportCache

end AceTao
