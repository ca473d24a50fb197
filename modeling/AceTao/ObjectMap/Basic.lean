import AceTao.Poa.Key
import Mathlib.Data.Int.Notation
import Mathlib.Logic.Function.Basic

/-!
# `TAO_Active_Object_Map`: the code

The entries of a POA are found by their user ids (`user_id_map_`), by their servants when these are
unique (`servant_map_`), and by their system ids when these have a hint in front of the user id
(`system_id_map_`). Which of the maps there are, and what they are made of, depends on the policies
(`MapPolicies`).

A map is a function to the numbers of entries, and a pointer to an entry is its number; an access to
an entry that has been deleted has no answer, and neither has one to the key in an id that is too
short to hold one. The keys that active maps make up, and which allocations succeed, are parameters
of the operations (`Supply`).
-/

namespace AceTao

/-- `PortableServer::ObjectId`. -/
abbrev ObjectId : Type := List UInt8

/-- The bytes of an `ACE_Active_Map_Manager_Key`. -/
structure ActiveKey where
  bytes : List UInt8
  length_bytes : bytes.length = Poa.activeKeySize
  deriving DecidableEq

/-- `decode`: the key that an id begins with. -/
def ActiveKey.decode (id : ObjectId) : Option ActiveKey :=
  if h : Poa.activeKeySize ≤ id.length then
    some ⟨id.take Poa.activeKeySize, List.length_take_of_le h⟩
  else none

/-- **The policies of a POA**, and the creation parameters of its maps. -/
structure MapPolicies where
  userId : Bool
  uniqueId : Bool
  persistentId : Bool
  parameters : Poa.PoaConfig

namespace MapPolicies

/-- There are hints. -/
def activeHints (c : MapPolicies) : Bool :=
  (c.userId || c.parameters.allowReactivationOfSystemIds) && c.parameters.activeHintInIds

/-- `user_id_map_` is a `user_id_active_map`. -/
def activeUserIds (c : MapPolicies) : Bool :=
  !(c.userId || c.parameters.allowReactivationOfSystemIds) &&
    c.parameters.systemIds = .activeDemux

def usingActiveMaps (c : MapPolicies) : Bool := c.activeHints || c.activeUserIds

end MapPolicies

/-- **`TAO_Active_Object_Map_Entry`**. -/
structure ObjectEntry (S : Type) where
  userId : ObjectId
  systemId : ObjectId
  servant : Option S
  priority : ℤ
  deactivated : Bool

/-- What an operation is given by its surroundings. -/
structure Supply where
  /-- There is memory for an entry. -/
  entryMemory : Bool
  /-- There is memory in `user_id_map_` that is no active map. -/
  userIdMemory : Bool
  /-- The key that `user_id_map_` issues if it is an active map. -/
  userIdKey : Option ActiveKey
  /-- The key that `system_id_map_` issues. -/
  hintKey : Option ActiveKey
  /-- There is memory in `servant_map_`. -/
  servantMemory : Bool
  /-- There is memory for the id that is answered. -/
  answerMemory : Bool

/-- **`TAO_Active_Object_Map`**, with the entries that exist, and the counter of the key generator of
`user_id_map_`. -/
structure ActiveObjectMap (S : Type) where
  entries : ℕ → Option (ObjectEntry S)
  nextEntry : ℕ
  userIdMap : ObjectId → Option ℕ
  counter : ℕ
  servantMap : S → Option ℕ
  systemIdMap : ActiveKey → Option ℕ

namespace ActiveObjectMap

variable {S : Type}

/-- The maps of a new POA. -/
def empty : ActiveObjectMap S := ⟨fun _ => none, 0, fun _ => none, 0, fun _ => none, fun _ => none⟩

/-! ### Maps -/

section Maps

variable {K : Type} [DecidableEq K]

/-- **`bind`**: 1 if the key is bound. -/
def bind (map : K → Option ℕ) (key : K) (entry : ℕ) (memory : Bool) : (K → Option ℕ) × ℤ :=
  if (map key).isSome then (map, 1)
  else if memory then (Function.update map key (some entry), 0)
  else (map, -1)

/-- **`unbind`**. -/
def unbind (map : K → Option ℕ) (key : K) : (K → Option ℕ) × ℤ :=
  if (map key).isSome then (Function.update map key none, 0) else (map, -1)

end Maps

/-- The key under which `user_id_map_` has an id. -/
def userIdKey (c : MapPolicies) (id : ObjectId) : Option ObjectId :=
  if c.activeUserIds then (ActiveKey.decode id).map ActiveKey.bytes else some id

/-- `user_id_map_->find`. -/
def findUserId (c : MapPolicies) (id : ObjectId) (m : ActiveObjectMap S) : Option (Option ℕ) :=
  (userIdKey c id).map m.userIdMap

/-- `user_id_map_->bind`, which an active map does not support. -/
def bindUserId (c : MapPolicies) (id : ObjectId) (entry : ℕ) (memory : Bool)
    (m : ActiveObjectMap S) : ActiveObjectMap S × ℤ :=
  if c.activeUserIds then (m, -1)
  else
    let (map, r) := bind m.userIdMap id entry memory
    ({ m with userIdMap := map }, r)

/-- `user_id_map_->unbind`. -/
def unbindUserId (c : MapPolicies) (id : ObjectId) (m : ActiveObjectMap S) :
    Option (ActiveObjectMap S × ℤ) :=
  (userIdKey c id).map fun key =>
    let (map, r) := unbind m.userIdMap key
    ({ m with userIdMap := map }, r)

/-- `TAO_Incremental_Key_Generator`. -/
def generateKey (m : ActiveObjectMap S) : ActiveObjectMap S × ObjectId :=
  let counter := (m.counter + 1) % 2 ^ 32
  ({ m with counter }, ByteImage.leBytes Poa.counterSize counter)

/-- `user_id_map_->bind_create_key`: the key and the result. -/
def bindCreateKey (c : MapPolicies) (entry : ℕ) (supply : Supply) (m : ActiveObjectMap S) :
    ActiveObjectMap S × ObjectId × ℤ :=
  if c.activeUserIds then
    match supply.userIdKey with
    | none => (m, [], -1)
    | some key =>
      let (map, r) := bind m.userIdMap key.bytes entry true
      ({ m with userIdMap := map }, key.bytes, r)
  else
    let (m, key) := m.generateKey
    let (map, r) := bind m.userIdMap key entry supply.userIdMemory
    ({ m with userIdMap := map }, key, r)

/-- A change of an entry. -/
def modify (entry : ℕ) (f : ObjectEntry S → ObjectEntry S) (m : ActiveObjectMap S) :
    Option (ActiveObjectMap S) :=
  (m.entries entry).map fun e => { m with entries := Function.update m.entries entry (some (f e)) }

/-- `new`. -/
def newEntry (e : ObjectEntry S) (m : ActiveObjectMap S) : ActiveObjectMap S :=
  { m with entries := Function.update m.entries m.nextEntry (some e), nextEntry := m.nextEntry + 1 }

/-- `delete`. -/
def deleteEntry (entry : ℕ) (m : ActiveObjectMap S) : ActiveObjectMap S :=
  { m with entries := Function.update m.entries entry none }

/-! ### `TAO_Active_Hint_Strategy` and `TAO_No_Hint_Strategy` -/

/-- **`bind`** of a hint strategy. -/
def hintBind (c : MapPolicies) (entry : ℕ) (supply : Supply) (m : ActiveObjectMap S) :
    Option (ActiveObjectMap S × ℤ) :=
  if c.activeHints then
    (m.modify entry fun e => { e with systemId := e.userId }).bind fun m =>
      match supply.hintKey with
      | none => some (m, -1)
      | some key =>
        let (map, r) := bind m.systemIdMap key entry true
        if r = 0 then
          ({ m with systemIdMap := map }.modify entry fun e =>
            { e with systemId := key.bytes ++ e.systemId }).map fun m => (m, 0)
        else some (m, r)
  else some (m, 0)

/-- **`unbind`** of a hint strategy. -/
def hintUnbind (c : MapPolicies) (entry : ℕ) (m : ActiveObjectMap S) :
    Option (ActiveObjectMap S × ℤ) :=
  if c.activeHints then
    (m.entries entry).bind fun e =>
      (ActiveKey.decode e.systemId).map fun key =>
        let (map, r) := unbind m.systemIdMap key
        ({ m with systemIdMap := map }, r)
  else some (m, 0)

/-- **`find`** of a hint strategy. -/
def hintFind (c : MapPolicies) (systemId : ObjectId) (m : ActiveObjectMap S) : Option (Option ℕ) :=
  if c.activeHints then (ActiveKey.decode systemId).map m.systemIdMap else some none

/-- **`system_id`** of a hint strategy. -/
def hintSystemId (c : MapPolicies) (e : ObjectEntry S) : ObjectId :=
  if c.activeHints then e.systemId else e.userId

/-! ### The servants -/

variable [DecidableEq S]

/-- `servant_map_->bind`, for unique ids and a servant. -/
def bindServant (c : MapPolicies) (servant : Option S) (entry : ℕ) (supply : Supply)
    (m : ActiveObjectMap S) : ActiveObjectMap S × ℤ :=
  if c.uniqueId then
    match servant with
    | none => (m, 0)
    | some s =>
      let (map, r) := bind m.servantMap s entry supply.servantMemory
      ({ m with servantMap := map }, r)
  else (m, 0)

/-- `servant_map_->unbind`, for unique ids and a servant. -/
def unbindServant (c : MapPolicies) (servant : Option S) (m : ActiveObjectMap S) :
    ActiveObjectMap S × ℤ :=
  if c.uniqueId then
    match servant with
    | none => (m, 0)
    | some s =>
      let (map, r) := unbind m.servantMap s
      ({ m with servantMap := map }, r)
  else (m, 0)

/-! ### `TAO_Unique_Id_Strategy` and `TAO_Multiple_Id_Strategy` -/

/-- An id that is bound: its entry is given the servant. -/
def bindAgain (c : MapPolicies) (servant : Option S) (entry : ℕ) (supply : Supply)
    (m : ActiveObjectMap S) : Option (ActiveObjectMap S × ℤ) :=
  match servant with
  | none => some (m, 0)
  | some s =>
    (m.modify entry fun e => { e with servant := some s }).map fun m =>
      m.bindServant c (some s) entry supply

/-- An id that is not bound: its entry is bound in the maps, and unbound again from those that it has
been bound in when there is one that it cannot be bound in. -/
def bindNew (c : MapPolicies) (servant : Option S) (userId : ObjectId) (priority : ℤ)
    (supply : Supply) (m : ActiveObjectMap S) : Option (ActiveObjectMap S × ℤ) :=
  let entry := m.nextEntry
  ((m.newEntry ⟨userId, [], servant, priority, false⟩).hintBind c entry supply).bind fun (m, r) =>
    if r = 0 then
      let (m, r) := m.bindUserId c userId entry supply.userIdMemory
      if r = 0 then
        let (m, r) := m.bindServant c servant entry supply
        if r ≠ 0 then
          (m.unbindUserId c userId).bind fun (m, _) =>
            (m.hintUnbind c entry).map fun (m, _) => (m.deleteEntry entry, r)
        else some (m, 0)
      else (m.hintUnbind c entry).map fun (m, _) => (m.deleteEntry entry, r)
    else some (m.deleteEntry entry, r)

/-- **`bind_using_user_id`** of a uniqueness strategy: the entry and the result. Only unique ids have
a `servant_map_`. -/
def strategyBind (c : MapPolicies) (servant : Option S) (userId : ObjectId) (priority : ℤ)
    (supply : Supply) (m : ActiveObjectMap S) : Option (ActiveObjectMap S × ℕ × ℤ) :=
  (m.findUserId c userId).bind fun
    | some entry => (m.bindAgain c servant entry supply).map fun (m, r) => (m, entry, r)
    | none =>
      if supply.entryMemory then
        (m.bindNew c servant userId priority supply).map fun (m', r) => (m', m.nextEntry, r)
      else some (m, m.nextEntry, -1)

/-- **`unbind_using_user_id`** of a uniqueness strategy. -/
def strategyUnbind (c : MapPolicies) (userId : ObjectId) (m : ActiveObjectMap S) :
    Option (ActiveObjectMap S × ℤ) :=
  (m.findUserId c userId).bind fun
    | none => some (m, -1)
    | some entry =>
      (m.unbindUserId c userId).bind fun (m, _) =>
        (m.entries entry).bind fun e =>
          let (m, r) := m.unbindServant c e.servant
          if r = 0 then
            (m.hintUnbind c entry).map fun (m, r) =>
              if r = 0 then (m.deleteEntry entry, 0) else (m, r)
          else some (m, r)

/-! ### `TAO_Id_Assignment_Strategy` -/

/-- **`bind_using_system_id`** for system ids that have been created: the entry and the result. -/
def bindCreated (c : MapPolicies) (servant : Option S) (priority : ℤ) (supply : Supply)
    (m : ActiveObjectMap S) : Option (ActiveObjectMap S × ℕ × ℤ) :=
  let entry := m.nextEntry
  let (m, userId, r) :=
    (m.newEntry ⟨[], [], none, -1, false⟩).bindCreateKey c entry supply
  if r = 0 then
    (m.modify entry fun e => { e with userId, servant, priority }).bind fun m =>
      (m.hintBind c entry supply).bind fun (m, r) =>
        if r = 0 then
          let (m, r) := m.bindServant c servant entry supply
          if r ≠ 0 then
            (m.unbindUserId c userId).bind fun (m, _) =>
              (m.hintUnbind c entry).map fun (m, _) => (m.deleteEntry entry, entry, r)
          else some (m, entry, 0)
        else
          (m.unbindUserId c userId).map fun (m, _) => (m.deleteEntry entry, entry, r)
  else some (m.deleteEntry entry, entry, r)

/-- **`bind_using_system_id`** of an assignment strategy: that for user ids has none. -/
def assignmentBind (c : MapPolicies) (servant : Option S) (priority : ℤ) (supply : Supply)
    (m : ActiveObjectMap S) : Option (ActiveObjectMap S × ℕ × ℤ) :=
  if c.userId then some (m, m.nextEntry, -1)
  else if supply.entryMemory then m.bindCreated c servant priority supply
  else some (m, m.nextEntry, -1)

/-! ### `TAO_Active_Object_Map` -/

/-- The end of an operation that answers an id of an entry. -/
def answerId (id : ObjectEntry S → ObjectId) (supply : Supply) :
    ActiveObjectMap S × ℕ × ℤ → Option (ActiveObjectMap S × ℤ × Option ObjectId)
  | (m, entry, r) =>
    if r = 0 then
      (m.entries entry).map fun e => if supply.answerMemory then (m, 0, some (id e)) else (m, -1, none)
    else some (m, r, none)

/-- **`bind_using_system_id_returning_system_id`.** -/
def bindUsingSystemIdReturningSystemId (c : MapPolicies) (servant : Option S) (priority : ℤ)
    (supply : Supply) (m : ActiveObjectMap S) :
    Option (ActiveObjectMap S × ℤ × Option ObjectId) :=
  if servant.isNone && !c.usingActiveMaps then
    let (m, id) := m.generateKey
    some (if supply.answerMemory then (m, 0, some id) else (m, -1, none))
  else (m.assignmentBind c servant priority supply).bind (answerId (hintSystemId c) supply)

/-- **`bind_using_system_id_returning_user_id`.** -/
def bindUsingSystemIdReturningUserId (c : MapPolicies) (servant : Option S) (priority : ℤ)
    (supply : Supply) (m : ActiveObjectMap S) :
    Option (ActiveObjectMap S × ℤ × Option ObjectId) :=
  (m.assignmentBind c servant priority supply).bind (answerId ObjectEntry.userId supply)

/-- **`bind_using_user_id`.** -/
def bindUsingUserId (c : MapPolicies) (servant : Option S) (userId : ObjectId) (priority : ℤ)
    (supply : Supply) (m : ActiveObjectMap S) :
    Option (ActiveObjectMap S × ℤ × Option ObjectId) :=
  (m.strategyBind c servant userId priority supply).map fun (m, _, r) => (m, r, none)

/-- **`find_system_id_using_user_id`.** -/
def findSystemIdUsingUserId (c : MapPolicies) (userId : ObjectId) (priority : ℤ) (supply : Supply)
    (m : ActiveObjectMap S) : Option (ActiveObjectMap S × ℤ × Option ObjectId) :=
  if !c.usingActiveMaps then
    some (if supply.answerMemory then (m, 0, some userId) else (m, -1, none))
  else (m.strategyBind c none userId priority supply).bind (answerId (hintSystemId c) supply)

/-- **`unbind_using_user_id`.** -/
def unbindUsingUserId (c : MapPolicies) (userId : ObjectId) (m : ActiveObjectMap S) :
    Option (ActiveObjectMap S × ℤ × Option ObjectId) :=
  (m.strategyUnbind c userId).map fun (m, r) => (m, r, none)

/-- The servant of an entry that has been found. -/
def servantAt (entry : ℕ) (m : ActiveObjectMap S) : Option (Option (S × ℕ)) :=
  (m.entries entry).map fun e => if e.deactivated then none else e.servant.map (·, entry)

/-- **`find_servant_using_system_id_and_user_id`** of a lifespan strategy: the servant and the entry,
if it returns 0. That for persistent ids compares the user ids. -/
def findServant (c : MapPolicies) (systemId userId : ObjectId) (m : ActiveObjectMap S) :
    Option (Option (S × ℕ)) :=
  let byUserId := (m.findUserId c userId).bind fun
    | none => some none
    | some entry => m.servantAt entry
  (m.hintFind c systemId).bind fun
    | none => byUserId
    | some entry =>
      (m.entries entry).bind fun e =>
        if c.persistentId && userId ≠ e.userId then byUserId else m.servantAt entry

end ActiveObjectMap

/-! ### Runs -/

/-- The operations. -/
inductive ObjectMapOp (S : Type)
  | bindUsingSystemIdReturningSystemId (servant : Option S) (priority : ℤ)
  | bindUsingSystemIdReturningUserId (servant : Option S) (priority : ℤ)
  | bindUsingUserId (servant : Option S) (userId : ObjectId) (priority : ℤ)
  | findSystemIdUsingUserId (userId : ObjectId) (priority : ℤ)
  | unbindUsingUserId (userId : ObjectId)

/-- **One operation**, with what it is given: its result and the id it answers. -/
def ActiveObjectMap.step {S : Type} [DecidableEq S] (c : MapPolicies) (m : ActiveObjectMap S) :
    ObjectMapOp S × Supply → Option (ActiveObjectMap S × ℤ × Option ObjectId)
  | (.bindUsingSystemIdReturningSystemId servant priority, supply) =>
    m.bindUsingSystemIdReturningSystemId c servant priority supply
  | (.bindUsingSystemIdReturningUserId servant priority, supply) =>
    m.bindUsingSystemIdReturningUserId c servant priority supply
  | (.bindUsingUserId servant userId priority, supply) =>
    m.bindUsingUserId c servant userId priority supply
  | (.findSystemIdUsingUserId userId priority, supply) =>
    m.findSystemIdUsingUserId c userId priority supply
  | (.unbindUsingUserId userId, _) => m.unbindUsingUserId c userId

end AceTao
