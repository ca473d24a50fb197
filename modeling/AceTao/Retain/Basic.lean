import AceTao.Library.Machine
import AceTao.Library.Keyed

/-!
# The activations of a POA that retains its servants

An entry of the active object map is made for an object id, and has a count of references: one for
the activation, and one for each upcall on its servant. `deactivate_map_entry` gives up the first,
`servant_cleanup` one of the others, and who takes the count to zero cleans the servant up and
unbinds the entry.

Every section under the lock of the object adapter is one step. Where the servant or the servant
activator is called (`etherealize`, `incarnate`, `_add_ref`, `_remove_ref`) the lock is released, but
other threads wait until the call has returned: a step ends there, and what is left to do is kept as a
`NonServantUpcall`. These calls nest, as the servant may call the POA. A step has no answer where the
code uses an entry that has been deleted.

The history of an entry, and the upcalls that are in progress, are kept beside the state of the code.
There is memory, the ids that the POA generates are given to the step, and the priorities, the hints
in system ids and the hooks of custom dispatching are left out.
-/

namespace AceTao

/-! ### States -/

/-- **`TAO_Active_Object_Map_Entry`**, with the fields that decide about its clean-up. -/
structure RetainedEntry (I S : Type) where
  userId : I
  servant : Option S
  deactivated : Bool
  referenceCount : BitVec 16

/-- What happens to an entry. -/
inductive EntryEvent
  | activated
  | deactivated
  | cleanup
  | unbound
  deriving DecidableEq

/-- **`Non_Servant_Upcall`**: the call that is in progress, and what is left to do behind it. -/
inductive NonServantUpcall (I : Type)
  /-- `_add_ref`, the last that an activation does. -/
  | addRef
  /-- `incarnate` for a request. -/
  | incarnate (id : I)
  /-- `etherealize` or `_remove_ref` in `cleanup_servant`, and the entries that
  `deactivate_all_objects` has yet to deactivate. -/
  | cleanupServant (etherealize : Bool) (entry : ℕ) (rest : List ℕ)

/-- The policies that matter here. -/
structure RetainPolicies where
  uniqueId : Bool
  servantActivator : Bool

/-- **The POA and the threads in it.** -/
structure RetainPoa (I S T : Type) where
  entries : ℕ → Option (RetainedEntry I S)
  nextEntry : ℕ
  userIdMap : I → Option ℕ
  servantMap : S → Option ℕ
  etherealizeObjects : Bool
  /-- `non_servant_upcall_thread_`. -/
  thread : Option T
  /-- The non-servant upcalls in progress, the innermost first. -/
  nonServantUpcalls : List (NonServantUpcall I)
  /-- The upcalls in progress, each with its `active_object_map_entry_`. -/
  upcalls : List (T × ℕ)
  history : ℕ → List EntryEvent

/-- How a section under the lock ends. -/
inductive RetainAnswer
  | returned
  | raised
  /-- The thread waits, and makes the call again. -/
  | waits
  /-- The lock is released for a non-servant upcall. -/
  | released
  /-- The servant of the entry is called. -/
  | upcall (entry : ℕ)
  /-- There is nothing that could end so. -/
  | impossible
  deriving DecidableEq

/-- What a non-servant upcall returns. -/
inductive UpcallResult (S : Type)
  | servant (s : S)
  | nothing
  | raised

/-- A section under the lock. -/
inductive RetainOp (I S T : Type)
  | activateObject (thread : T) (id : I) (servant : S)
  | activateObjectWithId (thread : T) (id : I) (servant : S)
  | createReference (thread : T) (id : I)
  | beginUpcall (thread : T) (id : I)
  | endUpcall (thread : T) (entry : ℕ)
  | deactivateObject (thread : T) (id : I)
  | deactivateAllObjects (thread : T) (etherealizeObjects : Bool) (order : List ℕ)
  | returnNonServantUpcall (thread : T) (result : UpcallResult S)

def RetainOp.thread {I S T : Type} : RetainOp I S T → T
  | .activateObject t .. | .activateObjectWithId t .. | .createReference t _ | .beginUpcall t _
  | .endUpcall t _ | .deactivateObject t _ | .deactivateAllObjects t .. |
    .returnNonServantUpcall t _ => t

namespace RetainPoa

variable {I S T : Type}

/-- A new POA. -/
def empty : RetainPoa I S T :=
  ⟨fun _ => none, 0, fun _ => none, fun _ => none, true, none, [], [], fun _ => []⟩

/-- The number of upcalls in progress on an entry. -/
def upcallsOn (s : RetainPoa I S T) (p : ℕ) : ℕ := (s.upcalls.map Prod.snd).count p

/-! ### Entries -/

def setEntry (p : ℕ) (e : Option (RetainedEntry I S)) (s : RetainPoa I S T) : RetainPoa I S T :=
  { s with entries := Function.update s.entries p e }

def record (p : ℕ) (event : EntryEvent) (s : RetainPoa I S T) : RetainPoa I S T :=
  { s with history := Function.update s.history p (s.history p ++ [event]) }

/-- The lock is released to the thread for a non-servant upcall. -/
def releaseLock (t : T) (u : NonServantUpcall I) (s : RetainPoa I S T) : RetainPoa I S T :=
  { s with
    thread := some t
    nonServantUpcalls := u :: s.nonServantUpcalls }

/-- `increment_servant_refcount`, for the upcall of a thread. -/
def incrementServantRefcount (t : T) (p : ℕ) (s : RetainPoa I S T) :
    Option (RetainPoa I S T × RetainAnswer) :=
  (s.entries p).map fun e =>
    let s := s.setEntry p (some { e with referenceCount := e.referenceCount + 1 })
    ({ s with upcalls := (t, p) :: s.upcalls }, .upcall p)

/-! ### The maps -/

variable [DecidableEq I] [DecidableEq S]

/-- **`bind_using_user_id`** of a uniqueness strategy: the entry, and whether it is bound. -/
def bindUsingUserId (c : RetainPolicies) (servant : Option S) (id : I) (s : RetainPoa I S T) :
    Option (RetainPoa I S T × ℕ × Bool) :=
  let key := if c.uniqueId then servant else none
  let taken := key.any fun v => (s.servantMap v).isSome
  match s.userIdMap id with
  | some p =>
    (s.entries p).map fun e =>
      let s := if servant.isSome then s.setEntry p (some { e with servant }) else s
      if taken then (s, p, false)
      else ({ s with servantMap := StoreIndex.setKey s.servantMap key (some p) }, p, true)
  | none =>
    let p := s.nextEntry
    let s := { s with nextEntry := p + 1 }
    -- the entry is bound in the maps, and unbound again and deleted if its servant is not
    if taken then some (s, p, false)
    else some ({ s.setEntry p (some ⟨id, servant, false, 1⟩) with
      userIdMap := Function.update s.userIdMap id (some p)
      servantMap := StoreIndex.setKey s.servantMap key (some p) }, p, true)

/-- **`unbind_using_user_id`**: whether the entry is unbound. -/
def unbindUsingUserId (c : RetainPolicies) (id : I) (s : RetainPoa I S T) :
    Option (RetainPoa I S T × Bool) :=
  match s.userIdMap id with
  | none => some (s, false)
  | some p =>
    (s.entries p).map fun e =>
      let key := if c.uniqueId then e.servant else none
      let s := { s with userIdMap := Function.update s.userIdMap id none }
      if key.any fun v => (s.servantMap v).isNone then (s, false)
      else (({ s with servantMap := StoreIndex.setKey s.servantMap key none }.setEntry p
        none).record p .unbound, true)

/-! ### Clean-up -/

/-- The end of `cleanup_servant`: `unbind_using_user_id` with the id of the entry. -/
def unbindEntry (c : RetainPolicies) (p : ℕ) (s : RetainPoa I S T) :
    Option (RetainPoa I S T × RetainAnswer) :=
  (s.entries p).bind fun e =>
    (s.unbindUsingUserId c e.userId).map fun (s, unbound) =>
      (s, if unbound then .returned else .raised)

/-- **`cleanup_servant`** of a request processing strategy. -/
def cleanupServant (c : RetainPolicies) (t : T) (p : ℕ) (rest : List ℕ) (s : RetainPoa I S T) :
    Option (RetainPoa I S T × RetainAnswer) :=
  (s.entries p).bind fun e =>
    let s := s.record p .cleanup
    if e.servant.isSome then
      some (s.releaseLock t (.cleanupServant (c.servantActivator && s.etherealizeObjects) p rest),
        .released)
    else s.unbindEntry c p

/-- **`deactivate_map_entry`.** -/
def deactivateMapEntry (c : RetainPolicies) (t : T) (p : ℕ) (rest : List ℕ) (s : RetainPoa I S T) :
    Option (RetainPoa I S T × RetainAnswer) :=
  (s.entries p).bind fun e =>
    let newCount := e.referenceCount - 1
    let s := s.record p .deactivated
    if newCount = 0 then
      (s.setEntry p (some { e with referenceCount := newCount })).cleanupServant c t p rest
    else
      some (s.setEntry p (some { e with
        referenceCount := newCount
        deactivated := true }), .returned)

/-- The loop of **`deactivate_all_objects`**: it goes on when the entry is dealt with. -/
def deactivateEntries (c : RetainPolicies) (t : T) :
    List ℕ → RetainPoa I S T → Option (RetainPoa I S T × RetainAnswer)
  | [], s => some (s, .returned)
  | p :: rest, s =>
    (s.deactivateMapEntry c t p rest).bind fun (s, a) =>
      if a = .returned then deactivateEntries c t rest s else some (s, a)

/-! ### Activation -/

/-- An entry that is there already: the thread waits for one that is deactivated. -/
def refuse (e : RetainedEntry I S) : RetainAnswer := if e.deactivated then .waits else .raised

/-- **`is_servant_activation_allowed`**: the answer when it is not. -/
def servantActivationAllowed (c : RetainPolicies) (v : S) (s : RetainPoa I S T) :
    Option (Option RetainAnswer) :=
  if c.uniqueId then
    match s.servantMap v with
    | none => some none
    | some p => (s.entries p).map fun e => some (refuse e)
  else some none

/-- The servant is bound, and its `_add_ref` called. -/
def activate (c : RetainPolicies) (t : T) (id : I) (v : S) (s : RetainPoa I S T) :
    Option (RetainPoa I S T × RetainAnswer) :=
  (s.bindUsingUserId c (some v) id).map fun (s, p, bound) =>
    if bound then ((s.record p .activated).releaseLock t .addRef, .released) else (s, .raised)

/-- **`activate_object`**, with the id that is generated. -/
def activateObject (c : RetainPolicies) (t : T) (id : I) (v : S) (s : RetainPoa I S T) :
    Option (RetainPoa I S T × RetainAnswer) :=
  (s.servantActivationAllowed c v).bind fun
    | some a => some (s, a)
    | none => if (s.userIdMap id).isSome then some (s, .raised) else s.activate c t id v

/-- **`activate_object_with_id`.** -/
def activateObjectWithId (c : RetainPolicies) (t : T) (id : I) (v : S) (s : RetainPoa I S T) :
    Option (RetainPoa I S T × RetainAnswer) :=
  let free := (s.servantActivationAllowed c v).bind fun
    | some a => some (s, a)
    | none => s.activate c t id v
  match s.userIdMap id with
  | none => free
  | some p => (s.entries p).bind fun e => if e.servant.isSome then some (s, refuse e) else free

/-- `create_reference` and `create_reference_with_id`, with ids that have entries. -/
def createReference (c : RetainPolicies) (id : I) (s : RetainPoa I S T) :
    Option (RetainPoa I S T × RetainAnswer) :=
  (s.bindUsingUserId c none id).map fun (s, _, bound) =>
    (s, if bound then .returned else .raised)

/-! ### Upcalls -/

/-- The request is for no servant that is active: a servant activator is called. -/
def locateServant (c : RetainPolicies) (t : T) (id : I) (s : RetainPoa I S T) :
    RetainPoa I S T × RetainAnswer :=
  if c.servantActivator then (s.releaseLock t (.incarnate id), .released) else (s, .raised)

/-- **`prepare_for_upcall`**: `find_servant`, and the servant activator. -/
def beginUpcall (c : RetainPolicies) (t : T) (id : I) (s : RetainPoa I S T) :
    Option (RetainPoa I S T × RetainAnswer) :=
  match s.userIdMap id with
  | none => some (s.locateServant c t id)
  | some p =>
    (s.entries p).bind fun e =>
      if e.deactivated || e.servant.isNone then some (s.locateServant c t id)
      else s.incrementServantRefcount t p

/-- The servant activator has incarnated a servant: **`rebind_using_user_id_and_system_id`**. -/
def rebind (c : RetainPolicies) (t : T) (id : I) (v : S) (s : RetainPoa I S T) :
    Option (RetainPoa I S T × RetainAnswer) :=
  (s.servantActivationAllowed c v).bind fun
    | some _ => some (s, .raised)
    | none =>
      (s.bindUsingUserId c (some v) id).bind fun (s, p, bound) =>
        if bound then (s.record p .activated).incrementServantRefcount t p else some (s, .raised)

variable [DecidableEq T]

/-- **`upcall_cleanup`**: `servant_cleanup`. -/
def endUpcall (c : RetainPolicies) (t : T) (p : ℕ) (s : RetainPoa I S T) :
    Option (RetainPoa I S T × RetainAnswer) :=
  if (t, p) ∈ s.upcalls then
    (s.entries p).bind fun e =>
      let newCount := e.referenceCount - 1
      let s := s.setEntry p (some { e with referenceCount := newCount })
      let s := { s with upcalls := s.upcalls.erase (t, p) }
      if newCount = 0 then s.cleanupServant c t p [] else some (s, .returned)
  else some (s, .impossible)

/-! ### Steps -/

/-- **`deactivate_object`.** -/
def deactivateObject (c : RetainPolicies) (t : T) (id : I) (s : RetainPoa I S T) :
    Option (RetainPoa I S T × RetainAnswer) :=
  match s.userIdMap id with
  | none => some (s, .raised)
  | some p =>
    (s.entries p).bind fun e =>
      if e.deactivated then some (s, .raised) else s.deactivateMapEntry c t p []

/-- The order in which `user_id_map_` has its entries. -/
def IterationOrder (s : RetainPoa I S T) (order : List ℕ) : Prop :=
  order.Nodup ∧ (∀ p ∈ order, (s.entries p).any fun e => s.userIdMap e.userId = some p) ∧
    ∀ p < s.nextEntry, ((s.entries p).any fun e => s.userIdMap e.userId = some p) → p ∈ order

instance (s : RetainPoa I S T) (order : List ℕ) : Decidable (s.IterationOrder order) :=
  inferInstanceAs (Decidable (_ ∧ _ ∧ _))

/-- **`deactivate_all_objects`**, for the entries that are not deactivated. -/
def deactivateAllObjects (c : RetainPolicies) (t : T) (etherealizeObjects : Bool) (order : List ℕ)
    (s : RetainPoa I S T) : Option (RetainPoa I S T × RetainAnswer) :=
  if s.IterationOrder order then
    { s with etherealizeObjects }.deactivateEntries c t
      (order.filter fun p => (s.entries p).any fun e => !RetainedEntry.deactivated e)
  else some (s, .impossible)

/-- **The innermost non-servant upcall returns.** -/
def returnNonServantUpcall (c : RetainPolicies) (t : T) (result : UpcallResult S)
    (s : RetainPoa I S T) : Option (RetainPoa I S T × RetainAnswer) :=
  match s.nonServantUpcalls with
  | [] => some (s, .impossible)
  | u :: us =>
    let s := { s with
      thread := if us.isEmpty then none else s.thread
      nonServantUpcalls := us }
    match u, result with
    | .addRef, .raised => some (s, .raised)
    | .addRef, _ => some (s, .returned)
    | .incarnate id, .servant v => s.rebind c t id v
    | .incarnate _, _ => some (s, .raised)
    -- an exception of `etherealize` is not caught
    | .cleanupServant true _ _, .raised => some (s, .raised)
    | .cleanupServant _ p rest, _ =>
      (s.unbindEntry c p).bind fun (s, a) =>
        if a = .returned then s.deactivateEntries c t rest else some (s, a)

/-- **A section under the lock.** A thread waits while another one has a non-servant upcall in
progress. -/
def step (c : RetainPolicies) (s : RetainPoa I S T) (op : RetainOp I S T) :
    Option (RetainPoa I S T × RetainAnswer) :=
  if s.thread.any (· ≠ op.thread) then some (s, .waits)
  else
    match op with
    | .activateObject t id v => s.activateObject c t id v
    | .activateObjectWithId t id v => s.activateObjectWithId c t id v
    | .createReference _ id => s.createReference c id
    | .beginUpcall t id => s.beginUpcall c t id
    | .endUpcall t p => s.endUpcall c t p
    | .deactivateObject t id => s.deactivateObject c t id
    | .deactivateAllObjects t etherealizeObjects order =>
      s.deactivateAllObjects c t etherealizeObjects order
    | .returnNonServantUpcall t result => s.returnNonServantUpcall c t result

end RetainPoa

end AceTao
