import AceTao.ActiveMap.Runs
import AceTao.Library.Program
import AceTao.Poa.KeySafety

/-!
# The object adapter and its tree of POAs: the code

The object adapter finds the POA a request is for. Every POA has a folded name, the names on the way
from the root to it, each followed by the separator, which is a zero octet. The persistent POAs are
bound in a map by their folded names. With active hints they are also bound in an active map, whose
key of 8 octets is put in front of the folded name. `find_persistent_poa` tries the hint, then the
name, and at last goes down the tree (`activatePoa`), where adapter activators may create the POAs
that are missing.

A POA is the number of its creation; the application holds a reference to each, so that a destroyed
POA is still there to be read, and an allocation for the map of the children succeeds. The
operations of the application are the steps `PoaOp`. They also happen during the upcalls of adapter
activators, which are a parameter of a lookup: a list of the operations of each upcall and its
result, used up one by one, and a POA that finds none left has no activator. An object that is
etherealized by the destruction of a POA can do what the operations between a destruction that waits
and its completion can do. A read outside a buffer or behind the array of the active map ends in
`outside`; what the code would do then is not defined.
-/

namespace AceTao

namespace ObjectAdapter

abbrev PoaName := List UInt8

/-- `name_separator`. -/
def nameSeparator : UInt8 := 0

/-- `TAO_DEFAULT_ROOTPOA_NAME`: `"RootPOA"`. -/
def rootPoaName : PoaName := [82, 111, 111, 116, 80, 79, 65]

/-! ### The state -/

/-- **`TAO_Root_POA`**, the root or another POA. -/
structure RootPoa where
  name : PoaName
  parent : Option ℕ
  persistent : Bool
  foldedName : PoaName
  systemName : PoaName
  children : List (PoaName × ℕ)
  cleanupInProgress : Bool
  waitingDestruction : Bool

end ObjectAdapter

/-- **`TAO_Object_Adapter`**, with all the POAs that have been constructed. -/
structure ObjectAdapter where
  poas : List ObjectAdapter.RootPoa
  root : Option ℕ
  persistentPoaNameMap : List (ObjectAdapter.PoaName × ℕ)
  persistentPoaSystemMap : ActiveMap ℕ

namespace ObjectAdapter

/-- `use_active_hint_in_poa_names_`, `poa_map_size_` and `ACE_HAS_LAZY_MAP_MANAGER`. -/
structure AdapterConfig where
  useActiveHintInPoaNames : Bool
  poaMapSize : ℕ
  lazyMap : Bool

/-- The exceptions. One of the system exceptions of an adapter activator is like another. -/
inductive AdapterException
  | objAdapter | badInvOrder | adapterNonExistent | adapterAlreadyExists | activator | outside
  deriving DecidableEq

abbrev Action := Program ObjectAdapter AdapterException

/-- A POA is read through its pointer. -/
def poaAt (poa : ℕ) : Action RootPoa := do
  let s ← Program.get
  match s.poas[poa]? with
  | some p => pure p
  | none => Program.undefined

def modifyPoa (poa : ℕ) (f : RootPoa → RootPoa) : Action Unit :=
  Program.modify fun s => { s with poas := s.poas.modify poa f }

/-- What has been read, if it could be. -/
def ofRead {α : Type} (value : Option α) : Action α := value.elim (Program.throw .outside) pure

/-! ### The maps of the persistent POAs -/

/-- `bind` of the map of the names, where there is memory: whether the result is 0. -/
def bindName (memory : Bool) (foldedName : PoaName) (poa : ℕ) : Action Bool := do
  let s ← Program.get
  if memory && (s.persistentPoaNameMap.lookup foldedName).isNone then
    Program.modify fun s =>
      { s with persistentPoaNameMap := (foldedName, poa) :: s.persistentPoaNameMap }
    pure true
  else pure false

/-- `unbind` of the map of the names. -/
def unbindName (foldedName : PoaName) : Action Bool := do
  let s ← Program.get
  if (s.persistentPoaNameMap.lookup foldedName).isSome then
    Program.modify fun s => { s with
      persistentPoaNameMap := s.persistentPoaNameMap.eraseP fun entry => entry.1 = foldedName }
    pure true
  else pure false

/-- **`ACE_Active_Map_Manager_Key::encode`**. -/
def encodeKey (key : MapKey) : PoaName :=
  ByteImage.leBytes 4 key.slotIndex ++ ByteImage.leBytes 4 key.slotGeneration

/-- **`ACE_Active_Map_Manager_Key::decode`**, if the octets are there. -/
def decodeKey (systemName : PoaName) : Option MapKey :=
  (Poa.readOctets systemName 0 Poa.activeKeySize).map fun octets =>
    ⟨ByteImage.ofLeBytes (octets.take 4), ByteImage.ofLeBytes (octets.drop 4)⟩

/-- **`recover_key`**: the name behind the hint, as far as it can be read. -/
def recoverKey (systemName : PoaName) : Option PoaName :=
  Poa.readOctets systemName Poa.activeKeySize
    (Poa.subULong systemName.length Poa.activeKeySize)

/-- `bind_modify_key` of the active map, with the modified key if the result is 0. -/
def bindSystemName (c : AdapterConfig) (memory : Bool) (foldedName : PoaName) (poa : ℕ) :
    Action (Option PoaName) := do
  let s ← Program.get
  match s.persistentPoaSystemMap.bind c.lazyMap
      (memory && decide (ActiveMap.CanGrow s.persistentPoaSystemMap)) poa with
  | none => Program.undefined
  | some (map, key) =>
    Program.modify fun s => { s with persistentPoaSystemMap := map }
    pure (key.map fun key => encodeKey key ++ foldedName)

/-- `unbind` of the active map. -/
def unbindSystemName (c : AdapterConfig) (systemName : PoaName) : Action Bool := do
  let s ← Program.get
  let key ← ofRead (decodeKey systemName)
  let (map, value) ← ofRead (s.persistentPoaSystemMap.unbind c.lazyMap key)
  Program.modify fun s => { s with persistentPoaSystemMap := map }
  pure value.isSome

/-- What is to be had when a POA is created: memory in the two maps, a place in the map of the
transient POAs, and the start of the implementation repository. -/
structure Resources where
  systemMap : Bool
  nameMap : Bool
  transientMap : Bool
  startup : Bool

/-- **`bind_persistent_poa`** of `Active_Hint_Strategy` and `No_Hint_Strategy`, with the system name
if the result is 0. -/
def bindPersistentPoa (c : AdapterConfig) (r : Resources) (foldedName : PoaName) (poa : ℕ) :
    Action (Option PoaName) :=
  if c.useActiveHintInPoaNames then do
    let name ← bindSystemName c r.systemMap foldedName poa
    match name with
    | none => pure none
    | some name =>
      let bound ← bindName r.nameMap foldedName poa
      if bound then pure (some name)
      else
        let _ ← unbindSystemName c name
        pure none
  else do
    let bound ← bindName r.nameMap foldedName poa
    pure (if bound then some foldedName else none)

/-- **`unbind_persistent_poa`**. -/
def unbindPersistentPoa (c : AdapterConfig) (foldedName systemName : PoaName) : Action Bool :=
  if c.useActiveHintInPoaNames then do
    let unbound ← unbindSystemName c systemName
    if unbound then unbindName foldedName else pure false
  else unbindName foldedName

/-- **`bind_poa`**. A transient POA goes to a map that no persistent lookup reads. -/
def bindPoa (c : AdapterConfig) (r : Resources) (persistent : Bool) (foldedName : PoaName)
    (poa : ℕ) : Action (Option PoaName) :=
  if persistent then bindPersistentPoa c r foldedName poa
  else pure (if r.transientMap then some [] else none)

/-- **`unbind_poa`**. -/
def unbindPoa (c : AdapterConfig) (persistent : Bool) (foldedName systemName : PoaName) :
    Action Bool :=
  if persistent then unbindPersistentPoa c foldedName systemName else pure true

/-! ### Creation -/

/-- **`set_folded_name`**, of a POA that has a parent. -/
def foldName (parentName name : PoaName) : PoaName := parentName ++ name ++ [nameSeparator]

/-- What an `ACE_CString` takes from a C string. -/
def cString (s : PoaName) : PoaName := s.takeWhile (· ≠ 0)

/-- The part of the constructor that makes a POA known to the object adapter. -/
def registerPoa (c : AdapterConfig) (r : Resources) (persistent : Bool) (foldedName : PoaName)
    (poa : ℕ) : Action ℕ := do
  let systemName ← bindPoa c r persistent foldedName poa
  match systemName with
  | none => Program.throw .objAdapter
  | some systemName =>
    modifyPoa poa fun p => { p with systemName := systemName }
    if r.startup then pure poa
    else
      let _ ← unbindPoa c persistent foldedName systemName
      Program.throw .activator

/-- The constructor, for a POA that has a parent. A folded name whose length does not fit in a
`CORBA::ULong` is written outside its buffer. -/
def newPoa (c : AdapterConfig) (r : Resources) (parent : ℕ) (name : PoaName) (persistent : Bool) :
    Action ℕ := do
  let p ← poaAt parent
  let foldedName := foldName p.foldedName name
  if 2 ^ 32 ≤ foldedName.length then Program.throw .outside
  else
    let s ← Program.get
    Program.modify fun s => { s with
      poas := s.poas ++ [⟨name, some parent, persistent, foldedName, [], [], false, false⟩] }
    registerPoa c r persistent foldedName s.poas.length

/-- **`create_POA`**. -/
def createPoa (c : AdapterConfig) (r : Resources) (parent : ℕ) (adapterName : List UInt8)
    (persistent : Bool) : Action Unit := do
  let p ← poaAt parent
  if p.cleanupInProgress then Program.throw .badInvOrder
  else if (p.children.lookup (cString adapterName)).isSome then
    Program.throw .adapterAlreadyExists
  else
    let poa ← newPoa c r parent (cString adapterName) persistent
    modifyPoa parent fun p => { p with children := (cString adapterName, poa) :: p.children }

/-! ### Destruction -/

/-- **`complete_destruction_i`**. -/
def completeDestructionI (c : AdapterConfig) (poa : ℕ) : Action Unit := do
  modifyPoa poa fun p => { p with waitingDestruction := false }
  let p ← poaAt poa
  let unbound ← unbindPoa c p.persistent p.foldedName p.systemName
  if unbound then pure () else Program.throw .objAdapter

/-- **`delete_child`**: whether the result is 0. -/
def deleteChild (poa : ℕ) (child : PoaName) : Action Bool := do
  let p ← poaAt poa
  if p.cleanupInProgress then pure true
  else if (p.children.lookup child).isSome then
    modifyPoa poa fun p => { p with children := p.children.eraseP fun entry => entry.1 = child }
    pure true
  else pure false

/-- **`remove_from_parent_i`**. -/
def removeFromParentI (poa : ℕ) : Action Unit := do
  let p ← poaAt poa
  match p.parent with
  | none => pure ()
  | some parent =>
    let deleted ← deleteChild parent p.name
    if deleted then pure () else Program.throw .objAdapter

/-- A loop over the children of a POA. -/
def forEach (f : ℕ → Action Unit) : List (PoaName × ℕ) → Action Unit
  | [] => pure ()
  | child :: children => do
    f child.2
    forEach f children

/-- **`destroy_i`**, with the POAs that have outstanding requests or are the POA of an upcall. -/
def destroyI (c : AdapterConfig) (outstanding : List ℕ) : ℕ → ℕ → Action Unit
  | 0, _ => Program.undefined
  | fuel + 1, poa => do
    let p ← poaAt poa
    if p.cleanupInProgress then pure ()
    else
      modifyPoa poa fun p => { p with cleanupInProgress := true }
      removeFromParentI poa
      let p ← poaAt poa
      forEach (destroyI c outstanding fuel) p.children
      if poa ∈ outstanding then modifyPoa poa fun p => { p with waitingDestruction := true }
      else completeDestructionI c poa

/-! ### The operations of the application -/

inductive PoaOp
  | create (parent : ℕ) (adapterName : List UInt8) (persistent : Bool) (r : Resources)
  | destroy (poa : ℕ) (outstanding : List ℕ) (fuel : ℕ)
  /-- The last outstanding request of a POA is done. -/
  | lastRequest (poa : ℕ)
  /-- The beginning of `TAO_Object_Adapter::close`, which goes on to destroy the root POA. -/
  | close

def perform (c : AdapterConfig) : PoaOp → Action Unit
  | .create parent adapterName persistent r => createPoa c r parent adapterName persistent
  | .destroy poa outstanding fuel => destroyI c outstanding fuel poa
  | .lastRequest poa => do
    let p ← poaAt poa
    if p.waitingDestruction then completeDestructionI c poa else pure ()
  | .close => Program.modify fun s => { s with root := none }

/-- **The machine.** -/
def step (c : AdapterConfig) (s : ObjectAdapter) (op : PoaOp) :
    Option (ObjectAdapter × Except AdapterException Unit) :=
  (perform c op s).map Prod.swap

/-- **`open`**: the root POA is transient and has no parent. -/
def openAdapter (c : AdapterConfig) : Option ObjectAdapter :=
  let map := if c.useActiveHintInPoaNames then ActiveMap.openMap c.poaMapSize else some .closed
  map.map fun map =>
    { poas := [⟨rootPoaName, none, false, foldName [] rootPoaName, [], [], false, false⟩]
      root := some 0
      persistentPoaNameMap := []
      persistentPoaSystemMap := map }

/-! ### The components of a name -/

/-- **`poa_name_iterator`**. -/
structure PoaNameIterator where
  position : ℕ
  foldedBuffer : PoaName
  lastSeparator : ℕ

namespace PoaNameIterator

/-- **`operator++`**: the position of the next separator, or behind the name. -/
def next (it : PoaNameIterator) : PoaNameIterator :=
  let start := (it.position + 1) % 2 ^ 32
  { it with
    lastSeparator := it.position
    position := start + (it.foldedBuffer.drop start).findIdx (· == nameSeparator) }

/-- **`operator*`**: the octets between the last separator and the position. -/
def component (it : PoaNameIterator) : Option PoaName :=
  Poa.readOctets it.foldedBuffer ((it.lastSeparator + 1) % 2 ^ 32)
    (((it.position : ℤ) - it.lastSeparator - 1) % 2 ^ 32).toNat

/-- `begin`. -/
def start (name : PoaName) : PoaNameIterator := next ⟨2 ^ 32 - 1, name, 2 ^ 32 - 1⟩

end PoaNameIterator

/-! ### Lookup -/

/-- **`unknown_adapter`**: what happens during the call, and its result, unless it raises a system
exception or the state of the POA manager does. -/
structure Upcall where
  ops : List PoaOp
  success : Option Bool

/-- What happens during an upcall. -/
def during (c : AdapterConfig) (ops : List PoaOp) : Action Unit := fun s =>
  (Machine.run (step c) s ops).map fun r => (.ok (), r.1)

/-- `find` of the map of the children, with the child if the result is 0. -/
def findChild (childName : PoaName) (poa : ℕ) : Action (Option ℕ) := do
  let p ← poaAt poa
  pure (p.children.lookup childName)

/-- **`find_POA_i`**, which may activate, with the upcalls that are left. -/
def findPoaI (c : AdapterConfig) (childName : PoaName) (poa : ℕ) (upcalls : List Upcall) :
    Action (ℕ × List Upcall) := do
  let child ← findChild childName poa
  match child, upcalls with
  | some child, upcalls => pure (child, upcalls)
  | none, [] => Program.throw .adapterNonExistent
  | none, upcall :: upcalls =>
    during c upcall.ops
    match upcall.success with
    | none => Program.throw .activator
    | some false => Program.throw .adapterNonExistent
    | some true =>
      let child ← findChild childName poa
      match child with
      | some child => pure (child, upcalls)
      | none => Program.throw .adapterNonExistent

/-- The loop of `activate_poa`. -/
def activateLoop (c : AdapterConfig) : ℕ → PoaNameIterator → List Upcall → ℕ → Action ℕ
  | 0, _, _, _ => Program.undefined
  | fuel + 1, it, upcalls, parent =>
    if it.position = it.foldedBuffer.length then pure parent
    else do
      let component ← ofRead it.component
      let (current, upcalls) ← findPoaI c component parent upcalls
      activateLoop c fuel it.next upcalls current

/-- **`activate_poa`**, with the POA if the result is 0. -/
def activatePoa (c : AdapterConfig) (fuel : ℕ) (upcalls : List Upcall) (foldedName : PoaName) :
    Action (Option ℕ) := do
  let s ← Program.get
  let component ← ofRead (PoaNameIterator.start foldedName).component
  match s.root with
  | none => Program.throw .objAdapter
  | some root =>
    let p ← poaAt root
    if p.name ≠ component then Program.throw .objAdapter
    else
      Program.handle
        (some <$> activateLoop c fuel (PoaNameIterator.start foldedName).next upcalls root)
        fun e => if e = .adapterNonExistent then pure none else Program.throw e

/-- The second half of `find_persistent_poa`: the name, and then the tree. -/
def findByName (c : AdapterConfig) (fuel : ℕ) (upcalls : List Upcall) (foldedName : PoaName) :
    Action (Option ℕ) := do
  let s ← Program.get
  match s.persistentPoaNameMap.lookup foldedName with
  | some poa => pure (some poa)
  | none => activatePoa c fuel upcalls foldedName

/-- `find` of the active map, with the POA if the result is 0. -/
def findByHint (c : AdapterConfig) (systemName : PoaName) : Action (Option ℕ) := do
  let s ← Program.get
  let key ← ofRead (decodeKey systemName)
  let entry ← ofRead (s.persistentPoaSystemMap.find c.lazyMap key)
  pure (entry.map MapEntry.intId)

/-- **`find_persistent_poa`** of `Active_Hint_Strategy` and `No_Hint_Strategy`, with the POA if the
result is 0. -/
def findPersistentPoa (c : AdapterConfig) (fuel : ℕ) (upcalls : List Upcall)
    (systemName : PoaName) : Action (Option ℕ) :=
  if c.useActiveHintInPoaNames then do
    let foldedName ← ofRead (recoverKey systemName)
    let hinted ← findByHint c systemName
    match hinted with
    | none => findByName c fuel upcalls foldedName
    | some poa =>
      let p ← poaAt poa
      if foldedName = p.foldedName then pure (some poa)
      else findByName c fuel upcalls foldedName
  else findByName c fuel upcalls systemName

end ObjectAdapter

end AceTao
