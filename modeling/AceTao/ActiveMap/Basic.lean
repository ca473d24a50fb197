import AceTao.Library.DoublyLinked
import Mathlib.Algebra.GroupWithZero.Nat
import Mathlib.Data.Int.Notation
import Mathlib.Logic.Function.Basic

/-!
# `ACE_Active_Map_Manager`: the code

Values are stored in the slots of an array, each under the key that `bind` issues: the index of the
slot and the number of times the slot has been bound. The slots are on two circular lists, the free
and the occupied one, that go through the array by indices; the head of each list is an entry of its
own with an index that is no slot. An entry that is not bound has the index of the free list in its
key. With `ACE_HAS_LAZY_MAP_MANAGER` (`lazy`) a slot that is unbound is only marked, and moved from
the occupied to the free list when there is no other.

An `ACE_UINT32` is a number, and its arithmetic is modulo 2³². An access to an entry that has not
been constructed, inside the array or behind it, has no answer. A loop over a list is given as many
turns as there are slots and one more, and has no answer if it takes more. Whether there is memory
for a larger array is a parameter of the operations that may need one.
-/

namespace AceTao

/-- `ACE_Active_Map_Manager_Key`. -/
structure MapKey where
  slotIndex : ℕ
  slotGeneration : ℕ
  deriving DecidableEq

/-- **`ACE_Map_Entry`**. Only a lazy map has the flag. -/
structure MapEntry (T : Type) where
  next : ℕ
  prev : ℕ
  extId : MapKey
  intId : T
  free : Bool

/-- The two lists. -/
inductive MapList
  | free | occupied
  deriving DecidableEq

/-- `free_list_id` and `occupied_list_id`. -/
def MapList.id : MapList → ℕ
  | .free => 2 ^ 32 - 1
  | .occupied => 2 ^ 32 - 2

/-- The links of the entry that is the head of a list. -/
structure ListHead where
  next : ℕ
  prev : ℕ

/-- **`ACE_Active_Map_Manager`**. -/
structure ActiveMap (T : Type) where
  searchStructure : ℕ → Option (MapEntry T)
  totalSize : ℕ
  curSize : ℕ
  freeList : ListHead
  occupiedList : ListHead

namespace ActiveMap

variable {T : Type}

/-! ### Moving a slot -/

def head (s : ActiveMap T) : MapList → ListHead
  | .free => s.freeList
  | .occupied => s.occupiedList

def setHead (s : ActiveMap T) (h : ListHead) : MapList → ActiveMap T
  | .free => { s with freeList := h }
  | .occupied => { s with occupiedList := h }

/-- A change of an entry of the array. -/
def modify (s : ActiveMap T) (i : ℕ) (f : MapEntry T → MapEntry T) : Option (ActiveMap T) :=
  (s.searchStructure i).map fun entry =>
    { s with searchStructure := Function.update s.searchStructure i (some (f entry)) }

/-- Set a link of an entry of a list, which may be its head. -/
def setNext (l : MapList) (i next : ℕ) (s : ActiveMap T) : Option (ActiveMap T) :=
  if i = l.id then some (s.setHead { s.head l with next := next } l)
  else s.modify i fun entry => { entry with next := next }

def setPrev (l : MapList) (i prev : ℕ) (s : ActiveMap T) : Option (ActiveMap T) :=
  if i = l.id then some (s.setHead { s.head l with prev := prev } l)
  else s.modify i fun entry => { entry with prev := prev }

/-- **`shared_move`**: from anywhere in one list to the beginning of another. -/
def sharedMove (slot : ℕ) (currentList newList : MapList) (s : ActiveMap T) :
    Option (ActiveMap T) := do
  let entry ← s.searchStructure slot
  let s ← s.setNext currentList entry.prev entry.next
  let entry ← s.searchStructure slot
  let s ← s.setPrev currentList entry.next entry.prev
  let newListNext := (s.head newList).next
  let s ← s.modify slot fun entry => { entry with next := newListNext, prev := newList.id }
  let s := s.setHead { s.head newList with next := slot } newList
  s.setPrev newList newListNext slot

def moveFromFreeListToOccupiedList (slot : ℕ) (s : ActiveMap T) : Option (ActiveMap T) :=
  s.sharedMove slot .free .occupied

def moveFromOccupiedListToFreeList (slot : ℕ) (s : ActiveMap T) : Option (ActiveMap T) :=
  s.sharedMove slot .occupied .free

/-- The turns a loop is given. -/
def turns (s : ActiveMap T) : ℕ := s.totalSize + 1

/-- The loop of `move_all_free_slots_from_occupied_list`. -/
def moveAllLoop : ℕ → ℕ → ActiveMap T → Option (ActiveMap T)
  | 0, _, _ => none
  | n + 1, i, s =>
    if i = MapList.occupied.id then some s
    else
      match s.searchStructure i with
      | none => none
      | some current =>
        if current.free then
          (s.modify i fun entry => { entry with free := false }).bind fun s =>
            (s.moveFromOccupiedListToFreeList i).bind fun s => moveAllLoop n current.next s
        else moveAllLoop n current.next s

def moveAllFreeSlotsFromOccupiedList (s : ActiveMap T) : Option (ActiveMap T) :=
  moveAllLoop s.turns s.occupiedList.next s

/-! ### Growing -/

/-- The loops that copy the entries of a list into a new array. -/
def copyLoop (entries : ℕ → Option (MapEntry T)) (newSize : ℕ) (l : MapList) :
    ℕ → ℕ → (ℕ → Option (MapEntry T)) → Option (ℕ → Option (MapEntry T))
  | 0, _, _ => none
  | n + 1, i, temp =>
    if i = l.id then some temp
    else
      match entries i with
      | none => none
      | some entry =>
        if i < newSize then
          copyLoop entries newSize l n entry.next (Function.update temp i (some entry))
        else none

variable [Inhabited T]

/-- A new element of the array, with the default key. -/
def newEntry (i : ℕ) : MapEntry T where
  next := (i + 1) % 2 ^ 32
  prev := (i + 2 ^ 32 - 1) % 2 ^ 32
  extId := ⟨MapList.free.id, 0⟩
  intId := default
  free := false

/-- The new elements are constructed. -/
def construct (totalSize newSize : ℕ) (temp : ℕ → Option (MapEntry T)) :
    ℕ → Option (MapEntry T) :=
  (List.range' totalSize (newSize - totalSize)).foldl
    (fun temp i => Function.update temp i (some (newEntry i))) temp

/-- **`resize_i`**: the result is `-1` where there is no memory. -/
def resize (memory : Bool) (newSize : ℕ) (s : ActiveMap T) : Option (ActiveMap T × ℤ) :=
  if memory then do
    let temp ← copyLoop s.searchStructure newSize .occupied s.turns s.occupiedList.next fun _ => none
    let temp ← copyLoop s.searchStructure newSize .free s.turns s.freeList.next temp
    let t : ActiveMap T := { s with
      searchStructure := construct s.totalSize newSize temp
      freeList := ⟨s.totalSize, (newSize + 2 ^ 32 - 1) % 2 ^ 32⟩ }
    let t ← t.modify ((newSize + 2 ^ 32 - 1) % 2 ^ 32) fun entry =>
      { entry with next := MapList.free.id }
    let t ← t.modify s.totalSize fun entry => { entry with prev := MapList.free.id }
    pure ({ t with totalSize := newSize }, 0)
  else some (s, -1)

def maxExponential : ℕ := 64 * 1024
def linearIncrease : ℕ := 32 * 1024

def newSize (s : ActiveMap T) : ℕ :=
  if s.totalSize < maxExponential then s.totalSize * 2 % 2 ^ 32
  else (s.totalSize + linearIncrease) % 2 ^ 32

/-- The last part of `next_free`. -/
def nextFreeOfNew (memory : Bool) (s : ActiveMap T) : Option (ActiveMap T × Option ℕ) :=
  (s.resize memory s.newSize).map fun (s, result) =>
    (s, if result = 0 then some s.freeList.next else none)

/-- **`next_free`**, with the slot if the result is 0. -/
def nextFree (lazy memory : Bool) (s : ActiveMap T) : Option (ActiveMap T × Option ℕ) :=
  if s.freeList.next ≠ MapList.free.id then some (s, some s.freeList.next)
  else if lazy then
    s.moveAllFreeSlotsFromOccupiedList.bind fun s =>
      if s.freeList.next ≠ MapList.free.id then some (s, some s.freeList.next)
      else s.nextFreeOfNew memory
  else s.nextFreeOfNew memory

/-- A map without an array. -/
def closed : ActiveMap T where
  searchStructure := fun _ => none
  totalSize := 0
  curSize := 0
  freeList := ⟨MapList.free.id, MapList.free.id⟩
  occupiedList := ⟨MapList.occupied.id, MapList.occupied.id⟩

/-- **`open`**, where there is memory. -/
def openMap (size : ℕ) : Option (ActiveMap T) := (resize true size closed).map Prod.fst

/-! ### The operations -/

/-- What `bind` does with the slot it has found. -/
def bindSlot (value : T) (slot : ℕ) (s : ActiveMap T) : Option (ActiveMap T × MapKey) := do
  let s ← s.moveFromFreeListToOccupiedList slot
  let s ← s.modify slot fun entry =>
    { entry with extId := ⟨slot, (entry.extId.slotGeneration + 1) % 2 ^ 32⟩ }
  let entry ← s.searchStructure slot
  let s := { s with curSize := (s.curSize + 1) % 2 ^ 32 }
  let s ← s.modify slot fun entry => { entry with intId := value }
  pure (s, entry.extId)

/-- **`bind`**, with the key if the result is 0. -/
def bind (lazy memory : Bool) (value : T) (s : ActiveMap T) :
    Option (ActiveMap T × Option MapKey) :=
  match s.nextFree lazy memory with
  | none => none
  | some (s, none) => some (s, none)
  | some (s, some slot) => (s.bindSlot value slot).map fun (s, key) => (s, some key)

/-- **`find`**, with the entry if the result is 0. -/
def find (lazy : Bool) (key : MapKey) (s : ActiveMap T) : Option (Option (MapEntry T)) :=
  if s.totalSize < key.slotIndex then some none
  else (s.searchStructure key.slotIndex).map fun entry =>
    if (lazy && entry.free) ∨ entry.extId.slotGeneration ≠ key.slotGeneration ∨
        entry.extId.slotIndex = MapList.free.id then none
    else some entry

/-- **`rebind`**, with the old key and the old value if the result is 0. -/
def rebind (lazy : Bool) (key : MapKey) (value : T) (s : ActiveMap T) :
    Option (ActiveMap T × Option (MapKey × T)) :=
  match s.find lazy key with
  | none => none
  | some none => some (s, none)
  | some (some entry) =>
    (s.modify key.slotIndex fun entry => { entry with intId := value }).map fun s =>
      (s, some (entry.extId, entry.intId))

/-- What `unbind` does with the slot it has found. -/
def unbindSlot (lazy : Bool) (slot : ℕ) (s : ActiveMap T) : Option (ActiveMap T) := do
  let s ← if lazy then s.modify slot fun entry => { entry with free := true }
    else s.moveFromOccupiedListToFreeList slot
  let s ← s.modify slot fun entry =>
    { entry with extId := { entry.extId with slotIndex := MapList.free.id } }
  pure { s with curSize := (s.curSize + 2 ^ 32 - 1) % 2 ^ 32 }

/-- **`unbind`**, with the value if the result is 0. -/
def unbind (lazy : Bool) (key : MapKey) (s : ActiveMap T) : Option (ActiveMap T × Option T) :=
  match s.find lazy key with
  | none => none
  | some none => some (s, none)
  | some (some entry) =>
    (s.unbindSlot lazy key.slotIndex).map fun s => (s, some entry.intId)

/-! ### Sequences of operations -/

end ActiveMap

inductive MapOp (T : Type)
  | bind (value : T) (memory : Bool)
  | find (key : MapKey)
  | rebind (key : MapKey) (value : T)
  | unbind (key : MapKey)

/-- The results, with what they return by reference. -/
inductive MapAnswer (T : Type)
  | bound (key : Option MapKey)
  | found (value : Option T)
  | rebound (old : Option (MapKey × T))
  | unbound (value : Option T)

namespace ActiveMap

variable {T : Type} [Inhabited T]

/-- **The machine.** -/
def step (lazy : Bool) (s : ActiveMap T) : MapOp T → Option (ActiveMap T × MapAnswer T)
  | .bind value memory => (s.bind lazy memory value).map fun (s, key) => (s, .bound key)
  | .find key => (s.find lazy key).map fun entry => (s, .found (entry.map MapEntry.intId))
  | .rebind key value => (s.rebind lazy key value).map fun (s, old) => (s, .rebound old)
  | .unbind key => (s.unbind lazy key).map fun (s, value) => (s, .unbound value)

end ActiveMap

end AceTao
