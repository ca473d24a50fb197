import AceTao.Library.DoublyLinked
import Mathlib.Data.Fintype.Card
import Mathlib.Data.Int.Notation
import Mathlib.Logic.Function.Basic

/-!
# The name table of `ACE_Malloc_T`: the code

Named memory regions are kept in a list of nodes that are linked in both directions, in memory that
the same allocator gives out. `shared_malloc` and `shared_free` are an `Allocator`: what matters
here is that a block that is given out was not in use. A node is at its address from its
construction until it is freed; a function that follows a pointer to no node is undefined.

A loop over the list is given as many turns as there are addresses. It changes nothing, so that it
never ends if it takes more; it has then no answer. A name is the bytes of a C string in front of
the terminator.
-/

namespace AceTao

/-- An allocator: which blocks are in use, and how this changes. -/
structure Allocator (A : Type) where
  State : Type
  live : State → Set A
  malloc : State → ℕ → Option (A × State)
  free : State → A → State
  malloc_fresh : ∀ {s n a t}, malloc s n = some (a, t) → a ∉ live s
  live_malloc : ∀ {s n a t}, malloc s n = some (a, t) → live t = insert a (live s)
  live_free : ∀ s a, live (free s a) = live s \ {a}

/-- The bytes of a C string. -/
abbrev Name : Type := List UInt8

/-- **`ACE_Name_Node`**. -/
structure NameNode (A P : Type) where
  name : Name
  pointer : P
  next : Option A
  prev : Option A

/-- The control block and the nodes. -/
structure NameTable {A : Type} (pool : Allocator A) (P : Type) where
  nameHead : Option A
  nodes : A → Option (NameNode A P)
  state : pool.State

namespace NameTable

variable {A P : Type} [DecidableEq A] [Fintype A] {pool : Allocator A}

/-- `sizeof (NAME_NODE)`. -/
def nodeSize : ℕ := 32

/-- The turns a loop is given. -/
def turns (A : Type) [Fintype A] : ℕ := Fintype.card A + 1

/-- A change of the node at an address. -/
def modify (nodes : A → Option (NameNode A P)) (a : A) (f : NameNode A P → NameNode A P) :
    Option (A → Option (NameNode A P)) :=
  (nodes a).map fun node => Function.update nodes a (some (f node))

/-! ### `shared_find` and `shared_bind` -/

/-- The loops that follow one kind of links to a node of a name. -/
def findLoop (nodes : A → Option (NameNode A P)) (link : NameNode A P → Option A) (name : Name) :
    ℕ → Option A → Option (Option A)
  | 0, _ => none
  | _ + 1, none => some none
  | n + 1, some a =>
    match nodes a with
    | none => none
    | some node =>
      if node.name = name then some (some a) else findLoop nodes link name n (link node)

/-- **`shared_find`**. -/
def sharedFind (t : NameTable pool P) (name : Name) : Option (Option A) :=
  findLoop t.nodes NameNode.next name (turns A) t.nameHead

/-- **`shared_bind`**, with the constructor of a node. -/
def sharedBind (t : NameTable pool P) (name : Name) (pointer : P) : Option (NameTable pool P × ℤ) :=
  match pool.malloc t.state (nodeSize + name.length + 1) with
  | none => some (t, -1)
  | some (newNode, state) =>
    let nodes := Function.update t.nodes newNode (some ⟨name, pointer, t.nameHead, none⟩)
    match t.nameHead with
    | none => some (⟨some newNode, nodes, state⟩, 0)
    | some next =>
      (modify nodes next fun node => { node with prev := some newNode }).map fun nodes =>
        (⟨some newNode, nodes, state⟩, 0)

/-! ### The operations -/

/-- What an operation returns, and what it stores through its reference to a pointer. -/
structure Result (P : Type) where
  code : ℤ
  pointer : Option P

/-- **`trybind`**. -/
def trybind (t : NameTable pool P) (name : Name) (pointer : P) :
    Option (NameTable pool P × Result P) :=
  match sharedFind t name with
  | none => none
  | some none => (sharedBind t name pointer).map fun (t, code) => (t, ⟨code, none⟩)
  | some (some a) => (t.nodes a).map fun node => (t, ⟨1, some node.pointer⟩)

/-- **`bind`**. -/
def bind (t : NameTable pool P) (name : Name) (pointer : P) (duplicates : ℤ) :
    Option (NameTable pool P × Result P) :=
  if duplicates = 0 then
    match sharedFind t name with
    | none => none
    | some (some _) => some (t, ⟨1, none⟩)
    | some none => (sharedBind t name pointer).map fun (t, code) => (t, ⟨code, none⟩)
  else (sharedBind t name pointer).map fun (t, code) => (t, ⟨code, none⟩)

/-- **`find`**. -/
def find (t : NameTable pool P) (name : Name) : Option (NameTable pool P × Result P) :=
  match sharedFind t name with
  | none => none
  | some none => some (t, ⟨-1, none⟩)
  | some (some a) => (t.nodes a).map fun node => (t, ⟨0, some node.pointer⟩)

/-- The loop of `unbind`, with the node before the current one. -/
def unbindLoop (nodes : A → Option (NameNode A P)) (name : Name) :
    ℕ → Option A → Option A → Option (Option A × Option A)
  | 0, _, _ => none
  | _ + 1, prev, none => some (prev, none)
  | n + 1, prev, some curr =>
    match nodes curr with
    | none => none
    | some node =>
      if node.name = name then some (prev, some curr)
      else unbindLoop nodes name n (some curr) node.next

/-- `prev->next_ = next`, or `name_head_ = next` when there is no node before. -/
def linkNext (t : NameTable pool P) (prev next : Option A) :
    Option (Option A × (A → Option (NameNode A P))) :=
  match prev with
  | none => some (next, t.nodes)
  | some prev =>
    (modify t.nodes prev fun node => { node with next := next }).map fun nodes =>
      (t.nameHead, nodes)

/-- `if (next) next->prev_ = prev`. -/
def linkPrev (nodes : A → Option (NameNode A P)) (prev next : Option A) :
    Option (A → Option (NameNode A P)) :=
  match next with
  | none => some nodes
  | some next => modify nodes next fun node => { node with prev := prev }

/-- **`unbind`**. -/
def unbind (t : NameTable pool P) (name : Name) : Option (NameTable pool P × Result P) :=
  match unbindLoop t.nodes name (turns A) none t.nameHead with
  | none => none
  | some (_, none) => some (t, ⟨-1, none⟩)
  | some (prev, some curr) =>
    match t.nodes curr with
    | none => none
    | some node =>
      match linkNext t prev node.next with
      | none => none
      | some (nameHead, nodes) =>
        (linkPrev nodes prev node.next).map fun nodes =>
          (⟨nameHead, Function.update nodes curr none, pool.free t.state curr⟩,
            ⟨0, some node.pointer⟩)

/-- The operations on the table. -/
inductive Command (P : Type)
  | bind (name : Name) (pointer : P) (duplicates : ℤ)
  | trybind (name : Name) (pointer : P)
  | find (name : Name)
  | unbind (name : Name)

/-- One operation. -/
def step (t : NameTable pool P) : Command P → Option (NameTable pool P × Result P)
  | .bind name pointer duplicates => bind t name pointer duplicates
  | .trybind name pointer => trybind t name pointer
  | .find name => find t name
  | .unbind name => unbind t name

/-- A table without names. -/
def empty (pool : Allocator A) (P : Type) (state : pool.State) : NameTable pool P :=
  ⟨none, fun _ => none, state⟩

/-! ### The iterators -/

/-- One step along the links, to a node of the name if there is a filter: `advance` of both
iterators, which follow different links. -/
def advance (t : NameTable pool P) (link : NameNode A P → Option A) (filter : Option Name)
    (curr : A) : Option (Option A) :=
  match t.nodes curr with
  | none => none
  | some node =>
    match filter with
    | none => some (link node)
    | some name => findLoop t.nodes link name (turns A) (link node)

/-- The constructor of **`ACE_Malloc_LIFO_Iterator_T`**: an advance from a node in front of the
list. -/
def lifoInit (t : NameTable pool P) (filter : Option Name) : Option (Option A) :=
  match filter with
  | none => some t.nameHead
  | some name => findLoop t.nodes NameNode.next name (turns A) t.nameHead

/-- The loop of `start`. -/
def startLoop (nodes : A → Option (NameNode A P)) : ℕ → Option A → Option A → Option (Option A)
  | 0, _, _ => none
  | _ + 1, prev, none => some prev
  | n + 1, _, some curr =>
    match nodes curr with
    | none => none
    | some node => startLoop nodes n (some curr) node.next

/-- The constructor of **`ACE_Malloc_FIFO_Iterator_T`**: `start`. -/
def fifoInit (t : NameTable pool P) (_filter : Option Name) : Option (Option A) :=
  startLoop t.nodes (turns A) none t.nameHead

/-- The nodes that an iterator visits: `for (; !done (); advance ())`. -/
def visitLoop (t : NameTable pool P) (link : NameNode A P → Option A) (filter : Option Name) :
    ℕ → Option A → Option (List A)
  | 0, _ => none
  | _ + 1, none => some []
  | n + 1, some curr =>
    match advance t link filter curr with
    | none => none
    | some next => (visitLoop t link filter n next).map (curr :: ·)

/-- What `ACE_Malloc_LIFO_Iterator_T` visits. -/
def lifoVisits (t : NameTable pool P) (filter : Option Name) : Option (List A) :=
  match lifoInit t filter with
  | none => none
  | some curr => visitLoop t NameNode.next filter (turns A) curr

/-- What `ACE_Malloc_FIFO_Iterator_T` visits. -/
def fifoVisits (t : NameTable pool P) (filter : Option Name) : Option (List A) :=
  match fifoInit t filter with
  | none => none
  | some curr => visitLoop t NameNode.prev filter (turns A) curr

end NameTable

end AceTao
