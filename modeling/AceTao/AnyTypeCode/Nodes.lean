import AceTao.Library.Unfolding
import AceTao.Marshal.TypeCode

/-!
# TypeCodes as objects, and `equal`

A TypeCode is an object that refers to the TypeCodes of its members. The TypeCode of a recursive type
is a `Recursive_Type`, which is a `Struct` or a `Union` with a flag, and the references to it from
within are an `Indirected_Type` each, which has an id of its own and asks the other for everything
else, or the object itself. Every cycle of references leads through a `Recursive_Type`
(`Heap.rank_lt`).

`CORBA::TypeCode::equal` compares two objects, then their kinds, ids and names, then with `equal_i`
what they are made of. While a `Recursive_Type` is being compared its flag is set, and `equal_i` of an
object whose flag is set answers `true`.

The TypeCodes of value types are left out, and so are the reference counts.
-/

namespace AceTao.AnyTypeCode

open Marshal (Label)

/-! ### Objects -/

/-- The kinds of the TypeCodes without parameters. -/
inductive EmptyKind
  | null
  | void
  | short
  | long
  | ushort
  | ulong
  | float
  | double
  | boolean
  | char
  | octet
  | any
  | typeCode
  | principal
  | longlong
  | ulonglong
  | longdouble
  | wchar
  deriving DecidableEq

/-- The kinds of the TypeCodes of interfaces. -/
inductive ObjrefKind
  | objref
  | native
  | abstractInterface
  | localInterface
  | component
  | home
  deriving DecidableEq

/-- `CORBA::TCKind`, without values. -/
inductive TCKind
  | empty (kind : EmptyKind)
  | objref (kind : ObjrefKind)
  | struct
  | union
  | enum
  | string
  | sequence
  | array
  | alias
  | except
  | wstring
  | fixed
  | valueBox
  deriving DecidableEq

/-- A member of a struct or an exception. -/
structure StructField (N : Type) where
  name : String
  type : N
  deriving DecidableEq

/-- A member of a union, with its label. -/
structure Case (N : Type) where
  label : Label
  name : String
  type : N
  deriving DecidableEq

/-- **An object**, with references of a type `N`. -/
inductive Node (N : Type)
  | emptyParam (kind : EmptyKind)
  | string (wide : Bool) (length : Cdr.ULong)
  | fixed (digits scale : Cdr.UShort)
  | objref (kind : ObjrefKind) (id name : String)
  | enum (id name : String) (enumerators : List String)
  | sequence (isArray : Bool) (contentType : N) (length : Cdr.ULong)
  | aliasOf (isBox : Bool) (id name : String) (contentType : N)
  | struct (isExcept : Bool) (id name : String) (fields : List (StructField N)) (recursive : Bool)
  | union (id name : String) (discriminantType : N) (cases : List (Case N)) (defaultIndex : ℤ)
    (recursive : Bool)
  | indirectedType (id : String) (recursiveTc : N)

namespace Node

variable {N : Type}

/-- An object that is a `Recursive_Type`. -/
def isRecursive : Node N → Bool
  | .struct _ _ _ _ recursive => recursive
  | .union _ _ _ _ _ recursive => recursive
  | _ => false

/-- The kind that the classes are made with. -/
def kind : Node N → TCKind
  | .emptyParam kind => .empty kind
  | .string wide _ => if wide then .wstring else .string
  | .fixed _ _ => .fixed
  | .objref kind _ _ => .objref kind
  | .enum _ _ _ => .enum
  | .sequence isArray _ _ => if isArray then .array else .sequence
  | .aliasOf isBox _ _ _ => if isBox then .valueBox else .alias
  | .struct isExcept _ _ _ _ => if isExcept then .except else .struct
  | .union _ _ _ _ _ _ => .union
  | .indirectedType _ _ => .empty .null

/-- `id_i`, which throws `BadKind` where there is none. -/
def id : Node N → Option String
  | .objref _ id _ => some id
  | .enum id _ _ => some id
  | .aliasOf _ id _ _ => some id
  | .struct _ id _ _ _ => some id
  | .union id _ _ _ _ _ => some id
  | .indirectedType id _ => some id
  | _ => none

/-- `name_i`, which throws `BadKind` where there is none. -/
def name : Node N → Option String
  | .objref _ _ name => some name
  | .enum _ name _ => some name
  | .aliasOf _ _ name _ => some name
  | .struct _ _ name _ _ => some name
  | .union _ name _ _ _ _ => some name
  | _ => none

/-- All references of an object. -/
def references : Node N → List N
  | .sequence _ contentType _ => [contentType]
  | .aliasOf _ _ _ contentType => [contentType]
  | .struct _ _ _ fields _ => fields.map StructField.type
  | .union _ _ discriminantType cases _ _ => discriminantType :: cases.map Case.type
  | .indirectedType _ recursiveTc => [recursiveTc]
  | _ => []

/-- What an `Indirected_Type` can be linked to. -/
def HasId (id : String) : Node N → Prop
  | .struct _ id' _ _ _ => id' = id
  | .union id' _ _ _ _ _ => id' = id
  | _ => False

end Node

/-- **The objects**: an `Indirected_Type` is linked to an object with its id, and there is a height
that only the references of a `Recursive_Type` do not lower. -/
structure Heap (N : Type) where
  node : N → Node N
  hasId : ∀ x id target, node x = .indirectedType id target → (node target).HasId id
  rank : N → ℕ
  rank_lt : ∀ x, (node x).isRecursive = false → ∀ y ∈ (node x).references, rank y < rank x
  recursives : List N
  mem_recursives : ∀ x, (node x).isRecursive = true → x ∈ recursives

namespace Heap

variable {N : Type} (h : Heap N)

/-- What the accessors of an object see: an `Indirected_Type` asks what it is linked to. -/
def view (x : N) : Node N :=
  match h.node x with
  | .indirectedType _ target => h.node target
  | node => node

/-- That of an `Indirected_Type` is set when it is linked. -/
def kind (x : N) : TCKind := (h.view x).kind

def id (x : N) : Option String := (h.node x).id

def name (x : N) : Option String := (h.view x).name

end Heap

/-! ### `equal` -/

/-- The objects whose flag is set. -/
abbrev Flags (N : Type) := List N

/-- What a comparison answers, and the flags behind it. -/
abbrev Answer (N : Type) := Option (Bool × Flags N)

/-- The loop over the members, from an index on: it ends at the first that differs. -/
def each {N α : Type} (test : ℕ → α → α → Flags N → Answer N) :
    ℕ → List α → List α → Flags N → Answer N
  | _, [], _, flags => some (true, flags)
  | _, _ :: _, [], _ => none
  | i, a :: as, b :: bs, flags =>
    match test i a b flags with
    | some (true, flags) => each test (i + 1) as bs flags
    | answer => answer

/-- A member of a struct against that of another. -/
def fieldEqual {N : Type} (equal : N → N → Flags N → Answer N) (lhs rhs : StructField N)
    (flags : Flags N) : Answer N :=
  if lhs.name ≠ rhs.name then some (false, flags) else equal lhs.type rhs.type flags

/-- `Case::equal`. The labels are of the type of the discriminator, which has been compared. -/
def Case.equal {N : Type} (equal : N → N → Flags N → Answer N) (lhs rhs : Case N)
    (flags : Flags N) : Answer N :=
  if lhs.name ≠ rhs.name then some (false, flags)
  else
    match equal lhs.type rhs.type flags with
    | some (true, flags) => some (lhs.label = rhs.label, flags)
    | answer => answer

/-- The body of the loop of a union: the default case is not looked at. -/
def caseEqual {N : Type} (equal : N → N → Flags N → Answer N) (defaultIndex : ℤ) (i : ℕ)
    (lhs rhs : Case N) (flags : Flags N) : Answer N :=
  if -1 < defaultIndex ∧ defaultIndex = i then some (true, flags) else lhs.equal equal rhs flags

/-- `equal_i` of a `Struct`. -/
def structEqualI {N : Type} (equal : N → N → Flags N → Answer N)
    (fields fields' : List (StructField N)) (flags : Flags N) : Answer N :=
  if fields'.length ≠ fields.length then some (false, flags)
  else each (fun _ => fieldEqual equal) 0 fields fields' flags

/-- `equal_i` of a `Union`. -/
def unionEqualI {N : Type} (equal : N → N → Flags N → Answer N)
    (discriminantType discriminantType' : N) (cases cases' : List (Case N))
    (defaultIndex defaultIndex' : ℤ) (flags : Flags N) : Answer N :=
  if cases'.length ≠ cases.length ∨ defaultIndex' ≠ defaultIndex then some (false, flags)
  else
    match equal discriminantType discriminantType' flags with
    | some (true, flags) => each (caseEqual equal defaultIndex) 0 cases cases' flags
    | answer => answer

section

variable {N : Type} [DecidableEq N]

/-- `Recursive_Type::equal_i`: the flag is set around the comparison, and answers for the object
while it is set. -/
def flagged (recursive : Bool) (x : N) (body : Flags N → Answer N) (flags : Flags N) : Answer N :=
  if recursive then
    if x ∈ flags then some (true, flags)
    else
      match body (x :: flags) with
      | none => none
      | some (answer, flags) => some (answer, flags.erase x)
  else body flags

/-- **`equal_i`** of the classes, for an object and what it sees of another, with `equal` as it is
called for the references. It is not called for two objects of different kinds. -/
def equalNode (equal : N → N → Flags N → Answer N) (x tc : N) (node node' : Node N)
    (flags : Flags N) : Answer N :=
  match node, node' with
  | .indirectedType _ target, _ => equal target tc flags
  | .emptyParam _, .emptyParam _ => some (true, flags)
  | .string _ length, .string _ length' => some (length = length', flags)
  | .fixed digits scale, .fixed digits' scale' =>
    some (digits = digits' ∧ scale = scale', flags)
  | .objref _ _ _, .objref _ _ _ => some (true, flags)
  | .enum _ _ enumerators, .enum _ _ enumerators' =>
    if enumerators'.length ≠ enumerators.length then some (false, flags)
    else each (fun _ name name' flags => some (name = name', flags)) 0 enumerators enumerators' flags
  | .sequence _ contentType length, .sequence _ contentType' length' =>
    if length ≠ length' then some (false, flags) else equal contentType contentType' flags
  | .aliasOf _ _ _ contentType, .aliasOf _ _ _ contentType' => equal contentType contentType' flags
  | .struct _ _ _ fields recursive, .struct _ _ _ fields' _ =>
    flagged recursive x (structEqualI equal fields fields') flags
  | .union _ _ discriminantType cases defaultIndex recursive,
    .union _ _ discriminantType' cases' defaultIndex' _ =>
    flagged recursive x (unionEqualI equal discriminantType discriminantType' cases cases'
      defaultIndex defaultIndex') flags
  | _, _ => none

def equalI (h : Heap N) (equal : N → N → Flags N → Answer N) (x tc : N) (flags : Flags N) :
    Answer N :=
  equalNode equal x tc (h.node x) (h.view tc) flags

/-- **`equal`**, with a bound on the depth of its recursion. -/
def equal (h : Heap N) : ℕ → N → N → Flags N → Answer N
  | 0, _, _, _ => none
  | depth + 1, x, tc, flags =>
    if x = tc then some (true, flags)
    else if h.kind tc ≠ h.kind x then some (false, flags)
    else if h.id x ≠ h.id tc ∨ h.name x ≠ h.name tc then some (false, flags)
    else equalI h (equal h depth) x tc flags

end

end AceTao.AnyTypeCode
