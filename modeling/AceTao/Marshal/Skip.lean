import AceTao.Marshal.TypeCode

/-!
# Skipping a value that is described by a TypeCode

`TAO_Marshal_Object::perform_skip` moves a stream over a value, given the TypeCode of its type. It
dispatches on the kind to the class for that kind, and these call it again for the parts of a value
(`MarshalObject.performSkip`). Such a call returns whether the traversal may continue, or it throws
a system exception.

The extraction of the TypeCode in an `any` is a parameter, an operation of the stream that returns a
reference. The fuel bounds the depth of the calls.
-/

namespace AceTao.Marshal

open Cdr InputCDR

inductive TraverseStatus
  | traverseStop
  | traverseContinue
  deriving DecidableEq, Repr

/-- The exceptions of the interpreter. -/
inductive SystemException
  | marshal
  | badTypecode
  deriving DecidableEq, Repr

/-- A step of the traversal of a stream. -/
abbrev Skipper (α : Type) := Program InputCDR SystemException α

/-- The answer `false` of an operation is an exception. -/
def orMarshal {α : Type} (m : Reader α) : Skipper α := m.mapError fun _ => .marshal

/-- The traversal continues behind an operation that must succeed. -/
def continueBehind {α : Type} (m : Reader α) : Skipper TraverseStatus := do
  let _ ← orMarshal m
  pure .traverseContinue

/-- A part whose traversal stops is an exception. -/
def mustContinue {σ : Type} (m : Program σ SystemException TraverseStatus) :
    Program σ SystemException TraverseStatus := do
  match ← m with
  | .traverseContinue => pure .traverseContinue
  | .traverseStop => Program.throw .marshal

/-- The loop over the parts of a value ends at the first whose traversal stops. -/
def traverse {σ : Type} : List (Program σ SystemException TraverseStatus) →
    Program σ SystemException TraverseStatus
  | [] => pure .traverseContinue
  | m :: ms => do
    match ← m with
    | .traverseContinue => traverse ms
    | .traverseStop => pure .traverseStop

variable {R : Type}

/-! ### Values without parts -/

def MarshalPrimitive.skip (n : ℕ) : TypeCode R → Skipper TraverseStatus
  | .null | .void => pure .traverseContinue
  | .short | .ushort => continueBehind skipShort
  | .long | .ulong | .float | .enum => continueBehind skipLong
  | .double | .longlong | .ulonglong => continueBehind skipLonglong
  | .boolean => continueBehind skipBoolean
  | .char | .octet => continueBehind skipChar
  | .longdouble => continueBehind skipLongdouble
  | .wchar => continueBehind (skipWchar (.plain n))
  | .fixed digits => continueBehind (skipBytes ((digits.toNat + 2) / 2))
  | _ => Program.throw .marshal

/-- The octets of an encapsulation. -/
def skipOctetSeq : Reader Unit := do
  let length ← readUlong
  skipBytes length.toNat

/-- The parameters of a TypeCode of a kind. -/
def MarshalTypeCode.skipParameters : TCKind → Skipper TraverseStatus
  | .string | .wstring => continueBehind skipUlong
  | k => if k.isComplex then continueBehind skipOctetSeq else pure .traverseContinue

def MarshalTypeCode.skip : Skipper TraverseStatus := do
  let kind ← orMarshal readUlong
  match TCKind.ofULong kind with
  | some k => MarshalTypeCode.skipParameters k
  | none =>
    if kind = BitVec.allOnes 32 then continueBehind skipLong else Program.throw .badTypecode

def MarshalPrincipal.skip : Skipper TraverseStatus := continueBehind do
  let len ← readUlong
  if 0 < len.toNat then skipBytes len.toNat else pure ()

/-- The profiles of an object reference: a tag, and an encapsulation. -/
def skipProfiles : ℕ → Reader Unit
  | 0 => pure ()
  | profiles + 1 => do
    let _ ← readUlong
    skipOctetSeq
    skipProfiles profiles

/-- The answer of `skip_string` is not looked at. -/
def MarshalObjRef.skip : Skipper TraverseStatus := do
  let _ ← (skipString.attempt : Skipper _)
  let profiles ← orMarshal readUlong
  continueBehind (skipProfiles profiles.toNat)

def MarshalString.skip : Skipper TraverseStatus := continueBehind skipString

def MarshalWString.skip (n : ℕ) : Skipper TraverseStatus := continueBehind (skipWstring (.plain n))

/-! ### Unions -/

/-- The operation that reads a discriminator, for the kinds that have one. -/
def readDiscriminator (n : ℕ) : TypeCode R → Option (Reader Label)
  | .short => some do
    let x ← readShort
    pure (.short x)
  | .ushort => some do
    let x ← readUshort
    pure (.ushort x)
  | .long => some do
    let x ← readLong
    pure (.long x)
  | .ulong => some do
    let x ← readUlong
    pure (.ulong x)
  | .enum => some do
    let x ← readUlong
    pure (.enum x)
  | .char => some do
    let x ← readChar (.plain n)
    pure (.char x)
  | .wchar => some do
    let x ← readWchar (.plain n) 0
    pure (.wchar x)
  | .boolean => some do
    let x ← readBoolean
    pure (.boolean x)
  | _ => none

/-- The label of the default member is a zero octet. -/
def memberLabel (defaultIndex : Option ℕ) (i : ℕ) (label : Label) : Label :=
  if defaultIndex = some i then .octet 0 else label

/-- The loop that looks for the current member of a union, and for the default member. -/
def findMember (defaultIndex : Option ℕ) (d : Label) :
    List (Label × R) → ℕ → Option R → Except SystemException (Option R × Option R)
  | [], _, defaultMember => .ok (none, defaultMember)
  | c :: cases, i, defaultMember =>
    if memberLabel defaultIndex i c.1 = .octet 0 then
      if defaultIndex ≠ some i then .error .badTypecode
      else findMember defaultIndex d cases (i + 1) (some c.2)
    else if memberLabel defaultIndex i c.1 = d then .ok (some c.2, defaultMember)
    else findMember defaultIndex d cases (i + 1) defaultMember

def MarshalUnion.skip (n : ℕ) (skip : R → Skipper TraverseStatus) (discriminator : TypeCode R)
    (cases : List (Label × R)) (defaultIndex : Option ℕ) : Skipper TraverseStatus :=
  match readDiscriminator n discriminator with
  | none => pure .traverseStop
  | some read => do
    match ← (read.attempt : Skipper _) with
    | none => pure .traverseStop
    | some d =>
      match findMember defaultIndex d cases 0 none with
      | .error e => Program.throw e
      | .ok (some member, _) => skip member
      | .ok (none, some member) => skip member
      | .ok (none, none) => pure .traverseContinue

/-! ### Structures, sequences and arrays -/

def MarshalAny.skip (extract : Reader R) (skip : R → Skipper TraverseStatus) :
    Skipper TraverseStatus := do
  match ← (extract.attempt : Skipper _) with
  | none => pure .traverseStop
  | some elemTc => skip elemTc

def MarshalStruct.skip (skip : R → Skipper TraverseStatus) (types : List R) :
    Skipper TraverseStatus :=
  mustContinue (traverse (types.map skip))

def MarshalExcept.skip (skip : R → Skipper TraverseStatus) (types : List R) :
    Skipper TraverseStatus := do
  match ← (skipString.attempt : Skipper _) with
  | none => pure .traverseStop
  | some _ => mustContinue (traverse (types.map skip))

/-- The size and alignment of the elements that are skipped all at once. -/
def TypeCode.elementSize : TypeCode R → Option (ℕ × ℕ)
  | .octet | .boolean | .char => some (1, 1)
  | .short | .ushort | .wchar => some (2, 2)
  | .long | .ulong | .float => some (4, 4)
  | .double | .longlong | .ulonglong => some (8, 8)
  | .longdouble => some (16, 8)
  | _ => none

/-- The elements of a sequence or an array. The answer of `adjust` is not looked at. -/
def skipElements (skip : Skipper TraverseStatus) (content : TypeCode R) (bounds : ULong) :
    Skipper TraverseStatus :=
  match content.elementSize with
  | some (size, align) => do
    let _ ← ((adjust 0 align).attempt : Skipper _)
    continueBehind (skipBytes (size * bounds.toNat))
  | none => mustContinue (traverse (List.replicate bounds.toNat skip))

def MarshalSequence.skip (skip : Skipper TraverseStatus) (content : TypeCode R) :
    Skipper TraverseStatus := do
  let bounds ← orMarshal readUlong
  if bounds = 0 then pure .traverseContinue
  else skipElements skip content bounds

def MarshalArray.skip (skip : Skipper TraverseStatus) (content : TypeCode R) (bounds : ULong) :
    Skipper TraverseStatus :=
  skipElements skip content bounds

def MarshalAlias.skip (skip : R → Skipper TraverseStatus) (content : R) : Skipper TraverseStatus :=
  mustContinue (skip content)

/-! ### The dispatch -/

/-- **A value is skipped**, given a reference to the TypeCode of its type. -/
def MarshalObject.performSkip (G : R → TypeCode R) (extract : Reader R) (n : ℕ) :
    ℕ → R → Skipper TraverseStatus
  | 0, _ => Program.undefined
  | fuel + 1, r =>
    let skip := MarshalObject.performSkip G extract n fuel
    match G r with
    | .native | .abstractInterface | .localInterface | .component | .home => pure .traverseStop
    | .any => MarshalAny.skip extract skip
    | .typeCode => MarshalTypeCode.skip
    | .principal => MarshalPrincipal.skip
    | .objref => MarshalObjRef.skip
    | .struct types => MarshalStruct.skip skip types
    | .union discriminator cases defaultIndex =>
      MarshalUnion.skip n skip (G discriminator) cases defaultIndex
    | .string => MarshalString.skip
    | .sequence content => MarshalSequence.skip (skip content) (G content)
    | .array content length => MarshalArray.skip (skip content) (G content) length
    | .alias content => MarshalAlias.skip skip content
    | .except types => MarshalExcept.skip skip types
    | .wstring => MarshalWString.skip n
    | tc => MarshalPrimitive.skip n tc

end AceTao.Marshal
