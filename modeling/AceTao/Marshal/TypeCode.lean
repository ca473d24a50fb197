import AceTao.Cdr.Datum
import AceTao.Cdr.WideReadBack

/-!
# TypeCodes and the values they describe

A `TypeCode` describes a type, and refers to the TypeCodes of its parts. The references are elements
of a type `R`, and a function `R → TypeCode R` says what is behind each, so the TypeCode of a
recursive type refers to itself.

A `Value` is a value of some type. `Value.put` appends the bytes of a value to a stream, in a byte
order, a GIOP version, with wide characters of a size, and with an encoding for each TypeCode that
is in an `any` (`Encoding`).

`HasType` says that a value is one of the type behind a reference. It has a parameter `Q`, which is
required of every part of the value together with the reference to the type of the part; with
`fun _ _ => True` it says nothing but the type.

Value types are left out, and so are the names and identifiers in a TypeCode, the bounds of strings
and sequences and the scale of a fixed point type, which play no role in the traversal of a stream.
-/

namespace AceTao.Marshal

open Cdr ByteImage

/-! ### TypeCodes -/

/-- A value of the discriminator of a union, with its type. -/
inductive Label
  | octet (x : Octet)
  | short (x : UShort)
  | ushort (x : UShort)
  | long (x : ULong)
  | ulong (x : ULong)
  | enum (x : ULong)
  | char (c : Octet)
  | wchar (c : WChar)
  | boolean (b : Bool)
  | longlong (x : ULongLong)
  | ulonglong (x : ULongLong)
  deriving DecidableEq, Repr

/-- **A TypeCode**: its kind, with the parameters of the kind. -/
inductive TypeCode (R : Type)
  | null
  | void
  | short
  | long
  | ushort
  | ulong
  | float
  | double
  | boolean
  | char
  | octet
  | any
  | typeCode
  | principal
  | objref
  | struct (memberTypes : List R)
  | union (discriminatorType : R) (cases : List (Label × R)) (defaultIndex : Option ℕ)
  | enum
  | string
  | sequence (contentType : R)
  | array (contentType : R) (length : ULong)
  | alias (contentType : R)
  | except (memberTypes : List R)
  | longlong
  | ulonglong
  | longdouble
  | wchar
  | wstring
  | fixed (digits : UShort)
  | native
  | abstractInterface
  | localInterface
  | component
  | home

/-- The kinds of values of a fixed size that are words or octets. -/
def TypeCode.scalar {R : Type} : TypeCode R → Option Scalar
  | .short => some .short
  | .long => some .long
  | .ushort => some .ushort
  | .ulong => some .ulong
  | .float => some .float
  | .double => some .double
  | .octet => some .octet
  | .longlong => some .longlong
  | .ulonglong => some .ulonglong
  | .longdouble => some .longdouble
  | _ => none

/-- **A label is a value of a type** for wide characters of `n` bytes. -/
inductive TypeCode.Labels {R : Type} (n : ℕ) : TypeCode R → Label → Prop
  | short (x : UShort) : Labels n .short (.short x)
  | ushort (x : UShort) : Labels n .ushort (.ushort x)
  | long (x : ULong) : Labels n .long (.long x)
  | ulong (x : ULong) : Labels n .ulong (.ulong x)
  | enum (x : ULong) : Labels n .enum (.enum x)
  | char (c : Octet) : Labels n .char (.char c)
  | wchar (x : WChar) (hx : x.toNat < 256 ^ n) : Labels n .wchar (.wchar x)
  | boolean (b : Bool) : Labels n .boolean (.boolean b)
  | longlong (x : ULongLong) : Labels n .longlong (.longlong x)
  | ulonglong (x : ULongLong) : Labels n .ulonglong (.ulonglong x)

/-- The member of a union that a discriminator selects: the one with that label, or else the
default. -/
def selected {R : Type} (cases : List (Label × R)) (defaultIndex : Option ℕ) (d : Label) :
    Option R :=
  match cases.zipIdx.find? fun c => c.1.1 = d ∧ defaultIndex ≠ some c.2 with
  | some c => some c.1.2
  | none => defaultIndex.bind fun i => (cases[i]?).map Prod.snd

/-! ### TypeCodes in a stream -/

/-- The kinds, in the order of their numbers. -/
inductive TCKind
  | null | void | short | long | ushort | ulong | float | double | boolean | char | octet | any
  | typeCode | principal | objref | struct | union | enum | string | sequence | array | alias
  | except | longlong | ulonglong | longdouble | wchar | wstring | fixed | value | valueBox
  | native | abstractInterface | localInterface | component | home | event
  deriving DecidableEq, Repr

def tcKinds : List TCKind :=
  [.null, .void, .short, .long, .ushort, .ulong, .float, .double, .boolean, .char, .octet, .any,
    .typeCode, .principal, .objref, .struct, .union, .enum, .string, .sequence, .array, .alias,
    .except, .longlong, .ulonglong, .longdouble, .wchar, .wstring, .fixed, .value, .valueBox,
    .native, .abstractInterface, .localInterface, .component, .home, .event]

/-- The number of a kind. -/
def TCKind.toULong (k : TCKind) : ULong := BitVec.ofNat 32 (tcKinds.idxOf k)

/-- The kind with a number. -/
def TCKind.ofULong (x : ULong) : Option TCKind := tcKinds[x.toNat]?

theorem TCKind.ofULong_toULong (k : TCKind) : ofULong k.toULong = some k := by
  cases k <;> rfl

/-- The parameters of a kind, as they are in a stream. -/
inductive Parameters
  | none
  | bound (n : ULong)
  | fixed (digits scale : UShort)
  | encapsulation (octets : List Octet)

/-- The kinds whose parameters are in an encapsulation. -/
def TCKind.isComplex : TCKind → Bool
  | .objref | .struct | .union | .enum | .sequence | .array | .alias | .except | .value | .valueBox
  | .native | .abstractInterface | .localInterface | .component | .home | .event => true
  | _ => false

/-- A kind has these parameters. -/
def TCKind.Takes (k : TCKind) : Parameters → Prop
  | .none => k.isComplex = false ∧ k ≠ .string ∧ k ≠ .wstring ∧ k ≠ .fixed
  | .bound _ => k = .string ∨ k = .wstring
  | .fixed _ _ => k = .fixed
  | .encapsulation octets => k.isComplex = true ∧ octets.length < 2 ^ 32

/-- **The encoding of a TypeCode**, at top level: an indirection occurs only inside. -/
structure TypeCodeImage where
  kind : TCKind
  parameters : Parameters
  legal : kind.Takes parameters

/-! ### Values -/

/-- A value of some type. An `any` refers to the TypeCode of the value it holds. -/
inductive Value (R : Type)
  | null
  | scalar (x : Scalar) (v : x.Value)
  | boolean (b : Bool)
  | char (c : Octet)
  | wchar (x : WChar)
  | enum (x : ULong)
  | fixed (octets : List Octet)
  | string (cs : List Octet)
  | wstring (cs : List WChar)
  | typeCode (tc : TypeCodeImage)
  | any (r : R) (v : Value R)
  | principal (octets : List Octet)
  | objref (typeId : List Octet) (profiles : List (ULong × List Octet))
  | struct (members : List (Value R))
  | except (id : List Octet) (members : List (Value R))
  | union (d : Label) (member : Value R)
  | sequence (elements : List (Value R))
  | array (elements : List (Value R))

/-- **How values are encoded in a stream**, and how the TypeCodes behind references are. -/
structure Encoding (R : Type) where
  doByteSwap : Bool
  giop12 : Bool
  wcharMaxbytes : ℕ
  image : R → TypeCodeImage

section Put

variable {R : Type} (e : Encoding R)

/-- A word, behind its padding. -/
def putWord (size align : ℕ) (x : BitVec (8 * size)) (w : Wire) : Wire :=
  put align (wireImage size e.doByteSwap x) w

def putUlong (x : ULong) (w : Wire) : Wire := putWord e 4 4 x w

/-- Octets without a length. -/
def putOctets (octets : List Octet) (w : Wire) : Wire := putArray 1 e.doByteSwap 1 octets w

/-- Octets behind their number. -/
def putOctetSeq (octets : List Octet) (w : Wire) : Wire :=
  putOctets e octets (putUlong e (BitVec.ofNat 32 octets.length) w)

/-- The bytes of an array of wide characters. -/
def putWchars (cs : List WChar) (w : Wire) : Wire :=
  putArray e.wcharMaxbytes e.doByteSwap e.wcharMaxbytes (cs.map (narrow e.wcharMaxbytes)) w

/-- A wide string: the length is in bytes in GIOP 1.2, and the terminator is counted before. -/
def putWideString (cs : List WChar) (w : Wire) : Wire :=
  if e.giop12 then putWchars e cs (putUlong e (BitVec.ofNat 32 (e.wcharMaxbytes * cs.length)) w)
  else putWchars e (cs ++ [0]) (putUlong e (BitVec.ofNat 32 (cs.length + 1)) w)

def Parameters.put : Parameters → Wire → Wire
  | .none, w => w
  | .bound n, w => putUlong e n w
  | .fixed digits scale, w => putWord e 2 2 scale (putWord e 2 2 digits w)
  | .encapsulation octets, w => putOctetSeq e octets w

def TypeCodeImage.put (tc : TypeCodeImage) (w : Wire) : Wire :=
  tc.parameters.put e (putUlong e tc.kind.toULong w)

def Label.put : Label → Wire → Wire
  | .octet x, w | .char x, w => Cdr.put 1 (image 1 x) w
  | .short x, w | .ushort x, w => putWord e 2 2 x w
  | .long x, w | .ulong x, w | .enum x, w => putUlong e x w
  | .wchar x, w => InputCDR.putWchar e.doByteSwap e.wcharMaxbytes e.giop12 x w
  | .boolean b, w => Cdr.put 1 (image 1 (booleanOctet b)) w
  | .longlong x, w | .ulonglong x, w => putWord e 8 8 x w

/-- The profiles of an object reference, each behind its tag. -/
def putProfiles (profiles : List (ULong × List Octet)) (w : Wire) : Wire :=
  profiles.foldl (fun w p => putOctetSeq e p.2 (putUlong e p.1 w)) w

mutual

/-- **The bytes of a value** behind those that are in the stream. -/
def Value.put : Value R → Wire → Wire
  | .null, w => w
  | .scalar x v, w => putWord e x.size x.align v w
  | .boolean b, w => Cdr.put 1 (image 1 (booleanOctet b)) w
  | .char c, w => Cdr.put 1 (image 1 c) w
  | .wchar x, w => InputCDR.putWchar e.doByteSwap e.wcharMaxbytes e.giop12 x w
  | .enum x, w => putUlong e x w
  | .fixed octets, w => putOctets e octets w
  | .string cs, w => putString e.doByteSwap cs w
  | .wstring cs, w => putWideString e cs w
  | .typeCode tc, w => tc.put e w
  | .any r v, w => v.put ((e.image r).put e w)
  | .principal octets, w => putOctetSeq e octets w
  | .objref typeId profiles, w =>
    putProfiles e profiles (putUlong e (BitVec.ofNat 32 profiles.length)
      (putString e.doByteSwap typeId w))
  | .struct members, w => Value.putAll members w
  | .except id members, w => Value.putAll members (putString e.doByteSwap id w)
  | .union d member, w => member.put (d.put e w)
  | .sequence elements, w => Value.putAll elements (putUlong e (BitVec.ofNat 32 elements.length) w)
  | .array elements, w => Value.putAll elements w

/-- The bytes of values, one after the other. -/
def Value.putAll : List (Value R) → Wire → Wire
  | [], w => w
  | v :: vs, w => Value.putAll vs (v.put w)

end

end Put

/-! ### Values of a type -/

section Typing

variable {R : Type} (G : R → TypeCode R) (e : Encoding R) (extract : Reader R)
  (Q : R → Value R → Prop)

/-- **A value without parts is one of a type.** -/
inductive TypeCode.Describes : TypeCode R → Value R → Prop
  | null : Describes .null .null
  | void : Describes .void .null
  | scalar {tc : TypeCode R} {x : Scalar} (h : tc.scalar = some x) (v : x.Value) :
    Describes tc (.scalar x v)
  | boolean (b : Bool) : Describes .boolean (.boolean b)
  | char (c : Octet) : Describes .char (.char c)
  | wchar (x : WChar) (hx : x.toNat < 256 ^ e.wcharMaxbytes) : Describes .wchar (.wchar x)
  | enum (x : ULong) : Describes .enum (.enum x)
  | fixed (digits : UShort) (octets : List Octet) (h : octets.length = (digits.toNat + 2) / 2) :
    Describes (.fixed digits) (.fixed octets)
  | string (cs : List Octet) (h : cs.length + 1 < 2 ^ 32) : Describes .string (.string cs)
  | wstring (cs : List WChar) (hx : ∀ x ∈ cs, x.toNat < 256 ^ e.wcharMaxbytes)
    (h : (if e.giop12 then e.wcharMaxbytes * cs.length else cs.length + 1) < 2 ^ 32) :
    Describes .wstring (.wstring cs)
  | typeCode (tc : TypeCodeImage) : Describes .typeCode (.typeCode tc)
  | principal (octets : List Octet) (h : octets.length < 2 ^ 32) :
    Describes .principal (.principal octets)
  | objref (typeId : List Octet) (profiles : List (ULong × List Octet))
    (hid : typeId.length + 1 < 2 ^ 32) (hlen : profiles.length < 2 ^ 32)
    (hps : ∀ p ∈ profiles, p.2.length < 2 ^ 32) : Describes .objref (.objref typeId profiles)

/-- The type of a discriminator may be an alias. -/
inductive Discriminates : R → Label → Prop
  | label {r : R} {l : Label} (h : (G r).Labels e.wcharMaxbytes l) : Discriminates r l
  | aliased {r content : R} {l : Label} (h : G r = .alias content)
    (hl : Discriminates content l) : Discriminates r l

/-- **The extraction operator reads a TypeCode**, wherever its encoding is in a stream. -/
def Extracts (r : R) : Prop :=
  ∀ s w, s.giop12 = e.giop12 → InputCDR.At e.doByteSwap s w →
    InputCDR.Agrees s ((e.image r).put e w) →
    InputCDR.Reads e.doByteSwap extract r s ((e.image r).put e w)

/-- **A value has a type**, and every part of it satisfies `Q`. -/
inductive HasType : R → Value R → Prop
  | leaf {r v} (h : (G r).Describes e v) (q : Q r v) : HasType r v
  | any {r r' v} (h : G r = .any) (htc : Extracts e extract r') (hv : HasType r' v)
    (q : Q r (.any r' v)) : HasType r (.any r' v)
  | struct {r types vs} (h : G r = .struct types) (hlen : types.length = vs.length)
    (hvs : ∀ i h₁ h₂, HasType (types.get ⟨i, h₁⟩) (vs.get ⟨i, h₂⟩)) (q : Q r (.struct vs)) :
    HasType r (.struct vs)
  | except {r types id vs} (h : G r = .except types) (hid : id.length + 1 < 2 ^ 32)
    (hlen : types.length = vs.length)
    (hvs : ∀ i h₁ h₂, HasType (types.get ⟨i, h₁⟩) (vs.get ⟨i, h₂⟩)) (q : Q r (.except id vs)) :
    HasType r (.except id vs)
  | union {r discriminator cases defaultIndex d r' v}
    (h : G r = .union discriminator cases defaultIndex)
    (hlabels : ∀ c ∈ cases.zipIdx, defaultIndex ≠ some c.2 → Discriminates G e discriminator c.1.1)
    (hd : Discriminates G e discriminator d) (hmember : selected cases defaultIndex d = some r')
    (hv : HasType r' v) (q : Q r (.union d v)) : HasType r (.union d v)
  | implicitDefault {r discriminator cases defaultIndex d}
    (h : G r = .union discriminator cases defaultIndex)
    (hlabels : ∀ c ∈ cases.zipIdx, defaultIndex ≠ some c.2 → Discriminates G e discriminator c.1.1)
    (hd : Discriminates G e discriminator d) (hmember : selected cases defaultIndex d = none)
    (q : Q r (.union d .null)) : HasType r (.union d .null)
  | sequence {r content vs} (h : G r = .sequence content) (hlen : vs.length < 2 ^ 32)
    (hvs : ∀ v ∈ vs, HasType content v) (q : Q r (.sequence vs)) : HasType r (.sequence vs)
  | array {r content length vs} (h : G r = .array content length) (hlen : vs.length = length.toNat)
    (hvs : ∀ v ∈ vs, HasType content v) (q : Q r (.array vs)) : HasType r (.array vs)
  | aliased {r content v} (h : G r = .alias content) (hv : HasType content v) : HasType r v

end Typing

end AceTao.Marshal
