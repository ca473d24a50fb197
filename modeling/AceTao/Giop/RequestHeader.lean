import AceTao.Cdr.Bounds

/-!
# Parsing the header of a request: the code

`parse_request_header` of the parser for GIOP 1.0, which is also the one for GIOP 1.1, and of the
parser for GIOP 1.2. They differ in what stands before and behind the name of the operation. The
name is not copied: its address in the message is recorded, and its length without the terminator.

How sequences of octets, of service contexts and of profiles are read is a parameter, since this
code is generated. Service contexts are not processed further. An operation that answers `false` is
remembered in `hdr_status`, and no exception leaves the parser.
-/

namespace AceTao.Giop

open Cdr InputCDR

/-- The generated operators. That of a sequence of profiles answers how many there are. -/
structure Generated where
  serviceContextList : Reader Unit
  octetSeq : Reader Unit
  taggedProfile : Reader Unit
  taggedProfileSeq : Reader ℕ

/-- The parsers for GIOP 1.0 and 1.1, and for GIOP 1.2. -/
inductive Parser
  | parser10
  | parser12

/-- What is recorded in a `TAO_ServerRequest`; the operation is a pointer with a length. -/
structure RequestHeader where
  requestId : ULong
  responseExpected : Bool
  syncWithServer : Bool
  operation : Option (ℕ × ℕ)

/-- A program over a message that answers `false` instead of an exception. -/
abbrev HeaderReader (α : Type) := Program InputCDR Empty α

variable {α ε : Type}

/-- `hdr_status && m`, for an operation that reads into a variable. -/
def andRead (hdrStatus : Bool) (m : Reader α) (x : α) : Program InputCDR ε (Bool × α) :=
  if hdrStatus then do
    match ← Program.attempt m with
    | some y => pure (true, y)
    | none => pure (false, x)
  else pure (false, x)

/-! ### The target -/

/-- `skip_bytes` for a signed length. It has no answer if `rd_ptr` is moved in front of the
buffer. -/
def skipLong (length : ULong) : Reader Unit := do
  skipBytes (length.signExtend 64).toNat
  let s ← Program.get
  if s.base ≤ s.rdPtr then pure () else Program.undefined

/-- `unmarshall_object_key_i`: whether the octets of the key are there is not checked. -/
def unmarshallObjectKeyI : Reader Unit := do
  let s ← Program.get
  if s.goodBit then do
    let keyLength ← readLong
    let _ ← Program.attempt (skipLong keyLength)
    pure ()
  else Program.throw .earlier

/-- `unmarshall_iop_profile_i`. -/
def unmarshallIopProfileI (g : Generated) : Reader Unit := do
  let s ← Program.get
  g.taggedProfile
  if s.goodBit then pure () else Program.throw .earlier

/-- `unmarshall_ref_addr_i`. There is no answer for an index beyond the profiles. -/
def unmarshallRefAddrI (g : Generated) : Reader Unit := do
  let s ← Program.get
  let (hdrStatus, profIndex) ← andRead s.goodBit readUlong 0
  let (hdrStatus, idLength) ← andRead hdrStatus readLong 0
  if hdrStatus then do
    let _ ← Program.attempt (skipLong idLength)
    let n ← g.taggedProfileSeq
    if profIndex.toNat < n then pure () else Program.undefined
  else do
    let _ ← g.taggedProfileSeq
    Program.throw .earlier

/-- **`unmarshall_target_address`**. -/
def unmarshallTargetAddress (g : Generated) : Reader Unit := do
  let discriminator ← readShort
  match discriminator.toNat with
  | 0 => unmarshallObjectKeyI
  | 1 => unmarshallIopProfileI g
  | 2 => unmarshallRefAddrI g
  | _ => Program.throw .content

/-! ### The name of the operation -/

/-- `strlen`, at `rd_ptr`; there is no answer if no octet of the rest of the buffer is zero. -/
def strlenAt : HeaderReader ℕ := do
  let s ← Program.get
  let rest := s.data.drop (s.rdPtr - s.base)
  if 0 ∈ rest then pure (rest.takeWhile (· ≠ 0)).length else Program.undefined

/-- `TAO_ServerRequest::operation`, at `rd_ptr`: a length of zero is computed by `strlen`. -/
def setOperation (length : ULong) : HeaderReader (ℕ × ℕ) := do
  let s ← Program.get
  if length = 0 then do
    let n ← strlenAt
    pure (s.rdPtr, n)
  else pure (s.rdPtr, length.toNat)

/-- What is done with a name of `length` bytes. -/
def recordName (header : RequestHeader) (length : ULong) : HeaderReader (Bool × RequestHeader) := do
  let operation ← setOperation (length - 1)
  let skipped ← Program.attempt (skipBytes length.toNat)
  pure (skipped.isSome, { header with operation := some operation })

/-- The name of the operation, which stands in the code of both parsers. -/
def readOperation (hdrStatus : Bool) (header : RequestHeader) :
    HeaderReader (Bool × RequestHeader) := do
  let (hdrStatus, length) ← andRead hdrStatus readUlong 0
  if hdrStatus then recordName header length else pure (false, header)

/-! ### The parsers -/

variable (g : Generated)

/-- What stands before the target. If the service contexts cannot be read, the parser for GIOP 1.0
returns. -/
def beforeTarget : Parser → HeaderReader (Bool × RequestHeader)
  | .parser10 => do
    match ← Program.attempt g.serviceContextList with
    | none => pure (false, ⟨0, false, false, none⟩)
    | some _ => do
      let s ← Program.get
      let (hdrStatus, reqId) ← andRead s.goodBit readUlong 0
      let (hdrStatus, responseFlags) ← andRead hdrStatus readOctet 0
      pure (hdrStatus, ⟨reqId, responseFlags ≠ 0, false, none⟩)
  | .parser12 => do
    let s ← Program.get
    let (hdrStatus, reqId) ← andRead s.goodBit readUlong 0
    let (hdrStatus, responseFlags) ← andRead hdrStatus readOctet 0
    let _ ← Program.attempt (skipBytes 3)
    pure (hdrStatus, ⟨reqId, responseFlags ≠ 0, responseFlags = 1, none⟩)

/-- The target. -/
def target : Parser → Reader Unit
  | .parser10 => unmarshallObjectKeyI
  | .parser12 => unmarshallTargetAddress g

/-- What stands before the name of the operation. -/
def beforeOperation (p : Parser) : HeaderReader (Bool × RequestHeader) := do
  let (hdrStatus, header) ← beforeTarget g p
  let (hdrStatus, _) ← andRead hdrStatus (target g p) ()
  pure (hdrStatus, header)

/-- What stands behind the name of the operation. -/
def behindOperation : Parser → Bool → HeaderReader Bool
  | .parser10, hdrStatus =>
    if hdrStatus then do
      let _ ← Program.attempt g.octetSeq
      let s ← Program.get
      pure s.goodBit
    else pure false
  | .parser12, hdrStatus => do
    match ← Program.attempt g.serviceContextList with
    | none => pure false
    | some _ => do
      let s ← Program.get
      if s.length > 0 then do
        -- the answer of `align_read_ptr` is ignored
        let _ ← Program.attempt (adjust 0 8)
        pure hdrStatus
      else pure hdrStatus

/-- **`parse_request_header`**: whether it returns success, and what it has recorded. -/
def parseRequestHeader (p : Parser) : HeaderReader (Bool × RequestHeader) := do
  let (hdrStatus, header) ← beforeOperation g p
  let (hdrStatus, header) ← readOperation hdrStatus header
  let hdrStatus ← behindOperation g p hdrStatus
  pure (hdrStatus, header)

end AceTao.Giop
