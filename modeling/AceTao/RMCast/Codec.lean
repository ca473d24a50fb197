import AceTao.Cdr.Output
import AceTao.Library.AlignUp
import AceTao.RMCast.Fragment

/-!
# Messages as bytes

A message is written as its length and its profiles, in the order in which its hash map is iterated.
A profile is a header, with its identifier and the size of its body, and the body. The sizes are
found with an `ACE_SizeCDR`, a stream that counts only: that of a message from its first byte on, but
that of a body as if it were written at the beginning of a stream.

`Link::recv` reads profiles until no header is left. The lists of numbers in a `NAK` and in an `NRTM`
come without their lengths: these are computed from the size in the header.

The host is little-endian, as the bytes are.
-/

namespace AceTao.RMCast

open AlignUp Cdr OutputCDR InputCDR

/-! ### Sizes -/

namespace SizeCDR

def adjust (size align pos : ℕ) : ℕ := alignUp pos align + size

def write2 : ℕ → ℕ := adjust 2 2
def write4 : ℕ → ℕ := adjust 4 4
def write8 : ℕ → ℕ := adjust 8 8

def writeCharArray (length : ULong) (pos : ℕ) : ℕ :=
  if length = 0 then pos else adjust (1 * length.toNat) 1 pos

end SizeCDR

open SizeCDR

namespace Profile

/-- `serialize_body` on an `ACE_SizeCDR` at a position. -/
def sizeBody : Profile → ℕ → ℕ
  | .fromAddress _, pos => SizeCDR.write2 (SizeCDR.write4 pos)
  | .toAddress _, pos => SizeCDR.write2 (SizeCDR.write4 pos)
  | .data d, pos => SizeCDR.writeCharArray (BitVec.ofNat 32 d.size) pos
  | .sn _, pos => SizeCDR.write8 pos
  | .nak _ sns, pos =>
    sns.foldl (fun pos _ => SizeCDR.write8 pos) (SizeCDR.write2 (SizeCDR.write4 pos))
  | .nrtm map, pos =>
    map.foldl (fun pos _ => SizeCDR.write2 (SizeCDR.write4 (SizeCDR.write8 pos))) pos
  | .noData, pos => pos
  | .part _, pos => SizeCDR.write8 (SizeCDR.write4 (SizeCDR.write4 pos))

/-- The size in the header, a `u16`. -/
def calculateSize (p : Profile) : U16 := BitVec.ofNat 16 (p.sizeBody 0)

end Profile

/-- The size of a message, with its length and its headers. -/
def Message.size (m : Message) : ℕ :=
  m.profiles.foldl (fun pos p => p.sizeBody (SizeCDR.write2 (SizeCDR.write2 pos)))
    (SizeCDR.write4 0)

/-! ### Writing -/

section

variable (heap : ℕ → ℕ)

def writeAddress (address : Address) : Writer Unit := do
  writeUlong heap address.ip
  writeUshort heap address.port

def writeSns : List U64 → Writer Unit
  | [] => pure ()
  | sn :: sns => do
    writeUlonglong heap sn
    writeSns sns

def writeBlocks : List (Address × U64) → Writer Unit
  | [] => pure ()
  | (address, sn) :: blocks => do
    writeUlonglong heap sn
    writeAddress heap address
    writeBlocks blocks

/-- `serialize_body`. -/
def Profile.writeBody : Profile → Writer Unit
  | .fromAddress address => writeAddress heap address
  | .toAddress address => writeAddress heap address
  | .data d => OutputCDR.writeCharArray heap (d.buf.map (·.toBitVec)) (BitVec.ofNat 32 d.size)
  | .sn n => writeUlonglong heap n
  | .nak address sns => do
    writeAddress heap address
    writeSns heap sns
  | .nrtm map => writeBlocks heap map
  | .noData => pure ()
  | .part p => do
    writeUlong heap p.num
    writeUlong heap p.of
    writeUlonglong heap p.totalSize

def writeProfiles : List Profile → Writer Unit
  | [] => pure ()
  | p :: ps => do
    writeUshort heap p.id
    writeUshort heap p.calculateSize
    p.writeBody heap
    writeProfiles ps

/-- **`operator<<` of a message.** -/
def Message.write (m : Message) : Writer Unit := do
  writeUlong heap (BitVec.ofNat 32 m.size)
  writeProfiles heap m.profiles

end

/-! ### Reading -/

/-- What `is >> x` does to a variable: its value is kept where nothing can be read. -/
def assign {α : Type} (old : α) (m : Reader α) : Reader α := Program.handle m fun _ => pure old

/-- The same for a variable without a value. -/
def define {α : Type} (m : Reader α) : Reader α := Program.handle m fun _ => Program.undefined

/-- The size of a number in a `NAK`, and the size of its address. -/
def snSize : ℕ := SizeCDR.write8 0
def addrSize : ℕ := SizeCDR.write2 (SizeCDR.write4 0)

/-- The size of an entry of an `NRTM`. -/
def blockSize : ℕ := SizeCDR.write2 (SizeCDR.write4 (SizeCDR.write8 0))

/-- The number of serial numbers in a `NAK`, computed in `size_t`. -/
def nakCount (size : U16) : ℕ := (size.toNat + 2 ^ 64 - addrSize) % 2 ^ 64 / snSize

/-- The number of entries in an `NRTM`. -/
def nrtmCount (size : U16) : ℕ := size.toNat / blockSize

/-- The loop of the constructor of a `NAK`, with the last value of `sn`. -/
def readSns : ℕ → U64 → Reader (List U64)
  | 0, _ => pure []
  | n + 1, sn => do
    let sn ← assign sn readUlonglong
    let sns ← readSns n sn
    pure (sn :: sns)

/-- `bind`, which keeps the first entry for an address. -/
def bindBlock (map : List (Address × U64)) (address : Address) (sn : U64) : List (Address × U64) :=
  if address ∈ map.map Prod.fst then map else map ++ [(address, sn)]

/-- The loop of the constructor of an `NRTM`, with the last values of its variables. -/
def readBlocks : ℕ → Address → U64 → List (Address × U64) → Reader (List (Address × U64))
  | 0, _, _, map => pure map
  | n + 1, address, sn, map => do
    let sn ← assign sn readUlonglong
    let ip ← assign address.ip readUlong
    let port ← assign address.port readUshort
    readBlocks n ⟨port, ip⟩ sn (bindBlock map ⟨port, ip⟩ sn)

/-- The constructors from a header and a stream. The program is aborted for other identifiers. -/
def readProfile (id size : U16) : Reader Profile :=
  if id = (Profile.sn 0).id then do
    let n ← define readUlonglong
    pure (.sn n)
  else if id = (Profile.data (.new [] 0)).id then
    if size = 0 then pure (.data (.new [] 0))
    else do
      let buf ← define (readCharArray (Codeset.plain 4) (size.setWidth 32))
      pure (.data (.new (buf.map UInt8.ofBitVec) 0))
  else if id = (Profile.nak ⟨0, 0⟩ []).id then do
    let ip ← assign 0 readUlong
    let port ← assign 0 readUshort
    let sns ← readSns (nakCount size) 0
    pure (.nak ⟨port, ip⟩ sns)
  else if id = (Profile.nrtm []).id then do
    let map ← readBlocks (nrtmCount size) ⟨0, 0⟩ 0 []
    pure (.nrtm map)
  else if id = Profile.noData.id then pure .noData
  else if id = (Profile.part ⟨0, 0, 0⟩).id then do
    let num ← define readUlong
    let of ← define readUlong
    let totalSize ← define readUlonglong
    pure (.part ⟨num, of, totalSize⟩)
  else Program.undefined

/-- `is >> x`, as a condition. -/
def extract {α : Type} (m : Reader α) : Reader α := do
  let x ← m
  returnGoodBit x

/-- The condition of the loop: a header. -/
def readHeader : Reader (U16 × U16) := do
  let id ← extract readUshort
  let size ← extract readUshort
  pure (id, size)

/-- The loop of `Link::recv`, with a bound on how often its condition is tested. -/
def readProfiles : ℕ → Message → Reader Message
  | 0, _ => Program.undefined
  | tests + 1, m => do
    let header ← Program.attempt readHeader
    match header with
    | none => pure m
    | some (id, size) => do
      let p ← readProfile id size
      readProfiles tests (m.add p)

/-- **What `Link::recv` makes of the bytes of a message.** A header takes four bytes. -/
def readMessage (source self : Address) : Reader Message := do
  let _ ← define readUlong
  let s ← Program.get
  readProfiles (s.data.length + 1) (Message.empty.linked source self)

end AceTao.RMCast
