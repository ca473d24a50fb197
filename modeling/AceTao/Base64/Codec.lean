import AceTao.Library.Buffer
import Mathlib.Algebra.GroupWithZero.Nat
import Mathlib.Data.Nat.Notation
import Mathlib.Logic.Function.Basic

/-!
# `ACE_Base64`: the code

`encode` and `decode` fill a buffer that they allocate; `decode` reads an input that a null byte
ends. A load or a store outside a buffer is undefined, and so is an input without a null byte. The
contents of a new buffer are arbitrary, and memory is never exhausted. Which characters are spaces
depends on the locale; a newline is one.

The accumulator `bits` is an `int` and a natural number here: it takes at most 24 bits. Sizes are
natural numbers: an array long enough for its size to overflow does not exist.
-/

namespace AceTao.Base64

/-- What the codec takes from its surroundings: `new ACE_Byte[n]` and `isspace`. -/
structure Environment where
  new : ℕ → List UInt8
  length_new : ∀ n, (new n).length = n
  isspace : UInt8 → Bool
  isspace_newline : isspace 10 = true

/-- `alphabet`, with the null byte that ends the literal. -/
def alphabet : List UInt8 :=
  [65, 66, 67, 68, 69, 70, 71, 72, 73, 74, 75, 76, 77, 78, 79, 80, 81, 82, 83, 84, 85, 86, 87, 88,
    89, 90, 97, 98, 99, 100, 101, 102, 103, 104, 105, 106, 107, 108, 109, 110, 111, 112, 113, 114,
    115, 116, 117, 118, 119, 120, 121, 122, 48, 49, 50, 51, 52, 53, 54, 55, 56, 57, 43, 47, 0]

/-- `'='`. -/
def pad : UInt8 := 61

/-- `'\n'`. -/
def newline : UInt8 := 10

def maxColumns : ℕ := 72

/-- The tables `decoder_` and `member_` as `init` fills them. -/
def init : (UInt8 → ℕ) × (UInt8 → ℕ) :=
  alphabet.zipIdx.foldl
    (fun t c => (Function.update t.1 c.1 c.2, Function.update t.2 c.1 1))
    (fun _ => 0, fun _ => 0)

def decoder : UInt8 → ℕ := init.1

def member : UInt8 → ℕ := init.2

/-! ### `encode` -/

/-- The variables of `encode`. -/
structure Encoding where
  result : List UInt8
  pos : ℕ
  bits : ℕ
  charCount : ℕ
  cols : ℕ

/-- `result[pos++] = c`. -/
def Encoding.put (c : UInt8) (s : Encoding) : Option Encoding :=
  match Buffer.store s.result s.pos c with
  | none => none
  | some result => some { s with result := result, pos := s.pos + 1 }

/-- `result[pos++] = alphabet[i]`. -/
def Encoding.putSymbol (i : ℕ) (s : Encoding) : Option Encoding :=
  match alphabet[i]? with
  | none => none
  | some c => s.put c

/-- The four characters that three bytes give. -/
def Encoding.putGroup (bits : ℕ) (s : Encoding) : Option Encoding := do
  let s ← s.putSymbol (bits >>> 18)
  let s ← s.putSymbol ((bits >>> 12) &&& 0x3f)
  let s ← s.putSymbol ((bits >>> 6) &&& 0x3f)
  s.putSymbol (bits &&& 0x3f)

/-- One turn of the loop of `encode`. -/
def encodeByte (isChunked : Bool) (s : Encoding) (b : UInt8) : Option Encoding :=
  let bits := s.bits + b.toNat
  let charCount := s.charCount + 1
  if charCount = 3 then do
    let s ← s.putGroup bits
    let cols := s.cols + 4
    if cols = maxColumns then do
      let s ← if isChunked then s.put newline else some s
      some { s with cols := 0, bits := 0, charCount := 0 }
    else some { s with cols := cols, bits := 0, charCount := 0 }
  else some { s with bits := bits <<< 8, charCount := charCount }

/-- The bytes that are left over when the input has ended. -/
def encodeLeftover (s : Encoding) : Option Encoding :=
  if s.charCount ≠ 0 then do
    let bits := s.bits <<< (16 - 8 * s.charCount)
    let s ← s.putSymbol (bits >>> 18)
    let s ← s.putSymbol ((bits >>> 12) &&& 0x3f)
    let s ← if s.charCount = 1 then s.put pad else s.putSymbol ((bits >>> 6) &&& 0x3f)
    let s ← s.put pad
    some { s with cols := s.cols + 4 }
  else some s

/-- The size of the buffer that `encode` allocates. -/
def encodeLength (inputLen : ℕ) : ℕ :=
  let length := (inputLen + 2) / 3 * 4
  let numLines := length / maxColumns + 1
  length + (numLines + 1)

/-- **`encode`**: the buffer and the output length. -/
def encode (env : Environment) (input : List UInt8) (isChunked : Bool) :
    Option (List UInt8 × ℕ) := do
  let s ← input.foldlM (encodeByte isChunked) ⟨env.new (encodeLength input.length), 0, 0, 0, 0⟩
  let s ← encodeLeftover s
  let s ← if s.cols > 0 ∧ isChunked then s.put newline else some s
  let result ← Buffer.store s.result s.pos 0
  some (result, s.pos)

/-! ### `decode` -/

/-- Whether the scan of the input goes on at a character. -/
def accepts (env : Environment) (c : UInt8) : Prop :=
  c ≠ 0 ∧ (member c = 1 ∨ c = pad ∨ env.isspace c)

instance (env : Environment) (c : UInt8) : Decidable (accepts env c) :=
  inferInstanceAs (Decidable (_ ∧ _))

/-- The loop of `length` and `decode` that finds the end of the input. -/
def scan (env : Environment) : List UInt8 → Option ℕ
  | [] => none
  | c :: input => if accepts env c then (scan env input).map (· + 1) else some 0

/-- **`length`**. -/
def length (env : Environment) (input : List UInt8) : Option ℕ :=
  (scan env input).map fun len => (len + 3) / 4 * 3 + 1

/-- The variables of `decode`. -/
structure Decoding where
  result : List UInt8
  pos : ℕ
  bits : ℕ
  charCount : ℕ

/-- `result[pos++] = static_cast<ACE_Byte> (i)`. -/
def Decoding.put (i : ℕ) (s : Decoding) : Option Decoding :=
  match Buffer.store s.result s.pos (UInt8.ofNat i) with
  | none => none
  | some result => some { s with result := result, pos := s.pos + 1 }

/-- The loop of `decode`, with whether it has met a padding character. -/
def decodeLoop : List UInt8 → Decoding → Option (Bool × Decoding)
  | [], s => some (false, s)
  | c :: input, s =>
    if c = pad then some (true, s)
    else if member c = 0 then decodeLoop input s
    else
      let bits := s.bits + decoder c
      let charCount := s.charCount + 1
      if charCount = 4 then do
        let s ← s.put (bits >>> 16)
        let s ← s.put ((bits >>> 8) &&& 0xff)
        let s ← s.put (bits &&& 0xff)
        decodeLoop input { s with bits := 0, charCount := 0 }
      else decodeLoop input { s with bits := bits <<< 6, charCount := charCount }

/-- The bytes that are left over at a padding character. -/
def decodeLeftover (s : Decoding) : Option (Option Decoding) :=
  if s.charCount = 1 then some none
  else if s.charCount = 2 then (s.put (s.bits >>> 10)).map some
  else if s.charCount = 3 then do
    let s ← s.put (s.bits >>> 16)
    let s ← s.put ((s.bits >>> 8) &&& 0xff)
    some (some s)
  else some (some s)

/-- What follows the loop of `decode`; `none` inside for an error. -/
def decodeEnd (padded : Bool) (s : Decoding) : Option (Option Decoding) :=
  if padded then decodeLeftover s
  else if s.charCount ≠ 0 then some none
  else some (some s)

/-- **`decode`**: the buffer and the output length, or `none` inside for the null pointer. -/
def decode (env : Environment) (input : List UInt8) : Option (Option (List UInt8 × ℕ)) := do
  let resultLen ← length env input
  let inputLen ← scan env input
  let (padded, s) ← decodeLoop (input.take inputLen) ⟨env.new resultLen, 0, 0, 0⟩
  let s ← decodeEnd padded s
  match s with
  | none => some none
  | some s => do
    let result ← Buffer.store s.result s.pos 0
    some (some (result, s.pos))

end AceTao.Base64
