import Mathlib.Algebra.BigOperators.Group.List.Basic
import Mathlib.Algebra.GroupWithZero.Nat
import Mathlib.Data.List.Basic
import Mathlib.Data.Nat.Notation
import AceTao.Library.Buffer
import AceTao.Library.Program

/-!
# Blocks of a run-length encoding

A sequence of bytes is cut into *blocks* of at most 128 bytes: literal blocks, and runs of one
byte. A block is encoded with a header byte, the length less one, with the top bit set for a run.

`blocks` cuts from left to right. A run starts at a byte that equals its successor and takes the
equal bytes that follow; every other byte goes to a literal block. The open block and the next byte
decide (`grow`), so that the cut can be made in one pass that looks one byte ahead.
-/

namespace AceTao.Rle

/-- **A block** of at least one and at most 128 bytes. -/
inductive Block
  | literal (bs : List UInt8) (h : 0 < bs.length ∧ bs.length ≤ 128)
  | run (b : UInt8) (n : ℕ) (h : 0 < n ∧ n ≤ 128)

namespace Block

/-- The bytes of a block. -/
def expand : Block → List UInt8
  | literal bs _ => bs
  | run b n _ => List.replicate n b

/-- The encoded block. -/
def encode : Block → List UInt8
  | literal bs _ => UInt8.ofNat (bs.length - 1) :: bs
  | run b n _ => [UInt8.ofNat ((n - 1) ||| 0x80), b]

@[simp] theorem expand_literal {bs : List UInt8} {h : 0 < bs.length ∧ bs.length ≤ 128} :
    (literal bs h).expand = bs := rfl

@[simp] theorem expand_run {b : UInt8} {n : ℕ} {h : 0 < n ∧ n ≤ 128} :
    (run b n h).expand = List.replicate n b := rfl

/-- Whether a block is a literal one. -/
def isLiteral : Block → Bool
  | literal _ _ => true
  | run _ _ _ => false

/-- What a run of a byte saves: its bytes past the second. -/
def saving : Block → ℕ
  | literal _ _ => 0
  | run _ n _ => n - 2

end Block

/-- The bytes of a sequence of blocks. -/
def expand (bs : List Block) : List UInt8 := bs.flatMap Block.expand

/-- The encoding of a sequence of blocks. -/
def encode (bs : List Block) : List UInt8 := bs.flatMap Block.encode

@[simp] theorem expand_nil : expand [] = [] := rfl

@[simp] theorem encode_nil : encode [] = [] := rfl

@[simp] theorem expand_cons (b : Block) (bs : List Block) :
    expand (b :: bs) = b.expand ++ expand bs := List.flatMap_cons

@[simp] theorem encode_cons (b : Block) (bs : List Block) :
    encode (b :: bs) = b.encode ++ encode bs := List.flatMap_cons

@[simp] theorem expand_append (bs cs : List Block) :
    expand (bs ++ cs) = expand bs ++ expand cs := List.flatMap_append

@[simp] theorem encode_append (bs cs : List Block) :
    encode (bs ++ cs) = encode bs ++ encode cs := List.flatMap_append

/-! ### Cutting -/

theorem fits_one : 0 < 1 ∧ 1 ≤ 128 := ⟨Nat.one_pos, Nat.le_add_left 1 127⟩

theorem fits_literal (bs : List UInt8) (b : UInt8) (h : bs.length < 128) :
    0 < (bs ++ [b]).length ∧ (bs ++ [b]).length ≤ 128 := by
  rw [List.length_append, List.length_singleton]
  omega

theorem fits_run (n : ℕ) (h : n < 128) : 0 < n + 1 ∧ n + 1 ≤ 128 := ⟨Nat.succ_pos n, h⟩

/-- The block that a byte opens. -/
def start (b : UInt8) (next : Option UInt8) : Block :=
  if next = some b then .run b 1 fits_one else .literal [b] fits_one

/-- **A byte is added** to the open block, if there is one: the blocks that it closes, and the open
block. A byte that is added to a run equals the bytes of the run. -/
def grow : Option Block → UInt8 → Option UInt8 → List Block × Option Block
  | none, b, next => ([], some (start b next))
  | some (.literal bs h), b, next =>
    if hlt : bs.length < 128 then
      if next = some b then ([.literal bs h], some (.run b 1 fits_one))
      else ([], some (.literal (bs ++ [b]) (fits_literal bs b hlt)))
    else ([.literal bs h], some (start b next))
  | some (.run c n h), b, next =>
    if hlt : n < 128 then
      if next = none ∨ next = some b then ([], some (.run c (n + 1) (fits_run n hlt)))
      else ([.run c (n + 1) (fits_run n hlt)], none)
    else ([.run c n h], some (start b next))

/-- The blocks that an open block and the bytes after it are cut into. -/
def blocksFrom : Option Block → List UInt8 → List Block
  | o, [] => o.toList
  | o, b :: rest => (grow o b rest.head?).1 ++ blocksFrom (grow o b rest.head?).2 rest

/-- **The blocks** of a sequence of bytes. -/
def blocks (input : List UInt8) : List Block := blocksFrom none input

/-- **What an open block promises** of the bytes after it: a run that is not full is followed by its
own byte, and a run of one byte has a successor. -/
def Continues : Option Block → List UInt8 → Prop
  | some (.run c n _), rest => (n < 128 → ∀ b, rest.head? = some b → b = c) ∧ (n = 1 → rest ≠ [])
  | _, _ => True

theorem continues_run_one {b : UInt8} {rest : List UInt8} {h : 0 < 1 ∧ 1 ≤ 128}
    (hb : rest.head? = some b) : Continues (some (.run b 1 h)) rest := by
  refine ⟨fun _ c hc => ?_, fun _ hnil => ?_⟩
  · rw [hb] at hc
    exact (Option.some.inj hc).symm
  · rw [hnil] at hb
    cases hb

theorem continues_start (b : UInt8) (rest : List UInt8) :
    Continues (some (start b rest.head?)) rest := by
  rw [start]
  split_ifs with h
  · exact continues_run_one h
  · trivial

/-- Adding a byte leaves an open block that keeps its promise. -/
theorem continues_grow {o : Option Block} {b : UInt8} {rest : List UInt8}
    (h : Continues o (b :: rest)) : Continues (grow o b rest.head?).2 rest := by
  rcases o with _ | ⟨bs, hbs⟩ | ⟨c, n, hn⟩
  · exact continues_start b rest
  · rw [grow]
    split_ifs with hlt hb
    · exact continues_run_one hb
    · trivial
    · exact continues_start b rest
  · rw [grow]
    split_ifs with hlt hb
    · refine ⟨fun _ d hd => ?_, fun hone => absurd hn.1 (by omega)⟩
      have hbc : b = c := h.1 hlt b rfl
      rcases hb with hb | hb
      · rw [hb] at hd
        cases hd
      · rw [hb] at hd
        rw [← Option.some.inj hd, hbc]
    · trivial
    · exact continues_start b rest

@[simp] theorem expand_start (b : UInt8) (next : Option UInt8) : (start b next).expand = [b] := by
  rw [start]
  split_ifs <;> rfl

/-- Adding a byte **appends** it to the bytes of the blocks. -/
theorem expand_grow {o : Option Block} {b : UInt8} {rest : List UInt8}
    (h : Continues o (b :: rest)) :
    expand (grow o b rest.head?).1 ++ expand (grow o b rest.head?).2.toList =
      expand o.toList ++ [b] := by
  rcases o with _ | ⟨bs, hbs⟩ | ⟨c, n, hn⟩
  · simp [grow]
  · rw [grow]
    split_ifs with hlt hb
    · simp
    · simp
    · simp
  · rw [grow]
    split_ifs with hlt hb
    · have hbc : b = c := h.1 hlt b rfl
      simp [hbc, List.replicate_succ']
    · have hbc : b = c := h.1 hlt b rfl
      simp [hbc, List.replicate_succ']
    · simp

theorem expand_blocksFrom {o : Option Block} {rest : List UInt8} (h : Continues o rest) :
    expand (blocksFrom o rest) = expand o.toList ++ rest := by
  induction rest generalizing o with
  | nil => rw [blocksFrom, List.append_nil]
  | cons b rest ih =>
    rw [blocksFrom, expand_append, ih (continues_grow h), ← List.append_assoc, expand_grow h,
      List.append_assoc, List.singleton_append]

theorem continues_none (rest : List UInt8) : Continues none rest := trivial

/-- **The blocks hold the bytes** that were cut. -/
theorem expand_blocks (input : List UInt8) : expand (blocks input) = input :=
  expand_blocksFrom (continues_none input)

/-! ### Sizes -/

/-- The number of literal blocks. -/
def literals (bs : List Block) : ℕ := bs.countP Block.isLiteral

/-- What the runs save together. -/
def savings (bs : List Block) : ℕ := (bs.map Block.saving).sum

/-- A block that is not a run of one byte. -/
def Block.Long : Block → Prop
  | .literal _ _ => True
  | .run _ n _ => 2 ≤ n

/-- The blocks that adding a byte closes are long. -/
theorem long_grow {o : Option Block} {b : UInt8} {next : Option UInt8} :
    ∀ c ∈ (grow o b next).1, c.Long := by
  rcases o with _ | ⟨bs, hbs⟩ | ⟨c, n, hn⟩
  · simp [grow]
  · rw [grow]
    split_ifs with hlt hb <;> simp [Block.Long]
  · rw [grow]
    split_ifs with hlt hb
    · simp
    · simpa [Block.Long] using Nat.one_le_of_lt hn.1
    · simp only [List.mem_singleton, forall_eq, Block.Long]
      omega

theorem long_blocksFrom {o : Option Block} {rest : List UInt8} (h : Continues o rest) :
    ∀ c ∈ blocksFrom o rest, c.Long := by
  induction rest generalizing o with
  | nil =>
    rcases o with _ | ⟨bs, hbs⟩ | ⟨c, n, hn⟩
    · simp [blocksFrom]
    · simp [blocksFrom, Block.Long]
    · have hone : n ≠ 1 := fun hone => h.2 hone rfl
      simp only [blocksFrom, Option.toList_some, List.mem_singleton, forall_eq, Block.Long]
      omega
  | cons b rest ih =>
    intro c hc
    rcases List.mem_append.mp hc with hc | hc
    · exact long_grow c hc
    · exact ih (continues_grow h) c hc

/-- A literal block costs one byte more than it holds, and a run saves its bytes past the second. -/
theorem length_encode_add_savings {bs : List Block} (h : ∀ b ∈ bs, b.Long) :
    (encode bs).length + savings bs = (expand bs).length + literals bs := by
  induction bs with
  | nil => rfl
  | cons b bs ih =>
    have hb := h b (by simp)
    have hbs := ih fun c hc => h c (List.mem_cons_of_mem b hc)
    simp only [savings, literals] at hbs
    rcases b with ⟨cs, hcs⟩ | ⟨c, n, hn⟩
    · simp [savings, literals, Block.encode, Block.saving, Block.isLiteral, List.countP_cons]
      omega
    · have hn : 2 ≤ n := hb
      simp [savings, literals, Block.encode, Block.saving, Block.isLiteral]
      omega

/-- **The size of the encoding**: a byte more for each literal block, less what the runs save. -/
theorem length_encode_blocks (input : List UInt8) :
    (encode (blocks input)).length + savings (blocks input) =
      input.length + literals (blocks input) := by
  have h := length_encode_add_savings (long_blocksFrom (continues_none input))
  rwa [expand_blocksFrom (continues_none input)] at h

end AceTao.Rle

/-!
## `ACE_RLECompressor`: the code

`compress` and `decompress` read an input buffer and fill an output buffer, through pointers that
are indices here. A load outside the input or a store outside the output is undefined. An exception
stands for the return of `ACE_UINT64(-1)`, the answer when the output is exhausted.

Both buffers are there: the null pointers, for which the functions return `0`, are left out. The
statistics are not modelled.
-/

namespace AceTao.Rle

/-- The answer `ACE_UINT64(-1)`. -/
inductive Exhausted
  | exhausted
  deriving DecidableEq

/-- A load from the input. -/
def load {σ : Type} (input : List UInt8) (i : ℕ) : Program σ Exhausted UInt8 :=
  match input[i]? with
  | none => Program.undefined
  | some b => pure b

/-! ### `compress` -/

/-- The variables of `compress` but for `in_len`, with the output buffer. -/
structure Compressing where
  inP : ℕ
  outP : List UInt8
  outIndex : ℕ
  outBase : ℕ
  runCount : ℕ
  runCode : Bool
  deriving DecidableEq

/-- `out_p[i] = b`. -/
def storeOut (i : ℕ) (b : UInt8) : Program Compressing Exhausted Unit := fun v =>
  match Buffer.store v.outP i b with
  | none => none
  | some buf => some (.ok (), { v with outP := buf })

/-- `if ((out_base = out_index++) >= max_out_len) return -1`. -/
def reserve (maxOutLen : ℕ) : Program Compressing Exhausted Unit := do
  let v ← Program.get
  Program.modify fun v => { v with outBase := v.outIndex, outIndex := v.outIndex + 1 }
  if v.outIndex ≥ maxOutLen then Program.throw .exhausted

/-- The byte that the block of the `switch` ends with, `run_count++` included. -/
def emit (maxOutLen : ℕ) (curByte : UInt8) : Program Compressing Exhausted Unit := do
  let v ← Program.get
  storeOut v.outBase (UInt8.ofNat (v.runCount ||| if v.runCode then 0x80 else 0))
  Program.modify fun v => { v with runCount := v.runCount + 1 }
  if v.outIndex ≥ maxOutLen then Program.throw .exhausted
  storeOut v.outIndex curByte
  Program.modify fun v => { v with outIndex := v.outIndex + 1 }

/-- `case 128` of the `switch`, with its bootstrap: a block is opened. -/
def openBlock (maxOutLen : ℕ) : Program Compressing Exhausted Unit := do
  let v ← Program.get
  if (if v.outIndex = 0 then 128 else v.runCount) = 128 then do
    reserve maxOutLen
    Program.modify fun v => { v with runCode := false, runCount := 0 }

/-- `in_len ? cur_byte == *in_p : run_code`. -/
def sameAsNext (input : List UInt8) (inLen : ℕ) (curByte : UInt8) :
    Program Compressing Exhausted Bool := do
  let v ← Program.get
  if inLen = 0 then pure v.runCode
  else do
    let next ← load input v.inP
    pure (decide (curByte = next))

/-- `default` of the `switch`, and what follows the `switch`. -/
def addByte (maxOutLen inLen : ℕ) (curByte : UInt8) (same : Bool) :
    Program Compressing Exhausted Unit := do
  let v ← Program.get
  if same then
    if v.runCode then do
      storeOut v.outBase (UInt8.ofNat (v.runCount ||| 0x80))
      Program.modify fun v => { v with runCount := v.runCount + 1 }
    else do
      if v.runCount ≠ 0 then do
        reserve maxOutLen
        Program.modify fun v => { v with runCount := 0 }
      Program.modify fun v => { v with runCode := true }
      emit maxOutLen curByte
  else if v.runCode then do
    storeOut v.outBase (UInt8.ofNat (v.runCount ||| 0x80))
    if inLen ≠ 0 then reserve maxOutLen
    Program.modify fun v => { v with runCode := false, runCount := 0 }
  else emit maxOutLen curByte

/-- `*in_p++`. -/
def nextByte (input : List UInt8) : Program Compressing Exhausted UInt8 := do
  let v ← Program.get
  let curByte ← load input v.inP
  Program.modify fun v => { v with inP := v.inP + 1 }
  pure curByte

/-- One turn of the loop; `inLen` is the value after `in_len--`. -/
def compressStep (input : List UInt8) (maxOutLen inLen : ℕ) :
    Program Compressing Exhausted Unit := do
  let curByte ← nextByte input
  openBlock maxOutLen
  let same ← sameAsNext input inLen curByte
  addByte maxOutLen inLen curByte same

/-- `while (in_len-- > 0)`. -/
def compressLoop (input : List UInt8) (maxOutLen : ℕ) : ℕ → Program Compressing Exhausted Unit
  | 0 => pure ()
  | inLen + 1 => do
    compressStep input maxOutLen inLen
    compressLoop input maxOutLen inLen

/-- **`compress`**: the output length with the output buffer, `-1`, or undefined. -/
def compress (input outP : List UInt8) (maxOutLen : ℕ) :
    Option (Except Exhausted ℕ × List UInt8) :=
  match compressLoop input maxOutLen input.length ⟨0, outP, 0, 0, 0, false⟩ with
  | none => none
  | some (.error e, v) => some (.error e, v.outP)
  | some (.ok (), v) => some (.ok v.outIndex, v.outP)

/-! ### `decompress` -/

/-- `memset` into the output. -/
def memset (i : ℕ) (b : UInt8) (n : ℕ) : Program (List UInt8) Exhausted Unit := fun buf =>
  (Buffer.storeAll buf i (List.replicate n b)).map fun buf => (.ok (), buf)

/-- `memcpy` from the input into the output. -/
def memcpy (input : List UInt8) (i p n : ℕ) : Program (List UInt8) Exhausted Unit := fun buf =>
  if p + n ≤ input.length then
    (Buffer.storeAll buf i ((input.drop p).take n)).map fun buf => (.ok (), buf)
  else none

/-- The loop of `decompress`. -/
def decompressLoop (input : List UInt8) (inP inLen outP maxOutLen outLen : ℕ) :
    Program (List UInt8) Exhausted ℕ :=
  if 0 < inLen then do
    let curByte ← load input inP
    let cpyLen := (curByte &&& 0x7f).toNat + 1
    if cpyLen > maxOutLen then Program.throw .exhausted
    else if curByte &&& 0x80 ≠ 0 then
      if 0 < inLen - 1 then do
        let b ← load input (inP + 1)
        memset outP b cpyLen
        decompressLoop input (inP + 2) (inLen - 2) (outP + cpyLen) (maxOutLen - cpyLen)
          (outLen + cpyLen)
      else Program.throw .exhausted
    else if cpyLen ≤ inLen - 1 then do
      memcpy input outP (inP + 1) cpyLen
      decompressLoop input (inP + 1 + cpyLen) (inLen - 1 - cpyLen) (outP + cpyLen)
        (maxOutLen - cpyLen) (outLen + cpyLen)
    else Program.throw .exhausted
  else pure outLen
termination_by inLen

/-- **`decompress`**: the output length with the output buffer, `-1`, or undefined. -/
def decompress (input outP : List UInt8) (maxOutLen : ℕ) :
    Option (Except Exhausted ℕ × List UInt8) :=
  decompressLoop input 0 input.length 0 maxOutLen 0 outP

end AceTao.Rle
