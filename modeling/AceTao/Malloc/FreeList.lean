import Mathlib.Algebra.BigOperators.Group.List.Basic
import Mathlib.Algebra.GroupWithZero.Nat

/-!
# `ACE_Malloc_T`: the code

Memory is handed out in blocks of whole headers. A block is given by the address of its header and
by `size_`, in headers, the header included. The free blocks are linked in a ring, which is held
here as the list of its blocks from `freep_->next_block_` on, so that `freep_` is the last one; it
begins as `base_` alone, which has no size.

The memory pool is a parameter: `shared_malloc` is given the answers of `acquire`, in order, and
has no answer if it would ask for more or fewer of them. `sizeof (MALLOC_HEADER)` depends on the
control block.
-/

namespace AceTao.Malloc

/-- A block, by the address of its header and by its size in headers. -/
structure Block where
  addr : ℕ
  size : ℕ
  deriving DecidableEq

/-- A chunk that the memory pool has acquired, with its size in bytes. -/
structure Chunk where
  addr : ℕ
  bytes : ℕ

/-- The ring of the free blocks, with `freep_` at the end. -/
abbrev FreeList := List Block

variable (headerSize : ℕ)

/-- The address behind a block. -/
def Block.ends (b : Block) : ℕ := b.addr + b.size * headerSize

/-- The blocks from `freep_` on. -/
def fromFreep (l : FreeList) : List Block :=
  match l.getLast? with
  | none => []
  | some freep => freep :: l.dropLast

/-! ### `shared_free` -/

/-- Whether a block belongs between two blocks of the ring; the last of them is followed by a block
with a lower address. -/
def BelongsBetween (blockp currp next : ℕ) : Prop :=
  ¬(blockp ≤ currp ∨ blockp ≥ next) ∨ currp ≥ next ∧ (blockp > currp ∨ blockp < next)

instance (blockp currp next : ℕ) : Decidable (BelongsBetween blockp currp next) :=
  inferInstanceAs (Decidable (_ ∨ _))

/-- The loop that looks for the place of a block: what has been passed, the block before the place,
and what is left. It does not end if there is no such place. -/
def locate (blockp first : ℕ) : List Block → List Block → Option (List Block × Block × List Block)
  | _, [] => none
  | passed, currp :: rest =>
    let next := (rest.head?.map Block.addr).getD first
    if BelongsBetween blockp currp.addr next then some (passed, currp, rest)
    else locate blockp first (passed ++ [currp]) rest

/-- A block is put behind `currp`, which becomes `freep_`; `others` is the ring behind `currp`. -/
def insertBehind (blockp currp : Block) (others : List Block) : FreeList :=
  let next := others.head?.getD currp
  -- join to upper neighbor
  let joins := blockp.ends headerSize = next.addr
  let blockp := if joins then { blockp with size := blockp.size + next.size } else blockp
  let others := if joins then others.tail else others
  -- join to lower neighbor
  if currp.ends headerSize = blockp.addr then
    others ++ [{ currp with size := currp.size + blockp.size }]
  else blockp :: others ++ [currp]

/-- **`shared_free`**. -/
def sharedFree (l : FreeList) (blockp : Block) : Option FreeList :=
  match fromFreep l with
  | [] => none
  | freep :: rest =>
    (locate blockp.addr freep.addr [] (freep :: rest)).map fun (passed, currp, rest) =>
      insertBehind headerSize blockp currp (rest ++ passed)

/-! ### `shared_malloc` -/

/-- The units that are needed for a number of bytes, in `size_t`. -/
def nunits (nbytes : ℕ) : ℕ := (nbytes + headerSize - 1) % 2 ^ 64 / headerSize + 1

/-- The search for a block that is big enough. -/
def firstFit (n : ℕ) : FreeList → Option (List Block × Block × List Block)
  | [] => none
  | currp :: rest =>
    if currp.size ≥ n then some ([], currp, rest)
    else (firstFit n rest).map fun (passed, b, rest) => (currp :: passed, b, rest)

/-- The block that has been found is unlinked, or its tail is handed out. -/
def takeFrom (n : ℕ) (passed : List Block) (currp : Block) (rest : List Block) : FreeList × Block :=
  if currp.size = n then
    -- a block that is alone stays linked to itself
    (if rest ++ passed = [] then [currp] else rest ++ passed, currp)
  else
    ({ currp with size := currp.size - n } :: (rest ++ passed),
      ⟨currp.addr + (currp.size - n) * headerSize, n⟩)

/-- **`shared_malloc`**, for a number of units and the answers of the pool. -/
def sharedMalloc (n : ℕ) : FreeList → List (Option Chunk) → Option (FreeList × Option Block)
  | l, [] =>
    (firstFit n l).map fun (passed, currp, rest) =>
      let taken := takeFrom headerSize n passed currp rest
      (taken.1, some taken.2)
  | l, answer :: answers =>
    if (firstFit n l).isSome then none
    else
      match answer with
      | none => if answers.isEmpty then some (l, none) else none
      | some chunk =>
        (sharedFree headerSize l ⟨chunk.addr, chunk.bytes / headerSize⟩).bind fun l =>
          sharedMalloc n l answers

/-! ### `open` and `avail_chunks` -/

/-- **`open`**, for the address of `base_` and the bytes that there are behind the control block. -/
def openPool (base extra : ℕ) : Option FreeList :=
  if extra > headerSize then
    sharedFree headerSize [⟨base, 0⟩] ⟨base + headerSize, extra / headerSize⟩
  else some [⟨base, 0⟩]

/-- The chunks that `avail_chunks` counts in a block. -/
def chunksIn (size : ℕ) (b : Block) : ℕ :=
  let availSize := if b.size = 0 then 0 else b.size - 1
  let availBytes := availSize * headerSize % 2 ^ 64
  if availBytes ≥ size then availBytes / size else 0

/-- **`avail_chunks`**. -/
def availChunks (l : FreeList) (size : ℕ) : ℕ :=
  let size := if size = 0 then 1 else size
  (fromFreep l).foldl (fun count b => (count + chunksIn headerSize size b) % 2 ^ 64) 0

/-! ### Runs -/

/-- What has been allocated, and the free list. -/
structure Heap where
  free : FreeList
  allocated : List Block

/-- **A pool of memory** around a control block: every chunk that it acquires is behind or in front
of `base_`, which is the last member of the control block. -/
def Chunk.Avoids (base : ℕ) (c : Chunk) : Prop := c.addr + c.bytes < base ∨ base < c.addr

/-- The chunks that a pool has answered. -/
def chunks (answers : List (Option Chunk)) : List Chunk := answers.filterMap id

/-- **The states that are reached** from `open` by `malloc`, also of other functions than `malloc`,
and by `free` of what is allocated; `acquired` are the bytes of all chunks together. -/
inductive Reaches (base : ℕ) : Heap → ℕ → Prop
  | opened {extra : ℕ} {l : FreeList} (h : openPool headerSize base extra = some l) :
    Reaches base ⟨l, []⟩ extra
  | malloc {s : Heap} {acquired : ℕ} (hs : Reaches base s acquired) {nbytes : ℕ}
    {answers : List (Option Chunk)} (hpool : ∀ c ∈ chunks answers, c.Avoids base) {l : FreeList}
    {result : Option Block}
    (h : sharedMalloc headerSize (nunits headerSize nbytes) s.free answers = some (l, result)) :
    Reaches base ⟨l, result.toList ++ s.allocated⟩
      (acquired + ((chunks answers).map Chunk.bytes).sum)
  | free {s : Heap} {acquired : ℕ} (hs : Reaches base s acquired) {b : Block}
    (hb : b ∈ s.allocated) {l : FreeList} (h : sharedFree headerSize s.free b = some l) :
    Reaches base ⟨l, s.allocated.erase b⟩ acquired

end AceTao.Malloc
