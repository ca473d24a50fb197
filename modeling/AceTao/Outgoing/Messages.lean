import Mathlib.Algebra.GroupWithZero.Nat
import Mathlib.Data.List.Basic
import Mathlib.Data.List.TakeDrop
import Mathlib.Data.Int.Notation
import Mathlib.Data.Nat.Notation
import Mathlib.Order.Basic

/-!
# The messages in the outgoing queue

A transport keeps the messages that the socket has not taken in a queue. A
`TAO_Synch_Queued_Message` refers to the blocks of the thread that sends it; a
`TAO_Asynch_Queued_Message` has a copy of its bytes, and may expire while none of them has been
sent. The bytes that a message still has to send are its `pending` ones, and all that happens to a
message is said about these: `fill_iov` puts them into the vector as far as there is room
(`Message.fillIov_spec`), and `bytes_transferred` drops those that were sent
(`Message.bytesTransferred_spec`).

When a part of a message of the first kind has been sent, `copy_if_necessary` clones the blocks
that are left, if they are those of the output stream. From then on the chain of the sender is no
longer advanced; `Synch.chain` is what it shows.
-/

namespace AceTao.Outgoing

/-- What there is to read in a message block. -/
abbrev Block := List UInt8

/-- **`TAO_Synch_Queued_Message`**: the blocks from `current_block_` on. -/
structure Synch where
  blocks : List Block
  /-- What the chain of the sender shows: the same blocks, until they are cloned. -/
  chain : List Block
  ownContents : Bool
  /-- The blocks are in the chain of the output stream of the transport. -/
  inStream : Bool
  deriving DecidableEq

/-- **`TAO_Asynch_Queued_Message`**; times are in microseconds, and 0 if there is none. -/
structure Asynch where
  buffer : List UInt8
  offset : ℕ
  absTimeout : ℤ
  deriving DecidableEq

/-- A message in the queue. The address is that of the object on the stack of its sender. -/
inductive Message
  | synch (address : ℕ) (m : Synch)
  | asynch (m : Asynch)
  deriving DecidableEq

/-- The constructor for a message that the sender waits for. -/
def Synch.new (chain : List Block) (inStream : Bool) : Synch := ⟨chain, chain, false, inStream⟩

namespace Message

/-- The bytes that are yet to be sent. -/
def pending : Message → List UInt8
  | .synch _ m => m.blocks.flatten
  | .asynch m => m.buffer.drop m.offset

/-- `all_data_sent`. -/
def allDataSent : Message → Bool
  | .synch _ m => m.blocks.isEmpty
  | .asynch m => m.buffer.length = m.offset

/-- `is_expired`. -/
def isExpired (now : ℤ) : Message → Bool
  | .synch _ _ => false
  | .asynch m => 0 < m.absTimeout && (m.offset = 0 && m.absTimeout < now)

/-- The loop of `fill_iov` over the blocks. -/
def fillBlocks (iovMax : ℕ) : List Block → List Block → List Block
  | [], iov => iov
  | b :: bs, iov =>
    if iov.length < iovMax then fillBlocks iovMax bs (if 0 < b.length then iov ++ [b] else iov)
    else iov

/-- **`fill_iov`**. -/
def fillIov (iovMax : ℕ) : Message → List Block → List Block
  | .synch _ m, iov => fillBlocks iovMax m.blocks iov
  | .asynch m, iov => iov ++ [m.buffer.drop m.offset]

/-- The loop of `bytes_transferred` over the blocks, with the number of bytes that is left. In the
inner loop it passes empty blocks. -/
def transfer : Bool → List Block → ℕ → List Block × ℕ
  | _, [], n => ([], n)
  | inner, b :: bs, n =>
    if inner && b.isEmpty then transfer true bs n
    else if n = 0 then (b :: bs, 0)
    else if n < b.length then (b.drop n :: bs, 0)
    else transfer true bs (n - b.length)

/-- **`bytes_transferred`**: what is left of the message, and of the number of bytes. -/
def bytesTransferred : Message → ℕ → Message × ℕ
  | .synch address m, n =>
    let (blocks, n) := transfer false m.blocks n
    (.synch address { m with blocks, chain := if m.ownContents then m.chain else blocks }, n)
  | .asynch m, n =>
    let remaining := m.buffer.length - m.offset
    if remaining < n then (.asynch { m with offset := m.buffer.length }, n - remaining)
    else (.asynch { m with offset := m.offset + n }, 0)

/-- `copy_if_necessary`, which clones the blocks if they are those of the output stream. -/
def copyIfNecessary : Message → Message
  | .synch address m =>
    .synch address { m with ownContents := m.ownContents || (m.inStream && !m.blocks.isEmpty) }
  | .asynch m => .asynch m

/-! ### Lengths and bytes -/

variable {m : Message} {n iovMax : ℕ} {iov : List Block} {bs : List Block} {inner : Bool}

/-- **Loops over the blocks**: the bytes that were sent are dropped, and the block that is then the
current one has bytes to be sent, unless nothing was sent and nothing passed. -/
theorem transfer_spec (inner : Bool) (bs : List Block) (n : ℕ) :
    (transfer inner bs n).1.flatten = bs.flatten.drop n ∧
      (transfer inner bs n).2 = n - bs.flatten.length ∧
      (inner = true ∨ 0 < n → (transfer inner bs n).1.flatten = [] →
        (transfer inner bs n).1 = []) := by
  induction bs generalizing inner n with
  | nil => exact ⟨List.drop_nil.symm, (Nat.sub_zero n).symm, fun _ _ => rfl⟩
  | cons b bs ih =>
    rw [transfer, List.flatten_cons, List.length_append]
    by_cases hpass : (inner && b.isEmpty) = true
    · obtain ⟨hinner, hempty⟩ := (Bool.and_eq_true _ _).mp hpass
      obtain rfl := List.isEmpty_iff.mp hempty
      obtain ⟨hflat, hrest, hdone⟩ := ih true n
      rw [if_pos hpass, List.nil_append, List.length_nil, Nat.zero_add]
      exact ⟨hflat, hrest, fun _ => hdone (Or.inl rfl)⟩
    rw [if_neg hpass]
    by_cases hzero : n = 0
    · subst hzero
      rw [if_pos rfl, List.drop_zero, List.flatten_cons]
      refine ⟨rfl, (Nat.zero_sub _).symm, fun hor hnil => ?_⟩
      rcases hor with hinner | hlt
      · obtain ⟨hb, -⟩ := List.append_eq_nil_iff.mp hnil
        exact absurd ((Bool.and_eq_true _ _).mpr ⟨hinner, List.isEmpty_iff.mpr hb⟩) hpass
      · exact absurd hlt (Nat.lt_irrefl 0)
    rw [if_neg hzero]
    by_cases hlt : n < b.length
    · rw [if_pos hlt, List.flatten_cons, List.drop_append_of_le_length (Nat.le_of_lt hlt)]
      refine ⟨rfl, by omega, fun _ hnil => ?_⟩
      have hdrop := congrArg List.length (List.append_eq_nil_iff.mp hnil).1
      rw [List.length_drop, List.length_nil] at hdrop
      omega
    · obtain ⟨hflat, hrest, hdone⟩ := ih true (n - b.length)
      have hle := Nat.not_lt.mp hlt
      rw [if_neg hlt, List.drop_append, List.drop_eq_nil_of_le hle, List.nil_append]
      exact ⟨hflat, by rw [hrest]; omega, fun _ => hdone (Or.inl rfl)⟩

/-- A message that has bytes to be sent, or has nothing left at all. -/
def Sound (m : Message) : Prop :=
  match m with
  | .synch _ m => m.blocks.flatten = [] → m.blocks = []
  | .asynch m => m.offset ≤ m.buffer.length

theorem pending_eq_nil_iff (h : m.Sound) : m.pending = [] ↔ m.allDataSent = true := by
  cases m with
  | synch address m =>
    rw [pending, allDataSent, List.isEmpty_iff]
    exact ⟨h, fun hnil => by rw [hnil]; rfl⟩
  | asynch m =>
    have hle : m.offset ≤ m.buffer.length := h
    rw [pending, allDataSent, decide_eq_true_iff, List.drop_eq_nil_iff]
    omega

/-- **`bytes_transferred`**: the bytes that were sent are dropped, and unless all of the message was
sent no bytes are left over. -/
theorem bytesTransferred_spec (h : m.Sound) (hn : 0 < n) :
    (m.bytesTransferred n).1.Sound ∧ (m.bytesTransferred n).1.pending = m.pending.drop n ∧
      (m.bytesTransferred n).2 = n - m.pending.length := by
  cases m with
  | synch address m =>
    obtain ⟨hflat, hrest, hdone⟩ := transfer_spec false m.blocks n
    exact ⟨hdone (Or.inr hn), hflat, hrest⟩
  | asynch m =>
    have hle : m.offset ≤ m.buffer.length := h
    rw [bytesTransferred, pending, List.length_drop]
    split_ifs with hlt
    · refine ⟨Nat.le_refl _, ?_, rfl⟩
      rw [pending, List.drop_drop, List.drop_eq_nil_of_le (Nat.le_refl _),
        List.drop_eq_nil_of_le (by omega)]
    · refine ⟨show m.offset + n ≤ m.buffer.length by omega, ?_, by omega⟩
      rw [pending, List.drop_drop]

@[simp] theorem pending_copyIfNecessary (m : Message) : m.copyIfNecessary.pending = m.pending := by
  cases m <;> rfl

theorem Sound.copyIfNecessary (h : m.Sound) : m.copyIfNecessary.Sound := by
  cases m <;> exact h

/-! ### Messages that do not expire -/

/-- The message is never discarded. -/
def Lasting (m : Message) : Prop := ∀ now, m.isExpired now = false

theorem lasting_synch (address : ℕ) (m : Synch) : (synch address m).Lasting := fun _ => rfl

theorem lasting_asynch {m : Asynch} (h : m.absTimeout = 0 ∨ 0 < m.offset) : (asynch m).Lasting := by
  intro now
  rw [isExpired]
  rcases h with hzero | hpos
  · rw [hzero, decide_eq_false (Int.lt_irrefl 0), Bool.false_and]
  · rw [decide_eq_false (Nat.pos_iff_ne_zero.mp hpos), Bool.false_and, Bool.and_false]

/-- **Never expire partial messages**. -/
theorem lasting_bytesTransferred (hm : m.pending ≠ []) (hn : 0 < n) :
    (m.bytesTransferred n).1.Lasting := by
  cases m with
  | synch address m => exact lasting_synch _ _
  | asynch m =>
    have hlt : m.offset < m.buffer.length :=
      Nat.lt_of_not_le fun hle => hm (List.drop_eq_nil_iff.mpr hle)
    rw [bytesTransferred]
    split_ifs
    · exact lasting_asynch (Or.inr (Nat.lt_of_le_of_lt (Nat.zero_le _) hlt))
    · exact lasting_asynch (Or.inr (Nat.lt_of_lt_of_le hn (Nat.le_add_left _ _)))

theorem Lasting.copyIfNecessary (h : m.Lasting) : m.copyIfNecessary.Lasting := by
  cases m with
  | synch address m => exact lasting_synch _ _
  | asynch m => exact h

/-! ### The vector -/

/-- The number of blocks that have bytes. -/
def pieces (bs : List Block) : ℕ := bs.countP fun b => decide (0 < b.length)

theorem fillBlocks_spec (bs iov : List Block) (hle : iov.length ≤ iovMax) :
    (fillBlocks iovMax bs iov).length = min iovMax (iov.length + pieces bs) ∧
      ∃ sent rest, (fillBlocks iovMax bs iov).flatten = iov.flatten ++ sent ∧
        bs.flatten = sent ++ rest ∧ ((fillBlocks iovMax bs iov).length < iovMax → rest = []) := by
  induction bs generalizing iov with
  | nil =>
    refine ⟨(Nat.min_eq_right hle).symm, [], [], (List.append_nil _).symm, rfl, fun _ => rfl⟩
  | cons b bs ih =>
    rw [fillBlocks, pieces, List.countP_cons, ← pieces]
    by_cases hroom : iov.length < iovMax
    · rw [if_pos hroom]
      by_cases hb : 0 < b.length
      · obtain ⟨hlen, sent, rest, hflat, hbs, hrest⟩ :=
          ih (iov ++ [b]) (by rw [List.length_append, List.length_singleton]; exact hroom)
        rw [if_pos hb, if_pos (decide_eq_true hb)]
        rw [List.length_append, List.length_singleton] at hlen
        rw [List.flatten_append, List.flatten_singleton, List.append_assoc] at hflat
        exact ⟨by rw [hlen]; omega, b ++ sent, rest, hflat,
          by rw [List.flatten_cons, hbs, List.append_assoc], hrest⟩
      · obtain ⟨hlen, sent, rest, hflat, hbs, hrest⟩ := ih iov (Nat.le_of_lt hroom)
        have hnil : b = [] := List.length_eq_zero_iff.mp (Nat.eq_zero_of_not_pos hb)
        rw [if_neg hb, if_neg (by simpa using hb)]
        refine ⟨hlen, sent, rest, hflat, ?_, hrest⟩
        rw [List.flatten_cons, hnil, hbs, List.nil_append]
    · rw [if_neg hroom]
      refine ⟨by omega, [], (b :: bs).flatten, (List.append_nil _).symm, rfl, fun hlt => ?_⟩
      exact absurd hlt hroom

/-- **`fill_iov`** appends the first bytes of a message, and all of them if there is room behind. -/
theorem fillIov_spec (m : Message) (hlt : iov.length < iovMax) :
    iov.length ≤ (m.fillIov iovMax iov).length ∧ (m.fillIov iovMax iov).length ≤ iovMax ∧
      ∃ sent rest, (m.fillIov iovMax iov).flatten = iov.flatten ++ sent ∧
        m.pending = sent ++ rest ∧ ((m.fillIov iovMax iov).length < iovMax → rest = []) := by
  cases m with
  | synch address m =>
    obtain ⟨hlen, hsent⟩ := fillBlocks_spec m.blocks iov (Nat.le_of_lt hlt)
    exact ⟨show _ ≤ (fillBlocks iovMax m.blocks iov).length by omega,
      show (fillBlocks iovMax m.blocks iov).length ≤ _ by omega, hsent⟩
  | asynch m =>
    have hlen : (iov ++ [m.buffer.drop m.offset]).length = iov.length + 1 := by
      rw [List.length_append, List.length_singleton]
    refine ⟨show _ ≤ (iov ++ [_]).length by omega, show (iov ++ [_]).length ≤ _ by omega,
      m.buffer.drop m.offset, [], ?_, (List.append_nil _).symm, fun _ => rfl⟩
    rw [fillIov, List.flatten_append, List.flatten_singleton]

end Message

end AceTao.Outgoing
