import AceTao.Library.BlockCut
import AceTao.Library.ByteImage
import AceTao.Miop.RecvPacket

/-!
# Sending a message in datagrams of MIOP

`TAO_UIPMC_Transport::send` cuts the bytes of a message, which lie in several blocks, into fragments
of at most `max_fragment_payload` bytes, and sends each behind a header of its own. An iterator hands
out the blocks, and splits those at the border of a fragment.

The blocks of a fragment are put into an array of `ACE_IOV_MAX` entries, whose first one is the
header. Where an entry before the last one of the fragment takes the last place, `send` gives up with
an error.

The host is little-endian, and a size is a `u_long` of 64 bits. The loops have a bound on their tests.
The time that a throttled sender sleeps is left out. What the peer answers to a datagram may depend on
all that has been sent before.
-/

namespace AceTao.Miop

open ByteImage

/-- The bytes of an `iovec`. -/
abbrev Block := List UInt8

/-- `MIOP_DEFAULT_HEADER_SIZE`: 20 bytes and an id of 12, a multiple of 8. -/
def headerSize : ℕ := 32

/-! ### The blocks of a message -/

inductive IterState
  | interBlock
  | intraBlock
  deriving DecidableEq

/-- **The iterator**: the blocks from `iov_index_` on, and the `iov_len_left_` bytes from `iov_ptr_`
on, which are left of the first of them within a block. -/
structure DataIterator where
  iov : List Block
  left : Block
  state : IterState

namespace DataIterator

def new (iov : List Block) : DataIterator := ⟨iov, [], .interBlock⟩

/-- **`next_block`**: a block, or a part of one, of at most `maxLength` bytes. -/
def nextBlock (it : DataIterator) (maxLength : ℕ) : Option (Block × DataIterator) :=
  match it.state with
  | .interBlock =>
    match it.iov with
    | [] => none
    | b :: bs =>
      if b.length ≤ maxLength then some (b, { it with iov := bs })
      else some (b.take maxLength, ⟨b :: bs, b.drop maxLength, .intraBlock⟩)
  | .intraBlock =>
    if it.left.length ≤ maxLength then
      some (it.left, ⟨it.iov.tail, it.left, .interBlock⟩)
    else some (it.left.take maxLength, { it with left := it.left.drop maxLength })

end DataIterator

/-! ### One fragment -/

/-- **The payload of a fragment**: the loop over the blocks, with those it has put into the array
behind the header and their length. The answer `none` in place of the blocks is the error that there
are too many. -/
def collect (iovMax payload : ℕ) :
    ℕ → DataIterator → List Block → ℕ → Option (Option (List Block × ℕ × DataIterator))
  | 0, _, _, _ => none
  | tests + 1, it, blocks, size =>
    match it.nextBlock (payload - size) with
    | none => some (some (blocks, size, it))
    | some (b, it) =>
      if size + b.length = payload then some (some (blocks ++ [b], size + b.length, it))
      else if iovMax ≤ (blocks ++ [b]).length + 1 then some none
      else collect iovMax payload tests it (blocks ++ [b]) (size + b.length)

/-- What has been passed to the peer: an array of blocks each time. -/
abbrev Sends := List (List Block)

/-- The answer to the last send. -/
abbrev Peer := Sends → ℤ

/-- The loop that skips what has been sent already. Behind the last block there is nothing to skip. -/
def skipSent : List Block → ℕ → Option (List Block)
  | blocks, 0 => some blocks
  | [], _ + 1 => none
  | b :: bs, n + 1 =>
    if b.length ≤ n + 1 then skipSent bs (n + 1 - b.length) else some (b.drop (n + 1) :: bs)

/-- **Passing a fragment to the peer**, again as long as some of it has not been sent. The answer
`false` is that of an error. -/
def transmit (peer : Peer) : ℕ → Sends → List Block → ℕ → ℕ → Option (Sends × Bool)
  | 0, _, _, _, _ => none
  | tests + 1, sends, current, size, alreadySent =>
    if size = 0 then some (sends, true)
    else
      match skipSent current alreadySent with
      | none => none
      | some current =>
        if peer (sends ++ [current]) < 0 then some (sends ++ [current], false)
        else transmit peer tests (sends ++ [current]) current
          (((size : ℤ) - peer (sends ++ [current])) % 2 ^ 64).toNat
          (peer (sends ++ [current])).toNat

/-! ### The header -/

/-- The 12 bytes of `write_unique_id`, which differ from message to message. -/
structure UniqueId where
  bytes : List UInt8
  length_eq : bytes.length = 12

/-- **The header**: the magic bytes, version 1.0, the flags, the length and the number of the fragment,
how many there are, and the id with its length. -/
def header (flags : UInt8) (packetLength : UShort) (packetNumber packets : ULong) (id : UniqueId) :
    Block :=
  [0x4D, 0x49, 0x4F, 0x50, 0x10, flags] ++ image 2 packetLength ++ image 4 packetNumber ++
    image 4 packets ++ image 4 (12 : ULong) ++ id.bytes

/-! ### The whole message -/

/-- What is configured: `max_fragment_size` and `max_fragments`, where 0 is no limit. -/
structure Factory where
  maxFragmentSize : ℕ
  maxFragments : ℕ

/-- `max_fragment_payload`, a difference of `u_long`. -/
def Factory.maxFragmentPayload (factory : Factory) : ℕ :=
  (((factory.maxFragmentSize : ℤ) - headerSize) % 2 ^ 64).toNat

/-- `number_of_packets_required` -/
def packetsRequired (bytesToSend payload : ℕ) : ℕ :=
  bytesToSend / payload + if bytesToSend % payload = 0 then 0 else 1

/-- What `send` returns, `bytes_transferred`, and all that was passed to the peer. -/
structure Sent where
  result : ℤ
  bytesTransferred : ℕ
  sends : Sends

/-- **The loop over the fragments.** -/
def sendLoop (iovMax payload packets : ℕ) (id : UniqueId) (peer : Peer) :
    ℕ → ULong → UInt8 → DataIterator → Sends → ℕ → Option Sent
  | 0, _, _, _, _, _ => none
  | tests + 1, packetNumber, flags, it, sends, bytesTransferred =>
    if packetNumber.toNat < packets then
      match collect iovMax payload (iovMax + 1) it [] 0 with
      | none => none
      | some none => some ⟨-1, bytesTransferred, sends⟩
      | some (some (blocks, size, it)) =>
        let packetLength : UShort := BitVec.ofNat 16 size
        let flags := if packetNumber.toNat = packets - 1 then flags ||| 0x02 else flags
        match transmit peer tests sends
            (header flags packetLength packetNumber (BitVec.ofNat 32 packets) id :: blocks)
            (size + headerSize) 0 with
        | none => none
        | some (sends, false) => some ⟨-1, bytesTransferred, sends⟩
        | some (sends, true) =>
          sendLoop iovMax payload packets id peer tests (packetNumber + 1) flags it sends
            (bytesTransferred + packetLength.toNat)
    else some ⟨bytesTransferred, bytesTransferred, sends⟩

/-- **`send`**, with a bound on the tests of its loops. -/
def send (iovMax : ℕ) (factory : Factory) (id : UniqueId) (peer : Peer) (tests : ℕ)
    (iov : List Block) : Option Sent :=
  let bytesToSend := (iov.map List.length).sum
  if bytesToSend = 0 then some ⟨0, 0, []⟩
  else
    let packets := packetsRequired bytesToSend factory.maxFragmentPayload
    if factory.maxFragments ≠ 0 ∧ factory.maxFragments < packets then
      some ⟨bytesToSend, bytesToSend, []⟩
    else sendLoop iovMax factory.maxFragmentPayload packets id peer tests 0 0x01 (.new iov) [] 0

/-- A peer that accepts every datagram whole. -/
def acceptsWhole : Peer := fun sends =>
  match sends.getLast? with
  | none => 0
  | some blocks => (blocks.map List.length).sum

end AceTao.Miop

/-!
## How a message is partitioned

The iterator hands out the pieces that `BlockCut.cut` takes for a window (`collect_spec`), so the
fragments hold the windows of the message, one after the other. A message is partitioned as it should
be (`Partitions`) where it is `Sendable`: it is not too large for the limit that is configured or for
the fields of the header, and the blocks that touch a fragment leave a place free in the array, or
take the last one to fill the fragment.
-/

namespace AceTao.Miop

open BlockCut

namespace DataIterator

variable {it : DataIterator} {b : Block} {bs : List Block} {n : ℕ}

/-- **What is left of the blocks.** -/
def blocks (it : DataIterator) : List Block :=
  match it.state with
  | .interBlock => it.iov
  | .intraBlock => it.left :: it.iov.tail

theorem nextBlock_of_nil (h : it.blocks = []) (n : ℕ) : it.nextBlock n = none := by
  obtain ⟨iov, left, _ | _⟩ := it
  · rw [show iov = [] from h]
    rfl
  · cases h

/-- A block that is not too long is handed out whole. -/
theorem nextBlock_of_le (h : it.blocks = b :: bs) (hle : b.length ≤ n) :
    ∃ it', it.nextBlock n = some (b, it') ∧ it'.blocks = bs := by
  obtain ⟨iov, left, _ | _⟩ := it
  · rw [show iov = b :: bs from h]
    exact ⟨_, if_pos hle, rfl⟩
  · obtain ⟨rfl, rfl⟩ := List.cons_eq_cons.mp h
    exact ⟨_, if_pos hle, rfl⟩

/-- A longer one is split. -/
theorem nextBlock_of_lt (h : it.blocks = b :: bs) (hlt : n < b.length) :
    ∃ it', it.nextBlock n = some (b.take n, it') ∧ it'.blocks = b.drop n :: bs := by
  obtain ⟨iov, left, _ | _⟩ := it
  · rw [show iov = b :: bs from h]
    exact ⟨_, if_neg (Nat.not_le.mpr hlt), rfl⟩
  · obtain ⟨rfl, rfl⟩ := List.cons_eq_cons.mp h
    exact ⟨_, if_neg (Nat.not_le.mpr hlt), rfl⟩

end DataIterator

/-! ### The payload of a fragment -/

variable {iovMax payload size : ℕ} {blocks : List Block} {it : DataIterator}

/-- **The loop over the blocks** takes the pieces of a window, if the last place of the array stays
free, or is taken by the piece that fills the window. -/
theorem collect_spec (hsize : size < payload) {bs : List Block} (hit : it.blocks = bs)
    (hslots : blocks.length + (cut (payload - size) bs).1.length + 2 ≤ iovMax ∨
      blocks.length + (cut (payload - size) bs).1.length + 1 = iovMax ∧
        payload ≤ size + bs.flatten.length) {tests : ℕ}
    (htests : (cut (payload - size) bs).1.length < tests) :
    ∃ it', collect iovMax payload tests it blocks size =
        some (some (blocks ++ (cut (payload - size) bs).1,
          size + ((cut (payload - size) bs).1.map List.length).sum, it')) ∧
      it'.blocks = (cut (payload - size) bs).2 := by
  induction bs generalizing tests it blocks size with
  | nil =>
    obtain _ | tests := tests
    · exact absurd htests (Nat.not_lt_zero _)
    rw [collect, DataIterator.nextBlock_of_nil hit]
    exact ⟨it, by rw [cut, List.append_nil]; rfl, hit⟩
  | cons b bs ih =>
    obtain _ | tests := tests
    · exact absurd htests (Nat.not_lt_zero _)
    rw [collect]
    rcases lt_trichotomy b.length (payload - size) with hlt | heq | hgt
    · -- the fragment is not full
      obtain ⟨it', hnext, hit'⟩ := DataIterator.nextBlock_of_le hit hlt.le
      rw [cut_of_lt hlt] at hslots htests ⊢
      rw [List.flatten_cons, List.length_append] at hslots
      rw [List.length_cons] at hslots htests
      rw [hnext]
      dsimp only
      have hroom : payload - (size + b.length) = payload - size - b.length := by omega
      have hfree : blocks.length + 3 ≤ iovMax := by
        rcases hslots with hfree | ⟨hlast, hfull⟩
        · omega
        · have hpiece : 0 < (cut (payload - size - b.length) bs).1.length := by
            refine Nat.pos_of_ne_zero fun hzero => ?_
            have hflat := (flatten_cut (payload - size - b.length) bs).1
            rw [List.eq_nil_of_length_eq_zero hzero] at hflat
            have hlen := congrArg List.length hflat
            rw [List.flatten_nil, List.length_nil, List.length_take] at hlen
            omega
          omega
      have hlen : (blocks ++ [b]).length = blocks.length + 1 := List.length_append
      rw [if_neg (by omega), hlen, if_neg (by omega)]
      obtain ⟨it'', hcollect, hit''⟩ := @ih (size + b.length) (blocks ++ [b]) it' (by omega)
        hit' (by rw [hroom, hlen]; omega) tests (by rw [hroom]; omega)
      rw [hroom] at hcollect hit''
      refine ⟨it'', hcollect.trans ?_, hit''⟩
      rw [List.append_assoc, List.singleton_append, List.map_cons, List.sum_cons, Nat.add_assoc]
    · obtain ⟨it', hnext, hit'⟩ := DataIterator.nextBlock_of_le hit heq.le
      rw [cut_of_eq heq, hnext]
      dsimp only
      rw [if_pos (by omega)]
      exact ⟨it', rfl, hit'⟩
    · obtain ⟨it', hnext, hit'⟩ := DataIterator.nextBlock_of_lt hit hgt
      have hlen : (b.take (payload - size)).length = payload - size := by
        rw [List.length_take, Nat.min_eq_left hgt.le]
      rw [cut_of_gt hgt, hnext]
      dsimp only
      rw [if_pos (by omega)]
      exact ⟨it', rfl, hit'⟩

/-- A peer that accepts the datagram whole is called once. -/
theorem transmit_acceptsWhole (sends : Sends) (current : List Block)
    (hpos : 0 < (current.map List.length).sum) (tests : ℕ) :
    transmit acceptsWhole (tests + 2) sends current (current.map List.length).sum 0 =
      some (sends ++ [current], true) := by
  have hanswer : acceptsWhole (sends ++ [current]) = ((current.map List.length).sum : ℕ) := by
    rw [acceptsWhole, List.getLast?_concat]
  rw [transmit, if_neg hpos.ne', skipSent.eq_1]
  dsimp only
  rw [hanswer, if_neg (Int.not_lt.mpr (Int.natCast_nonneg _)), Int.sub_self, Int.zero_emod,
    Int.toNat_zero, transmit, if_pos rfl]

/-! ### The fragments of a message -/

/-- **A datagram**: the fields of its header, and its payload. -/
structure Datagram where
  stop : Bool
  packetLength : UShort
  packetNumber : ULong
  packets : ULong
  payload : List UInt8

namespace Datagram

/-- The bytes of a datagram. -/
def image (id : UniqueId) (d : Datagram) : List UInt8 :=
  header (if d.stop then 0x03 else 0x01) d.packetLength d.packetNumber d.packets id ++ d.payload

/-- The datagram with a window of the message. -/
def ofWindow (payload packets : ℕ) (bytes : List UInt8) (k : ℕ) : Datagram where
  stop := k + 1 = packets
  packetLength := BitVec.ofNat 16 (window payload k bytes).length
  packetNumber := BitVec.ofNat 32 k
  packets := BitVec.ofNat 32 packets
  payload := window payload k bytes

end Datagram

/-- **What the `k`-th datagram of a message is**: it is numbered, its header states the length of its
payload, it is full unless it is the last one, and only the last one has the flag. -/
structure Datagram.Right (payload packets k : ℕ) (d : Datagram) : Prop where
  number : d.packetNumber.toNat = k
  packets_eq : d.packets.toNat = packets
  length_eq : d.packetLength.toNat = d.payload.length
  stop_iff : d.stop ↔ k + 1 = packets
  full : k + 1 < packets → d.payload.length = payload
  length_le : d.payload.length ≤ payload

/-- **A message is partitioned**: `send` returns how many bytes it has, and has passed as many
datagrams to the peer as are required, whose payloads are the bytes of the message. -/
def Partitions (iovMax : ℕ) (factory : Factory) (iov : List Block) : Prop :=
  let packets := packetsRequired (iov.map List.length).sum factory.maxFragmentPayload
  ∀ id tests, packets + 2 ≤ tests → ∃ (sends : Sends) (ds : List Datagram),
    send iovMax factory id acceptsWhole tests iov =
      some ⟨(iov.map List.length).sum, (iov.map List.length).sum, sends⟩ ∧
    sends.map List.flatten = ds.map (Datagram.image id) ∧ ds.length = packets ∧
    (∀ (k : ℕ) (d : Datagram), ds[k]? = some d → d.Right factory.maxFragmentPayload packets k) ∧
    (ds.map Datagram.payload).flatten = iov.flatten

/-- **A message that can be sent**: there are no more fragments than the limit, their number and
their lengths fit in the header, and the blocks that touch a fragment leave a place free in the
array, unless the last one of them fills the fragment. -/
structure Sendable (iovMax : ℕ) (factory : Factory) (iov : List Block) : Prop where
  unlimited : factory.maxFragments = 0 ∨
    packetsRequired (iov.map List.length).sum factory.maxFragmentPayload ≤ factory.maxFragments
  few : packetsRequired (iov.map List.length).sum factory.maxFragmentPayload < 2 ^ 32
  short : min factory.maxFragmentPayload (iov.map List.length).sum < 2 ^ 16
  slots : ∀ k < packetsRequired (iov.map List.length).sum factory.maxFragmentPayload,
    count (k * factory.maxFragmentPayload) ((k + 1) * factory.maxFragmentPayload) 0 iov + 2 ≤ iovMax
      ∨ count (k * factory.maxFragmentPayload) ((k + 1) * factory.maxFragmentPayload) 0 iov + 1 =
          iovMax ∧ (k + 1) * factory.maxFragmentPayload ≤ (iov.map List.length).sum

/-- The number of fragments is the quotient rounded up. -/
theorem packetsRequired_spec {total : ℕ} (hpos : 0 < payload) (htotal : total ≠ 0) :
    ∃ n, packetsRequired total payload = n + 1 ∧ n * payload < total ∧
      total ≤ (n + 1) * payload := by
  have hdiv := Nat.div_add_mod total payload
  have hmod := Nat.mod_lt total hpos
  rw [packetsRequired, Nat.mul_comm] at *
  split_ifs with hzero
  · have hq : total / payload ≠ 0 := fun h0 => htotal (by rw [← hdiv, h0, hzero, Nat.zero_mul])
    obtain ⟨n, hn⟩ := Nat.exists_eq_succ_of_ne_zero hq
    rw [hn, Nat.succ_eq_add_one, Nat.add_mul, Nat.one_mul] at hdiv
    exact ⟨n, hn, by omega, by rw [Nat.add_mul, Nat.one_mul]; omega⟩
  · exact ⟨total / payload, rfl, by omega, by rw [Nat.add_mul, Nat.one_mul]; omega⟩

/-- What the header of a fragment is written with. -/
theorem ofWindow_right {packets k : ℕ} {bytes : List UInt8} (hk : k < packets)
    (hpackets : packets < 2 ^ 32) (hshort : min payload bytes.length < 2 ^ 16)
    (hfull : k + 1 < packets → (k + 1) * payload ≤ bytes.length) :
    (Datagram.ofWindow payload packets bytes k).Right payload packets k := by
  have hlen : (window payload k bytes).length ≤ min payload bytes.length := by
    rw [window, List.length_take, List.length_drop]
    omega
  refine ⟨?_, ?_, ?_, ?_, fun hlt => length_window (hfull hlt), length_window_le _ _ _⟩
  · exact Nat.mod_eq_of_lt (show k < 2 ^ 32 by omega)
  · exact Nat.mod_eq_of_lt hpackets
  · exact Nat.mod_eq_of_lt (show (window payload k bytes).length < 2 ^ 16 by omega)
  · exact decide_eq_true_iff

/-- **The loop over the fragments**, from the `k`-th one on. -/
theorem sendLoop_spec {n : ℕ} {iov : List Block} (id : UniqueId) (hpos : 0 < payload)
    (hpackets : n + 1 < 2 ^ 32) (hshort : min payload iov.flatten.length < 2 ^ 16)
    (hlt : n * payload < iov.flatten.length) (hle : iov.flatten.length ≤ (n + 1) * payload)
    (hslots : ∀ k < n + 1, count (k * payload) ((k + 1) * payload) 0 iov + 2 ≤ iovMax ∨
      count (k * payload) ((k + 1) * payload) 0 iov + 1 = iovMax ∧
        (k + 1) * payload ≤ iov.flatten.length)
    {tests k : ℕ} (hk : k ≤ n + 1) (htests : n + 1 + 2 ≤ k + tests) (flags : UInt8)
    (hflags : k ≤ n → flags = 0x01) (sends : Sends) (transferred : ℕ)
    (hflatten : it.blocks.flatten = iov.flatten.drop (k * payload))
    (hcount : ∀ j, k ≤ j → count (j * payload) ((j + 1) * payload) (k * payload) it.blocks =
      count (j * payload) ((j + 1) * payload) 0 iov) :
    ∃ sends', sendLoop iovMax payload (n + 1) id acceptsWhole tests (BitVec.ofNat 32 k) flags it
        sends transferred = some ⟨transferred + (iov.flatten.length - k * payload : ℕ),
          transferred + (iov.flatten.length - k * payload), sends'⟩ ∧
      sends'.map List.flatten = sends.map List.flatten ++ (List.range' k (n + 1 - k)).map
        (Datagram.image id ∘ Datagram.ofWindow payload (n + 1) iov.flatten) := by
  induction tests generalizing k it flags sends transferred with
  | zero => omega
  | succ tests ih =>
    have hnumber : (BitVec.ofNat 32 k).toNat = k := by
      rw [BitVec.toNat_ofNat, Nat.mod_eq_of_lt (by omega)]
    rw [sendLoop, hnumber]
    rcases Nat.lt_or_ge k (n + 1) with hless | hge
    · have hmul : k * payload ≤ n * payload := Nat.mul_le_mul_right payload (by omega)
      have hsucc : (k + 1) * payload = k * payload + payload := by rw [Nat.add_mul, Nat.one_mul]
      have hroom : (k + 1) * payload - k * payload = payload := by omega
      -- the pieces of this fragment
      have hpieces := @length_cut _ (k * payload) ((k + 1) * payload) _ le_rfl (by omega)
        it.blocks
      rw [hroom, hcount k le_rfl] at hpieces
      have hflat := flatten_cut payload it.blocks
      have hwindow : (cut payload it.blocks).1.flatten = window payload k iov.flatten := by
        rw [hflat.1, hflatten, window]
      have hsum : ((cut payload it.blocks).1.map List.length).sum =
          (window payload k iov.flatten).length := by
        rw [← List.length_flatten, hwindow]
      have hrest : it.blocks.flatten.length = iov.flatten.length - k * payload := by
        rw [hflatten, List.length_drop]
      have hone : 1 ≤ iovMax := by
        rcases hslots k hless with h | h <;> omega
      obtain ⟨it', hcollect, hit'⟩ := @collect_spec iovMax payload 0 [] it hpos _ rfl
        (by
          rw [Nat.sub_zero, hpieces, hrest, List.length_nil]
          rcases hslots k hless with h | h <;> omega) (iovMax + 1)
        (by
          rw [Nat.sub_zero, hpieces]
          rcases hslots k hless with h | h <;> omega)
      rw [Nat.sub_zero, List.nil_append, Nat.zero_add, hsum] at hcollect
      rw [Nat.sub_zero] at hit'
      rw [if_pos hless, hcollect]
      dsimp only
      have hwlen : (window payload k iov.flatten).length =
          min payload (iov.flatten.length - k * payload) := by
        rw [window, List.length_take, List.length_drop]
      have hlength : (BitVec.ofNat 16 (window payload k iov.flatten).length).toNat =
          (window payload k iov.flatten).length := by
        rw [BitVec.toNat_ofNat]
        exact Nat.mod_eq_of_lt (by omega)
      -- the datagram
      have hflag : (if k = n + 1 - 1 then flags ||| 0x02 else flags) =
          if (Datagram.ofWindow payload (n + 1) iov.flatten k).stop then 0x03 else 0x01 := by
        rw [hflags (by omega)]
        refine if_congr ?_ rfl rfl
        rw [Datagram.ofWindow, decide_eq_true_iff]
        omega
      have hheader (f : UInt8) (a : UShort) (b c : ULong) :
          (header f a b c id).length = headerSize := by
        rw [header]
        simp [id.length_eq, headerSize]
      have htotal : (window payload k iov.flatten).length + headerSize =
          ((header (if k = n + 1 - 1 then flags ||| 0x02 else flags)
            (BitVec.ofNat 16 (window payload k iov.flatten).length) (BitVec.ofNat 32 k)
            (BitVec.ofNat 32 (n + 1)) id :: (cut payload it.blocks).1).map List.length).sum := by
        rw [List.map_cons, List.sum_cons, hheader, hsum, Nat.add_comm]
      obtain ⟨tests, rfl⟩ : ∃ t, tests = t + 2 := ⟨tests - 2, by omega⟩
      rw [htotal, transmit_acceptsWhole _ _ (by rw [← htotal]; simp [headerSize])]
      dsimp only
      rw [hlength]
      -- the fragments behind it
      have hrestFlat : it'.blocks.flatten = iov.flatten.drop ((k + 1) * payload) := by
        rw [hit', hflat.2, hflatten, List.drop_drop, hsucc]
      have hrestCount : ∀ j, k + 1 ≤ j →
          count (j * payload) ((j + 1) * payload) ((k + 1) * payload) it'.blocks =
            count (j * payload) ((j + 1) * payload) 0 iov := by
        intro j hj
        have hj' : (k + 1) * payload ≤ j * payload := Nat.mul_le_mul_right payload hj
        have hlast : j * payload < (j + 1) * payload := by
          rw [Nat.add_mul, Nat.one_mul]
          omega
        have hcut := @count_cut _ ((k + 1) * payload) (k * payload) _ _ (by omega) hj' hlast
          it.blocks
        rw [hroom] at hcut
        rw [hit', hcut, hcount j (by omega)]
      have hnext : (BitVec.ofNat 32 k + 1 : ULong) = BitVec.ofNat 32 (k + 1) := by
        rw [BitVec.ofNat_add]
        rfl
      obtain ⟨sends', hloop, hmap⟩ := ih (k := k + 1) (by omega) (by omega)
        (if k = n + 1 - 1 then flags ||| 0x02 else flags)
        (fun hk' => by rw [if_neg (by omega)]; exact hflags (by omega))
        (sends ++ [_ :: (cut payload it.blocks).1])
        (transferred + (window payload k iov.flatten).length) hrestFlat hrestCount
      rw [hnext]
      refine ⟨sends', hloop.trans ?_, ?_⟩
      · have hbytes : transferred + (window payload k iov.flatten).length +
            (iov.flatten.length - (k + 1) * payload) =
              transferred + (iov.flatten.length - k * payload) := by
          rw [hwlen]
          omega
        rw [hbytes, ← Nat.cast_add, hbytes, Nat.cast_add]
      · have hrange : n + 1 - k = n + 1 - (k + 1) + 1 := by omega
        rw [hmap, List.map_append, List.map_singleton, List.flatten_cons, hwindow, hflag, hrange,
          List.range'_succ, List.map_cons, List.append_assoc, List.singleton_append]
        rfl
    · -- all fragments have been sent
      have hall : iov.flatten.length - k * payload = 0 := by
        have hmul : (n + 1) * payload ≤ k * payload := Nat.mul_le_mul_right payload hge
        omega
      have hnone : n + 1 - k = 0 := by omega
      rw [if_neg (by omega), hall, hnone]
      exact ⟨sends, rfl, by rw [List.range'_zero, List.map_nil, List.append_nil]⟩

/-- **A message that can be sent is partitioned.** -/
theorem partitions_of_sendable {factory : Factory} {iov : List Block}
    (hpos : 0 < factory.maxFragmentPayload) (hne : (iov.map List.length).sum ≠ 0)
    (h : Sendable iovMax factory iov) : Partitions iovMax factory iov := by
  obtain ⟨n, hn, hlt, hle⟩ := packetsRequired_spec hpos hne
  obtain ⟨hunlimited, hfew, hshort, hslots⟩ := h
  rw [hn] at hunlimited hfew hslots
  rw [← List.length_flatten] at hlt hle hshort hslots hne hn
  rw [Partitions, ← List.length_flatten, hn]
  intro id tests htests
  obtain ⟨sends, hloop, hmap⟩ := @sendLoop_spec iovMax _ (.new iov) n iov id hpos hfew hshort hlt hle hslots
    tests 0 (Nat.zero_le _) (by omega) 0x01 (fun _ => rfl) [] 0
    (by rw [Nat.zero_mul, List.drop_zero]; rfl) (fun j _ => by rw [Nat.zero_mul]; rfl)
  rw [Nat.zero_mul, Nat.sub_zero, Nat.zero_add, Nat.cast_zero, Int.zero_add] at hloop
  refine ⟨sends, (List.range (n + 1)).map
    (Datagram.ofWindow factory.maxFragmentPayload (n + 1) iov.flatten), ?_, ?_, ?_, ?_, ?_⟩
  · rw [send]
    dsimp only
    rw [← List.length_flatten, if_neg hne, hn, if_neg]
    · exact hloop
    · rintro ⟨hlimit, hsmall⟩
      rcases hunlimited with h0 | hle'
      · exact hlimit h0
      · omega
  · rw [hmap, List.map_map, List.range_eq_range']
    rfl
  · rw [List.length_map, List.length_range]
  · intro k d hd
    obtain ⟨j, hj, rfl⟩ := Option.map_eq_some_iff.mp (List.getElem?_map .. ▸ hd)
    obtain ⟨hk, rfl⟩ := List.getElem?_eq_some_iff.mp hj
    rw [List.length_range] at hk
    rw [List.getElem_range]
    refine ofWindow_right hk hfew hshort fun hlast => ?_
    exact (Nat.mul_le_mul_right _ (by omega)).trans hlt.le
  · rw [List.map_map]
    refine (flatten_windows factory.maxFragmentPayload (n + 1) iov.flatten).trans ?_
    exact List.take_of_length_le hle

/-- Three bytes in two blocks. -/
theorem partitions_of_sendable_three : Partitions 16 ⟨272, 0⟩ [[65], [66, 67]] :=
  partitions_of_sendable (by decide) (by decide) ⟨Or.inl rfl, by decide, by decide, by decide⟩

/-- An array of 16 places has none for the last of 16 blocks of one byte, which together would not
fill a fragment. -/
theorem not_partitions_sixteen : ¬Partitions 16 ⟨272, 0⟩ (List.replicate 16 [65]) := by
  intro h
  obtain ⟨sends, ds, hsend, -⟩ := h ⟨List.replicate 12 0, rfl⟩ 3 (by decide)
  have herror : send 16 ⟨272, 0⟩ ⟨List.replicate 12 0, rfl⟩ acceptsWhole 3 (List.replicate 16 [65]) =
      some ⟨-1, 0, []⟩ := rfl
  rw [herror] at hsend
  cases hsend

end AceTao.Miop
