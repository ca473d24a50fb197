import Mathlib.Algebra.GroupWithZero.Nat
import Mathlib.Data.Nat.Basic
import Mathlib.Logic.Function.Basic

/-!
# The entry of a request in fragments

The gateway between event channels receives a request that does not fit into one datagram in
fragments. A `TAO_ECG_UDP_Request_Entry` collects them: the payload, of which each fragment says the
place of its bytes, and a vector of bits that notes the numbers of the fragments that are there. The
request is complete when all words of the vector are full, for which the bits behind the last number
are set from the beginning (`RequestEntry.complete_iff`).

A byte of the payload is `none` until it is written with a byte that was received.
-/

namespace AceTao.EventGateway

abbrev ULong := BitVec 32

/-- `Mcast_Header`. The check sum is read only if it is checked. -/
structure Header where
  byteOrder : Bool
  requestId : ULong
  requestSize : ULong
  fragmentSize : ULong
  fragmentOffset : ULong
  fragmentId : ULong
  fragmentCount : ULong
  crc : Option ULong
  deriving DecidableEq

/-- `ACE_MAX_DGRAM_SIZE`, the size of the buffer for the data of a datagram. -/
def maxDgramSize : ℕ := 8192

/-- **`TAO_ECG_UDP_Request_Entry`**. The array of words is a function and its size. -/
structure RequestEntry where
  byteOrder : Bool
  requestId : ULong
  requestSize : ULong
  fragmentCount : ULong
  payload : ℕ → Option UInt8
  receivedFragments : ℕ → ULong
  receivedFragmentsSize : ℕ

namespace RequestEntry

/-- The constructor. -/
def new (h : Header) : RequestEntry where
  byteOrder := h.byteOrder
  requestId := h.requestId
  requestSize := h.requestSize
  fragmentCount := h.fragmentCount
  payload := fun _ => none
  receivedFragments := Function.update (fun _ => 0) (h.fragmentCount.toNat / 32)
    ((0xFFFFFFFF : ULong) <<< (h.fragmentCount.toNat % 32))
  receivedFragmentsSize := h.fragmentCount.toNat / 32 + 1

/-- `validate_fragment`. The sum is one of 32 bits. -/
def validateFragment (e : RequestEntry) (h : Header) : Bool :=
  if h.byteOrder ≠ e.byteOrder ∨ h.requestSize ≠ e.requestSize ∨
      h.fragmentCount ≠ e.fragmentCount then false
  else if h.requestSize ≤ h.fragmentOffset ∨
      h.requestSize < h.fragmentOffset + h.fragmentSize then false
  else true

/-- A word of the vector; none outside of the array. -/
def word (e : RequestEntry) (idx : ℕ) : Option ULong :=
  if idx < e.receivedFragmentsSize then some (e.receivedFragments idx) else none

/-- `test_received` -/
def testReceived (e : RequestEntry) (id : ULong) : Option Bool :=
  if e.fragmentCount < id then some true
  else (e.word (id.toNat / 32)).map fun w => w &&& ((1 : ULong) <<< (id.toNat % 32)) ≠ 0

/-- `mark_received` -/
def markReceived (e : RequestEntry) (id : ULong) : Option RequestEntry :=
  if e.fragmentCount < id then some e
  else (e.word (id.toNat / 32)).map fun w =>
    { e with
      receivedFragments := Function.update e.receivedFragments (id.toNat / 32)
        (w ||| ((1 : ULong) <<< (id.toNat % 32))) }

/-- `complete` -/
def complete (e : RequestEntry) : Bool :=
  decide (∀ i < e.receivedFragmentsSize, e.receivedFragments i = 0xFFFFFFFF)

/-- The payload behind a call of `memcpy`. What lies in the buffer behind the data was not received. -/
def copied (e : RequestEntry) (h : Header) (data : List UInt8) : RequestEntry :=
  { e with
    payload := fun k =>
      if h.fragmentOffset.toNat ≤ k ∧ k < h.fragmentOffset.toNat + h.fragmentSize.toNat then
        data[k - h.fragmentOffset.toNat]?
      else e.payload k }

/-- The call of `memcpy`. It has no answer outside of the payload or of the buffer for the data. -/
def copyFragment (e : RequestEntry) (h : Header) (data : List UInt8) : Option RequestEntry :=
  if h.fragmentOffset.toNat + h.fragmentSize.toNat ≤ e.requestSize.toNat ∧
      h.fragmentSize.toNat ≤ maxDgramSize then some (e.copied h data)
  else none

/-- The bytes that `decode` is called on. -/
def bytes (e : RequestEntry) : List (Option UInt8) :=
  (List.range e.requestSize.toNat).map e.payload

/-! ### The vector of bits -/

/-- The bit of a fragment. -/
def marked (e : RequestEntry) (id : ℕ) : Bool :=
  (e.receivedFragments (id / 32)).getLsbD (id % 32)

/-- **The invariant**: there are words for all fragments, and the bits behind the last are set. -/
structure Inv (e : RequestEntry) : Prop where
  size_eq : e.receivedFragmentsSize = e.fragmentCount.toNat / 32 + 1
  tail : ∀ id, e.fragmentCount.toNat ≤ id → id / 32 < e.receivedFragmentsSize → e.marked id = true

variable {e e' : RequestEntry} {h : Header} {id : ULong} {data : List UInt8}

theorem marked_new (h : Header) (id : ℕ) : (new h).marked id =
    decide (id / 32 = h.fragmentCount.toNat / 32 ∧ h.fragmentCount.toNat ≤ id) := by
  rw [marked, new]
  dsimp only
  by_cases hidx : id / 32 = h.fragmentCount.toNat / 32
  · have hlt : id % 32 < 32 := Nat.mod_lt _ (by decide)
    have hones : (0xFFFFFFFF : ULong).getLsbD (id % 32 - h.fragmentCount.toNat % 32) = true := by
      have hbit : (0xFFFFFFFF : ULong) = BitVec.allOnes 32 := rfl
      rw [hbit, BitVec.getLsbD_allOnes, decide_eq_true_eq]
      omega
    rw [hidx, Function.update_self, BitVec.getLsbD_shiftLeft, hones, Bool.and_true, Bool.eq_iff_iff,
      decide_eq_true_eq]
    simp only [Bool.and_eq_true, decide_eq_true_eq, Bool.not_eq_true', decide_eq_false_iff_not,
      true_and]
    omega
  · rw [Function.update_of_ne hidx, BitVec.ofNat_eq_ofNat, BitVec.getLsbD_zero]
    exact (decide_eq_false fun hand => hidx hand.1).symm

theorem inv_new (h : Header) : (new h).Inv := by
  refine ⟨rfl, fun id hle hlt => ?_⟩
  rw [marked_new, decide_eq_true_eq]
  refine ⟨?_, hle⟩
  have hdiv : h.fragmentCount.toNat / 32 ≤ id / 32 := Nat.div_le_div_right hle
  change id / 32 < h.fragmentCount.toNat / 32 + 1 at hlt
  omega

/-- Of a new entry, no fragment has been received. -/
theorem not_marked_new {id : ℕ} (hlt : id < h.fragmentCount.toNat) : (new h).marked id = false := by
  rw [marked_new]
  exact decide_eq_false fun hand => Nat.not_le.mpr hlt hand.2

/-- The bit that is tested and set. -/
theorem and_bit_ne_zero (w : ULong) {b : ℕ} (hb : b < 32) :
    w &&& ((1 : ULong) <<< b) ≠ 0 ↔ w.getLsbD b = true := by
  have hbit (i : ℕ) : ((1 : ULong) <<< b).getLsbD i = decide (i = b) := by
    rw [BitVec.getLsbD_shiftLeft, BitVec.ofNat_eq_ofNat, BitVec.getLsbD_one]
    by_cases heq : i = b
    · subst heq
      simp [hb]
    · simp only [heq, decide_false]
      simp
      omega
  constructor
  · intro hne
    by_contra hnot
    refine hne (BitVec.eq_of_getLsbD_eq fun i hi => ?_)
    rw [BitVec.getLsbD_and, hbit]
    by_cases heq : i = b
    · rw [heq, eq_false_of_ne_true hnot]
      simp
    · simp [heq]
  · intro htrue heq
    have hget := congrArg (BitVec.getLsbD · b) heq
    simp only [BitVec.getLsbD_and, hbit, htrue, decide_true] at hget
    simp at hget

/-- A fragment with a number that is in use has a word. -/
theorem Inv.lt_size (hinv : e.Inv) (hid : id.toNat ≤ e.fragmentCount.toNat) :
    id.toNat / 32 < e.receivedFragmentsSize := by
  rw [hinv.size_eq]
  exact Nat.lt_succ_of_le (Nat.div_le_div_right hid)

/-- **`test_received`** -/
theorem testReceived_eq (hinv : e.Inv) (hid : id.toNat ≤ e.fragmentCount.toNat) :
    e.testReceived id = some (e.marked id.toNat) := by
  have hlt : ¬e.fragmentCount < id := BitVec.not_lt.mpr (BitVec.le_def.mpr hid)
  rw [testReceived, if_neg hlt, word, if_pos (hinv.lt_size hid), Option.map_some, marked]
  congr 1
  rw [Bool.eq_iff_iff, decide_eq_true_eq]
  exact and_bit_ne_zero _ (Nat.mod_lt _ (by decide))

/-- **`mark_received`** sets one bit. -/
theorem markReceived_spec (hinv : e.Inv) (hid : id.toNat ≤ e.fragmentCount.toNat) :
    ∃ words, e.markReceived id = some { e with receivedFragments := words } ∧
      ∀ k, marked { e with receivedFragments := words } k = (e.marked k || decide (k = id.toNat)) := by
  have hlt : ¬e.fragmentCount < id := BitVec.not_lt.mpr (BitVec.le_def.mpr hid)
  refine ⟨_, by rw [markReceived, if_neg hlt, word, if_pos (hinv.lt_size hid), Option.map_some],
    fun k => ?_⟩
  rw [marked, marked]
  dsimp only
  by_cases hidx : k / 32 = id.toNat / 32
  · rw [hidx, Function.update_self, BitVec.getLsbD_or, BitVec.getLsbD_shiftLeft]
    have hk : k % 32 < 32 := Nat.mod_lt _ (by decide)
    congr 1
    rw [Bool.eq_iff_iff, decide_eq_true_eq, BitVec.ofNat_eq_ofNat, BitVec.getLsbD_one]
    simp only [Bool.and_eq_true, decide_eq_true_eq, Bool.not_eq_true', decide_eq_false_iff_not]
    omega
  · have hne : k ≠ id.toNat := fun heq => hidx (by rw [heq])
    rw [Function.update_of_ne hidx, decide_eq_false hne, Bool.or_false]

/-- **The request is complete** when all its fragments have been received. -/
theorem complete_iff (hinv : e.Inv) :
    e.complete = true ↔ ∀ id < e.fragmentCount.toNat, e.marked id = true := by
  have hones : (0xFFFFFFFF : ULong) = BitVec.allOnes 32 := rfl
  rw [complete, decide_eq_true_eq]
  constructor
  · intro hall id hid
    have hlt : id / 32 < e.receivedFragmentsSize := by
      rw [hinv.size_eq]
      exact Nat.lt_succ_of_le (Nat.div_le_div_right (Nat.le_of_lt hid))
    rw [marked, hall _ hlt, hones, BitVec.getLsbD_allOnes, decide_eq_true_eq]
    exact Nat.mod_lt _ (by decide)
  · intro hall i hi
    rw [hones]
    refine BitVec.eq_of_getLsbD_eq fun b hb => ?_
    rw [BitVec.getLsbD_allOnes, decide_eq_true hb]
    have hdiv : (32 * i + b) / 32 = i := by omega
    have hmod : (32 * i + b) % 32 = b := by omega
    have hbit : e.marked (32 * i + b) = true := by
      by_cases hcount : 32 * i + b < e.fragmentCount.toNat
      · exact hall _ hcount
      · exact hinv.tail _ (Nat.not_lt.mp hcount) (hdiv.symm ▸ hi)
    rwa [marked, hdiv, hmod] at hbit

/-- A bit more keeps the invariant. -/
theorem Inv.of_marked (hinv : e.Inv) (hcount : e'.fragmentCount = e.fragmentCount)
    (hsize : e'.receivedFragmentsSize = e.receivedFragmentsSize)
    (hmarked : ∀ k, e.marked k = true → e'.marked k = true) : e'.Inv := by
  refine ⟨by rw [hsize, hcount, hinv.size_eq], fun id hle hlt => hmarked id ?_⟩
  exact hinv.tail id (hcount ▸ hle) (hsize ▸ hlt)

end RequestEntry

end AceTao.EventGateway
