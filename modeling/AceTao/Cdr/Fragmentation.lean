import AceTao.Cdr.Datum
import AceTao.Library.Machine
import Mathlib.Algebra.Order.BigOperators.Group.List
import Mathlib.Data.List.Forall2

/-!
# The bytes of a stream do not show its blocks

A stream is fragmented according to the size and the address of its first block, the addresses of
the blocks that are allocated, and the size up to which blocks of the caller are copied rather than
chained (`Fragmentation`). `FragmentationFree` says that none of this shows in the bytes of the
stream, padding apart, and that every primitive is aligned in it.

Primitives, arrays and strings never show it. Chains of blocks do in one case: a block that may be
chained or copied, and is longer than a `ULong` can say, loses bytes when it is copied. So the
property holds exactly of the sequences without such a block (`fragmentationFree_iff`).
-/

namespace AceTao.Cdr

open Program ByteImage AlignUp OutputCDR

/-! ### Alignment -/

/-- The primitives of a value, each with its alignment and its bytes. -/
def Datum.primitives (swap : Bool) : Datum → List (ℕ × List UInt8)
  | .scalar x v => [(x.align, wireImage x.size swap v)]
  | .boolean b => [(1, image 1 (booleanOctet b))]
  | .char c => [(1, image 1 c)]
  | .string cs =>
    let len : ULong := BitVec.ofNat 32 cs.length
    if len = 0 then [(4, wireImage 4 swap 1), (1, image 1 0)]
    else (4, wireImage 4 swap (len + 1)) ::
      ((cs ++ [0]).take (len + 1).toNat).map fun c => (1, wireImage 1 swap c)
  | .array x vs _ => vs.map fun v => (x.align, wireImage x.size swap v)
  | .booleanArray bs _ => bs.map fun b => (1, image 1 (booleanOctet b))
  | .charArray cs _ => cs.map fun c => (1, wireImage 1 swap c)

/-- **The primitives are laid out** between two states of a stream: each of them behind some
padding, at a multiple of its alignment. -/
inductive Laid : List (ℕ × List UInt8) → Wire → Wire → Prop
  | nil (w : Wire) : Laid [] w w
  | cons {align : ℕ} {bytes : List UInt8} {ps : List (ℕ × List UInt8)} {w w' : Wire} (k : ℕ)
      (h : align ∣ w.length + k)
      (hps : Laid ps (w ++ List.replicate k none ++ bytes.map some) w') :
      Laid ((align, bytes) :: ps) w w'

theorem Laid.append {ps qs : List (ℕ × List UInt8)} {w w' w'' : Wire} (h : Laid ps w w')
    (h' : Laid qs w' w'') : Laid (ps ++ qs) w w'' := by
  induction h with
  | nil w => exact h'
  | cons k hdvd _ ih => exact .cons k hdvd (ih h')

/-- The primitives are laid out behind what is in the stream. -/
theorem Laid.length_le {ps : List (ℕ × List UInt8)} {w w' : Wire} (h : Laid ps w w') :
    w.length ≤ w'.length := by
  induction h with
  | nil w => exact le_rfl
  | cons k hdvd _ ih =>
    refine le_trans ?_ ih
    rw [List.length_append, List.length_append, Nat.add_assoc]
    exact Nat.le_add_right _ _

theorem laid_put {align : ℕ} (ha : 0 < align) (bytes : List UInt8) (w : Wire) :
    Laid [(align, bytes)] w (put align bytes w) := by
  refine .cons (pad w.length align) ?_ (.nil _)
  rw [add_pad ha]
  exact dvd_alignUp _ _

/-- The elements of an array follow each other without padding. -/
theorem laid_elements {align size : ℕ} (hdvd : align ∣ size) (swap : Bool)
    (vs : List (BitVec (8 * size))) {w : Wire} (hw : align ∣ w.length) :
    Laid (vs.map fun v => (align, wireImage size swap v)) w
      (w ++ (vs.flatMap (wireImage size swap)).map some) := by
  induction vs generalizing w with
  | nil =>
    have hnil : w ++ (([] : List (BitVec (8 * size))).flatMap (wireImage size swap)).map some = w :=
      List.append_nil w
    rw [hnil]
    exact .nil w
  | cons v vs ih =>
    refine .cons 0 (by rwa [Nat.add_zero]) ?_
    have hnext : align ∣ (w ++ (wireImage size swap v).map some).length := by
      rw [List.length_append, List.length_map, length_wireImage]
      exact Nat.dvd_add hw hdvd
    have hrest := ih hnext
    rw [List.append_assoc, ← List.map_append, ← List.flatMap_cons] at hrest
    rwa [List.replicate_zero, List.append_nil]

theorem laid_putArray {align size : ℕ} (ha : 0 < align) (hdvd : align ∣ size) (swap : Bool)
    (vs : List (BitVec (8 * size))) (w : Wire) :
    Laid (vs.map fun v => (align, wireImage size swap v)) w (putArray size swap align vs w) := by
  rw [putArray]
  split_ifs with hnil
  · rw [hnil]
    exact .nil w
  · obtain _ | ⟨v, vs⟩ := vs
    · exact absurd rfl hnil
    · have hfirst : align ∣ w.length + pad w.length align := by
        rw [add_pad ha]
        exact dvd_alignUp _ _
      refine .cons (pad w.length align) hfirst ?_
      have hnext : align ∣ (w ++ List.replicate (pad w.length align) none ++
          (wireImage size swap v).map some).length := by
        rw [List.length_append, List.length_append, List.length_replicate, List.length_map,
          length_wireImage]
        exact Nat.dvd_add hfirst hdvd
      have hput : put align ((v :: vs).flatMap (wireImage size swap)) w =
          w ++ List.replicate (pad w.length align) none ++ (wireImage size swap v).map some ++
            (vs.flatMap (wireImage size swap)).map some := by
        rw [put, List.flatMap_cons, List.map_append, List.append_assoc _ _ (List.map _ _)]
      rw [hput]
      exact laid_elements hdvd swap vs hnext

theorem Scalar.align_dvd_size (x : Scalar) : x.align ∣ x.size := by
  cases x <;> decide

/-- **The primitives of a value are aligned.** -/
theorem Datum.laid (swap : Bool) (d : Datum) (w : Wire) :
    Laid (d.primitives swap) w (d.put swap w) := by
  cases d with
  | scalar x v => exact laid_put x.isAlign.pos _ w
  | boolean b => exact laid_put one_pos _ w
  | char c => exact laid_put one_pos _ w
  | string cs =>
    rw [Datum.primitives, Datum.put, putString]
    split_ifs with hzero
    · exact (laid_put four_pos _ w).append (laid_put one_pos _ _)
    · exact (laid_put four_pos _ w).append (laid_putArray one_pos (one_dvd 1) swap _ _)
  | array x vs h => exact laid_putArray x.isAlign.pos x.align_dvd_size swap vs w
  | booleanArray bs h =>
    rw [Datum.primitives, Datum.put]
    clear h
    induction bs generalizing w with
    | nil => exact .nil w
    | cons b bs ih => exact (laid_put one_pos _ w).append (ih _)
  | charArray cs h => exact laid_putArray one_pos (one_dvd 1) swap cs w

/-! ### Longer streams stay longer -/

/-- **Inserting behind a longer stream** ends behind it, by at least the same multiple of 8. -/
theorem put_mono {align k : ℕ} (ha : IsAlign align) (hk : 8 ∣ k) (bytes : List UInt8) {w w' : Wire}
    (h : w.length + k ≤ w'.length) :
    (put align bytes w).length + k ≤ (put align bytes w').length := by
  have hshift := alignUp_add ha.pos (ha.dvd.trans hk) w.length
  have hmono : alignUp (w.length + k) align ≤ alignUp w'.length align := alignUp_mono _ h
  rw [Nat.add_comm w.length k, hshift] at hmono
  rw [length_put ha.pos, length_put ha.pos]
  omega

theorem putArray_mono {size align k : ℕ} (ha : IsAlign align) (hk : 8 ∣ k) (swap : Bool)
    (xs : List (BitVec (8 * size))) {w w' : Wire} (h : w.length + k ≤ w'.length) :
    (putArray size swap align xs w).length + k ≤ (putArray size swap align xs w').length := by
  rw [putArray, putArray]
  split_ifs
  · exact h
  · exact put_mono ha hk _ h

theorem Datum.put_mono {k : ℕ} (hk : 8 ∣ k) (swap : Bool) (d : Datum) {w w' : Wire}
    (h : w.length + k ≤ w'.length) : (d.put swap w).length + k ≤ (d.put swap w').length := by
  cases d with
  | scalar x v => exact Cdr.put_mono x.isAlign hk _ h
  | boolean b => exact Cdr.put_mono isAlign_one hk _ h
  | char c => exact Cdr.put_mono isAlign_one hk _ h
  | string cs =>
    rw [Datum.put, Datum.put, putString, putString]
    split_ifs
    · exact Cdr.put_mono isAlign_one hk _ (Cdr.put_mono isAlign_four hk _ h)
    · exact putArray_mono isAlign_one hk swap _ (Cdr.put_mono isAlign_four hk _ h)
  | array x vs hlen => exact putArray_mono x.isAlign hk swap vs h
  | booleanArray bs hlen =>
    rw [Datum.put, Datum.put]
    clear hlen
    induction bs generalizing w w' with
    | nil => exact h
    | cons b bs ih => exact ih (Cdr.put_mono isAlign_one hk _ h)
  | charArray cs hlen => exact @putArray_mono 1 1 k isAlign_one hk swap cs w w' h

/-! ### Chains of blocks -/

namespace SourceBlock

/-- What is left of a block that is copied. -/
def copied (i : SourceBlock) : List UInt8 := i.contents.take (i.contents.length % 2 ^ 32)

/-- A copy is complete, or the block is chained in any case. -/
def Complete (i : SourceBlock) : Prop := i.dontDelete = true ∨ i.contents.length < 2 ^ 32

theorem copied_eq {i : SourceBlock} (h : i.contents.length < 2 ^ 32) : i.copied = i.contents := by
  rw [copied, Nat.mod_eq_of_lt h, List.take_length]

theorem length_copied (i : SourceBlock) : i.copied.length = i.contents.length % 2 ^ 32 := by
  rw [copied, List.length_take]
  exact Nat.min_eq_left (Nat.mod_le _ _)

/-- The bytes of a block when every block that may be copied is, or when none is. -/
def inserted (copyAll : Bool) (i : SourceBlock) : List UInt8 :=
  if i.dontDelete || copyAll then i.copied else i.contents

theorem length_inserted_le (copyAll : Bool) (i : SourceBlock) :
    (i.inserted true).length ≤ (i.inserted copyAll).length := by
  have hle : i.copied.length ≤ i.contents.length := by
    rw [length_copied]
    exact Nat.mod_le _ _
  rw [inserted, inserted, Bool.or_true, if_pos rfl]
  split_ifs
  · exact le_rfl
  · exact hle

end SourceBlock

namespace OutputCDR

variable (heap : ℕ → ℕ) {s : OutputCDR}

/-- **A block is copied.** -/
theorem writes_copy (h : Ready s) (i : SourceBlock) :
    Writes (writeArray heap 1 1 i.contents (i.contents.length % 2 ^ 32)) s
      (s.wire ++ i.copied.map some) := by
  by_cases hzero : i.contents.length % 2 ^ 32 = 0
  · have hnil : i.copied = [] := List.eq_nil_of_length_eq_zero (by rw [i.length_copied, hzero])
    have hwire : s.wire ++ i.copied.map some = s.wire := by rw [hnil, List.map_nil, List.append_nil]
    rw [writeArray, if_pos hzero, hwire]
    exact writes_pure h
  · have hle : 1 * (i.contents.length % 2 ^ 32) ≤ i.contents.length := by
      rw [Nat.one_mul]
      exact Nat.mod_le _ _
    have hwrites := writes_writeArray heap i.contents h isAlign_one (Or.inl rfl) hzero hle
    have hcopied : i.contents.take (1 * (i.contents.length % 2 ^ 32)) = i.copied := by
      rw [Nat.one_mul, SourceBlock.copied]
    rwa [hcopied, swapArray_one i.length_copied, ite_self, put_one] at hwrites

/-- **A block is chained.** -/
theorem chain_ready (h : Ready s) (i : SourceBlock) : Ready (chain i s) ∧
    SameConfig s (chain i s) ∧ (chain i s).wire = s.wire ++ i.contents.map some := by
  have hwire : (chain i s).wire = s.wire ++ i.contents.map some := by
    rw [wire_eq, wire_eq, chain, List.flatMap_append, List.flatMap_singleton]
    rfl
  refine ⟨⟨rfl, rfl, ?_, ?_⟩, ⟨rfl, rfl, rfl, rfl⟩, hwire⟩
  · exact (Nat.mod_lt _ (by decide : 0 < maxAlignment)).trans (by decide)
  · have haligned := h.aligned
    rw [hwire, List.length_append, List.length_map, chain, maxAlignment]
    dsimp only
    omega

/-- What a stream takes of a block: it is copied, where it has to or may be, or it is chained. -/
def Takes (s : OutputCDR) (i : SourceBlock) (bytes : List UInt8) : Prop :=
  (bytes = i.copied ∧ (i.dontDelete = true ∨ i.contents.length < s.memcpyTradeoff)) ∨
    (bytes = i.contents ∧ i.dontDelete = false)

/-- **A chain of blocks is inserted**, block by block. -/
theorem writeOctetArrayMb_spec (mb : List SourceBlock) (h : Ready s) :
    ∃ (t : OutputCDR) (cs : List (List UInt8)), writeOctetArrayMb heap mb s = some (.ok (), t) ∧
      Ready t ∧ SameConfig s t ∧ List.Forall₂ (Takes s) mb cs ∧
      t.wire = s.wire ++ cs.flatten.map some := by
  induction mb generalizing s with
  | nil => exact ⟨s, [], rfl, h, SameConfig.refl s, .nil, (List.append_nil _).symm⟩
  | cons i mb ih =>
    -- one block is copied or chained, and the others follow
    have hrest {u : OutputCDR} {bytes : List UInt8} (hu : Ready u) (hconfig : SameConfig s u)
        (htakes : Takes s i bytes) (hwire : u.wire = s.wire ++ bytes.map some) :
        ∃ (t : OutputCDR) (cs : List (List UInt8)), writeOctetArrayMb heap mb u = some (.ok (), t) ∧
          Ready t ∧ SameConfig s t ∧ List.Forall₂ (Takes s) (i :: mb) cs ∧
          t.wire = s.wire ++ cs.flatten.map some := by
      obtain ⟨t, cs, heq, ht, hconfig', hcs, hwire'⟩ := ih hu
      refine ⟨t, bytes :: cs, heq, ht, hconfig.trans hconfig', .cons htakes ?_, ?_⟩
      · refine hcs.imp fun j bytes hj => ?_
        rwa [Takes, ← hconfig.memcpyTradeoff]
      · rw [hwire', hwire, List.flatten_cons, List.map_append, List.append_assoc]
    by_cases hcopy : i.dontDelete = true ∨ (i.contents.length < s.memcpyTradeoff ∧
        s.current.wrPtr + i.contents.length < s.current.maxSize)
    · obtain ⟨u, heq, hu⟩ := writes_copy heap h i
      obtain ⟨t, cs, heq', ht⟩ := hrest hu.ready hu.config
        (Or.inl ⟨rfl, hcopy.imp_right And.left⟩) hu.wire
      refine ⟨t, cs, ?_, ht⟩
      rw [writeOctetArrayMb, get_bind_apply, if_pos hcopy, bind_of_ok heq, heq']
    · obtain ⟨hu, hconfig, hwire⟩ := chain_ready h i
      obtain ⟨t, cs, heq', ht⟩ := hrest hu hconfig
        (Or.inr ⟨rfl, Bool.eq_false_iff.mpr fun hdont => hcopy (Or.inl hdont)⟩) hwire
      refine ⟨t, cs, ?_, ht⟩
      rw [writeOctetArrayMb, get_bind_apply, if_neg hcopy, modify_bind_apply, heq']

/-- **In one block with room to spare** everything that may be copied is. -/
theorem writes_writeOctetArrayMb {capacity : ℕ} (mb : List SourceBlock) (h : Ready s)
    (hone : OneBlock capacity s) (hsmall : ∀ i ∈ mb, i.contents.length < s.memcpyTradeoff)
    (hroom : s.wire.length + (mb.flatMap (SourceBlock.inserted false)).length < capacity) :
    ∃ t, writeOctetArrayMb heap mb s = some (.ok (), t) ∧ Ready t ∧ SameConfig s t ∧
      OneBlock capacity t ∧
      t.wire = s.wire ++ (mb.flatMap (SourceBlock.inserted true)).map some := by
  induction mb generalizing s with
  | nil => exact ⟨s, rfl, h, SameConfig.refl s, hone, (List.append_nil _).symm⟩
  | cons i mb ih =>
    rw [List.flatMap_cons, List.length_append] at hroom
    have hle := i.length_inserted_le false
    have htrue : i.inserted true = i.copied := by
      rw [SourceBlock.inserted, Bool.or_true, if_pos rfl]
    rw [htrue] at hle
    have hcopy : i.dontDelete = true ∨ (i.contents.length < s.memcpyTradeoff ∧
        s.current.wrPtr + i.contents.length < s.current.maxSize) := by
      rcases hdont : i.dontDelete with _ | _
      · have hfalse : i.inserted false = i.contents := by
          rw [SourceBlock.inserted, hdont, Bool.or_false, if_neg Bool.false_ne_true]
        rw [hfalse] at hroom
        have hfits := hone.fits (n := i.contents.length + 1) (by omega)
        exact Or.inr ⟨hsmall i (List.mem_cons_self ..), hfits⟩
      · exact Or.inl rfl
    obtain ⟨u, heq, hu⟩ := writes_copy heap h i
    have hlen : u.wire.length = s.wire.length + i.copied.length := by
      rw [hu.wire, List.length_append, List.length_map]
    have honeu := hu.oneBlock capacity hone (by rw [← hu.wire]; omega)
    obtain ⟨t, heq', ht, hconfig, honet, hwire⟩ := ih hu.ready honeu
      (fun j hj => hu.config.memcpyTradeoff ▸ hsmall j (List.mem_cons_of_mem _ hj)) (by omega)
    refine ⟨t, ?_, ht, hu.config.trans hconfig, honet, ?_⟩
    · rw [writeOctetArrayMb, get_bind_apply, if_pos hcopy, bind_of_ok heq, heq']
    · rw [hwire, hu.wire, List.flatMap_cons, List.map_append, htrue, List.append_assoc]

end OutputCDR

/-! ### Sequences of operations -/

/-- A write operation. -/
inductive WriteOp
  | datum (d : Datum)
  | octetArrayMb (mb : List SourceBlock)

/-- What decides how a stream is fragmented. -/
structure Fragmentation where
  base : ℕ
  size : ℕ
  memcpyTradeoff : ℕ
  heap : ℕ → ℕ

/-- An empty stream. -/
def Fragmentation.start (f : Fragmentation) (doByteSwap : Bool)
    (majorVersion minorVersion : UInt8) : OutputCDR :=
  OutputCDR.init f.base f.size f.memcpyTradeoff doByteSwap majorVersion minorVersion

namespace WriteOp

def perform (heap : ℕ → ℕ) : WriteOp → Writer Unit
  | .datum d => writeDatum heap d
  | .octetArrayMb mb => writeOctetArrayMb heap mb

/-- **The machine**: an operation and its answer. -/
def step (heap : ℕ → ℕ) (s : OutputCDR) (op : WriteOp) :
    Option (OutputCDR × Except Failure Unit) :=
  (perform heap op s).map Prod.swap

theorem step_of_perform {heap : ℕ → ℕ} {s t : OutputCDR} {op : WriteOp} {r : Except Failure Unit}
    (h : perform heap op s = some (r, t)) : step heap s op = some (t, r) := by
  rw [step, h]
  rfl

/-- The blocks of the caller. -/
def blocks : WriteOp → List SourceBlock
  | .datum _ => []
  | .octetArrayMb mb => mb

/-- The bytes of the stream behind an operation when every block that may be copied is, or when
none is. -/
def put (swap copyAll : Bool) : WriteOp → Wire → Wire
  | .datum d, w => d.put swap w
  | .octetArrayMb mb, w => w ++ (mb.flatMap (SourceBlock.inserted copyAll)).map some

theorem put_octetArrayMb (swap copyAll : Bool) (mb : List SourceBlock) (w : Wire) :
    put swap copyAll (.octetArrayMb mb) w =
      w ++ (mb.flatMap (SourceBlock.inserted copyAll)).map some := rfl

theorem length_put_octetArrayMb (swap copyAll : Bool) (mb : List SourceBlock) (w : Wire) :
    (put swap copyAll (.octetArrayMb mb) w).length =
      w.length + (mb.flatMap (SourceBlock.inserted copyAll)).length := by
  rw [put_octetArrayMb, List.length_append, List.length_map]

/-- The bytes of the stream behind a sequence of operations. -/
def putAll (swap copyAll : Bool) (ops : List WriteOp) (w : Wire) : Wire :=
  ops.foldl (fun w op => op.put swap copyAll w) w

variable {swap : Bool}

theorem length_flatMap_inserted (mb : List SourceBlock) :
    (mb.flatMap (SourceBlock.inserted true)).length ≤
      (mb.flatMap (SourceBlock.inserted false)).length := by
  induction mb with
  | nil => exact le_rfl
  | cons i mb ih =>
    have hle := i.length_inserted_le false
    rw [List.flatMap_cons, List.flatMap_cons, List.length_append, List.length_append]
    omega

/-- A block that is not complete makes the difference. -/
theorem length_flatMap_inserted_add {mb : List SourceBlock} {i : SourceBlock} (hi : i ∈ mb)
    (hlarge : ¬i.Complete) : (mb.flatMap (SourceBlock.inserted true)).length + 2 ^ 32 ≤
      (mb.flatMap (SourceBlock.inserted false)).length := by
  induction mb with
  | nil => cases hi
  | cons j mb ih =>
    rw [List.flatMap_cons, List.flatMap_cons, List.length_append, List.length_append]
    rcases List.mem_cons.mp hi with rfl | hi
    · have hrest := length_flatMap_inserted mb
      rw [SourceBlock.Complete, not_or, Bool.not_eq_true] at hlarge
      have htrue : i.inserted true = i.copied := by
        rw [SourceBlock.inserted, Bool.or_true, if_pos rfl]
      have hfalse : i.inserted false = i.contents := by
        rw [SourceBlock.inserted, hlarge.1, Bool.or_false, if_neg Bool.false_ne_true]
      have hlen := i.length_copied
      rw [htrue, hfalse]
      omega
    · have hle := j.length_inserted_le false
      have hrest := ih hi
      omega

theorem put_mono {k : ℕ} (hk : 8 ∣ k) (op : WriteOp) {w w' : Wire}
    (h : w.length + k ≤ w'.length) :
    (op.put swap true w).length + k ≤ (op.put swap false w').length := by
  cases op with
  | datum d => exact d.put_mono hk swap h
  | octetArrayMb mb =>
    have hle := length_flatMap_inserted mb
    rw [length_put_octetArrayMb, length_put_octetArrayMb]
    omega

theorem putAll_mono {k : ℕ} (hk : 8 ∣ k) (ops : List WriteOp) {w w' : Wire}
    (h : w.length + k ≤ w'.length) :
    (putAll swap true ops w).length + k ≤ (putAll swap false ops w').length := by
  induction ops generalizing w w' with
  | nil => exact h
  | cons op ops ih => exact ih (op.put_mono hk h)

/-- **A block that is not complete shows** in the length of the stream. -/
theorem putAll_add {ops : List WriteOp} {op : WriteOp} (hop : op ∈ ops) {i : SourceBlock}
    (hi : i ∈ op.blocks) (hlarge : ¬i.Complete) {w w' : Wire} (h : w.length ≤ w'.length) :
    (putAll swap true ops w).length + 2 ^ 32 ≤ (putAll swap false ops w').length := by
  induction ops generalizing w w' with
  | nil => cases hop
  | cons p ops ih =>
    rcases List.mem_cons.mp hop with rfl | hop
    · refine putAll_mono (by norm_num) ops ?_
      cases op with
      | datum d => cases hi
      | octetArrayMb mb =>
        have hadd := @length_flatMap_inserted_add mb i hi hlarge
        rw [length_put_octetArrayMb, length_put_octetArrayMb]
        omega
    · exact ih hop (p.put_mono (Nat.dvd_zero 8) h)

/-- The stream grows. -/
theorem length_le_put (op : WriteOp) (w : Wire) : w.length ≤ (op.put swap false w).length := by
  cases op with
  | datum d => exact (d.laid swap w).length_le
  | octetArrayMb mb =>
    rw [length_put_octetArrayMb]
    exact Nat.le_add_right _ _

theorem length_le_putAll (ops : List WriteOp) (w : Wire) :
    w.length ≤ (putAll swap false ops w).length := by
  induction ops generalizing w with
  | nil => exact le_rfl
  | cons op ops ih => exact (op.length_le_put w).trans (ih _)

/-! ### Runs -/

variable (heap : ℕ → ℕ) {s : OutputCDR}

/-- What a stream takes of a block that is complete, or of any block where only what has to be is
copied. -/
theorem inserted_of_takes {i : SourceBlock} {bytes : List UInt8}
    (hi : s.memcpyTradeoff = 0 ∨ i.Complete) (h : Takes s i bytes) :
    bytes = i.inserted false := by
  rw [SourceBlock.inserted, Bool.or_false]
  rcases h with ⟨rfl, hcopy⟩ | ⟨rfl, hdont⟩
  · split_ifs with hdont
    · rfl
    · refine SourceBlock.copied_eq ?_
      rcases hi with hzero | hdont' | hlt
      · exact absurd (hcopy.resolve_left hdont) (by omega)
      · exact absurd hdont' hdont
      · exact hlt
  · rw [hdont, if_neg Bool.false_ne_true]

/-- **An operation** on complete blocks, or where only what has to be is copied. -/
theorem perform_spec (h : Ready s) (op : WriteOp)
    (hop : ∀ i ∈ op.blocks, s.memcpyTradeoff = 0 ∨ i.Complete) :
    ∃ t, perform heap op s = some (.ok (), t) ∧ Ready t ∧ SameConfig s t ∧
      t.wire = op.put s.doByteSwap false s.wire := by
  cases op with
  | datum d =>
    obtain ⟨t, heq, ht⟩ := writes_writeDatum heap h d
    exact ⟨t, heq, ht.ready, ht.config, ht.wire⟩
  | octetArrayMb mb =>
    obtain ⟨t, cs, heq, ht, hconfig, hcs, hwire⟩ := writeOctetArrayMb_spec heap mb h
    refine ⟨t, heq, ht, hconfig, hwire.trans ?_⟩
    have hflat : cs.flatten = mb.flatMap (SourceBlock.inserted false) := by
      clear heq hwire
      induction hcs with
      | nil => rfl
      | @cons i bytes mb cs hi _ ih =>
        rw [List.flatten_cons, List.flatMap_cons,
          inserted_of_takes (hop i (List.mem_cons_self ..)) hi,
          ih fun j hj => hop j (List.mem_cons_of_mem _ hj)]
    rw [hflat]
    rfl

/-- **A run** of such operations. -/
theorem run_spec (h : Ready s) (ops : List WriteOp)
    (hops : ∀ op ∈ ops, ∀ i ∈ op.blocks, s.memcpyTradeoff = 0 ∨ i.Complete) :
    ∃ t answers, Machine.run (step heap) s ops = some (t, answers) ∧
      t.wire = putAll s.doByteSwap false ops s.wire ∧ SameConfig s t ∧
      ∀ answer ∈ answers, answer = .ok () := by
  induction ops generalizing s with
  | nil => exact ⟨s, [], rfl, rfl, SameConfig.refl s, fun answer hanswer => by cases hanswer⟩
  | cons op ops ih =>
    obtain ⟨t, heq, ht, hconfig, hwire⟩ := perform_spec heap h op
      (hops op (List.mem_cons_self ..))
    obtain ⟨u, answers, hrun, hu, hconfig', hanswers⟩ := ih ht fun p hp i hi =>
      hconfig.memcpyTradeoff ▸ hops p (List.mem_cons_of_mem _ hp) i hi
    refine ⟨u, _, Machine.run_cons_eq_some.mpr
      ⟨t, _, answers, step_of_perform heq, hrun, rfl⟩, ?_, hconfig.trans hconfig', ?_⟩
    · rw [hu, hwire, hconfig.doByteSwap]
      rfl
    · rintro answer hanswer
      rcases List.mem_cons.mp hanswer with rfl | hanswer
      · rfl
      · exact hanswers answer hanswer

/-- **A run in one block** with room to spare. -/
theorem run_oneBlock {capacity : ℕ} (h : Ready s) (hone : OneBlock capacity s)
    (ops : List WriteOp) (hsmall : ∀ op ∈ ops, ∀ i ∈ op.blocks,
      i.contents.length < s.memcpyTradeoff) {w : Wire} (hw : s.wire.length ≤ w.length)
    (hroom : (putAll s.doByteSwap false ops w).length < capacity) :
    ∃ t answers, Machine.run (step heap) s ops = some (t, answers) ∧
      t.wire = putAll s.doByteSwap true ops s.wire := by
  induction ops generalizing s w with
  | nil => exact ⟨s, [], rfl, rfl⟩
  | cons op ops ih =>
    have hnext : (op.put s.doByteSwap false w).length < capacity :=
      (length_le_putAll ops _).trans_lt hroom
    have hstep : ∃ t, perform heap op s = some (.ok (), t) ∧ Ready t ∧ SameConfig s t ∧
        OneBlock capacity t ∧ t.wire = op.put s.doByteSwap true s.wire := by
      cases op with
      | datum d =>
        obtain ⟨t, heq, ht⟩ := writes_writeDatum heap h d
        refine ⟨t, heq, ht.ready, ht.config, ht.oneBlock capacity hone ?_, ht.wire⟩
        exact (d.put_mono (Nat.dvd_zero 8) _ hw).trans hnext.le
      | octetArrayMb mb =>
        refine writes_writeOctetArrayMb heap mb h hone (hsmall _ (List.mem_cons_self ..)) ?_
        rw [length_put_octetArrayMb] at hnext
        omega
    obtain ⟨t, heq, ht, hconfig, honet, hwire⟩ := hstep
    rw [← hconfig.doByteSwap] at hroom
    obtain ⟨u, answers, hrun, hu⟩ := ih ht honet
      (fun p hp i hi => hconfig.memcpyTradeoff ▸ hsmall p (List.mem_cons_of_mem _ hp) i hi)
      (hwire ▸ hconfig.doByteSwap ▸ op.put_mono (Nat.dvd_zero 8) hw) hroom
    refine ⟨u, _, Machine.run_cons_eq_some.mpr
      ⟨t, _, answers, step_of_perform heq, hrun, rfl⟩, ?_⟩
    rw [hu, hwire, hconfig.doByteSwap]
    rfl

/-- Every operation leaves the stream ready. -/
theorem ready_step {op : WriteOp} {t : OutputCDR} {answer : Except Failure Unit} (h : Ready s)
    (hstep : step heap s op = some (t, answer)) : Ready t ∧ t.doByteSwap = s.doByteSwap := by
  have hperform : ∃ u, perform heap op s = some (.ok (), u) ∧ Ready u ∧ SameConfig s u := by
    cases op with
    | datum d =>
      obtain ⟨u, heq, hu⟩ := writes_writeDatum heap h d
      exact ⟨u, heq, hu.ready, hu.config⟩
    | octetArrayMb mb =>
      obtain ⟨u, -, heq, hu, hconfig, -⟩ := writeOctetArrayMb_spec heap mb h
      exact ⟨u, heq, hu, hconfig⟩
  obtain ⟨u, heq, hu, hconfig⟩ := hperform
  rw [step_of_perform heq] at hstep
  cases hstep
  exact ⟨hu, hconfig.doByteSwap⟩

end WriteOp

/-! ### The property -/

open WriteOp

/-- **Fragmentation does not show**: the stream has the same bytes however it is fragmented, and the
primitives of every value are aligned in it. -/
structure FragmentationFree (doByteSwap : Bool) (majorVersion minorVersion : UInt8)
    (ops : List WriteOp) : Prop where
  wire : ∃ w, ∀ f : Fragmentation, ∃ t answers,
    Machine.run (step f.heap) (f.start doByteSwap majorVersion minorVersion) ops =
      some (t, answers) ∧ t.wire = w
  aligned : ∀ (f : Fragmentation) (before after : List WriteOp) (d : Datum) (s : OutputCDR) answers,
    ops = before ++ .datum d :: after →
    Machine.run (step f.heap) (f.start doByteSwap majorVersion minorVersion) before =
      some (s, answers) →
    ∃ t answer, step f.heap s (.datum d) = some (t, answer) ∧
      Laid (d.primitives doByteSwap) s.wire t.wire

section

variable {doByteSwap : Bool} {majorVersion minorVersion : UInt8} {ops : List WriteOp}

/-- **Every value is aligned**, wherever it is inserted. -/
theorem laid_step (f : Fragmentation) {before : List WriteOp} {s : OutputCDR}
    {answers : List (Except Failure Unit)} (hrun : Machine.run (step f.heap)
      (f.start doByteSwap majorVersion minorVersion) before = some (s, answers)) (d : Datum) :
    ∃ t answer, step f.heap s (.datum d) = some (t, answer) ∧
      Laid (d.primitives doByteSwap) s.wire t.wire := by
  have hready : Ready s ∧ s.doByteSwap = doByteSwap := by
    refine Machine.inv_run (P := fun s => Ready s ∧ s.doByteSwap = doByteSwap) ?_
      ⟨init_ready .., rfl⟩ hrun
    rintro s op t answer ⟨hs, hswap⟩ hstep
    obtain ⟨ht, hswap'⟩ := ready_step f.heap hs hstep
    exact ⟨ht, hswap'.trans hswap⟩
  obtain ⟨hs, rfl⟩ := hready
  obtain ⟨t, heq, ht⟩ := writes_writeDatum f.heap hs d
  exact ⟨t, _, step_of_perform heq, ht.wire ▸ d.laid s.doByteSwap s.wire⟩

theorem fragmentationFree_of_complete (h : ∀ op ∈ ops, ∀ i ∈ op.blocks, i.Complete) :
    FragmentationFree doByteSwap majorVersion minorVersion ops := by
  refine ⟨⟨putAll doByteSwap false ops [], fun f => ?_⟩,
    fun f before after d s answers _ hrun => laid_step f hrun d⟩
  obtain ⟨t, answers, hrun, hwire, -⟩ := run_spec f.heap
    (init_ready f.base f.size f.memcpyTradeoff doByteSwap majorVersion minorVersion) ops
    fun op hop i hi => Or.inr (h op hop i hi)
  exact ⟨t, answers, hrun, hwire⟩

/-- A bound on the lengths of the blocks of the caller. -/
theorem exists_tradeoff (ops : List WriteOp) :
    ∃ n, ∀ op ∈ ops, ∀ i ∈ op.blocks, i.contents.length < n := by
  refine ⟨((ops.flatMap WriteOp.blocks).map fun i => i.contents.length).sum + 1,
    fun op hop i hi => ?_⟩
  have hmem : i.contents.length ∈ (ops.flatMap WriteOp.blocks).map fun i => i.contents.length :=
    List.mem_map_of_mem (List.mem_flatMap_of_mem hop hi)
  exact Nat.lt_succ_of_le (List.single_le_sum (fun _ _ => Nat.zero_le _) _ hmem)

/-- **A block that is not complete** is chained whole where nothing is copied, and is cut where
everything is. -/
theorem not_fragmentationFree {op : WriteOp} (hop : op ∈ ops) {i : SourceBlock}
    (hi : i ∈ op.blocks) (hlarge : ¬i.Complete) :
    ¬FragmentationFree doByteSwap majorVersion minorVersion ops := by
  rintro ⟨⟨w, hw⟩, -⟩
  obtain ⟨n, hn⟩ := exists_tradeoff ops
  have hadd : (putAll doByteSwap true ops []).length + 2 ^ 32 ≤
      (putAll doByteSwap false ops []).length := putAll_add hop hi hlarge le_rfl
  -- nothing is copied
  obtain ⟨t, answers, hrun, rfl⟩ := hw ⟨0, 0, 0, id⟩
  obtain ⟨t', answers', hrun', hchained, -⟩ := run_spec id
    (init_ready 0 0 0 doByteSwap majorVersion minorVersion) ops fun _ _ _ _ => Or.inl rfl
  cases Option.some.inj (hrun.symm.trans hrun')
  -- everything is copied, into one block
  have hone : OneBlock ((putAll doByteSwap false ops []).length + 1)
      (init 0 ((putAll doByteSwap false ops []).length + 1) n doByteSwap majorVersion
        minorVersion) := ⟨rfl, rfl, (Nat.zero_add _).symm⟩
  obtain ⟨u, answers'', hrun'', hcopied⟩ := run_oneBlock id (init_ready ..) hone ops hn
    (le_refl ([] : Wire).length) (Nat.lt_succ_self _)
  obtain ⟨u', answers₃, hrun₃, heq⟩ :=
    hw ⟨0, (putAll doByteSwap false ops []).length + 1, n, id⟩
  cases Option.some.inj (hrun''.symm.trans hrun₃)
  have hlen := congrArg List.length (hcopied.symm.trans (heq.trans hchained))
  change (putAll doByteSwap true ops []).length = (putAll doByteSwap false ops []).length at hlen
  omega

/-- **Fragmentation does not show exactly when** every block of the caller is complete: it is always
copied, or a copy takes all of it. -/
theorem fragmentationFree_iff : FragmentationFree doByteSwap majorVersion minorVersion ops ↔
    ∀ op ∈ ops, ∀ i ∈ op.blocks, i.Complete :=
  ⟨fun h _ hop _ hi => not_not.mp fun hlarge => not_fragmentationFree hop hi hlarge h,
    fragmentationFree_of_complete⟩

end

/-- A block of 2³² bytes that the caller allows to be chained. -/
def largeBlock : SourceBlock := ⟨false, 0, 2 ^ 32, 2 ^ 32, 0, List.replicate (2 ^ 32) 0⟩

/-- The bytes of a large block are in the stream when it is chained, and not when it is copied. -/
theorem largeBlock_shows :
    ¬FragmentationFree false 1 2 [.octetArrayMb [largeBlock]] := by
  refine not_fragmentationFree (List.mem_singleton_self _) (List.mem_singleton_self _) ?_
  rintro (hdont | hlt)
  · cases hdont
  · rw [largeBlock, List.length_replicate] at hlt
    exact lt_irrefl _ hlt

end AceTao.Cdr
