import AceTao.Cdr.Bounds
import AceTao.Marshal.Append

/-!
# Sequences and arrays are appended within what is reserved

Elements of a basic type are reserved in the destination by `adjust` before anything is known of the
source, and read by an operation that tests what is left of the source. A wide character is two bytes
for the one and four for the other, so wide characters that are there are stored behind what is
reserved. Where `adjust` fails, nothing is read, and the count is accepted as it is. Skipping takes
two bytes for a wide character, whatever its size in the stream.

`copiesRight_iff` says that these are the only deviations.
-/

namespace AceTao.Cdr.InputCDR

open Program ByteImage AlignUp

variable {s t : InputCDR} {size align room n : ℕ} {length : ULong}

/-! ### The array operations -/

/-- An array that is read is there. -/
theorem valueEnd_le_of_readArrayInto {k : ℕ} {x : List UInt8} (h : InBounds s) (ha : IsAlign align)
    (hsize : size * k ≤ 2 ^ 62) (hpos : k ≠ 0)
    (heq : readArrayInto room size align k s = some (.ok x, t)) :
    s.valueEnd (size * k) align ≤ s.wrPtr := by
  have hmod : size * k % 2 ^ 64 = size * k := Nat.mod_eq_of_lt (by omega)
  have hadjust := adjust_eq h ha hsize
  by_contra hend
  rw [if_neg hend] at hadjust
  rw [readArrayInto, if_neg hpos, hmod, bind_of_error hadjust] at heq
  cases heq

/-- **An array without room** for its elements. -/
theorem readArrayInto_eq_none {k : ℕ} (h : InBounds s) (ha : IsAlign align)
    (hsizes : size = 1 ∨ size = 2 ∨ size = 4 ∨ size = 8 ∨ size = 16) (hsize : size * k ≤ 2 ^ 62)
    (hroom : room < size * k) (hend : s.valueEnd (size * k) align ≤ s.wrPtr) :
    readArrayInto room size align k s = none := by
  have hpos : k ≠ 0 := by
    rintro rfl
    exact absurd hroom (Nat.not_lt_zero room)
  have hmod : size * k % 2 ^ 64 = size * k := Nat.mod_eq_of_lt (by omega)
  have hge := h.ge.trans (le_alignUp ha.pos _)
  have hadjust := adjust_eq h ha hsize
  rw [if_pos hend] at hadjust
  have hlength := length_bytesAt hge hend
  have hload : load (alignUp s.rdPtr align) (size * k) (s.setRdPtr (s.valueEnd (size * k) align)) =
      some (.ok (s.bytesAt (alignUp s.rdPtr align) (size * k)), _) := load_eq hge hend
  rw [readArrayInto, if_neg hpos, hmod, bind_of_ok hadjust, get_bind_apply, bind_of_ok hload, ite_run,
    ite_run]
  split_ifs with hplain hwide
  · exact (store_returnGoodBit_eq _ _ _).trans (if_neg (by omega))
  · refine (store_returnGoodBit_eq _ _ _).trans (if_neg ?_)
    rw [length_swapArray _ hlength]
    omega
  · refine absurd (hsizes.resolve_left fun hone => hplain ?_) hwide
    rw [hone, decide_eq_true rfl, Bool.or_true]

/-- Arrays of words are stored in as many bytes as they have in the stream. -/
theorem readWordArrayInto_spec (h : InBounds s) (ha : IsAlign align) (hsize : size ≤ 16)
    (hroom : size * length.toNat ≤ room) :
    (∃ p, readWordArrayInto size align room length s = some p) ∧
      ∀ x t, readWordArrayInto size align room length s = some (.ok x, t) →
        length = 0 ∨ s.valueEnd (size * length.toNat) align ≤ s.wrPtr := by
  have hmul : size * length.toNat ≤ 16 * 2 ^ 32 := Nat.mul_le_mul hsize length.isLt.le
  rw [readWordArrayInto, get_bind_apply, ite_run]
  split_ifs
  · exact ⟨⟨_, rfl⟩, nofun⟩
  · obtain ⟨r, u, heq, -⟩ := safeAt_readArrayInto h ha (by omega) hroom
    refine ⟨⟨_, heq⟩, fun x t hx => or_iff_not_imp_left.mpr fun hne => ?_⟩
    have hpos : length.toNat ≠ 0 := fun hzero => hne (BitVec.eq_of_toNat_eq hzero)
    exact valueEnd_le_of_readArrayInto h ha (by omega) hpos hx

/-- The loop over booleans that are there stores each in one octet. -/
theorem safeAt_readBooleansInto {k : ℕ} (h : InBounds s) (hk : s.rdPtr + k ≤ s.wrPtr)
    (hroom : k ≤ room) : SafeAt (readBooleansInto room k) s fun _ => True := by
  induction k generalizing s room with
  | zero => exact safeAt_returnGoodBit h _
  | succ k ih =>
    refine safeAt_get_bind.mpr (safeAt_ite (fun _ => ?_) fun _ => safeAt_throw h nofun)
    have hlt : s.rdPtr < s.wrPtr := by omega
    have heq := readBoolean_eq h hlt rfl
    have hrd : (s.setRdPtr (s.rdPtr + 1)).rdPtr = s.rdPtr + 1 := setRdPtr_rdPtr_of_le hlt
    refine ((safeAt_readBoolean h).mono fun _ _ => trivial).bind h fun x t hat ht => ?_
    obtain rfl := (Prod.mk.inj (Option.some.inj (heq.symm.trans hat))).2
    have hone : (image 1 (if x then 1 else 0)).length = 1 := length_image _
    refine (safeAt_store ht (by omega)).bind ht fun _ u hu hin => ?_
    rw [store_eq, if_pos (by omega)] at hu
    cases hu
    have hnext : (s.setRdPtr (s.rdPtr + 1)).rdPtr + k ≤ s.wrPtr := by omega
    exact (ih ht hnext (by omega)).bind ht fun _ _ _ hv => safeAt_pure hv _

theorem readBooleanArrayInto_spec (h : InBounds s) (hroom : length.toNat ≤ room) :
    (∃ p, readBooleanArrayInto room length s = some p) ∧
      ∀ x t, readBooleanArrayInto room length s = some (.ok x, t) →
        length = 0 ∨ s.valueEnd (1 * length.toNat) 1 ≤ s.wrPtr := by
  have hle := h.le
  rw [readBooleanArrayInto, get_bind_apply, ite_run]
  split_ifs with hlen
  · exact ⟨⟨_, rfl⟩, nofun⟩
  · rw [length_eq h] at hlen
    obtain ⟨r, u, heq, -⟩ := safeAt_readBooleansInto h (show s.rdPtr + length.toNat ≤ s.wrPtr by omega)
      hroom
    refine ⟨⟨_, heq⟩, fun _ _ _ => Or.inr ?_⟩
    rw [valueEnd, alignUp_one]
    omega

/-! ### Wide characters -/

/-- The alignment of an array of wide characters of `n` bytes. -/
def wcharAlign (n : ℕ) : ℕ := if n = 4 then 4 else if n = 2 then 2 else 1

theorem isAlign_wcharAlign (n : ℕ) : IsAlign (wcharAlign n) := by
  rw [wcharAlign]
  split_ifs
  · exact isAlign_four
  · exact isAlign_two
  · exact isAlign_one

theorem mul_toNat_le {n : ℕ} (hn : n ≤ 2 ^ 30) (length : ULong) : n * length.toNat ≤ 2 ^ 62 :=
  (Nat.mul_le_mul hn length.isLt.le).trans_eq (by norm_num)

theorem readWcharArrayInto_plain (n room : ℕ) (length : ULong) (s : InputCDR) :
    readWcharArrayInto (.plain n) room length s =
      if length.toNat * n % 2 ^ 64 > s.length then fail .bounds s
      else if n ≠ 4 then readWcharArrayIInto (.plain n) room length s
      else (readArrayInto (4 * room) 4 4 length.toNat >>= fun bytes =>
        pure (ofArrayImage 4 length.toNat bytes)) s := by
  rw [readWcharArrayInto, get_bind_apply, ite_run]
  exact congrArg _ (ite_run _ _)

/-- No wide characters. -/
theorem readWcharBytesInto_zero (n room : ℕ) (s : InputCDR) (hzero : length = 0) :
    readWcharBytesInto n room length s = some (.ok [], s) := by
  have hlen : length.toNat = 0 := by
    rw [hzero]
    rfl
  have hcheck : ¬length.toNat * n % 2 ^ 64 > s.length := by
    rw [hlen, Nat.zero_mul, Nat.zero_mod]
    exact Nat.not_lt_zero _
  have hread : readArrayInto (4 * (room / 4)) 4 4 length.toNat s = some (.ok [], s) := by
    rw [readArrayInto, if_pos hlen, pure_apply]
  have harray : readWcharArrayInto (.plain n) (room / 4) length s = some (.ok [], s) := by
    rw [readWcharArrayInto_plain, if_neg hcheck]
    split_ifs
    · rw [readWcharArrayIInto, if_pos hzero, pure_apply]
    · rw [bind_of_ok hread, hlen]
      rfl
  rw [readWcharBytesInto, bind_of_ok harray]
  rfl

/-- Wide characters of two bytes, without room in memory. -/
theorem readWcharArrayIInto_two_eq_none (h : InBounds s) (hroom : room < length.toNat)
    (hend : s.valueEnd (2 * length.toNat) 2 ≤ s.wrPtr) :
    readWcharArrayIInto (.plain 2) room length s = none := by
  have hlt := length.isLt
  have hpos : length ≠ 0 := by
    rintro rfl
    exact absurd hroom (Nat.not_lt_zero room)
  have hadjust := adjust_eq h isAlign_two (show 2 * length.toNat ≤ 2 ^ 62 by omega)
  have hmod : 2 * length.toNat % 2 ^ 64 = 2 * length.toNat := Nat.mod_eq_of_lt (by omega)
  rw [if_pos hend] at hadjust
  have hload : load (alignUp s.rdPtr 2) (2 * length.toNat)
      (s.setRdPtr (s.valueEnd (2 * length.toNat) 2)) =
      some (.ok (s.bytesAt (alignUp s.rdPtr 2) (2 * length.toNat)), _) :=
    load_eq (h.ge.trans (le_alignUp isAlign_two.pos _)) hend
  rw [readWcharArrayIInto, if_neg hpos]
  simp only [Codeset.plain, hmod, if_pos]
  rw [bind_of_ok hadjust, get_bind_apply, bind_of_ok hload, store_returnGoodBit_eq, if_neg]
  rw [List.length_map, length_ofArrayImage]
  omega

/-- **Wide characters that are there** need four bytes each. -/
theorem readWcharBytesInto_eq_none (h : InBounds s) (hn : 1 ≤ n) (hn' : n ≤ 2 ^ 30)
    (hroom : room < 4 * length.toNat)
    (hend : s.valueEnd (n * length.toNat) (wcharAlign n) ≤ s.wrPtr) :
    readWcharBytesInto n room length s = none := by
  have hmul := mul_toNat_le hn' length
  have hle := h.le
  have hlen := length_eq h
  have hrd := le_alignUp (isAlign_wcharAlign n).pos s.rdPtr
  have hmod : n * length.toNat % 2 ^ 64 = n * length.toNat := Nat.mod_eq_of_lt (by omega)
  have hcount : length.toNat ≤ n * length.toNat := Nat.le_mul_of_pos_left _ hn
  have hleft : n * length.toNat ≤ s.length := by
    rw [valueEnd] at hend
    omega
  have harray : readWcharArrayInto (.plain n) (room / 4) length s = none := by
    rw [readWcharArrayInto_plain, Nat.mul_comm, hmod, if_neg (not_lt.mpr hleft)]
    rcases eq_or_ne n 4 with rfl | hfour
    · rw [if_neg (not_not.mpr rfl)]
      refine bind_of_none ?_
      exact readArrayInto_eq_none h isAlign_four (by norm_num) hmul (by omega) hend
    · rw [if_pos hfour]
      rcases eq_or_ne n 2 with rfl | htwo
      · exact readWcharArrayIInto_two_eq_none h (by omega) hend
      · exact readWcharArrayIInto_eq_none h htwo (hmod.trans_le hleft) (hcount.trans hleft) (by omega)
  rw [readWcharBytesInto, bind_of_none harray]

/-- **Wide characters that are not there** are not read. -/
theorem readWcharBytesInto_of_short (h : InBounds s) (hn' : n ≤ 2 ^ 30) (room : ℕ) (hpos : length ≠ 0)
    (hend : ¬s.valueEnd (n * length.toNat) (wcharAlign n) ≤ s.wrPtr) :
    ∃ e t, readWcharBytesInto n room length s = some (.error e, t) := by
  have hmul := mul_toNat_le hn' length
  have hmod : n * length.toNat % 2 ^ 64 = n * length.toNat := Nat.mod_eq_of_lt (by omega)
  have hadjust := adjust_eq h (isAlign_wcharAlign n) hmul
  rw [if_neg hend] at hadjust
  have harray : ∃ e t, readWcharArrayInto (.plain n) (room / 4) length s = some (.error e, t) := by
    rw [readWcharArrayInto_plain]
    split_ifs with hcheck hfour
    · exact ⟨_, _, rfl⟩
    · rw [wcharAlign, if_neg hfour] at hadjust
      rw [readWcharArrayIInto, if_neg hpos]
      simp only [Codeset.plain, hmod]
      exact ⟨_, _, bind_of_error hadjust⟩
    · obtain rfl := not_not.mp hfour
      have hne : length.toNat ≠ 0 := fun hzero => hpos (BitVec.eq_of_toNat_eq hzero)
      have hread : readArrayInto (4 * (room / 4)) 4 4 length.toNat s =
          some (.error .bounds, s.setGoodBit false) := by
        rw [readArrayInto, if_neg hne, hmod]
        exact bind_of_error hadjust
      exact ⟨_, _, bind_of_error hread⟩
  obtain ⟨e, t, heq⟩ := harray
  rw [readWcharBytesInto, bind_of_error heq]
  exact ⟨_, _, rfl⟩

end AceTao.Cdr.InputCDR

namespace AceTao.Marshal

open Program Cdr InputCDR OutputCDR AlignUp

variable {R σ : Type} {heap : ℕ → ℕ} {memory : ℕ → Bool} {append : Appender TraverseStatus}
  {skip : Skipper TraverseStatus} {n : ℕ} {content : TypeCode R} {bounds length : ULong}

/-! ### What is claimed -/

/-- So many elements **are traversed** one behind the other. -/
def TraversesEach (m : Program σ SystemException TraverseStatus) : ℕ → σ → Prop
  | 0, _ => True
  | k + 1, s => ∃ t, m s = some (.ok .traverseContinue, t) ∧ TraversesEach m k t

/-- The size and the alignment of an element in a stream with wide characters of `n` bytes. -/
def TypeCode.encodedElement (n : ℕ) : TypeCode R → Option (ℕ × ℕ)
  | .wchar => some (n, wcharAlign n)
  | tc => tc.elementSize

/-- **The encoding of the elements is there**, in what is left of the source: elements of a fixed size
behind their padding, and others as they are traversed. -/
def ElementsThere (src : σ → InputCDR) (m : Program σ SystemException TraverseStatus) (n : ℕ)
    (content : TypeCode R) (bounds : ULong) (s : σ) : Prop :=
  match content.encodedElement n with
  | some (size, align) => bounds = 0 ∨ (src s).valueEnd (size * bounds.toNat) align ≤ (src s).wrPtr
  | none => TraversesEach m bounds.toNat s

variable (heap memory append skip n content)

/-- **Sequences and arrays are appended and skipped as claimed**, with an array of `length` elements:
no product wraps around, every store is within what is reserved (then there is an answer), and a count
is accepted only when the elements are there. -/
structure CopiesRight (length : ULong) (s : Streams) : Prop where
  product : ∀ size align, content.elementSize = some (size, align) →
    ∀ bounds : ULong, size * bounds.toNat < 2 ^ 64
  arrayStored : ∃ p, MarshalArray.append heap memory append n content length s = some p
  arrayAppended : ∀ t,
    MarshalArray.append heap memory append n content length s = some (.ok .traverseContinue, t) →
      ElementsThere Streams.src append n content length s
  arraySkipped : ∀ t, MarshalArray.skip skip content length s.src = some (.ok .traverseContinue, t) →
    ElementsThere id skip n content length s.src
  sequenceStored : ∃ p, MarshalSequence.append heap memory append n content s = some p
  sequenceAppended : ∀ t,
    MarshalSequence.append heap memory append n content s = some (.ok .traverseContinue, t) →
      ∃ bounds src dest, readUlong s.src = some (.ok bounds, src) ∧
        writeUlongWithin heap memory bounds s.dest = some (.ok (), dest) ∧
        ElementsThere Streams.src append n content bounds ⟨src, dest⟩
  sequenceSkipped : ∀ t, MarshalSequence.skip skip content s.src = some (.ok .traverseContinue, t) →
    ∃ bounds src, readUlong s.src = some (.ok bounds, src) ∧
      ElementsThere id skip n content bounds src

/-! ### When it is so -/

/-- There is memory to reserve so many bytes. -/
def Reserves (size align : ℕ) (d : OutputCDR) : Prop :=
  ∃ buf t, adjustWithin heap memory size align d = some (.ok buf, t)

/-- **The elements may be appended**: those of a basic type are there, or there is memory for them;
and wide characters do not come with both. -/
def AppendSuited (bounds : ULong) (s : InputCDR) (d : OutputCDR) : Prop :=
  bounds = 0 ∨ ∀ size align, content.elementSize = some (size, align) →
    ∀ size' align', content.encodedElement n = some (size', align') →
      (Reserves heap memory (size * bounds.toNat) align d ∨
        s.valueEnd (size' * bounds.toNat) align' ≤ s.wrPtr) ∧
      (content = .wchar → ¬(Reserves heap memory (size * bounds.toNat) align d ∧
        s.valueEnd (size' * bounds.toNat) align' ≤ s.wrPtr))

/-- **The elements may be skipped**: wide characters are not there in part. -/
def SkipSuited (bounds : ULong) (s : InputCDR) : Prop :=
  bounds = 0 ∨ (content = .wchar → s.valueEnd (2 * bounds.toNat) 2 ≤ s.wrPtr →
    s.valueEnd (n * bounds.toNat) (wcharAlign n) ≤ s.wrPtr)

/-- **The streams are suited** to a sequence and to an array of `length` elements. -/
structure Suited (length : ULong) (s : Streams) : Prop where
  arrayAppend : AppendSuited heap memory n content length s.src s.dest
  arraySkip : SkipSuited n content length s.src
  sequenceAppend : ∀ bounds src dest, readUlong s.src = some (.ok bounds, src) →
    writeUlongWithin heap memory bounds s.dest = some (.ok (), dest) →
      AppendSuited heap memory n content bounds src dest
  sequenceSkip : ∀ bounds src, readUlong s.src = some (.ok bounds, src) →
    SkipSuited n content bounds src

/-! ### Elements one by one -/

variable {heap memory append skip n content} {s : Streams} {src : σ → InputCDR}

/-- A part that must continue does so where its traversal does. -/
theorem mustContinue_of_ok {m : Program σ SystemException TraverseStatus} {s t : σ}
    (h : mustContinue m s = some (.ok .traverseContinue, t)) :
    m s = some (.ok .traverseContinue, t) := by
  obtain ⟨r, u, hm, hr⟩ := bind_eq_ok.mp h
  rcases r with _ | _
  · cases hr
  · cases hr
    exact hm

theorem exists_mustContinue {m : Program σ SystemException TraverseStatus} {s : σ}
    (h : ∃ p, m s = some p) : ∃ p, mustContinue m s = some p := by
  obtain ⟨⟨_ | _ | _, t⟩, hm⟩ := h
  · exact ⟨_, bind_of_error hm⟩
  · exact ⟨_, bind_of_ok hm⟩
  · exact ⟨_, bind_of_ok hm⟩

/-- **The loop continues** behind the last element only. -/
theorem traversesEach_of_traverse {m : Program σ SystemException TraverseStatus} {k : ℕ} {s t : σ}
    (h : traverse (List.replicate k m) s = some (.ok .traverseContinue, t)) : TraversesEach m k s := by
  induction k generalizing s with
  | zero => exact trivial
  | succ k ih =>
    obtain ⟨r, u, hm, hr⟩ := bind_eq_ok.mp h
    rcases r with _ | _
    · cases hr
    · exact ⟨u, hm, ih hr⟩

theorem exists_traverse {m : Program σ SystemException TraverseStatus} (hm : ∀ s, m s ≠ none) (k : ℕ)
    (s : σ) : ∃ p, traverse (List.replicate k m) s = some p := by
  induction k generalizing s with
  | zero => exact ⟨_, rfl⟩
  | succ k ih =>
    obtain ⟨⟨_ | _ | _, t⟩, heq⟩ := Option.ne_none_iff_exists'.mp (hm s)
    · exact ⟨_, bind_of_error heq⟩
    · exact ⟨_, bind_of_ok heq⟩
    · obtain ⟨p, hp⟩ := ih t
      exact ⟨p, (bind_of_ok heq).trans hp⟩

/-! ### Elements all at once -/

theorem elementSize_spec {size align : ℕ} (h : content.elementSize = some (size, align)) :
    IsAlign align ∧ align ≤ size ∧ size ≤ 16 := by
  cases content <;> cases h
  all_goals simp [IsAlign]

/-- The elements that are copied all at once are those that are skipped all at once. -/
theorem bulk_of_elementSize {size align : ℕ} (h : content.elementSize = some (size, align)) (n : ℕ) :
    ∃ read, content.bulk n = some ⟨size, align, read⟩ := by
  cases content <;> cases h
  all_goals exact ⟨_, rfl⟩

theorem bulk_eq_none (h : content.elementSize = none) (n : ℕ) :
    content.bulk n = none ∧ content.encodedElement n = none := by
  cases content <;> cases h
  all_goals exact ⟨rfl, rfl⟩

theorem encodedElement_of_ne (h : content ≠ .wchar) (n : ℕ) :
    content.encodedElement n = content.elementSize := by
  cases content
  all_goals first
    | rfl
    | exact absurd rfl h

/-- **The array operation stores in what is reserved**, unless it is for wide characters. -/
theorem bulk_reads (hne : content ≠ .wchar) {b : Bulk} (hb : content.bulk n = some b) {s : InputCDR}
    (h : InBounds s) (bounds : ULong) : (∃ p, b.read (b.size * bounds.toNat) bounds s = some p) ∧
      ∀ x t, b.read (b.size * bounds.toNat) bounds s = some (.ok x, t) →
        bounds = 0 ∨ s.valueEnd (b.size * bounds.toNat) b.align ≤ s.wrPtr := by
  have hword {size align : ℕ} (ha : IsAlign align) (hsize : size ≤ 16) :=
    @readWordArrayInto_spec s size align _ bounds h ha hsize le_rfl
  cases content <;> cases hb
  case wchar => exact absurd rfl hne
  case boolean => exact readBooleanArrayInto_spec h (Nat.one_mul _).ge
  all_goals exact hword (by simp [IsAlign]) (by norm_num)

section Bulk

variable {b : Bulk} {buf : ℕ} {d : OutputCDR}

/-- **Nothing is read** when there is no memory. -/
theorem appendBulk_of_short {e : Failure}
    (h : adjustWithin heap memory (b.size * bounds.toNat % 2 ^ 64) b.align s.dest = some (.error e, d)) :
    appendBulk heap memory b bounds s = some (.ok .traverseContinue, ⟨s.src, d⟩) := by
  have hdest : destination
      (adjustWithin heap memory (b.size * bounds.toNat % 2 ^ 64) b.align).attempt s =
      some (.ok none, ⟨s.src, d⟩) := by
    rw [destination, attempt, h]
    rfl
  exact bind_of_ok hdest

/-- What is read has the room that is reserved. -/
theorem appendBulk_of_claimed {size : ℕ}
    (h : adjustWithin heap memory (b.size * bounds.toNat % 2 ^ 64) b.align s.dest = some (.ok buf, d))
    (hends : buf + size = d.current.wrPtr) :
    appendBulk heap memory b bounds s =
      match b.read size bounds s.src with
      | none => none
      | some (.error _, src) => some (.error .marshal, ⟨src, d⟩)
      | some (.ok bytes, src) => (destination (OutputCDR.store buf bytes) >>= fun _ =>
          pure TraverseStatus.traverseContinue) ⟨src, d⟩ := by
  have hdest : destination
      (adjustWithin heap memory (b.size * bounds.toNat % 2 ^ 64) b.align).attempt s =
      some (.ok (some buf), ⟨s.src, d⟩) := by
    rw [destination, attempt, h]
    rfl
  refine (bind_of_ok hdest).trans ?_
  have hroom : d.current.wrPtr - buf = size := by omega
  dsimp only
  rw [get_bind_apply, hroom, bind_apply, source]
  rcases b.read size bounds s.src with _ | ⟨_ | _, _⟩
  all_goals rfl

end Bulk

/-! ### Both together -/

/-- **What the elements of a sequence or an array need.** -/
def AppendsRight (heap : ℕ → ℕ) (memory : ℕ → Bool) (append : Appender TraverseStatus) (n : ℕ)
    (content : TypeCode R) (bounds : ULong) (s : Streams) : Prop :=
  (∃ p, appendElements heap memory append n content bounds s = some p) ∧
    ∀ t, appendElements heap memory append n content bounds s = some (.ok .traverseContinue, t) →
      ElementsThere Streams.src append n content bounds s

/-- Elements of a fixed size are there. -/
theorem elementsThere_iff {m : Program σ SystemException TraverseStatus} {size align : ℕ}
    (h : content.encodedElement n = some (size, align)) {s : σ} :
    ElementsThere src m n content bounds s ↔
      bounds = 0 ∨ (src s).valueEnd (size * bounds.toNat) align ≤ (src s).wrPtr := by
  rw [ElementsThere, h]

/-- No elements are there. -/
theorem elementsThere_zero {m : Program σ SystemException TraverseStatus} (hzero : bounds = 0) (s : σ) :
    ElementsThere src m n content bounds s := by
  rw [ElementsThere]
  rcases content.encodedElement n with _ | _
  · rw [hzero]
    exact trivial
  · exact Or.inl hzero

/-- Elements one by one are always appended as claimed. -/
theorem appendsRight_of_loop (happend : ∀ s, append s ≠ none) (h : content.elementSize = none) :
    AppendsRight heap memory append n content bounds s := by
  obtain ⟨hbulk, hencoded⟩ := bulk_eq_none h n
  rw [AppendsRight, appendElements, hbulk, ElementsThere, hencoded]
  exact ⟨exists_mustContinue (exists_traverse happend _ s),
    fun t ht => traversesEach_of_traverse (mustContinue_of_ok ht)⟩

section Bulk

variable {b : Bulk} {size align : ℕ}

/-- Bytes are reserved for the elements, or there is no memory. -/
theorem reserve_cases (heap : ℕ → ℕ) (memory : ℕ → Bool) (bounds : ULong) (hd : Ready s.dest)
    (ha : IsAlign b.align) (hsize : b.size ≤ 16) :
    (∃ buf d, buf + b.size * bounds.toNat = d.current.wrPtr ∧
      adjustWithin heap memory (b.size * bounds.toNat % 2 ^ 64) b.align s.dest = some (.ok buf, d)) ∧
      Reserves heap memory (b.size * bounds.toNat) b.align s.dest ∨
    (∃ d, adjustWithin heap memory (b.size * bounds.toNat % 2 ^ 64) b.align s.dest =
      some (.error .bounds, d)) ∧ ¬Reserves heap memory (b.size * bounds.toNat) b.align s.dest := by
  have hmul : b.size * bounds.toNat ≤ 16 * 2 ^ 32 := Nat.mul_le_mul hsize bounds.isLt.le
  rw [Nat.mod_eq_of_lt (show b.size * bounds.toNat < 2 ^ 64 by omega)]
  rcases adjustWithin_spec hd ha (b.size * bounds.toNat) with ⟨buf, d, heq, hclaimed⟩ | ⟨d, heq⟩
  · exact Or.inl ⟨⟨buf, d, hclaimed.ends, heq⟩, buf, d, heq⟩
  · refine Or.inr ⟨⟨d, heq⟩, ?_⟩
    rintro ⟨buf, t, hok⟩
    cases hok.symm.trans heq

/-- **Elements that are not wide characters** are appended as claimed when they are there or there is
memory for them. -/
theorem appendsRight_of_ne (h : InBounds s.src) (hd : Ready s.dest) (hne : content ≠ .wchar)
    (hb : content.bulk n = some b) (hsize : content.elementSize = some (b.size, b.align)) :
    AppendsRight heap memory append n content bounds s ↔ bounds = 0 ∨
      Reserves heap memory (b.size * bounds.toNat) b.align s.dest ∨
        s.src.valueEnd (b.size * bounds.toNat) b.align ≤ s.src.wrPtr := by
  obtain ⟨ha, -, hle⟩ := elementSize_spec hsize
  have hthere : ElementsThere Streams.src append n content bounds s ↔ _ :=
    elementsThere_iff ((encodedElement_of_ne hne n).trans hsize)
  rw [AppendsRight, appendElements, hb, hthere]
  dsimp only
  rcases reserve_cases heap memory bounds hd ha hle with
    ⟨⟨buf, d, hends, heq⟩, hres⟩ | ⟨⟨d, heq⟩, hres⟩
  · refine iff_of_true ?_ (Or.inr (Or.inl hres))
    rw [appendBulk_of_claimed heq hends]
    obtain ⟨⟨⟨r, src⟩, hread⟩, hfits⟩ := bulk_reads hne hb h bounds
    rw [hread]
    rcases r with e | x
    · exact ⟨⟨_, rfl⟩, nofun⟩
    · exact ⟨⟨_, rfl⟩, fun _ _ => hfits x src hread⟩
  · rw [appendBulk_of_short heq]
    refine ⟨fun hright => (hright.2 _ rfl).imp_right Or.inr, fun hsuited => ⟨⟨_, rfl⟩, fun _ _ => ?_⟩⟩
    exact hsuited.imp_right fun hor => hor.resolve_left hres

/-- **Wide characters** are appended as claimed when there is memory for them, or they are there, and
not both. -/
theorem appendsRight_wchar (h : InBounds s.src) (hd : Ready s.dest) (hn : 1 ≤ n) (hn' : n ≤ 2 ^ 30) :
    AppendsRight heap memory append n (.wchar : TypeCode R) bounds s ↔ bounds = 0 ∨
      (Reserves heap memory (2 * bounds.toNat) 2 s.dest ∨
        s.src.valueEnd (n * bounds.toNat) (wcharAlign n) ≤ s.src.wrPtr) ∧
      ¬(Reserves heap memory (2 * bounds.toNat) 2 s.dest ∧
        s.src.valueEnd (n * bounds.toNat) (wcharAlign n) ≤ s.src.wrPtr) := by
  have hencoded : (TypeCode.wchar : TypeCode R).encodedElement n = some (n, wcharAlign n) := rfl
  have hthere : ElementsThere Streams.src append n (TypeCode.wchar : TypeCode R) bounds s ↔ _ :=
    elementsThere_iff hencoded
  obtain ⟨b, hb, hsize, halign, hread⟩ : ∃ b : Bulk, (TypeCode.wchar : TypeCode R).bulk n = some b ∧
    b.size = 2 ∧ b.align = 2 ∧ b.read = readWcharBytesInto n := ⟨_, rfl, rfl, rfl, rfl⟩
  rw [AppendsRight, appendElements, hb, hthere]
  dsimp only
  have ha : IsAlign b.align := halign ▸ isAlign_two
  rcases reserve_cases heap memory bounds hd ha (by omega) with
    ⟨⟨buf, d, hends, heq⟩, hres⟩ | ⟨⟨d, heq⟩, hres⟩
  · rw [appendBulk_of_claimed heq hends, hread, hsize]
    rw [hsize, halign] at hres
    by_cases hzero : bounds = 0
    · rw [readWcharBytesInto_zero n _ _ hzero]
      exact iff_of_true ⟨⟨_, rfl⟩, fun _ _ => Or.inl hzero⟩ (Or.inl hzero)
    · have hpos : 0 < bounds.toNat := Nat.pos_of_ne_zero fun h0 => hzero (BitVec.eq_of_toNat_eq h0)
      by_cases hend : s.src.valueEnd (n * bounds.toNat) (wcharAlign n) ≤ s.src.wrPtr
      · rw [readWcharBytesInto_eq_none h hn hn' (by omega) hend]
        refine iff_of_false ?_ fun hor => (hor.resolve_left hzero).2 ⟨hres, hend⟩
        rintro ⟨⟨p, hp⟩, -⟩
        cases hp
      · obtain ⟨e, src, heq'⟩ := readWcharBytesInto_of_short h hn' (2 * bounds.toNat) hzero hend
        rw [heq']
        exact iff_of_true ⟨⟨_, rfl⟩, nofun⟩ (Or.inr ⟨Or.inl hres, fun hboth => hend hboth.2⟩)
  · rw [appendBulk_of_short heq]
    rw [hsize, halign] at hres
    constructor
    · exact fun hright => (hright.2 _ rfl).imp_right fun hend => ⟨Or.inr hend, fun hboth => hres hboth.1⟩
    · exact fun hsuited => ⟨⟨_, rfl⟩, fun _ _ => hsuited.imp_right fun hor => hor.1.resolve_left hres⟩

end Bulk

/-- **When elements are appended as claimed.** -/
theorem appendsRight_iff (h : InBounds s.src) (hd : Ready s.dest) (hn : 1 ≤ n) (hn' : n ≤ 2 ^ 30)
    (happend : ∀ s, append s ≠ none) :
    AppendsRight heap memory append n content bounds s ↔
      AppendSuited heap memory n content bounds s.src s.dest := by
  rcases hsize : content.elementSize with _ | ⟨size, align⟩
  · refine iff_of_true (appendsRight_of_loop happend hsize) (Or.inr fun size align heq => ?_)
    cases hsize.symm.trans heq
  · obtain ⟨read, hb⟩ := bulk_of_elementSize hsize n
    have hsuited {size' align' : ℕ} (hencoded : content.encodedElement n = some (size', align')) :
        AppendSuited heap memory n content bounds s.src s.dest ↔ bounds = 0 ∨
          (Reserves heap memory (size * bounds.toNat) align s.dest ∨
            s.src.valueEnd (size' * bounds.toNat) align' ≤ s.src.wrPtr) ∧
          (content = .wchar → ¬(Reserves heap memory (size * bounds.toNat) align s.dest ∧
            s.src.valueEnd (size' * bounds.toNat) align' ≤ s.src.wrPtr)) := by
      rw [AppendSuited]
      refine or_congr_right ⟨fun hall => hall size align hsize size' align' hencoded, ?_⟩
      rintro hall _ _ heq _ _ heq'
      cases hsize.symm.trans heq
      cases hencoded.symm.trans heq'
      exact hall
    by_cases hwide : content = .wchar
    · subst hwide
      cases hsize
      rw [hsuited rfl, appendsRight_wchar h hd hn hn']
      exact or_congr_right (and_congr_right fun _ => ⟨fun hnot _ => hnot, fun hall => hall rfl⟩)
    · rw [hsuited ((encodedElement_of_ne hwide n).trans hsize),
        appendsRight_of_ne h hd hwide hb hsize]
      exact or_congr_right ⟨fun hor => ⟨hor, fun heq => absurd heq hwide⟩, And.left⟩

/-! ### Skipping -/

/-- Bytes are skipped that are there. -/
theorem skipBytes_eq {s : InputCDR} (h : InBounds s) {len : ℕ} (hlen : len ≤ 2 ^ 62) :
    skipBytes len s = if s.rdPtr + len ≤ s.wrPtr then some (.ok (), s.setRdPtr (s.rdPtr + len))
      else some (.error .bounds, s.setGoodBit false) := by
  have hle := h.le
  have hwr := s.wrPtr_le
  rw [skipBytes, get_bind_apply, ite_run, Nat.mod_eq_of_lt (by omega)]
  rfl

theorem continueBehind_eq_ok {m : Reader Unit} {s t : InputCDR} :
    continueBehind m s = some (.ok .traverseContinue, t) ↔ m s = some (.ok (), t) := by
  rw [continueBehind, bind_apply, orMarshal, mapError]
  rcases m s with _ | ⟨_ | _, u⟩
  · exact iff_of_false (fun h => by cases h) (fun h => by cases h)
  · exact iff_of_false (fun h => by cases h) (fun h => by cases h)
  · constructor
    · rintro ⟨⟩
      rfl
    · rintro ⟨⟩
      rfl

/-- **Elements are skipped all at once** when so many bytes are there behind the padding. -/
theorem skipElements_eq_ok {s : InputCDR} (h : InBounds s) {size align : ℕ}
    (hsize : content.elementSize = some (size, align)) (hpos : bounds ≠ 0) :
    (∃ t, skipElements skip content bounds s = some (.ok .traverseContinue, t)) ↔
      s.valueEnd (size * bounds.toNat) align ≤ s.wrPtr := by
  obtain ⟨ha, halign, hle⟩ := elementSize_spec hsize
  have hmul : size * bounds.toNat ≤ 16 * 2 ^ 32 := Nat.mul_le_mul hle bounds.isLt.le
  have hone : 0 < bounds.toNat := Nat.pos_of_ne_zero fun h0 => hpos (BitVec.eq_of_toNat_eq h0)
  have hbytes : size ≤ size * bounds.toNat := Nat.le_mul_of_pos_right _ hone
  have hrd := le_alignUp ha.pos s.rdPtr
  have hlt := alignUp_lt ha.pos s.rdPtr
  have hadjust := adjust_eq h ha (Nat.zero_le _)
  rw [skipElements, hsize]
  dsimp only
  by_cases hpad : s.valueEnd 0 align ≤ s.wrPtr
  · rw [if_pos hpad] at hadjust
    have hin : InBounds (s.setRdPtr (s.valueEnd 0 align)) := h.setRdPtr hrd hpad
    have hattempt : ((InputCDR.adjust 0 align).attempt : Skipper _) s =
        some (.ok (some (alignUp s.rdPtr align)), s.setRdPtr (s.valueEnd 0 align)) :=
      attempt_of_ok hadjust
    rw [bind_of_ok hattempt]
    simp only [continueBehind_eq_ok, skipBytes_eq hin (show size * bounds.toNat ≤ 2 ^ 62 by omega),
      setRdPtr_rdPtr_of_le hpad, setRdPtr_wrPtr]
    rw [valueEnd, Nat.add_zero, valueEnd]
    split_ifs with hend
    · exact iff_of_true ⟨_, rfl⟩ hend
    · refine iff_of_false ?_ hend
      rintro ⟨t, ht⟩
      cases ht
  · rw [if_neg hpad] at hadjust
    rw [valueEnd, Nat.add_zero] at hpad
    have hattempt : ((InputCDR.adjust 0 align).attempt : Skipper _) s = some (.ok none, s.setGoodBit false) := by
      rw [attempt, hadjust]
      rfl
    have hshort : ¬(s.setGoodBit false).rdPtr + size * bounds.toNat ≤ (s.setGoodBit false).wrPtr := by
      rw [setGoodBit_rdPtr, setGoodBit_wrPtr]
      omega
    have hbytes := (skipBytes_eq (h.setGoodBit false) (show size * bounds.toNat ≤ 2 ^ 62 by omega)).trans
      (if_neg hshort)
    rw [bind_of_ok hattempt, valueEnd]
    simp only [continueBehind_eq_ok, hbytes]
    refine iff_of_false ?_ (by omega)
    rintro ⟨t, ht⟩
    cases ht

/-- **When elements are skipped as claimed.** -/
theorem skipsRight_iff {s : InputCDR} (h : InBounds s) :
    (∀ t, skipElements skip content bounds s = some (.ok .traverseContinue, t) →
      ElementsThere id skip n content bounds s) ↔ SkipSuited n content bounds s := by
  by_cases hzero : bounds = 0
  · exact iff_of_true (fun _ _ => elementsThere_zero hzero s) (Or.inl hzero)
  rcases hsize : content.elementSize with _ | ⟨size, align⟩
  · refine iff_of_true (fun t ht => ?_) (Or.inr fun hwide => ?_)
    · rw [skipElements, hsize] at ht
      rw [ElementsThere, (bulk_eq_none hsize n).2]
      exact traversesEach_of_traverse (mustContinue_of_ok ht)
    · subst hwide
      cases hsize
  · have hskip : (∃ t, skipElements skip content bounds s = some (.ok .traverseContinue, t)) ↔ _ :=
      skipElements_eq_ok h hsize hzero
    refine Iff.trans (forall_exists_index (q := fun _ =>
      ElementsThere id skip n content bounds s)).symm ?_
    rw [hskip, SkipSuited, or_iff_right hzero]
    by_cases hwide : content = .wchar
    · subst hwide
      cases hsize
      have hencoded : (TypeCode.wchar : TypeCode R).encodedElement n = some (n, wcharAlign n) := rfl
      rw [elementsThere_iff hencoded, or_iff_right hzero]
      exact ⟨fun hfits _ => hfits, fun hfits => hfits rfl⟩
    · rw [elementsThere_iff ((encodedElement_of_ne hwide n).trans hsize)]
      exact iff_of_true Or.inr fun heq => absurd heq hwide

/-! ### Both functions -/

/-- The flag of a stream that is ready is still set when a length has been written. -/
theorem ready_of_writeUlongWithin {x : ULong} {d d' : OutputCDR} (hd : Ready d)
    (h : writeUlongWithin heap memory x d = some (.ok (), d')) : Ready d' := by
  rcases writeUlongWithin_spec hd x with ⟨t, heq, ht⟩ | ⟨u, heq⟩
  · cases h.symm.trans heq
    exact ht.ready
  · cases h.symm.trans heq

theorem inBounds_of_readUlong {x : ULong} {s t : InputCDR} (h : InBounds s)
    (heq : readUlong s = some (.ok x, t)) : InBounds t := by
  have hread := readUlong_eq h
  split_ifs at hread with hend
  · cases heq.symm.trans hread
    exact h.setRdPtr (rdPtr_le_valueEnd isAlign_four) hend
  · cases heq.symm.trans hread

/-- **What a sequence needs** is what its elements need behind the number that is read. -/
theorem sequenceAppend_iff (h : InBounds s.src) (hd : Ready s.dest) (hn : 1 ≤ n) (hn' : n ≤ 2 ^ 30)
    (happend : ∀ s, append s ≠ none) :
    ((∃ p, MarshalSequence.append heap memory append n content s = some p) ∧
      ∀ t, MarshalSequence.append heap memory append n content s = some (.ok .traverseContinue, t) →
        ∃ bounds src dest, readUlong s.src = some (.ok bounds, src) ∧
          writeUlongWithin heap memory bounds s.dest = some (.ok (), dest) ∧
          ElementsThere Streams.src append n content bounds ⟨src, dest⟩) ↔
      ∀ bounds src dest, readUlong s.src = some (.ok bounds, src) →
        writeUlongWithin heap memory bounds s.dest = some (.ok (), dest) →
          AppendSuited heap memory n content bounds src dest := by
  obtain ⟨r, src, hread, -⟩ := safeAt_read4 h
  rcases r with e | bounds
  · -- there is no count
    have hsource : source readUlong s = some (.error .marshal, ⟨src, s.dest⟩) := by
      rw [source, readUlong, hread]
      rfl
    rw [MarshalSequence.append, bind_of_error hsource]
    refine iff_of_true ⟨⟨_, rfl⟩, fun _ h => by cases h⟩ fun bounds src' dest hok => ?_
    cases hread.symm.trans hok
  have hsource : source readUlong s = some (.ok bounds, ⟨src, s.dest⟩) := by
    rw [source, readUlong, hread]
    rfl
  have hin : InBounds src := inBounds_of_readUlong h hread
  rw [MarshalSequence.append, bind_of_ok hsource]
  rcases @writeUlongWithin_spec heap memory s.dest hd bounds with
    ⟨dest, hwrite, -⟩ | ⟨dest, hwrite⟩
  · have hdest : destination (writeUlongWithin heap memory bounds) ⟨src, s.dest⟩ =
        some (.ok (), ⟨src, dest⟩) := by
      rw [destination, hwrite]
      rfl
    have hready := ready_of_writeUlongWithin hd hwrite
    have hright := @appendsRight_iff R heap memory append n content bounds ⟨src, dest⟩ hin hready hn hn'
      happend
    have hall : (∀ bounds src dest, readUlong s.src = some (.ok bounds, src) →
        writeUlongWithin heap memory bounds s.dest = some (.ok (), dest) →
          AppendSuited heap memory n content bounds src dest) ↔
        AppendSuited heap memory n content bounds src dest := by
      refine ⟨fun hall => hall _ _ _ hread hwrite, ?_⟩
      rintro hsuited _ _ _ hread' hwrite'
      cases hread.symm.trans hread'
      cases hwrite.symm.trans hwrite'
      exact hsuited
    have hthere : (∃ bounds src dest, readUlong s.src = some (.ok bounds, src) ∧
        writeUlongWithin heap memory bounds s.dest = some (.ok (), dest) ∧
        ElementsThere Streams.src append n content bounds ⟨src, dest⟩) ↔
        ElementsThere Streams.src append n content bounds ⟨src, dest⟩ := by
      refine ⟨?_, fun hthere => ⟨_, _, _, hread, hwrite, hthere⟩⟩
      rintro ⟨_, _, _, hread', hwrite', hthere⟩
      cases hread.symm.trans hread'
      cases hwrite.symm.trans hwrite'
      exact hthere
    rw [hall, hthere, bind_of_ok hdest]
    by_cases hzero : bounds = 0
    · rw [if_pos hzero]
      exact iff_of_true ⟨⟨_, rfl⟩, fun _ _ => elementsThere_zero hzero _⟩ (Or.inl hzero)
    · rw [if_neg hzero]
      exact hright
  · have hdest : destination (writeUlongWithin heap memory bounds) ⟨src, s.dest⟩ =
        some (.error .marshal, ⟨src, dest⟩) := by
      rw [destination, hwrite]
      rfl
    rw [bind_of_error hdest]
    refine iff_of_true ⟨⟨_, rfl⟩, fun _ h => by cases h⟩ fun bounds' src' dest' hread' hok => ?_
    cases hread.symm.trans hread'
    cases hwrite.symm.trans hok

theorem sequenceSkip_iff {s : InputCDR} (h : InBounds s) :
    (∀ t, MarshalSequence.skip skip content s = some (.ok .traverseContinue, t) →
      ∃ bounds src, readUlong s = some (.ok bounds, src) ∧ ElementsThere id skip n content bounds src) ↔
    ∀ bounds src, readUlong s = some (.ok bounds, src) → SkipSuited n content bounds src := by
  obtain ⟨r, src, hread, -⟩ := safeAt_read4 h
  rcases r with e | bounds
  · have hmarshal : orMarshal readUlong s = some (.error .marshal, src) := by
      rw [orMarshal, mapError, readUlong, hread]
      rfl
    rw [MarshalSequence.skip, bind_of_error hmarshal]
    refine iff_of_true (fun _ h => by cases h) fun bounds src' hok => ?_
    cases hread.symm.trans hok
  · have hmarshal : orMarshal readUlong s = some (.ok bounds, src) := mapError_of_ok hread
    have hright := @skipsRight_iff R skip n content bounds src (inBounds_of_readUlong h hread)
    have hall : (∀ bounds src, readUlong s = some (.ok bounds, src) → SkipSuited n content bounds src) ↔
        SkipSuited n content bounds src := by
      refine ⟨fun hall => hall _ _ hread, fun hsuited _ _ hread' => ?_⟩
      cases hread.symm.trans hread'
      exact hsuited
    have hthere : (∃ bounds src, readUlong s = some (.ok bounds, src) ∧
        ElementsThere id skip n content bounds src) ↔ ElementsThere id skip n content bounds src := by
      refine ⟨?_, fun hthere => ⟨_, _, hread, hthere⟩⟩
      rintro ⟨_, _, hread', hthere⟩
      cases hread.symm.trans hread'
      exact hthere
    rw [hall, hthere, MarshalSequence.skip, bind_of_ok hmarshal]
    by_cases hzero : bounds = 0
    · rw [if_pos hzero]
      exact iff_of_true (fun _ _ => elementsThere_zero hzero _) (Or.inl hzero)
    · rw [if_neg hzero]
      exact hright

/-- **When sequences and arrays are appended and skipped as claimed.** -/
theorem copiesRight_iff (h : InBounds s.src) (hd : Ready s.dest) (hn : 1 ≤ n) (hn' : n ≤ 2 ^ 30)
    (happend : ∀ s, append s ≠ none) :
    CopiesRight heap memory append skip n content length s ↔
      Suited heap memory n content length s := by
  have harray := @appendsRight_iff R heap memory append n content length s h hd hn hn' happend
  have hsequence := @sequenceAppend_iff R heap memory append n content s h hd hn hn' happend
  have harraySkip := @skipsRight_iff R skip n content length s.src h
  have hsequenceSkip := @sequenceSkip_iff R skip n content s.src h
  constructor
  · intro hright
    exact ⟨harray.mp ⟨hright.arrayStored, hright.arrayAppended⟩, harraySkip.mp hright.arraySkipped,
      hsequence.mp ⟨hright.sequenceStored, hright.sequenceAppended⟩,
      hsequenceSkip.mp hright.sequenceSkipped⟩
  · intro hsuited
    obtain ⟨harrayStored, harrayAppended⟩ := harray.mpr hsuited.arrayAppend
    obtain ⟨hsequenceStored, hsequenceAppended⟩ := hsequence.mpr hsuited.sequenceAppend
    refine ⟨fun size align hsize bounds => ?_, harrayStored, harrayAppended,
      harraySkip.mpr hsuited.arraySkip, hsequenceStored, hsequenceAppended,
      hsequenceSkip.mpr hsuited.sequenceSkip⟩
    have hmul : size * bounds.toNat ≤ 16 * 2 ^ 32 :=
      Nat.mul_le_mul (elementSize_spec hsize).2.2 bounds.isLt.le
    omega

section Example

/-- Four octets, and an empty stream behind them. -/
def fourOctets : Streams where
  src := ⟨8, [1, 2, 3, 4], 8, false, true, 1, 1, by decide⟩
  dest := OutputCDR.init 8 512 256 false 1 1

/-- An element whose traversal does nothing. -/
def passed {σ : Type} : Program σ SystemException TraverseStatus := pure .traverseContinue

/-- An array of four octets. -/
theorem copiesRight_iff_octets :
    CopiesRight (fun _ => 8) (fun _ => true) passed passed 4 (.octet : TypeCode Unit) 4 fourOctets ↔
      Suited (fun _ => 8) (fun _ => true) 4 (.octet : TypeCode Unit) 4 fourOctets :=
  copiesRight_iff ⟨by decide, by decide⟩ (init_ready _ _ _ _ _ _) (by decide) (by decide)
    fun _ => Option.some_ne_none _

/-- **A wide character of four bytes is stored in the two that are reserved.** -/
theorem not_copiesRight_wchar :
    ¬∀ (heap : ℕ → ℕ) (memory : ℕ → Bool) (n : ℕ) (content : TypeCode Unit) (length : ULong)
      (s : Streams), InBounds s.src → Ready s.dest → 1 ≤ n → n ≤ 2 ^ 30 →
        CopiesRight heap memory passed passed n content length s := by
  intro hall
  have hin : InBounds fourOctets.src := ⟨by decide, by decide⟩
  have hready : Ready fourOctets.dest := init_ready _ _ _ _ _ _
  have hright := hall (fun _ => 8) (fun _ => true) 4 .wchar 1 fourOctets hin hready (by decide)
    (by decide)
  have hsuited := (appendsRight_wchar hin hready (by decide) (by decide)).mp
    ⟨hright.arrayStored, hright.arrayAppended⟩
  obtain ⟨buf, t, hadjust, -⟩ := adjust_spec (fun _ => 8) (2 * (1 : ULong).toNat) hready isAlign_two
  have hreserves : Reserves (fun _ => 8) (fun _ => true) (2 * (1 : ULong).toNat) 2 fourOctets.dest :=
    ⟨buf, t, (congrFun (adjustWithin_of_memory (fun _ => rfl) _ _) _).trans hadjust⟩
  exact (hsuited.resolve_left (by decide)).2 ⟨hreserves, by decide⟩

end Example

end AceTao.Marshal
