import AceTao.Cdr.Decoders
import AceTao.Cdr.SkipSpec

/-!
# Skipping and reading

A value that was written is skipped and is read (`SkipKind`, `InputCDR.skipKind`,
`InputCDR.readKindOf`), and the two should end at the same place (`InputCDR.SkipsAsRead`). They do at
every value of a stream (`InputCDR.Positioned`), whatever was written in front of it and behind it,
with three exceptions (`Inserted.SkipsWell`):

* a string whose length in the stream is all ones, which announces an indirection to the skip;
* wide characters of one byte in GIOP 1.1, and strings of them, which are skipped as if they had
  four bytes each;
* wide strings of GIOP 1.2 whose length in bytes does not fit in a `ULong`, or just fits.
-/

namespace AceTao.Cdr

open Program ByteImage AlignUp

/-- **What is inserted in a stream**: something without wide characters, or a wide character, or a
wide string. -/
inductive Inserted
  | op (o : WriteOp)
  | wchar (x : WChar)
  | wstring (form : WstringForm) (cs : List WChar)

/-- The kinds of values that are skipped. -/
inductive SkipKind
  | scalar (x : Scalar)
  | boolean
  | char
  | wchar
  | string
  | wstring

/-- The kind of what was inserted, when it is one value. -/
def Inserted.kind : Inserted → Option SkipKind
  | .op (.datum (.scalar x _)) => some (.scalar x)
  | .op (.datum (.boolean _)) => some .boolean
  | .op (.datum (.char _)) => some .char
  | .op (.datum (.string _)) => some .string
  | .op _ => none
  | .wchar _ => some .wchar
  | .wstring _ _ => some .wstring

/-! ### Writing -/

namespace OutputCDR

variable {heap : ℕ → ℕ} {s : OutputCDR} {n : ℕ}

def insert (heap : ℕ → ℕ) (n : ℕ) : Inserted → Writer Unit
  | .op o => o.perform heap
  | .wchar x => writeWchar heap n x
  | .wstring form cs => writeWstringAs heap n form cs

/-- **The machine** that writes a stream. -/
def insertStep (n : ℕ) (heap : ℕ → ℕ) (s : OutputCDR) (x : Inserted) :
    Option (OutputCDR × Except Failure Unit) :=
  (insert heap n x s).map Prod.swap

theorem prefix_putWcharIn (swap : Bool) (n : ℕ) (giop12 : Bool) (x : WChar) (w : Wire) :
    w <+: putWcharIn swap n giop12 x w := by
  rw [putWcharIn]
  split_ifs
  · exact (InputCDR.prefix_put ..).trans (InputCDR.prefix_put ..)
  · exact InputCDR.prefix_put ..

theorem prefix_putWstringIn (swap : Bool) (n : ℕ) (giop12 : Bool) (len : ULong) (cs : List WChar)
    (w : Wire) : w <+: putWstringIn swap n giop12 len cs w := by
  rw [putWstringIn]
  split_ifs
  · exact (InputCDR.prefix_put ..).trans (InputCDR.prefix_putArray ..)
  · exact (InputCDR.prefix_put ..).trans (InputCDR.prefix_putArray ..)

/-- **What is inserted** stands behind what was in the stream. -/
theorem insert_spec (h : Ready s) (hn : IsWidth n) (hminor : s.minorVersion ≠ 0) (x : Inserted) :
    ∃ t, insert heap n x s = some (.ok (), t) ∧ Ready t ∧ SameConfig s t ∧ s.wire <+: t.wire := by
  have hwrites {w : Wire} {m : Writer Unit} (hm : Writes m s w) (hw : s.wire <+: w) :
      ∃ t, m s = some (.ok (), t) ∧ Ready t ∧ SameConfig s t ∧ s.wire <+: t.wire := by
    obtain ⟨t, heq, ht⟩ := hm
    exact ⟨t, heq, ht.ready, ht.config, ht.wire ▸ hw⟩
  cases x with
  | op o =>
    cases o with
    | datum d => exact hwrites (writes_writeDatum heap h d) (d.prefix_put ..)
    | octetArrayMb mb =>
      obtain ⟨t, cs, heq, ht, hconfig, -, hwire⟩ := writeOctetArrayMb_spec heap mb h
      exact ⟨t, heq, ht, hconfig, hwire ▸ List.prefix_append _ _⟩
  | wchar x => exact hwrites (writes_writeWchar h hn hminor x) (prefix_putWcharIn ..)
  | wstring form cs =>
    exact hwrites (writes_wstring h hn hminor form cs) (prefix_putWstringIn ..)

theorem insertStep_eq_some {t : OutputCDR} {x : Inserted} {r : Except Failure Unit} :
    insertStep n heap s x = some (t, r) ↔ insert heap n x s = some (r, t) := by
  rw [insertStep, Option.map_eq_some_iff]
  constructor
  · rintro ⟨⟨r', t'⟩, heq, hswap⟩
    cases hswap
    exact heq
  · exact fun heq => ⟨(r, t), heq, rfl⟩

/-- **A run** succeeds, and appends to the stream. -/
theorem insertRun_spec (hn : IsWidth n) (xs : List Inserted) (h : Ready s)
    (hminor : s.minorVersion ≠ 0) :
    ∃ t answers, Machine.run (insertStep n heap) s xs = some (t, answers) ∧
      Ready t ∧ SameConfig s t ∧ s.wire <+: t.wire := by
  induction xs generalizing s with
  | nil => exact ⟨s, [], rfl, h, SameConfig.refl s, List.prefix_rfl⟩
  | cons x xs ih =>
    obtain ⟨t, heq, ht, hconfig, hwire⟩ := @insert_spec heap s n h hn hminor x
    obtain ⟨u, answers, hrun, hu, hconfig', hwire'⟩ := ih ht (hconfig.minorVersion ▸ hminor)
    exact ⟨u, _, Machine.run_cons_eq_some.mpr ⟨t, _, answers, insertStep_eq_some.mpr heq, hrun, rfl⟩,
      hu, hconfig.trans hconfig', hwire.trans hwire'⟩

end OutputCDR

/-! ### Skipping and reading -/

namespace InputCDR

variable {swap : Bool} {s t : InputCDR} {w : Wire} {n : ℕ}

def skipKind (c : Codeset) : SkipKind → Reader Unit
  | .scalar x => skipScalar x
  | .boolean => skipBoolean
  | .char => skipChar
  | .wchar => skipWchar c
  | .string => skipString
  | .wstring => skipWstring c

/-- The operation that reads a value. A wide string is read into the array that is allocated for
it. -/
def readKindOf (c : Codeset) (stale : WChar) : SkipKind → Reader Unit
  | .scalar x => dropValue (readScalar x)
  | .boolean => dropValue readBoolean
  | .char => dropValue (readChar c)
  | .wchar => dropValue (readWchar c stale)
  | .string => dropValue (readString c)
  | .wstring => dropValue (readWstringInto c)

/-- **Skipping is reading**: both succeed or both fail, and they end at the same place, whatever the
destination of a wide character held before. -/
def SkipsAsRead (n : ℕ) (k : SkipKind) (s : InputCDR) : Prop :=
  ∀ stale, SameAnswer (fun _ _ => True) (skipKind (.plain n) k) (readKindOf (.plain n) stale k) s

/-- **The stream is at a value** that was written: it was made from an output stream, however that is
fragmented, in which `x` was inserted at this place. -/
def Positioned (swap : Bool) (n : ℕ) (giop12 : Bool) (x : Inserted) (s : InputCDR) : Prop :=
  ∃ (f : Fragmentation) (before behind : List Inserted) (t u : OutputCDR)
    (answers answers' : List (Except Failure Unit)) (base : ℕ) (fill : ℕ → UInt8) (s₀ : InputCDR),
    Machine.run (OutputCDR.insertStep n f.heap) (f.start swap 1 (giopMinor giop12)) before =
      some (t, answers) ∧
    Machine.run (OutputCDR.insertStep n f.heap) t (x :: behind) = some (u, answers') ∧
    base + u.totalLength + maxAlignment ≤ addressLimit ∧ ofOutputCDR base fill u = some s₀ ∧
    s = s₀.setRdPtr (s₀.base + t.totalLength)

/-- The bytes that were read are those that were written before, and those of the value follow. -/
theorem Positioned.exists_at {giop12 : Bool} {x : Inserted} (h : Positioned swap n giop12 x s)
    (hn : IsWidth n) :
    ∃ (heap : ℕ → ℕ) (t : OutputCDR), OutputCDR.Ready t ∧ t.doByteSwap = swap ∧
      t.giop12 = giop12 ∧ t.minorVersion ≠ 0 ∧ At swap s t.wire ∧ s.giop12 = giop12 ∧
      ∀ w', OutputCDR.Writes (OutputCDR.insert heap n x) t w' → Agrees s w' := by
  obtain ⟨f, before, behind, t, u, answers, answers', base, fill, s₀, hrun, hrun', hfits, heq,
    rfl⟩ := h
  have hminor : (f.start swap 1 (giopMinor giop12)).minorVersion ≠ 0 := by
    rcases giop12 with _ | _
    · exact (by decide : (1 : UInt8) ≠ 0)
    · exact (by decide : (2 : UInt8) ≠ 0)
  have hversion : (f.start swap 1 (giopMinor giop12)).giop12 = giop12 := by
    rcases giop12 with _ | _ <;> rfl
  obtain ⟨t', _, hbefore, ht, hconfig, -⟩ := @OutputCDR.insertRun_spec f.heap _ n hn before
    (OutputCDR.init_ready f.base f.size f.memcpyTradeoff swap 1 (giopMinor giop12)) hminor
  cases hbefore.symm.trans hrun
  have hminor' : t.minorVersion ≠ 0 := hconfig.minorVersion ▸ hminor
  have hgiop : t.giop12 = giop12 := by
    rw [← hversion, OutputCDR.giop12, OutputCDR.giop12, hconfig.majorVersion, hconfig.minorVersion]
    rfl
  obtain ⟨v, answer, rest, hstep, hrest, -⟩ := Machine.run_cons_eq_some.mp hrun'
  obtain ⟨v', hinsert, hv, hconfig', hgrows⟩ := @OutputCDR.insert_spec f.heap t n ht hn hminor' x
  cases (OutputCDR.insertStep_eq_some.mpr hinsert).symm.trans hstep
  obtain ⟨u', _, hbehind, -, hconfig'', hgrows'⟩ := @OutputCDR.insertRun_spec f.heap v n hn behind
    hv (hconfig'.minorVersion ▸ hminor')
  cases hbehind.symm.trans hrest
  have hall := hconfig.trans (hconfig'.trans hconfig'')
  obtain ⟨s₁, heq₁, hat, hagrees, hsame, hwr⟩ := ofOutputCDR_spec fill hfits
  cases heq₁.symm.trans heq
  have htotal : t.totalLength = t.wire.length := by
    rw [OutputCDR.totalLength, OutputCDR.wire, List.length_flatMap]
  have hle : s₀.base + t.totalLength ≤ s₀.wrPtr := by
    rw [htotal, hwr]
    exact Nat.add_le_add_left (hgrows.trans hgrows').length_le _
  refine ⟨f.heap, t, ht, hconfig.doByteSwap, hgiop, hminor', ⟨?_, hat.base, hat.good, ?_,
    hagrees.mono (hgrows.trans hgrows')⟩, ?_, ?_⟩
  · exact hat.doByteSwap.trans hall.doByteSwap
  · rw [setRdPtr_rdPtr_of_le hle, htotal]
    rfl
  · refine Eq.trans hsame ?_
    rw [← hgiop, OutputCDR.giop12, OutputCDR.giop12, (hconfig'.trans hconfig'').majorVersion,
      (hconfig'.trans hconfig'').minorVersion]
  · rintro w' ⟨v', hwrites, hw'⟩
    cases hwrites.symm.trans hinsert
    rw [← hw'.wire]
    exact hagrees.mono hgrows'

/-! ### Where operations end -/

/-- The operation succeeds, and ends at this place. -/
def MovesTo {α : Type} (m : Reader α) (s : InputCDR) (p : ℕ) : Prop :=
  ∃ x t, m s = some (.ok x, t) ∧ t.rdPtr = p

section MovesTo

variable {α : Type} {m m' : Reader α} {l l' : Reader Unit} {p p' : ℕ}

theorem movesTo_of_reads {x : α} {w' : Wire} (h : Reads swap m x s w') :
    MovesTo m s (s.base + w'.length) := by
  obtain ⟨t, heq, hsame, ht⟩ := h
  exact ⟨x, t, heq, by rw [ht.rdPtr, hsame.base]⟩

theorem MovesTo.dropValue (h : MovesTo m s p) : MovesTo (dropValue m) s p := by
  obtain ⟨x, t, heq, hp⟩ := h
  exact ⟨(), t, bind_of_ok heq, hp⟩

theorem sameAnswer_iff_of_movesTo (h : MovesTo l s p) (h' : MovesTo l' s p') :
    SameAnswer (fun _ _ => True) l l' s ↔ p = p' := by
  obtain ⟨x, t, heq, rfl⟩ := h
  obtain ⟨x', t', heq', rfl⟩ := h'
  rw [sameAnswer_of_eq heq heq']
  exact and_iff_left trivial

theorem not_sameAnswer_of_movesTo (h : ∀ x t, l s = some (.ok x, t) → t.rdPtr ≠ p')
    (h' : MovesTo l' s p') : ¬SameAnswer (fun _ _ => True) l l' s := by
  obtain ⟨x', t', heq', rfl⟩ := h'
  rintro ⟨r, t, q, u, hl, hl', hplace, hcor⟩
  cases hl'.symm.trans heq'
  rcases r with e | x
  · exact hcor
  · exact h x t hl hplace

end MovesTo

/-! ### Strings -/

/-- The length that was written is the length that comes next. -/
theorem At.nextLength_eq (h : At swap s w) {x : ULong}
    (hput : Agrees s (put 4 (wireImage 4 swap x) w)) :
    s.valueEnd 4 4 ≤ s.wrPtr ∧ s.nextLength = x ∧
      s.valueEnd 4 4 = s.base + (put 4 (wireImage 4 swap x) w).length := by
  have hsize : (wireImage 4 swap x).length = 4 := length_wireImage 4 swap x
  have hend := h.valueEnd_le isAlign_four hsize hput
  obtain ⟨t, heq, -⟩ := reads_readUlong h hput
  refine ⟨hend, ?_, h.valueEnd_eq isAlign_four hsize⟩
  cases (readUlong_of_fits h.inBounds hend).symm.trans heq
  rfl

/-- The elements of an array are behind an aligned position. -/
theorem length_putArray {size align : ℕ} (ha : 0 < align) (halign : align ∣ w.length)
    (xs : List (BitVec (8 * size))) :
    (putArray size swap align xs w).length = w.length + size * xs.length := by
  rw [putArray]
  split_ifs with hnil
  · rw [hnil, List.length_nil, Nat.mul_zero, Nat.add_zero]
  · rw [length_put ha, alignUp_of_dvd ha halign, length_flatMap_wireImage]

/-- Reading a string ends behind its characters. -/
theorem movesTo_readString (h : InBounds s) (hgood : s.goodBit = true)
    (hend : s.valueEnd 4 4 + s.nextLength.toNat ≤ s.wrPtr) (n : ℕ) :
    MovesTo (readString (.plain n)) s (s.valueEnd 4 4 + s.nextLength.toNat) := by
  have hfits : s.valueEnd 4 4 ≤ s.wrPtr := (Nat.le_add_right _ _).trans hend
  by_cases hzero : s.nextLength = 0
  · refine ⟨_, _, readString_of_zero h hfits hzero n, ?_⟩
    rw [afterLength_rdPtr hfits, hzero]
    rfl
  · have hle : s.nextLength.toNat ≤ s.afterLength.length := by
      rw [afterLength_length h hfits]
      omega
    obtain ⟨t, heq, hrd⟩ := readString_of_fits h hfits hzero hle n
    rw [flagged, if_pos hgood] at heq
    exact ⟨_, t, heq, hrd⟩

/-- Moving over bytes that are there. -/
theorem skipTo_eq {len : ℕ} (hend : s.rdPtr + len ≤ s.wrPtr) :
    (Program.get >>= fun s => if (s.rdPtr + len) % 2 ^ 64 ≤ s.wrPtr
      then Program.modify fun s => s.setRdPtr (s.rdPtr + len)
      else fail .bounds : Reader Unit) s = some (.ok (), s.setRdPtr (s.rdPtr + len)) := by
  have hlt := s.wrPtr_le
  rw [get_bind_apply, Nat.mod_eq_of_lt (by omega), if_pos hend]
  rfl

/-- Skipping a string ends there too, if its length does not announce an indirection. -/
theorem movesTo_skipString (h : InBounds s) (hend : s.valueEnd 4 4 + s.nextLength.toNat ≤ s.wrPtr)
    (hones : s.nextLength ≠ BitVec.allOnes 32) :
    MovesTo skipString s (s.valueEnd 4 4 + s.nextLength.toNat) := by
  have hfits : s.valueEnd 4 4 ≤ s.wrPtr := (Nat.le_add_right _ _).trans hend
  have hplace := afterLength_rdPtr hfits
  have hend' : s.afterLength.rdPtr + s.nextLength.toNat ≤ s.afterLength.wrPtr := by
    rw [hplace]
    exact hend
  refine ⟨(), _, (bind_of_ok (readUlong_of_fits h hfits)).trans
    ((congrFun (if_neg hones) s.afterLength).trans (skipTo_eq hend')), ?_⟩
  rw [setRdPtr_rdPtr_of_le hend', hplace]

/-- An indirection has eight bytes at most. -/
theorem le_of_skipString_ones (h : InBounds s) (hfits : s.valueEnd 4 4 ≤ s.wrPtr)
    (hones : s.nextLength = BitVec.allOnes 32) {x : Unit}
    (heq : skipString s = some (.ok x, t)) : t.rdPtr ≤ s.valueEnd 4 4 + 8 := by
  have hskip : skipString s = (orFail readLong >>= fun _ => pure ()) s.afterLength :=
    (bind_of_ok (readUlong_of_fits h hfits)).trans (congrFun (if_pos hones) s.afterLength)
  rw [hskip] at heq
  have hread : readLong s.afterLength = _ :=
    readWord_eq (h.afterLength hfits) isAlign_four (show 4 ≤ 2 ^ 62 by norm_num)
  by_cases hend : s.afterLength.valueEnd 4 4 ≤ s.afterLength.wrPtr
  · rw [if_pos hend] at hread
    cases (bind_of_ok (orFail_eq hread)).symm.trans heq
    rw [setRdPtr_rdPtr_of_le hend, valueEnd, afterLength_rdPtr hfits]
    have := alignUp_lt four_pos (s.valueEnd 4 4)
    omega
  · rw [if_neg hend] at hread
    cases (bind_of_error (orFail_of_error hread)).symm.trans heq

/-- A length is not above the number that it was made from. -/
theorem toNat_succ_le (k : ℕ) : (BitVec.ofNat 32 k + 1).toNat ≤ k + 1 := by
  rw [BitVec.toNat_add, BitVec.toNat_ofNat]
  exact (Nat.mod_le _ _).trans (Nat.add_le_add_right (Nat.mod_le _ _) 1)

/-- **A length and its elements** are in the stream. -/
theorem At.elements_there {size align : ℕ} (h : At swap s w) (ha : 0 < align) (hdvd : align ∣ 4)
    {xs : List (BitVec (8 * size))} {len : ULong}
    (hput : Agrees s (putArray size swap align xs (put 4 (wireImage 4 swap len) w))) :
    s.nextLength = len ∧ s.valueEnd 4 4 + size * xs.length ≤ s.wrPtr := by
  obtain ⟨-, hnext, hend⟩ := h.nextLength_eq (hput.mono (prefix_putArray ..))
  have halign : 4 ∣ (put 4 (wireImage 4 swap len) w).length :=
    dvd_length_put four_pos (by rw [length_wireImage])
  have hle := hput.le
  rw [length_putArray ha (hdvd.trans halign)] at hle
  refine ⟨hnext, ?_⟩
  rw [hend, wrPtr, Nat.add_assoc]
  exact Nat.add_le_add_left hle _

/-- What a string leaves in the stream. -/
theorem At.string_there (h : At swap s w) {cs : List Octet} (hput : Agrees s (putString swap cs w)) :
    s.nextLength = BitVec.ofNat 32 cs.length + 1 ∧
      s.valueEnd 4 4 + s.nextLength.toNat ≤ s.wrPtr := by
  have hlength : ∀ (xs : List Octet) (len : ULong), xs.length = len.toNat →
      Agrees s (putArray 1 swap 1 xs (put 4 (wireImage 4 swap len) w)) →
      s.nextLength = len ∧ s.valueEnd 4 4 + s.nextLength.toNat ≤ s.wrPtr := by
    intro xs len hlen hput
    obtain ⟨hnext, hend⟩ := h.elements_there one_pos (one_dvd 4) hput
    rw [Nat.one_mul, hlen, ← hnext] at hend
    exact ⟨hnext, hend⟩
  rw [putString] at hput
  by_cases hzero : BitVec.ofNat 32 cs.length = 0
  · rw [if_pos hzero] at hput
    rw [hzero]
    refine hlength [0] 1 rfl ?_
    rwa [putArray_one_singleton]
  · rw [if_neg hzero] at hput
    refine hlength _ _ ?_ hput
    rw [List.length_take, List.length_append, List.length_singleton]
    exact Nat.min_eq_left (toNat_succ_le cs.length)

/-- The length that announces an indirection. -/
theorem eq_allOnes_iff (k : ℕ) :
    BitVec.ofNat 32 k + 1 = BitVec.allOnes 32 ↔ k % 2 ^ 32 = 2 ^ 32 - 2 := by
  have hlt := Nat.mod_lt k (show 0 < 2 ^ 32 by norm_num)
  have hone : (1 : ULong).toNat = 1 := rfl
  rw [← BitVec.toNat_inj, BitVec.toNat_add, BitVec.toNat_ofNat, BitVec.toNat_allOnes, hone]
  omega

theorem skipsAsRead_string_iff (h : At swap s w) {cs : List Octet}
    (hput : Agrees s (putString swap cs w)) :
    SkipsAsRead n .string s ↔ cs.length % 2 ^ 32 ≠ 2 ^ 32 - 2 := by
  obtain ⟨hlen, hend⟩ := h.string_there hput
  have hread := (movesTo_readString h.inBounds h.good hend n).dropValue
  rw [Ne, ← eq_allOnes_iff, ← hlen]
  by_cases hones : s.nextLength = BitVec.allOnes 32
  · refine iff_of_false (fun hskips => ?_) (not_not.mpr hones)
    refine not_sameAnswer_of_movesTo (fun x t heq hplace => ?_) hread (hskips 0)
    have hle := le_of_skipString_ones h.inBounds ((Nat.le_add_right _ _).trans hend) hones heq
    rw [hones, BitVec.toNat_allOnes] at hplace
    omega
  · have hskip := movesTo_skipString h.inBounds hend hones
    exact iff_of_true (fun _ => (sameAnswer_iff_of_movesTo hskip hread).mpr rfl) hones

/-! ### Wide characters -/

/-- Any bytes are those of a word. -/
theorem exists_wireImage (swap : Bool) {bytes : List UInt8} (h : bytes.length = n) :
    ∃ x : BitVec (8 * n), wireImage n swap x = bytes := by
  cases swap with
  | false => exact ⟨ofImage n bytes, image_ofImage h⟩
  | true =>
    refine ⟨ofImage n bytes.reverse, ?_⟩
    have himage := @image_ofImage n bytes.reverse (by rwa [List.length_reverse])
    rw [wireImage, if_pos rfl, himage, List.reverse_reverse]

/-- A word of `n` bytes is that of a character. -/
theorem narrow_setWidth (hn : IsWidth n) (b : BitVec (8 * n)) : narrow n (b.setWidth 32) = b := by
  have hlt := b.isLt
  have hle : 2 ^ (8 * n) ≤ 2 ^ 32 := Nat.pow_le_pow_right (by norm_num) (by have := hn.le; omega)
  refine BitVec.eq_of_toNat_eq ?_
  rw [narrow, BitVec.toNat_setWidth, BitVec.toNat_setWidth, Nat.mod_eq_of_lt (hlt.trans_le hle),
    Nat.mod_eq_of_lt hlt]

/-- What is written of a character is written of one that fits, in the byte order of the stream. -/
theorem exists_putWchar (swap : Bool) (hn : IsWidth n) (giop12 : Bool) (x : WChar) (w : Wire) :
    ∃ y : WChar, y.toNat < 256 ^ n ∧ putWcharIn swap n giop12 x w = putWchar swap n giop12 y w := by
  have hfits (b : BitVec (8 * n)) : (b.setWidth 32).toNat < 256 ^ n := by
    rw [BitVec.toNat_setWidth]
    refine (Nat.mod_le _ _).trans_lt (b.isLt.trans_eq ?_)
    rw [Nat.pow_mul]
  cases giop12 with
  | false => exact ⟨_, hfits (narrow n x), by
      rw [putWcharIn, putWchar, narrow_setWidth hn, if_neg Bool.false_ne_true]; rfl⟩
  | true =>
    obtain ⟨b, hb⟩ := exists_wireImage swap (length_image (narrow n x))
    refine ⟨_, hfits b, ?_⟩
    rw [putWcharIn, putWchar, if_pos rfl, if_pos rfl, putSized, narrow_setWidth hn, hb]

/-- Reading a wide character ends behind its bytes. -/
theorem movesTo_readWchar (h : At swap s w) (hn : IsWidth n) {y : WChar} (hy : y.toNat < 256 ^ n)
    (stale : WChar) (hput : Agrees s (putWchar swap n s.giop12 y w)) :
    MovesTo (readWchar (.plain n) stale) s (s.base + (putWchar swap n s.giop12 y w).length) := by
  by_cases hsigned : s.giop12 = true ∧ n = 2
  · obtain ⟨hgiop, rfl⟩ := hsigned
    rw [hgiop] at hput ⊢
    exact movesTo_of_reads (reads_readWchar12_two h hgiop stale hput)
  · refine movesTo_of_reads (reads_readWchar h hn stale hy (fun hgiop htwo => ?_) hput)
    exact absurd ⟨hgiop, htwo⟩ hsigned

/-- **A wide character is skipped as it is read**, unless it has one byte in GIOP 1.1. -/
theorem skipsAsRead_wchar_iff (h : At swap s w) (hn : IsWidth n) {x : WChar}
    (hput : Agrees s (putWcharIn swap n s.giop12 x w)) :
    SkipsAsRead n .wchar s ↔ s.giop12 = true ∨ n ≠ 1 := by
  obtain ⟨y, hy, hsame⟩ := exists_putWchar swap hn s.giop12 x w
  rw [hsame] at hput
  have hread (stale : WChar) := (movesTo_readWchar h hn hy stale hput).dropValue
  by_cases hwide : s.giop12 = true ∨ n ≠ 1
  · have hskip := movesTo_of_reads (reads_skipWchar h hn
      (fun hgiop => hwide.resolve_left (by rw [hgiop]; exact Bool.false_ne_true)) hput)
    exact iff_of_true (fun stale => (sameAnswer_iff_of_movesTo hskip (hread stale)).mpr rfl) hwide
  · rw [not_or, Bool.not_eq_true, not_not] at hwide
    obtain ⟨hgiop, rfl⟩ := hwide
    refine iff_of_false (fun hskips => ?_) (by rw [hgiop]; simp)
    refine not_sameAnswer_of_movesTo (fun x t heq hplace => ?_) (hread 0) (hskips 0)
    rw [hgiop, putWchar, if_neg Bool.false_ne_true, length_put one_pos, alignUp_one,
      length_wireImage, ← Nat.add_assoc, ← h.rdPtr] at hplace
    have hskip := skipWchar_eq h.inBounds hgiop 1
    have hwidth : skippedWidth 1 = 4 := rfl
    have hup := le_alignUp four_pos s.rdPtr
    rw [hwidth] at hskip
    by_cases hend : s.valueEnd 4 4 ≤ s.wrPtr
    · rw [if_pos hend] at hskip
      cases hskip.symm.trans heq
      rw [setRdPtr_rdPtr_of_le hend, valueEnd] at hplace
      omega
    · rw [if_neg hend] at hskip
      cases hskip.symm.trans heq

/-! ### Wide strings -/

/-- What a wide string leaves in the stream: in GIOP 1.2 its length is that of its bytes, as far as
a `ULong` goes. -/
theorem At.wstring_there (h : At swap s w) (hn : IsWidth n) {giop12 : Bool} {cs : List WChar}
    (hput : Agrees s (putWstringIn swap n giop12 (BitVec.ofNat 32 cs.length) cs w)) :
    if giop12 then s.nextLength.toNat = min (n * (cs.length % 2 ^ 32)) (2 ^ 32 - 1) ∧
        s.valueEnd 4 4 + n * (cs.length % 2 ^ 32) ≤ s.wrPtr
      else s.nextLength = BitVec.ofNat 32 cs.length + 1 ∧
        s.valueEnd 4 4 + n * s.nextLength.toNat ≤ s.wrPtr := by
  have hdvd : n ∣ 4 := by rcases hn with rfl | rfl | rfl <;> decide
  rw [putWstringIn] at hput
  cases giop12 with
  | true =>
    rw [if_pos rfl] at hput ⊢
    obtain ⟨hnext, hend⟩ := h.elements_there hn.isAlign.pos hdvd hput
    have hmod := Nat.mod_le cs.length (2 ^ 32)
    rw [List.length_map, List.length_take, List.length_append, List.length_singleton,
      BitVec.toNat_ofNat, Nat.min_eq_left (by omega)] at hend
    refine ⟨?_, hend⟩
    rw [hnext, truncateCast, BitVec.toNat_ofNat, BitVec.toNat_ofNat]
    exact Nat.mod_eq_of_lt (by omega)
  | false =>
    rw [if_neg Bool.false_ne_true] at hput ⊢
    obtain ⟨hnext, hend⟩ := h.elements_there hn.isAlign.pos hdvd hput
    rw [List.length_map, List.length_take, List.length_append, List.length_singleton,
      Nat.min_eq_left (toNat_succ_le cs.length), ← hnext] at hend
    exact ⟨hnext, hend⟩

section Wstring

variable (h : InBounds s) (hgood : s.goodBit = true) (hn : IsWidth n)

include h

/-- An empty wide string. -/
theorem movesTo_empty (hfits : s.valueEnd 4 4 ≤ s.wrPtr) (hzero : s.nextLength = 0)
    (hn : IsWidth n) : MovesTo (readWstringInto (.plain n)) s (s.valueEnd 4 4) ∧
      MovesTo (skipWstring (.plain n)) s (s.valueEnd 4 4) := by
  have hread := readWstringInto_eq hn.isAlign.pos.ne' (readUlong_of_fits h hfits)
  have hplace := afterLength_rdPtr hfits
  rw [hzero, if_neg (fun hpos => absurd hpos.1 (by decide)), if_pos rfl] at hread
  refine ⟨⟨_, _, hread, hplace⟩, ⟨(), s.afterLength, ?_, hplace⟩⟩
  refine (bind_of_ok (readUlong_of_fits h hfits)).trans ?_
  rw [hzero]
  rfl

include hgood hn

/-- Reading a wide string in GIOP 1.1 ends behind its characters. -/
theorem movesTo_readWstring11 (hgiop : s.giop12 = false)
    (hend : s.valueEnd 4 4 + n * s.nextLength.toNat ≤ s.wrPtr) :
    MovesTo (readWstringInto (.plain n)) s (s.valueEnd 4 4 + n * s.nextLength.toNat) := by
  have hfits : s.valueEnd 4 4 ≤ s.wrPtr := (Nat.le_add_right _ _).trans hend
  by_cases hzero : s.nextLength = 0
  · have hmove := (movesTo_empty h hfits hzero hn).1
    rw [hzero]
    exact hmove
  · have hlength := afterLength_length h hfits
    have hle := Nat.le_mul_of_pos_left s.nextLength.toNat hn.isAlign.pos
    have hpos : 0 < s.nextLength.toNat :=
      Nat.pos_of_ne_zero fun h0 => hzero (BitVec.eq_of_toNat_eq h0)
    have hcount : s.nextLength.toNat ≤ s.afterLength.length := by omega
    have hread := readWstringInto_eq hn.isAlign.pos.ne' (readUlong_of_fits h hfits)
    have hversion : s.afterLength.giop12 = false := hgiop
    rw [if_pos ⟨hpos, hcount⟩, hversion, if_neg Bool.false_ne_true,
      orFail_readWcharArrayInto (h.afterLength hfits) hcount le_rfl,
      orFail_readWcharArray_ok (h.afterLength hfits) (four_dvd_afterLength hfits)
        (hn.le.trans_lt (by norm_num)) hcount (by omega) (Or.inr hgood),
      afterLength_rdPtr hfits] at hread
    exact ⟨_, _, hread, @setRdPtr_rdPtr_of_le s.afterLength _ hend⟩

/-- In GIOP 1.2 it ends behind the last character that is complete. -/
theorem movesTo_readWstring12 (hgiop : s.giop12 = true)
    (hend : s.valueEnd 4 4 + s.nextLength.toNat ≤ s.wrPtr)
    (hmax : s.nextLength.toNat / n ≠ 2 ^ 32 - 1) :
    MovesTo (readWstringInto (.plain n)) s
      (s.valueEnd 4 4 + n * (s.nextLength.toNat / n)) := by
  have hfits : s.valueEnd 4 4 ≤ s.wrPtr := (Nat.le_add_right _ _).trans hend
  by_cases hzero : s.nextLength = 0
  · have hmove := (movesTo_empty h hfits hzero hn).1
    have hnone : n * ((0 : ULong).toNat / n) = 0 := by
      have hnat : (0 : ULong).toNat = 0 := rfl
      rw [hnat, Nat.zero_div, Nat.mul_zero]
    rw [hzero, hnone]
    exact hmove
  · have hlength := afterLength_length h hfits
    have hle := Nat.mul_div_le s.nextLength.toNat n
    have hpos : 0 < s.nextLength.toNat :=
      Nat.pos_of_ne_zero fun h0 => hzero (BitVec.eq_of_toNat_eq h0)
    have hcast : (truncateCast n).toNat = n := by
      have hn4 := hn.le
      rw [truncateCast, Nat.min_eq_left (by omega), BitVec.toNat_ofNat,
        Nat.mod_eq_of_lt (by omega)]
    have hquot : (s.nextLength / truncateCast n).toNat = s.nextLength.toNat / n := by
      rw [BitVec.toNat_udiv, hcast]
    have hroom := toNat_add_one (hquot ▸ hmax)
    have hcount : (s.nextLength / truncateCast n).toNat ≤ s.afterLength.length := by
      rw [hquot]
      exact (Nat.div_le_self _ _).trans (by omega)
    have hread := readWstringInto_eq hn.isAlign.pos.ne' (readUlong_of_fits h hfits)
    have hversion : s.afterLength.giop12 = true := hgiop
    have harray := orFail_readWcharArray_ok (h.afterLength hfits) (four_dvd_afterLength hfits)
      (hn.le.trans_lt (by norm_num)) hcount (by rw [hquot]; omega) (Or.inr hgood)
    rw [if_pos ⟨hpos, by omega⟩, hversion, if_pos rfl] at hread
    have hle' : (s.nextLength / truncateCast n).toNat ≤
        (s.nextLength / truncateCast n + 1).toNat := by
      rw [hroom]
      exact Nat.le_succ _
    have hinto := (orFail_readWcharArrayInto (h.afterLength hfits) hcount hle').trans harray
    obtain ⟨r, t, heq, hx⟩ :=
      exists_orFail_readWcharArrayInto (h.afterLength hfits) n hcount hle'
    cases heq.symm.trans hinto
    refine ⟨_, _, (hread.trans (bind_of_ok hinto)).trans ((store_eq _ _ _).trans (if_pos ?_)), ?_⟩
    · rw [hroom, List.length_append, hx _ rfl, List.length_singleton]
    · rw [afterLength_rdPtr hfits, hquot]
      exact @setRdPtr_rdPtr_of_le s.afterLength _ (show _ ≤ s.wrPtr by omega)

omit hgood hn in
/-- In GIOP 1.2 the bytes are skipped, whatever they are. -/
theorem movesTo_skipWstring12 (hgiop : s.giop12 = true)
    (hend : s.valueEnd 4 4 + s.nextLength.toNat ≤ s.wrPtr) (hpos : s.nextLength ≠ 0) :
    MovesTo (skipWstring (.plain n)) s (s.valueEnd 4 4 + s.nextLength.toNat) := by
  have hfits : s.valueEnd 4 4 ≤ s.wrPtr := (Nat.le_add_right _ _).trans hend
  have hplace := afterLength_rdPtr hfits
  have hend' : s.afterLength.rdPtr + s.nextLength.toNat ≤ s.afterLength.wrPtr := by
    rw [hplace]
    exact hend
  have hskip : skipWstring (.plain n) s = skipBytes s.nextLength.toNat s.afterLength :=
    (bind_of_ok (readUlong_of_fits h hfits)).trans
      ((congrFun (if_pos hpos) s.afterLength).trans (congrFun (if_pos hgiop) s.afterLength))
  refine ⟨(), _, hskip.trans (skipTo_eq hend'), ?_⟩
  rw [setRdPtr_rdPtr_of_le hend', hplace]

omit hgood hn in
/-- In GIOP 1.1 the characters are skipped one by one. -/
theorem skipWstring11_eq (hgiop : s.giop12 = false) (hfits : s.valueEnd 4 4 ≤ s.wrPtr)
    (hpos : s.nextLength ≠ 0) :
    skipWstring (.plain n) s = skipWchars (.plain n) s.nextLength.toNat s.afterLength := by
  have hnot : ¬s.afterLength.giop12 = true := Bool.not_eq_true _ ▸ hgiop
  exact (bind_of_ok (readUlong_of_fits h hfits)).trans
    ((congrFun (if_pos hpos) s.afterLength).trans (congrFun (if_neg hnot) s.afterLength))

omit hgood in
/-- Characters of two or four bytes that follow each other. -/
theorem movesTo_skipWchars (hne : n ≠ 1) (hgiop : s.giop12 = false) (k : ℕ) (hdvd : n ∣ s.rdPtr)
    (hend : s.rdPtr + n * k ≤ s.wrPtr) :
    MovesTo (skipWchars (.plain n) k) s (s.rdPtr + n * k) := by
  induction k generalizing s with
  | zero => exact ⟨(), s, rfl, rfl⟩
  | succ k ih =>
    have hwidth : skippedWidth n = n := by
      rcases hn with rfl | rfl | rfl
      · exact absurd rfl hne
      · rfl
      · rfl
    have hmul : n * (k + 1) = n + n * k := by rw [Nat.mul_succ, Nat.add_comm]
    have hvalue : s.valueEnd n n = s.rdPtr + n := by
      rw [valueEnd, alignUp_of_dvd hn.isAlign.pos hdvd]
    have hle : s.rdPtr + n ≤ s.wrPtr := by omega
    have hskip := skipWchar_eq h hgiop n
    rw [hwidth, hvalue, if_pos hle] at hskip
    have hplace : (s.setRdPtr (s.rdPtr + n)).rdPtr = s.rdPtr + n := setRdPtr_rdPtr_of_le hle
    obtain ⟨x, t, heq, ht⟩ := @ih (s.setRdPtr (s.rdPtr + n))
      (h.setRdPtr (Nat.le_add_right _ _) hle) hgiop (by rw [hplace]; exact Nat.dvd_add hdvd dvd_rfl)
      (by rw [hplace, Nat.add_assoc, ← hmul]; exact hend)
    refine ⟨x, t, (bind_of_ok hskip).trans heq, ?_⟩
    rw [ht, hplace, hmul, Nat.add_assoc]

omit hgood hn in
/-- Characters of one byte are skipped as if they had four. -/
theorem le_of_skipWchars (hgiop : s.giop12 = false) (k : ℕ) {x : Unit}
    (heq : skipWchars (.plain 1) k s = some (.ok x, t)) : s.rdPtr + 4 * k ≤ t.rdPtr := by
  induction k generalizing s with
  | zero =>
    cases heq
    exact le_rfl
  | succ k ih =>
    have hskip := skipWchar_eq h hgiop 1
    have hwidth : skippedWidth 1 = 4 := rfl
    have hup := le_alignUp four_pos s.rdPtr
    rw [hwidth] at hskip
    by_cases hend : s.valueEnd 4 4 ≤ s.wrPtr
    · rw [if_pos hend] at hskip
      have hle := @ih (s.setRdPtr (s.valueEnd 4 4))
        (h.setRdPtr (rdPtr_le_valueEnd isAlign_four) hend) hgiop
        ((bind_of_ok hskip).symm.trans heq)
      rw [setRdPtr_rdPtr_of_le hend, valueEnd] at hle
      omega
    · rw [if_neg hend] at hskip
      cases (bind_of_error hskip).symm.trans heq

end Wstring

/-- In GIOP 1.2 a wide string is skipped as it is read, unless its bytes are too many. -/
theorem skipsAsRead_wstring12_iff (h : InBounds s) (hgood : s.goodBit = true) (hn : IsWidth n)
    (hgiop : s.giop12 = true) {k : ℕ} (hlen : s.nextLength.toNat = min (n * k) (2 ^ 32 - 1))
    (hend : s.valueEnd 4 4 + n * k ≤ s.wrPtr) :
    SkipsAsRead n .wstring s ↔ n * k < 2 ^ 32 - 1 := by
  have hfits : s.valueEnd 4 4 ≤ s.wrPtr := (Nat.le_add_right _ _).trans hend
  have hbytes : s.valueEnd 4 4 + s.nextLength.toNat ≤ s.wrPtr := by omega
  by_cases hzero : s.nextLength = 0
  · have hmoves := movesTo_empty h hfits hzero hn
    have hnat : s.nextLength.toNat = 0 := by rw [hzero]; rfl
    exact iff_of_true (fun _ => (sameAnswer_iff_of_movesTo hmoves.2 hmoves.1.dropValue).mpr rfl)
      (by omega)
  have hskip := @movesTo_skipWstring12 s n h hgiop hbytes hzero
  by_cases hshort : n * k < 2 ^ 32 - 1
  · refine iff_of_true (fun _ => ?_) hshort
    have hle := Nat.le_mul_of_pos_left k hn.isAlign.pos
    have hquot : s.nextLength.toNat / n = k := by
      rw [hlen, Nat.min_eq_left hshort.le, Nat.mul_div_cancel_left _ hn.isAlign.pos]
    have hread := (movesTo_readWstring12 h hgood hn hgiop hbytes (by omega)).dropValue
    refine (sameAnswer_iff_of_movesTo hskip hread).mpr ?_
    rw [hquot, hlen, Nat.min_eq_left hshort.le]
  · have hmax : s.nextLength.toNat = 2 ^ 32 - 1 := by omega
    refine iff_of_false (fun hskips => ?_) hshort
    by_cases hone : n = 1
    · subst hone
      -- the array has no room at all
      have hcount : (s.nextLength / truncateCast 1).toNat = 2 ^ 32 - 1 := by
        have hcast : (truncateCast 1).toNat = 1 := rfl
        rw [BitVec.toNat_udiv, hcast, Nat.div_one, hmax]
      have hlength := afterLength_length h hfits
      have hversion : s.afterLength.giop12 = true := hgiop
      have hread := readWstringInto_eq one_ne_zero (readUlong_of_fits h hfits)
      rw [if_pos (by omega), hversion, if_pos rfl] at hread
      have hle : (s.nextLength / truncateCast 1).toNat ≤ s.afterLength.length := by omega
      have hnone := hread.trans (readTerminated_eq_none (h.afterLength hfits) hcount hle)
      obtain ⟨r, t, r', t', -, hm', -⟩ := hskips 0
      cases (bind_of_none hnone).symm.trans hm'
    · have hquot : s.nextLength.toNat / n ≤ s.nextLength.toNat / 2 :=
        Nat.div_le_div_left (by rcases hn with rfl | rfl | rfl <;> omega) (by norm_num)
      have hread := (movesTo_readWstring12 h hgood hn hgiop hbytes (by omega)).dropValue
      have hplace := (sameAnswer_iff_of_movesTo hskip hread).mp (hskips 0)
      rw [hmax] at hplace
      rcases hn with rfl | rfl | rfl <;> omega

/-- In GIOP 1.1 it is, unless its characters have one byte, or it is empty. -/
theorem skipsAsRead_wstring11_iff (h : InBounds s) (hgood : s.goodBit = true) (hn : IsWidth n)
    (hgiop : s.giop12 = false) (hend : s.valueEnd 4 4 + n * s.nextLength.toNat ≤ s.wrPtr) :
    SkipsAsRead n .wstring s ↔ n ≠ 1 ∨ s.nextLength = 0 := by
  have hfits : s.valueEnd 4 4 ≤ s.wrPtr := (Nat.le_add_right _ _).trans hend
  have hplace := afterLength_rdPtr hfits
  by_cases hzero : s.nextLength = 0
  · have hmoves := movesTo_empty h hfits hzero hn
    exact iff_of_true (fun _ => (sameAnswer_iff_of_movesTo hmoves.2 hmoves.1.dropValue).mpr rfl)
      (Or.inr hzero)
  have hread := (movesTo_readWstring11 h hgood hn hgiop hend).dropValue
  have heq := @skipWstring11_eq s n h hgiop hfits hzero
  by_cases hne : n = 1
  · subst hne
    refine iff_of_false (fun hskips => ?_) (by simpa using hzero)
    refine not_sameAnswer_of_movesTo (fun x t hskip hp => ?_) hread (hskips 0)
    have hle := le_of_skipWchars (h.afterLength hfits) hgiop _ (heq.symm.trans hskip)
    have hpos : s.nextLength.toNat ≠ 0 := fun h0 => hzero (BitVec.eq_of_toNat_eq h0)
    rw [hplace, hp] at hle
    omega
  · have hdvd : n ∣ s.afterLength.rdPtr := by
      refine Nat.dvd_trans ?_ (four_dvd_afterLength hfits)
      rcases hn with rfl | rfl | rfl <;> decide
    obtain ⟨x, t, hskip, ht⟩ := movesTo_skipWchars (h.afterLength hfits) hn hne hgiop
      s.nextLength.toNat hdvd (by rw [hplace]; exact hend)
    rw [hplace] at ht
    have hmove : MovesTo (skipWstring (.plain n)) s (s.valueEnd 4 4 + n * s.nextLength.toNat) :=
      ⟨x, t, heq.trans hskip, ht⟩
    exact iff_of_true (fun _ => (sameAnswer_iff_of_movesTo hmove hread).mpr rfl) (Or.inl hne)

/-! ### Primitives -/

/-- A value is skipped by reading it. -/
theorem skipScalar_eq (x : Scalar) : skipScalar x = dropValue (readScalar x) := by
  cases x <;> rfl

theorem skipsAsRead_scalar (h : At swap s w) (x : Scalar) {v : x.Value}
    (hput : Agrees s (put x.align (wireImage x.size swap v) w)) :
    SkipsAsRead n (.scalar x) s := by
  have hread := (movesTo_of_reads (reads_readScalar h x hput)).dropValue
  have hskip := hread
  rw [← skipScalar_eq] at hskip
  exact fun _ => (sameAnswer_iff_of_movesTo hskip hread).mpr rfl

theorem movesTo_skipOctet (h : At swap s w) {b : Octet} (hput : Agrees s (put 1 (image 1 b) w)) :
    MovesTo skipOctet s (s.base + (put 1 (image 1 b) w).length) :=
  (movesTo_of_reads (reads_read1 h hput)).dropValue

theorem skipsAsRead_boolean (h : At swap s w) {b : Bool}
    (hput : Agrees s (put 1 (image 1 (booleanOctet b)) w)) : SkipsAsRead n .boolean s := by
  have hread := (movesTo_of_reads (reads_readBoolean h hput)).dropValue
  obtain ⟨t, heq, hsame, ht⟩ := reads_discard (reads_read1 h hput)
  have hreturn : returnGoodBit () t = some (.ok (), t) := by
    rw [returnGoodBit_flagged, flagged, if_pos ht.good]
  have hskip : MovesTo skipBoolean s (s.base + (put 1 (image 1 (booleanOctet b)) w).length) :=
    ⟨(), t, (bind_of_ok heq).trans hreturn, by rw [ht.rdPtr, hsame.base]⟩
  exact fun _ => (sameAnswer_iff_of_movesTo hskip hread).mpr rfl

theorem skipsAsRead_char (h : At swap s w) {c : Octet} (hput : Agrees s (put 1 (image 1 c) w)) :
    SkipsAsRead n .char s := by
  have hskip := movesTo_skipOctet h hput
  have hread : MovesTo (readChar (.plain n)) s (s.base + (put 1 (image 1 c) w).length) :=
    movesTo_of_reads (reads_read1 h hput)
  exact fun _ => (sameAnswer_iff_of_movesTo hskip hread.dropValue).mpr rfl

/-! ### All values -/

end InputCDR

/-- **A value that is skipped as it is read.** The length of a string is the number of its
characters as far as a `ULong` goes. -/
def Inserted.SkipsWell (n : ℕ) (giop12 : Bool) : Inserted → Prop
  | .op (.datum (.string cs)) => cs.length % 2 ^ 32 ≠ 2 ^ 32 - 2
  | .op _ => True
  | .wchar _ => giop12 = true ∨ n ≠ 1
  | .wstring _ cs =>
    if giop12 then n * (cs.length % 2 ^ 32) < 2 ^ 32 - 1
    else n ≠ 1 ∨ cs.length % 2 ^ 32 = 2 ^ 32 - 1

namespace InputCDR

variable {swap giop12 : Bool} {s : InputCDR} {n : ℕ}

theorem succ_eq_zero_iff (k : ℕ) : BitVec.ofNat 32 k + 1 = 0 ↔ k % 2 ^ 32 = 2 ^ 32 - 1 := by
  have hlt := Nat.mod_lt k (show 0 < 2 ^ 32 by norm_num)
  have hone : (1 : ULong).toNat = 1 := rfl
  have hzero : (0 : ULong).toNat = 0 := rfl
  rw [← BitVec.toNat_inj, BitVec.toNat_add, BitVec.toNat_ofNat, hone, hzero]
  omega

/-- **Skipping is reading** exactly of these values, in every stream that was written. -/
theorem skipsAsRead_iff {x : Inserted} {k : SkipKind} (h : Positioned swap n giop12 x s)
    (hn : IsWidth n) (hk : x.kind = some k) : SkipsAsRead n k s ↔ x.SkipsWell n giop12 := by
  obtain ⟨heap, t, ht, rfl, rfl, hminor, hat, hgiop, hputs⟩ := h.exists_at hn
  cases x with
  | wchar x =>
    cases hk
    have hput := hputs _ (OutputCDR.writes_writeWchar ht hn hminor x)
    rw [← hgiop] at hput ⊢
    exact skipsAsRead_wchar_iff hat hn hput
  | wstring form cs =>
    cases hk
    have hput := hputs _ (OutputCDR.writes_wstring ht hn hminor form cs)
    have hthere := hat.wstring_there hn hput
    rw [Inserted.SkipsWell]
    rcases hversion : t.giop12 with _ | _
    · rw [hversion, if_neg Bool.false_ne_true] at hthere
      rw [if_neg Bool.false_ne_true, ← succ_eq_zero_iff, ← hthere.1]
      exact skipsAsRead_wstring11_iff hat.inBounds hat.good hn (hgiop.trans hversion) hthere.2
    · rw [hversion, if_pos rfl] at hthere
      rw [if_pos rfl]
      exact skipsAsRead_wstring12_iff hat.inBounds hat.good hn (hgiop.trans hversion) hthere.1
        hthere.2
  | op o =>
    cases o with
    | octetArrayMb mb => cases hk
    | datum d =>
      have hput := hputs _ (OutputCDR.writes_writeDatum heap ht d)
      cases d with
      | scalar x v =>
        cases hk
        exact iff_of_true (skipsAsRead_scalar hat x hput) trivial
      | boolean b =>
        cases hk
        exact iff_of_true (skipsAsRead_boolean hat hput) trivial
      | char c =>
        cases hk
        exact iff_of_true (skipsAsRead_char hat hput) trivial
      | string cs =>
        cases hk
        exact skipsAsRead_string_iff hat hput
      | array | booleanArray | charArray => cases hk

/-- A value for which there is room in the address space is at the front of some stream. -/
theorem exists_positioned (f : Fragmentation) {x : Inserted} {w : Wire}
    (hw : OutputCDR.Writes (OutputCDR.insert f.heap n x) (f.start swap 1 (giopMinor giop12)) w)
    (hroom : w.length + maxAlignment ≤ addressLimit) : ∃ s, Positioned swap n giop12 x s := by
  obtain ⟨u, heq, hu⟩ := hw
  have htotal : u.totalLength = w.length := by
    rw [OutputCDR.totalLength, ← hu.wire, OutputCDR.wire, List.length_flatMap]
  have hfits : 0 + u.totalLength + maxAlignment ≤ addressLimit := by rwa [htotal, Nat.zero_add]
  obtain ⟨s₀, hmade, -⟩ := ofOutputCDR_spec (fun _ => 0) hfits
  refine ⟨_, f, [], [], f.start swap 1 (giopMinor giop12), u, [], [.ok ()], 0, fun _ => 0, s₀, rfl,
    ?_, hfits, hmade, rfl⟩
  exact Machine.run_cons_eq_some.mpr
    ⟨u, _, [], OutputCDR.insertStep_eq_some.mpr heq, rfl, rfl⟩

section Example

/-- A wide character is at the front of a stream. -/
theorem exists_positioned_wchar (hn : IsWidth n) (x : WChar) :
    ∃ s, Positioned false n false (.wchar x) s := by
  have hwrites := @OutputCDR.writes_writeWchar (fun _ => 0) _ n
    (OutputCDR.init_ready 0 512 256 false 1 1) hn (by decide) x
  have hlen := hn.le
  refine exists_positioned ⟨0, 512, 256, fun _ => 0⟩ hwrites ?_
  have hput : (putWcharIn false n false x []).length = n := by
    rw [putWcharIn, if_neg Bool.false_ne_true, length_put hn.isAlign.pos, length_wireImage]
    exact (congrArg (· + n) (alignUp_of_dvd hn.isAlign.pos (dvd_zero n))).trans (Nat.zero_add n)
  refine (Nat.add_le_add_right (hput.trans_le hlen) _).trans ?_
  rw [maxAlignment, addressLimit]
  norm_num

theorem skipsAsRead_iff_two : ∃ s, Positioned false 2 false (.wchar 65) s ∧
    (SkipsAsRead 2 .wchar s ↔ (Inserted.wchar 65).SkipsWell 2 false) := by
  obtain ⟨s, hs⟩ := @exists_positioned_wchar 2 (Or.inr (Or.inl rfl)) 65
  exact ⟨s, hs, skipsAsRead_iff hs (Or.inr (Or.inl rfl)) rfl⟩

/-- **A wide character of one byte** in GIOP 1.1 is skipped as four bytes. -/
theorem not_skipsAsRead_one :
    ¬∀ (swap giop12 : Bool) (n : ℕ) (x : Inserted) (k : SkipKind) (s : InputCDR),
      Positioned swap n giop12 x s → IsWidth n → x.kind = some k → SkipsAsRead n k s := by
  intro h
  obtain ⟨s, hs⟩ := @exists_positioned_wchar 1 (Or.inl rfl) 65
  obtain ⟨heap, t, ht, hswap, hgiop, hminor, hat, hgiop', hputs⟩ := hs.exists_at (Or.inl rfl)
  have hput := hputs _ (OutputCDR.writes_writeWchar ht (Or.inl rfl) hminor 65)
  rw [hswap, hgiop.trans hgiop'.symm] at hput
  have hwide := (skipsAsRead_wchar_iff hat (Or.inl rfl) hput).mp
    (h _ false 1 _ .wchar s hs (Or.inl rfl) rfl)
  rw [hgiop'] at hwide
  simp at hwide

end Example

end InputCDR

end AceTao.Cdr
