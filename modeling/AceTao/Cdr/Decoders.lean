import AceTao.Cdr.Strings

/-!
# The two families of string decoders

A string is decoded to an array of characters with its terminator (`readString`, `readWstring`), or
to a standard string without it (`readStdString`, `readStdWstring`). The operations were written one
by one. They agree at a place in a stream when both succeed or both fail, end at the same place,
and give the same characters (`SameAnswer`).

* For strings they do, except on the length 0 and in a stream that has failed before.
* For wide strings of GIOP 1.2 they do, up to the longest string, for which the array has no room.
* For other wide strings the terminator is one of the characters of an array, and is skipped behind
  a standard string, as two bytes or as four: both must end at the same place, and the characters in
  front of it must not be there when it is not.
-/

namespace AceTao.Cdr

open Program ByteImage AlignUp

namespace InputCDR

variable {s t t' : InputCDR} {n : ℕ}

/-! ### Agreement -/

/-- Both answers are `true`, with related values, or both are `false`. -/
def Corresponds {α β : Type} (R : α → β → Prop) : Except Failure α → Except Failure β → Prop
  | .ok x, .ok y => R x y
  | .error _, .error _ => True
  | _, _ => False

/-- **Two operations agree**: they end at the same place, with corresponding answers. -/
def SameAnswer {α β : Type} (R : α → β → Prop) (m : Reader α) (m' : Reader β) (s : InputCDR) :
    Prop :=
  ∃ r t r' t', m s = some (r, t) ∧ m' s = some (r', t') ∧ t.rdPtr = t'.rdPtr ∧ Corresponds R r r'

section SameAnswer

variable {α β : Type} {R : α → β → Prop} {m : Reader α} {m' : Reader β} {r : Except Failure α}
  {r' : Except Failure β}

theorem sameAnswer_of_eq (hm : m s = some (r, t)) (hm' : m' s = some (r', t')) :
    SameAnswer R m m' s ↔ t.rdPtr = t'.rdPtr ∧ Corresponds R r r' := by
  constructor
  · rintro ⟨q, u, q', u', hq, hq', hplace, hcor⟩
    cases hm.symm.trans hq
    cases hm'.symm.trans hq'
    exact ⟨hplace, hcor⟩
  · exact fun h => ⟨r, t, r', t', hm, hm', h⟩

theorem not_sameAnswer_of_none (hm : m s = none) : ¬SameAnswer R m m' s := by
  rintro ⟨r, t, r', t', heq, -⟩
  cases hm.symm.trans heq

theorem assignGoodBit_of_ok {x : α} (h : m s = some (.ok x, t)) :
    assignGoodBit m s = some (.ok x, t.setGoodBit true) := by
  have hbind : (m >>= fun x => Program.modify (fun s => s.setGoodBit true) >>=
      fun _ => pure x) s = some (.ok x, t.setGoodBit true) := bind_of_ok h
  exact handle_of_ok hbind

theorem assignGoodBit_of_error {e : Failure} (h : m s = some (.error e, t)) :
    assignGoodBit m s = some (.error e, t.setGoodBit false) := by
  have hbind : (m >>= fun x => Program.modify (fun s => s.setGoodBit true) >>=
      fun _ => pure x) s = some (.error e, t) := bind_of_error h
  exact orFail_of_error hbind

/-- The flag of the stream takes both answers. -/
theorem SameAnswer.assignGoodBit (h : SameAnswer R m m' s) :
    SameAnswer R (assignGoodBit m) (assignGoodBit m') s := by
  obtain ⟨r, t, r', t', hm, hm', hplace, hcor⟩ := h
  rcases r with e | x
  · rcases r' with e' | y
    · exact ⟨_, _, _, _, assignGoodBit_of_error hm, assignGoodBit_of_error hm', hplace, trivial⟩
    · exact absurd hcor id
  · rcases r' with e' | y
    · exact absurd hcor id
    · exact ⟨_, _, _, _, assignGoodBit_of_ok hm, assignGoodBit_of_ok hm', hplace, hcor⟩

end SameAnswer

/-- **The decoders agree** at a place: the array without its last character is the standard
string. -/
def DecodersAgree (c : Codeset) (s : InputCDR) : Prop :=
  SameAnswer (fun x y => x.dropLast = y) (readString c) (readStdString c) s ∧
    SameAnswer (fun x y => x.dropLast = y) (readWstringInto c) (readStdWstring c) s

/-! ### Strings -/

theorem toNat_sub_one {len : ULong} (h : len ≠ 0) : (len - 1).toNat + 1 = len.toNat := by
  have hlt := len.isLt
  have hpos : len.toNat ≠ 0 := fun h0 => h (BitVec.eq_of_toNat_eq h0)
  rw [BitVec.toNat_sub]
  simp only [BitVec.toNat_ofNat, BitVec.ofNat_eq_ofNat]
  omega

/-- An array without its last character. -/
theorem dropLast_chars (s : InputCDR) (length : ℕ) :
    (s.chars (length + 1)).dropLast = s.chars length := by
  rw [chars, chars, ofArrayImage_eq_words, ofArrayImage_eq_words, dropLast_words, bytesAt, bytesAt,
    words_take _ _ _ _ (by omega), words_take _ _ _ _ (by omega)]

/-- The rest of `readStdString` behind the length. -/
theorem readStdString_eq (h : InBounds s) (hend : s.valueEnd 4 4 ≤ s.wrPtr) (n : ℕ) :
    readStdString (.plain n) s =
      if 0 < s.nextLength.toNat ∧ s.nextLength.toNat ≤ s.afterLength.length then
        (orFail (readCharArray (.plain n) (s.nextLength - 1)) >>= fun x =>
          skipChar >>= fun _ => pure x) s.afterLength
      else fail (if s.nextLength = 0 then .content else .bounds) s.afterLength := by
  refine (bind_of_ok (readUlong_of_fits h hend)).trans ?_
  exact ite_run _ _

/-- The terminator that is skipped. -/
theorem skipChar_of_lt (h : InBounds s) (hlt : s.rdPtr < s.wrPtr) :
    skipChar s = some (.ok (), s.setRdPtr (s.rdPtr + 1)) := by
  have hread := read1_eq h
  rw [if_pos hlt] at hread
  exact bind_of_ok hread

/-- A string that fits, as a standard string: the characters, and behind them the terminator, unless
the stream has failed before and there are characters. -/
theorem readStdString_of_fits (h : InBounds s) (hend : s.valueEnd 4 4 ≤ s.wrPtr)
    (hpos : s.nextLength ≠ 0) (hle : s.nextLength.toNat ≤ s.afterLength.length) (n : ℕ) :
    ∃ t, readStdString (.plain n) s = some (if s.nextLength = 1 then .ok [] else
        s.flagged (s.afterLength.chars (s.nextLength - 1).toNat), t) ∧
      t.rdPtr + (if s.nextLength = 1 ∨ s.goodBit = true then 0 else 1) =
        s.valueEnd 4 4 + s.nextLength.toNat := by
  have ht := h.afterLength hend
  have hleft := afterLength_length h hend
  have hplace := afterLength_rdPtr hend
  have hone := toNat_sub_one hpos
  have hread := readCharArray_eq ht (show (s.nextLength - 1).toNat ≤ s.afterLength.length by omega) n
  have hzero : s.nextLength - 1 = 0 ↔ s.nextLength = 1 := by
    constructor
    · intro h0
      rw [h0] at hone
      exact BitVec.eq_of_toNat_eq hone.symm
    · intro h1
      rw [h1]
      rfl
  have hmid : s.afterLength.rdPtr + (s.nextLength - 1).toNat ≤ s.afterLength.wrPtr := by
    rw [hplace]
    exact (show _ ≤ s.wrPtr by omega)
  have hu := ht.setRdPtr (Nat.le_add_right _ _) hmid
  have hurd := setRdPtr_rdPtr_of_le hmid
  have hlt : (s.afterLength.setRdPtr (s.afterLength.rdPtr + (s.nextLength - 1).toNat)).rdPtr <
      s.wrPtr := by
    rw [hurd, hplace]
    omega
  have hskip := skipChar_of_lt hu hlt
  have hlast := @setRdPtr_rdPtr_of_le
    (s.afterLength.setRdPtr (s.afterLength.rdPtr + (s.nextLength - 1).toNat)) _ hlt
  have hstd := readStdString_eq h hend n
  rw [if_pos ⟨by omega, hle⟩] at hstd
  have hok : ∀ x, readCharArray (.plain n) (s.nextLength - 1) s.afterLength = some (.ok x, _) →
      readStdString (.plain n) s = some (.ok x, _) := fun x hx =>
    hstd.trans ((bind_of_ok (orFail_eq hx)).trans (bind_of_ok hskip))
  have hsum : (s.afterLength.setRdPtr (s.afterLength.rdPtr + (s.nextLength - 1).toNat)).rdPtr + 1 =
      s.valueEnd 4 4 + s.nextLength.toNat := by
    rw [hurd, hplace]
    omega
  by_cases hsingle : s.nextLength = 1
  · rw [if_pos (hzero.mpr hsingle)] at hread
    rw [if_pos hsingle, if_pos (Or.inl hsingle)]
    exact ⟨_, hok [] hread, hlast.trans hsum⟩
  · rw [if_neg (fun h0 => hsingle (hzero.mp h0)), flagged] at hread
    rw [if_neg hsingle, flagged]
    rcases hgood : s.goodBit with _ | _
    · have hbad : s.afterLength.goodBit = false := hgood
      rw [hbad] at hread
      refine ⟨_, hstd.trans (bind_of_error (orFail_of_error hread)), ?_⟩
      rw [if_neg (by simpa using hsingle), setGoodBit_rdPtr, hsum]
    · have hgood' : s.afterLength.goodBit = true := hgood
      rw [hgood'] at hread
      rw [if_pos (Or.inr rfl)]
      exact ⟨_, hok _ hread, hlast.trans hsum⟩

/-- **The decoders of a string agree** unless it is of length 0, or there and the stream has failed
before. -/
theorem sameAnswer_string_iff (h : InBounds s) (n : ℕ) :
    SameAnswer (fun x y => x.dropLast = y) (readString (.plain n)) (readStdString (.plain n)) s ↔
      (s.valueEnd 4 4 ≤ s.wrPtr → s.valueEnd 4 4 + s.nextLength.toNat ≤ s.wrPtr →
        s.nextLength ≠ 0 ∧ s.goodBit = true) := by
  by_cases hend : s.valueEnd 4 4 ≤ s.wrPtr
  · have ht := h.afterLength hend
    have hleft := afterLength_length h hend
    have hplace := afterLength_rdPtr hend
    have hstd := readStdString_eq h hend n
    by_cases hzero : s.nextLength = 0
    · have hnot : ¬(0 < s.nextLength.toNat ∧ s.nextLength.toNat ≤ s.afterLength.length) := by
        rw [hzero]
        exact fun hpos => absurd hpos.1 (lt_irrefl 0)
      rw [if_neg hnot] at hstd
      rw [sameAnswer_of_eq (readString_of_zero h hend hzero n) hstd]
      refine iff_of_false (fun hc => hc.2) fun hfits => ?_
      refine (hfits hend ?_).1 hzero
      rw [hzero]
      exact hend
    · by_cases hle : s.nextLength.toNat ≤ s.afterLength.length
      · obtain ⟨t, hread, ht⟩ := readString_of_fits h hend hzero hle n
        obtain ⟨t', hstd, ht'⟩ := readStdString_of_fits h hend hzero hle n
        have hone := toNat_sub_one hzero
        rw [sameAnswer_of_eq hread hstd, flagged, ht]
        rcases hgood : s.goodBit with _ | _
        · refine iff_of_false ?_ fun hfits => ?_
          · rintro ⟨hsame, hcor⟩
            by_cases hsingle : s.nextLength = 1
            · rw [if_pos hsingle] at hcor
              exact hcor
            · rw [if_neg (by simpa [hgood] using hsingle)] at ht'
              omega
          · cases (hfits hend (by omega)).2
        · refine iff_of_true ⟨?_, ?_⟩ fun _ _ => ⟨hzero, rfl⟩
          · rw [if_pos (Or.inr hgood), Nat.add_zero] at ht'
            exact ht'.symm
          · have hlast := dropLast_chars s.afterLength (s.nextLength - 1).toNat
            rw [hone] at hlast
            by_cases hsingle : s.nextLength = 1
            · rw [if_pos hsingle]
              rw [hsingle] at hlast ⊢
              exact hlast
            · rw [if_neg hsingle, flagged, hgood]
              exact hlast
      · have hnot : ¬(0 < s.nextLength.toNat ∧ s.nextLength.toNat ≤ s.afterLength.length) :=
          fun hthere => hle hthere.2
        rw [if_neg hnot] at hstd
        rw [sameAnswer_of_eq (readString_of_long h hend (not_le.mp hle) n) hstd]
        exact iff_of_true ⟨rfl, trivial⟩ fun _ hthere => absurd hthere (by omega)
  · have hread : readString (.plain n) s = _ := bind_of_error (readUlong_of_not_fits h hend)
    have hstd : readStdString (.plain n) s = _ := bind_of_error (readUlong_of_not_fits h hend)
    rw [sameAnswer_of_eq hread hstd]
    exact iff_of_true ⟨rfl, trivial⟩ fun hfits => absurd hfits hend

/-! ### Wide strings -/

/-- A chunk of bytes in the byte order of the host. -/
def order (s : InputCDR) (bytes : List UInt8) : List UInt8 :=
  if s.doByteSwap then bytes.reverse else bytes

/-- The wide characters that come next. -/
def wchars (n : ℕ) (s : InputCDR) (length : ℕ) : List WChar :=
  if n = 4 then words s.order 4 length (s.bytesAt s.rdPtr (4 * length))
  else if n = 2 then
    (words s.order 2 length (s.bytesAt s.rdPtr (2 * length))).map fun x => x.setWidth 32
  else (words id 1 length (s.bytesAt s.rdPtr length)).map fun x => x.setWidth 32

/-- An array without its last wide character. -/
theorem dropLast_wchars (n : ℕ) (s : InputCDR) (length : ℕ) :
    (wchars n s (length + 1)).dropLast = wchars n s length := by
  rw [wchars, wchars]
  split_ifs
  · rw [dropLast_words, bytesAt, bytesAt, words_take _ _ _ _ (by omega), words_take _ _ _ _ le_rfl]
  · rw [← List.map_dropLast, dropLast_words, bytesAt, bytesAt, words_take _ _ _ _ (by omega),
      words_take _ _ _ _ le_rfl]
  · rw [← List.map_dropLast, dropLast_words, bytesAt, bytesAt, words_take _ _ _ _ (by omega),
      words_take _ _ _ _ (by omega)]

theorem ofArrayImage_nativeArray {size length : ℕ} {bytes : List UInt8}
    (h : bytes.length = size * length) :
    ofArrayImage size length (s.nativeArray size length bytes) = words s.order size length bytes := by
  have horder : s.order = if s.doByteSwap then List.reverse else id := by
    funext bytes
    rw [order]
    split_ifs <;> rfl
  rw [nativeArray, horder]
  split_ifs
  · exact ofArrayImage_swapArray h
  · exact ofArrayImage_eq_words size length bytes

theorem setRdPtr_self (h : InBounds s) : s.setRdPtr s.rdPtr = s := by
  have hmod : s.rdPtr % 2 ^ 64 = s.rdPtr := by
    have hwr := s.wrPtr_le
    have hrd := h.le
    omega
  rw [setRdPtr, hmod]

theorem readWcharArrayI_eq (h : InBounds s) (haligned : 4 ∣ s.rdPtr) (hne : n ≠ 4) {length : ULong}
    (hpos : length ≠ 0) (hcount : length.toNat ≤ s.length)
    (hsize : n * length.toNat % 2 ^ 64 ≤ s.length) (hmod : n * length.toNat % 2 ^ 64 = n * length.toNat) :
    readWcharArrayI (.plain n) length s =
      some (s.flagged (wchars n s length.toNat), s.setRdPtr (s.rdPtr + n * length.toNat)) := by
  have hlt := length.isLt
  have hlength := length_eq h
  have hrd := h.le
  rw [readWcharArrayI, if_neg hpos, wchars, if_neg hne]
  rcases eq_or_ne n 2 with rfl | htwo
  · have htwo : s.valueEnd (2 * length.toNat) 2 = s.rdPtr + 2 * length.toNat := by
      rw [valueEnd, alignUp_of_dvd two_pos (Nat.dvd_trans (by norm_num) haligned)]
    have hplace := alignUp_of_dvd two_pos (Nat.dvd_trans (show 2 ∣ 4 by norm_num) haligned)
    have hend : s.rdPtr + 2 * length.toNat ≤ s.wrPtr := by omega
    have hadjust := adjust_eq h isAlign_two (show 2 * length.toNat ≤ 2 ^ 62 by omega)
    rw [htwo, if_pos hend, hplace] at hadjust
    have hload : load s.rdPtr (2 * length.toNat) (s.setRdPtr (s.rdPtr + 2 * length.toNat)) =
        some (.ok (s.bytesAt s.rdPtr (2 * length.toNat)), _) := load_eq h.ge hend
    have hwords := @ofArrayImage_nativeArray s 2 length.toNat _ (length_bytesAt h.ge hend)
    rw [nativeArray] at hwords
    simp only [Codeset.plain, hmod, if_pos]
    rw [bind_of_ok hadjust, get_bind_apply, bind_of_ok hload, setRdPtr_doByteSwap, hwords]
    exact returnGoodBit_flagged _ _
  · have hend : s.rdPtr + length.toNat ≤ s.wrPtr := by omega
    have hadjust := adjust_plain_eq h htwo hsize
    rw [hmod] at hadjust
    have hload : load s.rdPtr length.toNat (s.setRdPtr (s.rdPtr + n * length.toNat)) =
        some (.ok (s.bytesAt s.rdPtr length.toNat), _) := load_eq h.ge hend
    have hif : ¬(Codeset.plain n).wcharMaxbytes = 2 := htwo
    dsimp only
    rw [bind_of_ok hadjust, get_bind_apply, if_neg hif, bind_of_ok hload, if_neg htwo,
      ofArrayImage_eq_words]
    exact returnGoodBit_flagged _ _

/-- **An array of wide characters** behind a length, of any size in the stream. -/
theorem readWcharArray_eq (h : InBounds s) (haligned : 4 ∣ s.rdPtr) (hn : n < 2 ^ 32)
    {length : ULong} (hcount : length.toNat ≤ s.length) :
    readWcharArray (.plain n) length s =
      if n * length.toNat ≤ s.length then
        some (if length = 0 then .ok [] else s.flagged (wchars n s length.toNat),
          s.setRdPtr (s.rdPtr + n * length.toNat))
      else some (.error .bounds, s.setGoodBit false) := by
  have hlt := length.isLt
  have hmul : n * length.toNat < 2 ^ 64 := by
    have hle : n * length.toNat ≤ (2 ^ 32 - 1) * (2 ^ 32 - 1) := Nat.mul_le_mul (by omega) (by omega)
    omega
  have hmod : n * length.toNat % 2 ^ 64 = n * length.toNat := Nat.mod_eq_of_lt hmul
  have hcheck : length.toNat * (Codeset.plain n).wcharMaxbytes % 2 ^ 64 > s.length ↔
      s.length < n * length.toNat := by
    change length.toNat * n % 2 ^ 64 > s.length ↔ _
    rw [Nat.mul_comm, hmod]
  rw [readWcharArray, get_bind_apply, ite_run]
  by_cases hfits : n * length.toNat ≤ s.length
  · rw [if_neg (fun hc => absurd (hcheck.mp hc) (not_lt.mpr hfits)), if_pos hfits]
    change (if n ≠ 4 then readWcharArrayI (.plain n) length else readArray 4 4 length.toNat >>=
      fun bytes => pure (ofArrayImage 4 length.toNat bytes)) s = _
    by_cases hzero : length = 0
    · subst hzero
      have hplace : s.setRdPtr (s.rdPtr + n * (0 : ULong).toNat) = s := by
        change s.setRdPtr (s.rdPtr + n * 0) = s
        rw [Nat.mul_zero, Nat.add_zero, setRdPtr_self h]
      rw [if_pos rfl, hplace, ite_run]
      split_ifs
      · rfl
      · rfl
    · have hpos : length.toNat ≠ 0 := fun h0 => hzero (BitVec.eq_of_toNat_eq h0)
      rw [if_neg hzero, ite_run]
      rcases eq_or_ne n 4 with rfl | hne
      · have hlength := length_eq h
        have hrd := h.le
        have hend : s.rdPtr + 4 * length.toNat ≤ s.wrPtr := by omega
        have hplace := alignUp_of_dvd (show 0 < 4 by norm_num) haligned
        have hvalue : s.valueEnd (4 * length.toNat) 4 = s.rdPtr + 4 * length.toNat := by
          rw [valueEnd, hplace]
        have hread := readArray_of_fits h isAlign_four (by norm_num) hlt hpos (hvalue ▸ hend)
        rw [hvalue, hplace] at hread
        rw [if_neg (not_not.mpr rfl), flagged_map_bind _ hread,
          ofArrayImage_nativeArray (length_bytesAt h.ge hend), wchars, if_pos rfl]
      · rw [if_pos hne]
        exact readWcharArrayI_eq h haligned hne hzero hcount (hmod.trans_le hfits) hmod
  · rw [if_pos (hcheck.mpr (not_le.mp hfits)), if_neg hfits]
    rfl

section Arrays

variable {length : ULong} (h : InBounds s) (haligned : 4 ∣ s.rdPtr) (hn : n < 2 ^ 32)
  (hcount : length.toNat ≤ s.length)

include h haligned hn hcount

theorem orFail_readWcharArray_ok (hfits : n * length.toNat ≤ s.length)
    (hgood : length = 0 ∨ s.goodBit = true) :
    orFail (readWcharArray (.plain n) length) s =
      some (.ok (wchars n s length.toNat), s.setRdPtr (s.rdPtr + n * length.toNat)) := by
  have heq := readWcharArray_eq h haligned hn hcount
  rw [if_pos hfits] at heq
  refine orFail_eq (heq.trans ?_)
  by_cases hzero : length = 0
  · have hnil : wchars n s (0 : ULong).toNat = [] := by
      rw [wchars]
      split_ifs <;> rfl
    rw [if_pos hzero, hzero, hnil]
  · rw [if_neg hzero, flagged, if_pos (hgood.resolve_left hzero)]

theorem orFail_readWcharArray_earlier (hfits : n * length.toNat ≤ s.length) (hpos : length ≠ 0)
    (hbad : s.goodBit = false) : ∃ t, orFail (readWcharArray (.plain n) length) s =
      some (.error .earlier, t) ∧ t.rdPtr = s.rdPtr + n * length.toNat := by
  have heq := readWcharArray_eq h haligned hn hcount
  have hlength := length_eq h
  have hrd := h.le
  rw [if_pos hfits, if_neg hpos, flagged, hbad, if_neg Bool.false_ne_true] at heq
  exact ⟨_, orFail_of_error heq, @setRdPtr_rdPtr_of_le s _ (by omega)⟩

theorem orFail_readWcharArray_bounds (hfits : s.length < n * length.toNat) :
    ∃ t, orFail (readWcharArray (.plain n) length) s = some (.error .bounds, t) ∧
      t.rdPtr = s.rdPtr := by
  have heq := readWcharArray_eq h haligned hn hcount
  rw [if_neg (not_le.mpr hfits)] at heq
  exact ⟨_, orFail_of_error heq, rfl⟩

omit haligned hn in
/-- With enough room the checks do not matter. -/
theorem orFail_readWcharArrayInto {room : ℕ} (hroom : length.toNat ≤ room) :
    orFail (readWcharArrayInto (.plain n) room length) s =
      orFail (readWcharArray (.plain n) length) s := by
  obtain ⟨r, t, heq, -⟩ := exists_orFail_readWcharArrayInto h n hcount hroom
  exact heq.trans ((checks_readWcharArrayInto n room length).orFail s _ heq).symm

end Arrays

/-- The width of the terminator that is skipped. -/
def skippedWidth (n : ℕ) : ℕ := if n = 2 then 2 else 4

theorem skipWchar_eq (h : InBounds s) (hgiop : s.giop12 = false) (n : ℕ) :
    skipWchar (.plain n) s =
      if s.valueEnd (skippedWidth n) (skippedWidth n) ≤ s.wrPtr
        then some (.ok (), s.setRdPtr (s.valueEnd (skippedWidth n) (skippedWidth n)))
        else some (.error .bounds, s.setGoodBit false) := by
  have hskip : skipWchar (.plain n) s = (if n = 2 then read2 >>= fun _ => pure ()
      else read4 >>= fun _ => pure () : Reader Unit) s := by
    refine congrFun (if_neg ?_) s
    rw [hgiop]
    exact Bool.false_ne_true
  rw [hskip, ite_run, skippedWidth]
  by_cases htwo : n = 2
  · have hread := readWord_eq h isAlign_two (show 2 ≤ 2 ^ 62 by norm_num)
    rw [if_pos htwo, if_pos htwo]
    split_ifs at hread ⊢
    · exact bind_of_ok hread
    · exact bind_of_error hread
  · have hread := readWord_eq h isAlign_four (show 4 ≤ 2 ^ 62 by norm_num)
    rw [if_neg htwo, if_neg htwo]
    split_ifs at hread ⊢
    · exact bind_of_ok hread
    · exact bind_of_error hread

theorem four_dvd_afterLength (hend : s.valueEnd 4 4 ≤ s.wrPtr) : 4 ∣ s.afterLength.rdPtr := by
  rw [afterLength_rdPtr hend, valueEnd]
  exact Nat.dvd_add (dvd_alignUp _ _) dvd_rfl

/-- Without a translator. -/
theorem readStdWstring_none {c : Codeset} (hc : c.wcharTranslator = none) :
    readStdWstring c = if c.wcharMaxbytes = 0 then fail .unsupported
      else readUlong >>= fun len => Program.get >>= fun s =>
        if 0 < len.toNat ∧ len.toNat ≤ s.length then
          if s.giop12 then orFail (readWcharArray c (len / truncateCast c.wcharMaxbytes))
          else if len = 1 then pure [] >>= fun x => skipWchar c >>= fun _ => pure x
          else orFail (readWcharArray c (len - 1)) >>= fun x => skipWchar c >>= fun _ => pure x
        else if len = 0 then pure []
        else fail .bounds := by
  unfold readStdWstring
  split
  · rename_i t ht
    cases hc.symm.trans ht
  · refine congrArg (ite _ _) (congrArg (readUlong >>= ·) (funext fun len =>
      congrArg (Program.get >>= ·) (funext fun s => congrArg (ite _ · _) (congrArg (ite _ _) ?_))))
    split_ifs
    · exact congrArg (Bind.bind _) (funext fun x => rfl)
    · exact congrArg (Bind.bind _) (funext fun x => rfl)

/-- The rest of `readStdWstring` behind the length, in other versions than GIOP 1.2. -/
theorem readStdWstring_eq (h : InBounds s) (hend : s.valueEnd 4 4 ≤ s.wrPtr) (hzero : n ≠ 0)
    (hgiop : s.giop12 = false) (hpos : s.nextLength ≠ 0)
    (hle : s.nextLength.toNat ≤ s.afterLength.length) (hn : n < 2 ^ 32) :
    readStdWstring (.plain n) s =
      (orFail (readWcharArray (.plain n) (s.nextLength - 1)) >>= fun x =>
        skipWchar (.plain n) >>= fun _ => pure x) s.afterLength := by
  have hnat : 0 < s.nextLength.toNat :=
    Nat.pos_of_ne_zero fun h0 => hpos (BitVec.eq_of_toNat_eq h0)
  have hversion : s.afterLength.giop12 = false := hgiop
  have hwidth : ¬(Codeset.plain n).wcharMaxbytes = 0 := hzero
  rw [readStdWstring_none rfl, if_neg hwidth, bind_of_ok (readUlong_of_fits h hend), get_bind_apply,
    if_pos ⟨hnat, hle⟩,
    hversion, if_neg Bool.false_ne_true]
  by_cases hsingle : s.nextLength = 1
  · have hnone : s.nextLength - 1 = 0 := by
      rw [hsingle]
      rfl
    have hread := @orFail_readWcharArray_ok s.afterLength n 0 (h.afterLength hend)
      (four_dvd_afterLength hend) hn (Nat.zero_le _) (Nat.zero_le _) (Or.inl rfl)
    change _ = some (_, s.afterLength.setRdPtr (s.afterLength.rdPtr + n * 0)) at hread
    have hnil : wchars n s.afterLength (0 : ULong).toNat = [] := by
      rw [wchars]
      split_ifs <;> rfl
    rw [Nat.mul_zero, Nat.add_zero, setRdPtr_self (h.afterLength hend), hnil] at hread
    rw [if_pos hsingle, hnone, bind_of_ok hread, bind_of_ok (pure_apply [])]
  · rw [if_neg hsingle]

/-- **How the standard string ends** that follows its length: with its terminator skipped, in front
of it, or without a character. -/
theorem readStdWstring_cases (h : InBounds s) (hend : s.valueEnd 4 4 ≤ s.wrPtr) (hzero : n ≠ 0)
    (hgiop : s.giop12 = false) (hpos : s.nextLength ≠ 0)
    (hle : s.nextLength.toNat ≤ s.afterLength.length) (hn : n < 2 ^ 32) :
    let k := s.nextLength.toNat - 1
    let mid := s.valueEnd 4 4 + n * k
    let last := alignUp mid (skippedWidth n) + skippedWidth n
    (n * k ≤ s.afterLength.length ∧ (k = 0 ∨ s.goodBit = true) ∧ last ≤ s.wrPtr ∧
      ∃ t, readStdWstring (.plain n) s = some (.ok (wchars n s.afterLength k), t) ∧
        t.rdPtr = last) ∨
    (n * k ≤ s.afterLength.length ∧ (k = 0 ∨ s.goodBit = true → s.wrPtr < last) ∧
      ∃ e t, readStdWstring (.plain n) s = some (.error e, t) ∧ t.rdPtr = mid) ∨
    (s.afterLength.length < n * k ∧
      ∃ e t, readStdWstring (.plain n) s = some (.error e, t) ∧ t.rdPtr = s.valueEnd 4 4) := by
  intro k mid last
  have ht := h.afterLength hend
  have halign := four_dvd_afterLength hend
  have hplace := afterLength_rdPtr hend
  have hleft := afterLength_length h hend
  have hone := toNat_sub_one hpos
  have hk : (s.nextLength - 1).toNat = k := by omega
  have hcount : (s.nextLength - 1).toNat ≤ s.afterLength.length := by omega
  have hnone : s.nextLength - 1 = 0 ↔ k = 0 :=
    ⟨fun h0 => by rw [← hk, h0]; rfl, fun h0 => BitVec.eq_of_toNat_eq (hk.trans h0)⟩
  have hstd := readStdWstring_eq h hend hzero hgiop hpos hle hn
  rcases Nat.lt_or_ge s.afterLength.length (n * k) with hlong | hfits
  · obtain ⟨t, hread, hrd⟩ := orFail_readWcharArray_bounds ht halign hn hcount (hk ▸ hlong)
    exact Or.inr (Or.inr ⟨hlong, _, t, hstd.trans (bind_of_error hread), hrd.trans hplace⟩)
  · by_cases hgood : k = 0 ∨ s.goodBit = true
    · have hread := orFail_readWcharArray_ok ht halign hn hcount (hk ▸ hfits)
        (hgood.imp_left hnone.mpr)
      rw [hk] at hread
      have hmid : s.afterLength.rdPtr + n * k ≤ s.afterLength.wrPtr := by
        have hwr : s.afterLength.wrPtr = s.wrPtr := rfl
        omega
      have hu := ht.setRdPtr (Nat.le_add_right _ _) hmid
      have hurd := setRdPtr_rdPtr_of_le hmid
      have hskip := skipWchar_eq hu (show s.giop12 = false from hgiop) n
      have hvalue : (s.afterLength.setRdPtr (s.afterLength.rdPtr + n * k)).valueEnd
          (skippedWidth n) (skippedWidth n) = last := by
        rw [valueEnd, hurd, hplace]
      rw [hvalue, setRdPtr_wrPtr] at hskip
      change _ = if last ≤ s.wrPtr then _ else _ at hskip
      by_cases hlast : last ≤ s.wrPtr
      · rw [if_pos hlast] at hskip
        refine Or.inl ⟨hfits, hgood, hlast, _, hstd.trans ((bind_of_ok hread).trans
          (bind_of_ok hskip)), setRdPtr_rdPtr_of_le hlast⟩
      · rw [if_neg hlast] at hskip
        refine Or.inr (Or.inl ⟨hfits, fun _ => not_le.mp hlast, _, _, hstd.trans
          ((bind_of_ok hread).trans (bind_of_error hskip)), ?_⟩)
        rw [setGoodBit_rdPtr, hurd, hplace]
    · rw [not_or, Bool.not_eq_true] at hgood
      obtain ⟨t, hread, hrd⟩ := orFail_readWcharArray_earlier ht halign hn hcount (hk ▸ hfits)
        (fun h0 => hgood.1 (hnone.mp h0)) hgood.2
      refine Or.inr (Or.inl ⟨hfits, fun hc => ?_, _, t, hstd.trans (bind_of_error hread), ?_⟩)
      · exact absurd hc (by simpa using hgood)
      · rw [hrd, hk, hplace]

/-- **The ends meet** of the array and of the standard string in front of its skipped terminator;
where the array is too long, so are the characters, or there are none and no terminator. -/
def EndsMeet (n : ℕ) (s : InputCDR) : Prop :=
  if s.valueEnd 4 4 + n * s.nextLength.toNat ≤ s.wrPtr then
    s.goodBit = true ∧ alignUp (s.valueEnd 4 4 + n * (s.nextLength.toNat - 1)) (skippedWidth n) +
      skippedWidth n = s.valueEnd 4 4 + n * s.nextLength.toNat
  else s.wrPtr < s.valueEnd 4 4 + n * (s.nextLength.toNat - 1) ∨
    s.nextLength = 1 ∧ s.wrPtr < s.valueEnd 4 4 + skippedWidth n

theorem isAlign_skippedWidth (n : ℕ) : IsAlign (skippedWidth n) := by
  rw [skippedWidth]
  split_ifs
  · exact isAlign_two
  · exact isAlign_four

/-- Other versions than GIOP 1.2. -/
theorem sameAnswer_wstring11_iff (h : InBounds s) (hzero : n ≠ 0) (hgiop : s.giop12 = false)
    (hn : n < 2 ^ 32) (hend : s.valueEnd 4 4 ≤ s.wrPtr) (hpos : s.nextLength ≠ 0)
    (hle : s.nextLength.toNat ≤ s.afterLength.length) :
    SameAnswer (fun x y => x.dropLast = y) (readWstringInto (.plain n))
      (readStdWstring (.plain n)) s ↔ EndsMeet n s := by
  have ht := h.afterLength hend
  have halign := four_dvd_afterLength hend
  have hplace := afterLength_rdPtr hend
  have hleft := afterLength_length h hend
  have hnat : s.nextLength.toNat ≠ 0 := fun h0 => hpos (BitVec.eq_of_toNat_eq h0)
  obtain ⟨k, hk⟩ := Nat.exists_eq_succ_of_ne_zero hnat
  have hsub : s.nextLength.toNat - 1 = k := by omega
  have hmul : n * s.nextLength.toNat = n * k + n := by rw [hk, Nat.mul_succ]
  have hsingle : s.nextLength = 1 ↔ k = 0 :=
    ⟨fun h1 => by rw [h1] at hk; exact (Nat.succ.inj hk).symm,
      fun h0 => BitVec.eq_of_toNat_eq (by rw [hk, h0]; rfl)⟩
  have hfirst : k = 0 → n * k = 0 := fun h0 => by rw [h0, Nat.mul_zero]
  have hlater : k ≠ 0 → n ≤ n * k := fun h0 => Nat.le_mul_of_pos_right n (Nat.pos_of_ne_zero h0)
  have hfits_iff : n * s.nextLength.toNat ≤ s.afterLength.length ↔
      s.valueEnd 4 4 + (n * k + n) ≤ s.wrPtr := by omega
  have hwstring := readWstringInto_eq hzero (readUlong_of_fits h hend)
  have hversion : s.afterLength.giop12 = false := hgiop
  rw [if_pos ⟨Nat.pos_of_ne_zero hnat, hle⟩, hversion, if_neg Bool.false_ne_true,
    orFail_readWcharArrayInto ht hle le_rfl] at hwstring
  have hcases := readStdWstring_cases h hend hzero hgiop hpos hle hn
  dsimp only at hcases
  rw [hsub] at hcases
  rw [EndsMeet, hsub, hmul, hsingle]
  have hup := le_alignUp (isAlign_skippedWidth n).pos (s.valueEnd 4 4 + n * k)
  have hsame : k = 0 → alignUp (s.valueEnd 4 4 + n * k) (skippedWidth n) = s.valueEnd 4 4 := by
    intro h0
    rw [hfirst h0, Nat.add_zero]
    refine alignUp_of_dvd (isAlign_skippedWidth n).pos ?_
    rw [hplace] at halign
    refine Nat.dvd_trans ?_ halign
    rw [skippedWidth]
    split_ifs <;> norm_num
  by_cases hfits : s.valueEnd 4 4 + (n * k + n) ≤ s.wrPtr
  · rw [if_pos hfits]
    have hroom := hfits_iff.mpr hfits
    have hlast : (s.afterLength.setRdPtr (s.afterLength.rdPtr + n * s.nextLength.toNat)).rdPtr =
        s.valueEnd 4 4 + (n * k + n) := by
      rw [hplace, hmul]
      exact @setRdPtr_rdPtr_of_le s.afterLength _ hfits
    rcases hgood : s.goodBit with _ | _
    · obtain ⟨t, hread, hrd⟩ := orFail_readWcharArray_earlier ht halign hn hle hroom hpos hgood
      have hread := hwstring.trans hread
      rw [hplace, hmul] at hrd
      refine iff_of_false ?_ fun hc => nomatch hc.1
      rcases hcases with ⟨-, -, -, t', hstd, -⟩ | ⟨-, -, e, t', hstd, hrd'⟩ | ⟨hlong, -⟩
      · rw [sameAnswer_of_eq hread hstd]
        exact fun hc => hc.2
      · rw [sameAnswer_of_eq hread hstd, hrd, hrd']
        intro hc
        omega
      · omega
    · have hread := hwstring.trans (orFail_readWcharArray_ok ht halign hn hle hroom (Or.inr hgood))
      rcases hcases with ⟨-, -, -, t', hstd, hrd'⟩ | ⟨-, hlt, e, t', hstd, -⟩ | ⟨hlong, -⟩
      · rw [sameAnswer_of_eq hread hstd, hlast, hrd', hk]
        have hdrop := dropLast_wchars n s.afterLength k
        exact ⟨fun hc => ⟨rfl, hc.1.symm⟩, fun hc => ⟨hc.2.symm, hdrop⟩⟩
      · rw [sameAnswer_of_eq hread hstd]
        refine iff_of_false (fun hc => hc.2) fun hc => ?_
        have := hlt (Or.inr hgood)
        omega
      · omega
  · rw [if_neg hfits]
    obtain ⟨t, hread, hrd⟩ := orFail_readWcharArray_bounds ht halign hn hle
      (not_le.mp fun hroom => hfits (hfits_iff.mp hroom))
    have hread := hwstring.trans hread
    rw [hplace] at hrd
    rcases hcases with ⟨hroom, hgood, hlast, t', hstd, -⟩ | ⟨hroom, hlt, e, t', hstd, hrd'⟩ |
      ⟨hlong, e, t', hstd, hrd'⟩
    · rw [sameAnswer_of_eq hread hstd]
      refine iff_of_false (fun hc => hc.2) fun hc => ?_
      rcases hc with hc | ⟨h0, hc⟩
      · omega
      · rw [hsame h0] at hlast
        omega
    · rw [sameAnswer_of_eq hread hstd, hrd, hrd']
      constructor
      · rintro ⟨hc, -⟩
        have h0 : k = 0 := by
          by_contra hne
          have := hlater hne
          omega
        refine Or.inr ⟨h0, ?_⟩
        have hlt := hlt (Or.inl h0)
        rwa [hsame h0] at hlt
      · rintro (hc | ⟨h0, -⟩)
        · omega
        · exact ⟨by rw [hfirst h0, Nat.add_zero], trivial⟩
    · rw [sameAnswer_of_eq hread hstd, hrd, hrd']
      exact iff_of_true ⟨rfl, trivial⟩ (Or.inl (by omega))

/-- The rest of `readStdWstring` in GIOP 1.2. -/
theorem readStdWstring12_eq (h : InBounds s) (hend : s.valueEnd 4 4 ≤ s.wrPtr) (hzero : n ≠ 0)
    (hgiop : s.giop12 = true) (hpos : s.nextLength ≠ 0)
    (hle : s.nextLength.toNat ≤ s.afterLength.length) :
    readStdWstring (.plain n) s =
      orFail (readWcharArray (.plain n) (s.nextLength / truncateCast n)) s.afterLength := by
  have hnat : 0 < s.nextLength.toNat :=
    Nat.pos_of_ne_zero fun h0 => hpos (BitVec.eq_of_toNat_eq h0)
  have hversion : s.afterLength.giop12 = true := hgiop
  have hwidth : ¬(Codeset.plain n).wcharMaxbytes = 0 := hzero
  rw [readStdWstring_none rfl, if_neg hwidth, bind_of_ok (readUlong_of_fits h hend), get_bind_apply,
    if_pos ⟨hnat, hle⟩, hversion, if_pos rfl]
  rfl

/-- In GIOP 1.2 both read the same array, to which the first adds a terminator. -/
theorem sameAnswer_wstring12_iff (h : InBounds s) (hzero : n ≠ 0) (hgiop : s.giop12 = true)
    (hend : s.valueEnd 4 4 ≤ s.wrPtr) (hpos : s.nextLength ≠ 0)
    (hle : s.nextLength.toNat ≤ s.afterLength.length) :
    SameAnswer (fun x y => x.dropLast = y) (readWstringInto (.plain n))
      (readStdWstring (.plain n)) s ↔ (n = 1 → s.nextLength.toNat ≠ 2 ^ 32 - 1) := by
  have ht := h.afterLength hend
  have hnat : s.nextLength.toNat ≠ 0 := fun h0 => hpos (BitVec.eq_of_toNat_eq h0)
  have hcount : (s.nextLength / truncateCast n).toNat ≤ s.afterLength.length := by
    rw [BitVec.toNat_udiv]
    exact (Nat.div_le_self _ _).trans hle
  have hversion : s.afterLength.giop12 = true := hgiop
  have hread := readWstringInto_eq hzero (readUlong_of_fits h hend)
  rw [if_pos ⟨Nat.pos_of_ne_zero hnat, hle⟩, hversion, if_pos rfl] at hread
  have hstd := readStdWstring12_eq h hend hzero hgiop hpos hle
  by_cases hmax : (s.nextLength / truncateCast n).toNat = 2 ^ 32 - 1
  · obtain ⟨rfl, hlen⟩ := eq_one_of_div hzero hmax
    refine iff_of_false ?_ fun hne => hne rfl hlen
    exact not_sameAnswer_of_none (hread.trans (readTerminated_eq_none ht hmax hcount))
  · have hroom := toNat_add_one hmax
    have hle' : (s.nextLength / truncateCast n).toNat ≤
        (s.nextLength / truncateCast n + 1).toNat := by
      rw [hroom]
      exact Nat.le_succ _
    obtain ⟨r, t, heq, hx⟩ := exists_orFail_readWcharArrayInto ht n hcount hle'
    rw [← orFail_readWcharArrayInto ht hcount hle', heq] at hstd
    have hfits : n = 1 → s.nextLength.toNat ≠ 2 ^ 32 - 1 := by
      rintro rfl hlen
      have hcast : (truncateCast 1).toNat = 1 := rfl
      rw [BitVec.toNat_udiv, hlen, hcast, Nat.div_one] at hmax
      exact hmax rfl
    refine iff_of_true ?_ hfits
    rcases r with e | x
    · rw [sameAnswer_of_eq (hread.trans (bind_of_error heq)) hstd]
      exact ⟨rfl, trivial⟩
    · have hstore : store (s.nextLength / truncateCast n + 1).toNat (x ++ [0]) t =
          some (.ok (x ++ [0]), t) := by
        rw [store_eq, if_pos]
        rw [hroom, List.length_append, hx x rfl, List.length_singleton]
      rw [sameAnswer_of_eq (hread.trans ((bind_of_ok heq).trans hstore)) hstd]
      exact ⟨rfl, List.dropLast_concat⟩

/-- **A wide string for which the decoders agree**, when it is there and not empty. -/
def WstringFits (n : ℕ) (s : InputCDR) : Prop :=
  n ≠ 0 → s.valueEnd 4 4 ≤ s.wrPtr → s.nextLength ≠ 0 →
    s.valueEnd 4 4 + s.nextLength.toNat ≤ s.wrPtr →
      if s.giop12 = true then n = 1 → s.nextLength.toNat ≠ 2 ^ 32 - 1 else EndsMeet n s

theorem sameAnswer_wstring_iff (h : InBounds s) (hn : n < 2 ^ 32) :
    SameAnswer (fun x y => x.dropLast = y) (readWstringInto (.plain n))
      (readStdWstring (.plain n)) s ↔ WstringFits n s := by
  by_cases hzero : n = 0
  · have hread : readWstringInto (.plain n) s = fail .unsupported s := congrFun (if_pos hzero) s
    have hwidth : (Codeset.plain n).wcharMaxbytes = 0 := hzero
    have hstd : readStdWstring (.plain n) s = fail .unsupported s := by
      rw [readStdWstring_none rfl, if_pos hwidth]
    rw [sameAnswer_of_eq hread hstd]
    exact iff_of_true ⟨rfl, trivial⟩ fun hne => absurd hzero hne
  have hwidth : ¬(Codeset.plain n).wcharMaxbytes = 0 := hzero
  by_cases hend : s.valueEnd 4 4 ≤ s.wrPtr
  · have hleft := afterLength_length h hend
    have hread := readWstringInto_eq hzero (readUlong_of_fits h hend)
    by_cases hthere : 0 < s.nextLength.toNat ∧ s.nextLength.toNat ≤ s.afterLength.length
    · have hpos : s.nextLength ≠ 0 := by
        intro h0
        rw [h0] at hthere
        exact absurd hthere.1 (lt_irrefl 0)
      have hbehind : s.valueEnd 4 4 + s.nextLength.toNat ≤ s.wrPtr := by omega
      rcases hgiop : s.giop12 with _ | _
      · rw [sameAnswer_wstring11_iff h hzero hgiop hn hend hpos hthere.2]
        constructor
        · intro hmeet _ _ _ _
          rwa [hgiop, if_neg Bool.false_ne_true]
        · intro hfits
          have hmeet := hfits hzero hend hpos hbehind
          rwa [hgiop, if_neg Bool.false_ne_true] at hmeet
      · rw [sameAnswer_wstring12_iff h hzero hgiop hend hpos hthere.2]
        constructor
        · intro hne _ _ _ _
          rwa [hgiop, if_pos rfl]
        · intro hfits
          have hne := hfits hzero hend hpos hbehind
          rwa [hgiop, if_pos rfl] at hne
    · have hstd : readStdWstring (.plain n) s =
          if s.nextLength = 0 then (pure [] : Reader (List WChar)) s.afterLength
          else fail .bounds s.afterLength := by
        rw [readStdWstring_none rfl, if_neg hwidth, bind_of_ok (readUlong_of_fits h hend),
          get_bind_apply, if_neg hthere, ite_run]
      rw [if_neg hthere] at hread
      have hfits : WstringFits n s := by
        intro _ _ hpos hle
        have hnat : s.nextLength.toNat ≠ 0 := fun h0 => hpos (BitVec.eq_of_toNat_eq h0)
        omega
      refine iff_of_true ?_ hfits
      by_cases h0 : s.nextLength = 0
      · rw [if_pos h0] at hread hstd
        rw [sameAnswer_of_eq (hread.trans (store_eq 1 [0] _)) hstd]
        exact ⟨rfl, rfl⟩
      · rw [if_neg h0] at hread hstd
        rw [sameAnswer_of_eq hread hstd]
        exact ⟨rfl, trivial⟩
  · have hread : readWstringInto (.plain n) s = _ :=
      (congrFun (if_neg hzero) s).trans (bind_of_error (readUlong_of_not_fits h hend))
    have hstd : readStdWstring (.plain n) s = some (.error .bounds, s.setGoodBit false) := by
      rw [readStdWstring_none rfl, if_neg hwidth, bind_of_error (readUlong_of_not_fits h hend)]
    rw [sameAnswer_of_eq hread hstd]
    exact iff_of_true ⟨rfl, trivial⟩ fun _ hfits => absurd hfits hend

/-! ### Both kinds -/

/-- **A string for which the decoders agree**, when it is there. -/
def StringFits (s : InputCDR) : Prop :=
  s.valueEnd 4 4 ≤ s.wrPtr → s.valueEnd 4 4 + s.nextLength.toNat ≤ s.wrPtr →
    s.nextLength ≠ 0 ∧ s.goodBit = true

/-- The decoders of the translators of a stream agree. -/
structure TranslatorsAgree (c : Codeset) : Prop where
  chars : ∀ t ∈ c.charTranslator, ∀ s,
    SameAnswer (fun x y => x.dropLast = y) t.readString t.readStdString s
  wchars : ∀ t ∈ c.wcharTranslator, ∀ s,
    SameAnswer (fun x y => x.dropLast = y) t.readWstring t.readStdWstring s

/-- The string decoders look at nothing of the stream's codeset but its translator of characters. -/
theorem decodeString_congr {c c' : Codeset} (h : c.charTranslator = none)
    (h' : c'.charTranslator = none) :
    readString c = readString c' ∧ readStdString c = readStdString c' := by
  have harray : readCharArray c = readCharArray c' := by
    funext len
    rw [readCharArray, readCharArray, h, h']
  constructor
  · rw [readString, readString, h, h', harray]
  · rw [readStdString, readStdString, h, h', harray]

/-- The decoders of wide strings do not look at the translator of characters. -/
theorem decodeWstring_congr {c c' : Codeset} (h : c.wcharTranslator = none)
    (h' : c'.wcharTranslator = none) (hmax : c.wcharMaxbytes = c'.wcharMaxbytes) :
    readWstringInto c = readWstringInto c' ∧ readStdWstring c = readStdWstring c' := by
  have harrayInto : readWcharArrayInto c = readWcharArrayInto c' := by
    funext room len
    rw [readWcharArrayInto, readWcharArrayInto, readWcharArrayIInto, readWcharArrayIInto, h, h',
      hmax]
  have harray : readWcharArray c = readWcharArray c' := by
    funext len
    rw [readWcharArray, readWcharArray, readWcharArrayI, readWcharArrayI, h, h', hmax]
  have hskip : skipWchar c = skipWchar c' := by
    rw [skipWchar, skipWchar, hmax]
  constructor
  · rw [readWstringInto, readWstringInto, h, h', harrayInto, hmax]
  · rw [readStdWstring_none h, readStdWstring_none h', harray, hskip, hmax]

section Example

/-- A message of nothing but a length, which is 0. -/
def zeroLength : InputCDR := ⟨8, [0, 0, 0, 0], 8, false, true, 1, 2, Nat.le_of_ble_eq_true rfl⟩

end Example

end InputCDR

end AceTao.Cdr
