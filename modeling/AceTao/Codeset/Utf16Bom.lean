import AceTao.Cdr.Bounds
import AceTao.Cdr.Decoders

/-!
# Wide strings in UTF-16 with a byte order mark

`TAO_UTF16_BOM_Translator` reads wide characters as units of two octets. The first unit of an array
may be a byte order mark, which says how the others are ordered and is not one of them. In a string
of GIOP 1.2 and later the mark is one of the units that are announced, and the number of characters
is one less; in any other array it precedes them.

Every store is checked against the room in its destination, and every load against what is left of
the stream. The unit that may be the mark is looked at in an empty array too: there may be no such
unit, and if there is a mark the number of characters is one less than 0. In front of the
characters the mark takes one unit more than is there to be read, and nobody looks whether it is
(`contained_iff`).
-/

namespace AceTao.Utf16Bom

open Program ByteImage AlignUp Cdr InputCDR

/-! ### The translator -/

/-- The byte order mark, in the order of the host and in the other one. -/
def unicodeBomCorrect : UShort := 0xFEFF

def unicodeBomSwapped : UShort := 0xFFFE

/-- Whether the stream is of GIOP 1.2 or later. -/
def later (s : InputCDR) : Bool := s.majorVersion = 1 && 1 < s.minorVersion

def readWchar : Reader WChar := do
  let s ← Program.get
  if s.giop12 then do
    let len ← read1
    if len = 2 then do
      let sx ← readArray 1 1 2
      -- a `Short` holds the two octets in the order of the host
      pure ((ofImage 2 sx.reverse).signExtend 32)
    else if len = 4 then do
      let buf ← readArray 1 1 4
      let mark : UShort := ofImage 2 (buf.take 2)
      if mark = unicodeBomSwapped then pure ((ofImage 2 (buf.drop 2).reverse).signExtend 32)
      else if mark = unicodeBomCorrect then pure ((ofImage 2 (buf.drop 2)).setWidth 32)
      else Program.throw .content
    else Program.throw .content
  else do
    let sx ← read2
    pure (sx.setWidth 32)

/-- The loop over `n` units, from the unit `i` on, to an array with room for `room` characters. -/
def readUnits (mustSwap : Bool) (room addr : ℕ) : ℕ → ℕ → Reader (List WChar)
  | 0, _ => pure []
  | n + 1, i => do
    let sb ← load (addr + 2 * i) 2
    let sx : UShort := ofImage 2 (if mustSwap then sb.reverse else sb)
    if i < room then do
      let xs ← readUnits mustSwap room addr n (i + 1)
      pure (sx.setWidth 32 :: xs)
    else Program.undefined

/-- **The units of an array**, with their number, which a mark makes less when `adjustLen` says
so. The mark is looked at whatever the number is. -/
def readWcharArrayI (room : ℕ) (length : ULong) (adjustLen : Bool) :
    Reader (List WChar × ULong) := do
  let buf ← adjust (2 * length.toNat) 2
  let bytes ← load buf 2
  let sb : UShort := ofImage 2 bytes
  if sb = unicodeBomCorrect ∨ sb = unicodeBomSwapped then do
    let length' := if adjustLen then length - 1 else length
    let xs ← readUnits (sb = unicodeBomSwapped) room (buf + 2) length'.toNat 0
    if adjustLen then pure (xs, length')
    else do
      let _ ← Program.attempt (adjust 2 2)
      pure (xs, length')
  else do
    let xs ← readUnits true room buf length.toNat 0
    pure (xs, length)

/-- The loop over `n` characters, from the character `i` on. -/
def readWcharLoop (room : ℕ) : ℕ → ℕ → Reader (List WChar)
  | 0, _ => pure []
  | n + 1, i => do
    let x ← readWchar
    if i < room then do
      let xs ← readWcharLoop room n (i + 1)
      pure (x :: xs)
    else Program.undefined

def readWcharArray (room : ℕ) (length : ULong) : Reader (List WChar) :=
  if length = 0 then pure []
  else do
    let s ← Program.get
    if later s then readWcharLoop room length.toNat 0
    else do
      let (xs, _) ← readWcharArrayI room length false
      pure xs

/-- A string as an array of wide characters. In GIOP 1.2 and later the terminator is not sent. -/
def readWstring : Reader (List WChar) := do
  let len ← read4
  let s ← Program.get
  if 0 < len.toNat ∧ len.toNat ≤ s.length then
    if later s then do
      let (xs, n) ← readWcharArrayI ((len / 2).toNat + 1) (len / 2) true
      if n.toNat < (len / 2).toNat + 1 then pure (xs ++ [0]) else Program.undefined
    else readWcharArray len.toNat len
  else if len = 0 then pure [0]
  else Program.throw .bounds

/-- A string as a `std::wstring`, which is resized before and after. -/
def readStdWstring : Reader (List WChar) := do
  let len ← read4
  let s ← Program.get
  if 0 < len.toNat ∧ len.toNat ≤ s.length then
    if later s then do
      let (xs, n) ← readWcharArrayI (len / 2).toNat (len / 2) true
      pure (xs.take n.toNat)
    else do
      let xs ← readWcharArray len.toNat len
      pure (xs.take (len - 1).toNat)
  else if len = 0 then pure []
  else Program.throw .bounds

/-! ### Units -/

/-- The unit at an address is a byte order mark. -/
def MarkAt (s : InputCDR) (addr : ℕ) : Prop :=
  ofImage 2 (s.bytesAt addr 2) = unicodeBomCorrect ∨
    ofImage 2 (s.bytesAt addr 2) = unicodeBomSwapped

section Units

variable {s t : InputCDR} {mustSwap : Bool} {room addr n i : ℕ}

theorem readUnits_of_fits (hge : s.base ≤ addr) (hend : addr + 2 * (i + n) ≤ s.wrPtr)
    (hroom : i + n ≤ room) :
    ∃ xs, readUnits mustSwap room addr n i s = some (.ok xs, s) ∧ xs.length = n := by
  induction n generalizing i with
  | zero => exact ⟨[], rfl, rfl⟩
  | succ n ih =>
    obtain ⟨xs, hxs, hlen⟩ := ih (i := i + 1) (by omega) (by omega)
    have hload := load_eq (s := s) (n := 2) (hge.trans (Nat.le_add_right addr (2 * i))) (by omega)
    rw [readUnits, bind_of_ok hload, if_pos (show i < room by omega), bind_of_ok hxs]
    exact ⟨_, rfl, congrArg (· + 1) hlen⟩

theorem load_eq_none (h : ¬addr + n ≤ s.wrPtr) : load addr n s = none := by
  rw [load, get_bind_apply, if_neg fun hin => h hin.2]
  rfl

/-- **A loop that is too long** has no answer. -/
theorem readUnits_eq_none (hpos : n ≠ 0) (h : s.wrPtr < addr + 2 * (i + n) ∨ room < i + n) :
    readUnits mustSwap room addr n i s = none := by
  induction n generalizing i with
  | zero => exact absurd rfl hpos
  | succ n ih =>
    rcases hload : load (addr + 2 * i) 2 s with _ | ⟨r, t⟩
    · exact bind_of_none hload
    · have hin : s.base ≤ addr + 2 * i ∧ addr + 2 * i + 2 ≤ s.wrPtr := by
        by_contra hnot
        rw [load, get_bind_apply, if_neg hnot] at hload
        cases hload
      cases (load_eq hin.1 hin.2).symm.trans hload
      refine (bind_of_ok hload).trans ?_
      by_cases hi : i < room
      · rw [if_pos hi]
        exact bind_of_none (ih (by omega) (by omega))
      · rw [if_neg hi]
        rfl

end Units

/-! ### Arrays -/

/-- The stream has been read up to some place. -/
structure MovedTo (s t : InputCDR) : Prop where
  base : t.base = s.base
  data : t.data = s.data
  ge : s.rdPtr ≤ t.rdPtr
  le : t.rdPtr ≤ s.wrPtr

/-- **When an array is read inside the stream and its destination**: there is a unit to look at,
and if it is a mark, it is one of those that were announced, or there is one more. -/
def ArrayFits (s : InputCDR) (addr n : ℕ) (adjustLen : Bool) : Prop :=
  addr + 2 * n ≤ s.wrPtr → addr + 2 ≤ s.wrPtr ∧
    (MarkAt s addr → if adjustLen then n ≠ 0 else addr + 2 * n + 2 ≤ s.wrPtr)

section Arrays

variable {s t : InputCDR} {room : ℕ} {length : ULong} {adjustLen : Bool}

/-- What the adjustment claims. -/
theorem adjust_units (h : InBounds s) (hend : alignUp s.rdPtr 2 + 2 * length.toNat ≤ s.wrPtr) :
    adjust (2 * length.toNat) 2 s = some (.ok (alignUp s.rdPtr 2),
      s.setRdPtr (alignUp s.rdPtr 2 + 2 * length.toNat)) := by
  have hlt := length.isLt
  have hadjust := adjust_eq h isAlign_two (show 2 * length.toNat ≤ 2 ^ 62 by omega)
  rw [valueEnd, if_pos hend] at hadjust
  exact hadjust

/-- **An array behind a mark.** -/
theorem readWcharArrayI_of_mark (h : InBounds s)
    (hend : alignUp s.rdPtr 2 + 2 * length.toNat ≤ s.wrPtr)
    (htwo : alignUp s.rdPtr 2 + 2 ≤ s.wrPtr) (hmark : MarkAt s (alignUp s.rdPtr 2)) :
    ∃ mustSwap, readWcharArrayI room length adjustLen s =
      (readUnits mustSwap room (alignUp s.rdPtr 2 + 2)
        (if adjustLen then length - 1 else length).toNat 0 >>= fun xs =>
          if adjustLen then pure (xs, length - 1)
          else Program.attempt (adjust 2 2) >>= fun _ => pure (xs, length))
        (s.setRdPtr (alignUp s.rdPtr 2 + 2 * length.toNat)) := by
  have hload : load (alignUp s.rdPtr 2) 2 (s.setRdPtr (alignUp s.rdPtr 2 + 2 * length.toNat)) =
      some (.ok (s.bytesAt (alignUp s.rdPtr 2) 2), _) :=
    load_eq (h.ge.trans (le_alignUp two_pos _)) htwo
  refine ⟨decide (ofImage 2 (s.bytesAt (alignUp s.rdPtr 2) 2) = unicodeBomSwapped), ?_⟩
  refine (bind_of_ok (adjust_units h hend)).trans ((bind_of_ok hload).trans ?_)
  refine (congrFun (if_pos hmark) _).trans ?_
  rcases adjustLen with _ | _
  · rfl
  · rfl

/-- An array without a mark. -/
theorem readWcharArrayI_of_not_mark (h : InBounds s)
    (hend : alignUp s.rdPtr 2 + 2 * length.toNat ≤ s.wrPtr)
    (htwo : alignUp s.rdPtr 2 + 2 ≤ s.wrPtr) (hmark : ¬MarkAt s (alignUp s.rdPtr 2)) :
    readWcharArrayI room length adjustLen s =
      (readUnits true room (alignUp s.rdPtr 2) length.toNat 0 >>= fun xs => pure (xs, length))
        (s.setRdPtr (alignUp s.rdPtr 2 + 2 * length.toNat)) := by
  have hload : load (alignUp s.rdPtr 2) 2 (s.setRdPtr (alignUp s.rdPtr 2 + 2 * length.toNat)) =
      some (.ok (s.bytesAt (alignUp s.rdPtr 2) 2), _) :=
    load_eq (h.ge.trans (le_alignUp two_pos _)) htwo
  refine (bind_of_ok (adjust_units h hend)).trans ((bind_of_ok hload).trans ?_)
  exact congrFun (if_neg hmark) _

/-- **An array that does not fit** has no answer. -/
theorem readWcharArrayI_eq_none (h : InBounds s) (hroom : room ≤ length.toNat + 1)
    (hfit : ¬ArrayFits s (alignUp s.rdPtr 2) length.toNat adjustLen) :
    readWcharArrayI room length adjustLen s = none := by
  rw [ArrayFits, Classical.not_imp, not_and_or, Classical.not_imp] at hfit
  obtain ⟨hend, hfit⟩ := hfit
  by_cases htwo : alignUp s.rdPtr 2 + 2 ≤ s.wrPtr
  · obtain ⟨hmark, hbeyond⟩ := hfit.resolve_left (not_not_intro htwo)
    obtain ⟨mustSwap, heq⟩ := @readWcharArrayI_of_mark s room length adjustLen h hend htwo hmark
    rw [heq]
    refine bind_of_none ?_
    rcases adjustLen with _ | _
    · have hlong : ¬alignUp s.rdPtr 2 + 2 * length.toNat + 2 ≤ s.wrPtr := hbeyond
      refine readUnits_eq_none ?_ (Or.inl ?_)
      · change length.toNat ≠ 0
        intro hzero
        rw [hzero] at hlong
        exact hlong htwo
      · change s.wrPtr < alignUp s.rdPtr 2 + 2 + 2 * (0 + length.toNat)
        omega
    · have hzero : length.toNat = 0 := not_not.mp hbeyond
      have hwrap : (length - 1).toNat = 2 ^ 32 - 1 := by
        rw [BitVec.eq_of_toNat_eq (show length.toNat = (0 : ULong).toNat from hzero)]
        rfl
      refine readUnits_eq_none ?_ (Or.inr ?_)
      · change (length - 1).toNat ≠ 0
        omega
      · change room < 0 + (length - 1).toNat
        omega
  · refine (bind_of_ok (adjust_units h hend)).trans (bind_of_none ?_)
    exact load_eq_none htwo

theorem MovedTo.trans (h : MovedTo s t) {u : InputCDR} (h' : MovedTo t u) : MovedTo s u := by
  have hwr : t.wrPtr = s.wrPtr := by rw [wrPtr, wrPtr, h.base, h.data]
  exact ⟨h'.base.trans h.base, h'.data.trans h.data, h.ge.trans h'.ge, hwr ▸ h'.le⟩

theorem movedTo_setRdPtr {p : ℕ} (hp : s.rdPtr ≤ p) (hle : p ≤ s.wrPtr) :
    MovedTo s (s.setRdPtr p) := by
  have hrd := setRdPtr_rdPtr_of_le hle
  refine ⟨rfl, rfl, ?_, ?_⟩
  · rw [hrd]
    exact hp
  · rw [hrd]
    exact hle

/-- Whether there is room behind the units or not. -/
theorem attempt_adjust (h : InBounds s) :
    ∃ r t, Program.attempt (adjust 2 2) s = some (.ok (ε := Failure) r, t) ∧ MovedTo s t := by
  have hadjust := adjust_eq h isAlign_two (show 2 ≤ 2 ^ 62 by norm_num)
  have hge : s.rdPtr ≤ s.valueEnd 2 2 := rdPtr_le_valueEnd isAlign_two
  rw [Program.attempt, hadjust]
  split_ifs with hend
  · exact ⟨_, _, rfl, movedTo_setRdPtr hge hend⟩
  · exact ⟨_, _, rfl, rfl, rfl, le_rfl, h.le⟩

/-- **An array that fits.** -/
theorem readWcharArrayI_of_fits (h : InBounds s) (hroom : length.toNat ≤ room)
    (hend : alignUp s.rdPtr 2 + 2 * length.toNat ≤ s.wrPtr)
    (hfit : ArrayFits s (alignUp s.rdPtr 2) length.toNat adjustLen) :
    ∃ xs n t, readWcharArrayI room length adjustLen s = some (.ok (xs, n), t) ∧ MovedTo s t ∧
      n.toNat ≤ length.toNat := by
  obtain ⟨htwo, hbehind⟩ := hfit hend
  have hge := h.ge.trans (le_alignUp two_pos s.rdPtr)
  have hle := (le_alignUp two_pos s.rdPtr).trans (Nat.le_add_right _ (2 * length.toNat))
  have hmoved := movedTo_setRdPtr hle hend
  have hu := h.setRdPtr hle hend
  by_cases hmark : MarkAt s (alignUp s.rdPtr 2)
  · obtain ⟨mustSwap, heq⟩ := @readWcharArrayI_of_mark s room length adjustLen h hend htwo hmark
    have hmore := hbehind hmark
    rw [heq]
    rcases adjustLen with _ | _
    · have hlong : alignUp s.rdPtr 2 + 2 * length.toNat + 2 ≤ s.wrPtr := hmore
      obtain ⟨xs, hxs, -⟩ := @readUnits_of_fits
        (s.setRdPtr (alignUp s.rdPtr 2 + 2 * length.toNat)) mustSwap room (alignUp s.rdPtr 2 + 2)
        length.toNat 0 (hge.trans (Nat.le_add_right _ 2))
        (by rw [setRdPtr_wrPtr]; omega) (by omega)
      obtain ⟨r, t, hadjust, ht⟩ := attempt_adjust hu
      exact ⟨xs, length, t, (bind_of_ok hxs).trans (bind_of_ok hadjust), hmoved.trans ht, le_rfl⟩
    · have hpos : length.toNat ≠ 0 := hmore
      have hone : (length - 1).toNat + 1 = length.toNat :=
        toNat_sub_one fun hzero => hpos (hzero ▸ rfl)
      obtain ⟨xs, hxs, -⟩ := @readUnits_of_fits
        (s.setRdPtr (alignUp s.rdPtr 2 + 2 * length.toNat)) mustSwap room (alignUp s.rdPtr 2 + 2)
        (length - 1).toNat 0 (hge.trans (Nat.le_add_right _ 2))
        (by rw [setRdPtr_wrPtr]; omega) (by omega)
      exact ⟨xs, length - 1, _, bind_of_ok hxs, hmoved, by omega⟩
  · obtain ⟨xs, hxs, -⟩ := @readUnits_of_fits
      (s.setRdPtr (alignUp s.rdPtr 2 + 2 * length.toNat)) true room (alignUp s.rdPtr 2)
      length.toNat 0 hge (by rw [setRdPtr_wrPtr]; omega) (by omega)
    rw [readWcharArrayI_of_not_mark h hend htwo hmark]
    exact ⟨xs, length, _, bind_of_ok hxs, hmoved, le_rfl⟩

/-- **An array** is read inside the stream and its destination, or has no answer. -/
theorem readWcharArrayI_cases (h : InBounds s) (hroom : length.toNat ≤ room)
    (hroom' : room ≤ length.toNat + 1) :
    (¬ArrayFits s (alignUp s.rdPtr 2) length.toNat adjustLen ∧
      readWcharArrayI room length adjustLen s = none) ∨
    (ArrayFits s (alignUp s.rdPtr 2) length.toNat adjustLen ∧
      ∃ r t, readWcharArrayI room length adjustLen s = some (r, t) ∧ MovedTo s t ∧
        ∀ xs n, r = .ok (xs, n) → n.toNat ≤ length.toNat) := by
  by_cases hfit : ArrayFits s (alignUp s.rdPtr 2) length.toNat adjustLen
  · refine Or.inr ⟨hfit, ?_⟩
    by_cases hend : alignUp s.rdPtr 2 + 2 * length.toNat ≤ s.wrPtr
    · obtain ⟨xs, n, t, heq, ht, hn⟩ := readWcharArrayI_of_fits h hroom hend hfit
      refine ⟨_, t, heq, ht, ?_⟩
      rintro ys m ⟨⟩
      exact hn
    · have hlt := length.isLt
      have hadjust := adjust_eq h isAlign_two (show 2 * length.toNat ≤ 2 ^ 62 by omega)
      rw [valueEnd, if_neg hend] at hadjust
      exact ⟨_, _, bind_of_error hadjust, ⟨rfl, rfl, le_rfl, h.le⟩, fun _ _ => (fun h => by cases h)⟩
  · exact Or.inl ⟨hfit, readWcharArrayI_eq_none h hroom' hfit⟩

theorem safeAt_of_movedTo {α : Type} {m : Reader α} {r : Except Failure α}
    (heq : m s = some (r, t)) (h : MovedTo s t) : SafeAt m s fun _ => True :=
  ⟨r, t, heq, h.base, h.data, h.ge, h.le, fun _ => trivial⟩

theorem not_safeAt_of_none {α : Type} {m : Reader α} (heq : m s = none) :
    ¬SafeAt m s fun _ => True := by
  rintro ⟨r, t, hsome, -⟩
  cases heq.symm.trans hsome

/-- A single character. -/
theorem safeAt_readWchar (h : InBounds s) : SafeAt readWchar s fun _ => True := by
  refine safeAt_get_bind.mpr (safeAt_ite (fun _ => ?_) fun _ => ?_)
  · refine ((safeAt_read1 h).mono fun _ _ => trivial).bind h fun len t _ ht => ?_
    refine safeAt_ite (fun _ => ?_) fun _ => safeAt_ite (fun _ => ?_) fun _ => safeAt_throw ht nofun
    · have hread : SafeAt (readArray 1 1 2) t (· = t.rdPtr) :=
        safeAt_readArray ht isAlign_one (by norm_num)
      exact (hread.mono fun _ _ => trivial).bind ht fun _ _ _ hu => safeAt_pure hu _
    · have hread : SafeAt (readArray 1 1 4) t (· = t.rdPtr) :=
        safeAt_readArray ht isAlign_one (by norm_num)
      refine (hread.mono fun _ _ => trivial).bind ht fun _ _ _ hu => ?_
      exact safeAt_ite (fun _ => safeAt_pure hu _) fun _ =>
        safeAt_ite (fun _ => safeAt_pure hu _) fun _ => safeAt_throw hu nofun
  · exact ((safeAt_read2 h).mono fun _ _ => trivial).bind h fun _ _ _ ht => safeAt_pure ht _

theorem safeAt_readWcharLoop (h : InBounds s) {n i : ℕ} (hroom : i + n ≤ room) :
    SafeAt (readWcharLoop room n i) s fun _ => True := by
  induction n generalizing i s with
  | zero => exact safeAt_pure h []
  | succ n ih =>
    refine (safeAt_readWchar h).bind h fun x t _ ht => ?_
    rw [if_pos (by omega)]
    exact (ih ht (by omega)).bind ht fun _ _ _ hu => safeAt_pure hu _

/-- **An array** that the caller has given. -/
theorem readWcharArray_cases (h : InBounds s) :
    (¬(length ≠ 0 → later s = false → ArrayFits s (alignUp s.rdPtr 2) length.toNat false) ∧
      readWcharArray length.toNat length s = none) ∨
    ((length ≠ 0 → later s = false → ArrayFits s (alignUp s.rdPtr 2) length.toNat false) ∧
      SafeAt (readWcharArray length.toNat length) s fun _ => True) := by
  rw [readWcharArray]
  by_cases hzero : length = 0
  · rw [if_pos hzero]
    exact Or.inr ⟨fun hpos => absurd hzero hpos, safeAt_pure h _⟩
  · rw [if_neg hzero, safeAt_get_bind, get_bind_apply]
    rcases hlater : later s with _ | _
    · rw [if_neg Bool.false_ne_true]
      rcases @readWcharArrayI_cases s length.toNat length false h le_rfl (Nat.le_succ _) with
        ⟨hfit, hnone⟩ | ⟨hfit, r, t, heq, ht, -⟩
      · exact Or.inl ⟨fun hall => hfit (hall hzero rfl), bind_of_none hnone⟩
      · refine Or.inr ⟨fun _ _ => hfit, ?_⟩
        rcases r with e | ⟨xs, n⟩
        · exact safeAt_of_movedTo (bind_of_error heq) ht
        · exact safeAt_of_movedTo (bind_of_ok heq) ht
    · rw [if_pos rfl]
      exact Or.inr ⟨fun _ => nofun, safeAt_readWcharLoop h (Nat.zero_add _).le⟩

theorem safeAt_readWcharArray_iff (h : InBounds s) :
    SafeAt (readWcharArray length.toNat length) s (fun _ => True) ↔
      (length ≠ 0 → later s = false → ArrayFits s (alignUp s.rdPtr 2) length.toNat false) := by
  rcases @readWcharArray_cases s length h with ⟨hfit, hnone⟩ | ⟨hfit, hsafe⟩
  · exact iff_of_false (not_safeAt_of_none hnone) hfit
  · exact iff_of_true hsafe hfit

end Arrays

/-! ### Strings -/

section Strings

variable {s t : InputCDR}

/-- The units of a string need no alignment behind its length. -/
theorem alignUp_afterLength (hend : s.valueEnd 4 4 ≤ s.wrPtr) :
    alignUp s.afterLength.rdPtr 2 = s.valueEnd 4 4 := by
  rw [afterLength_rdPtr hend]
  refine alignUp_of_dvd two_pos ?_
  have hdvd := dvd_alignUp s.rdPtr 4
  rw [valueEnd]
  omega

/-- How the units of a string are read. -/
def unitsOf (s : InputCDR) : ULong := if later s then s.nextLength / 2 else s.nextLength

/-- **Both forms** read the length and then the units, unless there are none. -/
theorem safeAt_string_iff {m : Reader (List WChar)} {f : ULong → InputCDR → Reader (List WChar)}
    {x : List WChar} (h : InBounds s)
    (hm : m = read4 >>= fun len => Program.get >>= fun t =>
      if 0 < len.toNat ∧ len.toNat ≤ t.length then f len t
      else if len = 0 then pure x else Program.throw .bounds)
    (hf : s.valueEnd 4 4 ≤ s.wrPtr → s.nextLength ≠ 0 →
      (¬ArrayFits s (s.valueEnd 4 4) (unitsOf s).toNat (later s) ∧
        f s.nextLength s.afterLength s.afterLength = none) ∨
      (ArrayFits s (s.valueEnd 4 4) (unitsOf s).toNat (later s) ∧
        SafeAt (f s.nextLength s.afterLength) s.afterLength fun _ => True)) :
    SafeAt m s (fun _ => True) ↔ (s.valueEnd 4 4 ≤ s.wrPtr → s.nextLength ≠ 0 →
      s.valueEnd 4 4 + s.nextLength.toNat ≤ s.wrPtr →
        ArrayFits s (s.valueEnd 4 4) (unitsOf s).toNat (later s)) := by
  subst hm
  by_cases hend : s.valueEnd 4 4 ≤ s.wrPtr
  · have ht := h.afterLength hend
    have hlength := afterLength_length h hend
    have hread : read4 s = some (.ok s.nextLength, s.afterLength) := readUlong_of_fits h hend
    have hmoved : MovedTo s s.afterLength := movedTo_setRdPtr (rdPtr_le_valueEnd isAlign_four) hend
    by_cases hzero : s.nextLength = 0
    · have hnot : ¬(0 < s.nextLength.toNat ∧ s.nextLength.toNat ≤ s.afterLength.length) := by
        rw [hzero]
        exact fun hpos => absurd hpos.1 (lt_irrefl 0)
      refine iff_of_true ?_ fun _ hpos => absurd hzero hpos
      refine safeAt_of_movedTo (r := .ok x) ((bind_of_ok hread).trans ?_) hmoved
      rw [get_bind_apply, if_neg hnot, if_pos hzero]
      rfl
    · have hpos : 0 < s.nextLength.toNat :=
        Nat.pos_of_ne_zero fun h0 => hzero (BitVec.eq_of_toNat_eq h0)
      by_cases hle : s.valueEnd 4 4 + s.nextLength.toNat ≤ s.wrPtr
      · have hrun : (read4 >>= fun len => Program.get >>= fun t =>
            if 0 < len.toNat ∧ len.toNat ≤ t.length then f len t
            else if len = 0 then pure x else Program.throw .bounds) s =
            f s.nextLength s.afterLength s.afterLength := by
          refine (bind_of_ok hread).trans ?_
          rw [get_bind_apply, if_pos ⟨hpos, by omega⟩]
        rcases hf hend hzero with ⟨hfit, hnone⟩ | ⟨hfit, r, u, heq, hbase, hdata, hge, hle', -⟩
        · exact iff_of_false (not_safeAt_of_none (hrun.trans hnone)) fun hall =>
            hfit (hall hend hzero hle)
        · exact iff_of_true (safeAt_of_movedTo (hrun.trans heq)
            (hmoved.trans ⟨hbase, hdata, hge, hle'⟩)) fun _ _ _ => hfit
      · refine iff_of_true ?_ fun _ _ hthere => absurd hthere hle
        refine safeAt_of_movedTo (r := .error .bounds) ((bind_of_ok hread).trans ?_) hmoved
        rw [get_bind_apply, if_neg (fun hthere => hle (by omega)), if_neg hzero]
        rfl
  · refine iff_of_true ?_ fun hthere => absurd hthere hend
    exact safeAt_of_movedTo (bind_of_error (readUlong_of_not_fits h hend))
      ⟨rfl, rfl, le_rfl, h.le⟩

/-- The condition on a string. -/
def StringFits (s : InputCDR) : Prop :=
  s.valueEnd 4 4 ≤ s.wrPtr → s.nextLength ≠ 0 → s.valueEnd 4 4 + s.nextLength.toNat ≤ s.wrPtr →
    ArrayFits s (s.valueEnd 4 4) (unitsOf s).toNat (later s)

/-- The part of a string of GIOP 1.1 that is an array. -/
theorem readWcharArray_afterLength (h : InBounds s) (hend : s.valueEnd 4 4 ≤ s.wrPtr)
    (hpos : s.nextLength ≠ 0) (hlater : later s = false) :
    (¬ArrayFits s (s.valueEnd 4 4) (unitsOf s).toNat (later s) ∧
      readWcharArray s.nextLength.toNat s.nextLength s.afterLength = none) ∨
    (ArrayFits s (s.valueEnd 4 4) (unitsOf s).toNat (later s) ∧
      SafeAt (readWcharArray s.nextLength.toNat s.nextLength) s.afterLength fun _ => True) := by
  have hcases := @readWcharArray_cases s.afterLength s.nextLength (h.afterLength hend)
  rw [alignUp_afterLength hend] at hcases
  rw [unitsOf, hlater, if_neg Bool.false_ne_true]
  refine hcases.imp (And.imp_left fun hnot hfit => hnot fun _ _ => hfit)
    (And.imp_left fun hall => hall hpos hlater)

/-- The part of a string of GIOP 1.2 that is an array. -/
theorem readWcharArrayI_afterLength (h : InBounds s) (hend : s.valueEnd 4 4 ≤ s.wrPtr)
    (hlater : later s = true) {room : ℕ} (hroom : (s.nextLength / 2).toNat ≤ room)
    (hroom' : room ≤ (s.nextLength / 2).toNat + 1) :
    (¬ArrayFits s (s.valueEnd 4 4) (unitsOf s).toNat (later s) ∧
      readWcharArrayI room (s.nextLength / 2) true s.afterLength = none) ∨
    (ArrayFits s (s.valueEnd 4 4) (unitsOf s).toNat (later s) ∧
      ∃ r t, readWcharArrayI room (s.nextLength / 2) true s.afterLength = some (r, t) ∧
        MovedTo s.afterLength t ∧
        ∀ xs n, r = .ok (xs, n) → n.toNat ≤ (s.nextLength / 2).toNat) := by
  have hcases := @readWcharArrayI_cases s.afterLength room (s.nextLength / 2) true
    (h.afterLength hend) hroom hroom'
  rw [alignUp_afterLength hend] at hcases
  rw [unitsOf, hlater, if_pos rfl]
  exact hcases

theorem safeAt_readWstring_iff (h : InBounds s) :
    SafeAt readWstring s (fun _ => True) ↔ StringFits s := by
  refine safeAt_string_iff h rfl fun hend hpos => ?_
  by_cases hlater : later s.afterLength = true
  · rw [if_pos hlater]
    rcases readWcharArrayI_afterLength h hend hlater (Nat.le_succ _) le_rfl with
      ⟨hfit, hnone⟩ | ⟨hfit, r, t, heq, ht, hle⟩
    · exact Or.inl ⟨hfit, bind_of_none hnone⟩
    · refine Or.inr ⟨hfit, ?_⟩
      rcases r with e | ⟨xs, n⟩
      · exact safeAt_of_movedTo (bind_of_error heq) ht
      · have hlt := Nat.lt_succ_of_le (hle xs n rfl)
        refine safeAt_of_movedTo (r := .ok (xs ++ [0])) ((bind_of_ok heq).trans ?_) ht
        exact congrFun (if_pos hlt) t
  · rw [if_neg hlater]
    exact readWcharArray_afterLength h hend hpos (Bool.eq_false_of_not_eq_true hlater)

theorem safeAt_readStdWstring_iff (h : InBounds s) :
    SafeAt readStdWstring s (fun _ => True) ↔ StringFits s := by
  refine safeAt_string_iff h rfl fun hend hpos => ?_
  by_cases hlater : later s.afterLength = true
  · rw [if_pos hlater]
    rcases readWcharArrayI_afterLength h hend hlater le_rfl (Nat.le_succ _) with
      ⟨hfit, hnone⟩ | ⟨hfit, r, t, heq, ht, -⟩
    · exact Or.inl ⟨hfit, bind_of_none hnone⟩
    · refine Or.inr ⟨hfit, ?_⟩
      rcases r with e | ⟨xs, n⟩
      · exact safeAt_of_movedTo (bind_of_error heq) ht
      · exact safeAt_of_movedTo (bind_of_ok heq) ht
  · rw [if_neg hlater]
    rcases readWcharArray_afterLength h hend hpos (Bool.eq_false_of_not_eq_true hlater) with
      ⟨hfit, hnone⟩ | ⟨hfit, r, t, heq, hbase, hdata, hge, hle, -⟩
    · exact Or.inl ⟨hfit, bind_of_none hnone⟩
    · refine Or.inr ⟨hfit, ?_⟩
      rcases r with e | xs
      · exact safeAt_of_movedTo (bind_of_error heq) ⟨hbase, hdata, hge, hle⟩
      · exact safeAt_of_movedTo (bind_of_ok heq) ⟨hbase, hdata, hge, hle⟩

end Strings

/-! ### What is left of the stream -/

theorem fits_remaining (s : InputCDR) (h : InBounds s) :
    s.rdPtr + (s.data.drop (s.rdPtr - s.base)).length ≤ addressLimit := by
  have hge := h.ge
  have hle := h.le
  have hfits := s.fits
  rw [wrPtr] at hle
  rw [List.length_drop]
  omega

/-- **What is left of a stream**, as a stream. -/
def remaining (s : InputCDR) (h : InBounds s) : InputCDR :=
  { s with
    base := s.rdPtr
    data := s.data.drop (s.rdPtr - s.base)
    fits := fits_remaining s h }

/-- One more unit is there behind `n` units, if the first of them is a mark. -/
def UnitBehind (s : InputCDR) (addr n : ℕ) : Prop :=
  addr + 2 * n ≤ s.wrPtr → MarkAt s addr → addr + 2 * n + 2 ≤ s.wrPtr

/-- **The streams on which the operations stay inside their bounds**: in GIOP 1.2 and later a string
of one octet is followed by another octet, and the two are not a mark; before GIOP 1.2 a mark in
front of a string or an array that is there is not the last but `n` of the units. -/
structure Fits (s : InputCDR) (length : ULong) : Prop where
  short : later s = true → s.valueEnd 4 4 + 1 ≤ s.wrPtr → s.nextLength = 1 →
    s.valueEnd 4 4 + 2 ≤ s.wrPtr ∧ ¬MarkAt s (s.valueEnd 4 4)
  string : later s = false → s.valueEnd 4 4 ≤ s.wrPtr → s.nextLength ≠ 0 →
    UnitBehind s (s.valueEnd 4 4) s.nextLength.toNat
  array : later s = false → length ≠ 0 → UnitBehind s (alignUp s.rdPtr 2) length.toNat

/-- A string with a mark whose number of characters, without it, is less than 0. -/
def BelowZero (s : InputCDR) : Prop :=
  later s = true ∧ 0 < s.nextLength.toNat ∧ s.valueEnd 4 4 + s.nextLength.toNat ≤ s.wrPtr ∧
    s.valueEnd 4 4 + 2 ≤ s.wrPtr ∧ MarkAt s (s.valueEnd 4 4) ∧ s.nextLength / 2 = 0

/-- **The operations stay inside their bounds**: both forms of a string, and an array of `length`
characters, load what is left of the stream only and store into their destination only, and the
number of characters does not drop below 0. -/
structure Contained (s : InputCDR) (h : InBounds s) (length : ULong) : Prop where
  wstring : SafeAt readWstring (remaining s h) fun _ => True
  stdWstring : SafeAt readStdWstring (remaining s h) fun _ => True
  wcharArray : SafeAt (readWcharArray length.toNat length) (remaining s h) fun _ => True
  notBelowZero : ¬BelowZero s

section Remaining

variable {s : InputCDR} {length : ULong}

theorem remaining_wrPtr (h : InBounds s) : (remaining s h).wrPtr = s.wrPtr := by
  have hge := h.ge
  have hle := h.le
  rw [wrPtr] at hle
  change s.rdPtr + (s.data.drop (s.rdPtr - s.base)).length = s.base + s.data.length
  rw [List.length_drop]
  omega

theorem remaining_inBounds (h : InBounds s) : InBounds (remaining s h) :=
  ⟨le_rfl, (remaining_wrPtr h).symm ▸ h.le⟩

theorem remaining_bytesAt (h : InBounds s) {addr : ℕ} (haddr : s.rdPtr ≤ addr) (n : ℕ) :
    (remaining s h).bytesAt addr n = s.bytesAt addr n := by
  have hge := h.ge
  have hsum : s.rdPtr - s.base + (addr - s.rdPtr) = addr - s.base := by omega
  change ((s.data.drop (s.rdPtr - s.base)).drop (addr - s.rdPtr)).take n = _
  rw [List.drop_drop, hsum]
  rfl

theorem remaining_nextLength (h : InBounds s) : (remaining s h).nextLength = s.nextLength := by
  have hbytes := remaining_bytesAt h (le_alignUp four_pos s.rdPtr) 4
  rw [nextLength, nextLength]
  exact congrArg (fun bytes => ofImage 4 (s.native bytes)) hbytes

theorem remaining_arrayFits (h : InBounds s) {addr : ℕ} (haddr : s.rdPtr ≤ addr) (n : ℕ)
    (adjustLen : Bool) :
    ArrayFits (remaining s h) addr n adjustLen ↔ ArrayFits s addr n adjustLen := by
  rw [ArrayFits, ArrayFits, remaining_wrPtr, MarkAt, MarkAt, remaining_bytesAt h haddr]

/-- An array that is not empty has a first unit. -/
theorem arrayFits_iff_unitBehind {addr n : ℕ} (hpos : n ≠ 0) :
    ArrayFits s addr n false ↔ UnitBehind s addr n := by
  constructor
  · exact fun hfit hend hmark => (hfit hend).2 hmark
  · exact fun hbehind hend => ⟨by omega, hbehind hend⟩

/-- Half of a length. -/
theorem toNat_half (len : ULong) : (len / 2).toNat = len.toNat / 2 := BitVec.toNat_udiv

/-- **The condition on a string**, by the version. -/
theorem stringFits_iff : StringFits s ↔
    (later s = true → s.valueEnd 4 4 + 1 ≤ s.wrPtr → s.nextLength = 1 →
      s.valueEnd 4 4 + 2 ≤ s.wrPtr ∧ ¬MarkAt s (s.valueEnd 4 4)) ∧
    (later s = false → s.valueEnd 4 4 ≤ s.wrPtr → s.nextLength ≠ 0 →
      UnitBehind s (s.valueEnd 4 4) s.nextLength.toNat) := by
  have hzero : s.nextLength ≠ 0 ↔ s.nextLength.toNat ≠ 0 :=
    not_congr ⟨congrArg BitVec.toNat, fun heq => BitVec.eq_of_toNat_eq heq⟩
  have hone : s.nextLength = 1 ↔ s.nextLength.toNat = 1 :=
    ⟨congrArg BitVec.toNat, fun heq => BitVec.eq_of_toNat_eq heq⟩
  rw [StringFits, unitsOf]
  rcases later s with _ | _
  · rw [if_neg Bool.false_ne_true]
    constructor
    · intro hfit
      refine ⟨nofun, fun _ hend hpos hthere => ?_⟩
      have hpos' := hzero.mp hpos
      exact (arrayFits_iff_unitBehind hpos').mp (hfit hend hpos (by omega)) hthere
    · rintro ⟨-, hbehind⟩ hend hpos -
      exact (arrayFits_iff_unitBehind (hzero.mp hpos)).mpr (hbehind rfl hend hpos)
  · rw [if_pos rfl, toNat_half]
    constructor
    · intro hfit
      refine ⟨fun _ hend hlen => ?_, nofun⟩
      rw [hone] at hlen
      have hhalf := hfit (by omega) (hzero.mpr (by omega)) (by omega)
      rw [hlen] at hhalf
      obtain ⟨htwo, hmark⟩ := hhalf (by omega)
      exact ⟨htwo, fun hthere => hmark hthere rfl⟩
    · rintro ⟨hshort, -⟩ hend hpos hle hunits
      have hpos' := hzero.mp hpos
      by_cases hlen : s.nextLength.toNat = 1
      · obtain ⟨htwo, hmark⟩ := hshort rfl (by omega) (hone.mpr hlen)
        exact ⟨htwo, fun hthere => absurd hthere hmark⟩
      · refine ⟨by omega, fun _ => ?_⟩
        change s.nextLength.toNat / 2 ≠ 0
        omega

theorem remaining_stringFits (h : InBounds s) : StringFits (remaining s h) ↔ StringFits s := by
  have hplace : s.rdPtr ≤ s.valueEnd 4 4 := rdPtr_le_valueEnd isAlign_four
  rw [StringFits, StringFits, unitsOf, unitsOf, remaining_nextLength, remaining_wrPtr]
  exact imp_congr_right fun _ => imp_congr_right fun _ => imp_congr_right fun _ =>
    remaining_arrayFits h hplace _ _

/-- **When the operations stay inside their bounds.** -/
theorem contained_iff (h : InBounds s) (length : ULong) :
    Contained s h length ↔ Fits s length := by
  have hin := remaining_inBounds h
  have hplace : s.rdPtr ≤ alignUp s.rdPtr 2 := le_alignUp two_pos _
  have hpos : length ≠ 0 → length.toNat ≠ 0 := fun hne hzero => hne (BitVec.eq_of_toNat_eq hzero)
  have hstring := (remaining_stringFits h).trans stringFits_iff
  constructor
  · intro hc
    obtain ⟨hshort, hlong⟩ := hstring.mp ((safeAt_readWstring_iff hin).mp hc.wstring)
    refine ⟨hshort, hlong, fun hlater hne => ?_⟩
    have harray := (safeAt_readWcharArray_iff hin).mp hc.wcharArray hne hlater
    exact (arrayFits_iff_unitBehind (hpos hne)).mp ((remaining_arrayFits h hplace _ _).mp harray)
  · intro hfit
    have hboth := hstring.mpr ⟨hfit.short, hfit.string⟩
    refine ⟨(safeAt_readWstring_iff hin).mpr hboth, (safeAt_readStdWstring_iff hin).mpr hboth,
      (safeAt_readWcharArray_iff hin).mpr fun hne hlater => ?_, ?_⟩
    · exact (remaining_arrayFits h hplace _ _).mpr
        ((arrayFits_iff_unitBehind (hpos hne)).mpr (hfit.array hlater hne))
    · rintro ⟨hlater, hlen, hend, -, hmark, hhalf⟩
      have hzero := congrArg BitVec.toNat hhalf
      rw [toNat_half] at hzero
      change s.nextLength.toNat / 2 = 0 at hzero
      have hone : s.nextLength = 1 := BitVec.eq_of_toNat_eq (by
        change s.nextLength.toNat = 1
        omega)
      exact (hfit.short hlater (by omega) hone).2 hmark

end Remaining

section Example

theorem fits_message (octets : List UInt8) (h : octets.length < 100) :
    8 + octets.length ≤ addressLimit := by
  rw [addressLimit]
  omega

/-- A message of a length and some octets. -/
def message (minorVersion : UInt8) (octets : List UInt8) (h : octets.length < 100) : InputCDR :=
  ⟨8, octets, 8, false, true, 1, minorVersion, fits_message octets h⟩

theorem message_inBounds (minorVersion : UInt8) (octets : List UInt8)
    (h : octets.length < 100) : InBounds (message minorVersion octets h) :=
  ⟨le_rfl, Nat.le_add_right _ _⟩

/-- A string of GIOP 1.2, of a mark and a letter. -/
theorem contained_iff_letter :
    Contained (message 2 [4, 0, 0, 0, 0xFF, 0xFE, 0x48, 0] (by decide)) (message_inBounds ..) 1 ↔
      Fits (message 2 [4, 0, 0, 0, 0xFF, 0xFE, 0x48, 0] (by decide)) 1 :=
  contained_iff _ 1

/-- **One octet in front of a mark**: the number of characters drops below 0, and they are stored
behind the array. -/
theorem not_contained_mark : ¬∀ s h length, Contained s h length := by
  intro hall
  have hin := message_inBounds 2 [1, 0, 0, 0, 0xFF, 0xFE] (by decide)
  have hsafe := (hall _ hin 0).wstring
  have hfit := (remaining_stringFits hin).mp
    ((safeAt_readWstring_iff (remaining_inBounds hin)).mp hsafe)
  obtain ⟨-, hmark⟩ := (stringFits_iff.mp hfit).1 rfl (by decide) (by decide)
  exact hmark (Or.inl (by decide))

end Example

end AceTao.Utf16Bom
