import AceTao.Cdr.ReadBack
import AceTao.Cdr.Wide

/-!
# Reading wide characters back

Where the bytes of a wide character or of a wide string follow, it is read back
(`InputCDR.reads_readWide`), in the byte order of the host, under three conditions (`Wide.Good`):

* the length of a string fits in a `ULong`, in the unit of the GIOP version;
* a character of two bytes in GIOP 1.2 is below 2¹⁵, because it is read through a `Short`;
* a string of one-byte characters in GIOP 1.1 is not read as a `std::wstring`, because its
  terminator is skipped as a character of four bytes.
-/

namespace AceTao.Cdr

open Program ByteImage AlignUp

/-- The characters of a value. -/
def Wide.chars : Wide → List WChar
  | .wchar x => [x]
  | .wstring cs _ => cs

/-- The characters have `n` bytes. -/
def Wide.Fits (n : ℕ) (x : Wide) : Prop := ∀ c ∈ x.chars, c.toNat < 256 ^ n

/-- The length of a string is a `ULong`, in bytes or with the terminator. -/
def Wide.Countable (n : ℕ) (giop12 : Bool) : Wide → Prop
  | .wchar _ => True
  | .wstring cs _ => (if giop12 then n * cs.length else cs.length + 1) < 2 ^ 32

/-- A character is not negative as a `Short`. -/
def Wide.Positive : Wide → Prop
  | .wchar x => x.toNat < 2 ^ 15
  | .wstring _ _ => True

/-- A value is read as a `std::wstring`. -/
def Wide.ReadAsStd : Wide → Access → Prop
  | .wchar _, _ => False
  | .wstring _ _, a => a.read = .stdWstring

/-- **A value that is read back.** -/
structure Wide.Good (n : ℕ) (giop12 : Bool) (x : Wide) (a : Access) : Prop where
  countable : x.Countable n giop12
  positive : giop12 = true → n = 2 → x.Positive
  terminated : giop12 = false → n = 1 → ¬x.ReadAsStd a

/-- What is read: a character, or a string with or without its terminator. -/
def Wide.expected : Wide → Access → List WChar
  | .wchar x, _ => [x]
  | .wstring cs _, ⟨_, .wchars, _⟩ => cs ++ [0]
  | .wstring cs _, ⟨_, .stdWstring, _⟩ => cs

namespace InputCDR

/-- The operation that reads a wide value. -/
def readWide (n : ℕ) : Wide → Access → Reader (List WChar)
  | .wchar _, a => do
    let x ← readWchar (.plain n) a.stale
    pure [x]
  | .wstring _ _, ⟨_, .wchars, _⟩ => readWstring (.plain n)
  | .wstring _ _, ⟨_, .stdWstring, _⟩ => readStdWstring (.plain n)

variable {swap : Bool} {s : InputCDR} {w : Wire} {n : ℕ}

/-! ### Characters -/

theorem reads_readUlong (h : At swap s w) {x : ULong}
    (hput : Agrees s (put 4 (wireImage 4 swap x) w)) :
    Reads swap readUlong x s (put 4 (wireImage 4 swap x) w) :=
  @reads_readWord swap s w 4 4 h isAlign_four (by norm_num) x hput

/-- The bytes of a character, as an array of one element. -/
theorem reads_octets (h : At swap s w) (hn : IsWidth n) {x : BitVec (8 * n)}
    (hput : Agrees s (put 1 (wireImage n swap x) w)) :
    Reads swap (readArray n 1 1) (image n x) s (put 1 (wireImage n swap x) w) := by
  have hreads := @reads_readArray swap s w n 1 h isAlign_one hn.size_cases [x] (by norm_num)
  rw [putArray, if_neg (List.cons_ne_nil _ _), List.flatMap_singleton, arrayImage_cons,
    arrayImage_nil, List.append_nil] at hreads
  exact hreads hput

theorem overlay_image (x stale : WChar) : overlay (image 4 x) stale = x := by
  have himage : ofImage 4 (image 4 x) = x := @ofImage_image 4 x
  have hlen : (image 4 x).length = 4 := length_leBytes 4 _
  rw [overlay, List.take_left' hlen, himage]

/-- One byte of a character, in front of what the destination held before. -/
theorem overlay_one (x : Octet) (stale : WChar) :
    ((overlay (image 1 x) stale).setWidth 8).setWidth 32 = x.setWidth 32 := by
  have hx := x.isLt
  have himage : image 1 x = [UInt8.ofNat x.toNat] := rfl
  have hcons : overlay (image 1 x) stale =
      ofImage 4 (UInt8.ofNat x.toNat :: ((image 4 stale).drop 1).take 3) := by
    rw [overlay, himage]
    rfl
  rw [hcons, ofImage, ofLeBytes]
  refine BitVec.eq_of_toNat_eq ?_
  simp only [BitVec.toNat_setWidth, BitVec.toNat_ofNat, UInt8.toNat_ofNat']
  omega

/-- A character that is not negative keeps its value. -/
theorem signExtend_narrow {x : WChar} (h : x.toNat < 2 ^ 15) : (narrow 2 x).signExtend 32 = x := by
  have hnat : (narrow 2 x).toNat = x.toNat := by
    rw [narrow, BitVec.toNat_setWidth]
    exact Nat.mod_eq_of_lt (h.trans (by norm_num))
  have hmsb : (narrow 2 x).msb = false := by
    rw [BitVec.msb_eq_decide, hnat]
    exact decide_eq_false (Nat.not_le.mpr h)
  refine BitVec.eq_of_toNat_eq ?_
  rw [BitVec.toNat_signExtend, hmsb, if_neg Bool.false_ne_true, Nat.add_zero,
    BitVec.toNat_setWidth, hnat, Nat.mod_eq_of_lt x.isLt]

/-- The size of a character in GIOP 1.2, and its bytes. -/
def putSized (swap : Bool) (n : ℕ) (x : WChar) (w : Wire) : Wire :=
  put 1 (wireImage n swap (narrow n x)) (put 1 (image 1 (BitVec.ofNat 8 n)) w)

theorem reads_sized {m : Octet → Reader WChar} (h : At swap s w) (hn : IsWidth n) {x y : WChar}
    (hput : Agrees s (putSized swap n x w))
    (hm : ∀ t, Reads swap (readArray n 1 1) (image n (narrow n x)) t (putSized swap n x w) →
      Reads swap (m (BitVec.ofNat 8 n)) y t (putSized swap n x w)) :
    Reads swap (read1 >>= m) y s (putSized swap n x w) :=
  (reads_read1 h (hput.mono (prefix_put ..))).bind fun t hsame ht =>
    hm t (reads_octets ht hn (hsame.agrees hput))

/-- A character that is narrower in GIOP 1.2 than in memory. -/
theorem readWchar12_eq (hn : n = 1 ∨ n = 2) (hgiop : s.giop12 = true) (stale : WChar) :
    readWchar (.plain n) stale s = orFail (read1 >>= fun len =>
      if len = 2 then readArray len.toNat 1 1 >>= fun bytes =>
        pure ((ofImage 2 bytes).signExtend 32)
      else readArray len.toNat 1 1 >>= fun bytes =>
        pure ((overlay bytes stale).setWidth 8 |>.setWidth 32)) s := by
  have hzero : n ≠ 0 := by rcases hn with rfl | rfl <;> decide
  have hfour : n ≠ 4 := by rcases hn with rfl | rfl <;> decide
  rw [readWchar, Codeset.plain]
  dsimp only
  rw [get_bind_apply, if_neg hzero, if_neg hfour, if_pos hgiop]

/-- Two bytes in GIOP 1.2 are read as a `Short`. -/
theorem reads_readWchar12_two (h : At swap s w) (hgiop : s.giop12 = true) {x : WChar}
    (stale : WChar) (hput : Agrees s (putSized swap 2 x w)) :
    Reads swap (readWchar (.plain 2) stale) ((narrow 2 x).signExtend 32) s
      (putSized swap 2 x w) := by
  rw [Reads, readWchar12_eq (Or.inr rfl) hgiop]
  refine Reads.orFail (reads_sized h (Or.inr (Or.inl rfl)) hput fun t ht => ?_)
  rw [if_pos (by decide)]
  refine ht.bind fun u _ hu => ?_
  rw [ofImage_image]
  exact reads_pure hu _

theorem reads_readWchar12 (h : At swap s w) (hgiop : s.giop12 = true) (hn : IsWidth n) {x : WChar}
    (stale : WChar) (hx : x.toNat < 256 ^ n) (hpos : n = 2 → x.toNat < 2 ^ 15)
    (hput : Agrees s (putSized swap n x w)) :
    Reads swap (readWchar (.plain n) stale) x s (putSized swap n x w) := by
  rcases hn with rfl | rfl | rfl
  · rw [Reads, readWchar12_eq (Or.inl rfl) hgiop]
    refine Reads.orFail (reads_sized h (Or.inl rfl) hput fun t ht => ?_)
    rw [if_neg (by decide)]
    refine ht.bind fun u _ hu => ?_
    have hvalue : ((overlay (image 1 (narrow 1 x)) stale).setWidth 8).setWidth 32 = x :=
      (overlay_one (narrow 1 x) stale).trans (setWidth_narrow hx)
    rw [hvalue]
    exact reads_pure hu x
  · have hreads := reads_readWchar12_two h hgiop stale hput
    rwa [signExtend_narrow (hpos rfl)] at hreads
  · have hread : readWchar (.plain 4) stale s = (orFail read1 >>= fun len =>
        readArray len.toNat 1 1 >>= fun bytes => pure (overlay bytes stale)) s := by
      rw [readWchar, Codeset.plain]
      dsimp only
      rw [get_bind_apply, if_neg (by decide), if_pos rfl, if_pos hgiop]
    rw [Reads, hread]
    refine (reads_read1 h (hput.mono (prefix_put ..))).orFail.bind fun t hsame ht => ?_
    refine (reads_octets ht (Or.inr (Or.inr rfl)) (hsame.agrees hput)).bind fun u _ hu => ?_
    rw [narrow_four, overlay_image]
    exact reads_pure hu x

theorem reads_readWchar11 (h : At swap s w) (hgiop : s.giop12 = false) (hn : IsWidth n)
    {x : WChar} (stale : WChar) (hx : x.toNat < 256 ^ n)
    (hput : Agrees s (put n (wireImage n swap (narrow n x)) w)) :
    Reads swap (readWchar (.plain n) stale) x s (put n (wireImage n swap (narrow n x)) w) := by
  have hwide := setWidth_narrow hx
  have hnot : ¬s.giop12 = true := Bool.not_eq_true _ ▸ hgiop
  have hword := @reads_readWord swap s w n n h hn.isAlign (hn.le.trans (by norm_num))
    (narrow n x) hput
  rw [Reads, readWchar, Codeset.plain]
  dsimp only
  rw [get_bind_apply]
  rcases hn with rfl | rfl | rfl
  · rw [if_neg (by decide), if_neg (by decide), if_neg hnot, if_neg (by decide)]
    rw [wireImage_one] at hput ⊢
    refine Reads.orFail ((@reads_read1 swap s w h (narrow 1 x) hput).bind fun t _ ht => ?_)
    have hvalue : (narrow 1 x : Octet).setWidth 32 = x := hwide
    rw [hvalue]
    exact reads_pure ht x
  · rw [if_neg (by decide), if_neg (by decide), if_neg hnot, if_pos rfl]
    refine Reads.orFail (hword.bind fun t _ ht => ?_)
    rw [hwide]
    exact reads_pure ht x
  · rw [if_neg (by decide), if_pos rfl, if_neg hnot]
    rw [narrow_four] at hword ⊢
    exact hword

/-- **The bytes of a wide character** in either byte order. -/
def putWchar (swap : Bool) (n : ℕ) (giop12 : Bool) (x : WChar) (w : Wire) : Wire :=
  if giop12 then putSized swap n x w else put n (wireImage n swap (narrow n x)) w

/-- **A wide character is read back.** -/
theorem reads_readWchar (h : At swap s w) (hn : IsWidth n) {x : WChar} (stale : WChar)
    (hx : x.toNat < 256 ^ n) (hpos : s.giop12 = true → n = 2 → x.toNat < 2 ^ 15)
    (hput : Agrees s (putWchar swap n s.giop12 x w)) :
    Reads swap (readWchar (.plain n) stale) x s (putWchar swap n s.giop12 x w) := by
  rw [putWchar] at hput ⊢
  rcases hgiop : s.giop12 with _ | _
  · rw [hgiop, if_neg Bool.false_ne_true] at hput
    exact reads_readWchar11 h hgiop hn stale hx hput
  · rw [hgiop, if_pos rfl] at hput
    exact reads_readWchar12 h hgiop hn stale hx (hpos hgiop) hput

/-! ### Arrays -/

/-- An array of characters that are narrowed and widened again. -/
theorem map_narrow {xs : List WChar} (hx : ∀ c ∈ xs, c.toNat < 256 ^ n) :
    (xs.map (narrow n)).map (fun x => x.setWidth 32) = xs := by
  rw [List.map_map]
  refine (List.map_congr_left fun c hc => ?_).trans (List.map_id xs)
  exact setWidth_narrow (hx c hc)

theorem ofArrayImage_narrow {xs : List WChar} (hx : ∀ c ∈ xs, c.toNat < 256 ^ n) :
    (ofArrayImage n xs.length (arrayImage n (xs.map (narrow n)))).map
      (fun x => x.setWidth 32) = xs := by
  have hread := @ofArrayImage_arrayImage n (xs.map (narrow n))
  rw [List.length_map] at hread
  rw [hread, map_narrow hx]

/-- **The bytes of an array of wide characters** in either byte order. -/
def putWchars (swap : Bool) (n : ℕ) (xs : List WChar) (w : Wire) : Wire :=
  putArray n swap n (xs.map (narrow n)) w

theorem reads_readWcharArrayI (h : At swap s w) (hn : n = 1 ∨ n = 2) {xs : List WChar}
    {length : ULong} (hlen : length.toNat = xs.length) (hx : ∀ c ∈ xs, c.toNat < 256 ^ n)
    (hput : Agrees s (putWchars swap n xs w)) :
    Reads swap (readWcharArrayI (.plain n) length) xs s (putWchars swap n xs w) := by
  have hwidth : IsWidth n := hn.imp_right Or.inl
  rw [putWchars, putArray] at hput ⊢
  by_cases hnil : xs.map (narrow n) = []
  · have hxs : xs = [] := List.map_eq_nil_iff.mp hnil
    subst hxs
    rw [if_pos hnil, readWcharArrayI, if_pos (BitVec.eq_of_toNat_eq hlen)]
    exact reads_pure h []
  · rw [if_neg hnil] at hput ⊢
    have hpos : length ≠ 0 := by
      rintro rfl
      exact hnil (List.map_eq_nil_iff.mpr (List.eq_nil_of_length_eq_zero hlen.symm))
    have hmul : n * length.toNat ≤ 4 * 2 ^ 32 := Nat.mul_le_mul hwidth.le length.isLt.le
    have hmod : n * length.toNat % 2 ^ 64 = n * length.toNat := Nat.mod_eq_of_lt (by omega)
    have hbytes : ((xs.map (narrow n)).flatMap (wireImage n swap)).length = n * length.toNat := by
      rw [length_flatMap_wireImage, List.length_map, hlen]
    have hle := h.valueEnd_le hwidth.isAlign hbytes hput
    have hadjust := adjust_eq h.inBounds hwidth.isAlign (show n * length.toNat ≤ 2 ^ 62 by omega)
    rw [if_pos hle] at hadjust
    have hadjust' : adjust (n * length.toNat % 2 ^ 64) n s =
        some (.ok (alignUp s.rdPtr n), s.setRdPtr (s.valueEnd (n * length.toNat) n)) := by
      rw [hmod, hadjust]
    have hload : load (alignUp s.rdPtr n) (n * length.toNat)
        (s.setRdPtr (s.valueEnd (n * length.toNat) n)) =
        some (.ok (s.bytesAt (alignUp s.rdPtr n) (n * length.toNat)), _) :=
      load_eq (h.inBounds.ge.trans (le_alignUp hwidth.isAlign.pos _)) hle
    rw [h.bytesAt_eq hwidth.isAlign hbytes hput] at hload
    obtain ⟨hsame, hat⟩ := h.next hwidth.isAlign hbytes hput
    have hvalue := ofArrayImage_narrow hx
    have hnative := nativeArray_flatMap h (xs.map (narrow n))
    rw [List.length_map, ← hlen] at hnative
    rw [← hlen] at hvalue
    have hreturn := returnGoodBit_eq (s := s.setRdPtr (s.valueEnd (n * length.toNat) n)) h.good xs
    refine ⟨_, ?_, hsame, hat⟩
    rw [readWcharArrayI, if_neg hpos]
    rcases hn with rfl | rfl
    · have hsame1 : (xs.map (narrow 1)).flatMap (wireImage 1 swap) =
          arrayImage 1 (xs.map (narrow 1)) := by
        rw [show wireImage 1 swap = image 1 from funext (wireImage_one swap)]
        rfl
      refine (bind_of_ok hadjust').trans ?_
      rw [Nat.one_mul] at hload hreturn ⊢
      rw [get_bind_apply, if_neg (by decide)]
      refine (bind_of_ok hload).trans ?_
      rw [hsame1, hvalue]
      exact hreturn
    · refine (bind_of_ok hadjust').trans ?_
      rw [get_bind_apply, if_pos (by decide)]
      refine (bind_of_ok hload).trans ?_
      rw [nativeArray] at hnative
      rw [setRdPtr_doByteSwap, hnative, hvalue]
      exact hreturn

theorem reads_readWcharArray (h : At swap s w) (hn : IsWidth n) {xs : List WChar}
    {length : ULong} (hlen : length.toNat = xs.length) (hx : ∀ c ∈ xs, c.toNat < 256 ^ n)
    (hput : Agrees s (putWchars swap n xs w)) :
    Reads swap (readWcharArray (.plain n) length) xs s (putWchars swap n xs w) := by
  have hle := h.le_length hn.isAlign hput
  rw [List.length_map, ← hlen, Nat.mul_comm] at hle
  have hnot : ¬length.toNat * (Codeset.plain n).wcharMaxbytes % 2 ^ 64 > s.length :=
    Nat.not_lt.mpr ((Nat.mod_le _ _).trans hle)
  rw [Reads, readWcharArray, get_bind_apply, if_neg hnot]
  by_cases hfour : n = 4
  · subst hfour
    have hmap : xs.map (narrow 4) = xs := by
      rw [show narrow 4 = id from funext narrow_four, List.map_id]
    rw [putWchars, hmap] at hput ⊢
    have hreads := @reads_readArray swap s w 4 4 h isAlign_four (by decide) xs
      (hlen ▸ length.isLt) hput
    have hvalue : ofArrayImage 4 xs.length (arrayImage 4 xs) = xs :=
      @ofArrayImage_arrayImage 4 xs
    rw [← hlen] at hreads hvalue
    refine hreads.bind fun t _ ht => ?_
    rw [hvalue]
    exact reads_pure ht xs
  · have hnarrow : n = 1 ∨ n = 2 := by
      rcases hn with hone | htwo | hfour'
      · exact Or.inl hone
      · exact Or.inr htwo
      · exact absurd hfour' hfour
    obtain ⟨t, heq, ht⟩ := reads_readWcharArrayI h hnarrow hlen hx hput
    exact ⟨t, (congrFun (if_pos hfour) s).trans heq, ht⟩

/-! ### Strings -/

/-- An array behind another one is not padded. -/
theorem putArray_append {size align : ℕ} (ha : 0 < align) (hdvd : align ∣ size) (swap : Bool)
    (xs ys : List (BitVec (8 * size))) (w : Wire) :
    putArray size swap align (xs ++ ys) w =
      putArray size swap align ys (putArray size swap align xs w) := by
  by_cases hxs : xs = []
  · rw [hxs, List.nil_append, putArray, putArray, putArray, if_pos rfl]
  · by_cases hys : ys = []
    · rw [hys, List.append_nil, putArray, putArray, if_pos rfl]
    · have hne : xs ++ ys ≠ [] := by simpa using fun h _ => hxs h
      have halign : align ∣ (put align (xs.flatMap (wireImage size swap)) w).length := by
        rw [length_put ha, length_flatMap_wireImage]
        exact Nat.dvd_add (dvd_alignUp _ _) (hdvd.mul_right _)
      have hpad : pad (put align (xs.flatMap (wireImage size swap)) w).length align = 0 := by
        rw [pad, alignUp_of_dvd ha halign, Nat.sub_self]
      rw [putArray, putArray, putArray, if_neg hne, if_neg hxs, if_neg hys]
      rw [put.eq_def align _ (put align _ w), hpad, List.replicate_zero, List.append_nil, put, put,
        List.flatMap_append, List.map_append, List.append_assoc _ (List.map _ _)]

/-- The terminator of a string is a character of its own. -/
theorem putWide_terminator (hn : IsWidth n) (cs : List WChar) (w : Wire) :
    putWide n (cs ++ [0]) w = put n (image n (narrow n 0)) (putWide n cs w) := by
  rw [putWide, List.map_append, putArray_append hn.isAlign.pos dvd_rfl, List.map_cons,
    List.map_nil, putArray, if_neg (List.cons_ne_nil _ _), List.flatMap_singleton]
  rfl

/-- The bytes of a string whose length is a `ULong`, in GIOP 1.2. -/
theorem putWstring12_eq {cs : List WChar} (hcount : n * cs.length < 2 ^ 32) (hn : IsWidth n)
    (w : Wire) : putWstring n true (BitVec.ofNat 32 cs.length) cs w =
      putWide n cs (put 4 (image 4 (BitVec.ofNat 32 (n * cs.length))) w) := by
  have hle : cs.length ≤ n * cs.length := Nat.le_mul_of_pos_left _ hn.isAlign.pos
  have hnat : (BitVec.ofNat 32 cs.length).toNat = cs.length := by
    rw [BitVec.toNat_ofNat, Nat.mod_eq_of_lt (by omega)]
  rw [putWstring, if_pos rfl, hnat, truncateCast, Nat.min_eq_left (by omega), List.take_left]

/-- The same, in GIOP 1.1. -/
theorem putWstring11_eq {cs : List WChar} (hcount : cs.length + 1 < 2 ^ 32) (w : Wire) :
    putWstring n false (BitVec.ofNat 32 cs.length) cs w =
      putWide n (cs ++ [0]) (put 4 (image 4 (BitVec.ofNat 32 (cs.length + 1))) w) := by
  have hsucc : BitVec.ofNat 32 cs.length + 1 = BitVec.ofNat 32 (cs.length + 1) :=
    (BitVec.ofNat_add cs.length 1).symm
  have hnat : (BitVec.ofNat 32 (cs.length + 1)).toNat = (cs ++ [0]).length := by
    rw [BitVec.toNat_ofNat, Nat.mod_eq_of_lt hcount, List.length_append, List.length_singleton]
  rw [putWstring, if_neg Bool.false_ne_true, hsucc, hnat, List.take_length]

section

variable {cs : List WChar} (h : At false s w) (hn : IsWidth n)

include h hn

/-- **In GIOP 1.2** the characters follow the length, and nothing else. -/
theorem reads_wstring12 {m : ULong → Reader (List WChar)} {y : List WChar}
    (hcount : n * cs.length < 2 ^ 32)
    (hput : Agrees s (putWstring n true (BitVec.ofNat 32 cs.length) cs w))
    (hempty : cs = [] → ∀ t, m 0 t = some (.ok y, t))
    (hm : ∀ t len, cs ≠ [] → 0 < len.toNat → len.toNat ≤ t.length → SameBuffer s t →
      (len / truncateCast n).toNat = cs.length → ∀ w', At false t w' →
      Agrees t (putWide n cs w') → Reads false (m len) y t (putWide n cs w')) :
    Reads false (readUlong >>= m) y s (putWstring n true (BitVec.ofNat 32 cs.length) cs w) := by
  rw [putWstring12_eq hcount hn] at hput ⊢
  refine (reads_readUlong h (hput.mono (prefix_putArray ..))).bind fun t hsame ht => ?_
  by_cases hnil : cs = []
  · subst hnil
    rw [List.length_nil, Nat.mul_zero] at ht ⊢
    have hzero : BitVec.ofNat 32 0 = 0 := rfl
    rw [hzero] at ht ⊢
    exact ⟨t, hempty rfl t, SameBuffer.refl t, ht⟩
  · have hpos : 0 < cs.length := List.length_pos_iff.mpr hnil
    have hn0 := hn.isAlign.pos
    have hn4 := hn.le
    have hnat : (BitVec.ofNat 32 (n * cs.length)).toNat = n * cs.length := by
      rw [BitVec.toNat_ofNat, Nat.mod_eq_of_lt hcount]
    have hcast : (truncateCast n).toNat = n := by
      rw [truncateCast, Nat.min_eq_left (by omega), BitVec.toNat_ofNat,
        Nat.mod_eq_of_lt (by omega)]
    have hle := ht.le_length hn.isAlign (hsame.agrees hput)
    rw [List.length_map] at hle
    refine hm t _ hnil ?_ ?_ hsame ?_ _ ht (hsame.agrees hput)
    · rw [hnat]
      exact Nat.mul_pos hn0 hpos
    · rwa [hnat]
    · rw [BitVec.toNat_udiv, hnat, hcast, Nat.mul_div_cancel_left _ hn0]

/-- **In GIOP 1.1** the terminator follows as well. -/
theorem reads_wstring11 {m : ULong → Reader (List WChar)} {y : List WChar}
    (hcount : cs.length + 1 < 2 ^ 32)
    (hput : Agrees s (putWstring n false (BitVec.ofNat 32 cs.length) cs w))
    (hm : ∀ t len, len.toNat = cs.length + 1 → len.toNat ≤ t.length → SameBuffer s t →
      ∀ w', At false t w' → Agrees t (putWide n (cs ++ [0]) w') →
      Reads false (m len) y t (putWide n (cs ++ [0]) w')) :
    Reads false (readUlong >>= m) y s (putWstring n false (BitVec.ofNat 32 cs.length) cs w) := by
  rw [putWstring11_eq hcount] at hput ⊢
  refine (reads_readUlong h (hput.mono (prefix_putArray ..))).bind fun t hsame ht => ?_
  have hnat : (BitVec.ofNat 32 (cs.length + 1)).toNat = cs.length + 1 := by
    rw [BitVec.toNat_ofNat, Nat.mod_eq_of_lt hcount]
  have hle := ht.le_length hn.isAlign (hsame.agrees hput)
  rw [List.length_map, List.length_append, List.length_singleton] at hle
  refine hm t _ hnat ?_ hsame _ ht (hsame.agrees hput)
  rw [hnat]
  exact (Nat.le_mul_of_pos_left _ hn.isAlign.pos).trans hle

end

/-- The characters of a string are those of an array with the terminator. -/
theorem fits_append {cs : List WChar} (hx : ∀ c ∈ cs, c.toNat < 256 ^ n) :
    ∀ c ∈ cs ++ [0], c.toNat < 256 ^ n := by
  intro c hc
  rcases List.mem_append.mp hc with hc | hc
  · exact hx c hc
  · rw [List.mem_singleton.mp hc]
    exact Nat.pow_pos (by norm_num)

/-- The characters of a `std::wstring` in GIOP 1.1. -/
theorem reads_beforeTerminator (h : At false s w) (hn : IsWidth n) {cs : List WChar}
    (hx : ∀ c ∈ cs, c.toNat < 256 ^ n) {len : ULong} (hlen : len.toNat = cs.length + 1)
    (hput : Agrees s (putWide n cs w)) :
    Reads false (if len = 1 then pure [] else orFail (readWcharArray (.plain n) (len - 1))) cs s
      (putWide n cs w) := by
  have hone : (1 : ULong).toNat = 1 := rfl
  by_cases hnil : len = 1
  · have hcs : cs = [] := List.eq_nil_of_length_eq_zero (by
      rw [hnil, hone] at hlen
      omega)
    rw [if_pos hnil, hcs]
    exact reads_pure h []
  · have hpred : (len - 1).toNat = cs.length := by
      have hlt := len.isLt
      rw [BitVec.toNat_sub, hone]
      omega
    rw [if_neg hnil]
    exact (reads_readWcharArray h hn hpred hx hput).orFail

/-- A character of two or four bytes is skipped. -/
theorem reads_skipWchar11 (h : At swap s w) (hn : IsWidth n) (hne : n ≠ 1)
    (hgiop : s.giop12 = false) {x : WChar}
    (hput : Agrees s (put n (wireImage n swap (narrow n x)) w)) :
    Reads swap (skipWchar (.plain n)) () s (put n (wireImage n swap (narrow n x)) w) := by
  have hnot : ¬s.giop12 = true := Bool.not_eq_true _ ▸ hgiop
  have hword := @reads_readWord swap s w n n h hn.isAlign (hn.le.trans (by norm_num))
    (narrow n x) hput
  rw [Reads, skipWchar, get_bind_apply, if_neg hnot]
  rcases hn with rfl | rfl | rfl
  · exact absurd rfl hne
  · rw [if_pos (by decide)]
    exact hword.bind fun v _ hv => reads_pure hv ()
  · rw [if_neg (by decide)]
    exact hword.bind fun v _ hv => reads_pure hv ()

section

variable {cs : List WChar} (h : At false s w) (hn : IsWidth n) (hx : ∀ c ∈ cs, c.toNat < 256 ^ n)
  (hcount : (if s.giop12 then n * cs.length else cs.length + 1) < 2 ^ 32)
  (hput : Agrees s (putWstring n s.giop12 (BitVec.ofNat 32 cs.length) cs w))

include h hn hx hcount hput

/-- **A wide string is read back** as an array of characters with its terminator. -/
theorem reads_readWstring : Reads false (readWstring (.plain n)) (cs ++ [0]) s
    (putWstring n s.giop12 (BitVec.ofNat 32 cs.length) cs w) := by
  have hn0 : ¬(Codeset.plain n).wcharMaxbytes = 0 := hn.isAlign.pos.ne'
  rw [readWstring]
  change Reads false (if (Codeset.plain n).wcharMaxbytes = 0 then _ else _) _ _ _
  rw [if_neg hn0]
  rcases hgiop : s.giop12 with _ | _
  · rw [hgiop] at hcount hput
    rw [if_neg Bool.false_ne_true] at hcount
    refine reads_wstring11 h hn hcount hput fun t len hlen hle hsame w' ht hput' => ?_
    have hnot : ¬t.giop12 = true := by
      rw [hsame.giop12, hgiop]
      exact Bool.false_ne_true
    have hlen' : len.toNat = (cs ++ [0]).length := by
      rw [hlen, List.length_append, List.length_singleton]
    obtain ⟨u, heq, hu⟩ := (reads_readWcharArray ht hn hlen' (fits_append hx) hput').orFail
    refine ⟨u, ?_, hu⟩
    rw [get_bind_apply, if_pos ⟨by omega, hle⟩, if_neg hnot, heq]
  · rw [hgiop] at hcount hput
    rw [if_pos rfl] at hcount
    refine reads_wstring12 h hn hcount hput ?_ ?_
    · rintro rfl t
      rw [get_bind_apply, if_neg (fun hpos => absurd hpos.1 (by decide)), if_pos rfl]
      rfl
    · intro t len hne hpos hle hsame hdiv w' ht hput'
      have hreads : Reads false (orFail (readWcharArray (.plain n) (len / truncateCast n)) >>=
          fun x => pure (x ++ [0])) (cs ++ [0]) t (putWide n cs w') :=
        (reads_readWcharArray ht hn hdiv hx hput').orFail.bind
          fun u _ hu => reads_pure hu (cs ++ [0])
      obtain ⟨u, heq, hu⟩ := hreads
      refine ⟨u, ?_, hu⟩
      rw [get_bind_apply, if_pos ⟨hpos, hle⟩, if_pos (hsame.giop12.trans hgiop)]
      exact heq

/-- **A wide string is read back** as a `std::wstring`. -/
theorem reads_readStdWstring (hterm : s.giop12 = false → n ≠ 1) :
    Reads false (readStdWstring (.plain n)) cs s
      (putWstring n s.giop12 (BitVec.ofNat 32 cs.length) cs w) := by
  have hn0 : ¬(Codeset.plain n).wcharMaxbytes = 0 := hn.isAlign.pos.ne'
  rw [readStdWstring]
  change Reads false (if (Codeset.plain n).wcharMaxbytes = 0 then _ else _) _ _ _
  rw [if_neg hn0]
  rcases hgiop : s.giop12 with _ | _
  · have hne := hterm hgiop
    rw [hgiop] at hcount hput
    rw [if_neg Bool.false_ne_true] at hcount
    refine reads_wstring11 h hn hcount hput fun t len hlen hle hsame w' ht hput' => ?_
    have hnot : ¬t.giop12 = true := by
      rw [hsame.giop12, hgiop]
      exact Bool.false_ne_true
    rw [putWide_terminator hn] at hput' ⊢
    have hchars := reads_beforeTerminator ht hn hx hlen (hput'.mono (prefix_put ..))
    have hskip (u : InputCDR) (hsame' : SameBuffer t u) (hu : At false u (putWide n cs w')) :
        Reads false (skipWchar (.plain n)) () u
          (put n (image n (narrow n 0)) (putWide n cs w')) :=
      reads_skipWchar11 hu hn hne (by rw [hsame'.giop12, hsame.giop12, hgiop])
        (hsame'.agrees hput')
    rw [reads_get_bind, if_pos ⟨by omega, hle⟩, if_neg hnot]
    by_cases hone : len = 1
    · rw [if_pos hone] at hchars ⊢
      exact hchars.bind fun u hsame' hu =>
        (hskip u hsame' hu).bind fun v _ hv => reads_pure hv cs
    · rw [if_neg hone] at hchars ⊢
      exact hchars.bind fun u hsame' hu =>
        (hskip u hsame' hu).bind fun v _ hv => reads_pure hv cs
  · rw [hgiop] at hcount hput
    rw [if_pos rfl] at hcount
    refine reads_wstring12 h hn hcount hput ?_ ?_
    · rintro rfl t
      rw [get_bind_apply, if_neg (fun hpos => absurd hpos.1 (by decide)), if_pos rfl]
      rfl
    · intro t len hne hpos hle hsame hdiv w' ht hput'
      obtain ⟨u, heq, hu⟩ := (reads_readWcharArray ht hn hdiv hx hput').orFail
      refine ⟨u, ?_, hu⟩
      rw [get_bind_apply, if_pos ⟨hpos, hle⟩, if_pos (hsame.giop12.trans hgiop)]
      exact heq

end

/-- **A wide value is read back.** -/
theorem reads_readWide (h : At false s w) (hn : IsWidth n) {x : Wide} {a : Access}
    (hx : x.Fits n) (hgood : x.Good n s.giop12 a) (hput : Agrees s (x.put n s.giop12 w)) :
    Reads false (readWide n x a) (x.expected a) s (x.put n s.giop12 w) := by
  obtain ⟨written, read, stale⟩ := a
  cases x with
  | wchar x =>
    have hreads := reads_readWchar h hn stale (hx x (List.mem_singleton_self x)) hgood.positive hput
    exact hreads.bind fun t _ ht => reads_pure ht [x]
  | wstring cs hnul =>
    cases read with
    | wchars => exact reads_readWstring h hn hx hgood.countable hput
    | stdWstring =>
      exact reads_readStdWstring h hn hx hgood.countable hput
        fun hgiop hone => hgood.terminated hgiop hone rfl

end InputCDR

/-- A wide value only appends to the stream. -/
theorem Wide.prefix_put (n : ℕ) (giop12 : Bool) (x : Wide) (w : Wire) : w <+: x.put n giop12 w := by
  cases x with
  | wchar x =>
    rw [Wide.put]
    split_ifs
    · exact (InputCDR.prefix_put ..).trans (InputCDR.prefix_put ..)
    · exact InputCDR.prefix_put ..
  | wstring cs hnul =>
    rw [Wide.put, putWstring]
    split_ifs
    · exact (InputCDR.prefix_put ..).trans (InputCDR.prefix_putArray ..)
    · exact (InputCDR.prefix_put ..).trans (InputCDR.prefix_putArray ..)

end AceTao.Cdr
