import AceTao.Cdr.Fragmentation
import AceTao.Cdr.WideReadBack

/-!
# The round trip of wide characters and wide strings

A list of wide characters and wide strings is written to a stream and read back from the stream that
is constructed from it, for each choice of the types of the strings where they are written and
where they are read (`WideRoundTrips`).

The values are the same, and nothing is left, exactly of the lists that are `SafeWides`
(`wideRoundTrips_iff`). One direction is the round trip of each value. For the other one, an
operation that gives back a value shows that the value was `Good`; and behind a string of one-byte
characters in GIOP 1.1 that is read as a `std::wstring`, the reader is at least three bytes ahead of
the writer, and stays so as long as characters follow.
-/

namespace AceTao.Cdr

open Program ByteImage AlignUp

/-- A value, with how it is passed to the operations. -/
abbrev WideItem := Wide × Access

/-- The machine that writes wide values. -/
def wideStep (n : ℕ) (heap : ℕ → ℕ) (s : OutputCDR) (i : WideItem) :
    Option (OutputCDR × Except Failure Unit) :=
  (OutputCDR.writeWide heap n i.1 i.2 s).map Prod.swap

/-- Values are read one after the other, as long as the operations succeed. -/
def InputCDR.readWides (n : ℕ) : List WideItem → Reader (List (List WChar))
  | [] => pure []
  | i :: items => do
    let x ← readWide n i.1 i.2
    let xs ← readWides n items
    pure (x :: xs)

def WideItem.expected (i : WideItem) : List WChar := i.1.expected i.2

/-- The minor version of GIOP. -/
def giopMinor (giop12 : Bool) : UInt8 := if giop12 then 2 else 1

/-- **The round trip** of wide values, in the byte order of the host. -/
def WideRoundTrips (n : ℕ) (giop12 : Bool) (xs : List Wide) : Prop :=
  ∀ (f : Fragmentation) (items : List WideItem), items.map Prod.fst = xs → ∃ t answers,
    Machine.run (wideStep n f.heap) (f.start false 1 (giopMinor giop12)) items =
      some (t, answers) ∧
    (∀ answer ∈ answers, answer = .ok ()) ∧
    ∀ (base : ℕ) (fill : ℕ → UInt8), base + t.totalLength + maxAlignment ≤ addressLimit →
      ∃ s u, InputCDR.ofOutputCDR base fill t = some s ∧
        InputCDR.readWides n items s = some (.ok (items.map WideItem.expected), u) ∧ u.length = 0

/-! ### Writing -/

/-- The bytes of a list of wide values. -/
def putWides (n : ℕ) (giop12 : Bool) (xs : List Wide) (w : Wire) : Wire :=
  xs.foldl (fun w x => x.put n giop12 w) w

theorem putWides_append (n : ℕ) (giop12 : Bool) (xs ys : List Wide) (w : Wire) :
    putWides n giop12 (xs ++ ys) w = putWides n giop12 ys (putWides n giop12 xs w) :=
  List.foldl_append

theorem prefix_putWides (n : ℕ) (giop12 : Bool) (xs : List Wide) (w : Wire) :
    w <+: putWides n giop12 xs w := by
  induction xs generalizing w with
  | nil => exact List.prefix_rfl
  | cons x xs ih => exact (x.prefix_put n giop12 w).trans (ih _)

/-- **The values are written.** -/
theorem wideRun_spec {n : ℕ} (heap : ℕ → ℕ) (hn : IsWidth n) {s : OutputCDR} (h : s.Ready)
    (hswap : s.doByteSwap = false) (hminor : s.minorVersion ≠ 0) (items : List WideItem) :
    ∃ t answers, Machine.run (wideStep n heap) s items = some (t, answers) ∧
      (∀ answer ∈ answers, answer = .ok ()) ∧ s.SameConfig t ∧
      t.wire = putWides n s.giop12 (items.map Prod.fst) s.wire := by
  induction items generalizing s with
  | nil =>
    exact ⟨s, [], rfl, List.forall_mem_nil _, OutputCDR.SameConfig.refl s, rfl⟩
  | cons i items ih =>
    obtain ⟨t, heq, ht⟩ := @OutputCDR.writes_writeWide heap s n h hn hswap hminor i.1 i.2
    have hversion : t.giop12 = s.giop12 := by
      rw [OutputCDR.giop12, OutputCDR.giop12, ht.config.majorVersion, ht.config.minorVersion]
    obtain ⟨u, answers, hrun, hanswers, hconfig, hwire⟩ := ih ht.ready
      (ht.config.doByteSwap.trans hswap) (ht.config.minorVersion ▸ hminor)
    have hstep : wideStep n heap s i = some (t, .ok ()) := by
      rw [wideStep, heq]
      rfl
    refine ⟨u, _, Machine.run_cons_eq_some.mpr ⟨t, _, answers, hstep, hrun, rfl⟩, ?_,
      ht.config.trans hconfig, ?_⟩
    · rintro answer hanswer
      rcases List.mem_cons.mp hanswer with rfl | hanswer
      · rfl
      · exact hanswers answer hanswer
    · rw [hwire, ht.wire, hversion]
      rfl

/-- A bound on the bytes of a value, with padding. -/
def Wide.room (x : Wide) : ℕ := 4 * x.chars.length + 16

theorem length_putWide_le {n : ℕ} (hn : IsWidth n) (xs : List WChar) (w : Wire) :
    (putWide n xs w).length ≤ w.length + 3 + n * xs.length := by
  rw [putWide, putArray]
  split_ifs with hnil
  · omega
  · have hlt := alignUp_lt hn.isAlign.pos w.length
    have hle := hn.le
    rw [length_put hn.isAlign.pos, InputCDR.length_flatMap_wireImage, List.length_map]
    omega

theorem Wide.length_put_le {n : ℕ} (hn : IsWidth n) (giop12 : Bool) (x : Wide) (w : Wire) :
    (x.put n giop12 w).length ≤ w.length + x.room := by
  have hle := hn.le
  cases x with
  | wchar x =>
    have hlt := alignUp_lt hn.isAlign.pos w.length
    have hroom : (Wide.wchar x).room = 20 := rfl
    rw [Wide.put, hroom]
    split_ifs
    · rw [length_put one_pos, length_put one_pos, alignUp_one, alignUp_one, length_image,
        length_image]
      omega
    · rw [length_put hn.isAlign.pos, length_image]
      omega
  | wstring cs hnul =>
    have hroom : (Wide.wstring cs hnul).room = 4 * cs.length + 16 := rfl
    have hboth (m : ℕ) (field : ULong) :
        (putWide n ((cs ++ [0]).take m) (Cdr.put 4 (image 4 field) w)).length ≤
          w.length + (4 * cs.length + 16) := by
      have hput := length_putWide_le hn ((cs ++ [0]).take m) (Cdr.put 4 (image 4 field) w)
      have htake : ((cs ++ [0]).take m).length ≤ cs.length + 1 := by
        refine (List.length_take_le' m _).trans ?_
        rw [List.length_append, List.length_singleton]
      have hmul := Nat.mul_le_mul hle htake
      have hlt := alignUp_lt four_pos w.length
      have hfield : (image 4 field).length = 4 := length_leBytes 4 _
      rw [length_put four_pos, hfield] at hput
      omega
    rw [Wide.put, putWstring, hroom]
    split_ifs
    · exact hboth _ _
    · exact hboth _ _

theorem length_putWides_le {n : ℕ} (hn : IsWidth n) (giop12 : Bool) (xs : List Wide) (w : Wire) :
    (putWides n giop12 xs w).length ≤ w.length + (xs.map Wide.room).sum := by
  induction xs generalizing w with
  | nil => exact le_rfl
  | cons x xs ih =>
    have hfirst := x.length_put_le hn giop12 w
    have hrest := ih (x.put n giop12 w)
    rw [List.map_cons, List.sum_cons]
    change (putWides n giop12 xs (x.put n giop12 w)).length ≤ _
    omega

/-- Characters of one byte in GIOP 1.1 have one byte each. -/
theorem length_putWides_chars {xs : List Wide} (hxs : ∀ x ∈ xs, ∃ c, x = .wchar c) (w : Wire) :
    (putWides 1 false xs w).length = w.length + xs.length := by
  induction xs generalizing w with
  | nil => rfl
  | cons x xs ih =>
    obtain ⟨c, rfl⟩ := hxs x (List.mem_cons_self ..)
    have hput : ((Wide.wchar c).put 1 false w).length = w.length + 1 := by
      rw [Wide.put, if_neg Bool.false_ne_true, length_put one_pos, alignUp_one, length_image]
    have hrest := ih (fun y hy => hxs y (List.mem_cons_of_mem _ hy)) ((Wide.wchar c).put 1 false w)
    change (putWides 1 false xs ((Wide.wchar c).put 1 false w)).length = _
    rw [hrest, hput, List.length_cons]
    omega

/-! ### The values that are read back -/

namespace InputCDR

variable {n : ℕ} {s t : InputCDR} {w : Wire}

theorem eq_of_returnGoodBit {α : Type} {x y : α} (h : returnGoodBit x s = some (.ok y, t)) :
    y = x := by
  rw [returnGoodBit, get_bind_apply, ite_run] at h
  split_ifs at h
  · cases h
    rfl
  · cases h

/-- An array has the length that is asked for. -/
theorem length_of_readWcharArray {length : ULong} {xs : List WChar}
    (h : readWcharArray (.plain n) length s = some (.ok xs, t)) : xs.length = length.toNat := by
  rw [readWcharArray, get_bind_apply, ite_run] at h
  split_ifs at h with hbound hfour
  · cases h
  · change readWcharArrayI (.plain n) length s = _ at h
    rw [readWcharArrayI, ite_run] at h
    split_ifs at h with hzero htwo
    · cases h
      rw [hzero]
      rfl
    · obtain ⟨buf, u, -, hbuf⟩ := bind_eq_ok.mp h
      rw [get_bind_apply] at hbuf
      obtain ⟨bytes, v, -, hbytes⟩ := bind_eq_ok.mp hbuf
      rw [eq_of_returnGoodBit hbytes, List.length_map, length_ofArrayImage]
    · obtain ⟨buf, u, -, hbuf⟩ := bind_eq_ok.mp h
      rw [get_bind_apply] at hbuf
      obtain ⟨bytes, v, -, hbytes⟩ := bind_eq_ok.mp hbuf
      rw [eq_of_returnGoodBit hbytes, List.length_map, length_ofArrayImage]
  · change (readArray 4 4 length.toNat >>= fun bytes =>
      pure (ofArrayImage 4 length.toNat bytes)) s = _ at h
    obtain ⟨bytes, u, -, hpure⟩ := bind_eq_ok.mp h
    cases hpure
    exact length_ofArrayImage _ _

/-- A length in bytes gives no more characters than it has room for. -/
theorem toNat_div_le (hn : IsWidth n) (len : ULong) :
    n * (len / truncateCast n).toNat < 2 ^ 32 := by
  have hlt := len.isLt
  have hcast : (truncateCast n).toNat = n := by
    rcases hn with rfl | rfl | rfl <;> rfl
  rw [BitVec.toNat_udiv, hcast]
  exact (Nat.mul_div_le _ _).trans_lt hlt

/-- The version of GIOP stays. -/
def SameVersion (s t : InputCDR) : Prop := t.giop12 = s.giop12

instance : Std.Refl SameVersion := ⟨fun _ => rfl⟩
instance : IsTrans InputCDR SameVersion := ⟨fun _ _ _ h h' => h'.trans h⟩

theorem sameVersion_adjust (size align : ℕ) : Keeps SameVersion (adjust size align) :=
  .bind .get fun _ => .ite (fun _ => .bind (.modify fun _ => rfl) fun _ => .pure _)
    fun _ => .bind (.modify fun _ => rfl) fun _ => .throw _

theorem sameVersion_load (addr n : ℕ) : Keeps SameVersion (load addr n) :=
  .bind .get fun _ => .ite (fun _ => .pure _) fun _ => .undefined

theorem sameVersion_readWord (size align : ℕ) : Keeps SameVersion (readWord size align) :=
  .bind (.handle (sameVersion_adjust size align)
      fun _ => .bind (.modify fun _ => rfl) fun _ => .throw _)
    fun _ => .bind .get fun _ => .bind (sameVersion_load _ _) fun _ => .pure _

/-- **A string that is read back** as an array has a length that is a `ULong`. -/
theorem length_of_readWstring (hn : IsWidth n) {xs : List WChar}
    (h : readWstring (.plain n) s = some (.ok xs, t)) :
    if s.giop12 then n * (xs.length - 1) < 2 ^ 32 else xs.length < 2 ^ 32 := by
  have hn0 : ¬(Codeset.plain n).wcharMaxbytes = 0 := hn.isAlign.pos.ne'
  rw [readWstring] at h
  change (if (Codeset.plain n).wcharMaxbytes = 0 then _ else _ : Reader (List WChar)) s = _ at h
  rw [if_neg hn0] at h
  obtain ⟨len, u, hlen, hrest⟩ := bind_eq_ok.mp h
  have hgiop : u.giop12 = s.giop12 := sameVersion_readWord 4 4 s _ u hlen
  rw [get_bind_apply] at hrest
  split_ifs at hrest with hpos hgiop' hzero
  · obtain ⟨ys, v, hys, hpure⟩ := bind_eq_ok.mp hrest
    cases hpure
    have hlength := length_of_readWcharArray (eq_of_orFail hys)
    rw [if_pos (hgiop ▸ hgiop'), List.length_append, List.length_singleton, Nat.add_sub_cancel,
      hlength]
    exact toNat_div_le hn len
  · have hlength := length_of_readWcharArray (eq_of_orFail hrest)
    rw [if_neg (hgiop ▸ hgiop'), hlength]
    exact len.isLt
  · cases hrest
    split_ifs
    · norm_num
    · norm_num
  · cases hrest

/-- A `Short` that is widened is below 2¹⁵, or it is not below 2¹⁶. -/
theorem signExtend_lt {y : UShort} (h : (y.signExtend 32).toNat < 2 ^ 16) :
    (y.signExtend 32).toNat < 2 ^ 15 := by
  have hy := y.isLt
  have hmsb := BitVec.msb_eq_decide y
  rw [BitVec.toNat_signExtend, BitVec.toNat_setWidth] at h ⊢
  rcases hcase : y.msb with _ | _
  · rw [hcase] at hmsb h
    rw [if_neg Bool.false_ne_true, Nat.add_zero, Nat.mod_eq_of_lt (by omega)] at h ⊢
    exact Nat.not_le.mp (of_decide_eq_false hmsb.symm)
  · rw [hcase, if_pos rfl] at h
    omega

/-- **A character that is read back** through a `Short` is not negative. -/
theorem positive_of_readWchar (hgiop : s.giop12 = true) {x stale : WChar}
    (hx : x.toNat < 256 ^ 2) (h : readWchar (.plain 2) stale s = some (.ok x, t)) :
    x.toNat < 2 ^ 15 := by
  rw [readWchar12_eq (Or.inr rfl) hgiop] at h
  obtain ⟨len, u, -, hrest⟩ := bind_eq_ok.mp (eq_of_orFail h)
  split_ifs at hrest with htwo
  · obtain ⟨bytes, v, -, hpure⟩ := bind_eq_ok.mp hrest
    cases hpure
    exact signExtend_lt hx
  · obtain ⟨bytes, v, -, hpure⟩ := bind_eq_ok.mp hrest
    cases hpure
    have hlt := ((overlay bytes stale).setWidth 8).isLt
    rw [BitVec.toNat_setWidth]
    exact (Nat.mod_le _ _).trans_lt (hlt.trans (by norm_num))

/-- **An operation that gives back a value** shows that the value is good, where no string is read
as a `std::wstring`. -/
theorem good_of_readWide (hn : IsWidth n) {x : Wide} {a : Access} (hx : x.Fits n)
    (ha : a.read = .wchars) (h : readWide n x a s = some (.ok (x.expected a), t)) :
    x.Good n s.giop12 a := by
  obtain ⟨written, read, stale⟩ := a
  cases ha
  cases x with
  | wchar x =>
    refine ⟨trivial, fun hgiop htwo => ?_, fun _ _ => not_false⟩
    subst htwo
    obtain ⟨y, u, hread, hpure⟩ := bind_eq_ok.mp h
    cases hpure
    exact positive_of_readWchar hgiop (hx x (List.mem_singleton_self x)) hread
  | wstring cs hnul =>
    refine ⟨?_, fun _ _ => trivial, fun _ _ => nofun⟩
    have hlength := length_of_readWstring hn h
    have hexpected : (Wide.wstring cs hnul).expected ⟨written, .wchars, stale⟩ = cs ++ [0] := rfl
    rw [hexpected, List.length_append, List.length_singleton, Nat.add_sub_cancel] at hlength
    rw [Wide.Countable]
    split_ifs at hlength ⊢
    · exact hlength
    · exact hlength

/-! ### Sequences -/

/-- **Good values are read back.** -/
theorem reads_readWides (hn : IsWidth n) {items : List WideItem}
    (hx : ∀ i ∈ items, i.1.Fits n) (hgood : ∀ i ∈ items, i.1.Good n s.giop12 i.2)
    (h : At false s w) (hput : Agrees s (putWides n s.giop12 (items.map Prod.fst) w)) :
    Reads false (readWides n items) (items.map WideItem.expected) s
      (putWides n s.giop12 (items.map Prod.fst) w) := by
  induction items generalizing s w with
  | nil => exact reads_pure h []
  | cons i items ih =>
    refine (reads_readWide h hn (hx i (List.mem_cons_self ..)) (hgood i (List.mem_cons_self ..))
      (hput.mono (prefix_putWides ..))).bind fun t hsame ht => ?_
    rw [← hsame.giop12] at ht hput ⊢
    refine (ih (fun j hj => hx j (List.mem_cons_of_mem _ hj))
      (fun j hj => hsame.giop12 ▸ hgood j (List.mem_cons_of_mem _ hj)) ht
      (hsame.agrees hput)).bind fun u _ hu => reads_pure hu _

theorem readWides_append {items items' : List WideItem} {zs : List (List WChar)}
    (h : readWides n (items ++ items') s = some (.ok zs, t)) : ∃ xs ys u,
      readWides n items s = some (.ok xs, u) ∧ readWides n items' u = some (.ok ys, t) := by
  induction items generalizing s zs with
  | nil => exact ⟨[], zs, s, rfl, h⟩
  | cons i items ih =>
    obtain ⟨x, u, hfirst, hrest⟩ := bind_eq_ok.mp h
    obtain ⟨zs, v, hrest, hpure⟩ := bind_eq_ok.mp hrest
    cases hpure
    obtain ⟨xs, ys, v, hxs, hys⟩ := ih hrest
    exact ⟨x :: xs, ys, v, bind_eq_ok.mpr ⟨x, u, hfirst, bind_eq_ok.mpr ⟨xs, v, hxs, rfl⟩⟩, hys⟩

/-- Values that are all read back are good, where no string is read as a `std::wstring`. -/
theorem good_of_readWides (hn : IsWidth n) {items : List WideItem}
    (hx : ∀ i ∈ items, i.1.Fits n) (ha : ∀ i ∈ items, i.2.read = .wchars)
    (h : At false s w) (hput : Agrees s (putWides n s.giop12 (items.map Prod.fst) w))
    (hread : readWides n items s = some (.ok (items.map WideItem.expected), t)) :
    ∀ i ∈ items, i.1.Good n s.giop12 i.2 := by
  induction items generalizing s w with
  | nil => exact List.forall_mem_nil _
  | cons i items ih =>
    obtain ⟨x, u, hfirst, hrest⟩ := bind_eq_ok.mp hread
    obtain ⟨xs, v, hrest, hpure⟩ := bind_eq_ok.mp hrest
    cases hpure
    have hgood := good_of_readWide hn (hx i (List.mem_cons_self ..)) (ha i (List.mem_cons_self ..))
      hfirst
    obtain ⟨u', hfirst', hsame, hu⟩ := reads_readWide h hn (hx i (List.mem_cons_self ..)) hgood
      (hput.mono (prefix_putWides ..))
    cases Option.some.inj (hfirst.symm.trans hfirst')
    rw [← hsame.giop12] at hu hput hgood ⊢
    exact List.forall_mem_cons.mpr ⟨hgood, ih (fun j hj => hx j (List.mem_cons_of_mem _ hj))
      (fun j hj => ha j (List.mem_cons_of_mem _ hj)) hu (hsame.agrees hput) hrest⟩

/-! ### A terminator of one byte -/

/-- The terminator is skipped as a character of four bytes. -/
theorem ahead_of_skipWchar (hgiop : s.giop12 = false) (h : At false s w)
    (hread : skipWchar (.plain 1) s = some (.ok (), t)) :
    SameBuffer s t ∧ InBounds t ∧ t.goodBit = true ∧ s.rdPtr + 4 ≤ t.rdPtr := by
  have hnot : ¬s.giop12 = true := Bool.not_eq_true _ ▸ hgiop
  have hword := @readWord_eq s 4 4 h.inBounds isAlign_four (by norm_num)
  have hle := le_alignUp four_pos s.rdPtr
  rw [skipWchar, get_bind_apply, if_neg hnot, if_neg (by decide)] at hread
  obtain ⟨x, u, hx, hpure⟩ := bind_eq_ok.mp hread
  cases hpure
  have hx : readWord 4 4 s = some (.ok x, t) := hx
  rw [hword] at hx
  split_ifs at hx with hend
  · cases hx
    have hbounds := h.inBounds.setRdPtr (rdPtr_le_valueEnd isAlign_four) hend
    refine ⟨⟨rfl, rfl, rfl⟩, hbounds, h.good, ?_⟩
    rw [setRdPtr_rdPtr_of_le hend, valueEnd]
    omega
  · cases hx

/-- **Behind the terminator** the reader is ahead of the writer. -/
theorem ahead_of_readStdWstring (hgiop : s.giop12 = false) (h : At false s w) {cs x : List WChar}
    (hx : ∀ c ∈ cs, c.toNat < 256 ^ 1) (hcount : cs.length + 1 < 2 ^ 32)
    (hput : Agrees s (putWstring 1 false (BitVec.ofNat 32 cs.length) cs w))
    (hread : readStdWstring (.plain 1) s = some (.ok x, t)) :
    SameBuffer s t ∧ InBounds t ∧ t.goodBit = true ∧
      s.base + (putWstring 1 false (BitVec.ofNat 32 cs.length) cs w).length + 3 ≤ t.rdPtr := by
  have hn : IsWidth 1 := Or.inl rfl
  rw [putWstring11_eq hcount, putWide_terminator hn] at hput ⊢
  have hnat : (BitVec.ofNat 32 (cs.length + 1)).toNat = cs.length + 1 := by
    rw [BitVec.toNat_ofNat, Nat.mod_eq_of_lt hcount]
  obtain ⟨u, hlen, hsame, hu⟩ := reads_readUlong h
    (hput.mono ((prefix_putArray ..).trans (prefix_put ..)))
  have hchars := reads_beforeTerminator hu hn hx hnat
    ((hsame.agrees hput).mono (prefix_put ..))
  -- what is read, up to the terminator
  obtain ⟨v, heq, hsame', hv⟩ := hchars
  have hnot : ¬u.giop12 = true := by
    rw [hsame.giop12, hgiop]
    exact Bool.false_ne_true
  have hskip : ∃ r, skipWchar (.plain 1) v = some (.ok r, t) := by
    rw [readStdWstring] at hread
    change (readUlong >>= fun len => Program.get >>= fun s => _ : Reader (List WChar)) s = _
      at hread
    rw [bind_of_ok hlen, get_bind_apply] at hread
    split_ifs at hread with hpos hone hzero
    · rw [if_pos hone] at heq
      obtain ⟨y, v', hy, hrest⟩ := bind_eq_ok.mp hread
      cases Option.some.inj (heq.symm.trans hy)
      obtain ⟨r, u', hr, hpure⟩ := bind_eq_ok.mp hrest
      cases hpure
      exact ⟨r, hr⟩
    · rw [if_neg hone] at heq
      obtain ⟨y, v', hy, hrest⟩ := bind_eq_ok.mp hread
      cases Option.some.inj (heq.symm.trans hy)
      obtain ⟨r, u', hr, hpure⟩ := bind_eq_ok.mp hrest
      cases hpure
      exact ⟨r, hr⟩
    · have hnat' := congrArg BitVec.toNat hzero
      rw [hnat] at hnat'
      exact absurd hnat' (Nat.succ_ne_zero _)
    · cases hread
  obtain ⟨⟨⟩, hskip⟩ := hskip
  obtain ⟨hsame'', hbounds, hgood, hge⟩ := ahead_of_skipWchar
    (by rw [hsame'.giop12, hsame.giop12, hgiop]) hv hskip
  refine ⟨(hsame.trans hsame').trans hsame'', hbounds, hgood, ?_⟩
  have hbase := (hsame.trans hsame').base
  have hrd : v.rdPtr = v.base +
      (putWide 1 cs (put 4 (image 4 (BitVec.ofNat 32 (cs.length + 1))) w)).length := hv.rdPtr
  rw [length_put one_pos, alignUp_one, length_image]
  omega

/-- Characters of one byte are read one by one, wherever the reader is. -/
theorem rdPtr_of_readWides (hgiop : s.giop12 = false) (h : InBounds s) {items : List WideItem}
    (hchars : ∀ i ∈ items, ∃ x, i.1 = .wchar x) {xs : List (List WChar)}
    (hread : readWides 1 items s = some (.ok xs, t)) :
    InBounds t ∧ t.rdPtr = s.rdPtr + items.length ∧ t.wrPtr = s.wrPtr := by
  induction items generalizing s xs with
  | nil =>
    cases hread
    exact ⟨h, rfl, rfl⟩
  | cons i items ih =>
    obtain ⟨⟨x, a⟩, rfl⟩ : ∃ p : WChar × Access, i = (.wchar p.1, p.2) := by
      obtain ⟨x, hx⟩ := hchars i (List.mem_cons_self ..)
      exact ⟨(x, i.2), Prod.ext hx rfl⟩
    have hnot : ¬s.giop12 = true := Bool.not_eq_true _ ▸ hgiop
    obtain ⟨y, u, hfirst, hrest⟩ := bind_eq_ok.mp hread
    obtain ⟨ys, v, hrest, hpure⟩ := bind_eq_ok.mp hrest
    cases hpure
    have hchar : ∃ c, readWchar (.plain 1) a.stale s = some (.ok c, u) := by
      obtain ⟨c, v, hc, hpure⟩ := bind_eq_ok.mp hfirst
      cases hpure
      exact ⟨c, hc⟩
    obtain ⟨c, hchar⟩ := hchar
    rw [readWchar] at hchar
    change (Program.get >>= fun s => _ : Reader WChar) s = _ at hchar
    rw [get_bind_apply, if_neg (by decide), if_neg (by decide), if_neg hnot,
      if_neg (by decide)] at hchar
    obtain ⟨o, v, hread1, hpure⟩ := bind_eq_ok.mp (eq_of_orFail hchar)
    cases hpure
    rw [read1_eq h] at hread1
    split_ifs at hread1 with hlt
    · cases hread1
      have hnext := setRdPtr_rdPtr_of_le (s := s) (p := s.rdPtr + 1) hlt
      obtain ⟨ht, hrd, hwr⟩ := ih (s := s.setRdPtr (s.rdPtr + 1)) hgiop
        (h.setRdPtr (Nat.le_succ _) hlt) (fun j hj => hchars j (List.mem_cons_of_mem _ hj)) hrest
      refine ⟨ht, ?_, hwr⟩
      rw [hrd, hnext, List.length_cons]
      omega
    · cases hread1

end InputCDR

/-! ### The result -/

/-- The value is a single character. -/
def Wide.IsChar : Wide → Prop
  | .wchar _ => True
  | .wstring _ _ => False

/-- **A list that makes the round trip**: the lengths of its strings are `ULong`s; in GIOP 1.2 its
characters of two bytes are not negative as a `Short`; and it has no strings of one-byte characters
in GIOP 1.1. -/
structure SafeWides (n : ℕ) (giop12 : Bool) (xs : List Wide) : Prop where
  countable : ∀ x ∈ xs, x.Countable n giop12
  positive : giop12 = true → n = 2 → ∀ x ∈ xs, x.Positive
  chars : giop12 = false → n = 1 → ∀ x ∈ xs, x.IsChar

section

variable {n : ℕ} {giop12 : Bool} {xs : List Wide}

/-- The values are written, and the stream that is constructed begins with their bytes. -/
theorem wideWritten_spec (giop12 : Bool) (hn : IsWidth n) (f : Fragmentation)
    (items : List WideItem) :
    ∃ t answers, Machine.run (wideStep n f.heap) (f.start false 1 (giopMinor giop12)) items =
      some (t, answers) ∧
    (∀ answer ∈ answers, answer = .ok ()) ∧
    t.totalLength = (putWides n giop12 (items.map Prod.fst) []).length ∧
    ∀ (base : ℕ) (fill : ℕ → UInt8), base + t.totalLength + maxAlignment ≤ addressLimit →
      ∃ s, InputCDR.ofOutputCDR base fill t = some s ∧ InputCDR.At false s [] ∧
        s.Agrees (putWides n giop12 (items.map Prod.fst) []) ∧ s.giop12 = giop12 ∧
        s.wrPtr = s.base + (putWides n giop12 (items.map Prod.fst) []).length := by
  have hminor : (f.start false 1 (giopMinor giop12)).minorVersion ≠ 0 := by
    rcases giop12 with _ | _
    · exact (by decide : (1 : UInt8) ≠ 0)
    · exact (by decide : (2 : UInt8) ≠ 0)
  have hversion : (f.start false 1 (giopMinor giop12)).giop12 = giop12 := by
    rcases giop12 with _ | _ <;> rfl
  obtain ⟨t, answers, hrun, hanswers, hconfig, hwire⟩ := wideRun_spec f.heap hn
    (OutputCDR.init_ready f.base f.size f.memcpyTradeoff false 1 (giopMinor giop12)) rfl hminor
    items
  rw [show (OutputCDR.init f.base f.size f.memcpyTradeoff false 1 (giopMinor giop12)).giop12 =
    giop12 from hversion] at hwire
  have htotal : t.totalLength = t.wire.length := by
    rw [OutputCDR.totalLength, OutputCDR.wire, List.length_flatMap]
  refine ⟨t, answers, hrun, hanswers, htotal.trans (congrArg List.length hwire),
    fun base fill hfits => ?_⟩
  obtain ⟨s, heq, hat, hagrees, hgiop, hwr⟩ := InputCDR.ofOutputCDR_spec fill hfits
  have hsame : t.giop12 = giop12 := by
    rw [← hversion, OutputCDR.giop12, OutputCDR.giop12, hconfig.majorVersion, hconfig.minorVersion]
    rfl
  rw [hconfig.doByteSwap] at hat
  rw [hwire] at hagrees hwr
  exact ⟨s, heq, hat, hagrees, hgiop.trans hsame, hwr⟩

theorem wideRoundTrips_of_safe (hn : IsWidth n) (hx : ∀ x ∈ xs, x.Fits n)
    (h : SafeWides n giop12 xs) : WideRoundTrips n giop12 xs := by
  rintro f items rfl
  obtain ⟨t, answers, hrun, hanswers, -, hread⟩ := wideWritten_spec giop12 hn f items
  refine ⟨t, answers, hrun, hanswers, fun base fill hfits => ?_⟩
  obtain ⟨s, heq, hat, hagrees, rfl, hwr⟩ := hread base fill hfits
  have hmem {i : WideItem} (hi : i ∈ items) : i.1 ∈ items.map Prod.fst := List.mem_map_of_mem hi
  have hgood : ∀ i ∈ items, i.1.Good n s.giop12 i.2 := by
    rintro ⟨x, a⟩ hi
    refine ⟨h.countable x (hmem hi), fun hgiop htwo => h.positive hgiop htwo x (hmem hi),
      fun hgiop hone hstd => ?_⟩
    have hchar := h.chars hgiop hone x (hmem hi)
    cases x with
    | wchar c => exact hstd
    | wstring cs hnul => exact hchar
  obtain ⟨u, hread, hsame, hu⟩ := InputCDR.reads_readWides hn (fun i hi => hx i.1 (hmem hi)) hgood
    hat hagrees
  refine ⟨s, u, heq, hread, ?_⟩
  have hend : u.wrPtr = u.rdPtr := by
    rw [hu.rdPtr, InputCDR.wrPtr, hsame.data, hsame.base]
    exact hwr
  rw [InputCDR.length_eq hu.inBounds, hend, Nat.sub_self]

/-- What there is room for in the address space. -/
def WideRoom (xs : List Wide) : Prop := (xs.map Wide.room).sum + maxAlignment ≤ addressLimit

/-- What a round trip says about one choice of the types of the strings. -/
theorem read_of_wideRoundTrips (hn : IsWidth n) (hroom : WideRoom xs)
    (h : WideRoundTrips n giop12 xs) {items : List WideItem} (hitems : items.map Prod.fst = xs) :
    ∃ s u, InputCDR.At false s [] ∧ s.Agrees (putWides n s.giop12 xs []) ∧ s.giop12 = giop12 ∧
      s.wrPtr = s.base + (putWides n s.giop12 xs []).length ∧
      InputCDR.readWides n items s = some (.ok (items.map WideItem.expected), u) := by
  obtain ⟨t, answers, hrun, -, htotal, hspec⟩ :=
    wideWritten_spec giop12 hn ⟨0, 0, 0, id⟩ items
  obtain ⟨t', answers', hrun', -, hread⟩ := h ⟨0, 0, 0, id⟩ items hitems
  cases Option.some.inj (hrun.symm.trans hrun')
  have hfits : 0 + t.totalLength + maxAlignment ≤ addressLimit := by
    have hlen := length_putWides_le hn giop12 xs []
    rw [WideRoom] at hroom
    rw [htotal, hitems]
    rw [List.length_nil] at hlen
    omega
  obtain ⟨s, heq, hat, hagrees, rfl, hwr⟩ := hspec 0 (fun _ => 0) hfits
  obtain ⟨s', u, heq', hread, -⟩ := hread 0 (fun _ => 0) hfits
  cases Option.some.inj (heq.symm.trans heq')
  rw [hitems] at hagrees hwr
  exact ⟨s, u, hat, hagrees, rfl, hwr, hread⟩

/-- Values that are written and read without a `std::wstring`. -/
def asArrays (xs : List Wide) : List WideItem := xs.map fun x => (x, ⟨.wchars, .wchars, 0⟩)

theorem map_fst_asArrays (xs : List Wide) : (asArrays xs).map Prod.fst = xs := by
  rw [asArrays, List.map_map]
  exact List.map_id xs

theorem forall_asArrays {P : WideItem → Prop} :
    (∀ i ∈ asArrays xs, P i) ↔ ∀ x ∈ xs, P (x, ⟨.wchars, .wchars, 0⟩) := List.forall_mem_map

theorem good_of_wideRoundTrips (hn : IsWidth n) (hx : ∀ x ∈ xs, x.Fits n) (hroom : WideRoom xs)
    (h : WideRoundTrips n giop12 xs) : ∀ x ∈ xs, x.Good n giop12 ⟨.wchars, .wchars, 0⟩ := by
  obtain ⟨s, u, hat, hagrees, rfl, -, hread⟩ :=
    read_of_wideRoundTrips hn hroom h (map_fst_asArrays xs)
  rw [← map_fst_asArrays xs] at hagrees
  exact forall_asArrays.mp (InputCDR.good_of_readWides hn (forall_asArrays.mpr hx)
    (forall_asArrays.mpr fun _ _ => rfl) hat hagrees hread)

/-- A list that has more than characters has a last string. -/
theorem exists_last_wstring (h : ¬∀ x ∈ xs, x.IsChar) : ∃ pre cs hnul post,
    xs = pre ++ .wstring cs hnul :: post ∧ ∀ x ∈ post, ∃ c, x = .wchar c := by
  induction xs with
  | nil => exact absurd (List.forall_mem_nil _) h
  | cons x xs ih =>
    by_cases hxs : ∀ x ∈ xs, x.IsChar
    · cases x with
      | wchar c => exact absurd (List.forall_mem_cons.mpr ⟨trivial, hxs⟩) h
      | wstring cs hnul =>
        refine ⟨[], cs, hnul, xs, rfl, fun y hy => ?_⟩
        have hchar := hxs y hy
        cases y with
        | wchar c => exact ⟨c, rfl⟩
        | wstring cs hnul => exact hchar.elim
    · obtain ⟨pre, cs, hnul, post, rfl, hpost⟩ := ih hxs
      exact ⟨x :: pre, cs, hnul, post, rfl, hpost⟩

/-- **A string of one-byte characters in GIOP 1.1** does not make the round trip. -/
theorem isChar_of_wideRoundTrips (hx : ∀ x ∈ xs, x.Fits 1) (hroom : WideRoom xs)
    (h : WideRoundTrips 1 false xs) : ∀ x ∈ xs, x.IsChar := by
  have hn : IsWidth 1 := Or.inl rfl
  have hgood := good_of_wideRoundTrips hn hx hroom h
  by_contra hstring
  obtain ⟨pre, cs, hnul, post, rfl, hpost⟩ := exists_last_wstring hstring
  -- the last string is read as a `std::wstring`
  have hitems : (asArrays pre ++ (.wstring cs hnul, ⟨.wchars, .stdWstring, 0⟩) ::
      asArrays post).map Prod.fst = pre ++ .wstring cs hnul :: post := by
    rw [List.map_append, List.map_cons, map_fst_asArrays, map_fst_asArrays]
  obtain ⟨s, u, hat, hagrees, hgiop, hwr, hread⟩ := read_of_wideRoundTrips hn hroom h hitems
  obtain ⟨vs, vs', t, hpre, hrest⟩ := InputCDR.readWides_append hread
  obtain ⟨x, v, hwstring, hchars⟩ := bind_eq_ok.mp hrest
  obtain ⟨ys, v', hchars, hpure⟩ := bind_eq_ok.mp hchars
  cases hpure
  have hstring := hgood _ (List.mem_append_right pre (List.mem_cons_self ..))
  rw [hgiop, putWides_append] at hagrees hwr
  -- the reader is not ahead before the string
  have hagrees' := hagrees.mono (prefix_putWides ..)
  rw [← hgiop, ← map_fst_asArrays pre] at hagrees'
  obtain ⟨t', hpre', hsame, ht⟩ := InputCDR.reads_readWides hn
    (forall_asArrays.mpr fun x hxs => hx x (List.mem_append_left _ hxs))
    (forall_asArrays.mpr fun x hxs => hgiop ▸ hgood x (List.mem_append_left _ hxs)) hat hagrees'
  cases Option.some.inj (hpre.symm.trans hpre')
  rw [map_fst_asArrays, hgiop] at ht
  -- it is ahead behind it
  obtain ⟨hsame', hbounds, -, hge⟩ := InputCDR.ahead_of_readStdWstring
    (hsame.giop12.trans hgiop) ht (hx _ (List.mem_append_right pre (List.mem_cons_self ..)))
    hstring.countable (hsame.agrees (hagrees.mono (prefix_putWides 1 false post _))) hwstring
  -- and it stays ahead
  obtain ⟨hbounds', hrd, hwr'⟩ := InputCDR.rdPtr_of_readWides
    (by rw [hsame'.giop12, hsame.giop12, hgiop]) hbounds (forall_asArrays.mpr hpost) hchars
  have hle := hbounds'.le
  have hend : v.wrPtr = s.wrPtr := by
    rw [InputCDR.wrPtr, InputCDR.wrPtr, hsame'.base, hsame'.data, hsame.base, hsame.data]
  have hlen : (asArrays post).length = post.length := List.length_map _
  have htotal := length_putWides_chars hpost
    ((Wide.wstring cs hnul).put 1 false (putWides 1 false pre []))
  change (putWides 1 false (.wstring cs hnul :: post) _).length = _ at htotal
  rw [hwr', hend, hwr, htotal, hrd, hlen] at hle
  rw [hsame.base] at hge
  change s.base + ((Wide.wstring cs hnul).put 1 false (putWides 1 false pre [])).length + 3 ≤ _
    at hge
  omega

/-- **The lists that make the round trip.** -/
theorem wideRoundTrips_iff (hn : IsWidth n) (hx : ∀ x ∈ xs, x.Fits n) (hroom : WideRoom xs) :
    WideRoundTrips n giop12 xs ↔ SafeWides n giop12 xs := by
  refine ⟨fun h => ?_, wideRoundTrips_of_safe hn hx⟩
  have hgood := good_of_wideRoundTrips hn hx hroom h
  refine ⟨fun x hxs => (hgood x hxs).countable, fun hgiop htwo x hxs =>
    (hgood x hxs).positive hgiop htwo, ?_⟩
  rintro rfl rfl
  exact isChar_of_wideRoundTrips hx hroom h

end

/-- A list of a character and a string, with two bytes for a character in GIOP 1.2. -/
theorem wideRoundTrips_iff_two :
    WideRoundTrips 2 true [.wchar 0x7fff, .wstring [0x8000] (by decide)] ↔
      SafeWides 2 true [.wchar 0x7fff, .wstring [0x8000] (by decide)] := by
  refine wideRoundTrips_iff (Or.inr (Or.inl rfl)) ?_ ?_
  · simp only [List.forall_mem_cons, Wide.Fits, Wide.chars]
    exact ⟨⟨by decide, List.forall_mem_nil _⟩, ⟨by decide, List.forall_mem_nil _⟩,
      List.forall_mem_nil _⟩
  · rw [WideRoom]
    decide

/-- A character above 2¹⁵ is not read back. -/
theorem wideRoundTrips_fails :
    (Wide.wchar 0x8000).Fits 2 ∧ ¬WideRoundTrips 2 true [.wchar 0x8000] := by
  have hfits : (Wide.wchar 0x8000).Fits 2 := List.forall_mem_singleton.mpr (by decide)
  refine ⟨hfits, fun h => ?_⟩
  have hgood := good_of_wideRoundTrips (Or.inr (Or.inl rfl)) (List.forall_mem_singleton.mpr hfits)
    (by rw [WideRoom]; decide) h _ (List.mem_singleton_self _)
  exact absurd (hgood.positive rfl rfl) (by decide : ¬(0x8000 : WChar).toNat < 2 ^ 15)

end AceTao.Cdr
