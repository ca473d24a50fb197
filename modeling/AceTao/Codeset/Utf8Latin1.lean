import AceTao.Cdr.WideReadBack

/-!
# Latin-1 strings in UTF-8

`TAO_UTF8_Latin1_Translator` writes the characters of a Latin-1 string one after the other, each as
one or two octets, behind the number of these octets; it reads them one after the other as well.

A character of two octets is put together from other bits than it was split into: it is read as `@`,
whatever it was (`reads_readCharI`). So the strings that make the round trip are those without
such characters, if their length with the terminator is a `ULong` (`latin1_roundTrips_iff`).
-/

namespace AceTao.Utf8Latin1

open Program ByteImage Cdr

/-! ### The translator -/

/-- A single character is one octet. -/
def readChar : Reader Octet := do
  let ox ← InputCDR.read1
  if ox < 0xC0 then pure ox else Program.throw .content

/-- A character of one or two octets, with the number of its octets. -/
def readCharI : Reader (Octet × ULong) := do
  let upper ← InputCDR.read1
  if 0xC4 ≤ upper then Program.throw .content
  else if upper < 0xC0 then pure (upper, 1)
  else do
    let lower ← InputCDR.read1
    pure ((upper &&& 0xBF) <<< 6 + (lower &&& 0xC0), 2)

/-- The loop over `len` octets, from the octet `i` on. The counter is a `ULong` and may wrap around;
the number of iterations is bounded, and an exhausted bound has no answer. -/
def readChars (len : ULong) : ℕ → ULong → Reader (List Octet)
  | 0, _ => Program.undefined
  | fuel + 1, i =>
    if i < len then do
      let (x, incr) ← readCharI
      let xs ← readChars len fuel (i + incr)
      pure (x :: xs)
    else pure []

/-- A string as an array of characters: those that are read, with the terminator. -/
def readString : Reader (List Octet) := do
  let len ← InputCDR.readUlong
  let s ← Program.get
  if 0 < len.toNat ∧ len.toNat ≤ s.length then readChars len (s.length + 1) 0
  else if len = 0 then pure [0]
  else Program.throw .bounds

/-- A string as a `std::string`: it has been resized to the number of octets. -/
def readStdString : Reader (List Octet) := do
  let len ← InputCDR.readUlong
  let s ← Program.get
  if 0 < len.toNat ∧ len.toNat ≤ s.length then do
    let x ← readChars (len - 1) (s.length + 1) 0
    let _ ← readCharI
    pure (x ++ List.replicate ((len - 1).toNat - x.length) 0)
  else Program.throw (if len = 0 then .content else .bounds)

/-- The loop over the characters of an array. -/
def readCharLoop : ℕ → Reader (List Octet)
  | 0 => pure []
  | n + 1 => do
    let x ← readChar
    let xs ← readCharLoop n
    pure (x :: xs)

def readCharArray (length : ULong) : Reader (List Octet) := readCharLoop length.toNat

/-- **The translator**, as the input stream calls it. -/
def translator : CharTranslator := ⟨readChar, readString, readStdString, readCharArray⟩

variable (heap : ℕ → ℕ)

def writeCharI (x : Octet) : Writer Unit :=
  if x < 0xC0 then OutputCDR.write1 heap x
  else do
    OutputCDR.write1 heap ((0xC0 : Octet) + (x >>> 6))
    OutputCDR.write1 heap (0x80 + (x &&& 0x3F))

def writeChars : List Octet → Writer Unit
  | [] => pure ()
  | x :: xs => do
    writeCharI heap x
    writeChars xs

/-- The number of octets that is announced, with the terminator, a `ULong`. -/
def announced (len : ULong) (x : List Octet) : ULong :=
  len + BitVec.ofNat 32 (x.countP (0xBF < ·)) + 1

/-- A string of `len` characters; `none` is a null pointer. -/
def writeString (len : ULong) (x : Option (List Octet)) : Writer Unit :=
  if x = none ∧ len ≠ 0 then Program.throw .content
  else do
    let chars := (x.getD []).take len.toNat
    OutputCDR.writeUlong heap (announced len chars)
    writeChars heap chars
    OutputCDR.write1 heap 0

variable {heap}

/-! ### What is written -/

/-- The octets of a character. -/
def utf8 (c : Octet) : List Octet :=
  if c < 0xC0 then [c] else [(0xC0 : Octet) + (c >>> 6), 0x80 + (c &&& 0x3F)]

/-- Octets, one after the other. -/
def putOctets (os : List Octet) (w : Wire) : Wire := os.foldl (fun w o => put 1 (image 1 o) w) w

theorem putOctets_append (os os' : List Octet) (w : Wire) :
    putOctets (os ++ os') w = putOctets os' (putOctets os w) := List.foldl_append

theorem prefix_putOctets (os : List Octet) (w : Wire) : w <+: putOctets os w := by
  induction os generalizing w with
  | nil => exact List.prefix_rfl
  | cons o os ih => exact (InputCDR.prefix_put 1 _ w).trans (ih _)

theorem length_putOctets (os : List Octet) (w : Wire) :
    (putOctets os w).length = w.length + os.length := by
  induction os generalizing w with
  | nil => rfl
  | cons o os ih =>
    have hput : (put 1 (image 1 o) w).length = w.length + 1 := by
      rw [length_put one_pos, AlignUp.alignUp_one]
      exact congrArg (w.length + ·) (length_leBytes 1 _)
    change (putOctets os (put 1 (image 1 o) w)).length = _
    rw [ih, hput, List.length_cons]
    omega

/-- **The bytes of a string.** -/
def putString (swap : Bool) (cs : List Octet) (w : Wire) : Wire :=
  putOctets (cs.flatMap utf8 ++ [0])
    (put 4 (wireImage 4 swap (announced (BitVec.ofNat 32 cs.length) cs)) w)

theorem writes_writeCharI {s : OutputCDR} (h : s.Ready) (x : Octet) :
    OutputCDR.Writes (writeCharI heap x) s (putOctets (utf8 x) s.wire) := by
  rw [writeCharI, utf8]
  split_ifs with hx
  · exact OutputCDR.writes_write1 h x
  · refine (OutputCDR.writes_write1 h _).bind fun t ht _ hwire => ?_
    have hwrites := @OutputCDR.writes_write1 heap t ht (0x80 + (x &&& 0x3F))
    rwa [hwire] at hwrites

theorem writes_writeChars {s : OutputCDR} (h : s.Ready) (xs : List Octet) :
    OutputCDR.Writes (writeChars heap xs) s (putOctets (xs.flatMap utf8) s.wire) := by
  induction xs generalizing s with
  | nil => exact OutputCDR.writes_pure h
  | cons x xs ih =>
    rw [List.flatMap_cons, putOctets_append]
    exact (writes_writeCharI h x).bind fun t ht _ hwire => hwire ▸ ih ht

/-- **A string is written.** -/
theorem writes_writeString {s : OutputCDR} (h : s.Ready) {cs : List Octet}
    (hlen : cs.length < 2 ^ 32) :
    OutputCDR.Writes (writeString heap (BitVec.ofNat 32 cs.length) (some cs)) s
      (putString s.doByteSwap cs s.wire) := by
  have hnat : (BitVec.ofNat 32 cs.length).toNat = cs.length := by
    rw [BitVec.toNat_ofNat, Nat.mod_eq_of_lt hlen]
  have htake : cs.take (BitVec.ofNat 32 cs.length).toNat = cs := by rw [hnat, List.take_length]
  rw [writeString, if_neg (by simp), Option.getD_some, htake, putString, putOctets_append]
  refine (OutputCDR.writes_writeWord h isAlign_four _).bind fun t ht _ hwire => ?_
  refine (writes_writeChars ht cs).bind fun u hu _ hwire' => ?_
  have hwrites := @OutputCDR.writes_write1 heap u hu 0
  rwa [hwire', hwire] at hwrites

/-! ### What is read -/

/-- What a character is read as. -/
def garbled (c : Octet) : Octet := if c < 0xC0 then c else 0x40

theorem garbled_eq_iff (c : Octet) : garbled c = c ↔ c < 0xC0 := by
  rw [garbled]
  split_ifs with hc
  · exact iff_of_true rfl hc
  · refine iff_of_false ?_ hc
    rintro rfl
    exact hc (by decide)

/-- **The bits of two octets** are not those of the character. -/
theorem combine_utf8 {c : Octet} (hc : ¬c < 0xC0) : (0xC0 : Octet) + (c >>> 6) = 0xC3 ∧
    ((0xC3 : Octet) &&& 0xBF) <<< 6 + ((0x80 + (c &&& 0x3F)) &&& 0xC0) = (0x40 : Octet) := by
  have hall : ∀ i : Fin (2 ^ 8), ¬(BitVec.ofFin i : Octet) < 0xC0 →
      (0xC0 : Octet) + ((BitVec.ofFin i : Octet) >>> 6) = 0xC3 ∧
      ((0xC3 : Octet) &&& 0xBF) <<< 6 +
        ((0x80 + ((BitVec.ofFin i : Octet) &&& 0x3F)) &&& 0xC0) = (0x40 : Octet) := by
    decide +kernel
  exact hall c.toFin hc

variable {swap : Bool} {s t : InputCDR} {w : Wire}

/-- **A character of two octets** is read as another one. -/
theorem reads_readCharI (h : s.At swap w) (c : Octet) (hput : s.Agrees (putOctets (utf8 c) w)) :
    InputCDR.Reads swap readCharI (garbled c, BitVec.ofNat 32 (utf8 c).length) s
      (putOctets (utf8 c) w) := by
  rw [utf8] at hput ⊢
  rw [readCharI, garbled]
  split_ifs at hput ⊢ with hc
  · refine (InputCDR.reads_read1 h hput).bind fun u _ hu => ?_
    have hle : ¬(0xC4 : Octet) ≤ c := by
      rw [BitVec.lt_def] at hc
      rw [BitVec.le_def]
      change c.toNat < 192 at hc
      change ¬196 ≤ c.toNat
      omega
    rw [if_neg hle, if_pos hc]
    exact InputCDR.reads_pure hu _
  · obtain ⟨hupper, hcombine⟩ := combine_utf8 hc
    rw [hupper] at hput ⊢
    refine (InputCDR.reads_read1 h (hput.mono (InputCDR.prefix_put ..))).bind fun u hsame hu => ?_
    rw [if_neg (by decide), if_neg (by decide)]
    refine (InputCDR.reads_read1 hu (hsame.agrees hput)).bind fun v _ hv => ?_
    rw [hcombine]
    exact InputCDR.reads_pure hv _

/-- **Characters of one octet** are read back. -/
theorem reads_readChars {len : ULong} {cs : List Octet} (hcs : ∀ c ∈ cs, c < 0xC0) {fuel : ℕ}
    {i : ULong} (hi : i.toNat + cs.length = len.toNat) (hfuel : cs.length < fuel)
    (h : s.At swap w) (hput : s.Agrees (putOctets cs w)) :
    InputCDR.Reads swap (readChars len fuel i) cs s (putOctets cs w) := by
  induction cs generalizing fuel i s w with
  | nil =>
    obtain _ | fuel := fuel
    · omega
    · rw [List.length_nil, Nat.add_zero] at hi
      rw [readChars, if_neg (by rw [BitVec.lt_def]; omega)]
      exact InputCDR.reads_pure h []
  | cons c cs ih =>
    obtain _ | fuel := fuel
    · omega
    · have hc : c < 0xC0 := hcs c (List.mem_cons_self ..)
      have hutf8 : utf8 c = [c] := if_pos hc
      have hlt := len.isLt
      rw [List.length_cons] at hi hfuel
      have hfirst := reads_readCharI h c (by
        rw [hutf8]
        exact hput.mono (prefix_putOctets cs _))
      rw [hutf8, (garbled_eq_iff c).mpr hc] at hfirst
      have hnext : (i + BitVec.ofNat 32 [c].length).toNat = i.toNat + 1 := by
        rw [BitVec.toNat_add, List.length_singleton]
        exact Nat.mod_eq_of_lt (by simp; omega)
      rw [readChars, if_pos (by rw [BitVec.lt_def]; omega)]
      refine hfirst.bind fun u hsame hu => ?_
      refine (ih (fun d hd => hcs d (List.mem_cons_of_mem _ hd)) (by rw [hnext]; omega)
        (by omega) hu (hsame.agrees hput)).bind fun v _ hv => ?_
      exact InputCDR.reads_pure hv _

/-- **Whatever is read**, it begins with the characters as they are read one by one. -/
theorem prefix_of_readChars {len : ULong} (cs : List Octet) {fuel : ℕ} {i : ULong}
    {xs : List Octet} (h : s.At swap w) (hput : s.Agrees (putOctets (cs.flatMap utf8) w))
    (hread : readChars len fuel i s = some (.ok xs, t)) :
    xs.take cs.length <+: cs.map garbled := by
  induction cs generalizing fuel i s w xs with
  | nil => exact List.nil_prefix
  | cons c cs ih =>
    obtain _ | fuel := fuel
    · cases hread
    · rw [List.flatMap_cons, putOctets_append] at hput
      rw [readChars, ite_run] at hread
      split_ifs at hread with hi
      · obtain ⟨u, hchar, hsame, hu⟩ :=
          reads_readCharI h c (hput.mono (prefix_putOctets (cs.flatMap utf8) _))
        rw [bind_of_ok hchar] at hread
        obtain ⟨ys, v, hys, hpure⟩ := bind_eq_ok.mp hread
        cases hpure
        rw [List.length_cons, List.take_succ_cons, List.map_cons, List.prefix_cons_inj]
        exact ih hu (hsame.agrees hput) hys
      · cases hread
        exact List.nil_prefix

/-- A character that is read takes an octet at least. -/
theorem readCharI_answers (h : s.InBounds) : ∃ r u, readCharI s = some (r, u) ∧
    ∀ x, r = .ok x → u.InBounds ∧ u.wrPtr - u.rdPtr < s.wrPtr - s.rdPtr := by
  have hread := InputCDR.read1_eq h
  rw [readCharI]
  split_ifs at hread with hlt
  · have hnext := InputCDR.setRdPtr_rdPtr_of_le (s := s) (p := s.rdPtr + 1) hlt
    have hu := h.setRdPtr (Nat.le_succ _) hlt
    rw [bind_of_ok hread]
    split_ifs with hhigh hlow
    · exact ⟨_, _, rfl, fun _ => nofun⟩
    · refine ⟨_, _, rfl, fun x _ => ⟨hu, ?_⟩⟩
      rw [hnext, InputCDR.setRdPtr_wrPtr]
      omega
    · have hread' := InputCDR.read1_eq hu
      rw [Nat.succ_eq_add_one, hnext, InputCDR.setRdPtr_wrPtr] at hread'
      split_ifs at hread' with hlt'
      · have hnext' := InputCDR.setRdPtr_rdPtr_of_le (s := s.setRdPtr (s.rdPtr + 1))
          (p := s.rdPtr + 1 + 1) hlt'
        refine ⟨_, _, bind_of_ok hread', fun x _ => ⟨hu.setRdPtr ?_ hlt', ?_⟩⟩
        · exact hnext.le.trans (Nat.le_succ _)
        · rw [hnext']
          change s.wrPtr - (s.rdPtr + 1 + 1) < _
          omega
      · exact ⟨.error .bounds, _, by rw [bind_apply, hread'], fun _ => nofun⟩
  · exact ⟨.error .bounds, _, by rw [bind_apply, hread], fun _ => nofun⟩

/-- **The number of iterations is enough.** -/
theorem isSome_readChars {len : ULong} {fuel : ℕ} {i : ULong} (h : s.InBounds)
    (hfuel : s.wrPtr - s.rdPtr < fuel) : (readChars len fuel i s).isSome := by
  induction fuel generalizing i s with
  | zero => omega
  | succ fuel ih =>
    rw [readChars, ite_run]
    split_ifs with hi
    · obtain ⟨r, u, hchar, hu⟩ := readCharI_answers h
      rcases r with e | ⟨x, incr⟩
      · rw [bind_apply, hchar]
        rfl
      · obtain ⟨hbounds, hleft⟩ := hu _ rfl
        have hrest : (readChars len fuel (i + incr) u).isSome := ih hbounds (by omega)
        obtain ⟨⟨r', v⟩, hrest⟩ := Option.isSome_iff_exists.mp hrest
        rw [bind_of_ok hchar]
        dsimp only
        rw [bind_apply, hrest]
        rcases r' with e | xs
        · rfl
        · rfl
    · rfl

/-! ### The round trip -/

/-- **The round trip** of a string: it is written, and wherever its octets are in a stream, both
forms of the string are read from there, up to the last octet. -/
def RoundTrips (cs : List Octet) : Prop :=
  ∀ (heap : ℕ → ℕ) (s : OutputCDR), s.Ready → ∃ t,
    writeString heap (BitVec.ofNat 32 cs.length) (some cs) s = some (.ok (), t) ∧
    ∀ r : InputCDR, r.At s.doByteSwap s.wire → r.Agrees t.wire →
      InputCDR.Reads s.doByteSwap translator.readString (cs ++ [0]) r t.wire ∧
      InputCDR.Reads s.doByteSwap translator.readStdString cs r t.wire

/-- **A string that makes the round trip**: its characters have one octet each, and its length with
the terminator is a `ULong`. -/
structure Plain (cs : List Octet) : Prop where
  chars : ∀ c ∈ cs, c < 0xC0
  short : cs.length + 1 < 2 ^ 32

section

variable {cs : List Octet}

/-- The octets of characters of one octet. -/
theorem flatMap_utf8 (h : ∀ c ∈ cs, c < 0xC0) : cs.flatMap utf8 = cs := by
  have hmap : cs.flatMap utf8 = cs.flatMap fun c => [c] :=
    List.flatMap_congr fun c hc => if_pos (h c hc)
  rw [hmap, List.flatMap_singleton']

/-- No octet is counted twice. -/
theorem announced_eq (h : ∀ c ∈ cs, c < 0xC0) :
    announced (BitVec.ofNat 32 cs.length) cs = BitVec.ofNat 32 (cs.length + 1) := by
  have hzero : cs.countP (0xBF < ·) = 0 := by
    rw [List.countP_eq_zero]
    intro c hc hlt
    have hle := h c hc
    rw [decide_eq_true_eq, BitVec.lt_def] at hlt
    rw [BitVec.lt_def] at hle
    change 191 < c.toNat at hlt
    change c.toNat < 192 at hle
    omega
  rw [announced, hzero, BitVec.ofNat_add]
  simp

theorem le_length {os : List Octet} (h : s.At swap w) (hput : s.Agrees (putOctets os w)) :
    os.length ≤ s.length := by
  have hle := hput.le
  rw [length_putOctets] at hle
  rw [InputCDR.length_eq h.inBounds, h.rdPtr, InputCDR.wrPtr]
  omega

/-- Characters of one octet make the round trip. -/
theorem roundTrips_of_plain (h : Plain cs) : RoundTrips cs := by
  intro heap s hs
  have hshort := h.short
  obtain ⟨t, heq, ht⟩ := @writes_writeString heap s hs cs (by omega)
  refine ⟨t, heq, fun r hr hagrees => ?_⟩
  have hnat : (BitVec.ofNat 32 (cs.length + 1)).toNat = cs.length + 1 := by
    rw [BitVec.toNat_ofNat, Nat.mod_eq_of_lt hshort]
  have hpred : (BitVec.ofNat 32 (cs.length + 1) - 1).toNat = cs.length := by
    rw [BitVec.toNat_sub, hnat]
    change (2 ^ 32 - 1 + (cs.length + 1)) % 2 ^ 32 = cs.length
    omega
  have hnul : ∀ c ∈ cs ++ [0], c < 0xC0 := by
    intro c hc
    rcases List.mem_append.mp hc with hc | hc
    · exact h.chars c hc
    · rw [List.mem_singleton.mp hc]
      decide
  have hlength : (cs ++ [0]).length = cs.length + 1 := List.length_append
  rw [ht.wire, putString, flatMap_utf8 h.chars, announced_eq h.chars] at hagrees ⊢
  have hlen := InputCDR.reads_readUlong hr (hagrees.mono (prefix_putOctets ..))
  constructor
  · refine hlen.bind fun u hsame hu => ?_
    have hle := le_length hu (hsame.agrees hagrees)
    rw [InputCDR.reads_get_bind, if_pos (by omega)]
    exact reads_readChars hnul (by rw [hnat, hlength]; exact Nat.zero_add _) (by omega) hu
      (hsame.agrees hagrees)
  · refine hlen.bind fun u hsame hu => ?_
    have hle := le_length hu (hsame.agrees hagrees)
    rw [putOctets_append] at hagrees ⊢
    rw [InputCDR.reads_get_bind, if_pos (by omega)]
    refine (reads_readChars h.chars (by rw [hpred]; exact Nat.zero_add _) (by omega) hu
      (hsame.agrees (hagrees.mono (prefix_putOctets [0] _)))).bind fun v hsame' hv => ?_
    refine (reads_readCharI hv 0 (hsame'.agrees (hsame.agrees hagrees))).bind fun _ _ hend => ?_
    rw [hpred, Nat.sub_self, List.replicate_zero, List.append_nil]
    exact InputCDR.reads_pure hend cs

/-- A string that is read back as an array of characters has no characters of two octets. -/
theorem plain_of_reads (hlen : cs.length < 2 ^ 32) (h : s.At swap w)
    (hput : s.Agrees (putString swap cs w))
    (hread : readString s = some (.ok (cs ++ [0]), t)) : Plain cs := by
  rw [putString, putOctets_append] at hput
  obtain ⟨u, hu, hsame, hat⟩ := InputCDR.reads_readUlong h
    (hput.mono ((prefix_putOctets ..).trans (prefix_putOctets ..)))
  rw [readString, bind_of_ok hu, get_bind_apply] at hread
  have hchars : ∀ c ∈ cs, c < 0xC0 := by
    split_ifs at hread with hpos hzero
    · have hpre := prefix_of_readChars cs hat
        (hsame.agrees (hput.mono (prefix_putOctets [0] _))) hread
      rw [List.take_left' rfl] at hpre
      have heq := hpre.eq_of_length (List.length_map _).symm
      intro c hc
      obtain ⟨n, hn, rfl⟩ := List.getElem_of_mem hc
      rw [← garbled_eq_iff]
      have hget := List.getElem_of_eq heq hn
      rw [List.getElem_map] at hget
      exact hget.symm
    · have hnil : cs = [] := by
        have hlength := congrArg List.length (Except.ok.inj (Prod.ext_iff.mp (Option.some.inj hread)).1)
        rw [List.length_append] at hlength
        exact List.eq_nil_of_length_eq_zero (Nat.succ.inj hlength).symm
      rw [hnil]
      exact List.forall_mem_nil _
    · cases hread
  refine ⟨hchars, ?_⟩
  by_contra hge
  -- the length with the terminator is announced as zero
  have hfull : cs.length + 1 = 2 ^ 32 := by omega
  have hzero : (BitVec.ofNat 32 (2 ^ 32)) = 0 := rfl
  rw [announced_eq hchars, hfull, hzero, if_neg (fun hpos => absurd hpos.1 (by decide)),
    if_pos rfl] at hread
  have hlength := congrArg List.length (Except.ok.inj (Prod.ext_iff.mp (Option.some.inj hread)).1)
  rw [List.length_append, List.length_singleton] at hlength
  omega

/-- There are streams that hold a string. -/
theorem exists_written (hlen : cs.length < 2 ^ 32) {t : OutputCDR}
    (ht : (OutputCDR.init 0 0 0 false 1 2).WritesTo (putString false cs []) t) :
    ∃ r : InputCDR, r.At false [] ∧ r.Agrees t.wire := by
  have hoctets : (cs.flatMap utf8).length ≤ 2 * cs.length := by
    clear hlen ht
    induction cs with
    | nil => exact Nat.zero_le _
    | cons c cs ih =>
      have hutf8 : (utf8 c).length ≤ 2 := by
        rw [utf8]
        split_ifs
        · exact Nat.le_succ 1
        · exact le_rfl
      rw [List.flatMap_cons, List.length_append, List.length_cons]
      omega
  have hwire : t.wire.length ≤ 8 + (2 * cs.length + 1) := by
    have hlt := AlignUp.alignUp_lt four_pos 0
    rw [ht.wire, putString, length_putOctets, length_put four_pos, length_wireImage,
      List.length_append, List.length_nil, List.length_singleton]
    omega
  have htotal : t.totalLength = t.wire.length := by
    rw [OutputCDR.totalLength, OutputCDR.wire, List.length_flatMap]
  have hfits : 0 + t.totalLength + maxAlignment ≤ addressLimit := by
    rw [htotal, maxAlignment, addressLimit]
    omega
  obtain ⟨r, -, hat, hagrees, -⟩ := InputCDR.ofOutputCDR_spec (fun _ => 0) hfits
  rw [ht.config.doByteSwap] at hat
  exact ⟨r, hat, hagrees⟩

/-- **The strings that make the round trip.** -/
theorem latin1_roundTrips_iff (hlen : cs.length < 2 ^ 32) : RoundTrips cs ↔ Plain cs := by
  refine ⟨fun h => ?_, roundTrips_of_plain⟩
  have hready := OutputCDR.init_ready 0 0 0 false 1 2
  obtain ⟨t, heq, hread⟩ := h id _ hready
  obtain ⟨t', heq', ht⟩ := @writes_writeString id _ hready cs hlen
  cases Option.some.inj (heq.symm.trans heq')
  obtain ⟨r, hat, hagrees⟩ := exists_written hlen ht
  obtain ⟨⟨u, hstring, -⟩, -⟩ := hread r hat hagrees
  rw [ht.wire] at hagrees
  exact plain_of_reads hlen hat hagrees hstring

end

/-- A string of characters of one octet. -/
theorem latin1_roundTrips_iff_plain : RoundTrips [0x41, 0xBF] ↔ Plain [0x41, 0xBF] :=
  latin1_roundTrips_iff (by decide)

/-- A capital A with a grave accent does not make the round trip. -/
theorem not_roundTrips_grave : ¬RoundTrips [0xC0] := fun h =>
  absurd (((latin1_roundTrips_iff (by decide)).mp h).chars 0xC0 (List.mem_singleton_self _)) (by decide)

end AceTao.Utf8Latin1
