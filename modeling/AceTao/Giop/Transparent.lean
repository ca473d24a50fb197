import AceTao.Giop.Sending

/-!
# Whether fragmentation is transparent

A message that was sent in fragments is joined by the receiver, as in `join`, and its values are
read from behind the header of the first fragment, at an aligned address (`Transparent`). The
contents of padding are whatever the memory of the sender had.

Strings are read as arrays of characters or as a `std::string`; their length with the terminator has
to be a `ULong`. Then the values are read back exactly where every cut is aligned
(`transparent_iff`): behind a cut that is not, the reader takes the padding for the next value.
-/

namespace AceTao.Giop

open Cdr ByteImage AlignUp Program

/-- What a `TAO_InputCDR` reads a string into. -/
inductive Destination
  | chars | stdString

abbrev Destination.form : Destination → StringForm
  | .chars => .chars
  | .stdString => .stdString

/-- The values that are inserted, each with what a string is read into. -/
abbrev MessageItem := Datum × Destination

abbrev MessageItem.kind (i : MessageItem) : Kind := i.1.kind i.2.form

/-- What is to be read back. -/
def MessageItem.expected (i : MessageItem) : (k : Kind) × k.Value := ⟨i.kind, i.1.value i.2.form⟩

/-- The bytes of a message of which the fragments were received. -/
def joinBytes : List (List UInt8) → List UInt8
  | [] => []
  | first :: later => first ++ later.flatMap fun bytes => bytes.drop (headerLen + fragmentHeader)

/-- **The stream over a message**, behind its header. -/
def messageCDR (base : ℕ) (bytes : List UInt8) (doByteSwap : Bool)
    (fits : base + bytes.length ≤ addressLimit) : InputCDR where
  base := base
  data := bytes
  rdPtr := base + headerLen
  doByteSwap := doByteSwap
  goodBit := true
  majorVersion := 1
  minorVersion := 2
  fits := fits

/-- **Fragmentation is transparent**: a message is sent, and whatever its padding contains, its
values are read back from the fragments. -/
def Transparent (maxMessageSize : ULong) (type : MsgType) (swap : Bool) (requestId : ULong)
    (items : List MessageItem) : Prop :=
  ∀ f : Fragmentation, headerLen + maxAlignment ≤ f.size → ∃ t,
    OutgoingCDR.sendBody f.heap maxMessageSize type (items.map Prod.fst)
      (OutgoingCDR.init f.base f.size f.memcpyTradeoff swap requestId) = some (.ok (), t) ∧
    ∀ fragments, List.Forall₂ Holds fragments t.sent →
      ∀ (n base : ℕ) (fits : base + (joinBytes fragments).length ≤ addressLimit), 8 ∣ base →
        ∃ u, InputCDR.readAll (Codeset.plain n) (items.map MessageItem.kind)
          (messageCDR base (joinBytes fragments) swap fits) =
            some (.ok (items.map MessageItem.expected), u)

/-- **The messages that pass**: every string is short, and every cut is aligned. -/
def Passes (maxMessageSize : ULong) (pos : ℕ) (ds : List Datum) : Prop :=
  (∀ d ∈ ds, d.Short) ∧ CutsAligned maxMessageSize pos ds

variable {maxMessageSize : ULong} {swap : Bool} {pos : ℕ} {w : Wire} {s : InputCDR} {n : ℕ}

theorem passes_cons (d : Datum) (ds : List Datum) : Passes maxMessageSize pos (d :: ds) ↔
    d.Short ∧ (Cuts maxMessageSize pos d → Aligned pos d) ∧ Passes maxMessageSize
      (d.finish (if Cuts maxMessageSize pos d then headerLen + fragmentHeader else pos)) ds := by
  rw [Passes, Passes, CutsAligned, List.forall_mem_cons]
  split_ifs <;> tauto

/-! ### What is read back -/

/-- The wire behind a value, and the position in the fragment. -/
theorem layout_cons (swap : Bool) (d : Datum) (ds : List Datum)
    (haligned : Cuts maxMessageSize pos d → Aligned pos d) (hmod : w.length % 8 = pos % 8) :
    layout maxMessageSize swap pos (d :: ds) w = layout maxMessageSize swap
      (d.finish (if Cuts maxMessageSize pos d then headerLen + fragmentHeader else pos)) ds
        (d.put swap w) ∧
      (d.put swap w).length % 8 =
        d.finish (if Cuts maxMessageSize pos d then headerLen + fragmentHeader else pos) % 8 := by
  rw [layout]
  split_ifs with hcut
  · have hput := put_padded_of_aligned swap (hcut.imp fun p hp => hp.1)
      ((aligned_congr (isAlign_firstAlign d) hmod).mpr (haligned hcut))
    have hlen : (padded w).length % 8 = (headerLen + fragmentHeader) % 8 := by
      rw [length_padded, alignUp]
      exact Nat.mul_mod_left _ _
    refine ⟨by rw [hput], ?_⟩
    rw [← hput, d.length_put]
    exact finish_congr d hlen
  · refine ⟨rfl, ?_⟩
    rw [d.length_put]
    exact finish_congr d hmod

/-- **The values of a message that passes** are read back. -/
theorem reads_layout {items : List MessageItem}
    (hpasses : Passes maxMessageSize pos (items.map Prod.fst)) (hmod : w.length % 8 = pos % 8)
    (h : InputCDR.At swap s w)
    (hput : s.Agrees (layout maxMessageSize swap pos (items.map Prod.fst) w)) :
    InputCDR.Reads swap
      (InputCDR.readAll (Codeset.plain n) (items.map MessageItem.kind))
      (items.map MessageItem.expected) s
      (layout maxMessageSize swap pos (items.map Prod.fst) w) := by
  induction items generalizing pos w s with
  | nil => exact InputCDR.reads_pure h []
  | cons i items ih =>
    obtain ⟨hshort, haligned, hrest⟩ := (passes_cons i.1 _).mp hpasses
    obtain ⟨hlayout, hmod'⟩ := layout_cons swap i.1 (items.map Prod.fst) haligned hmod
    have hmap : (i :: items).map Prod.fst = i.1 :: items.map Prod.fst := rfl
    rw [hmap, hlayout] at hput ⊢
    refine (InputCDR.reads_readKind i.2.form ?_ hshort h
      (hput.mono (prefix_layout ..))).bind fun t hsame ht => ?_
    · rcases i.2 <;> rintro ⟨⟩
    · refine (ih hrest hmod' ht (hsame.agrees hput)).bind fun u _ hu => ?_
      exact InputCDR.reads_pure hu _

/-! ### What is not -/

theorem length_readCharArray {len : ULong} {x : List Octet} {t : InputCDR}
    (h : InputCDR.readCharArray (Codeset.plain n) len s = some (.ok x, t)) :
    x.length = len.toNat := by
  rw [InputCDR.readCharArray, get_bind_apply] at h
  split_ifs at h
  · cases h
  · obtain ⟨bytes, u, -, hpure⟩ := bind_eq_ok.mp h
    cases hpure
    exact length_ofArrayImage ..

theorem readString_plain (n : ℕ) : InputCDR.readString (Codeset.plain n) =
    InputCDR.readUlong >>= fun len => Program.get >>= fun s =>
      if 0 < len.toNat ∧ len.toNat ≤ s.length then
        InputCDR.orFail (InputCDR.readCharArray (Codeset.plain n) len)
      else if len = 0 then pure [0]
      else InputCDR.fail .bounds := rfl

theorem readStdString_plain (n : ℕ) : InputCDR.readStdString (Codeset.plain n) =
    InputCDR.readUlong >>= fun len => Program.get >>= fun s =>
      if 0 < len.toNat ∧ len.toNat ≤ s.length then
        InputCDR.orFail (InputCDR.readCharArray (Codeset.plain n) (len - 1)) >>= fun x =>
          InputCDR.skipChar >>= fun _ => pure x
      else InputCDR.fail (if len = 0 then .content else .bounds) := rfl

/-- **A string that is read back** tells the length that was read before it. -/
theorem length_of_readString {form : Destination} {cs : List Octet} {t : InputCDR}
    (h : InputCDR.readKind (Codeset.plain n) (.string form.form) s =
      some (.ok (form.form.stored cs), t)) :
    ∃ len u, InputCDR.readUlong s = some (.ok len, u) ∧
      (len.toNat = cs.length + 1 ∨ len = 0 ∧ cs = []) := by
  rcases form with _ | _
  · have hread : InputCDR.readString (Codeset.plain n) s = some (.ok (cs ++ [0]), t) := h
    rw [readString_plain] at hread
    obtain ⟨len, u, hlen, hread⟩ := bind_eq_ok.mp hread
    refine ⟨len, u, hlen, ?_⟩
    rw [get_bind_apply] at hread
    split_ifs at hread with hpos hzero
    · have hlength := length_readCharArray (InputCDR.eq_of_orFail hread)
      rw [List.length_append, List.length_singleton] at hlength
      exact Or.inl hlength.symm
    · have hnil : [(0 : Octet)] = cs ++ [0] := Except.ok.inj (Prod.mk.inj (Option.some.inj hread)).1
      exact Or.inr ⟨hzero, List.append_cancel_right (hnil.symm.trans (List.nil_append _).symm)⟩
    · cases hread
  · have hread : InputCDR.readStdString (Codeset.plain n) s = some (.ok cs, t) := h
    rw [readStdString_plain] at hread
    obtain ⟨len, u, hlen, hread⟩ := bind_eq_ok.mp hread
    refine ⟨len, u, hlen, Or.inl ?_⟩
    rw [get_bind_apply] at hread
    split_ifs at hread with hpos
    · obtain ⟨x, v, hx, hread⟩ := bind_eq_ok.mp hread
      obtain ⟨y, z, -, hpure⟩ := bind_eq_ok.mp hread
      have hlength := length_readCharArray (InputCDR.eq_of_orFail hx)
      have heq : x = cs := Except.ok.inj (Prod.mk.inj (Option.some.inj hpure)).1
      have hone : (1 : ULong).toNat = 1 := rfl
      have hlt := len.isLt
      rw [heq, BitVec.toNat_sub, hone] at hlength
      omega
    · cases hread
    · cases hread

/-! ### Padding in place of a value -/

/-- The bytes of a stream, with one value for all of its padding. -/
def filled (c : UInt8) (w : Wire) : List UInt8 := w.map fun x => x.getD c

theorem holds_filled (c : UInt8) (w : Wire) : Holds (filled c w) w := by
  induction w with
  | nil => exact .nil
  | cons x w ih =>
    refine .cons ?_ ih
    rintro y rfl
    rfl

/-- A byte other than those of the values the reader could not tell from it. -/
def fillFor : Datum → UInt8
  | .scalar _ v => if v = 0 then 0xff else 0
  | .string [] => 0xff
  | _ => 0

/-- The word the reader takes the padding for. -/
def fillWord (c : UInt8) (size : ℕ) : BitVec (8 * size) := if c = 0 then 0 else BitVec.allOnes _

theorem wireImage_fillWord {size : ℕ} (hsize : size = 2 ∨ size = 4) (swap : Bool) {c : UInt8}
    (hc : c = 0 ∨ c = 0xff) : wireImage size swap (fillWord c size) = List.replicate size c := by
  rcases hsize with rfl | rfl <;> rcases hc with rfl | rfl <;> cases swap <;> decide

theorem fillFor_cases (d : Datum) : fillFor d = 0 ∨ fillFor d = 0xff := by
  rcases d with ⟨x, v⟩ | b | c | cs | ⟨x, vs⟩ | bs | cs
  · rw [fillFor]
    split_ifs
    · exact Or.inr rfl
    · exact Or.inl rfl
  all_goals first
    | exact Or.inl rfl
    | rcases cs with _ | ⟨c, cs⟩
      · exact Or.inr rfl
      · exact Or.inl rfl

/-- **Behind a cut that is not aligned** the reader finds a word of padding. -/
theorem reads_fillWord {align : ℕ} (halign : align = 2 ∨ align = 4) {c : UInt8}
    (hc : c = 0 ∨ c = 0xff) {rest : Wire} (h : InputCDR.At swap s w)
    (hne : pad w.length align ≠ pad w.length 8)
    (hdata : s.data = filled c (padded w ++ rest)) :
    ∃ t, InputCDR.readWord align align s = some (.ok (fillWord c align), t) := by
  have ha : IsAlign align := by
    rcases halign with rfl | rfl
    · exact isAlign_two
    · exact isAlign_four
  have hroom : ∃ k, pad w.length 8 = pad w.length align + align + k := by
    refine Nat.exists_eq_add_of_le ?_
    rw [pad, pad, alignUp, alignUp] at hne ⊢
    rcases halign with rfl | rfl <;> omega
  obtain ⟨k, hk⟩ := hroom
  have hpadding : s.data = filled c (put align (wireImage align swap (fillWord c align)) w ++
      (List.replicate k none ++ rest)) := by
    rw [hdata, wireImage_fillWord halign swap hc, put, padded, hk, filled, filled]
    simp only [List.map_append, List.map_replicate, List.replicate_add, List.append_assoc,
      Option.getD_none, Option.getD_some]
  have hput : s.Agrees (put align (wireImage align swap (fillWord c align)) w) :=
    ⟨List.replicate k none ++ rest, by rw [hpadding]; exact holds_filled c _⟩
  obtain ⟨t, heq, -⟩ := InputCDR.reads_readWord h ha
    (by rcases halign with rfl | rfl <;> norm_num) hput
  exact ⟨t, heq⟩

theorem fillWord_ne {size : ℕ} (hsize : size = 2 ∨ size = 4) (v : BitVec (8 * size)) :
    fillWord (if v = 0 then 0xff else 0) size ≠ v := by
  rw [fillWord]
  split_ifs with hzero hff hff
  · exact absurd hff (by decide)
  · rw [hzero]
    rcases hsize with rfl | rfl <;> decide
  · exact Ne.symm hzero
  · exact absurd rfl hff

/-- **The value behind a cut that is not aligned** is not read back. -/
theorem not_reads_of_not_aligned {i : MessageItem} {rest : Wire} (hp : ∃ p, p ∈ pending i.1)
    (halign : ¬Aligned w.length i.1) (h : InputCDR.At swap s w)
    (hdata : s.data = filled (fillFor i.1) (padded w ++ rest)) (t : InputCDR) :
    InputCDR.readKind (Codeset.plain n) i.kind s ≠ some (.ok (i.1.value i.2.form), t) := by
  intro hread
  obtain ⟨d, form⟩ := i
  have hword {align : ℕ} (ha : align = 2 ∨ align = 4) (hfirst : d.firstAlign = align) :=
    reads_fillWord ha (fillFor_cases d) h (hfirst ▸ halign) hdata
  cases d with
  | scalar x v =>
    have hscalar {align : ℕ} (ha : align = 2 ∨ align = 4) (hfirst : x.align = align)
        (y : BitVec (8 * align)) (hy : InputCDR.readWord align align s = some (.ok y, t))
        (hfill : fillFor (.scalar x v) = if y = 0 then 0xff else 0) : False := by
      obtain ⟨u, hu⟩ := hword ha hfirst
      have heq := Except.ok.inj (Prod.mk.inj (Option.some.inj (hu.symm.trans hy))).1
      rw [hfill] at heq
      exact fillWord_ne ha y heq
    cases x with
    | octet | int8 | uint8 => exact absurd hp.choose_spec (Option.not_mem_none _)
    | short | ushort => exact hscalar (Or.inl rfl) rfl v hread rfl
    | long | ulong | float => exact hscalar (Or.inr rfl) rfl v hread rfl
    | longlong | ulonglong | double | longdouble => exact halign rfl
  | string cs =>
    obtain ⟨len, u, hlen, hcs⟩ := length_of_readString hread
    obtain ⟨u', hu'⟩ := hword (Or.inr rfl) rfl
    have heq := Except.ok.inj (Prod.mk.inj (Option.some.inj (hu'.symm.trans hlen))).1
    rw [← heq] at hcs
    rcases cs with _ | ⟨c, cs⟩
    · exact absurd hcs (by decide)
    · rcases hcs with hnat | ⟨-, hnil⟩
      · exact absurd hnat (Nat.succ_ne_zero _).symm
      · cases hnil
  | boolean b | char c | array x vs hlen | booleanArray bs hlen | charArray cs hlen =>
    exact absurd hp.choose_spec (Option.not_mem_none _)

/-- **A string that is too long** is not read back. -/
theorem not_reads_of_not_short {i : MessageItem} (hlong : ¬i.1.Short) (t : InputCDR) :
    InputCDR.readKind (Codeset.plain n) i.kind s ≠ some (.ok (i.1.value i.2.form), t) := by
  intro hread
  obtain ⟨d, form⟩ := i
  cases d with
  | string cs =>
    obtain ⟨len, u, -, hcs⟩ := length_of_readString hread
    have hlt := len.isLt
    rcases hcs with hnat | ⟨-, rfl⟩
    · exact hlong (show cs.length + 1 < 2 ^ 32 by omega)
    · exact hlong (by decide : 0 + 1 < 2 ^ 32)
  | scalar x v | boolean b | char c | array x vs hlen | booleanArray bs hlen
  | charArray cs hlen => exact hlong trivial

/-- The first value and the others are read back, if all are. -/
theorem readAll_cons {i : MessageItem} {items : List MessageItem} {u : InputCDR}
    (h : InputCDR.readAll (Codeset.plain n) ((i :: items).map MessageItem.kind) s =
      some (.ok ((i :: items).map MessageItem.expected), u)) :
    ∃ t, InputCDR.readKind (Codeset.plain n) i.kind s = some (.ok (i.1.value i.2.form), t) ∧
      InputCDR.readAll (Codeset.plain n) (items.map MessageItem.kind) t =
        some (.ok (items.map MessageItem.expected), u) := by
  obtain ⟨x, t, hx, hrest⟩ := bind_eq_ok.mp h
  obtain ⟨xs, v, hxs, hpure⟩ := bind_eq_ok.mp hrest
  have hcons := List.cons.inj (Except.ok.inj (Prod.mk.inj (Option.some.inj hpure)).1)
  have hv : v = u := (Prod.mk.inj (Option.some.inj hpure)).2
  have hvalue := eq_of_heq (Sigma.mk.inj hcons.1).2
  refine ⟨t, ?_, ?_⟩
  · rw [hx]
    exact congrArg (fun y => some (Except.ok y, t)) hvalue
  · rw [hxs, hcons.2, hv]

/-- **A message that does not pass** is not read back, for some contents of its padding. -/
theorem not_reads_layout (swap : Bool) (n : ℕ) {items : List MessageItem}
    (hnot : ¬Passes maxMessageSize pos (items.map Prod.fst)) :
    ∃ c : UInt8, ∀ (w : Wire) (s u : InputCDR), InputCDR.At swap s w →
      w.length % 8 = pos % 8 →
      s.data = filled c (layout maxMessageSize swap pos (items.map Prod.fst) w) →
      InputCDR.readAll (Codeset.plain n) (items.map MessageItem.kind) s ≠
        some (.ok (items.map MessageItem.expected), u) := by
  induction items generalizing pos with
  | nil => exact absurd ⟨List.forall_mem_nil _, trivial⟩ hnot
  | cons i items ih =>
    have hcons : ¬Passes maxMessageSize pos (i.1 :: items.map Prod.fst) := hnot
    rw [passes_cons] at hcons
    by_cases hshort : i.1.Short
    swap
    · refine ⟨0, fun w s u _ _ _ hread => ?_⟩
      obtain ⟨t, ht, -⟩ := readAll_cons hread
      exact not_reads_of_not_short hshort t ht
    by_cases haligned : Cuts maxMessageSize pos i.1 → Aligned pos i.1
    swap
    · obtain ⟨hcut, hne⟩ := Classical.not_imp.mp haligned
      refine ⟨fillFor i.1, fun w s u hat hmod hdata hread => ?_⟩
      obtain ⟨t, ht, -⟩ := readAll_cons hread
      have hlayout : layout maxMessageSize swap pos ((i :: items).map Prod.fst) w =
          layout maxMessageSize swap (i.1.finish (headerLen + fragmentHeader))
            (items.map Prod.fst) (i.1.put swap (padded w)) := if_pos hcut
      have hpre : padded w <+: layout maxMessageSize swap pos ((i :: items).map Prod.fst) w := by
        rw [hlayout]
        exact (i.1.prefix_put swap (padded w)).trans (prefix_layout ..)
      obtain ⟨rest, hrest⟩ := hpre
      rw [← hrest] at hdata
      exact not_reads_of_not_aligned (hcut.imp fun p hp => hp.1)
        (fun hw => hne ((aligned_congr (isAlign_firstAlign i.1) hmod).mp hw)) hat hdata t ht
    -- the value is read back, and one of the others is not
    obtain ⟨c, hc⟩ := ih fun hrest => hcons ⟨hshort, haligned, hrest⟩
    refine ⟨c, fun w s u hat hmod hdata hread => ?_⟩
    obtain ⟨t, ht, hrest⟩ := readAll_cons hread
    obtain ⟨hlayout, hmod'⟩ := layout_cons swap i.1 (items.map Prod.fst) haligned hmod
    have hagrees : s.Agrees (layout maxMessageSize swap pos ((i :: items).map Prod.fst) w) :=
      ⟨[], by rw [List.append_nil, hdata]; exact holds_filled c _⟩
    have hmap : (i :: items).map Prod.fst = i.1 :: items.map Prod.fst := rfl
    rw [hmap, hlayout] at hagrees hdata
    have hnul : i.2.form = .aceString → i.1.NoNul := by
      rcases i.2 <;> rintro ⟨⟩
    obtain ⟨t', ht', hsame, hat'⟩ := InputCDR.reads_readKind (n := n) i.2.form hnul hshort hat
      (hagrees.mono (prefix_layout ..))
    cases (Prod.mk.inj (Option.some.inj (ht.symm.trans ht'))).2
    exact hc _ t u hat' hmod' (hsame.data.trans hdata) hrest

/-! ### Whole messages -/

/-- The fragments of a message, joined. -/
def joinWire : List Wire → Wire
  | [] => []
  | first :: later => first ++ later.flatMap fun w => w.drop (headerLen + fragmentHeader)

theorem holds_append {data data' : List UInt8} {w w' : Wire} (h : Holds data w)
    (h' : Holds data' w') : Holds (data ++ data') (w ++ w') := List.rel_append h h'

theorem holds_joinBytes {fragments : List (List UInt8)} {sent : List Wire}
    (h : List.Forall₂ Holds fragments sent) : Holds (joinBytes fragments) (joinWire sent) := by
  rcases h with _ | ⟨hfirst, hlater⟩
  · exact .nil
  · refine holds_append hfirst ?_
    induction hlater with
    | nil => exact .nil
    | cons hbytes _ ih => exact holds_append (List.forall₂_drop _ hbytes) ih

theorem joinBytes_filled (c : UInt8) (sent : List Wire) :
    joinBytes (sent.map (filled c)) = filled c (joinWire sent) := by
  rcases sent with _ | ⟨first, later⟩
  · rfl
  · rw [List.map_cons, joinBytes, joinWire, filled, filled, List.map_append, List.map_flatMap,
      List.flatMap_map]
    simp only [filled, List.map_drop]

/-- **The receiver has the layout** of the message, behind the header of its first fragment. -/
theorem joinWire_eq {ds : List Datum} {sent : List Wire} (hne : sent ≠ [])
    (hlong : ∀ fragment ∈ sent, headerLen ≤ fragment.length)
    (hlayout : layout maxMessageSize swap headerLen ds (List.replicate headerLen none) =
      List.replicate headerLen none ++ bodies sent) :
    ∃ header : Wire, header.length = headerLen ∧
      joinWire sent = layout maxMessageSize swap headerLen ds header ∧ (joinWire sent).length =
        (layout maxMessageSize swap headerLen ds (List.replicate headerLen none)).length := by
  rcases sent with _ | ⟨first, later⟩
  · exact absurd rfl hne
  · have hlen : (first.take headerLen).length = headerLen := by
      rw [List.length_take]
      exact Nat.min_eq_left (hlong first (List.mem_cons_self ..))
    have hmod : (first.take headerLen).length % 8 =
        (List.replicate headerLen (none : Option UInt8)).length % 8 := by
      rw [hlen, List.length_replicate]
    obtain ⟨r, hr, hr'⟩ := layout_congr maxMessageSize swap headerLen ds hmod
    have hbodies : r = bodies (first :: later) := List.append_cancel_left (hr'.symm.trans hlayout)
    have hjoin : joinWire (first :: later) =
        layout maxMessageSize swap headerLen ds (first.take headerLen) := by
      rw [hr, hbodies, bodies, ← List.append_assoc, List.take_append_drop, joinWire]
    refine ⟨first.take headerLen, hlen, hjoin, ?_⟩
    rw [hjoin, hr, hr', List.length_append, List.length_append, hlen, List.length_replicate]

/-- The stream over a message is behind its header. -/
theorem messageCDR_at {base : ℕ} {bytes : List UInt8} (hbase : 8 ∣ base)
    (fits : base + bytes.length ≤ addressLimit) {header : Wire} (hlen : header.length = headerLen)
    {whole : Wire} (hpre : header <+: whole) (hholds : Holds bytes whole) :
    InputCDR.At swap (messageCDR base bytes swap fits) header := by
  obtain ⟨rest, hrest⟩ := hpre
  exact ⟨rfl, hbase, rfl, by rw [hlen]; rfl, ⟨rest, by rwa [hrest]⟩⟩

/-- The message fits in the address space of the receiver. -/
def Room (maxMessageSize : ULong) (swap : Bool) (items : List MessageItem) : Prop :=
  (layout maxMessageSize swap headerLen (items.map Prod.fst)
    (List.replicate headerLen none)).length ≤ addressLimit

section

variable {type : MsgType} {requestId : ULong} {items : List MessageItem}
  (hmax : 24 ≤ maxMessageSize.toNat)

include hmax

theorem transparent_of_passes (hpasses : Passes maxMessageSize headerLen (items.map Prod.fst)) :
    Transparent maxMessageSize type swap requestId items := by
  intro f _
  obtain ⟨t, heq, hne, hlong, hlayout⟩ := OutgoingCDR.sendBody_spec f.heap hmax f.base f.size
    f.memcpyTradeoff swap requestId type (items.map Prod.fst)
  obtain ⟨header, hlen, hjoin, -⟩ := joinWire_eq hne hlong hlayout
  refine ⟨t, heq, fun fragments hfragments n base fits hbase => ?_⟩
  have hholds := holds_joinBytes hfragments
  rw [hjoin] at hholds
  obtain ⟨u, hread, -⟩ := reads_layout (n := n) hpasses (congrArg (· % 8) hlen)
    (messageCDR_at hbase fits hlen (prefix_layout ..) hholds)
    ⟨[], by rwa [List.append_nil]⟩
  exact ⟨u, hread⟩

theorem passes_of_transparent (hroom : Room maxMessageSize swap items)
    (htransparent : Transparent maxMessageSize type swap requestId items) :
    Passes maxMessageSize headerLen (items.map Prod.fst) := by
  by_contra hnot
  obtain ⟨c, hc⟩ := not_reads_layout swap 0 hnot
  obtain ⟨t, heq, hread⟩ := htransparent ⟨0, 512, 0, id⟩ (by decide)
  obtain ⟨t', heq', hne, hlong, hlayout⟩ := OutgoingCDR.sendBody_spec id hmax 0 512 0 swap
    requestId type (items.map Prod.fst)
  cases (Prod.mk.inj (Option.some.inj (heq.symm.trans heq'))).2
  obtain ⟨header, hlen, hjoin, hlength⟩ := joinWire_eq hne hlong hlayout
  have hfilled := joinBytes_filled c t.sent
  rw [hjoin] at hfilled
  have hholds := holds_filled c (layout maxMessageSize swap headerLen (items.map Prod.fst) header)
  have hfragments : List.Forall₂ Holds (t.sent.map (filled c)) t.sent :=
    List.forall₂_map_left_iff.mpr (List.forall₂_same.mpr fun w _ => holds_filled c w)
  have fits : 0 + (joinBytes (t.sent.map (filled c))).length ≤ addressLimit := by
    rw [Nat.zero_add, joinBytes_filled, filled, List.length_map, hlength]
    exact hroom
  obtain ⟨u, hu⟩ := hread _ hfragments 0 0 fits (Nat.dvd_zero 8)
  exact hc header _ u (messageCDR_at (Nat.dvd_zero 8) fits hlen (prefix_layout ..)
    (hfilled ▸ hholds)) (congrArg (· % 8) hlen) hfilled hu

/-- **Fragmentation is transparent exactly for the messages that pass.** -/
theorem transparent_iff (hroom : Room maxMessageSize swap items) :
    Transparent maxMessageSize type swap requestId items ↔
      Passes maxMessageSize headerLen (items.map Prod.fst) :=
  ⟨passes_of_transparent hmax hroom, transparent_of_passes hmax⟩

end

/-- A short behind 13 octets, at the position 30 of a fragment. -/
def shortAtThirty : List MessageItem :=
  [(.scalar .ulong 1, .chars), (.scalar .octet 7, .chars),
    (.array .octet (List.replicate 13 0) (by decide), .chars), (.scalar .short 0x1234, .chars)]

theorem transparent_iff_shortAtThirty : Transparent 24 .request false 1 shortAtThirty ↔
    Passes 24 headerLen (shortAtThirty.map Prod.fst) :=
  transparent_iff (by decide) (by rw [Room]; decide)

/-- The padding is read in place of the short. -/
theorem not_transparent_shortAtThirty : ¬Transparent 24 .request false 1 shortAtThirty := by
  intro htransparent
  have hpasses := passes_of_transparent (by decide) (by rw [Room]; decide) htransparent
  exact absurd hpasses.2 (by decide)

end AceTao.Giop
