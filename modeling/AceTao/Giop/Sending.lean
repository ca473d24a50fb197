import AceTao.Giop.Layout

/-!
# What the sender of a message does

While values are inserted, the stream holds the current fragment, and what the receiver will have is
made of the bodies of the fragments that have been sent and of the body of this one (`Sending`). The
operations of the underlying stream append to both in the same way (`Sending.onStream`); a cut pads
both, and the next fragment begins behind its headers (`Sending.cut`). So a message that has been
sent is the `layout` of its values: `OutgoingCDR.sendBody_spec`.
-/

namespace AceTao.Giop

open Cdr ByteImage AlignUp Program

/-! ### Bodies -/

/-- **The bodies of fragments**, one after the other. -/
def bodies : List Wire → Wire
  | [] => []
  | first :: later =>
    first.drop headerLen ++ later.flatMap fun w => w.drop (headerLen + fragmentHeader)

/-- The length of the headers of the next fragment. -/
def headers (sent : List Wire) : ℕ := if sent = [] then headerLen else headerLen + fragmentHeader

theorem bodies_concat (sent : List Wire) (w : Wire) :
    bodies (sent ++ [w]) = bodies sent ++ w.drop (headers sent) := by
  rcases sent with _ | ⟨first, later⟩
  · exact List.append_nil _
  · rw [List.cons_append, bodies, bodies, List.flatMap_append, List.flatMap_singleton,
      List.append_assoc]
    rfl

theorem headerLen_le_headers (sent : List Wire) : headerLen ≤ headers sent := by
  rw [headers]
  split_ifs
  · exact le_rfl
  · exact Nat.le_add_right _ _

/-! ### Formatting -/

theorem length_overwrite {w : Wire} {i : ℕ} {bytes : List UInt8}
    (h : i + bytes.length ≤ w.length) : (overwrite w i bytes).length = w.length := by
  rw [overwrite, List.length_append, List.length_append, List.length_take, List.length_map,
    List.length_drop]
  omega

theorem drop_overwrite {w : Wire} {i n : ℕ} {bytes : List UInt8} (h : i ≤ w.length)
    (hn : i + bytes.length ≤ n) : (overwrite w i bytes).drop n = w.drop n := by
  have hlen : (w.take i ++ bytes.map some).length = i + bytes.length := by
    rw [List.length_append, List.length_take, List.length_map, Nat.min_eq_left h]
  rw [overwrite, List.drop_append, hlen, List.drop_eq_nil_of_le (hlen ▸ hn), List.nil_append,
    List.drop_drop]
  congr 1
  omega

section Format

variable {w : Wire} (h : headerLen ≤ w.length) (swap more : Bool)

include h

theorem length_setGiopFlags : (setGiopFlags swap more w).length = w.length := by
  rw [headerLen] at h
  exact length_overwrite (by rw [List.length_singleton]; omega)

theorem length_formatMessage : (formatMessage swap more w).length = w.length := by
  have hflags := length_setGiopFlags h swap more
  rw [headerLen] at h
  rw [formatMessage, length_overwrite (by rw [length_wireImage]; omega), hflags]

/-- Only the header of a message is formatted. -/
theorem drop_formatMessage {n : ℕ} (hn : headerLen ≤ n) :
    (formatMessage swap more w).drop n = w.drop n := by
  have hflags := length_setGiopFlags h swap more
  rw [headerLen] at h hn
  rw [formatMessage, drop_overwrite (by omega) (by rw [length_wireImage]; omega)]
  exact drop_overwrite (by omega) (by rw [List.length_singleton]; omega)

end Format

end AceTao.Giop

namespace AceTao.Cdr.OutputCDR

variable {s : OutputCDR}

theorem reset_ready (h : s.goodBit = true) : Ready s.reset := ⟨rfl, h, Nat.two_pow_pos 64, rfl⟩

theorem reset_wire (s : OutputCDR) : s.reset.wire = [] := rfl

/-- **Alignment** only appends padding. -/
theorem writes_alignWritePtr {align : ℕ} (heap : ℕ → ℕ) (h : Ready s) (ha : IsAlign align) :
    Writes (alignWritePtr heap align) s (s.wire ++ List.replicate (pad s.wire.length align) none) := by
  obtain ⟨buf, t, heq, ht⟩ := adjust_spec heap 0 h ha
  refine ⟨t, ?_, ht.ready, ht.config, ht.wire, ?_, fun capacity hone hle => ?_⟩
  · rw [alignWritePtr, Program.bind_of_ok heq]
    rfl
  · rw [List.length_append]
    exact Nat.le_add_right _ _
  · rw [List.length_append, List.length_replicate] at hle
    exact ht.oneBlock capacity hone hle

end AceTao.Cdr.OutputCDR

namespace AceTao.Giop

open Cdr ByteImage AlignUp Program

/-! ### One fragment after the other -/

/-- **A message is being sent**: the current fragment has `pos` bytes, and the receiver will have
`w`, apart from the header of the first fragment. -/
structure Sending (swap : Bool) (pos : ℕ) (w : Wire) (s : OutgoingCDR) : Prop where
  ready : s.cdr.Ready
  doByteSwap : s.cdr.doByteSwap = swap
  majorVersion : s.cdr.majorVersion = 1
  minorVersion : s.cdr.minorVersion = 2
  length : s.cdr.wire.length = pos
  le : headers s.sent ≤ pos
  wire : w = List.replicate headerLen none ++ bodies s.sent ++ s.cdr.wire.drop (headers s.sent)
  aligned : w.length % 8 = pos % 8
  long : ∀ fragment ∈ s.sent, headerLen ≤ fragment.length

variable {heap : ℕ → ℕ} {maxMessageSize : ULong} {swap : Bool} {pos : ℕ} {w : Wire}
  {s t : OutgoingCDR}

theorem OutgoingCDR.onStream_of_ok {α : Type} {m : Writer α} {c : OutputCDR} {x : α}
    (h : m s.cdr = some (.ok x, c)) :
    OutgoingCDR.onStream m s = some (.ok x, { s with cdr := c }) := by
  rw [OutgoingCDR.onStream, h]
  rfl

namespace Sending

/-- **An operation of the stream** appends to the fragment, and to what the receiver will have. -/
theorem onStream {m : Writer Unit} {r : Wire} (h : Sending swap pos w s)
    (hm : OutputCDR.Writes m s.cdr (s.cdr.wire ++ r)) :
    ∃ t, OutgoingCDR.onStream m s = some (.ok (), t) ∧ Sending swap (pos + r.length) (w ++ r) t := by
  obtain ⟨c, heq, hc⟩ := hm
  have haligned := h.aligned
  have hlength := h.length
  refine ⟨{ s with cdr := c }, OutgoingCDR.onStream_of_ok heq, hc.ready,
    hc.config.doByteSwap.trans h.doByteSwap, hc.config.majorVersion.trans h.majorVersion,
    hc.config.minorVersion.trans h.minorVersion, ?_, h.le.trans (Nat.le_add_right _ _), ?_, ?_,
    h.long⟩
  · rw [hc.wire, List.length_append, hlength]
  · rw [hc.wire, List.drop_append_of_le_length (hlength ▸ h.le), ← List.append_assoc, ← h.wire]
  · rw [List.length_append]
    omega

/-- **A value is inserted** without a cut. -/
theorem writeDatum (heap : ℕ → ℕ) (h : Sending swap pos w s) (d : Datum) :
    ∃ t, OutgoingCDR.onStream (OutputCDR.writeDatum heap d) s = some (.ok (), t) ∧
      Sending swap (d.finish pos) (d.put swap w) t := by
  have hmod : s.cdr.wire.length % 8 = w.length % 8 := by rw [h.length, h.aligned]
  obtain ⟨r, hput, hput'⟩ := d.put_congr swap hmod
  have hwrites := OutputCDR.writes_writeDatum heap h.ready d
  rw [h.doByteSwap, hput] at hwrites
  have hlen := d.length_put swap s.cdr.wire
  rw [hput, h.length, List.length_append, h.length] at hlen
  rw [hput', ← hlen]
  exact h.onStream hwrites

theorem headerLen_le (h : Sending swap pos w s) : headerLen ≤ s.cdr.wire.length := by
  rw [h.length]
  exact (headerLen_le_headers _).trans h.le

/-- **The fragment is sent**, and is then among those of which the receiver has the bodies. -/
theorem bodies_sendMessage (h : Sending swap pos w s) :
    w = List.replicate headerLen none ++ bodies s.sendMessage.sent := by
  have hdrop := drop_formatMessage h.headerLen_le s.cdr.doByteSwap s.moreFragments
    (headerLen_le_headers s.sent)
  rw [OutgoingCDR.sendMessage, bodies_concat, hdrop, ← List.append_assoc, ← h.wire]

/-- The fragments have their headers. -/
theorem long_sendMessage (h : Sending swap pos w s) :
    ∀ fragment ∈ s.sendMessage.sent, headerLen ≤ fragment.length := by
  refine List.forall_mem_append.mpr ⟨h.long, List.forall_mem_singleton.mpr ?_⟩
  rw [length_formatMessage h.headerLen_le]
  exact h.headerLen_le

end Sending

/-- The header of a message is written behind those that have been sent. -/
theorem OutgoingCDR.writeProtocolHeader_spec (heap : ℕ → ℕ) (type : MsgType)
    (h : s.cdr.goodBit = true) : ∃ c, writeProtocolHeader heap type s =
        some (.ok (), { s with cdr := c }) ∧ c.Ready ∧ OutputCDR.SameConfig s.cdr c ∧
      c.wire.length = headerLen := by
  have hoctets : OutputCDR.Writes (OutputCDR.writeOctetArray heap
      (protocolHeader s.cdr.majorVersion s.cdr.minorVersion type) 12) s.cdr.reset _ :=
    OutputCDR.writes_writeWordArray heap (OutputCDR.reset_ready h) isAlign_one (Or.inl rfl) le_rfl
  obtain ⟨c, heq, hc⟩ := hoctets
  have hlen : c.wire.length = headerLen := by
    rw [hc.wire, length_putArray_one]
    rfl
  refine ⟨c, ?_, hc.ready, ⟨hc.config.doByteSwap, hc.config.memcpyTradeoff,
    hc.config.majorVersion, hc.config.minorVersion⟩, hlen⟩
  have hwrite : OutgoingCDR.onStream (OutputCDR.writeOctetArray heap
      (protocolHeader s.cdr.majorVersion s.cdr.minorVersion type) 12)
      { s with cdr := s.cdr.reset } = some (.ok (), { s with cdr := c }) :=
    OutgoingCDR.onStream_of_ok heq
  rw [writeProtocolHeader, modify_bind_apply, get_bind_apply]
  refine (bind_of_ok hwrite).trans ?_
  rw [get_bind_apply]
  exact congrFun (if_pos hc.ready.good) _

/-! ### Cuts -/

namespace Sending

theorem totalLength (h : Sending swap pos w s) : s.cdr.totalLength = pos := by
  rw [← h.length, OutputCDR.totalLength, OutputCDR.wire, List.length_flatMap]

theorem not_old (h : Sending swap pos w s) :
    ¬(s.cdr.majorVersion = 1 ∧ s.cdr.minorVersion < 2) := by
  rw [h.minorVersion]
  exact fun hold => absurd hold.2 (by decide)

/-- Where the value fits, the strategy does nothing. -/
theorem fragment_of_fits (heap : ℕ → ℕ) (h : Sending swap pos w s)
    {pendingAlignment pendingLength : ℕ} (calls : ℕ)
    (hfits : ¬maxMessageSize < alignedLength pos pendingAlignment pendingLength) :
    OutgoingCDR.fragment heap maxMessageSize (calls + 1) pendingAlignment pendingLength s =
      some (.ok (), s) := by
  rw [OutgoingCDR.fragment, get_bind_apply, if_neg h.not_old, h.totalLength, if_neg hfits]
  rfl

/-- **The strategy cuts the stream**: it is padded and sent, and the next fragment begins. -/
theorem fragment_of_cut (heap : ℕ → ℕ) (hmax : 24 ≤ maxMessageSize.toNat)
    (h : Sending swap pos w s) {pendingAlignment pendingLength : ℕ}
    (hcut : maxMessageSize < alignedLength pos pendingAlignment pendingLength) :
    ∃ t, OutgoingCDR.fragment heap maxMessageSize 2 pendingAlignment pendingLength s =
      some (.ok (), t) ∧ Sending swap (headerLen + fragmentHeader) (padded w) t := by
  -- the padding
  have hmax8 : IsAlign maxAlignment := isAlign_eight
  have hpad : pad s.cdr.wire.length maxAlignment = pad w.length maxAlignment :=
    pad_congr hmax8 (by rw [h.length, h.aligned])
  have halign := OutputCDR.writes_alignWritePtr heap h.ready hmax8
  rw [hpad] at halign
  obtain ⟨t, heq, ht⟩ := h.onStream halign
  have hmore : Sending swap _ (padded w) (t.setMoreFragments true) :=
    ⟨ht.ready, ht.doByteSwap, ht.majorVersion, ht.minorVersion, ht.length, ht.le, ht.wire,
      ht.aligned, ht.long⟩
  -- the headers of the next fragment
  obtain ⟨c, hheader, hc, hconfig, hlen⟩ := OutgoingCDR.writeProtocolHeader_spec heap .fragment
    (s := (t.setMoreFragments true).sendMessage) hmore.ready.good
  have hbodies := hmore.bodies_sendMessage
  have hrequestId : OutgoingCDR.fragment heap maxMessageSize 1 4 4
      { (t.setMoreFragments true).sendMessage with cdr := c } =
        some (.ok (), { (t.setMoreFragments true).sendMessage with cdr := c }) := by
    have hfits : ¬maxMessageSize < alignedLength headerLen 4 4 := by
      have hsixteen : alignedLength headerLen 4 4 = 16 := by decide
      rw [hsixteen, BitVec.lt_def]
      exact Nat.not_lt.mpr (le_trans (by decide) hmax)
    have htotal : c.totalLength = headerLen := by
      rw [← hlen, OutputCDR.totalLength, OutputCDR.wire, List.length_flatMap]
    have hnew : ¬(c.majorVersion = 1 ∧ c.minorVersion < 2) := by
      rw [hconfig.minorVersion]
      exact fun hold => absurd (hmore.minorVersion ▸ hold.2) (by decide)
    rw [OutgoingCDR.fragment, get_bind_apply, if_neg hnew, htotal, if_neg hfits]
    rfl
  have hid : OutputCDR.Writes (OutputCDR.writeUlong heap s.requestId) c _ :=
    @OutputCDR.writes_writeWord heap c 4 4 hc isAlign_four s.requestId
  obtain ⟨d, hd, hdw⟩ := hid
  have hdlen : d.wire.length = headerLen + fragmentHeader := by
    rw [hdw.wire, length_put four_pos, hlen, length_wireImage]
    rfl
  refine ⟨{ (t.setMoreFragments true).sendMessage with cdr := d }, ?_, hdw.ready, ?_, ?_, ?_,
    hdlen, ?_, ?_, ?_, hmore.long_sendMessage⟩
  · rw [OutgoingCDR.fragment, get_bind_apply, if_neg h.not_old, h.totalLength, if_pos hcut,
      bind_of_ok heq, modify_bind_apply, modify_bind_apply, bind_of_ok hheader,
      bind_of_ok hrequestId]
    exact OutgoingCDR.onStream_of_ok hd
  · exact (hdw.config.doByteSwap.trans hconfig.doByteSwap).trans hmore.doByteSwap
  · exact (hdw.config.majorVersion.trans hconfig.majorVersion).trans hmore.majorVersion
  · exact (hdw.config.minorVersion.trans hconfig.minorVersion).trans hmore.minorVersion
  · rw [headers]
    split_ifs
    · exact Nat.le_add_right _ _
    · exact le_rfl
  · have hsome : (t.setMoreFragments true).sendMessage.sent ≠ [] := List.concat_ne_nil _ _
    have hdrop : d.wire.drop (headers (t.setMoreFragments true).sendMessage.sent) = [] := by
      rw [headers, if_neg hsome]
      exact List.drop_eq_nil_of_le hdlen.le
    rw [hdrop, List.append_nil]
    exact hbodies
  · rw [length_padded, alignUp]
    exact Nat.mul_mod_left _ _

/-- **The operator inserts a value**, with a cut before it if there has to be one. -/
theorem insert (heap : ℕ → ℕ) (hmax : 24 ≤ maxMessageSize.toNat) (h : Sending swap pos w s)
    (d : Datum) : ∃ t, OutgoingCDR.insert heap maxMessageSize d s = some (.ok (), t) ∧
      if Cuts maxMessageSize pos d then
        Sending swap (d.finish (headerLen + fragmentHeader)) (d.put swap (padded w)) t
      else Sending swap (d.finish pos) (d.put swap w) t := by
  rcases hp : pending d with _ | ⟨pendingAlignment, pendingLength⟩
  · have hinsert : OutgoingCDR.insert heap maxMessageSize d =
        OutgoingCDR.onStream (OutputCDR.writeDatum heap d) := by
      rw [OutgoingCDR.insert, hp]
    simp only [hinsert, if_neg (not_cuts_of_none hp)]
    exact h.writeDatum heap d
  · have hinsert : OutgoingCDR.insert heap maxMessageSize d =
        (OutgoingCDR.fragment heap maxMessageSize 2 pendingAlignment pendingLength >>= fun _ =>
          OutgoingCDR.onStream (OutputCDR.writeDatum heap d)) := by
      rw [OutgoingCDR.insert, hp]
    rw [hinsert]
    split_ifs with hcut
    · obtain ⟨t, heq, ht⟩ := h.fragment_of_cut heap hmax ((cuts_iff hp).mp hcut)
      obtain ⟨u, heq', hu⟩ := ht.writeDatum heap d
      exact ⟨u, (bind_of_ok heq).trans heq', hu⟩
    · obtain ⟨u, heq, hu⟩ := h.writeDatum heap d
      have hfits := h.fragment_of_fits heap 1 fun hlt => hcut ((cuts_iff hp).mpr hlt)
      exact ⟨u, (bind_of_ok hfits).trans heq, hu⟩

/-- **Values are inserted** one after the other. -/
theorem insertAll (heap : ℕ → ℕ) (hmax : 24 ≤ maxMessageSize.toNat) (h : Sending swap pos w s)
    (ds : List Datum) : ∃ t pos', OutgoingCDR.insertAll heap maxMessageSize ds s = some (.ok (), t) ∧
      Sending swap pos' (layout maxMessageSize swap pos ds w) t := by
  induction ds generalizing pos w s with
  | nil => exact ⟨s, pos, rfl, h⟩
  | cons d ds ih =>
    obtain ⟨t, heq, ht⟩ := h.insert heap hmax d
    rw [layout]
    split_ifs at ht ⊢
    · obtain ⟨u, pos', heq', hu⟩ := ih ht
      exact ⟨u, pos', (bind_of_ok heq).trans heq', hu⟩
    · obtain ⟨u, pos', heq', hu⟩ := ih ht
      exact ⟨u, pos', (bind_of_ok heq).trans heq', hu⟩

end Sending

/-- **A message is sent**: behind the header of the first fragment, the receiver has its values. -/
theorem OutgoingCDR.sendBody_spec (heap : ℕ → ℕ) (hmax : 24 ≤ maxMessageSize.toNat)
    (base size memcpyTradeoff : ℕ) (swap : Bool) (requestId : ULong) (type : MsgType)
    (ds : List Datum) :
    ∃ t, sendBody heap maxMessageSize type ds (init base size memcpyTradeoff swap requestId) =
        some (.ok (), t) ∧ t.sent ≠ [] ∧ (∀ fragment ∈ t.sent, headerLen ≤ fragment.length) ∧
      layout maxMessageSize swap headerLen ds (List.replicate headerLen none) =
        List.replicate headerLen none ++ bodies t.sent := by
  obtain ⟨c, hheader, hc, hconfig, hlen⟩ := writeProtocolHeader_spec heap type
    (s := init base size memcpyTradeoff swap requestId) rfl
  have hwire : List.replicate headerLen none =
      List.replicate headerLen none ++ bodies [] ++ c.wire.drop headerLen := by
    rw [List.drop_eq_nil_of_le hlen.le, List.append_nil]
    exact (List.append_nil _).symm
  have hstart : Sending swap headerLen (List.replicate headerLen none)
      { init base size memcpyTradeoff swap requestId with cdr := c } :=
    ⟨hc, hconfig.doByteSwap, hconfig.majorVersion, hconfig.minorVersion, hlen, le_rfl,
      hwire, rfl, fun fragment hmem => absurd hmem (List.not_mem_nil)⟩
  obtain ⟨t, pos', heq, ht⟩ := hstart.insertAll heap hmax ds
  have hlast : Sending swap pos' (layout maxMessageSize swap headerLen ds _)
      (t.setMoreFragments false) :=
    ⟨ht.ready, ht.doByteSwap, ht.majorVersion, ht.minorVersion, ht.length, ht.le, ht.wire,
      ht.aligned, ht.long⟩
  refine ⟨(t.setMoreFragments false).sendMessage, ?_, List.concat_ne_nil _ _,
    hlast.long_sendMessage, hlast.bodies_sendMessage⟩
  rw [sendBody, bind_of_ok hheader, bind_of_ok heq]
  rfl

end AceTao.Giop
