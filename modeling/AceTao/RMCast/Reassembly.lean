import AceTao.RMCast.Fragment

/-!
# One message is put together again

A message whose data is larger than a packet is sent in parts. When the packets arrive in the order
of their serial numbers, with the addresses the lowest layer adds, and nothing is left from an
earlier message, the last one makes the receiver hand up one message with the same bytes
(`RoundTrips`).

This is so exactly of the sizes that fit in one packet or are no multiple of what a packet holds
(`parts_roundTrip_iff`): the last part of a multiple is empty, and the receiver aborts because the
sizes do not add up. Besides, the number of parts must be small enough for the counter.
-/

namespace AceTao.RMCast

variable {k : ℕ} {bytes : List UInt8}

/-- **Data that are cut into parts of the right sizes**: they do not fit in one packet, the last part
is not empty, and the number of parts is below the largest `u32`. -/
structure Fragmented (k : ℕ) (bytes : List UInt8) : Prop where
  pos : 0 < k
  lt : k < bytes.length
  indivisible : ¬k ∣ bytes.length
  few : bytes.length / k + 2 < 2 ^ 32

/-- What the parts before the `n`-th one hold. -/
def pieces (k n : ℕ) (bytes : List UInt8) : List UInt8 := bytes.take (n * k)

namespace Fragmented

theorem mod_pos (h : Fragmented k bytes) : 0 < bytes.length % k := by
  refine Nat.pos_of_ne_zero fun hmod => h.indivisible (Nat.dvd_of_mod_eq_zero hmod)

theorem numPackets_eq (h : Fragmented k bytes) :
    (numPackets bytes.length k).toNat = bytes.length / k + 1 := by
  have hmod := h.mod_pos
  have hfew := h.few
  rw [numPackets, if_neg hmod.ne', BitVec.toNat_ofNat, Nat.mod_eq_of_lt (by omega)]

/-- A message has at least two parts. -/
theorem div_pos (h : Fragmented k bytes) : 0 < bytes.length / k := Nat.div_pos h.lt.le h.pos

theorem length_lt (h : Fragmented k bytes) (hk : k < 2 ^ 16) : bytes.length < 2 ^ 64 := by
  have hfew := h.few
  have hdiv := Nat.div_add_mod bytes.length k
  have hmod := Nat.mod_lt bytes.length h.pos
  have hmul : k * (bytes.length / k) ≤ 2 ^ 16 * 2 ^ 32 := Nat.mul_le_mul hk.le (by omega)
  omega

end Fragmented

/-- **A call in its loop**, before the part number `n + 1`. -/
structure Sending.Valid (k : ℕ) (bytes : List UInt8) (n : ℕ) (s : Sending) : Prop where
  size : s.size = bytes.length
  packets : s.packets = numPackets bytes.length k
  i : s.i.toNat = n + 1
  le : n ≤ bytes.length / k
  rest : s.rest = bytes.drop (n * k)

namespace Sending

variable {n : ℕ} {s : Sending}

theorem start_valid (h : Fragmented k bytes) : (start k bytes).Valid k bytes 0 :=
  ⟨rfl, rfl, rfl, h.div_pos.le, by rw [Nat.zero_mul, List.drop_zero]; rfl⟩

/-- The last part is the one behind the whole ones. -/
theorem Valid.last_iff (h : s.Valid k bytes n) (hd : Fragmented k bytes) :
    s.i = s.packets ↔ n = bytes.length / k := by
  rw [← BitVec.toNat_inj, h.i, h.packets, hd.numPackets_eq]
  omega

theorem Valid.i_le (h : s.Valid k bytes n) (hd : Fragmented k bytes) : s.i ≤ s.packets := by
  have hle := h.le
  rw [BitVec.le_def, h.i, h.packets, hd.numPackets_eq]
  omega

/-- The size of a part. -/
theorem Valid.partSize_eq (h : s.Valid k bytes n) (hd : Fragmented k bytes) :
    s.partSize k = if n = bytes.length / k then bytes.length % k else k := by
  rw [partSize, h.size]
  exact if_congr (h.last_iff hd) rfl rfl

/-- What is left is enough for a part; it is the last part, or there is more. -/
theorem Valid.partSize_le (h : s.Valid k bytes n) (hd : Fragmented k bytes) :
    s.partSize k ≤ s.rest.length := by
  have hle := h.le
  have hdiv := Nat.div_add_mod bytes.length k
  rw [h.partSize_eq hd, h.rest, List.length_drop]
  split_ifs with hlast
  · rw [hlast, Nat.mul_comm]
    omega
  · have hmul : (n + 1) * k ≤ bytes.length / k * k := Nat.mul_le_mul_right k (by omega)
    rw [Nat.mul_comm (bytes.length / k), Nat.add_mul, Nat.one_mul] at hmul
    omega

/-- **The next part** continues the pieces before it. -/
theorem Valid.pieces_append (h : s.Valid k bytes n) (hd : Fragmented k bytes) :
    pieces k n bytes ++ s.rest.take (s.partSize k) = pieces k (n + 1) bytes := by
  have hle := h.le
  have hdiv := Nat.div_add_mod bytes.length k
  have hmul : n * k ≤ bytes.length / k * k := Nat.mul_le_mul_right k hle
  rw [h.rest, h.partSize_eq hd, pieces, pieces, Nat.add_mul, Nat.one_mul]
  split_ifs with hlast
  · have hmod := Nat.mod_lt bytes.length hd.pos
    rw [hlast, Nat.mul_comm]
    rw [← List.take_add, List.take_of_length_le (by omega), List.take_of_length_le (by omega)]
  · exact List.take_add.symm

theorem pieces_all (hd : Fragmented k bytes) : pieces k (bytes.length / k + 1) bytes = bytes := by
  have hdiv := Nat.div_add_mod bytes.length k
  have hmod := Nat.mod_lt bytes.length hd.pos
  refine List.take_of_length_le ?_
  rw [Nat.add_mul, Nat.one_mul, Nat.mul_comm]
  omega

/-- **One iteration.** -/
theorem Valid.iterate_eq (h : s.Valid k bytes n) (hd : Fragmented k bytes) (sn : U64) :
    s.iterate k sn = some (s.message k sn,
      { s with i := s.i + 1, rest := s.rest.drop (s.partSize k) }) :=
  if_pos (h.partSize_le hd)

theorem Valid.next (h : s.Valid k bytes n) (hd : Fragmented k bytes) (hlt : n < bytes.length / k) :
    Valid k bytes (n + 1) { s with i := s.i + 1, rest := s.rest.drop (s.partSize k) } := by
  have hfew := hd.few
  refine ⟨h.size, h.packets, ?_, hlt, ?_⟩
  · rw [BitVec.toNat_add, h.i]
    exact Nat.mod_eq_of_lt (show n + 1 + 1 < 2 ^ 32 by omega)
  · dsimp only
    rw [h.rest, h.partSize_eq hd, if_neg hlt.ne, List.drop_drop, Nat.add_mul, Nat.one_mul]

/-- Behind the last part the loop ends. -/
theorem Valid.end_of_last (h : s.Valid k bytes n) (hd : Fragmented k bytes)
    (hlast : n = bytes.length / k) : ¬s.i + 1 ≤ s.packets := by
  have hfew := hd.few
  rw [BitVec.le_def, h.packets, hd.numPackets_eq, BitVec.toNat_add, h.i]
  change ¬(n + 1 + 1) % 2 ^ 32 ≤ _
  rw [Nat.mod_eq_of_lt (by omega)]
  omega

end Sending

/-! ### Receiving the parts -/

namespace Reassemble

variable {n : ℕ} {s : Sending} {map : Map} {source self : Address} {sn : U64}

/-- What has been put together of the first `n` parts. -/
def gathered (k n : ℕ) (bytes : List UInt8) : Option Data :=
  if n = 0 then none else some ⟨pieces k n bytes, bytes.length, bytes.length⟩

/-- What a packet with a part is to the receiver. -/
theorem recv_message (map : Map) (source self : Address) (s : Sending) (sn : U64) :
    recv map ((s.message k sn).linked source self) =
      recvPart map ((s.message k sn).linked source self) source
        (Data.new (s.rest.take (s.partSize k)) 0) ⟨s.i, s.packets, BitVec.ofNat 64 s.size⟩ := rfl

theorem findTo_message (s : Sending) (sn : U64) :
    ((s.message k sn).linked source self).findTo = some self := rfl

theorem num_eq_one_iff (h : s.Valid k bytes n) : s.i = 1 ↔ n = 0 := by
  rw [← BitVec.toNat_inj, h.i]
  exact Nat.succ_inj

/-- **The first part** is kept. -/
theorem recv_first (h : s.Valid k bytes 0) (hd : Fragmented k bytes) (hk : k < 2 ^ 16)
    (hmap : map source = none) : recv map ((s.message k sn).linked source self) =
      some (Function.update map source (gathered k 1 bytes), []) := by
  have hlen : (BitVec.ofNat 64 s.size).toNat = bytes.length := by
    rw [h.size, BitVec.toNat_ofNat, Nat.mod_eq_of_lt (hd.length_lt hk)]
  have hpieces := h.pieces_append hd
  have hbuf : s.rest.take (s.partSize k) = pieces k 1 bytes := by
    rw [← hpieces, pieces, Nat.zero_mul, List.take_zero, List.nil_append]
  have hsize : (pieces k 1 bytes).length = k := by
    rw [pieces, Nat.one_mul, List.length_take, Nat.min_eq_left hd.lt.le]
  rw [recv_message, recvPart, hmap]
  dsimp only
  rw [if_neg (by simpa using (num_eq_one_iff h).mpr rfl), hlen, hbuf, Data.new, Data.new, gathered,
    if_neg Nat.one_ne_zero]
  dsimp only
  rw [hsize, if_neg hd.lt.not_gt, if_neg hd.pos.ne']

/-- **A part that is not the first** is ignored if the parts before it are not there. -/
theorem recv_ignored (h : s.Valid k bytes n) (hn : n ≠ 0) (hmap : map source = none) :
    recv map ((s.message k sn).linked source self) = some (map, []) := by
  rw [recv_message, recvPart, hmap]
  exact if_pos (mt (num_eq_one_iff h).mp hn)

/-- **The next part** extends what is there; with the last one the message is complete. -/
theorem recv_next (h : s.Valid k bytes n) (hd : Fragmented k bytes) (hk : k < 2 ^ 16) (hn : n ≠ 0)
    (hmap : map source = gathered k n bytes) :
    recv map ((s.message k sn).linked source self) = if n = bytes.length / k
      then some (Function.update map source none,
        [whole self source ⟨bytes, bytes.length, bytes.length⟩])
      else some (Function.update map source (gathered k (n + 1) bytes), []) := by
  have hlen : (BitVec.ofNat 64 s.size).toNat = bytes.length := by
    rw [h.size, BitVec.toNat_ofNat, Nat.mod_eq_of_lt (hd.length_lt hk)]
  have hpieces := h.pieces_append hd
  have hfits : (pieces k n bytes).length + (s.rest.take (s.partSize k)).length ≤ bytes.length := by
    rw [← List.length_append, hpieces, pieces, List.length_take]
    exact Nat.min_le_right _ _
  have happend : append ⟨pieces k n bytes, bytes.length, bytes.length⟩
      (Data.new (s.rest.take (s.partSize k)) 0).buf =
        some ⟨pieces k (n + 1) bytes, bytes.length, bytes.length⟩ := by
    rw [append, Data.size, Data.new]
    dsimp only
    rw [if_neg (Nat.not_lt.mpr hfits), if_neg (Nat.not_lt.mpr hfits), hpieces]
  rw [gathered, if_neg hn] at hmap
  rw [recv_message, recvPart, hmap]
  dsimp only
  rw [if_neg (mt (num_eq_one_iff h).mp hn), happend, findTo_message, hlen]
  dsimp only
  rw [Data.size]
  by_cases hlast : n = bytes.length / k
  · have hall : pieces k (n + 1) bytes = bytes := by rw [hlast, Sending.pieces_all hd]
    rw [if_pos ((h.last_iff hd).mpr hlast), if_pos hlast, hall, if_neg (by simp)]
  · rw [if_neg (mt (h.last_iff hd).mp hlast), if_neg hlast, gathered, if_neg n.succ_ne_zero]

/-- What a lost packet leaves. -/
theorem recv_lost (map : Map) (source self : Address) (sn : U64) :
    recv map (((Message.empty.add (.sn sn)).add .noData).linked source self) =
      some (Function.update map source none,
        [((Message.empty.add (.sn sn)).add .noData).linked source self]) := rfl

end Reassemble

/-! ### The round trip -/

/-- The messages one after the other. -/
def Reassemble.step (map : Reassemble.Map) (m : Message) :
    Option (Reassemble.Map × List Message) := Reassemble.recv map m

/-- The message an application sends. -/
def Message.ofData (bytes : List UInt8) : Message := Message.empty.add (.data (Data.new bytes 0))

/-- How much data a message has. -/
def Message.dataSize (m : Message) : ℕ := (m.findData.map Data.size).getD 0

/-- The messages have serial numbers one after the other. -/
def Numbered : U64 → List Message → Prop
  | _, [] => True
  | sn, m :: ms => m.findSn = some sn ∧ Numbered (sn + 1) ms

/-- **The round trip**: the packets of a message carry as many bytes as it has, and when they arrive
in the order of their serial numbers, the receiver hands up one message, with the last packet, and
it has the same bytes. -/
def RoundTrips (maxPacketSize : U16) (bytes : List UInt8) : Prop :=
  ∀ (sn : U64) (map : Reassemble.Map) (source self : Address), map source = none →
    ∃ packets sn', Fragment.send maxPacketSize (.ofData bytes) sn = some (packets, sn') ∧
      Numbered sn packets ∧ (packets.map Message.dataSize).sum = bytes.length ∧
      ∃ map' m, Machine.run Reassemble.step map (packets.map (·.linked source self)) =
          some (map', List.replicate (packets.length - 1) [] ++ [[m]]) ∧
        m.findData.map Data.buf = some bytes

namespace Sending

variable {n : ℕ} {s : Sending} {source self : Address}

/-- The packets are passed down in the order of their serial numbers. -/
theorem numbered_of_loop {tests : ℕ} {sn sn' : U64} {ms : List Message}
    (h : s.loop k tests sn = some (ms, sn')) : Numbered sn ms := by
  induction tests generalizing s sn ms with
  | zero => cases h
  | succ tests ih =>
    rw [loop] at h
    split_ifs at h with hi
    · rcases hiter : s.iterate k sn with _ | ⟨m, s'⟩
      · rw [hiter] at h
        cases h
      · rw [hiter] at h
        rw [iterate] at hiter
        split_ifs at hiter
        cases hiter
        dsimp only at h
        rcases hloop : loop k tests { s with i := s.i + 1, rest := s.rest.drop (s.partSize k) }
          (sn + 1) with _ | ⟨ms', sn''⟩
        · rw [hloop] at h
          cases h
        · rw [hloop] at h
          cases h
          exact ⟨rfl, ih hloop⟩
    · cases h
      trivial

theorem dataSize_message (sn : U64) (h : s.partSize k ≤ s.rest.length) :
    (s.message k sn).dataSize = s.partSize k :=
  (List.length_take ..).trans (Nat.min_eq_left h)

/-- **The rest of the loop**: its packets carry the bytes that are left, and where the receiver has
the parts before them it completes the message with the last one. -/
theorem loop_spec (h : s.Valid k bytes n) (hd : Fragmented k bytes) (hk : k < 2 ^ 16) (sn : U64)
    {tests : ℕ} (htests : bytes.length / k + 2 ≤ n + tests) :
    ∃ ms sn', s.loop k tests sn = some (ms, sn') ∧ ms ≠ [] ∧
      (ms.map Message.dataSize).sum = s.rest.length ∧
      ∀ map : Reassemble.Map, map source = Reassemble.gathered k n bytes →
        ∃ map', Machine.run Reassemble.step map (ms.map (·.linked source self)) =
          some (map', List.replicate (ms.length - 1) [] ++
            [[Reassemble.whole self source ⟨bytes, bytes.length, bytes.length⟩]]) := by
  have hle := h.le
  induction tests generalizing n s sn with
  | zero => omega
  | succ tests ih =>
    have hfirst := h.iterate_eq hd sn
    have hsize := dataSize_message sn (h.partSize_le hd)
    have hpart := h.partSize_le hd
    rw [loop, if_pos (h.i_le hd), hfirst]
    rcases Nat.lt_or_ge n (bytes.length / k) with hlt | hge
    · obtain ⟨ms, sn', hloop, hne, hsum, hrun⟩ := ih (h.next hd hlt) (sn + 1) (by omega) hlt
      refine ⟨s.message k sn :: ms, sn', ?_, List.cons_ne_nil _ _, ?_, fun map hmap => ?_⟩
      · simp only [hloop]
      · rw [List.map_cons, List.sum_cons, hsum, hsize, List.length_drop]
        omega
      · have hrecv : Reassemble.recv map ((s.message k sn).linked source self) =
            some (Function.update map source (Reassemble.gathered k (n + 1) bytes), []) := by
          rcases Nat.eq_zero_or_pos n with rfl | hn
          · exact Reassemble.recv_first h hd hk hmap
          · rw [Reassemble.recv_next h hd hk hn.ne' hmap, if_neg hlt.ne]
        obtain ⟨map', hrun⟩ := hrun _ (Function.update_self source _ map)
        refine ⟨map', Machine.run_cons_eq_some.mpr ⟨_, _, _, hrecv, hrun, ?_⟩⟩
        have hpos : ms.length - 1 + 1 = ms.length := by
          have := List.length_pos_of_ne_nil hne
          omega
        rw [List.length_cons, Nat.add_sub_cancel, ← List.cons_append, ← List.replicate_succ, hpos]
    · -- the last part
      have hlast : n = bytes.length / k := Nat.le_antisymm hle hge
      have hn : n ≠ 0 := hlast ▸ hd.div_pos.ne'
      obtain _ | tests := tests
      · omega
      refine ⟨[s.message k sn], sn + 1, ?_, List.cons_ne_nil _ _, ?_, fun map hmap => ?_⟩
      · have hend : loop k (tests + 1)
            { s with i := s.i + 1, rest := s.rest.drop (s.partSize k) } (sn + 1) =
              some ([], sn + 1) := by
          rw [loop]
          exact if_neg (h.end_of_last hd hlast)
        simp only [hend]
      · have hall := h.pieces_append hd
        have hwhole := congrArg List.length hall
        rw [hlast, pieces_all hd, ← hlast, List.length_append, List.length_take,
          Nat.min_eq_left hpart] at hwhole
        have hrest : s.rest.length = bytes.length - n * k := by
          rw [h.rest, List.length_drop]
        have hpieces : (pieces k n bytes).length = n * k := by
          rw [pieces, List.length_take, hlast, Nat.min_eq_left]
          exact Nat.div_mul_le_self ..
        rw [List.map_singleton, List.sum_singleton, hsize]
        omega
      · have hrecv : Reassemble.recv map ((s.message k sn).linked source self) = _ :=
          Reassemble.recv_next h hd hk hn hmap
        rw [if_pos hlast] at hrecv
        exact ⟨_, Machine.run_cons_eq_some.mpr ⟨_, _, _, hrecv, rfl, rfl⟩⟩

/-- How much the packets of a loop that ends carry. -/
theorem sum_of_loop {tests : ℕ} {sn sn' : U64} {ms : List Message}
    (hpackets : s.packets.toNat + 1 < 2 ^ 32) (hi : s.i ≤ s.packets)
    (h : s.loop k tests sn = some (ms, sn')) :
    (ms.map Message.dataSize).sum = (s.packets.toNat - s.i.toNat) * k + s.size % k := by
  induction tests generalizing s sn ms with
  | zero => cases h
  | succ tests ih =>
    rw [loop, if_pos hi] at h
    rw [BitVec.le_def] at hi
    have hnext : (s.i + 1).toNat = s.i.toNat + 1 := by
      rw [BitVec.toNat_add]
      exact Nat.mod_eq_of_lt (show s.i.toNat + 1 < 2 ^ 32 by omega)
    rcases hiter : s.iterate k sn with _ | ⟨m, s'⟩
    · rw [hiter] at h
      cases h
    · rw [hiter] at h
      dsimp only at h
      rw [iterate] at hiter
      split_ifs at hiter with hfits
      cases hiter
      have hsize := dataSize_message sn hfits
      rcases hloop : loop k tests { s with i := s.i + 1, rest := s.rest.drop (s.partSize k) }
        (sn + 1) with _ | ⟨ms', sn''⟩
      · rw [hloop] at h
        cases h
      · rw [hloop] at h
        cases h
        rw [List.map_cons, List.sum_cons, hsize, partSize]
        by_cases hlast : s.i = s.packets
        · -- the loop ends here
          obtain _ | tests := tests
          · cases hloop
          · have hend : ¬s.i + 1 ≤ s.packets := by
              rw [BitVec.le_def, hnext, hlast]
              omega
            rw [loop, if_neg hend] at hloop
            cases hloop
            rw [if_pos hlast, hlast, Nat.sub_self, Nat.zero_mul, List.map_nil, List.sum_nil]
            omega
        · have hlt : s.i.toNat ≠ s.packets.toNat := fun heq => hlast (BitVec.eq_of_toNat_eq heq)
          have hrest := ih (s := { s with i := s.i + 1, rest := s.rest.drop (s.partSize k) })
            hpackets (by rw [BitVec.le_def]; exact hnext.le.trans (by dsimp only; omega)) hloop
          dsimp only at hrest
          rw [hrest, if_neg hlast, hnext]
          have hsplit : s.packets.toNat - s.i.toNat = s.packets.toNat - (s.i.toNat + 1) + 1 := by
            omega
          rw [hsplit, Nat.add_mul, Nat.one_mul]
          omega

/-- The loop does not end if the counter cannot pass the number of parts. -/
theorem loop_eq_none (h : s.packets = BitVec.allOnes 32) (tests : ℕ) (sn : U64) :
    s.loop k tests sn = none := by
  induction tests generalizing s sn with
  | zero => rfl
  | succ tests ih =>
    have hle : s.i ≤ s.packets := by
      have hlt := s.i.isLt
      rw [BitVec.le_def, h, BitVec.toNat_allOnes]
      omega
    rw [loop, if_pos hle, iterate]
    split_ifs
    · dsimp only
      rw [ih (s := { s with i := s.i + 1, rest := s.rest.drop (s.partSize k) }) h]
    · rfl

end Sending

/-- **A size that makes the round trip**: the data fit in a packet; or a packet does not hold a
divisor of their size, and the number of parts is below the largest `u32`. -/
def Transmissible (maxPacketSize : U16) (size : ℕ) : Prop :=
  let maxPayload := maxPacketSize.toNat - maxServiceSize
  size ≤ maxPayload ∨ ¬maxPayload ∣ size ∧ size / maxPayload + 2 < 2 ^ 32

instance (maxPacketSize : U16) (size : ℕ) : Decidable (Transmissible maxPacketSize size) :=
  inferInstanceAs (Decidable (_ ∨ _))

section

variable {maxPacketSize : U16}

theorem maxPayloadSize_eq (h : maxServiceSize < maxPacketSize.toNat) :
    maxPayloadSize maxPacketSize = maxPacketSize.toNat - maxServiceSize := by
  have hlt := maxPacketSize.isLt
  rw [maxServiceSize] at h
  rw [maxPayloadSize, maxServiceSize]
  omega

/-- What sending comes to. -/
theorem send_ofData (maxPacketSize : U16) (bytes : List UInt8) (sn : U64) :
    Fragment.send maxPacketSize (.ofData bytes) sn =
      if bytes.length ≤ maxPayloadSize maxPacketSize then
        some ([(Message.ofData bytes).add (.sn sn)], sn + 1)
      else if maxPayloadSize maxPacketSize = 0 then none
      else (Sending.start (maxPayloadSize maxPacketSize) bytes).loop (maxPayloadSize maxPacketSize)
        ((numPackets bytes.length (maxPayloadSize maxPacketSize)).toNat + 1) sn := rfl

/-- Data that fit in one packet are handed up as they are. -/
theorem roundTrips_of_le (h : bytes.length ≤ maxPayloadSize maxPacketSize) :
    RoundTrips maxPacketSize bytes := by
  intro sn map source self hmap
  refine ⟨_, _, (send_ofData ..).trans (if_pos h), ⟨rfl, trivial⟩, ?_, map,
    ((Message.ofData bytes).add (.sn sn)).linked source self, ?_, rfl⟩
  · exact Nat.add_zero _
  · refine Machine.run_cons_eq_some.mpr ⟨map, _, _, ?_, rfl, rfl⟩
    have hrecv : Reassemble.recv map (((Message.ofData bytes).add (.sn sn)).linked source self) =
        if (map source).isSome then none
        else some (map, [((Message.ofData bytes).add (.sn sn)).linked source self]) := rfl
    rw [Reassemble.step, hrecv, hmap]
    rfl

/-- **The sizes that make the round trip.** -/
theorem parts_roundTrip_iff (hp : maxServiceSize < maxPacketSize.toNat) :
    RoundTrips maxPacketSize bytes ↔ Transmissible maxPacketSize bytes.length := by
  have hpayload := maxPayloadSize_eq hp
  have hlt := maxPacketSize.isLt
  rw [maxServiceSize] at hp hpayload
  rw [Transmissible, maxServiceSize, ← hpayload]
  generalize hk : maxPayloadSize maxPacketSize = k at hpayload ⊢
  constructor
  · intro h
    by_contra hnot
    obtain ⟨hlarge, hbad⟩ := not_or.mp hnot
    obtain ⟨packets, sn', hsend, -, hsum, -⟩ := h 0 (fun _ => none) ⟨0, 0⟩ ⟨0, 0⟩ rfl
    rw [send_ofData, hk, if_neg hlarge, if_neg (by omega)] at hsend
    have hdiv := Nat.div_add_mod bytes.length k
    -- how many parts are announced
    rcases eq_or_ne (numPackets bytes.length k) (BitVec.allOnes 32) with hall | hall
    · rw [Sending.loop_eq_none hall] at hsend
      cases hsend
    have hfew : (numPackets bytes.length k).toNat + 1 < 2 ^ 32 := by
      have hisLt := (numPackets bytes.length k).isLt
      have hne : (numPackets bytes.length k).toNat ≠ 2 ^ 32 - 1 := fun heq =>
        hall (BitVec.eq_of_toNat_eq (by rw [heq, BitVec.toNat_allOnes]))
      omega
    rcases Nat.eq_zero_or_pos (numPackets bytes.length k).toNat with hzero | hpos
    · rw [hzero, Sending.loop, if_neg] at hsend
      · cases hsend
        rw [List.map_nil, List.sum_nil] at hsum
        omega
      · rw [BitVec.le_def, Sending.start, hzero]
        exact Nat.not_succ_le_zero 0
    · have hloop := Sending.sum_of_loop (s := Sending.start k bytes) hfew
        (by rw [BitVec.le_def]; exact hpos) hsend
      have hwhole : (numPackets bytes.length k).toNat - 1 = bytes.length / k := by
        rw [hsum] at hloop
        change bytes.length = ((numPackets bytes.length k).toNat - 1) * k + bytes.length % k
          at hloop
        refine Nat.eq_of_mul_eq_mul_right (show 0 < k by omega) ?_
        rw [Nat.mul_comm (bytes.length / k)]
        omega
      have hmod : (numPackets bytes.length k).toNat ≤
          bytes.length / k + if bytes.length % k = 0 then 0 else 1 := by
        rw [numPackets, BitVec.toNat_ofNat]
        exact Nat.mod_le _ _
      split_ifs at hmod with hzero
      · omega
      · exact hbad ⟨fun hdvd => hzero (Nat.mod_eq_zero_of_dvd hdvd), by omega⟩
  · rintro (hle | ⟨hdvd, hfew⟩)
    · exact roundTrips_of_le (hk ▸ hle)
    · by_cases hle : bytes.length ≤ k
      · exact roundTrips_of_le (hk ▸ hle)
      · intro sn map source self hmap
        have hd : Fragmented k bytes := ⟨by omega, by omega, hdvd, hfew⟩
        have hstart := Sending.start_valid hd
        have htests : bytes.length / k + 2 ≤ 0 + ((numPackets bytes.length k).toNat + 1) := by
          rw [hd.numPackets_eq]
          omega
        obtain ⟨ms, sn', hloop, -, hsum, hrun⟩ := Sending.loop_spec hstart hd (by omega) sn htests
        obtain ⟨map', hrun⟩ := hrun map hmap
        refine ⟨ms, sn', ?_, Sending.numbered_of_loop hloop, hsum, map', _, hrun, rfl⟩
        rw [send_ofData, hk, if_neg hle, if_neg (by omega), hloop]

end

/-- Three bytes in packets of two. -/
theorem parts_roundTrip_iff_three : RoundTrips 62 [1, 2, 3] ↔ Transmissible 62 [1, 2, 3].length :=
  parts_roundTrip_iff (by decide)

/-- Four bytes in packets of two do not make the round trip. -/
theorem not_roundTrips_four : ¬RoundTrips 62 [1, 2, 3, 4] := fun h =>
  absurd ((parts_roundTrip_iff (by decide)).mp h) (by decide)

end AceTao.RMCast
