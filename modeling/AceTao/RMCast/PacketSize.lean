import AceTao.RMCast.AcknowledgeSpec
import AceTao.RMCast.CodecSpec
import AceTao.RMCast.Sender

/-!
# The size of a packet

A profile takes at most so many bytes wherever it is written (`Profile.cost`), header and padding
included. So the size of a message is bounded by a sum that does not depend on the order of its
profiles. `NRTM::max_count` and `NAK::max_count` bound the lists by what is left of a packet without
data and the 60 bytes that are set aside, and these are enough for a serial number, a part and all
padding: no message that is passed to the link is longer than a packet (`Sender.run_fits`).
-/

namespace AceTao.RMCast

open AlignUp Cdr OutputCDR Machine

/-! ### Profiles -/

namespace Profile

/-- **The most that a profile takes** in a message. -/
def cost : Profile → ℕ
  | .fromAddress _ | .toAddress _ => 15
  | .data d => 5 + d.size
  | .sn _ => 19
  | .nak _ sns => 24 + 8 * sns.length
  | .nrtm map => 10 + 16 * map.length
  | .noData => 5
  | .part _ => 27

/-- Wherever it is written. -/
theorem sizeBody_le_cost {q : Profile} (h : q.WellFormed) (pos : ℕ) :
    q.sizeBody (SizeCDR.write2 (SizeCDR.write2 pos)) ≤ pos + q.cost := by
  have hheader : SizeCDR.write2 (SizeCDR.write2 pos) = alignUp pos 2 + 4 := by
    rw [SizeCDR.write2, SizeCDR.adjust, SizeCDR.adjust, alignUp, alignUp]
    omega
  have halign : alignUp pos 2 ≤ pos + 1 ∧ alignUp pos 2 % 2 = 0 := by
    rw [alignUp]
    omega
  rw [hheader]
  generalize alignUp pos 2 = start at halign
  cases q with
  | fromAddress address => exact h.elim
  | toAddress address => exact h.elim
  | data d =>
    have hd : d.size < 2 ^ 16 := h
    rw [sizeBody, SizeCDR.writeCharArray, BitVec.toNat_ofNat, Nat.mod_eq_of_lt (by omega), cost]
    split_ifs
    · omega
    · rw [SizeCDR.adjust, alignUp_one]
      omega
  | sn n =>
    rw [sizeBody, SizeCDR.write8, SizeCDR.adjust, alignUp, cost]
    omega
  | nak address sns =>
    have haddress : SizeCDR.write2 (SizeCDR.write4 (start + 4)) ≤ start + 12 := by
      rw [SizeCDR.write2, SizeCDR.write4, SizeCDR.adjust, SizeCDR.adjust, alignUp, alignUp]
      omega
    rw [sizeBody, cost]
    rcases eq_or_ne sns [] with rfl | hne
    · exact haddress.trans (by rw [List.length_nil]; omega)
    · rw [foldl_write8 hne]
      generalize SizeCDR.write2 (SizeCDR.write4 (start + 4)) = mid at haddress
      rw [alignUp]
      omega
  | nrtm map =>
    rw [sizeBody, cost]
    rcases eq_or_ne map [] with rfl | hne
    · rw [List.foldl_nil, List.length_nil]
      omega
    · have hsize := foldl_block hne (start + 4)
      have halign8 : alignUp (start + 4) 8 ≤ start + 11 := by
        rw [alignUp]
        omega
      omega
  | noData =>
    rw [sizeBody, cost]
    omega
  | part part =>
    rw [sizeBody, SizeCDR.write8, SizeCDR.write4, SizeCDR.adjust, SizeCDR.adjust, SizeCDR.adjust,
      alignUp, alignUp, alignUp, cost]
    omega

end Profile

namespace Message

/-- The most that the profiles of a message take. -/
def cost (m : Message) : ℕ := (m.profiles.map Profile.cost).sum

theorem size_le {m : Message} (h : ∀ q ∈ m.profiles, q.WellFormed) : m.size ≤ 4 + m.cost := by
  have hfold (qs : List Profile) (hqs : ∀ q ∈ qs, q.WellFormed) (pos : ℕ) :
      qs.foldl (fun pos q => q.sizeBody (SizeCDR.write2 (SizeCDR.write2 pos))) pos ≤
        pos + (qs.map Profile.cost).sum := by
    induction qs generalizing pos with
    | nil => exact Nat.le_refl _
    | cons q qs ih =>
      obtain ⟨hq, hqs⟩ := List.forall_mem_cons.mp hqs
      have hhead := q.sizeBody_le_cost hq pos
      have htail := ih hqs (q.sizeBody (SizeCDR.write2 (SizeCDR.write2 pos)))
      rw [List.foldl_cons, List.map_cons, List.sum_cons]
      omega
  exact hfold m.profiles h 4

/-- **A message within a limit**, by what its profiles take. -/
structure Bounded (limit : ℕ) (m : Message) : Prop where
  wellFormed : ∀ q ∈ m.profiles, q.WellFormed
  cost_le : 4 + m.cost ≤ limit

/-- **A message fits**: in whatever order its profiles are written, it takes no more bytes. -/
def Fits (limit : ℕ) (m : Message) : Prop :=
  ∀ m' : Message, m'.profiles.Perm m.profiles →
    ∀ (heap : ℕ → ℕ) (base memcpyTradeoff : ℕ) (major minor : UInt8),
      ∃ s, m'.write heap (init base m'.size memcpyTradeoff false major minor) = some (.ok (), s) ∧
        s.wire.length ≤ limit

theorem Bounded.fits {limit : ℕ} {m : Message} (h : m.Bounded limit) : m.Fits limit := by
  intro m' hperm heap base memcpyTradeoff major minor
  have hwf : ∀ q ∈ m'.profiles, q.WellFormed := fun q hq => h.wellFormed q (hperm.mem_iff.mp hq)
  obtain ⟨s, hwrite, hwire⟩ := write_spec hwf heap base memcpyTradeoff major minor
  have hcost : m'.cost = m.cost := (hperm.map Profile.cost).sum_eq
  have hsize := size_le hwf
  have hle := h.cost_le
  refine ⟨s, hwrite, ?_⟩
  rw [hwire, length_put hwf]
  omega

end Message

/-! ### The numbers of elements -/

/-- **The numbers of a `NAK`** fit. -/
theorem nakMaxCount_le (maxSize : ℕ) :
    nakMaxCount maxSize = 0 ∨ 16 + 8 * nakMaxCount maxSize ≤ maxSize := by
  have hloop (tests n : ℕ) (hn : n = 0 ∨ 16 + 8 * n ≤ maxSize) :
      nakCountLoop maxSize tests (16 + 8 * n) n = 0 ∨
        16 + 8 * nakCountLoop maxSize tests (16 + 8 * n) n ≤ maxSize := by
    induction tests generalizing n with
    | zero => exact hn
    | succ tests ih =>
      rw [nakCountLoop]
      by_cases hfit : 16 + 8 * n + 8 ≤ maxSize
      · have hnext : 16 + 8 * n + 8 = 16 + 8 * (n + 1) := by omega
        simp only [if_pos hfit]
        split_ifs
        · omega
        · rw [hnext]
          exact ih (n + 1) (by omega)
      · simp only [if_neg hfit]
        rw [if_pos (by omega)]
        exact hn
  exact hloop (maxSize + 1) 0 (Or.inl rfl)

/-- **The entries of an `NRTM`** fit. -/
theorem nrtmMaxCount_le (maxSize : ℕ) :
    nrtmMaxCount maxSize = 0 ∨ 6 + 16 * nrtmMaxCount maxSize ≤ maxSize := by
  have hloop (tests n total : ℕ) (htotal : alignUp total 8 = 8 + 16 * n)
      (hn : n = 0 ∨ 6 + 16 * n ≤ maxSize) : nrtmCountLoop maxSize tests total n = 0 ∨
        6 + 16 * nrtmCountLoop maxSize tests total n ≤ maxSize := by
    induction tests generalizing n total with
    | zero => exact hn
    | succ tests ih =>
      have hblock : SizeCDR.write2 (SizeCDR.write4 (SizeCDR.write8 total)) = 6 + 16 * (n + 1) := by
        rw [SizeCDR.write2, SizeCDR.write4, SizeCDR.write8, SizeCDR.adjust, SizeCDR.adjust,
          SizeCDR.adjust, htotal, alignUp, alignUp]
        omega
      rw [nrtmCountLoop, hblock]
      by_cases hfit : 6 + 16 * (n + 1) ≤ maxSize
      · simp only [if_pos hfit]
        split_ifs
        · exact Or.inr hfit
        · exact ih (n + 1) _ (by rw [alignUp]; omega) (Or.inr hfit)
      · simp only [if_neg hfit]
        rw [if_pos (by omega)]
        exact hn
  exact hloop (maxSize + 1) 0 4 rfl (Or.inl rfl)

/-- **A packet has room** for an element of each list in what the service profiles leave of it. A
packet of less than 60 bytes leaves nothing. -/
structure HasRoom (maxPacketSize : U16) : Prop where
  nak : 1 ≤ nakMaxCount (maxPacketSize.toNat - maxServiceSize)
  nrtm : 1 ≤ nrtmMaxCount (maxPacketSize.toNat - maxServiceSize)

section

variable {maxPacketSize : U16}

theorem HasRoom.lt (h : HasRoom maxPacketSize) : maxServiceSize < maxPacketSize.toNat := by
  have hnak := h.nak
  rcases nakMaxCount_le (maxPacketSize.toNat - maxServiceSize) with hzero | hle <;> omega

theorem HasRoom.maxPayloadSize_eq (h : HasRoom maxPacketSize) :
    maxPayloadSize maxPacketSize = maxPacketSize.toNat - maxServiceSize := by
  have hlt := h.lt
  have hmax := maxPacketSize.isLt
  rw [maxPayloadSize]
  omega

/-- The same as an `unsigned short`. -/
theorem HasRoom.toNat_sub (h : HasRoom maxPacketSize) :
    (maxPacketSize - BitVec.ofNat 16 maxServiceSize : U16).toNat =
      maxPacketSize.toNat - maxServiceSize := by
  have hservice : (BitVec.ofNat 16 maxServiceSize).toNat = maxServiceSize := rfl
  rw [BitVec.toNat_sub_of_le (BitVec.le_def.mpr (by rw [hservice]; exact h.lt.le)), hservice]

end

/-! ### `Fragment` -/

/-- **A message of `Fragment`**: data that leave room for the service profiles, a serial number, and
perhaps a part. -/
inductive OfFragment (maxPayload : ℕ) (m : Message) : Prop
  | whole (d : Data) (sn : U64) (hd : d.size ≤ maxPayload) (h : m.profiles = [.data d, .sn sn])
  | part (sn : U64) (part : Part) (d : Data) (hd : d.size ≤ maxPayload)
    (h : m.profiles = [.sn sn, .part part, .data d])

theorem Sending.ofFragment_of_mem {maxPayload tests : ℕ} (hpos : 0 < maxPayload) {s : Sending}
    {sn : U64} {m : Message} (hm : m ∈ s.passed maxPayload tests sn) : OfFragment maxPayload m := by
  induction tests generalizing s sn with
  | zero => cases hm
  | succ tests ih =>
    rw [Sending.passed] at hm
    split_ifs at hm
    · rcases hi : s.iterate maxPayload sn with _ | ⟨m₁, s'⟩
      · rw [hi] at hm
        cases hm
      · rw [hi] at hm
        rcases List.mem_cons.mp hm with rfl | hm
        · rw [Sending.iterate] at hi
          split_ifs at hi
          cases hi
          have hsize : (s.rest.take (s.partSize maxPayload)).length ≤ maxPayload := by
            have hpart : s.partSize maxPayload ≤ maxPayload := by
              rw [Sending.partSize]
              split_ifs
              · exact (Nat.mod_lt _ hpos).le
              · exact Nat.le_refl _
            exact (List.length_take_le _ _).trans hpart
          exact .part _ _ (Data.new (s.rest.take (s.partSize maxPayload)) 0) hsize rfl
        · exact ih hm
    · cases hm

theorem Fragment.ofFragment_of_mem {maxPacketSize : U16} {bytes : List UInt8} {sn : U64}
    {tests : ℕ} {m : Message} (hm : m ∈ Fragment.passed maxPacketSize
      (Message.empty.add (.data (.new bytes 0))) sn tests) :
    OfFragment (maxPayloadSize maxPacketSize) m := by
  rw [Fragment.passed] at hm
  change m ∈ (if (Data.new bytes 0).size ≤ maxPayloadSize maxPacketSize then _ else _) at hm
  split_ifs at hm with hle hzero
  · cases List.mem_singleton.mp hm
    exact .whole (Data.new bytes 0) sn hle rfl
  · cases hm
  · exact Sending.ofFragment_of_mem (Nat.pos_of_ne_zero hzero) hm

/-- What `send` passes down, if it returns, is what is passed down in some number of iterations. -/
theorem Fragment.exists_passed {maxPacketSize : U16} {m : Message} {sn sn' : U64}
    {ms : List Message} (h : Fragment.send maxPacketSize m sn = some (ms, sn')) :
    ∃ tests, Fragment.passed maxPacketSize m sn tests = ms := by
  have hloop (maxPayload tests : ℕ) (s : Sending) (sn : U64) {ms : List Message}
      (h : s.loop maxPayload tests sn = some (ms, sn')) : s.passed maxPayload tests sn = ms := by
    induction tests generalizing s sn ms with
    | zero => cases h
    | succ tests ih =>
      rw [Sending.loop] at h
      rw [Sending.passed]
      split_ifs at h ⊢
      · rcases hi : s.iterate maxPayload sn with _ | ⟨m₁, s'⟩
        · rw [hi] at h
          cases h
        · rw [hi] at h
          dsimp only at h ⊢
          rcases hl : s'.loop maxPayload tests (sn + 1) with _ | ⟨ms', sn₁⟩
          · rw [hl] at h
            cases h
          · rw [hl] at h
            cases h
            rw [ih s' (sn + 1) hl]
      · cases h
        rfl
  rw [Fragment.send] at h
  rcases hdata : m.findData with _ | d
  · rw [hdata] at h
    cases h
    exact ⟨0, by rw [Fragment.passed, hdata]⟩
  · rw [hdata] at h
    dsimp only at h
    split_ifs at h with hle hzero
    · cases h
      exact ⟨0, by rw [Fragment.passed, hdata]; exact if_pos hle⟩
    · refine ⟨(numPackets d.size (maxPayloadSize maxPacketSize)).toNat + 1, ?_⟩
      rw [Fragment.passed, hdata]
      exact (if_neg hle).trans ((if_neg hzero).trans (hloop _ _ _ _ h))

namespace OfFragment

variable {maxPayload limit : ℕ} {m : Message}

theorem findSn (h : OfFragment maxPayload m) : ∃ sn, m.findSn = some sn := by
  cases h with
  | whole d sn _ h => exact ⟨sn, by rw [Message.findSn, Message.find, h]; rfl⟩
  | part sn part d _ h => exact ⟨sn, by rw [Message.findSn, Message.find, h]; rfl⟩

/-- **Its data**, and what it takes with them. -/
theorem findData (h : OfFragment maxPayload m) : ∃ d, m.findData = some d ∧ d.size ≤ maxPayload ∧
    m.cost ≤ 51 + d.size ∧ (d.size < 2 ^ 16 → ∀ q ∈ m.profiles, q.WellFormed) ∧
    0x0006 ∉ m.profiles.map Profile.id := by
  cases h with
  | whole d sn hd h =>
    refine ⟨d, by rw [Message.findData, Message.find, h]; rfl, hd, ?_, fun hlt => ?_, ?_⟩
    · rw [Message.cost, h]
      simp only [List.map_cons, List.map_nil, List.sum_cons, List.sum_nil, Profile.cost]
      omega
    · rw [h]
      exact List.forall_mem_cons.mpr ⟨hlt, List.forall_mem_singleton.mpr trivial⟩
    · rw [h]
      simp only [List.map_cons, List.map_nil, Profile.id]
      decide
  | part sn part d hd h =>
    refine ⟨d, by rw [Message.findData, Message.find, h]; rfl, hd, ?_, fun hlt => ?_, ?_⟩
    · rw [Message.cost, h]
      simp only [List.map_cons, List.map_nil, List.sum_cons, List.sum_nil, Profile.cost]
      omega
    · rw [h]
      exact List.forall_mem_cons.mpr ⟨trivial, List.forall_mem_cons.mpr ⟨trivial,
        List.forall_mem_singleton.mpr hlt⟩⟩
    · rw [h]
      simp only [List.map_cons, List.map_nil, Profile.id]
      decide

end OfFragment

/-! ### `Acknowledge` -/

namespace Acknowledge

variable {p : Parameters} {hold : List (Address × Queue)} {m : Message} {maxElem : U32}

/-- **The loop over the queues** binds at most so many entries, each address once. -/
theorem gather_spec (hold : List (Address × Queue)) (hpos : maxElem ≠ 0) (map : List (Address × U64))
    (hnodup : (map.map Prod.fst).Nodup) :
    (gather hold maxElem map).length ≤ map.length + maxElem.toNat ∧
      ((gather hold maxElem map).map Prod.fst).Nodup := by
  induction hold generalizing maxElem map with
  | nil => exact ⟨Nat.le_add_right _ _, hnodup⟩
  | cons e hold ih =>
    obtain ⟨address, q⟩ := e
    have hbind : (bindBlock map address q.sn).length ≤ map.length + 1 ∧
        ((bindBlock map address q.sn).map Prod.fst).Nodup := by
      rw [bindBlock]
      split_ifs with hmem
      · exact ⟨Nat.le_succ _, hnodup⟩
      · refine ⟨by rw [List.length_append]; rfl, ?_⟩
        rw [List.map_append, List.nodup_append']
        refine ⟨hnodup, List.nodup_singleton _, ?_⟩
        rw [List.map_singleton, List.disjoint_singleton]
        exact hmem
    have hone : (1 : U32).toNat = 1 := rfl
    have hge : 1 ≤ maxElem.toNat :=
      Nat.pos_of_ne_zero fun hzero => hpos (BitVec.eq_of_toNat_eq hzero)
    have hpred : (maxElem - 1).toNat = maxElem.toNat - 1 := by
      rw [BitVec.toNat_sub_of_le (BitVec.le_def.mpr (by rw [hone]; exact hge)), hone]
    rw [gather]
    split_ifs with hlast
    · exact ⟨hbind.1.trans (by omega), hbind.2⟩
    · obtain ⟨hlen, hkeys⟩ := ih hlast _ hbind.2
      exact ⟨hlen.trans (by omega), hkeys⟩

/-- **`create_nrtm`** makes a profile of at most so many entries. -/
theorem createNrtm_spec (hpos : maxElem ≠ 0) {nrtm : Profile}
    (h : createNrtm hold maxElem = some nrtm) :
    nrtm.WellFormed ∧ nrtm.cost ≤ 10 + 16 * maxElem.toNat ∧ nrtm.id = 0x0006 := by
  obtain ⟨hlen, hkeys⟩ := gather_spec hold hpos [] List.nodup_nil
  rw [createNrtm] at h
  generalize gather hold maxElem [] = map at h hlen hkeys
  cases map with
  | nil => cases h
  | cons block blocks =>
    cases h
    refine ⟨hkeys, ?_, rfl⟩
    rw [Profile.cost]
    rw [List.length_nil] at hlen
    omega

/-- A number of elements as a `u32`. -/
theorem toNat_nrtmMaxCount {maxSize : ℕ} (hlt : maxSize < 2 ^ 16) :
    (BitVec.ofNat 32 (nrtmMaxCount (BitVec.ofNat 32 maxSize).toNat)).toNat = nrtmMaxCount maxSize ∧
      (nrtmMaxCount maxSize = 0 ∨ 6 + 16 * nrtmMaxCount maxSize ≤ maxSize) := by
  have hsize : (BitVec.ofNat 32 maxSize).toNat = maxSize := by
    rw [BitVec.toNat_ofNat]
    exact Nat.mod_eq_of_lt (by omega)
  have hle := nrtmMaxCount_le maxSize
  rw [hsize, BitVec.toNat_ofNat]
  exact ⟨Nat.mod_eq_of_lt (by omega), hle⟩

theorem cost_add {nrtm : Profile} (hnew : nrtm.id ∉ m.profiles.map Profile.id) :
    (m.add nrtm).profiles = m.profiles ++ [nrtm] ∧ (m.add nrtm).cost = m.cost + nrtm.cost := by
  have hprofiles : (m.add nrtm).profiles = m.profiles ++ [nrtm] := by
    rw [Message.add, dif_neg hnew]
  refine ⟨hprofiles, ?_⟩
  rw [Message.cost, hprofiles, List.map_append, List.sum_append, List.map_singleton,
    List.sum_singleton, Message.cost]

/-- **What `send` passes down** is within the limit, and keeps its serial number. -/
theorem bounded_send {maxPacketSize : U16} (hroom : HasRoom maxPacketSize)
    (hold : List (Address × Queue))
    (hm : OfFragment (maxPayloadSize maxPacketSize) m) :
    (send maxPacketSize hold m).Bounded maxPacketSize.toNat ∧
      (send maxPacketSize hold m).findSn = m.findSn := by
  obtain ⟨d, hdata, hle, hcost, hwf, hnew⟩ := hm.findData
  have hpayload := hroom.maxPayloadSize_eq
  have hlt := hroom.lt
  have hmax := maxPacketSize.isLt
  have hservice : maxServiceSize = 60 := rfl
  rw [hpayload] at hle
  have hwf' := hwf (by omega)
  have hplain : m.Bounded maxPacketSize.toNat := ⟨hwf', by omega⟩
  rw [send, hdata]
  dsimp only
  rw [hpayload]
  obtain ⟨hto, hfits⟩ := toNat_nrtmMaxCount
    (show maxPacketSize.toNat - maxServiceSize - d.size < 2 ^ 16 by omega)
  generalize hmaxElem : (BitVec.ofNat 32 (nrtmMaxCount (BitVec.ofNat 32
    (maxPacketSize.toNat - maxServiceSize - d.size)).toNat) : U32) = maxElem at hto
  by_cases hspace : d.size < maxPacketSize.toNat - maxServiceSize
  · rw [if_pos hspace]
    by_cases hpos : 0 < maxElem
    · rw [if_pos hpos]
      rcases hcreate : createNrtm hold maxElem with _ | nrtm
      · exact ⟨hplain, rfl⟩
      · have hne : maxElem ≠ 0 := fun hzero => BitVec.ne_of_lt hpos hzero.symm
        obtain ⟨hnrtm, hnrtmCost, hid⟩ := createNrtm_spec hne hcreate
        obtain ⟨hprofiles, hsum⟩ := cost_add (hid ▸ hnew)
        dsimp only
        refine ⟨⟨?_, ?_⟩, ?_⟩
        · rw [hprofiles]
          exact List.forall_mem_append.mpr ⟨hwf', List.forall_mem_singleton.mpr hnrtm⟩
        · rw [hsum]
          have hge : 0 < maxElem.toNat := BitVec.lt_def.mp hpos
          omega
        · have hother : ¬nrtm.id = 0x0004 := by rw [hid]; decide
          rw [Message.findSn, Message.findSn, Message.find, Message.find, hprofiles,
            List.find?_append, List.find?_singleton, decide_eq_false hother]
          simp
    · rw [if_neg hpos]
      exact ⟨hplain, rfl⟩
  · rw [if_neg hspace]
    exact ⟨hplain, rfl⟩

/-- A `NAK` is filled with at most so many numbers. -/
theorem length_fillNak_sns_le (nakTimeout : U64) {maxElem : ℕ} (es : List (U64 × Descr))
    {sns : List U64} (hle : sns.length ≤ maxElem) :
    (fillNak nakTimeout maxElem sns es).1.length ≤ maxElem := by
  induction es generalizing sns with
  | nil => exact hle
  | cons e es ih =>
    rw [fillNak]
    split_ifs with hlt
    · refine ih ?_
      split_ifs
      · rw [List.length_append]
        exact hlt
      · exact hle
    · exact hle

theorem length_le_of_trackLosses {nakTimeout : U64} {maxElem tests : ℕ}
    {es es' : List (U64 × Descr)} {naks : List (List U64)}
    (h : trackLosses nakTimeout maxElem tests es = some (es', naks)) :
    ∀ sns ∈ naks, sns.length ≤ maxElem := by
  induction tests generalizing es es' naks with
  | zero =>
    cases es with
    | nil =>
      rw [trackLosses] at h
      cases h
      exact List.forall_mem_nil _
    | cons e es => cases h
  | succ tests ih =>
    cases es with
    | nil =>
      rw [trackLosses] at h
      cases h
      exact List.forall_mem_nil _
    | cons e es =>
      rw [trackLosses] at h
      have hhead := @length_fillNak_sns_le nakTimeout maxElem (e :: es) [] (Nat.zero_le maxElem)
      dsimp only at h
      rcases hrest : trackLosses nakTimeout maxElem tests
        (fillNak nakTimeout maxElem [] (e :: es)).2.2 with _ | ⟨es₁, naks₁⟩
      · rw [hrest] at h
        cases h
      · rw [hrest] at h
        cases h
        have htail := ih hrest
        split_ifs
        · exact htail
        · exact List.forall_mem_cons.mpr ⟨hhead, htail⟩

/-- **What the tracking thread sends for a queue** is within the limit. -/
theorem bounded_trackQueue (hroom : HasRoom p.maxPacketSize) (address : Address) (q : Queue) :
    ∃ q' down, trackQueue p address q = some (q', down) ∧
      ∀ m ∈ down, m.Bounded p.maxPacketSize.toNat ∧ m.findData = none := by
  have hto := hroom.toNat_sub
  have hpos := hroom.nak
  rw [← hto] at hpos
  obtain ⟨es, naks, hlosses, -⟩ := trackLosses_spec p.nakTimeout hpos q.entries
    (Nat.le_refl q.entries.length)
  rw [trackQueue]
  dsimp only
  rw [hlosses]
  refine ⟨_, _, rfl, fun m hm => ?_⟩
  obtain ⟨sns, hsns, rfl⟩ := List.mem_map.mp hm
  have hlen := length_le_of_trackLosses hlosses sns hsns
  have hservice : maxServiceSize = 60 := rfl
  rw [hto] at hlen
  refine ⟨⟨List.forall_mem_singleton.mpr trivial, ?_⟩, rfl⟩
  have hcost : (Message.empty.add (.nak address sns)).cost = 24 + 8 * sns.length := by
    rw [(cost_add List.not_mem_nil).2]
    exact Nat.zero_add _
  rcases nakMaxCount_le (p.maxPacketSize.toNat - maxServiceSize) with hzero | hfits
  · have hnak := hroom.nak
    omega
  · omega

theorem bounded_trackQueues (hroom : HasRoom p.maxPacketSize) (hold : List (Address × Queue)) :
    ∃ ms, trackQueues p hold = some ms ∧
      ∀ m ∈ ms, m.Bounded p.maxPacketSize.toNat ∧ m.findData = none := by
  induction hold with
  | nil => exact ⟨[], rfl, nofun⟩
  | cons e hold ih =>
    obtain ⟨address, q⟩ := e
    obtain ⟨ms, hms, hall⟩ := ih
    rw [trackQueues]
    split_ifs
    · exact ⟨ms, hms, hall⟩
    · obtain ⟨q', down, hq, hdown⟩ := bounded_trackQueue hroom address q
      rw [hq, hms]
      exact ⟨down ++ ms, rfl, List.forall_mem_append.mpr ⟨hdown, hall⟩⟩

theorem bounded_nrtmMessages (hroom : HasRoom p.maxPacketSize) (hold : List (Address × Queue)) :
    ∀ m ∈ nrtmMessages p hold, m.Bounded p.maxPacketSize.toNat ∧ m.findData = none := by
  have hservice : maxServiceSize = 60 := rfl
  have hmax := p.maxPacketSize.isLt
  have hpos := hroom.nrtm
  rw [nrtmMessages, hroom.toNat_sub]
  have hle := nrtmMaxCount_le (p.maxPacketSize.toNat - maxServiceSize)
  have hto : (BitVec.ofNat 32 (nrtmMaxCount (p.maxPacketSize.toNat - maxServiceSize))).toNat =
      nrtmMaxCount (p.maxPacketSize.toNat - maxServiceSize) := by
    rw [BitVec.toNat_ofNat]
    exact Nat.mod_eq_of_lt (by omega)
  generalize BitVec.ofNat 32 (nrtmMaxCount (p.maxPacketSize.toNat - maxServiceSize)) = maxElem
    at hto
  rcases hcreate : createNrtm hold maxElem with _ | nrtm
  · nofun
  · have hne : maxElem ≠ 0 := by
      rintro rfl
      have hzero : (0 : U32).toNat = 0 := rfl
      omega
    obtain ⟨hnrtm, hcost, hid⟩ := createNrtm_spec hne hcreate
    obtain ⟨hprofiles, hsum⟩ := @cost_add Message.empty nrtm List.not_mem_nil
    refine List.forall_mem_singleton.mpr ⟨⟨?_, ?_⟩, ?_⟩
    · rw [hprofiles]
      exact List.forall_mem_singleton.mpr hnrtm
    · have hempty : Message.empty.cost = 0 := rfl
      rw [hsum]
      omega
    · have hother : ¬nrtm.id = 0x0003 := by rw [hid]; decide
      have hfind : (Message.empty.add nrtm).find 0x0003 = none := by
        rw [Message.find, hprofiles]
        exact List.find?_eq_none.mpr (List.forall_mem_singleton.mpr (by simpa using hother))
      rw [Message.findData, hfind]

end Acknowledge

/-! ### `Retransmit` -/

namespace Retransmit

variable {limit : ℕ} {queue : Queue} {m : Message}

/-- **All copies are within the limit.** -/
def Keeps (limit : ℕ) (queue : Queue) : Prop := ∀ e ∈ queue, e.2.msg.Bounded limit

theorem keeps_send (h : Keeps limit queue) (hm : m.Bounded limit) {sn : U64}
    (hsn : m.findSn = some sn) : ∃ queue', send queue m = some queue' ∧ Keeps limit queue' := by
  rw [send]
  split_ifs
  · rw [hsn]
    refine ⟨_, rfl, ?_⟩
    rw [bind]
    split_ifs
    · exact h
    · exact List.forall_mem_append.mpr ⟨h, List.forall_mem_singleton.mpr hm⟩
  · exact ⟨queue, rfl, h⟩

/-- Messages without data are not kept. -/
theorem sendAll_eq {ms : List Message} (h : ∀ m ∈ ms, m.findData = none) (queue : Queue) :
    sendAll queue ms = some queue := by
  induction ms with
  | nil => rfl
  | cons m ms ih =>
    obtain ⟨hm, hms⟩ := List.forall_mem_cons.mp h
    rw [sendAll, send, hm]
    exact ih hms

/-- **The answers to a `NAK`** are copies, or say that there are none. -/
theorem keeps_answers (hlimit : 28 ≤ limit) (sns : List U64) (h : Keeps limit queue) :
    Keeps limit (answers queue sns).1 ∧ ∀ m ∈ (answers queue sns).2, m.Bounded limit := by
  induction sns generalizing queue with
  | nil => exact ⟨h, nofun⟩
  | cons sn sns ih =>
    rw [answers]
    rcases hfind : queue.find? fun e => e.1 = sn with _ | e
    · obtain ⟨hkeeps, hms⟩ := ih h
      have hnone : ((Message.empty.add (.sn sn)).add .noData).Bounded limit :=
        ⟨List.forall_mem_cons.mpr ⟨trivial, List.forall_mem_singleton.mpr trivial⟩, hlimit⟩
      rw [hfind]
      exact ⟨hkeeps, List.forall_mem_cons.mpr ⟨hnone, hms⟩⟩
    · have hreset : Keeps limit
          (queue.map fun e => if e.1 = sn then (e.1, ⟨e.2.msg, 0⟩) else e) := by
        intro e' he'
        obtain ⟨e, he, rfl⟩ := List.mem_map.mp he'
        have hmsg := h e he
        split_ifs
        · exact hmsg
        · exact hmsg
      obtain ⟨hkeeps, hms⟩ := ih hreset
      rw [hfind]
      exact ⟨hkeeps, List.forall_mem_cons.mpr ⟨h e (List.mem_of_find?_eq_some hfind), hms⟩⟩

theorem keeps_track (retentionTimeout : U64) (h : Keeps limit queue) :
    Keeps limit (track retentionTimeout queue) := by
  intro e he
  obtain ⟨e₁, he₁, heq⟩ := List.mem_filterMap.mp he
  split_ifs at heq
  cases heq
  exact h e₁ he₁

end Retransmit

/-! ### The sender -/

namespace Sender

variable {p : SenderParameters} {s : Sender}

/-- The lowest layer adds the profile `To` to every message that arrives. -/
theorem exists_findTo (m : Message) (source self : Address) :
    ∃ target, (m.linked source self).findTo = some target := by
  have hmem : 0x0002 ∈ (m.linked source self).profiles.map Profile.id := by
    rw [Message.linked, Message.add]
    split_ifs with h
    · exact h
    · rw [List.map_append]
      exact List.mem_append_right _ (List.mem_singleton.mpr rfl)
  obtain ⟨q, hq, hid⟩ := List.mem_map.mp hmem
  rcases hfind : (m.linked source self).find 0x0002 with _ | q'
  · exact absurd hid (by simpa using List.find?_eq_none.mp hfind q hq)
  · have hid' : q'.id = 0x0002 := by simpa using List.find?_some hfind
    rw [Message.findTo, hfind]
    cases q' with
    | toAddress address => exact ⟨address, rfl⟩
    | _ => exact absurd hid' (by simp [Profile.id])

/-- **Every step** returns, and what it passes down is within the limit. -/
theorem exists_step (hroom : HasRoom p.maxPacketSize) (event : SenderEvent)
    (h : Retransmit.Keeps p.maxPacketSize.toNat s.queue) :
    ∃ s' ms, s.step p event = some (s', ms) ∧
      Retransmit.Keeps p.maxPacketSize.toNat s'.queue ∧
      ∀ m ∈ ms, m.Bounded p.maxPacketSize.toNat := by
  have hlt := hroom.lt
  have hservice : maxServiceSize = 60 := rfl
  cases event with
  | send bytes sn k hold =>
    rw [step]
    rcases hk : (Fragment.passed p.maxPacketSize (Message.empty.add (.data (.new bytes 0))) sn
      (k + 1))[k]? with _ | m
    · exact ⟨s, [], rfl, h, nofun⟩
    · have hm := Fragment.ofFragment_of_mem (List.mem_of_getElem? hk)
      obtain ⟨hbounded, hsn⟩ := Acknowledge.bounded_send hroom hold hm
      obtain ⟨sn', hsn'⟩ := hm.findSn
      obtain ⟨queue, hsend, hkeeps⟩ := Retransmit.keeps_send h hbounded (hsn.trans hsn')
      dsimp only
      rw [hsend]
      exact ⟨_, _, rfl, hkeeps, List.forall_mem_singleton.mpr hbounded⟩
  | track hold =>
    obtain ⟨naks, htrack, hnaks⟩ := Acknowledge.bounded_trackQueues (p := p.toParameters) hroom hold
    have hnrtm := Acknowledge.bounded_nrtmMessages (p := p.toParameters) hroom hold
    have hall : ∀ m ∈ naks ++ (if s.nrtmTimer - 1 = 0 then
        Acknowledge.nrtmMessages p.toParameters hold else []),
        m.Bounded p.maxPacketSize.toNat ∧ m.findData = none := by
      refine List.forall_mem_append.mpr ⟨hnaks, ?_⟩
      split_ifs
      · exact hnrtm
      · nofun
    rw [step, htrack]
    dsimp only
    rw [Retransmit.sendAll_eq fun m hm => (hall m hm).2]
    exact ⟨_, _, rfl, h, fun m hm => (hall m hm).1⟩
  | recv m source self =>
    rw [step, Retransmit.recv]
    rcases (m.linked source self).findNak with _ | ⟨address, sns⟩
    · exact ⟨_, _, rfl, h, nofun⟩
    · obtain ⟨target, htarget⟩ := exists_findTo m source self
      rw [htarget]
      dsimp only
      by_cases heq : address = target
      · rw [if_pos heq]
        obtain ⟨hkeeps, hms⟩ := Retransmit.keeps_answers (by omega) sns h
        exact ⟨_, _, rfl, hkeeps, hms⟩
      · rw [if_neg heq]
        exact ⟨_, _, rfl, h, nofun⟩
  | expire => exact ⟨_, _, rfl, Retransmit.keeps_track _ h, nofun⟩

/-- **No message is longer than a packet**: in every run of a sender, all that is passed to the link
fits, in whatever order the profiles are written. -/
theorem run_fits (hroom : HasRoom p.maxPacketSize) (events : List SenderEvent) :
    ∃ s outs, run (step p) (new p) events = some (s, outs) ∧
      ∀ ms ∈ outs, ∀ m ∈ ms, m.Fits p.maxPacketSize.toNat := by
  have hnew : Retransmit.Keeps p.maxPacketSize.toNat (new p).queue := nofun
  have hsteps (s : Sender) (event : SenderEvent)
      (h : Retransmit.Keeps p.maxPacketSize.toNat s.queue) := exists_step hroom event h
  obtain ⟨s, outs, hrun, -, hall⟩ := run_outputs hsteps hnew events
  exact ⟨s, outs, hrun, fun ms hms m hm => (hall ms hms m hm).fits⟩

/-- The parameters that a socket has if none are given. -/
def defaultParameters : SenderParameters where
  maxPacketSize := 1470
  nakTimeout := 1
  nrtmTimeout := 10
  retentionTimeout := 500

theorem run_fits_default :
    ∃ s outs, run (step defaultParameters) (new defaultParameters)
      [.send [1, 2, 3] 1 0 [(⟨10000, 1⟩, .new 7)], .track [(⟨10000, 1⟩, .new 7)],
        .recv (Message.empty.add (.nak ⟨10000, 2⟩ [1, 2])) ⟨10000, 1⟩ ⟨10000, 2⟩, .expire] =
        some (s, outs) ∧
      ∀ ms ∈ outs, ∀ m ∈ ms, m.Fits 1470 :=
  @run_fits defaultParameters
    ⟨Acknowledge.nakMaxCount_pos.mpr (by decide), by decide +kernel⟩ _

end Sender

end AceTao.RMCast
