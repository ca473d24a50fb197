import AceTao.EventGateway.DatagramBounds
import AceTao.EventGateway.WindowRuns
import AceTao.Library.Tiling

/-!
# Putting a message together

A message that was cut into pieces arrives piece by piece, in any order and with duplicates
(`IsPiece`). The entry of the request has exactly the pieces that arrived (`RequestEntry.Has`);
the piece that was still missing is the one at which `decode` is called, with all bytes of the
message (`RequestEntry.Has.addFragment`).

The window of ids moves as ids ahead of it arrive. What is still in it keeps its place
(`Requests.shift_moved`). So an array that has what arrived of each message whose id is in the
window (`Requests.Tracks`) still has it when the next piece has been received
(`Requests.Tracks.receive`), as long as all ids lie so close together that none of them leaves the
window.
-/

namespace AceTao.EventGateway

/-- **A datagram of a message**, with the `k`-th of its pieces. -/
structure IsPiece (id : ULong) (pieces : List (List UInt8)) (k : ℕ) (h : Header)
    (data : List UInt8) : Prop where
  byteOrder : h.byteOrder = true
  requestId : h.requestId = id
  requestSize : h.requestSize.toNat = pieces.flatten.length
  fragmentSize : h.fragmentSize.toNat = data.length
  fragmentOffset : h.fragmentOffset.toNat = Tiling.start pieces k
  fragmentId : h.fragmentId.toNat = k
  fragmentCount : h.fragmentCount.toNat = pieces.length
  piece : pieces[k]? = some data
  inside : Tiling.start pieces k < pieces.flatten.length
  fits : data.length ≤ maxDgramSize

theorem IsPiece.lt {id : ULong} {pieces : List (List UInt8)} {k : ℕ} {h : Header}
    {data : List UInt8} (hp : IsPiece id pieces k h data) : k < pieces.length :=
  (List.getElem?_eq_some_iff.mp hp.piece).1

/-- Its header is consistent. -/
theorem IsPiece.consistent {id : ULong} {pieces : List (List UInt8)} {k : ℕ} {h : Header}
    {data : List UInt8} (hp : IsPiece id pieces k h data) : h.Consistent data.length := by
  have hend := Tiling.start_add_length_le hp.piece
  have hinside := hp.inside
  have hlt := hp.lt
  rw [← hp.requestSize, ← hp.fragmentOffset] at hinside
  rw [← hp.requestSize, ← hp.fragmentOffset, ← hp.fragmentSize] at hend
  rw [← hp.fragmentId, ← hp.fragmentCount] at hlt
  rintro (hless | hle | hle | ⟨hone, hne⟩)
  · have hless' := BitVec.lt_def.mp hless
    omega
  · exact Nat.not_lt.mpr (BitVec.le_def.mp hle) hinside
  · exact Nat.not_lt.mpr (BitVec.le_def.mp hle) hlt
  · -- the only piece is the whole
    have hlength : pieces.length = 1 := by
      rw [← hp.fragmentCount, hone]
      rfl
    obtain ⟨piece, rfl⟩ := List.length_eq_one_iff.mp hlength
    obtain rfl : k = 0 := Nat.lt_one_iff.mp hp.lt
    obtain rfl : piece = data := Option.some.inj hp.piece
    have hsize : h.requestSize.toNat = piece.length := by
      rw [hp.requestSize, List.flatten_singleton]
    rcases hne with hne | hne
    · exact hne (BitVec.eq_of_toNat_eq (hp.fragmentSize.trans hsize.symm))
    · exact hne hsize

/-- **The `k`-th piece is the last one** that is missing of `n`. -/
def Completes (n : ℕ) (got : ℕ → Prop) (k : ℕ) : Prop :=
  (∀ i < n, got i ∨ i = k) ∧ ¬∀ i < n, got i

/-- **When `decode` is called**, and on what. -/
def Delivers (pieces : List (List UInt8)) (got : ℕ → Prop) (k : ℕ) (report : Report) : Prop :=
  (Completes pieces.length got k → report.decoded = some (pieces.flatten.map some)) ∧
    (¬Completes pieces.length got k → report.decoded = none)

/-! ### One request -/

namespace RequestEntry

/-- **An entry has the pieces** that arrived, and no others. -/
structure Has (pieces : List (List UInt8)) (got : ℕ → Prop) (e : RequestEntry) : Prop where
  inv : e.Inv
  byteOrder : e.byteOrder = true
  requestSize : e.requestSize.toNat = pieces.flatten.length
  fragmentCount : e.fragmentCount.toNat = pieces.length
  marked_iff : ∀ i < pieces.length, e.marked i = true ↔ got i
  agrees : Tiling.Agrees pieces got e.payload

end RequestEntry

/-- **What the place of a message holds** when some of its pieces arrived. -/
def SlotFor (pieces : List (List UInt8)) (got : ℕ → Prop) : Slot → Prop
  | .null => ∀ i < pieces.length, ¬got i
  | .completed => ∀ i < pieces.length, got i
  | .entry e => pieces.length ≠ 1 ∧ e.Has pieces got

namespace RequestEntry

variable {id : ULong} {pieces : List (List UInt8)} {got : ℕ → Prop} {k : ℕ} {h : Header}
  {data : List UInt8} {e : RequestEntry}

/-- A new entry has no piece. -/
theorem has_new (hp : IsPiece id pieces k h data) (hnot : ∀ i < pieces.length, ¬got i) :
    (new h).Has pieces got where
  inv := inv_new h
  byteOrder := hp.byteOrder
  requestSize := hp.requestSize
  fragmentCount := hp.fragmentCount
  marked_iff i hi := by
    rw [not_marked_new (hp.fragmentCount.symm ▸ hi)]
    exact iff_of_false Bool.false_ne_true (hnot i hi)
  agrees := Tiling.agrees_of_forall_not hnot

theorem Has.matches (he : e.Has pieces got) (hp : IsPiece id pieces k h data) : e.Matches h :=
  ⟨hp.byteOrder.trans he.byteOrder.symm,
    BitVec.eq_of_toNat_eq (hp.requestSize.trans he.requestSize.symm),
    BitVec.eq_of_toNat_eq (hp.fragmentCount.trans he.fragmentCount.symm)⟩

/-- The piece is copied to its place. -/
theorem Has.copied (he : e.Has pieces got) (hp : IsPiece id pieces k h data) {words : ℕ → ULong}
    (hmarked : ∀ i, marked (copied { e with receivedFragments := words } h data) i =
      (e.marked i || decide (i = h.fragmentId.toNat)))
    (hinv : Inv (RequestEntry.copied { e with receivedFragments := words } h data)) :
    (RequestEntry.copied { e with receivedFragments := words } h data).Has pieces
      fun i => got i ∨ i = k := by
  refine ⟨hinv, he.byteOrder, he.requestSize, he.fragmentCount, fun i hi => ?_, ?_⟩
  · rw [hmarked, Bool.or_eq_true, decide_eq_true_eq, he.marked_iff i hi, hp.fragmentId]
  · refine he.agrees.fill hp.piece (fun i hi => hi) (fun i hle hlt => ?_) fun i hout => ?_
    · rw [← hp.fragmentOffset] at hle hlt ⊢
      rw [← hp.fragmentSize] at hlt
      exact if_pos ⟨hle, hlt⟩
    · rw [← hp.fragmentOffset, ← hp.fragmentSize] at hout
      exact if_neg hout

/-- **A piece for an entry.** -/
theorem Has.addFragment (he : e.Has pieces got) (hone : pieces.length ≠ 1)
    (hp : IsPiece id pieces k h data) (answer : ℤ) :
    ∃ slot report, e.addFragment h data answer = some (slot, report) ∧
      SlotFor pieces (fun i => got i ∨ i = k) slot ∧ Delivers pieces got k report := by
  have hm := he.matches hp
  have hid : h.fragmentId < h.fragmentCount := BitVec.lt_def.mpr
    (by rw [hp.fragmentId, hp.fragmentCount]; exact hp.lt)
  have hend := Tiling.start_add_length_le hp.piece
  have hfits : h.fragmentOffset.toNat + h.fragmentSize.toNat ≤ h.requestSize.toNat := by
    rw [hp.fragmentOffset, hp.fragmentSize, hp.requestSize]
    exact hend
  have hvalid := validateFragment_eq hm (BitVec.lt_def.mpr
    (by rw [hp.fragmentOffset, hp.requestSize]; exact hp.inside)) hfits
  by_cases hgot : got k
  · -- a duplicate
    have hmarked : e.marked h.fragmentId.toNat = true := by
      rw [hp.fragmentId]
      exact (he.marked_iff k hp.lt).mpr hgot
    have htest := @testReceived_eq e h.fragmentId he.inv (by
      rw [hp.fragmentId, he.fragmentCount]
      exact Nat.le_of_lt hp.lt)
    rw [hmarked] at htest
    have hsame : (fun i => got i ∨ i = k) = got := by
      funext i
      exact propext ⟨fun hi => hi.elim (fun hi => hi) fun hi => hi ▸ hgot, Or.inl⟩
    refine ⟨.entry e, { result := 0 }, ?_, ?_, ?_⟩
    · rw [RequestEntry.addFragment, hvalid, htest]
      rfl
    · rw [hsame]
      exact ⟨hone, he⟩
    · refine ⟨fun hc => ?_, fun _ => rfl⟩
      exact absurd (fun i hi => (hc.1 i hi).elim (fun hi => hi) fun hi => hi ▸ hgot) hc.2
  · have hnew : e.marked h.fragmentId.toNat = false := by
      rw [hp.fragmentId, Bool.eq_false_iff, ne_eq, he.marked_iff k hp.lt]
      exact hgot
    obtain ⟨words, hmarked, hinv, hadd⟩ := @addFragment_spec e h data answer he.inv hm hvalid hid
      hnew hfits (hp.fragmentSize.symm ▸ hp.fits)
    have he' := he.copied hp hmarked hinv
    generalize RequestEntry.copied { e with receivedFragments := words } h data = e' at he' hadd
    have hcomplete : e'.complete = true ↔ Completes pieces.length got k := by
      rw [complete_iff he'.inv, he'.fragmentCount]
      constructor
      · intro hall
        exact ⟨fun i hi => (he'.marked_iff i hi).mp (hall i hi), fun hall => hgot (hall k hp.lt)⟩
      · exact fun hc i hi => (he'.marked_iff i hi).mpr (hc.1 i hi)
    rw [hadd]
    by_cases hfull : e'.complete = true
    · have hc := hcomplete.mp hfull
      have hbytes : e'.bytes = pieces.flatten.map some := by
        rw [bytes, he'.requestSize]
        exact he'.agrees.eq_flatten hc.1
      rw [hfull, Bool.not_true, if_neg Bool.false_ne_true, hbytes]
      by_cases hanswer : answer = -1
      · rw [if_pos hanswer]
        exact ⟨_, _, rfl, ⟨hone, he'⟩, fun _ => rfl, fun hnot => absurd hc hnot⟩
      · rw [if_neg hanswer]
        exact ⟨_, _, rfl, hc.1, fun _ => rfl, fun hnot => absurd hc hnot⟩
    · rw [if_pos (by rw [eq_false_of_ne_true hfull]; rfl)]
      exact ⟨_, _, rfl, ⟨hone, he'⟩, fun hc => absurd (hcomplete.mpr hc) hfull, fun _ => rfl⟩

end RequestEntry

/-! ### The window -/

namespace Requests

variable {r : Requests} {id : ULong}

/-- **Purging keeps what it does not clear.** -/
theorem purgeRequests_kept (r : Requests) (first : ULong) {last : ULong}
    (hlast : last.toNat + 1 < 2 ^ 32) :
    ∃ slots, r.purgeRequests first last = some { r with fragmentedRequests := slots } ∧
      (∀ j, first.toNat ≤ j → j ≤ last.toNat → slots (j % r.size.toNat) = .null) ∧
      ∀ k, (∀ j, first.toNat ≤ j → j ≤ last.toNat → j % r.size.toNat ≠ k) →
        slots k = r.fragmentedRequests k := by
  obtain ⟨slots, hrun, hnull, hkeep, -⟩ := purgeLoop_spec r.size.toNat hlast
    (last.toNat - first.toNat + 2) first r.fragmentedRequests (by omega) (by omega)
  exact ⟨slots, by rw [purgeRequests, hrun, Option.map_some], hnull, hkeep⟩

/-- **How a range moves** to an id ahead of it: what stays in it keeps its place, and the new places
are empty. -/
structure Moved (r : Requests) (id : ULong) (r' : Requests) : Prop where
  size_eq : r'.size = r.size
  min_eq : r'.minPurgeCount = r.minPurgeCount
  range : r'.idRangeLow.toNat + r.size.toNat = r'.idRangeHigh.toNat + 1
  low_le : r.idRangeLow.toNat ≤ r'.idRangeLow.toNat
  le_id : r'.idRangeLow.toNat ≤ id.toNat
  id_lt : id.toNat < r'.idRangeLow.toNat + r.size.toNat
  near : r'.idRangeLow.toNat + r.size.toNat ≤ id.toNat + r.minPurgeCount.toNat
  kept : ∀ j, r'.idRangeLow.toNat ≤ j → j < r.idRangeLow.toNat + r.size.toNat →
    r'.fragmentedRequests (j % r.size.toNat) = r.fragmentedRequests (j % r.size.toNat)
  null : ∀ j, r.idRangeLow.toNat + r.size.toNat ≤ j → j < r'.idRangeLow.toNat + r.size.toNat →
    r'.fragmentedRequests (j % r.size.toNat) = .null

/-- How many slots are needed. -/
theorem toNat_newSlotsNeeded (hgt : r.idRangeHigh < id) (hmin : r.minPurgeCount.toNat < 2 ^ 32) :
    (r.newSlotsNeeded id).toNat =
      max (id.toNat - r.idRangeHigh.toNat) r.minPurgeCount.toNat := by
  have hgap := toNat_sub_of_lt hgt
  rw [newSlotsNeeded]
  by_cases hless : (id - r.idRangeHigh).toNat < r.minPurgeCount.toNat
  · rw [if_pos hless, BitVec.toNat_setWidth, Nat.mod_eq_of_lt hmin]
    omega
  · rw [if_neg hless, hgap]
    omega

/-- **A range that has not wrapped** and does not wrap now. -/
theorem shift_moved (hrange : r.idRangeLow.toNat + r.size.toNat = r.idRangeHigh.toNat + 1)
    (hgt : r.idRangeHigh < id) (hpos : 0 < r.minPurgeCount.toNat)
    (hmin : r.minPurgeCount.toNat ≤ r.size.toNat)
    (hlimit : id.toNat + r.minPurgeCount.toNat ≤ 2 ^ 32) :
    ∃ r', r.shift id = some r' ∧ r.Moved id r' := by
  have hid := id.isLt
  have hgt' := BitVec.lt_def.mp hgt
  have hneeded := toNat_newSlotsNeeded hgt (by omega)
  by_cases hmore : r.size.toNat < (r.newSlotsNeeded id).toNat
  · -- the whole range is cleared, and the new one has no id of it
    obtain ⟨slots, hpurge, hnull, -⟩ := @purgeRequests_kept r r.idRangeLow r.idRangeHigh (by omega)
    have hnew := @toNat_newLow id r.size (by omega) (by omega)
    rw [shift, if_pos hmore, hpurge, Option.map_some]
    generalize (id.setWidth 64 - r.size + 1).setWidth 32 = low at hnew
    refine ⟨_, rfl, rfl, rfl, hnew, ?_, ?_, ?_, ?_, fun j hj hj' => ?_, fun j hj hj' => ?_⟩
    · change _ ≤ low.toNat
      omega
    · change low.toNat ≤ _
      omega
    · change _ < low.toNat + _
      omega
    · change low.toNat + _ ≤ _
      omega
    · change low.toNat ≤ j at hj
      omega
    · -- the id of the old range that had this place
      have hmod := Nat.mod_lt (j - r.idRangeLow.toNat) (show 0 < r.size.toNat by omega)
      have hplace : (r.idRangeLow.toNat + (j - r.idRangeLow.toNat) % r.size.toNat) %
          r.size.toNat = j % r.size.toNat := by
        rw [Nat.add_mod_mod, Nat.add_sub_cancel' (by omega)]
      rw [← hplace]
      exact hnull _ (Nat.le_add_right _ _) (by omega)
  · have hone : (1 : ULong).toNat = 1 := rfl
    have hadd (a : ULong) (ha : a.toNat + (r.newSlotsNeeded id).toNat < 2 ^ 32) :
        (a + r.newSlotsNeeded id).toNat = a.toNat + (r.newSlotsNeeded id).toNat := by
      rw [BitVec.toNat_add]
      exact Nat.mod_eq_of_lt ha
    have hlow := hadd r.idRangeLow (by omega)
    have hhigh := hadd r.idRangeHigh (by omega)
    have hlast : (r.idRangeLow + r.newSlotsNeeded id - 1).toNat =
        r.idRangeLow.toNat + (r.newSlotsNeeded id).toNat - 1 := by
      rw [BitVec.toNat_sub_of_le (BitVec.le_def.mpr (by omega)), hlow, hone]
    obtain ⟨slots, hpurge, hnull, hkeep⟩ := @purgeRequests_kept r r.idRangeLow
      (r.idRangeLow + r.newSlotsNeeded id - 1) (by omega)
    rw [hlast] at hnull hkeep
    rw [shift, if_neg hmore, hpurge, Option.map_some]
    generalize hlow' : r.idRangeLow + r.newSlotsNeeded id = low at hlow
    generalize hhigh' : r.idRangeHigh + r.newSlotsNeeded id = high at hhigh
    generalize (r.newSlotsNeeded id).toNat = needed at *
    refine ⟨_, rfl, rfl, rfl, ?_, ?_, ?_, ?_, ?_, fun j hj hj' => ?_, fun j hj hj' => ?_⟩
    · change low.toNat + r.size.toNat = high.toNat + 1
      omega
    · change _ ≤ low.toNat
      omega
    · change low.toNat ≤ _
      omega
    · change _ < low.toNat + _
      omega
    · change low.toNat + _ ≤ _
      omega
    · change low.toNat ≤ j at hj
      refine hkeep _ fun i hi hi' heq => ?_
      have hle := Ledger.le_of_mod_eq heq.symm (by omega)
      omega
    · change j < low.toNat + _ at hj'
      have hplace : (j - r.size.toNat) % r.size.toNat = j % r.size.toNat :=
        (Nat.mod_eq_sub_mod (by omega)).symm
      rw [← hplace]
      exact hnull _ (by omega) (by omega)

end Requests

/-! ### One source -/

/-- What the place of an id holds: nothing, if there is no message with it. -/
def SlotOf (message : Option (List (List UInt8))) (got : ℕ → Prop) (slot : Slot) : Prop :=
  match message with
  | none => slot = .null
  | some pieces => SlotFor pieces got slot

theorem slotOf_null {message : Option (List (List UInt8))} {got : ℕ → Prop} (h : ∀ k, ¬got k) :
    SlotOf message got .null := by
  cases message with
  | none => rfl
  | some pieces => exact fun k _ => h k

namespace Requests

/-- **The array has what arrived** of each message whose id is in the window, and nothing arrived of
those ahead of it. -/
structure Tracks (messages : ULong → Option (List (List UInt8))) (first : ℕ)
    (got : ULong → ℕ → Prop) (r : Requests) : Prop where
  shaped : r.Shaped
  range : r.idRangeLow.toNat + r.size.toNat = r.idRangeHigh.toNat + 1
  low_le : r.idRangeLow.toNat ≤ first
  slots : ∀ id : ULong, r.idRangeLow.toNat ≤ id.toNat →
    id.toNat < r.idRangeLow.toNat + r.size.toNat →
    SlotOf (messages id) (got id) (r.fragmentedRequests (r.place id))
  ahead : ∀ id : ULong, r.idRangeLow.toNat + r.size.toNat ≤ id.toNat → ∀ k, ¬got id k

/-- **An id that does not move the window past the first one**, nor to its end. -/
structure Near (r : Requests) (first : ℕ) (id : ULong) : Prop where
  le : first ≤ id.toNat
  room : id.toNat + r.minPurgeCount.toNat ≤ first + r.size.toNat
  limit : id.toNat + r.minPurgeCount.toNat ≤ 2 ^ 32

variable {messages : ULong → Option (List (List UInt8))} {first : ℕ} {got : ULong → ℕ → Prop}
  {r r' : Requests} {id : ULong} {pieces : List (List UInt8)} {k : ℕ} {h : Header}
  {data : List UInt8}

theorem tracks_init {size minPurgeCount : SizeT} (hpos : 0 < size.toNat)
    (hfits : Fits size minPurgeCount) (messages : ULong → Option (List (List UInt8))) (first : ℕ) :
    Tracks messages first (fun _ _ => False) (init size minPurgeCount) where
  shaped := shaped_init hpos hfits
  range := by
    have hsize := hfits.1
    have hhigh : ((size - 1).setWidth 32).toNat = size.toNat - 1 := by
      rw [BitVec.toNat_setWidth, toNat_pred hpos]
      exact Nat.mod_eq_of_lt (by omega)
    change 0 + size.toNat = ((size - 1).setWidth 32).toNat + 1
    omega
  low_le := Nat.zero_le first
  slots _ _ _ := slotOf_null fun _ hfalse => hfalse
  ahead _ _ _ hfalse := hfalse

/-- **The window comes to an id**, and still has what it had. -/
theorem Tracks.getRequest (ht : Tracks messages first got r) (hpos : 0 < r.minPurgeCount.toNat)
    (hmin : r.minPurgeCount.toNat ≤ r.size.toNat) (hid : r.Near first id) :
    ∃ r', r.getRequest id = some (r', some (r'.place id : ℤ)) ∧ Tracks messages first got r' ∧
      r'.size = r.size ∧ r'.minPurgeCount = r.minPurgeCount ∧ r'.idRangeLow.toNat ≤ id.toNat ∧
      id.toNat < r'.idRangeLow.toNat + r'.size.toNat := by
  have hle := hid.le
  have hlow := ht.low_le
  have hbelow : ¬id < r.idRangeLow := BitVec.not_lt.mpr (BitVec.le_def.mpr (by omega))
  rw [Requests.getRequest, if_neg hbelow]
  by_cases hgt : r.idRangeHigh < id
  · obtain ⟨r', hshift, hm⟩ := shift_moved ht.range hgt hpos hmin hid.limit
    have hrange := hm.range
    have hshaped : r'.Shaped := ⟨hm.size_eq ▸ ht.shaped.pos,
      hm.size_eq ▸ hm.min_eq ▸ ht.shaped.fits, Or.inl (hm.size_eq ▸ hrange)⟩
    have hnear := hm.near
    have hroom := hid.room
    have hplace (id : ULong) : r'.place id = id.toNat % r.size.toNat := by rw [place, hm.size_eq]
    rw [if_pos hgt, hshift, Option.map_some, index_eq hshaped]
    refine ⟨r', rfl, ⟨hshaped, hm.size_eq ▸ hrange, by omega, fun id' hle' hlt' => ?_,
      fun id' hle' => ?_⟩, hm.size_eq, hm.min_eq, hm.le_id, hm.size_eq ▸ hm.id_lt⟩
    · rw [hm.size_eq] at hlt'
      rw [hplace]
      by_cases hold : id'.toNat < r.idRangeLow.toNat + r.size.toNat
      · rw [hm.kept _ hle' hold]
        exact ht.slots id' (Nat.le_trans hm.low_le hle') hold
      · rw [hm.null _ (Nat.not_lt.mp hold) hlt']
        exact slotOf_null (ht.ahead id' (Nat.not_lt.mp hold))
    · rw [hm.size_eq] at hle'
      have hlow' := hm.low_le
      exact ht.ahead id' (by omega)
  · have hle' := mt BitVec.lt_def.mpr hgt
    have hrange := ht.range
    rw [if_neg hgt, index_eq ht.shaped]
    exact ⟨r, rfl, ht, rfl, rfl, by omega, by omega⟩

/-- **A piece more** at the place of its message. -/
theorem Tracks.fill (ht : Tracks messages first got r) (hmessage : messages id = some pieces)
    (hlow : r.idRangeLow.toNat ≤ id.toNat) (hlt : id.toNat < r.idRangeLow.toNat + r.size.toNat)
    {slot : Slot} (hslot : SlotFor pieces (fun i => got id i ∨ i = k) slot) :
    Tracks messages first (fun id' i => got id' i ∨ id' = id ∧ i = k) (r.fill id slot) := by
  refine ⟨⟨ht.shaped.pos, ht.shaped.fits, ht.shaped.range⟩, ht.range, ht.low_le,
    fun id' hlow' hlt' => ?_, fun id' hle i hi => ?_⟩
  · change SlotOf _ _ (Function.update r.fragmentedRequests (r.place id) slot (r.place id'))
    change r.idRangeLow.toNat ≤ id'.toNat at hlow'
    change id'.toNat < r.idRangeLow.toNat + r.size.toNat at hlt'
    by_cases heq : id' = id
    · subst heq
      have hgot : (fun i => got id' i ∨ id' = id' ∧ i = k) = fun i => got id' i ∨ i = k := by
        funext i
        rw [eq_self_iff_true, true_and]
      rw [Function.update_self, hmessage, hgot]
      exact hslot
    · have hplace : r.place id' ≠ r.place id := by
        intro hmod
        have hle := Ledger.le_of_mod_eq hmod (by omega)
        have hge := Ledger.le_of_mod_eq hmod.symm (by omega)
        exact heq (BitVec.eq_of_toNat_eq (Nat.le_antisymm hle hge))
      have hgot : (fun i => got id' i ∨ id' = id ∧ i = k) = got id' := by
        funext i
        exact propext ⟨fun hi => hi.resolve_right fun hand => heq hand.1, Or.inl⟩
      rw [Function.update_of_ne hplace, hgot]
      exact ht.slots id' hlow' hlt'
  · change r.idRangeLow.toNat + r.size.toNat ≤ id'.toNat at hle
    rcases hi with hi | ⟨rfl, -⟩
    · exact ht.ahead id' hle i hi
    · omega

theorem put_place (r : Requests) (id : ULong) (slot : Slot) :
    r.put (r.place id : ℤ) slot = r.fill id slot := by
  rw [put, Int.toNat_natCast]
  rfl

/-- A message of one piece. -/
theorem completes_one {got : ℕ → Prop} (hk : k < 1) : Completes 1 got k ↔ ¬got 0 := by
  obtain rfl : k = 0 := Nat.lt_one_iff.mp hk
  constructor
  · exact fun hc hgot => hc.2 fun i hi => Nat.lt_one_iff.mp hi ▸ hgot
  · intro hnot
    exact ⟨fun i hi => Or.inr (Nat.lt_one_iff.mp hi), fun hall => hnot (hall 0 Nat.one_pos)⟩

/-- The bytes of a request in one datagram. -/
theorem map_range_getElem? (data : List UInt8) :
    (List.range data.length).map (data[·]?) = data.map some := by
  refine List.ext_getElem (by rw [List.length_map, List.length_range, List.length_map])
    fun k hk _ => ?_
  rw [List.length_map, List.length_range] at hk
  rw [List.getElem_map, List.getElem_map, List.getElem_range, List.getElem?_eq_getElem hk]

/-- **A datagram is received**: what arrived is in the array, and `decode` is called if it was the
last piece of its message. -/
theorem Tracks.receive (ht : Tracks messages first got r) (hpos : 0 < r.minPurgeCount.toNat)
    (hmin : r.minPurgeCount.toNat ≤ r.size.toNat) (hmessage : messages id = some pieces)
    (hp : IsPiece id pieces k h data) (hid : r.Near first id) (answer : ℤ) :
    ∃ r' report, r.receive h data answer = some (r', report) ∧
      Tracks messages first (fun id' i => got id' i ∨ id' = id ∧ i = k) r' ∧
      r'.size = r.size ∧ r'.minPurgeCount = r.minPurgeCount ∧
      Delivers pieces (got id) k report := by
  obtain ⟨r₁, hget, ht₁, hsize, hmincount, hlow, hlt⟩ := ht.getRequest hpos hmin hid
  have hslot := ht₁.slots id hlow hlt
  rw [hmessage] at hslot
  have hat := slotAt_natCast (place_lt ht₁.shaped id)
  have hsame (h' : ∀ i < pieces.length, got id i) :
      Tracks messages first (fun id' i => got id' i ∨ id' = id ∧ i = k) r₁ ∧
        Delivers pieces (got id) k { result := 0 } := by
    refine ⟨?_, fun hc => absurd h' hc.2, fun _ => rfl⟩
    have hgot : (fun id' i => got id' i ∨ id' = id ∧ i = k) = got := by
      funext id' i
      refine propext ⟨fun hi => hi.elim (fun hi => hi) ?_, Or.inl⟩
      rintro ⟨rfl, rfl⟩
      exact h' _ hp.lt
    rw [hgot]
    exact ht₁
  rw [Requests.receive, markReceived, processFragment, hp.requestId, hget]
  dsimp only
  rw [hat]
  by_cases hone : h.fragmentCount = 1
  · -- a message in one datagram
    have hlength : pieces.length = 1 := by
      rw [← hp.fragmentCount, hone]
      rfl
    have hcompletes : Completes pieces.length (got id) k ↔ ¬got id 0 := by
      have hk := hp.lt
      rw [hlength] at hk ⊢
      exact completes_one hk
    rw [if_pos hone]
    rcases hs : r₁.fragmentedRequests (r₁.place id) with _ | _ | e
    · rw [hs] at hslot
      obtain ⟨piece, rfl⟩ := List.length_eq_one_iff.mp hlength
      obtain rfl : k = 0 := Nat.lt_one_iff.mp hp.lt
      obtain rfl : piece = data := Option.some.inj hp.piece
      refine ⟨_, _, rfl, ?_, hsize, hmincount, fun _ => ?_, fun hnot => ?_⟩
      · rw [put_place]
        exact ht₁.fill hmessage hlow hlt fun i hi => Or.inr (Nat.lt_one_iff.mp hi)
      · dsimp only
        rw [hp.requestSize, List.flatten_singleton, map_range_getElem?]
      · exact absurd (hcompletes.mpr (hslot 0 Nat.one_pos)) hnot
    · rw [hs] at hslot
      obtain ⟨htracks, hdelivers⟩ := hsame hslot
      exact ⟨r₁, _, rfl, htracks, hsize, hmincount, hdelivers⟩
    · rw [hs] at hslot
      exact absurd hlength hslot.1
  · have hlength : pieces.length ≠ 1 := by
      intro heq
      rw [← hp.fragmentCount] at heq
      exact hone (BitVec.eq_of_toNat_eq heq)
    rw [if_neg hone]
    rcases hs : r₁.fragmentedRequests (r₁.place id) with _ | _ | e
    · rw [hs] at hslot
      obtain ⟨slot, report, hadd, hfor, hdelivers⟩ :=
        (RequestEntry.has_new hp hslot).addFragment hlength hp answer
      dsimp only
      rw [hadd]
      refine ⟨_, _, rfl, ?_, hsize, hmincount, hdelivers⟩
      rw [put_place]
      exact ht₁.fill hmessage hlow hlt hfor
    · rw [hs] at hslot
      obtain ⟨htracks, hdelivers⟩ := hsame hslot
      exact ⟨r₁, _, rfl, htracks, hsize, hmincount, hdelivers⟩
    · rw [hs] at hslot
      obtain ⟨slot, report, hadd, hfor, hdelivers⟩ := hslot.2.addFragment hlength hp answer
      dsimp only
      rw [hadd]
      refine ⟨_, _, rfl, ?_, hsize, hmincount, hdelivers⟩
      rw [put_place]
      exact ht₁.fill hmessage hlow hlt hfor

end Requests

end AceTao.EventGateway
