import AceTao.Library.Machine
import AceTao.EventGateway.Receiver

/-!
# The bounds of a datagram

What a datagram makes the receiver copy should lie within what was received of it and within the
payload of its request, and `decode` should be called only on bytes that were all received for one
request (`Receiver.Right`). For a request in one datagram, `Mcast_Header::read` compares the size with
the bytes received. For a fragment nothing does; the sum of offset and size can wrap around; nothing
compares the number of the request with that of the entry; and a request is complete by the numbers
of its fragments, whatever their bytes are. So a run is right exactly if each fragment that is not
refused has its bytes, lies inside of its request, is for the request of the entry, and fills what is
missing if it is the last one (`Receiver.guarded_right_iff_fills`).
-/

namespace AceTao.EventGateway

open Machine AceTao.Cdr InputCDR

/-- **What is copied is inside**: of the bytes received, of the payload, and of one request. -/
structure Copy.Inside (c : Copy) : Prop where
  received : c.size ≤ c.received
  fits : c.offset + c.size ≤ c.requestSize
  sameRequest : c.entryId = c.requestId

/-- **A report is right**: what is copied is inside, and `decode` is called on bytes that were
received. -/
structure Report.Right (report : Report) : Prop where
  copied : ∀ c, report.copied = some c → c.Inside
  decoded : ∀ bytes, report.decoded = some bytes → ∀ b ∈ bytes, b.isSome

theorem Report.right_of_none {report : Report} (hcopied : report.copied = none)
    (hdecoded : report.decoded = none) : report.Right := by
  constructor
  · intro c hc
    cases hcopied.symm.trans hc
  · intro bytes hbytes
    cases hdecoded.symm.trans hbytes

namespace Header

variable {h : Header} {n : ℕ}

/-- A consistent header has a number of a fragment. -/
theorem Consistent.lt_count (hcons : h.Consistent n) : h.fragmentId < h.fragmentCount := by
  by_contra hnot
  exact hcons (Or.inr (Or.inr (Or.inl (BitVec.not_lt.mp hnot))))

/-- A request in one datagram is as long as its data. -/
theorem Consistent.requestSize_eq (hcons : h.Consistent n) (hone : h.fragmentCount = 1) :
    h.requestSize.toNat = n := by
  by_contra hne
  exact hcons (Or.inr (Or.inr (Or.inr ⟨hone, Or.inr hne⟩)))

end Header

namespace RequestEntry

variable {e : RequestEntry} {h : Header} {data : List UInt8} {answer : ℤ}

/-- **What is asked of a fragment for an entry**, unless it is refused: its bytes were received, it is
inside, it is of the same request, and if it is the last one, it fills what is missing. -/
def Admits (e : RequestEntry) (h : Header) (data : List UInt8) : Prop :=
  e.validateFragment h = true → e.marked h.fragmentId.toNat = false →
    h.fragmentSize.toNat ≤ data.length ∧
    h.fragmentOffset.toNat + h.fragmentSize.toNat ≤ h.requestSize.toNat ∧
    e.requestId = h.requestId ∧
    ((∀ k < h.fragmentCount.toNat, k ≠ h.fragmentId.toNat → e.marked k = true) →
      ∀ k < h.requestSize.toNat, (h.fragmentOffset.toNat ≤ k ∧
        k < h.fragmentOffset.toNat + h.fragmentSize.toNat) ∨ (e.payload k).isSome)

theorem matches_of_validate (hvalid : e.validateFragment h = true) : e.Matches h := by
  rw [validateFragment] at hvalid
  split_ifs at hvalid with hne
  obtain ⟨horder, hrest⟩ := not_or.mp hne
  obtain ⟨hsize, hcount⟩ := not_or.mp hrest
  exact ⟨not_not.mp horder, not_not.mp hsize, not_not.mp hcount⟩

/-- The bytes of an entry into which a fragment has been copied. -/
theorem bytes_copied (words : ℕ → ULong) (hm : e.Matches h)
    (hreceived : h.fragmentSize.toNat ≤ data.length) :
    (∀ b ∈ (copied { e with receivedFragments := words } h data).bytes, b.isSome) ↔
      ∀ k < h.requestSize.toNat, (h.fragmentOffset.toNat ≤ k ∧
        k < h.fragmentOffset.toNat + h.fragmentSize.toNat) ∨ (e.payload k).isSome := by
  rw [bytes, List.forall_mem_map, hm.requestSize]
  refine forall_congr' fun k => imp_congr List.mem_range ?_
  change (if h.fragmentOffset.toNat ≤ k ∧ k < h.fragmentOffset.toNat + h.fragmentSize.toNat then
    data[k - h.fragmentOffset.toNat]? else e.payload k).isSome ↔ _
  by_cases hin : h.fragmentOffset.toNat ≤ k ∧ k < h.fragmentOffset.toNat + h.fragmentSize.toNat
  · rw [if_pos hin, List.getElem?_eq_getElem (by omega)]
    exact iff_of_true rfl (Or.inl hin)
  · rw [if_neg hin]
    exact ⟨Or.inr, fun hor => hor.resolve_left hin⟩

/-- **What a call for an entry does**: the fragment is refused or is a duplicate, it is added, or it
does not fit. -/
theorem addFragment_cases (hinv : e.Inv) (hid : h.fragmentId < h.fragmentCount) (data : List UInt8)
    (answer : ℤ) :
    ((e.validateFragment h = false ∨ e.marked h.fragmentId.toNat = true) ∧
      ∃ result, e.addFragment h data answer = some (.entry e, { result := result })) ∨
    e.validateFragment h = true ∧ e.marked h.fragmentId.toNat = false ∧ e.Matches h ∧
      (¬(h.fragmentOffset.toNat + h.fragmentSize.toNat ≤ h.requestSize.toNat ∧
          h.fragmentSize.toNat ≤ maxDgramSize) ∧ e.addFragment h data answer = none ∨
        h.fragmentOffset.toNat + h.fragmentSize.toNat ≤ h.requestSize.toNat ∧
          ∃ words slot report, Inv (copied { e with receivedFragments := words } h data) ∧
            ((copied { e with receivedFragments := words } h data).complete = true ↔
              ∀ k < h.fragmentCount.toNat, k ≠ h.fragmentId.toNat → e.marked k = true) ∧
            e.addFragment h data answer = some (slot, report) ∧
            (slot = .entry (copied { e with receivedFragments := words } h data) ∨
              slot = .completed) ∧
            report.copied = some (e.copyOf h data) ∧
            report.decoded = if (copied { e with receivedFragments := words } h data).complete then
              some (copied { e with receivedFragments := words } h data).bytes else none) := by
  by_cases hvalid : e.validateFragment h = true
  · have hm := matches_of_validate hvalid
    have hle : h.fragmentId.toNat ≤ e.fragmentCount.toNat := by
      rw [← hm.fragmentCount]
      exact (BitVec.lt_def.mp hid).le
    have htest := testReceived_eq hinv hle
    cases hnew : e.marked h.fragmentId.toNat with
    | true =>
      refine Or.inl ⟨Or.inr rfl, 0, ?_⟩
      rw [addFragment, hvalid, htest, hnew]
      rfl
    | false =>
      refine Or.inr ⟨hvalid, rfl, hm, ?_⟩
      by_cases hroom : h.fragmentOffset.toNat + h.fragmentSize.toNat ≤ h.requestSize.toNat ∧
          h.fragmentSize.toNat ≤ maxDgramSize
      · obtain ⟨words, hmarked, hinv', hadd⟩ := @addFragment_spec e h data answer hinv hm hvalid hid
          hnew hroom.1 hroom.2
        have hcomplete : (copied { e with receivedFragments := words } h data).complete = true ↔
            ∀ k < h.fragmentCount.toNat, k ≠ h.fragmentId.toNat → e.marked k = true := by
          rw [complete_iff hinv', hm.fragmentCount]
          refine forall₂_congr fun k _ => ?_
          rw [hmarked, Bool.or_eq_true, decide_eq_true_eq, or_comm, or_iff_not_imp_left]
        refine Or.inr ⟨hroom.1, words, ?_⟩
        rw [hadd]
        generalize copied { e with receivedFragments := words } h data = e' at hinv' hcomplete
        generalize e'.complete = full at hcomplete
        cases full with
        | false => exact ⟨_, _, hinv', hcomplete, rfl, Or.inl rfl, rfl, rfl⟩
        | true =>
          rw [Bool.not_true, if_neg Bool.false_ne_true]
          by_cases hanswer : answer = -1
          · rw [if_pos hanswer]
            exact ⟨_, _, hinv', hcomplete, rfl, Or.inl rfl, rfl, rfl⟩
          · rw [if_neg hanswer]
            exact ⟨_, _, hinv', hcomplete, rfl, Or.inr rfl, rfl, rfl⟩
      · refine Or.inl ⟨hroom, ?_⟩
        obtain ⟨words, hmark, -⟩ := markReceived_spec hinv hle
        rw [hnew] at htest
        rw [hm.requestSize] at hroom
        rw [addFragment, hvalid, htest, hmark]
        dsimp only
        rw [copyFragment, if_neg hroom]
        rfl
  · refine Or.inl ⟨Or.inl (eq_false_of_ne_true hvalid), -1, ?_⟩
    rw [addFragment, eq_false_of_ne_true hvalid]
    rfl

/-- **A fragment is added right** exactly if the entry admits it. -/
theorem addFragment_right_iff (hinv : e.Inv) (hid : h.fragmentId < h.fragmentCount)
    (hdata : data.length ≤ maxDgramSize) (answer : ℤ) :
    (∃ slot report, e.addFragment h data answer = some (slot, report) ∧ report.Right) ↔
      e.Admits h data := by
  rcases addFragment_cases hinv hid data answer with ⟨hrefused, result, heq⟩ |
    ⟨hvalid, hnew, hm, ⟨hroom, heq⟩ | ⟨hfits, words, slot, report, -, hcomplete, heq, -, hcopied,
      hdecoded⟩⟩
  · refine iff_of_true ⟨_, _, heq, Report.right_of_none rfl rfl⟩ fun hvalid hnew => ?_
    rcases hrefused with hnot | hmarked
    · cases hnot.symm.trans hvalid
    · cases hmarked.symm.trans hnew
  · refine iff_of_false ?_ fun hadmits => ?_
    · rintro ⟨slot, report, heq', -⟩
      cases heq.symm.trans heq'
    · obtain ⟨hreceived, hfits, -, -⟩ := hadmits hvalid hnew
      exact hroom ⟨hfits, hreceived.trans hdata⟩
  · have hfits' : h.fragmentOffset.toNat + h.fragmentSize.toNat ≤ e.requestSize.toNat :=
      hm.requestSize ▸ hfits
    constructor
    · rintro ⟨slot', report', heq', hright⟩ - -
      cases heq.symm.trans heq'
      have hinside := hright.copied _ hcopied
      refine ⟨hinside.received, hfits, hinside.sameRequest, fun hall => ?_⟩
      rw [if_pos (hcomplete.mpr hall)] at hdecoded
      exact (bytes_copied words hm hinside.received).mp (hright.decoded _ hdecoded)
    · intro hadmits
      obtain ⟨hreceived, -, hsame, hfill⟩ := hadmits hvalid hnew
      refine ⟨slot, report, heq, fun c hc => ?_, fun bytes hbytes => ?_⟩
      · cases hcopied.symm.trans hc
        exact ⟨hreceived, hfits', hsame⟩
      · rw [hbytes] at hdecoded
        split_ifs at hdecoded with hfull
        · cases hdecoded
          exact (bytes_copied words hm hreceived).mpr (hfill (hcomplete.mp hfull))

/-- What is left in the array keeps the invariant. -/
theorem inv_of_addFragment (hinv : e.Inv) (hid : h.fragmentId < h.fragmentCount) {slot : Slot}
    {report : Report} (hadd : e.addFragment h data answer = some (slot, report))
    {e' : RequestEntry} (hslot : slot = .entry e') : e'.Inv := by
  subst hslot
  rcases addFragment_cases hinv hid data answer with ⟨-, result, heq⟩ |
    ⟨-, -, -, ⟨-, heq⟩ | ⟨-, words, slot, report, hinv', -, heq, hslot, -, -⟩⟩
  · cases heq.symm.trans hadd
    exact hinv
  · cases heq.symm.trans hadd
  · cases heq.symm.trans hadd
    rcases hslot with hslot | hslot
    · cases hslot
      exact hinv'
    · cases hslot

end RequestEntry

/-! ### One source -/

namespace Requests

variable {r r' r₁ : Requests} {h : Header} {data : List UInt8} {answer : ℤ} {report : Report}
  {id : ULong} {k : ℕ}

/-- **What is in the place of a request** when it is asked for. -/
def slotBefore (r : Requests) (id : ULong) : Slot :=
  if r.idRangeLow ≤ r.idRangeHigh ∧ r.idRangeHigh < id then .null
  else r.fragmentedRequests (id.toNat % r.size.toNat)

/-- **The entry that a fragment is for**: none, if it is dropped without one. -/
def entryFor (r : Requests) (h : Header) : Option RequestEntry :=
  if h.requestId < r.idRangeLow then none
  else
    match r.slotBefore h.requestId with
    | .null => some (.new h)
    | .completed => none
    | .entry e => some e

/-- **The invariant** of a source. -/
structure Kept (r : Requests) : Prop where
  shaped : r.Shaped
  entries : ∀ k e, r.fragmentedRequests k = .entry e → e.Inv

theorem kept_init {size minPurgeCount : SizeT} (hpos : 0 < size.toNat)
    (hfits : Fits size minPurgeCount) : (init size minPurgeCount).Kept :=
  ⟨shaped_init hpos hfits, nofun⟩

theorem slotAt_of_lt (hk : k < r.size.toNat) : r.slotAt (k : ℤ) = some (r.fragmentedRequests k) := by
  rw [slotAt, if_pos ⟨Int.natCast_nonneg k, Int.ofNat_lt.mpr hk⟩, Int.toNat_natCast]

/-- What is put into the array keeps the invariant if it has it. -/
theorem Kept.put (hk : r.Kept) (index : ℤ) {slot : Slot} (hslot : ∀ e, slot = .entry e → e.Inv) :
    (r.put index slot).Kept := by
  refine ⟨⟨hk.shaped.pos, hk.shaped.fits, hk.shaped.range⟩, fun k e he => ?_⟩
  by_cases heq : k = index.toNat
  · subst heq
    exact hslot e ((Function.update_self _ _ _).symm.trans he)
  · exact hk.entries k e ((Function.update_of_ne heq _ _).symm.trans he)

/-- **What a call finds**, whether or not the range has wrapped. -/
theorem Kept.cases (hk : r.Kept) (id : ULong) :
    (id < r.idRangeLow ∧ r.getRequest id = some (r, none)) ∨
    (r.idRangeLow ≤ id ∧ ∃ r₁, r.getRequest id = some (r₁, some ((id.toNat % r.size.toNat : ℕ) : ℤ)) ∧
      r₁.Kept ∧ r₁.slotAt ((id.toNat % r.size.toNat : ℕ) : ℤ) = some (r.slotBefore id)) := by
  have hlt : id.toNat % r.size.toNat < r.size.toNat := Nat.mod_lt _ hk.shaped.pos
  rcases getRequest_cases hk.shaped id with hbelow | ⟨hlow, r₁, hget, hsize, -, hshaped,
    ⟨hle, -, rfl⟩ | ⟨hgt, hwrap, hahead⟩ | ⟨hwrap, hanew⟩⟩
  · exact Or.inl hbelow
  · refine Or.inr ⟨hlow, _, hget, hk, ?_⟩
    rw [slotAt_of_lt hlt, slotBefore, if_neg fun hand => BitVec.not_lt.mpr hle hand.2]
  · refine Or.inr ⟨hlow, r₁, hget, ⟨hshaped, fun k e he => ?_⟩, ?_⟩
    · rcases hahead.kept k with hnull | hkept
      · cases hnull.symm.trans he
      · exact hk.entries k e (hkept.symm.trans he)
    · rw [slotAt_of_lt (hsize ▸ hlt), hahead.empty hk.shaped hwrap hgt, slotBefore,
        if_pos ⟨hwrap, hgt⟩]
  · refine Or.inr ⟨hlow, r₁, hget, ⟨hshaped, fun k e he => ?_⟩, ?_⟩
    · exact hk.entries k e (hanew.slots ▸ he)
    · rw [slotAt_of_lt (hsize ▸ hlt), hanew.slots, slotBefore,
        if_neg fun hand => BitVec.not_le.mpr hwrap hand.1]

/-- The entries that fragments are for. -/
theorem Kept.inv_entryFor (hk : r.Kept) {e : RequestEntry} (he : r.entryFor h = some e) : e.Inv := by
  rw [entryFor] at he
  split_ifs at he
  rcases hs : r.slotBefore h.requestId with _ | _ | e'
  · rw [hs] at he
    cases he
    exact RequestEntry.inv_new h
  · rw [hs] at he
    cases he
  · rw [hs] at he
    cases he
    rw [slotBefore] at hs
    split_ifs at hs
    exact hk.entries _ _ hs

/-- **`process_fragment`** adds the fragment to its entry, which is then at its place. -/
theorem processFragment_cases (hk : r.Kept) (h : Header) (data : List UInt8) (answer : ℤ) :
    (r.entryFor h = none ∧ ∃ (r₁ : Requests) (result : ℤ), r₁.Kept ∧
      r.processFragment h data answer = some (r₁, { result := result })) ∨
    ∃ (e : RequestEntry) (r₁ : Requests) (index : ℤ) (fresh : Bool), r.entryFor h = some e ∧ r₁.Kept ∧ r.processFragment h data answer =
      (e.addFragment h data answer).map fun p =>
        (r₁.put index p.1, { p.2 with stored := fresh || p.2.stored }) := by
  rw [processFragment, entryFor]
  rcases hk.cases h.requestId with ⟨hbelow, hget⟩ | ⟨hlow, r₁, hget, hkept, hslot⟩
  · rw [hget, if_pos hbelow]
    exact Or.inl ⟨rfl, r, 0, hk, rfl⟩
  · rw [hget, if_neg (BitVec.not_lt.mpr hlow)]
    dsimp only
    rw [hslot]
    rcases r.slotBefore h.requestId with _ | _ | e
    · refine Or.inr ⟨_, r₁, ((h.requestId.toNat % r.size.toNat : ℕ) : ℤ), true, rfl, hkept, ?_⟩
      dsimp only
      rcases (RequestEntry.new h).addFragment h data answer with _ | ⟨slot, report⟩ <;> rfl
    · exact Or.inl ⟨rfl, r₁, 0, hkept, rfl⟩
    · refine Or.inr ⟨e, r₁, ((h.requestId.toNat % r.size.toNat : ℕ) : ℤ), false, rfl, hkept, ?_⟩
      dsimp only
      rcases e.addFragment h data answer with _ | ⟨slot, report⟩ <;> rfl

/-- `mark_received` always returns. -/
theorem exists_markReceived (hk : r.Kept) (id : ULong) :
    ∃ (r' : Requests) (result : ℤ), r.markReceived id = some (r', result) ∧ r'.Kept := by
  rw [markReceived]
  rcases hk.cases id with ⟨-, hget⟩ | ⟨-, r₁, hget, hkept, hslot⟩
  · rw [hget]
    exact ⟨r, 0, rfl, hk⟩
  · rw [hget]
    dsimp only
    rw [hslot]
    rcases r.slotBefore id with _ | _ | e
    · exact ⟨_, _, rfl, hkept.put _ nofun⟩
    · exact ⟨_, _, rfl, hkept⟩
    · exact ⟨_, _, rfl, hkept⟩

/-- **What a call for one source does is right** exactly if the entry of a fragment admits it. -/
theorem receive_right_iff (hk : r.Kept) (hcons : h.Consistent data.length)
    (hdata : data.length ≤ maxDgramSize) (answer : ℤ) :
    (∃ r' report, r.receive h data answer = some (r', report) ∧ report.Right) ↔
      (h.fragmentCount ≠ 1 → ∀ e, r.entryFor h = some e → e.Admits h data) := by
  rw [receive]
  by_cases hone : h.fragmentCount = 1
  · -- a request in one datagram is decoded as it was received
    rw [if_pos hone]
    refine iff_of_true ?_ fun hne => absurd hone hne
    obtain ⟨r', result, hmark, -⟩ := exists_markReceived hk h.requestId
    rw [hmark]
    dsimp only
    by_cases hr : result ≠ 1
    · rw [if_pos hr]
      exact ⟨_, _, rfl, Report.right_of_none rfl rfl⟩
    · rw [if_neg hr]
      refine ⟨_, _, rfl, nofun, fun bytes hbytes => ?_⟩
      cases hbytes
      rw [List.forall_mem_map]
      intro k hlt
      rw [List.mem_range, hcons.requestSize_eq hone] at hlt
      rw [List.getElem?_eq_getElem hlt]
      rfl
  · rw [if_neg hone, forall_prop_of_true hone]
    rcases processFragment_cases hk h data answer with ⟨hnone, r₁, result, -, heq⟩ |
      ⟨e, r₁, index, fresh, hentry, -, heq⟩
    · rw [heq]
      refine iff_of_true ⟨_, _, rfl, Report.right_of_none rfl rfl⟩ fun e he => ?_
      cases hnone.symm.trans he
    · have hadd := RequestEntry.addFragment_right_iff (hk.inv_entryFor hentry) hcons.lt_count hdata
        answer
      have honly : (∀ e', r.entryFor h = some e' → e'.Admits h data) ↔ e.Admits h data := by
        constructor
        · exact fun hall => hall e hentry
        · intro hadmits e' he'
          cases hentry.symm.trans he'
          exact hadmits
      rw [heq, honly, ← hadd]
      rcases e.addFragment h data answer with _ | ⟨slot, report⟩
      · exact iff_of_false nofun nofun
      · constructor
        · rintro ⟨r', report', heq', hright⟩
          cases heq'
          exact ⟨slot, report, rfl, hright.copied, hright.decoded⟩
        · rintro ⟨slot', report', heq', hright⟩
          cases heq'
          exact ⟨_, _, rfl, hright.copied, hright.decoded⟩

/-- **A call keeps the invariant.** -/
theorem Kept.receive (hk : r.Kept) (hcons : h.Consistent data.length)
    (hstep : r.receive h data answer = some (r', report)) : r'.Kept := by
  rw [Requests.receive] at hstep
  by_cases hone : h.fragmentCount = 1
  · rw [if_pos hone] at hstep
    obtain ⟨r₁, result, hmark, hkept⟩ := exists_markReceived hk h.requestId
    rw [hmark] at hstep
    dsimp only at hstep
    by_cases hr : result ≠ 1
    · rw [if_pos hr] at hstep
      cases hstep
      exact hkept
    · rw [if_neg hr] at hstep
      cases hstep
      exact hkept
  · rw [if_neg hone] at hstep
    rcases processFragment_cases hk h data answer with ⟨-, r₁, result, hkept, heq⟩ |
      ⟨e, r₁, index, fresh, hentry, hkept, heq⟩
    · cases heq.symm.trans hstep
      exact hkept
    · obtain ⟨⟨slot, rep⟩, hadd, hp⟩ := Option.map_eq_some_iff.mp (heq.symm.trans hstep)
      cases hp
      exact hkept.put index fun e' he' =>
        RequestEntry.inv_of_addFragment (hk.inv_entryFor hentry) hcons.lt_count hadd he'

end Requests

/-! ### Datagrams -/

namespace Header

variable {h : Header} {header : List UInt8} {n : ℕ} {checkCrc : Bool}

theorem safeAt_fields (byteOrder checkCrc : Bool) {s : InputCDR} (hs : InBounds s) :
    SafeAt (fields byteOrder checkCrc) s fun _ => True := by
  have hoctet (t : InputCDR) (ht : InBounds t) : SafeAt readOctet t fun _ => True :=
    (safeAt_read1 ht).mono fun _ _ => trivial
  have hulong (t : InputCDR) (ht : InBounds t) : SafeAt InputCDR.readUlong t fun _ => True :=
    (safeAt_read4 ht).mono fun _ _ => trivial
  refine ((safeAt_readBoolean hs).mono fun _ _ => trivial).bind hs fun _ t _ ht => ?_
  refine (hoctet t ht).bind ht fun a t _ ht => ?_
  refine (hoctet t ht).bind ht fun b t _ ht => ?_
  refine (hoctet t ht).bind ht fun c t _ ht => ?_
  refine safeAt_ite (fun _ => safeAt_pure ht _) fun _ => ?_
  refine (hulong t ht).bind ht fun _ t _ ht => ?_
  refine (hulong t ht).bind ht fun _ t _ ht => ?_
  refine (hulong t ht).bind ht fun _ t _ ht => ?_
  refine (hulong t ht).bind ht fun _ t _ ht => ?_
  refine (hulong t ht).bind ht fun _ t _ ht => ?_
  refine (hulong t ht).bind ht fun _ t _ ht => ?_
  refine safeAt_ite (fun _ => ?_) fun _ => safeAt_pure ht _
  exact ((safeAt_readWordArray ht isAlign_one (by decide) 4).mono fun _ _ => trivial).bind ht
    fun _ t _ ht => safeAt_pure ht _

/-- **`read`** returns, and accepts only consistent headers. -/
theorem read_spec (hne : header ≠ []) (n : ℕ) (checkCrc : Bool) : ∃ o, read header n checkCrc = some o ∧
    ∀ h, o = some h → h.Consistent (n - headerSize) := by
  obtain ⟨first, rest, rfl⟩ := List.exists_cons_of_ne_nil hne
  rw [read]
  by_cases horder : first ≠ 0 ∧ first ≠ 1
  · rw [if_pos horder]
    exact ⟨none, rfl, nofun⟩
  · rw [if_neg horder]
    have hbounds : InBounds (stream (first :: rest) (first = 1)) :=
      ⟨Nat.le_refl _, Nat.le_add_right _ _⟩
    obtain ⟨r, t, hread, -⟩ := safeAt_fields (first = 1) checkCrc hbounds
    rw [hread]
    rcases r with f | _ | h
    · exact ⟨none, rfl, nofun⟩
    · exact ⟨none, rfl, nofun⟩
    · dsimp only
      split_ifs with hcons
      · exact ⟨some h, rfl, fun h' hh => by cases hh; exact hcons⟩
      · exact ⟨none, rfl, nofun⟩

end Header

namespace Receiver

variable {α : Type*} {crc32 : List UInt8 → ULong} {s s' : Receiver α} {d : Datagram α}
  {report : Report}

/-- **The invariant** of all sources. -/
structure Inv (s : Receiver α) : Prop where
  pos : 0 < s.maxRequests.toNat
  fits : Requests.Fits s.maxRequests s.minPurgeCount
  kept : ∀ source r, s.requestMap source = some r → r.Kept

theorem inv_new (isLoopback : α → Bool) (checkCrc : Bool) : (new isLoopback checkCrc).Inv :=
  ⟨by show 0 < 1024; decide, ⟨by show 1024 ≤ 2 ^ 31; decide, Or.inl (by show 32 < 2 ^ 32; decide)⟩,
    nofun⟩

theorem Inv.sourceEntry (hs : s.Inv) (source : α) : (s.sourceEntry source).Kept := by
  rw [Receiver.sourceEntry]
  rcases hr : s.requestMap source with _ | r
  · exact Requests.kept_init hs.pos hs.fits
  · exact hs.kept source r hr

/-- What is received of the data fits into the buffer. -/
theorem length_data_le (d : Datagram α) : d.data.length ≤ maxDgramSize := List.length_take_le _ _

variable [DecidableEq α]

/-- **The header with which the data of a datagram are processed**: none, if it is ignored. -/
def acceptedHeader (crc32 : List UInt8 → ULong) (s : Receiver α) (d : Datagram α) : Option Header :=
  if d.header.length + d.data.length < headerSize ∨ s.isLoopback d.source then none
  else
    match Header.read d.header (d.header.length + d.data.length) s.checkCrc with
    | some (some h) =>
      if s.checkCrc ∧ h.crc ≠ some (crc32 (d.header.take (headerSize - 4) ++ d.data)) then none
      else some h
    | _ => none

/-- **A datagram is handled right**: the call returns, with a right report. -/
def Right (crc32 : List UInt8 → ULong) (s : Receiver α) (d : Datagram α) : Prop :=
  ∃ s' report, s.handleInput crc32 d = some (s', report) ∧ report.Right

/-- **A datagram that fills only what is its own**: the entry of a fragment admits it. -/
def Fills (crc32 : List UInt8 → ULong) (s : Receiver α) (d : Datagram α) : Prop :=
  ∀ h, s.acceptedHeader crc32 d = some h → h.fragmentCount ≠ 1 →
    ∀ e, (s.sourceEntry d.source).entryFor h = some e → e.Admits h d.data

/-- **What becomes of a datagram**: it is ignored, or its data are processed. -/
theorem handleInput_cases (crc32 : List UInt8 → ULong) (s : Receiver α) (d : Datagram α) :
    (s.acceptedHeader crc32 d = none ∧
      ∃ result, s.handleInput crc32 d = some (s, { result := result })) ∨
    ∃ h, s.acceptedHeader crc32 d = some h ∧ h.Consistent d.data.length ∧
      s.handleInput crc32 d = s.process d.source h d.data d.answer := by
  rw [acceptedHeader, handleInput]
  by_cases hzero : d.header.length + d.data.length = 0
  · rw [if_pos hzero, if_pos (Or.inl (by rw [hzero]; decide))]
    exact Or.inl ⟨rfl, _, rfl⟩
  rw [if_neg hzero]
  by_cases hshort : d.header.length + d.data.length < headerSize
  · rw [if_pos hshort, if_pos (Or.inl hshort)]
    exact Or.inl ⟨rfl, _, rfl⟩
  rw [if_neg hshort]
  by_cases hloop : s.isLoopback d.source = true
  · rw [if_pos hloop, if_pos (Or.inr hloop)]
    exact Or.inl ⟨rfl, _, rfl⟩
  rw [if_neg hloop, if_neg (not_or.mpr ⟨hshort, hloop⟩)]
  -- all of the header was received
  have hheader : d.header.length = min headerSize d.bytes.length := List.length_take
  have hlength : d.data.length = min maxDgramSize (d.bytes.length - headerSize) := by
    rw [Datagram.data, List.length_take, List.length_drop]
  have hdata : d.header.length + d.data.length - headerSize = d.data.length := by omega
  have hne : d.header ≠ [] := by
    intro hnil
    have hnone : d.header.length = 0 := by rw [hnil, List.length_nil]
    have hsize : headerSize = 32 := rfl
    omega
  obtain ⟨o, hread, hcons⟩ := Header.read_spec hne (d.header.length + d.data.length)
    s.checkCrc
  rw [hread]
  rcases o with _ | h
  · exact Or.inl ⟨rfl, _, rfl⟩
  · dsimp only
    by_cases hcrc : s.checkCrc = true ∧
        h.crc ≠ some (crc32 (d.header.take (headerSize - 4) ++ d.data))
    · rw [if_pos hcrc, if_pos hcrc]
      exact Or.inl ⟨rfl, _, rfl⟩
    · rw [if_neg hcrc, if_neg hcrc]
      exact Or.inr ⟨h, rfl, hdata ▸ hcons h rfl, rfl⟩

theorem right_iff_fills (hs : s.Inv) (d : Datagram α) : s.Right crc32 d ↔ s.Fills crc32 d := by
  rw [Right, Fills]
  rcases handleInput_cases crc32 s d with ⟨hnone, result, heq⟩ | ⟨h, hsome, hcons, heq⟩
  · rw [heq]
    refine iff_of_true ⟨_, _, rfl, Report.right_of_none rfl rfl⟩ fun h hh => ?_
    cases hnone.symm.trans hh
  · have hreceive := Requests.receive_right_iff (hs.sourceEntry d.source) hcons
      (length_data_le d) d.answer
    have honly : (∀ h', s.acceptedHeader crc32 d = some h' → h'.fragmentCount ≠ 1 →
        ∀ e, (s.sourceEntry d.source).entryFor h' = some e → e.Admits h' d.data) ↔
        (h.fragmentCount ≠ 1 →
          ∀ e, (s.sourceEntry d.source).entryFor h = some e → e.Admits h d.data) := by
      constructor
      · exact fun hall => hall h hsome
      · intro hadmits h' hh'
        cases hsome.symm.trans hh'
        exact hadmits
    rw [heq, honly, ← hreceive, process]
    rcases (s.sourceEntry d.source).receive h d.data d.answer with _ | ⟨r, report⟩
    · exact iff_of_false nofun nofun
    · constructor
      · rintro ⟨s', report', heq', hright⟩
        cases heq'
        exact ⟨r, report, rfl, hright⟩
      · rintro ⟨r', report', heq', hright⟩
        cases heq'
        exact ⟨_, _, rfl, hright⟩

theorem Inv.handleInput (hs : s.Inv) (hstep : s.handleInput crc32 d = some (s', report)) :
    s'.Inv := by
  rcases handleInput_cases crc32 s d with ⟨-, result, heq⟩ | ⟨h, -, hcons, heq⟩
  · cases heq.symm.trans hstep
    exact hs
  · rw [heq, process] at hstep
    rcases hr : (s.sourceEntry d.source).receive h d.data d.answer with _ | ⟨r, rep⟩
    · rw [hr] at hstep
      cases hstep
    · rw [hr] at hstep
      cases hstep
      refine ⟨hs.pos, hs.fits, fun source r' hr' => ?_⟩
      by_cases hsource : source = d.source
      · subst hsource
        cases (Function.update_self _ _ _).symm.trans hr'
        exact (hs.sourceEntry d.source).receive hcons hr
      · exact hs.kept source r' ((Function.update_of_ne hsource _ _).symm.trans hr')

/-- The first of two fragments of a request, of which nothing but the header was received. -/
def cutFragment : Datagram Unit where
  source := ()
  bytes := [1, 0x41, 0x42, 0x43, 0, 0, 0, 0, 8, 0, 0, 0, 4, 0, 0, 0, 0, 0, 0, 0, 0, 0, 0, 0,
    2, 0, 0, 0, 0, 0, 0, 0]
  answer := 0

theorem acceptedHeader_cutFragment :
    (new (fun _ => false) false).acceptedHeader (fun _ => 0) cutFragment =
      some ⟨true, 0, 8, 4, 0, 0, 2, none⟩ := rfl

end Receiver

end AceTao.EventGateway
