import Mathlib.Data.List.Nodup
import Mathlib.Data.List.Perm.Subperm
import AceTao.EventGateway.WindowRuns

/-!
# Requests in order

A sender numbers its requests by a generator of 32 bits, which begins anywhere. When all fragments of
all requests arrive, request after request, each request finds an empty slot, its fragments find the
entry that the first of them has made, and the last one has it decoded (`Ledger.exists_decoded`). This
stays so when the range has wrapped, for then no element is for a later request. But once the
generator has come to 2³² - 1, the lower end of the range is above 0, and a request that is numbered 0
is dropped with all its fragments.
-/

namespace AceTao.EventGateway

open Machine

/-- `next_request_id`: the id, and the generator behind it. -/
def nextRequestId (generator : ULong) : ULong × ULong := (generator, generator + 1)

/-- **A request with all its fragments**, in some order. -/
structure Whole (id : ULong) (calls : List Arrival) : Prop where
  ne_nil : calls ≠ []
  id_eq : ∀ c ∈ calls, c.header.requestId = id
  same : ∀ c ∈ calls, ∀ c' ∈ calls, c'.header.byteOrder = c.header.byteOrder ∧
    c'.header.requestSize = c.header.requestSize ∧ c'.header.fragmentCount = c.header.fragmentCount
  count : ∀ c ∈ calls, c.header.fragmentCount.toNat = calls.length
  lt_count : ∀ c ∈ calls, c.header.fragmentId < c.header.fragmentCount
  nodup : (calls.map fun c => c.header.fragmentId).Nodup
  inside : ∀ c ∈ calls, c.header.fragmentOffset < c.header.requestSize ∧
    c.header.fragmentOffset.toNat + c.header.fragmentSize.toNat ≤ c.header.requestSize.toNat
  received : ∀ c ∈ calls, c.header.fragmentSize.toNat = c.data.length ∧
    c.data.length ≤ maxDgramSize

/-- **Requests in order**, from the generator on, and none is lost. -/
def InOrder : ULong → List (List Arrival) → Prop
  | _, [] => True
  | generator, calls :: requests =>
    Whole (nextRequestId generator).1 calls ∧ InOrder (nextRequestId generator).2 requests

/-- **All requests are decoded**: the calls for each return, and one of them calls `decode`. -/
def Requests.AllDecoded : Requests → List (List Arrival) → Prop
  | _, [] => True
  | r, calls :: requests => ∃ r' reports, run Requests.step r calls = some (r', reports) ∧
      (∃ report ∈ reports, report.decoded.isSome) ∧ AllDecoded r' requests

namespace Ledger

open Requests

variable {s s' : Ledger} {r : Requests} {e : RequestEntry} {c : Arrival} {report : Report}
  {id : ULong} {h : Header} {done : List ℕ}

/-- The ledger follows the array. -/
theorem exists_step {r' : Requests} (hstep : s.requests.step c = some (r', report)) :
    ∃ s', s.step c = some (s', report) ∧ s'.requests = r' :=
  ⟨_, by rw [step, hstep, Option.map_some], rfl⟩

/-- Only the id of a call is noted. -/
theorem filledFor_of_step (hstep : s.step c = some (s', report)) {k : ℕ} {j : ULong}
    (hj : s'.filledFor k = some j) : s.filledFor k = some j ∨ j = c.header.requestId := by
  rw [step, Option.map_eq_some_iff] at hstep
  obtain ⟨⟨r', rep⟩, -, heq⟩ := hstep
  cases heq
  dsimp only at hj
  split_ifs at hj with hstored
  · by_cases hk : k = r'.place c.header.requestId
    · subst hk
      rw [Function.update_self] at hj
      exact Or.inr (Option.some_inj.mp hj).symm
    · rw [Function.update_of_ne hk] at hj
      exact Or.inl hj
  · exact Or.inl hj

/-- **Behind a call for an id**, when all calls before were for it or for lower ones. -/
structure Upto (s : Ledger) (id : ULong) : Prop where
  inv : s.Inv
  low_le : s.requests.idRangeLow.toNat ≤ id.toNat
  lt : id.toNat < s.requests.idRangeLow.toNat + s.requests.size.toNat
  noted : ∀ k j, s.filledFor k = some j → j.toNat ≤ id.toNat

/-- A call leads there from its place. -/
theorem Found.upto (hf : Found s id r) (hid : c.header.requestId = id)
    (hnoted : ∀ k j, s.filledFor k = some j → j.toNat ≤ id.toNat)
    (hstep : s.step c = some (s', report)) : s'.Upto id := by
  subst hid
  obtain ⟨hinv, slot, hs'⟩ := hf.step hstep
  refine ⟨hinv, ?_, ?_, fun k j hj => ?_⟩
  · rw [hs']
    exact hf.low_le
  · rw [hs']
    exact hf.lt
  · rcases filledFor_of_step hstep hj with hold | rfl
    · exact hnoted k j hold
    · exact Nat.le_refl _

/-- **A call for the same id** finds its place, and no element has changed. -/
theorem Upto.found (hu : s.Upto id) : ∃ r, Found s id r ∧ r.size = s.requests.size ∧
    r.fragmentedRequests = s.requests.fragmentedRequests := by
  have hshaped := hu.inv.shaped
  have hlow := hu.low_le
  have hlt := hu.lt
  rcases Requests.getRequest_cases hshaped id with ⟨hbelow, -⟩ | ⟨-, r, hget, hsize, -, hr,
    ⟨-, -, rfl⟩ | ⟨hgt, hwrap, -⟩ | ⟨-, hanew⟩⟩
  · exact absurd (BitVec.lt_def.mp hbelow) (Nat.not_lt.mpr hlow)
  · exact ⟨_, ⟨hget, hshaped, hu.inv.records, hlow, hlt⟩, rfl, rfl⟩
  · -- an id of the range is not ahead of it
    have hgt' := BitVec.lt_def.mp hgt
    have hwrap' := BitVec.le_def.mp hwrap
    have hhigh := s.requests.idRangeHigh.isLt
    have hsize' := hshaped.fits.1
    rcases hshaped.range with heq | heq <;> omega
  · have hid := hanew.id_lt
    have hpos := hshaped.pos
    refine ⟨r, ⟨?_, hr, ?_, by omega, by rw [hsize]; omega⟩, hsize, hanew.slots⟩
    · rw [hget, place, hsize]
    · exact hu.inv.records.anew hanew hsize fun k j _ hj => hu.noted k j hj

/-- **A request of which some fragments are there.** -/
structure Collecting (s : Ledger) (id : ULong) (h : Header) (done : List ℕ) : Prop extends
    Upto s id where
  entry : ∃ e, s.requests.fragmentedRequests (s.requests.place id) = .entry e ∧ e.Inv ∧
    e.Matches h ∧ ∀ k < h.fragmentCount.toNat, (e.marked k = true ↔ k ∈ done)

/-- **What is asked of a fragment** of a request of more than one. -/
structure Valid (c : Arrival) (id : ULong) (h : Header) (done : List ℕ) : Prop where
  id_eq : c.header.requestId = id
  same : c.header.byteOrder = h.byteOrder ∧ c.header.requestSize = h.requestSize ∧
    c.header.fragmentCount = h.fragmentCount
  ne_one : h.fragmentCount ≠ 1
  lt_count : c.header.fragmentId < h.fragmentCount
  new : c.header.fragmentId.toNat ∉ done
  offset_lt : c.header.fragmentOffset < c.header.requestSize
  inside : c.header.fragmentOffset.toNat + c.header.fragmentSize.toNat ≤ c.header.requestSize.toNat
  buffer : c.header.fragmentSize.toNat ≤ maxDgramSize

/-- **A fragment is added** to the entry that it finds, or to a new one. -/
theorem Found.fragment (hf : Found s id r) (hc : Valid c id h done)
    (hnoted : ∀ k j, s.filledFor k = some j → j.toNat ≤ id.toNat)
    (hslot : r.fragmentedRequests (r.place id) = .null ∧ e = RequestEntry.new c.header ∨
      r.fragmentedRequests (r.place id) = .entry e)
    (hinv : e.Inv) (hm : e.Matches c.header)
    (hmarked : ∀ k < h.fragmentCount.toNat, (e.marked k = true ↔ k ∈ done)) :
    ∃ (s' : Ledger) (report : Report), s.requests.step c = some (s'.requests, report) ∧ s'.Upto id ∧
      ((∀ k < h.fragmentCount.toNat, k ∈ c.header.fragmentId.toNat :: done) →
        report.decoded.isSome) ∧
      (¬(∀ k < h.fragmentCount.toNat, k ∈ c.header.fragmentId.toNat :: done) →
        s'.Collecting id h (c.header.fragmentId.toNat :: done)) := by
  have hlt := BitVec.lt_def.mp hc.lt_count
  have hnew : e.marked c.header.fragmentId.toNat = false :=
    eq_false_of_ne_true fun htrue => hc.new ((hmarked _ hlt).mp htrue)
  obtain ⟨words, hmarked', hinv', hadd⟩ := @RequestEntry.addFragment_spec e c.header c.data c.answer
    hinv hm (RequestEntry.validateFragment_eq hm hc.offset_lt hc.inside)
    (hc.same.2.2 ▸ hc.lt_count) hnew hc.inside hc.buffer
  generalize he' : RequestEntry.copied { e with receivedFragments := words } c.header c.data = e'
    at hmarked' hinv' hadd
  have hcount : e'.fragmentCount = h.fragmentCount := by
    rw [← he', ← hc.same.2.2]
    exact hm.fragmentCount.symm
  have hdone (k : ℕ) (hk : k < h.fragmentCount.toNat) :
      e'.marked k = true ↔ k ∈ c.header.fragmentId.toNat :: done := by
    rw [hmarked', Bool.or_eq_true, decide_eq_true_eq, hmarked k hk, List.mem_cons]
    exact or_comm
  have hcomplete : e'.complete = true ↔
      ∀ k < h.fragmentCount.toNat, k ∈ c.header.fragmentId.toNat :: done := by
    rw [RequestEntry.complete_iff hinv', hcount]
    exact forall₂_congr hdone
  -- the call
  obtain ⟨slot, rep, hadd', hdec, hcoll⟩ : ∃ slot rep,
      e.addFragment c.header c.data c.answer = some (slot, rep) ∧
      (e'.complete = true → rep.decoded.isSome) ∧ (e'.complete = false → slot = .entry e') := by
    rw [hadd]
    cases e'.complete with
    | false => exact ⟨_, _, rfl, nofun, fun _ => rfl⟩
    | true =>
      rw [Bool.not_true, if_neg Bool.false_ne_true]
      split_ifs
      · exact ⟨_, _, rfl, fun _ => rfl, nofun⟩
      · exact ⟨_, _, rfl, fun _ => rfl, nofun⟩
  have hget := hf.get
  rw [← hc.id_eq] at hget
  obtain ⟨rep', hstep, hdec'⟩ : ∃ rep', s.requests.step c = some (r.fill id slot, rep') ∧
      rep'.decoded = rep.decoded := by
    rw [Requests.step, receive, if_neg (hc.same.2.2 ▸ hc.ne_one), processFragment, hget]
    dsimp only
    rw [slotAt_natCast (place_lt hf.shaped _), hc.id_eq]
    rcases hslot with ⟨hnull, rfl⟩ | hentry
    · rw [hnull]
      dsimp only
      rw [hadd']
      exact ⟨_, rfl, rfl⟩
    · rw [hentry]
      dsimp only
      rw [hadd']
      exact ⟨_, rfl, rfl⟩
  obtain ⟨s', hs', hreq⟩ := exists_step hstep
  have hupto := hf.upto hc.id_eq hnoted hs'
  refine ⟨s', rep', hreq ▸ hstep, hupto, fun hall => ?_, fun hnot => ⟨hupto, e', ?_, hinv', ?_, hdone⟩⟩
  · rw [hdec']
    exact hdec (hcomplete.mpr hall)
  · rw [hreq, hcoll (eq_false_of_ne_true fun htrue => hnot (hcomplete.mp htrue))]
    exact Function.update_self _ _ _
  · rw [← he']
    exact ⟨hc.same.1.symm.trans hm.byteOrder, hc.same.2.1.symm.trans hm.requestSize,
      hc.same.2.2.symm.trans hm.fragmentCount⟩

/-! ### A request -/

/-- **A state in which the next fragment is awaited**: its place is empty, or has the entry of its
request. -/
structure Awaits (s : Ledger) (id : ULong) (h : Header) (done : List ℕ) : Prop where
  noted : ∀ k j, s.filledFor k = some j → j.toNat ≤ id.toNat
  found : ∃ r, Found s id r ∧ (r.fragmentedRequests (r.place id) = .null ∧ done = [] ∨
    ∃ e, r.fragmentedRequests (r.place id) = .entry e ∧ e.Inv ∧ e.Matches h ∧
      ∀ k < h.fragmentCount.toNat, (e.marked k = true ↔ k ∈ done))

theorem Collecting.awaits (hs : s.Collecting id h done) : s.Awaits id h done := by
  obtain ⟨e, hslot, hentry⟩ := hs.entry
  obtain ⟨r, hf, hsize, hslots⟩ := hs.found
  refine ⟨hs.noted, r, hf, Or.inr ⟨e, ?_, hentry⟩⟩
  rw [hslots, place, hsize]
  exact hslot

/-- **One fragment.** -/
theorem Awaits.step (hs : s.Awaits id h done) (hc : Valid c id h done) :
    ∃ (s' : Ledger) (report : Report), s.requests.step c = some (s'.requests, report) ∧ s'.Upto id ∧
      ((∀ k < h.fragmentCount.toNat, k ∈ c.header.fragmentId.toNat :: done) →
        report.decoded.isSome) ∧
      (¬(∀ k < h.fragmentCount.toNat, k ∈ c.header.fragmentId.toNat :: done) →
        s'.Collecting id h (c.header.fragmentId.toNat :: done)) := by
  obtain ⟨r, hf, ⟨hnull, rfl⟩ | ⟨e, hslot, hinv, hm, hmarked⟩⟩ := hs.found
  · refine hf.fragment hc hs.noted (Or.inl ⟨hnull, rfl⟩) (RequestEntry.inv_new _)
      (RequestEntry.matches_new _) fun k hk => ?_
    rw [RequestEntry.not_marked_new (hc.same.2.2 ▸ hk)]
    exact iff_of_false Bool.false_ne_true (List.not_mem_nil)
  · refine hf.fragment hc hs.noted (Or.inr hslot) hinv ?_ hmarked
    exact ⟨hc.same.1.trans hm.byteOrder, hc.same.2.1.trans hm.requestSize,
      hc.same.2.2.trans hm.fragmentCount⟩

/-- As many numbers as there are below a bound are all of them. -/
theorem mem_of_length_eq {l : List ℕ} {n k : ℕ} (hnodup : l.Nodup) (hlt : ∀ x ∈ l, x < n)
    (hlen : l.length = n) (hk : k < n) : k ∈ l := by
  have hsub : l ⊆ List.range n := fun x hx => List.mem_range.mpr (hlt x hx)
  have hperm := (hnodup.subperm hsub).perm_of_length_le (by rw [List.length_range, hlen])
  exact hperm.mem_iff.mpr (List.mem_range.mpr hk)

/-- **All fragments of a request that are still to come**: when the last of them is added, the request
is decoded. -/
theorem Awaits.exists_decoded {calls : List Arrival} (hs : s.Awaits id h done) (hne : calls ≠ [])
    (hvalid : ∀ c ∈ calls, Valid c id h []) (hdone : ∀ k ∈ done, k < h.fragmentCount.toNat)
    (hnodup : (calls.map (fun c => c.header.fragmentId.toNat) ++ done).Nodup)
    (hlen : calls.length + done.length = h.fragmentCount.toNat) :
    ∃ (s' : Ledger) (reports : List Report), run Requests.step s.requests calls =
      some (s'.requests, reports) ∧ (∃ report ∈ reports, report.decoded.isSome) ∧ s'.Upto id := by
  induction calls generalizing s done with
  | nil => exact absurd rfl hne
  | cons c calls ih =>
    have hc := hvalid c List.mem_cons_self
    rw [List.map_cons, List.cons_append, List.nodup_cons] at hnodup
    obtain ⟨hnot, hnodup⟩ := hnodup
    have hnew : c.header.fragmentId.toNat ∉ done := fun hmem => hnot (List.mem_append_right _ hmem)
    have hlt := BitVec.lt_def.mp hc.lt_count
    obtain ⟨s₁, report, hstep, hupto, hlast, hmore⟩ := hs.step { hc with new := hnew }
    have hdone' : ∀ k ∈ c.header.fragmentId.toNat :: done, k < h.fragmentCount.toNat :=
      List.forall_mem_cons.mpr ⟨hlt, hdone⟩
    cases calls with
    | nil =>
      -- it was the last one
      refine ⟨s₁, [report], run_cons_eq_some.mpr ⟨_, _, _, hstep, rfl, rfl⟩,
        ⟨report, List.mem_singleton_self _, hlast fun k hk => ?_⟩, hupto⟩
      refine mem_of_length_eq (List.nodup_cons.mpr ⟨hnew, ?_⟩) hdone' ?_ hk
      · exact hnodup
      · rw [List.length_cons, ← hlen]
        exact Nat.add_comm _ _
    | cons c' calls =>
      have hcoll := hmore fun hall => by
        have hmem := hall _ (BitVec.lt_def.mp (hvalid c' (by simp)).lt_count)
        rw [List.mem_cons] at hmem
        rw [List.map_cons, List.cons_append, List.nodup_cons] at hnodup
        rw [List.map_cons, List.cons_append, List.mem_cons] at hnot
        rcases hmem with heq | hmem
        · exact hnot (Or.inl heq.symm)
        · exact hnodup.1 (List.mem_append_right _ hmem)
      obtain ⟨s', reports, hrun, ⟨rep, hrep, hdec⟩, hupto'⟩ := ih hcoll.awaits
        (List.cons_ne_nil _ _) (fun d hd => hvalid d (List.mem_cons_of_mem _ hd)) hdone'
        (List.nodup_middle.mpr (List.nodup_cons.mpr ⟨hnot, hnodup⟩))
        (by rw [List.length_cons] at hlen; rw [@List.length_cons _ _ done]; omega)
      exact ⟨s', report :: reports, run_cons_eq_some.mpr ⟨_, _, _, hstep, hrun, rfl⟩,
        ⟨rep, List.mem_cons_of_mem _ hrep, hdec⟩, hupto'⟩

/-- **Between two requests**: all calls so far were for ids below the next one. -/
structure Before (s : Ledger) (n : ℕ) : Prop where
  inv : s.Inv
  low_le : s.requests.idRangeLow.toNat ≤ n
  noted : ∀ k j, s.filledFor k = some j → j.toNat < n

theorem before_new {size minPurgeCount : SizeT} (hpos : 0 < size.toNat)
    (hfits : Requests.Fits size minPurgeCount) (n : ℕ) : (new size minPurgeCount).Before n :=
  ⟨inv_new hpos hfits, Nat.zero_le _, nofun⟩

theorem Upto.before (hu : s.Upto id) : s.Before (id.toNat + 1) :=
  ⟨hu.inv, hu.low_le.trans (Nat.le_succ _), fun k j hj => Nat.lt_succ_of_le (hu.noted k j hj)⟩

/-- **The next request** finds an empty place. -/
theorem Before.found (hb : s.Before id.toNat) :
    ∃ r, Found s id r ∧ r.fragmentedRequests (r.place id) = .null := by
  rcases hb.inv.cases id (Or.inr fun k j _ hj => (hb.noted k j hj).le) with
    ⟨hbelow, -⟩ | ⟨-, r, hf, -⟩
  · exact absurd (BitVec.lt_def.mp hbelow) (Nat.not_lt.mpr hb.low_le)
  · refine ⟨r, hf, ?_⟩
    by_contra hne
    exact Nat.lt_irrefl _ (hb.noted _ _ (hf.records.filledFor_eq hf.low_le hf.lt hne))

/-- **A request of which nothing is lost** is decoded. -/
theorem Before.exists_decoded {calls : List Arrival} (hb : s.Before id.toNat) (hw : Whole id calls) :
    ∃ (s' : Ledger) (reports : List Report), run Requests.step s.requests calls =
      some (s'.requests, reports) ∧ (∃ report ∈ reports, report.decoded.isSome) ∧ s'.Upto id := by
  obtain ⟨r, hf, hnull⟩ := hb.found
  have hnoted : ∀ k j, s.filledFor k = some j → j.toNat ≤ id.toNat := fun k j hj =>
    (hb.noted k j hj).le
  obtain ⟨c, hc⟩ := List.exists_mem_of_ne_nil _ hw.ne_nil
  have hcount := hw.count c hc
  by_cases hone : c.header.fragmentCount = 1
  · -- in one datagram
    rw [hone] at hcount
    obtain ⟨d, rfl⟩ := List.length_eq_one_iff.mp hcount.symm
    cases List.mem_singleton.mp hc
    have hget := hf.get
    rw [← hw.id_eq c hc] at hget hnull
    obtain ⟨r', report, hstep, hdec⟩ : ∃ r' report, s.requests.step c = some (r', report) ∧
        report.decoded.isSome := by
      rw [Requests.step, receive, if_pos hone, markReceived, hget]
      dsimp only
      rw [slotAt_natCast (place_lt hf.shaped _), hnull]
      exact ⟨_, _, rfl, rfl⟩
    obtain ⟨s', hs', rfl⟩ := exists_step hstep
    exact ⟨s', [report], run_cons_eq_some.mpr ⟨_, _, _, hstep, rfl, rfl⟩,
      ⟨report, List.mem_singleton_self _, hdec⟩, hf.upto (hw.id_eq c hc) hnoted hs'⟩
  · -- in fragments
    have hawaits : s.Awaits id c.header [] := ⟨hnoted, r, hf, Or.inl ⟨hnull, rfl⟩⟩
    refine hawaits.exists_decoded hw.ne_nil (fun d hd => ?_) (List.forall_mem_nil _) ?_ ?_
    · obtain ⟨hsize, hmax⟩ := hw.received d hd
      have hsame := hw.same c hc d hd
      exact ⟨hw.id_eq d hd, hsame, hone, hsame.2.2 ▸ hw.lt_count d hd, List.not_mem_nil,
        (hw.inside d hd).1, (hw.inside d hd).2, hsize ▸ hmax⟩
    · have hmap : calls.map (fun d => d.header.fragmentId.toNat) =
          (calls.map fun d => d.header.fragmentId).map BitVec.toNat := by rw [List.map_map]; rfl
      rw [List.append_nil, hmap]
      exact hw.nodup.map fun a b hab => BitVec.eq_of_toNat_eq hab
    · exact hcount.symm

/-- **A request that is numbered 0** is dropped once the range has left 0. -/
theorem not_decoded {calls : List Arrival} (hlow : 0 < s.requests.idRangeLow.toNat)
    (hid : ∀ c ∈ calls, c.header.requestId = 0) {r' : Requests} {reports : List Report}
    (hrun : run Requests.step s.requests calls = some (r', reports)) :
    ∀ report ∈ reports, report.decoded = none := by
  induction calls generalizing reports with
  | nil =>
    cases hrun
    nofun
  | cons c calls ih =>
    obtain ⟨hc, hcalls⟩ := List.forall_mem_cons.mp hid
    obtain ⟨r₁, report, reports', hstep, hrun', rfl⟩ := run_cons_eq_some.mp hrun
    have hbelow : c.header.requestId < s.requests.idRangeLow := hc ▸ BitVec.lt_def.mpr hlow
    obtain ⟨result, heq⟩ := Requests.step_of_none (if_pos hbelow :
      s.requests.getRequest c.header.requestId = some (s.requests, none))
    cases hstep.symm.trans heq
    exact List.forall_mem_cons.mpr ⟨rfl, ih hcalls hrun'⟩

end Ledger

namespace Requests

open EventGateway.Ledger

/-- **Requests in order** are all decoded exactly if the ids do not go past 2³² - 1. -/
theorem allDecoded_iff {requests : List (List Arrival)} {generator : ULong} {s : Ledger}
    (hb : s.Before generator.toNat) (hin : InOrder generator requests) :
    s.requests.AllDecoded requests ↔ generator.toNat + requests.length ≤ 2 ^ 32 := by
  have hisLt := generator.isLt
  induction requests generalizing generator s with
  | nil => exact iff_of_true trivial hisLt.le
  | cons calls requests ih =>
    obtain ⟨s', reports, hrun, hdec, hupto⟩ := hb.exists_decoded hin.1
    have hnext : s.requests.AllDecoded (calls :: requests) ↔ s'.requests.AllDecoded requests := by
      constructor
      · rintro ⟨r', reports', hrun', -, hrest⟩
        cases hrun.symm.trans hrun'
        exact hrest
      · exact fun hrest => ⟨_, _, hrun, hdec, hrest⟩
    rw [hnext, List.length_cons]
    by_cases hmax : generator.toNat + 1 < 2 ^ 32
    · have hto : (generator + 1).toNat = generator.toNat + 1 := by
        rw [BitVec.toNat_add]
        exact Nat.mod_eq_of_lt hmax
      have hih : s'.requests.AllDecoded requests ↔
          (generator + 1).toNat + requests.length ≤ 2 ^ 32 :=
        ih (hto ▸ hupto.before) hin.2 (generator + 1).isLt
      rw [hih, hto]
      omega
    · -- the generator begins again
      have hzero : generator + 1 = 0 := by
        refine BitVec.eq_of_toNat_eq ?_
        rw [BitVec.toNat_add]
        change (generator.toNat + 1) % 2 ^ 32 = 0
        omega
      cases requests with
      | nil => exact iff_of_true trivial (by rw [List.length_nil]; omega)
      | cons calls' requests =>
        refine iff_of_false ?_ (by rw [List.length_cons]; omega)
        rintro ⟨r', reports', hrun', ⟨report, hmem, hsome⟩, -⟩
        have hlt := hupto.lt
        have hsize := hupto.inv.shaped.fits.1
        have hlow : 0 < s'.requests.idRangeLow.toNat := by
          change generator.toNat < _ at hlt
          omega
        have hid : ∀ c ∈ calls', c.header.requestId = 0 := fun c hc =>
          (hin.2.1.id_eq c hc).trans hzero
        rw [not_decoded hlow hid hrun' report hmem] at hsome
        cases hsome

/-- **The window of request ids.** As long as no call comes to a range that has wrapped, all calls
are right; and requests in order are all decoded exactly if their ids do not go past 2³² - 1. -/
theorem window_spec {size minPurgeCount : SizeT} (hpos : 0 < size.toNat)
    (hfits : Fits size minPurgeCount) :
    (∀ calls, Guarded Ledger.step Unwrapped (Ledger.new size minPurgeCount) calls →
      Guarded Ledger.step Right (Ledger.new size minPurgeCount) calls) ∧
    ∀ generator requests, InOrder generator requests →
      ((init size minPurgeCount).AllDecoded requests ↔
        generator.toNat + requests.length ≤ 2 ^ 32) :=
  ⟨fun _ hg => (inv_new hpos hfits).guarded_right hg,
    fun generator _ hin => allDecoded_iff (before_new hpos hfits generator.toNat) hin⟩

/-- A request in one datagram, which has a single byte. -/
def lone (id : ULong) : Arrival := ⟨⟨true, id, 1, 1, 0, 0, 1, none⟩, [0x41], 0⟩

theorem whole_lone (id : ULong) : Whole id [lone id] where
  ne_nil := List.cons_ne_nil _ _
  id_eq := List.forall_mem_singleton.mpr rfl
  same := List.forall_mem_singleton.mpr (List.forall_mem_singleton.mpr ⟨rfl, rfl, rfl⟩)
  count := List.forall_mem_singleton.mpr rfl
  lt_count := List.forall_mem_singleton.mpr (show (0 : ULong) < 1 by decide)
  nodup := List.nodup_singleton _
  inside := List.forall_mem_singleton.mpr 
    ⟨show (0 : ULong) < 1 by decide, Nat.le_refl 1⟩
  received := List.forall_mem_singleton.mpr ⟨rfl, show 1 ≤ 8192 by decide⟩

/-- The receiver as it is built has a window for two requests in order. -/
theorem window_spec_default :
    Guarded Ledger.step Right (Ledger.new 1024 32) [lone 5] ∧
      (init 1024 32).AllDecoded [[lone 5], [lone 6]] := by
  have h := @window_spec 1024 32 (by decide) ⟨by decide, Or.inl (by decide)⟩
  refine ⟨h.1 _ ⟨Or.inr (by decide), fun _ _ _ => trivial⟩, ?_⟩
  exact (h.2 5 [[lone 5], [lone 6]] ⟨whole_lone 5, whole_lone 6, trivial⟩).mpr (by decide)

/-- **The request behind number 2³² - 1** is dropped. -/
theorem not_allDecoded_wrap : ¬∀ (size minPurgeCount : SizeT) (generator : ULong)
    (requests : List (List Arrival)), 0 < size.toNat → InOrder generator requests →
      (init size minPurgeCount).AllDecoded requests := by
  intro hall
  have hpos : 0 < (1024 : SizeT).toNat := by decide
  have hfits : Fits 1024 32 := ⟨by decide, Or.inl (by decide)⟩
  have hin : InOrder 0xFFFFFFFF [[lone 0xFFFFFFFF], [lone 0]] :=
    ⟨whole_lone _, whole_lone _, trivial⟩
  have hle := (allDecoded_iff (before_new hpos hfits _) hin).mp (hall 1024 32 _ _ hpos hin)
  exact absurd hle (by decide)

end Requests

end AceTao.EventGateway
