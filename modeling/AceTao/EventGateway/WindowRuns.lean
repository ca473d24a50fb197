import AceTao.Library.Machine
import AceTao.EventGateway.Receiver

/-!
# Which request a slot is for

The array says nothing of the requests that its marks are for, so a ledger beside it notes for which
request each element was last set. As long as no id arrives that is not below a range that has
wrapped (`Ledger.Unwrapped`), each call finds an empty slot or one that was last set for its own
request, the difference between the ends of the range is kept, and the purging ends
(`Ledger.Right`).

Requests that arrive in order, each with all its fragments, are all decoded exactly if the ids do not
go past 2³² - 1 to 0 (`Requests.allDecoded_iff`): an id that begins again at 0 lies below the range
and is dropped.
-/

namespace AceTao.EventGateway

open Machine

/-- **A datagram whose header is accepted**, from one source, with what `decode` would answer. -/
structure Arrival where
  header : Header
  data : List UInt8
  answer : ℤ

namespace Requests

variable {r r' r₁ : Requests} {c : Arrival} {report : Report} {id : ULong} {k : ℕ}

def step (r : Requests) (c : Arrival) : Option (Requests × Report) :=
  r.receive c.header c.data c.answer

/-! ### One call -/

theorem slotAt_natCast (hk : k < r.size.toNat) :
    r.slotAt (k : ℤ) = some (r.fragmentedRequests k) := by
  rw [slotAt, if_pos ⟨Int.natCast_nonneg k, Int.ofNat_lt.mpr hk⟩, Int.toNat_natCast]

/-- The element of a request. -/
def place (r : Requests) (id : ULong) : ℕ := id.toNat % r.size.toNat

theorem place_lt (h : r.Shaped) (id : ULong) : r.place id < r.size.toNat := Nat.mod_lt _ h.pos

/-- What is put at the place of a request. -/
def fill (r : Requests) (id : ULong) (slot : Slot) : Requests :=
  { r with fragmentedRequests := Function.update r.fragmentedRequests (r.place id) slot }

theorem fill_self (r : Requests) (id : ULong) :
    r.fill id (r.fragmentedRequests (r.place id)) = r := by
  rw [fill, Function.update_eq_self]

/-- **A call that does not find a place.** -/
theorem step_of_none (h : r.getRequest c.header.requestId = some (r', none)) :
    ∃ result, r.step c = some (r', { result := result }) := by
  rw [step, receive]
  by_cases hone : c.header.fragmentCount = 1
  · rw [if_pos hone, markReceived, h]
    exact ⟨0, rfl⟩
  · rw [if_neg hone, processFragment, h]
    exact ⟨0, rfl⟩

/-- **A call that finds a place** sets at most the element there, and it sets it if it is empty. -/
theorem step_of_some (h : r.getRequest c.header.requestId = some (r₁, some (k : ℤ)))
    (hsize : k < r₁.size.toNat) (hk : k = r₁.place c.header.requestId)
    (hstep : r.step c = some (r', report)) :
    ∃ slot, r' = r₁.fill c.header.requestId slot ∧
      (report.stored = false → r₁.fragmentedRequests k ≠ .null) := by
  have hslot := slotAt_natCast hsize
  have hput (slot : Slot) : r₁.put (k : ℤ) slot = r₁.fill c.header.requestId slot := by
    rw [put, Int.toNat_natCast, hk]
    rfl
  have hsame : r₁ = r₁.fill c.header.requestId (r₁.fragmentedRequests k) := by
    rw [hk]
    exact (fill_self r₁ c.header.requestId).symm
  rw [step, receive] at hstep
  by_cases hone : c.header.fragmentCount = 1
  · rw [if_pos hone, markReceived, h] at hstep
    dsimp only at hstep
    rw [hslot] at hstep
    rcases hs : r₁.fragmentedRequests k with _ | _ | e
    · rw [hs] at hstep
      cases hstep
      exact ⟨.completed, hput _, nofun⟩
    · rw [hs] at hstep
      cases hstep
      exact ⟨_, hsame, fun _ => nofun⟩
    · rw [hs] at hstep
      cases hstep
      exact ⟨_, hsame, fun _ => nofun⟩
  · rw [if_neg hone, processFragment, h] at hstep
    dsimp only at hstep
    rw [hslot] at hstep
    rcases hs : r₁.fragmentedRequests k with _ | _ | e
    · rw [hs] at hstep
      dsimp only at hstep
      rcases hadd : (RequestEntry.new c.header).addFragment c.header c.data c.answer with _ | ⟨slot, rep⟩
      · rw [hadd] at hstep
        cases hstep
      · rw [hadd] at hstep
        cases hstep
        exact ⟨slot, hput slot, nofun⟩
    · rw [hs] at hstep
      cases hstep
      exact ⟨_, hsame, fun _ => nofun⟩
    · rw [hs] at hstep
      dsimp only at hstep
      rcases hadd : e.addFragment c.header c.data c.answer with _ | ⟨slot, rep⟩
      · rw [hadd] at hstep
        cases hstep
      · rw [hadd] at hstep
        cases hstep
        exact ⟨slot, hput slot, fun _ => nofun⟩

end Requests

/-- **One source with a ledger**: for which request each element was last set. -/
structure Ledger where
  requests : Requests
  filledFor : ℕ → Option ULong

namespace Ledger

variable {s s' : Ledger} {r : Requests} {c : Arrival} {report : Report} {size minPurgeCount : SizeT}

def new (size minPurgeCount : SizeT) : Ledger :=
  ⟨Requests.init size minPurgeCount, fun _ => none⟩

/-- A call, with what is noted. -/
def step (s : Ledger) (c : Arrival) : Option (Ledger × Report) :=
  (s.requests.step c).map fun p =>
    (⟨p.1, if p.2.stored then Function.update s.filledFor (p.1.place c.header.requestId)
      (some c.header.requestId) else s.filledFor⟩, p.2)

/-- **A call is right**: it finds its place or none, the difference is kept, and the slot is empty or
was last set for the same request. -/
def Right (s : Ledger) (c : Arrival) : Prop :=
  ∃ r place, s.requests.getRequest c.header.requestId = some (r, place) ∧
    (r.idRangeHigh - r.idRangeLow).setWidth 64 = r.size - 1 ∧
    ∀ index, place = some index → ∃ slot, r.slotAt index = some slot ∧
      (slot = .null ∨ s.filledFor index.toNat = some c.header.requestId)

/-- **The range has not wrapped**, or the id is below it. -/
def Unwrapped (s : Ledger) (c : Arrival) : Prop :=
  c.header.requestId < s.requests.idRangeLow ∨ s.requests.idRangeLow ≤ s.requests.idRangeHigh

/-- **What the ledger says of the array**: each element that is not empty was set for an id of the
range that has this place. -/
def Records (s : Ledger) (r : Requests) : Prop :=
  ∀ k, r.fragmentedRequests k ≠ .null → ∃ id : ULong, s.filledFor k = some id ∧ r.place id = k ∧
    r.idRangeLow.toNat ≤ id.toNat ∧ id.toNat < r.idRangeLow.toNat + r.size.toNat

/-- **The invariant.** -/
structure Inv (s : Ledger) : Prop where
  shaped : s.requests.Shaped
  records : s.Records s.requests

theorem inv_new (hpos : 0 < size.toNat) (hfits : Requests.Fits size minPurgeCount) :
    (new size minPurgeCount).Inv :=
  ⟨Requests.shaped_init hpos hfits, fun _ hne => absurd rfl hne⟩

theorem le_of_mod_eq {a b size : ℕ} (h : a % size = b % size) (hlt : a < b + size) : a ≤ b := by
  by_contra hgt
  have hdvd : size ∣ a - b := Nat.dvd_of_mod_eq_zero (Nat.sub_mod_eq_zero_of_mod_eq h)
  have hzero := Nat.eq_zero_of_dvd_of_lt hdvd (by omega)
  omega

/-- **In a range, a place has one id.** -/
theorem Records.filledFor_eq {r : Requests} {id : ULong} (h : s.Records r)
    (hlow : r.idRangeLow.toNat ≤ id.toNat) (hlt : id.toNat < r.idRangeLow.toNat + r.size.toNat)
    (hne : r.fragmentedRequests (r.place id) ≠ .null) : s.filledFor (r.place id) = some id := by
  obtain ⟨j, hj, hplace, hjlow, hjlt⟩ := h _ hne
  have hle := le_of_mod_eq hplace (by omega)
  have hge := le_of_mod_eq hplace.symm (by omega)
  rw [hj, BitVec.eq_of_toNat_eq (Nat.le_antisymm hle hge)]

/-- A range that is moved up forgets what leaves it. -/
theorem Records.ahead {r : Requests} {id : ULong} (h : s.Records s.requests)
    (hahead : s.requests.Ahead id r) (hsize : r.size = s.requests.size) : s.Records r := by
  intro k hk
  rcases hahead.kept k with hnull | hkept
  · exact absurd hnull hk
  · obtain ⟨j, hj, hplace, hlow, hlt⟩ := h k (hkept ▸ hk)
    have hle := hahead.low_le
    refine ⟨j, hj, by rw [Requests.place, hsize]; exact hplace, ?_, by rw [hsize]; omega⟩
    by_contra hbelow
    refine hk ?_
    rw [← hplace]
    exact hahead.purged j.toNat hlow hlt (Nat.not_le.mp hbelow)

/-- A range that is set anew keeps all elements, which are for ids of it if none is above the new
one. -/
theorem Records.anew {r : Requests} {id : ULong} (h : s.Records s.requests)
    (hanew : s.requests.Anew id r) (hsize : r.size = s.requests.size)
    (htop : ∀ k j, s.requests.fragmentedRequests k ≠ .null → s.filledFor k = some j →
      j.toNat ≤ id.toNat) : s.Records r := by
  intro k hk
  rw [hanew.slots] at hk
  obtain ⟨j, hj, hplace, hlow, hlt⟩ := h k hk
  have hle := htop k j hk hj
  have hid := hanew.id_lt
  have hlower := hanew.low_lt
  refine ⟨j, hj, by rw [Requests.place, hsize]; exact hplace, by omega, by rw [hsize]; omega⟩

/-- **What is set is noted.** -/
theorem Records.fill {r : Requests} {id : ULong} {slot : Slot} {stored : Bool} (h : s.Records r)
    (hlow : r.idRangeLow.toNat ≤ id.toNat) (hlt : id.toNat < r.idRangeLow.toNat + r.size.toNat)
    (hstored : stored = false → r.fragmentedRequests (r.place id) ≠ .null) :
    Records ⟨r.fill id slot, if stored then
      Function.update s.filledFor ((r.fill id slot).place id) (some id) else s.filledFor⟩
      (r.fill id slot) := by
  intro k hk
  change ∃ j, (if stored then Function.update s.filledFor (r.place id) (some id) else s.filledFor) k =
    some j ∧ _
  by_cases hplace : k = r.place id
  · subst hplace
    refine ⟨id, ?_, rfl, hlow, hlt⟩
    cases stored with
    | false => exact h.filledFor_eq hlow hlt (hstored rfl)
    | true => exact Function.update_self _ _ _
  · have hslot : (r.fill id slot).fragmentedRequests k = r.fragmentedRequests k :=
      Function.update_of_ne hplace _ _
    obtain ⟨j, hj, hrest⟩ := h k (hslot ▸ hk)
    refine ⟨j, ?_, hrest⟩
    cases stored with
    | false => exact hj
    | true => exact (Function.update_of_ne hplace _ _).trans hj

/-! ### One call -/

/-- **Where a call comes to**, if it finds a place: behind `get_request`, the ledger is right of the
array, whose range has the id. -/
structure Found (s : Ledger) (id : ULong) (r : Requests) : Prop where
  get : s.requests.getRequest id = some (r, some (r.place id : ℤ))
  shaped : r.Shaped
  records : s.Records r
  low_le : r.idRangeLow.toNat ≤ id.toNat
  lt : id.toNat < r.idRangeLow.toNat + r.size.toNat

theorem Found.right (h : Found s c.header.requestId r) : s.Right c := by
  refine ⟨r, _, h.get, h.shaped.difference, fun index hindex => ?_⟩
  cases hindex
  refine ⟨_, Requests.slotAt_natCast (Requests.place_lt h.shaped _), ?_⟩
  rw [Int.toNat_natCast]
  rcases hs : r.fragmentedRequests (r.place c.header.requestId) with _ | _ | e
  · exact Or.inl rfl
  · exact Or.inr (h.records.filledFor_eq h.low_le h.lt (hs ▸ nofun))
  · exact Or.inr (h.records.filledFor_eq h.low_le h.lt (hs ▸ nofun))

/-- The ledger behind a call. -/
theorem Found.step (h : Found s c.header.requestId r) (hstep : s.step c = some (s', report)) :
    s'.Inv ∧ ∃ slot, s'.requests = r.fill c.header.requestId slot := by
  rw [Ledger.step, Option.map_eq_some_iff] at hstep
  obtain ⟨⟨r', rep⟩, hr, heq⟩ := hstep
  cases heq
  obtain ⟨slot, rfl, hstored⟩ := Requests.step_of_some h.get (Requests.place_lt h.shaped _) rfl hr
  exact ⟨⟨⟨h.shaped.pos, h.shaped.fits, h.shaped.range⟩,
    h.records.fill h.low_le h.lt hstored⟩, slot, rfl⟩

/-- A call that finds no place. -/
theorem step_of_none (h : s.requests.getRequest c.header.requestId = some (s.requests, none)) :
    ∃ result, s.step c = some (s, { result := result }) := by
  obtain ⟨result, hr⟩ := Requests.step_of_none h
  exact ⟨result, by rw [step, hr]; rfl⟩

/-- **What a call finds**: no place, or its own, if the range has not wrapped or no element is for an
id above this one. -/
theorem Inv.cases (h : s.Inv) (id : ULong)
    (htop : s.requests.idRangeLow ≤ s.requests.idRangeHigh ∨
      ∀ k j, s.requests.fragmentedRequests k ≠ .null → s.filledFor k = some j → j.toNat ≤ id.toNat) :
    (id < s.requests.idRangeLow ∧ s.requests.getRequest id = some (s.requests, none)) ∨
      s.requests.idRangeLow ≤ id ∧ ∃ r, Found s id r ∧ r.size = s.requests.size := by
  rcases Requests.getRequest_cases h.shaped id with hbelow | ⟨hlow, r, hget, hsize, -, hshaped,
    ⟨hle, hwrap, rfl⟩ | ⟨-, hwrap, hahead⟩ | ⟨hwrap, hanew⟩⟩
  · exact Or.inl hbelow
  · refine Or.inr ⟨hlow, _, ⟨hget, hshaped, h.records, BitVec.le_def.mp hlow, ?_⟩, rfl⟩
    have hle' := BitVec.le_def.mp hle
    rcases h.shaped.range with heq | heq <;> omega
  · refine Or.inr ⟨hlow, r, ⟨?_, hshaped, h.records.ahead hahead hsize, hahead.le_id, ?_⟩, hsize⟩
    · rw [hget, Requests.place, hsize]
    · rw [hsize]
      exact hahead.id_lt
  · have hnot := htop.resolve_left (BitVec.not_le.mpr hwrap)
    have hid := hanew.id_lt
    have hpos := h.shaped.pos
    refine Or.inr ⟨hlow, r, ⟨?_, hshaped, h.records.anew hanew hsize hnot, by omega, ?_⟩, hsize⟩
    · rw [hget, Requests.place, hsize]
    · rw [hsize]
      omega

/-! ### Every run -/

/-- **A call to a range that has not wrapped** is right, and keeps the invariant. -/
theorem Inv.right (h : s.Inv) (hc : s.Unwrapped c) : s.Right c := by
  rcases hc with hbelow | hwrap
  · have hget : s.requests.getRequest c.header.requestId = some (s.requests, none) := if_pos hbelow
    exact ⟨_, _, hget, h.shaped.difference, nofun⟩
  · rcases h.cases c.header.requestId (Or.inl hwrap) with ⟨-, hget⟩ | ⟨-, r, hfound, -⟩
    · exact ⟨_, _, hget, h.shaped.difference, nofun⟩
    · exact hfound.right

theorem Inv.step (h : s.Inv) (hc : s.Unwrapped c) (hstep : s.step c = some (s', report)) : s'.Inv := by
  have hnone (hget : s.requests.getRequest c.header.requestId = some (s.requests, none)) : s'.Inv := by
    obtain ⟨result, heq⟩ := step_of_none hget
    cases hstep.symm.trans heq
    exact h
  rcases hc with hbelow | hwrap
  · exact hnone (if_pos hbelow)
  · rcases h.cases c.header.requestId (Or.inl hwrap) with ⟨-, hget⟩ | ⟨-, r, hfound, -⟩
    · exact hnone hget
    · exact (hfound.step hstep).1

/-- **Runs in which the range has not wrapped.** -/
theorem Inv.guarded_right (h : s.Inv) {calls : List Arrival}
    (hg : Guarded Ledger.step Unwrapped s calls) : Guarded Ledger.step Right s calls := by
  induction calls generalizing s with
  | nil => trivial
  | cons c calls ih =>
    exact ⟨h.right hg.1, fun s' o hs => ih (h.step hg.1 hs) (hg.2 s' o hs)⟩

end Ledger

end AceTao.EventGateway
