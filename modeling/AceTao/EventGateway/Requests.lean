import Mathlib.Order.Basic
import AceTao.EventGateway.RequestEntry

/-!
# The window of request ids

For each source, the gateway keeps the requests of a range of ids in an array that is used in a
circle. `get_request` moves the range when an id lies ahead of it, by at least `min_purge_count_`
slots, and clears the slots that leave it.

The ids are of 32 bits. When the upper end of the range is moved past 2³² - 1 and the lower end is
not, the range has *wrapped*: `id_range_high_` is below `id_range_low_`. The next id that is not below
the range then sets the range anew, but no slot is cleared. Everything that a call can do to the range
is said once, in `Requests.getRequest_cases`.
-/

namespace AceTao.EventGateway

abbrev SizeT := BitVec 64

/-- **An element of the array**: a null pointer, the mark `&Request_Completed_`, or an entry. -/
inductive Slot
  | null
  | completed
  | entry (e : RequestEntry)

/-- **`Requests`**. The array is a function and its size. -/
structure Requests where
  fragmentedRequests : ℕ → Slot
  size : SizeT
  idRangeLow : ULong
  idRangeHigh : ULong
  minPurgeCount : SizeT

namespace Requests

/-- `init` -/
def init (size minPurgeCount : SizeT) : Requests where
  fragmentedRequests := fun _ => .null
  size := size
  idRangeLow := 0
  idRangeHigh := (size - 1).setWidth 32
  minPurgeCount := minPurgeCount

/-- The loop of `purge_requests`, with a bound on its tests. -/
def purgeLoop (size : ℕ) (last : ULong) : ℕ → ULong → (ℕ → Slot) → Option (ℕ → Slot)
  | 0, _, _ => none
  | tests + 1, i, slots =>
    if i ≤ last then
      purgeLoop size last tests (i + 1) (Function.update slots (i.toNat % size) .null)
    else some slots

/-- **`purge_requests`**. With two tests more than there are ids the loop has ended, if it ends. -/
def purgeRequests (r : Requests) (first last : ULong) : Option Requests :=
  (purgeLoop r.size.toNat last (last.toNat - first.toNat + 2) first r.fragmentedRequests).map
    fun slots => { r with fragmentedRequests := slots }

/-- `new_slots_needed`, which is a `ULong` also when it is set to `min_purge_count_`. -/
def newSlotsNeeded (r : Requests) (id : ULong) : ULong :=
  if (id - r.idRangeHigh).toNat < r.minPurgeCount.toNat then r.minPurgeCount.setWidth 32
  else id - r.idRangeHigh

/-- How the range is moved. -/
def shift (r : Requests) (id : ULong) : Option Requests :=
  if r.size.toNat < (r.newSlotsNeeded id).toNat then
    (r.purgeRequests r.idRangeLow r.idRangeHigh).map fun r =>
      { r with
        idRangeHigh := id
        idRangeLow := (id.setWidth 64 - r.size + 1).setWidth 32 }
  else
    (r.purgeRequests r.idRangeLow (r.idRangeLow + r.newSlotsNeeded id - 1)).map fun r' =>
      { r' with
        idRangeHigh := r.idRangeHigh + r.newSlotsNeeded id
        idRangeLow := r.idRangeLow + r.newSlotsNeeded id }

/-- The variable `index`, which is an `int`. -/
def index (r : Requests) (id : ULong) : ℤ := (BitVec.ofNat 32 (id.toNat % r.size.toNat)).toInt

/-- **`get_request`**: the place in the array, or a null pointer. -/
def getRequest (r : Requests) (id : ULong) : Option (Requests × Option ℤ) :=
  if id < r.idRangeLow then some (r, none)
  else if r.idRangeHigh < id then (r.shift id).map fun r' => (r', some (r'.index id))
  else some (r, some (r.index id))

/-- What is at a place; none outside of the array. -/
def slotAt (r : Requests) (index : ℤ) : Option Slot :=
  if 0 ≤ index ∧ index < r.size.toNat then some (r.fragmentedRequests index.toNat) else none

/-- What is put at a place. -/
def put (r : Requests) (index : ℤ) (slot : Slot) : Requests :=
  { r with fragmentedRequests := Function.update r.fragmentedRequests index.toNat slot }

/-- **The parameters for which an `int` and a `ULong` are enough**: at most 2³¹ slots, and a
`min_purge_count` that is a `ULong`, or is one of more than all slots when it is cut to 32 bits. -/
def Fits (size minPurgeCount : SizeT) : Prop :=
  size.toNat ≤ 2 ^ 31 ∧
    (minPurgeCount.toNat < 2 ^ 32 ∨ size.toNat < minPurgeCount.toNat % 2 ^ 32)

/-- **The shape of the range**: as many ids as slots, from `id_range_low_` on. -/
structure Shaped (r : Requests) : Prop where
  pos : 0 < r.size.toNat
  fits : Fits r.size r.minPurgeCount
  range : r.idRangeLow.toNat + r.size.toNat = r.idRangeHigh.toNat + 1 ∨
    r.idRangeLow.toNat + r.size.toNat = r.idRangeHigh.toNat + 1 + 2 ^ 32

variable {r r' : Requests} {id first last : ULong} {size tests : ℕ} {slots : ℕ → Slot}

/-! ### Purging -/

/-- **Any other loop ends**, and clears the slots of its ids. -/
theorem purgeLoop_spec (size : ℕ) (hlast : last.toNat + 1 < 2 ^ 32) (tests : ℕ) (i : ULong)
    (slots : ℕ → Slot) (htests : last.toNat + 1 < i.toNat + tests) (hpos : 0 < tests) :
    ∃ slots', purgeLoop size last tests i slots = some slots' ∧
      (∀ j, i.toNat ≤ j → j ≤ last.toNat → slots' (j % size) = .null) ∧
      (∀ k, (∀ j, i.toNat ≤ j → j ≤ last.toNat → j % size ≠ k) → slots' k = slots k) ∧
      ∀ k, slots' k = .null ∨ slots' k = slots k := by
  induction tests generalizing i slots with
  | zero => exact absurd hpos (Nat.lt_irrefl 0)
  | succ tests ih =>
    rw [purgeLoop]
    by_cases hle : i ≤ last
    · have hle' := BitVec.le_def.mp hle
      have hnext : (i + 1).toNat = i.toNat + 1 := by
        rw [BitVec.toNat_add]
        exact Nat.mod_eq_of_lt (show i.toNat + 1 < 2 ^ 32 by omega)
      obtain ⟨slots', hrun, hnull, hkeep, hall⟩ := ih (i + 1)
        (Function.update slots (i.toNat % size) .null) (by omega) (by omega)
      rw [if_pos hle]
      refine ⟨slots', hrun, fun j hj hj' => ?_, fun k hk => ?_, fun k => ?_⟩
      · rcases Nat.eq_or_lt_of_le hj with rfl | hlt
        · -- its slot is cleared first, and stays so
          rcases hall (i.toNat % size) with h | h
          · exact h
          · rw [h, Function.update_self]
        · exact hnull j (by omega) hj'
      · rw [hkeep k fun j hj hj' => hk j (by omega) hj']
        exact Function.update_of_ne (hk i.toNat (Nat.le_refl _) hle').symm _ _
      · rcases hall k with h | h
        · exact Or.inl h
        · by_cases hk : k = i.toNat % size
          · subst hk
            exact Or.inl (h.trans (Function.update_self _ _ _))
          · exact Or.inr (h.trans (Function.update_of_ne hk _ _))
    · rw [if_neg hle]
      have hgt := mt BitVec.le_def.mpr hle
      exact ⟨slots, rfl, fun j hj hj' => absurd (hj.trans hj') hgt, fun k _ => rfl,
        fun k => Or.inr rfl⟩

/-- Purging from a first id to a last one. -/
theorem purgeRequests_spec (r : Requests) (first : ULong) {last : ULong}
    (hlast : last.toNat + 1 < 2 ^ 32) :
    ∃ slots, r.purgeRequests first last = some { r with fragmentedRequests := slots } ∧
      (∀ j, first.toNat ≤ j → j ≤ last.toNat → slots (j % r.size.toNat) = .null) ∧
      (last < first → slots = r.fragmentedRequests) ∧
      ∀ k, slots k = .null ∨ slots k = r.fragmentedRequests k := by
  obtain ⟨slots, hrun, hnull, hkeep, hall⟩ := purgeLoop_spec r.size.toNat hlast
    (last.toNat - first.toNat + 2) first r.fragmentedRequests (by omega) (by omega)
  refine ⟨slots, by rw [purgeRequests, hrun, Option.map_some], hnull, fun hlt => ?_, hall⟩
  funext k
  refine hkeep k fun j hj hj' => ?_
  exact absurd (hj.trans hj') (Nat.not_le.mpr (BitVec.lt_def.mp hlt))

/-! ### Moving the range -/

theorem toNat_sub_of_lt {a b : ULong} (h : a < b) : (b - a).toNat = b.toNat - a.toNat :=
  BitVec.toNat_sub_of_le (BitVec.le_of_lt h)

/-- **Enough slots are made room for**, or more than there are. -/
theorem newSlotsNeeded_cases (h : r.Shaped) (hgt : r.idRangeHigh < id) :
    id.toNat - r.idRangeHigh.toNat ≤ (r.newSlotsNeeded id).toNat ∨
      r.size.toNat < (r.newSlotsNeeded id).toNat := by
  have hgap := toNat_sub_of_lt hgt
  rw [newSlotsNeeded]
  by_cases hmin : (id - r.idRangeHigh).toNat < r.minPurgeCount.toNat
  · rw [if_pos hmin, BitVec.toNat_setWidth]
    rcases h.fits.2 with hlt | hmore
    · left
      rw [Nat.mod_eq_of_lt hlt]
      omega
    · exact Or.inr hmore
  · rw [if_neg hmin]
    exact Or.inl hgap.ge

/-- `index` is the remainder. -/
theorem index_eq (h : r.Shaped) (id : ULong) : r.index id = id.toNat % r.size.toNat := by
  have hsize := h.fits.1
  have hlt : id.toNat % r.size.toNat < r.size.toNat := Nat.mod_lt _ h.pos
  have hto : (BitVec.ofNat 32 (id.toNat % r.size.toNat)).toNat = id.toNat % r.size.toNat := by
    rw [BitVec.toNat_ofNat]
    exact Nat.mod_eq_of_lt (by omega)
  rw [index, BitVec.toInt_eq_toNat_of_lt (by rw [hto]; omega), hto]
  rfl

theorem toNat_pred {size : SizeT} (hpos : 0 < size.toNat) : (size - 1).toNat = size.toNat - 1 := by
  have hone : (1 : SizeT).toNat = 1 := rfl
  rw [BitVec.toNat_sub_of_le (BitVec.le_def.mpr (by omega)), hone]

/-- The difference that is kept. -/
theorem Shaped.difference (h : r.Shaped) :
    (r.idRangeHigh - r.idRangeLow).setWidth 64 = r.size - 1 := by
  have hpos := h.pos
  have hsize := h.fits.1
  have hlow := r.idRangeLow.isLt
  have hhigh := r.idRangeHigh.isLt
  refine BitVec.eq_of_toNat_eq ?_
  rw [BitVec.toNat_setWidth, BitVec.toNat_sub, toNat_pred hpos]
  rcases h.range with heq | heq <;> omega

theorem shaped_init {size minPurgeCount : SizeT} (hpos : 0 < size.toNat)
    (hfits : Fits size minPurgeCount) : (init size minPurgeCount).Shaped := by
  have hsize := hfits.1
  refine ⟨hpos, hfits, Or.inl ?_⟩
  have hhigh : ((size - 1).setWidth 32).toNat = size.toNat - 1 := by
    rw [BitVec.toNat_setWidth, toNat_pred hpos]
    exact Nat.mod_eq_of_lt (by omega)
  change 0 + size.toNat = ((size - 1).setWidth 32).toNat + 1
  omega

/-- **The lower end when the range is set anew.** -/
theorem toNat_newLow {size : SizeT} (hpos : 0 < size.toNat) (hle : size.toNat ≤ id.toNat + 1) :
    ((id.setWidth 64 - size + 1).setWidth 32).toNat + size.toNat = id.toNat + 1 := by
  have hid := id.isLt
  have hone : (1 : SizeT).toNat = 1 := rfl
  have hwide : (id.setWidth 64).toNat = id.toNat := by
    rw [BitVec.toNat_setWidth]
    exact Nat.mod_eq_of_lt (by omega)
  rw [BitVec.toNat_setWidth, BitVec.toNat_add, BitVec.toNat_sub, hwide, hone]
  omega

/-- **What a call can do to a range that has not wrapped**, for an id ahead of it. -/
structure Ahead (r : Requests) (id : ULong) (r' : Requests) : Prop where
  low_le : r.idRangeLow.toNat ≤ r'.idRangeLow.toNat
  le_id : r'.idRangeLow.toNat ≤ id.toNat
  id_lt : id.toNat < r'.idRangeLow.toNat + r.size.toNat
  purged : ∀ j, r.idRangeLow.toNat ≤ j → j < r.idRangeLow.toNat + r.size.toNat →
    j < r'.idRangeLow.toNat → r'.fragmentedRequests (j % r.size.toNat) = .null
  kept : ∀ k, r'.fragmentedRequests k = .null ∨ r'.fragmentedRequests k = r.fragmentedRequests k

/-- **What a call does to a range that has wrapped**: no slot is cleared. -/
structure Anew (r : Requests) (id : ULong) (r' : Requests) : Prop where
  slots : r'.fragmentedRequests = r.fragmentedRequests
  id_lt : id.toNat + 1 = r'.idRangeLow.toNat + r.size.toNat
  low_lt : r'.idRangeLow.toNat < r.idRangeLow.toNat

/-- The range is set anew. -/
theorem shift_of_lt (h : r.Shaped) (hlow : r.idRangeLow ≤ id) (hgt : r.idRangeHigh < id)
    (hmore : r.size.toNat < (r.newSlotsNeeded id).toNat) :
    ∃ r', r.shift id = some r' ∧ r'.size = r.size ∧ r'.minPurgeCount = r.minPurgeCount ∧ r'.Shaped ∧
      (r.idRangeLow ≤ r.idRangeHigh → r.Ahead id r') ∧
      (r.idRangeHigh < r.idRangeLow → r.Anew id r') := by
  have hid := id.isLt
  have hpos := h.pos
  have hsize := h.fits.1
  have hlow' := BitVec.le_def.mp hlow
  have hgt' := BitVec.lt_def.mp hgt
  obtain ⟨slots, hpurge, hnull, hkeep, hall⟩ := @purgeRequests_spec r r.idRangeLow r.idRangeHigh
    (by omega)
  have hbelow : r.size.toNat ≤ id.toNat + 1 := by rcases h.range with heq | heq <;> omega
  have hnew := toNat_newLow hpos hbelow
  rw [shift, if_pos hmore, hpurge, Option.map_some]
  refine ⟨_, rfl, rfl, rfl, ⟨hpos, h.fits, Or.inl hnew⟩, fun hle => ?_, fun hlt => ?_⟩
  · have hle' := BitVec.le_def.mp hle
    have hrange : r.idRangeLow.toNat + r.size.toNat = r.idRangeHigh.toNat + 1 := by
      rcases h.range with heq | heq
      · exact heq
      · have hhigh := r.idRangeHigh.isLt
        omega
    constructor
    · change _ ≤ ((id.setWidth 64 - r.size + 1).setWidth 32).toNat
      omega
    · change ((id.setWidth 64 - r.size + 1).setWidth 32).toNat ≤ _
      omega
    · change _ < ((id.setWidth 64 - r.size + 1).setWidth 32).toNat + _
      omega
    · intro j hj hj' _
      exact hnull j hj (by omega)
    · exact hall
  · have hlt' := BitVec.lt_def.mp hlt
    refine ⟨hkeep hlt, hnew.symm, ?_⟩
    change ((id.setWidth 64 - r.size + 1).setWidth 32).toNat < _
    rcases h.range with heq | heq <;> omega

/-- The range is moved by as many slots as are needed, which are not more than there are. It has not
wrapped then. -/
theorem shift_of_le (h : r.Shaped) (hlow : r.idRangeLow ≤ id) (hgt : r.idRangeHigh < id)
    (hless : ¬r.size.toNat < (r.newSlotsNeeded id).toNat) :
    r.idRangeLow ≤ r.idRangeHigh ∧ ∃ r', r.shift id = some r' ∧ r'.size = r.size ∧
      r'.minPurgeCount = r.minPurgeCount ∧ r'.Shaped ∧ r.Ahead id r' := by
  have hid := id.isLt
  have hpos := h.pos
  have hsize := h.fits.1
  have hgt' := BitVec.lt_def.mp hgt
  have hlow' := BitVec.le_def.mp hlow
  have hneeded := (newSlotsNeeded_cases h hgt).resolve_right hless
  have hhigh := r.idRangeHigh.isLt
  have hrange : r.idRangeLow.toNat + r.size.toNat = r.idRangeHigh.toNat + 1 := by
    rcases h.range with heq | heq
    · exact heq
    · omega
  have hle : r.idRangeLow ≤ r.idRangeHigh := BitVec.le_def.mpr (by omega)
  have hone : (1 : ULong).toNat = 1 := rfl
  have hadd : (r.idRangeLow + r.newSlotsNeeded id).toNat =
      r.idRangeLow.toNat + (r.newSlotsNeeded id).toNat := by
    rw [BitVec.toNat_add]
    exact Nat.mod_eq_of_lt (by omega)
  have hlast : (r.idRangeLow + r.newSlotsNeeded id - 1).toNat =
      r.idRangeLow.toNat + (r.newSlotsNeeded id).toNat - 1 := by
    rw [BitVec.toNat_sub_of_le (BitVec.le_def.mpr (by omega)), hadd, hone]
  obtain ⟨slots, hpurge, hnull, -, hall⟩ := @purgeRequests_spec r r.idRangeLow
    (r.idRangeLow + r.newSlotsNeeded id - 1) (by omega)
  rw [shift, if_neg hless, hpurge, Option.map_some]
  refine ⟨hle, _, rfl, rfl, rfl, ⟨hpos, h.fits, ?_⟩, ?_⟩
  · change (r.idRangeLow + r.newSlotsNeeded id).toNat + r.size.toNat =
      (r.idRangeHigh + r.newSlotsNeeded id).toNat + 1 ∨
      (r.idRangeLow + r.newSlotsNeeded id).toNat + r.size.toNat =
        (r.idRangeHigh + r.newSlotsNeeded id).toNat + 1 + 2 ^ 32
    rw [hadd, BitVec.toNat_add]
    omega
  · constructor
    · change _ ≤ (r.idRangeLow + r.newSlotsNeeded id).toNat
      omega
    · change (r.idRangeLow + r.newSlotsNeeded id).toNat ≤ _
      omega
    · change _ < (r.idRangeLow + r.newSlotsNeeded id).toNat + _
      omega
    · intro j hj _ hj'
      change j < (r.idRangeLow + r.newSlotsNeeded id).toNat at hj'
      exact hnull j hj (by omega)
    · exact hall

/-- **What `get_request` can do.** It returns. An id below the range changes nothing; any other id
is given its place, and the range is as it was, is moved up, or is set anew. -/
theorem getRequest_cases (h : r.Shaped) (id : ULong) :
    (id < r.idRangeLow ∧ r.getRequest id = some (r, none)) ∨
    (r.idRangeLow ≤ id ∧ ∃ r', r.getRequest id = some (r', some ((id.toNat % r.size.toNat : ℕ) : ℤ)) ∧
      r'.size = r.size ∧ r'.minPurgeCount = r.minPurgeCount ∧ r'.Shaped ∧
      (id ≤ r.idRangeHigh ∧ r.idRangeLow ≤ r.idRangeHigh ∧ r' = r ∨
        r.idRangeHigh < id ∧ r.idRangeLow ≤ r.idRangeHigh ∧ r.Ahead id r' ∨
        r.idRangeHigh < r.idRangeLow ∧ r.Anew id r')) := by
  by_cases hlow : id < r.idRangeLow
  · exact Or.inl ⟨hlow, if_pos hlow⟩
  · have hle := BitVec.not_lt.mp hlow
    refine Or.inr ⟨hle, ?_⟩
    by_cases hgt : r.idRangeHigh < id
    · have hget {r' : Requests} (hr : r.shift id = some r') (hsize : r'.size = r.size)
          (hshaped : r'.Shaped) :
          r.getRequest id = some (r', some ((id.toNat % r.size.toNat : ℕ) : ℤ)) := by
        rw [getRequest, if_neg hlow, if_pos hgt, hr, Option.map_some, index_eq hshaped, hsize]
        rfl
      by_cases hmore : r.size.toNat < (r.newSlotsNeeded id).toNat
      · obtain ⟨r', hr, hsize, hmin, hshaped, hahead, hanew⟩ := shift_of_lt h hle hgt hmore
        refine ⟨r', hget hr hsize hshaped, hsize, hmin, hshaped, Or.inr ?_⟩
        by_cases hwrap : r.idRangeLow ≤ r.idRangeHigh
        · exact Or.inl ⟨hgt, hwrap, hahead hwrap⟩
        · exact Or.inr ⟨BitVec.not_le.mp hwrap, hanew (BitVec.not_le.mp hwrap)⟩
      · obtain ⟨hwrap, r', hr, hsize, hmin, hshaped, hahead⟩ := shift_of_le h hle hgt hmore
        exact ⟨r', hget hr hsize hshaped, hsize, hmin, hshaped, Or.inr (Or.inl ⟨hgt, hwrap, hahead⟩)⟩
    · refine ⟨r, ?_, rfl, rfl, h, Or.inl ⟨BitVec.not_lt.mp hgt, ?_, rfl⟩⟩
      · rw [getRequest, if_neg hlow, if_neg hgt, index_eq h]
        rfl
      · exact BitVec.le_trans hle (BitVec.not_lt.mp hgt)

/-- **The place of an id ahead of the range** is empty once the range has been moved to it. -/
theorem Ahead.empty (h : r.Ahead id r') (hshaped : r.Shaped) (hwrap : r.idRangeLow ≤ r.idRangeHigh)
    (hgt : r.idRangeHigh < id) : r'.fragmentedRequests (id.toNat % r.size.toNat) = .null := by
  have hpos := hshaped.pos
  have hwrap' := BitVec.le_def.mp hwrap
  have hgt' := BitVec.lt_def.mp hgt
  have hhigh := r.idRangeHigh.isLt
  have hsize := hshaped.fits.1
  have hlt := h.id_lt
  have hrange : r.idRangeLow.toNat + r.size.toNat = r.idRangeHigh.toNat + 1 := by
    rcases hshaped.range with heq | heq
    · exact heq
    · omega
  -- the id of the range that had this place
  have hmod := Nat.mod_lt (id.toNat - r.idRangeLow.toNat) hpos
  have hdiv := Nat.div_add_mod (id.toNat - r.idRangeLow.toNat) r.size.toNat
  obtain ⟨q, hq⟩ : ∃ q, (id.toNat - r.idRangeLow.toNat) / r.size.toNat = q + 1 :=
    Nat.exists_eq_succ_of_ne_zero (Nat.ne_of_gt (Nat.div_pos (by omega) hpos))
  rw [hq, Nat.mul_succ] at hdiv
  have hplace : (r.idRangeLow.toNat + (id.toNat - r.idRangeLow.toNat) % r.size.toNat) %
      r.size.toNat = id.toNat % r.size.toNat := by
    rw [Nat.add_mod_mod, Nat.add_sub_cancel' (by omega)]
  rw [← hplace]
  exact h.purged _ (Nat.le_add_right _ _) (by omega) (by omega)

end Requests

end AceTao.EventGateway
