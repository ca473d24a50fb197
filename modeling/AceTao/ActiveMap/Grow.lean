import AceTao.ActiveMap.Slots
import Mathlib.Data.Nat.Notation

/-!
# Growing the array

`resize_i` copies the entries of both lists into a larger array and constructs the new ones, which
become the free list (`ActiveMap.Lists.resize`). With the slots that were marked, this is what
`next_free` does to find a slot (`ActiveMap.Lists.nextFree`).
-/

namespace AceTao

namespace ActiveMap

open DoublyLinked

variable {T : Type}

/-! ### Copying -/

/-- **The entries of a list are copied.** -/
theorem copyLoop_spec {s : ActiveMap T} {l : MapList} {newSize n : ℕ} {done rest : List ℕ}
    (h : Circular s l (done ++ rest))
    (hslots : ∀ i ∈ rest, i < 2 ^ 32 - 2 ∧ (s.searchStructure i).isSome ∧ i < newSize)
    (hn : rest.length < n) (temp : Entries T) :
    copyLoop s.searchStructure newSize l n (rest.head?.getD l.id) temp =
      some fun i => if i ∈ rest then s.searchStructure i else temp i := by
  induction rest generalizing done n temp with
  | nil =>
    obtain ⟨n, rfl⟩ := Nat.exists_eq_succ_of_ne_zero (Nat.ne_of_gt hn)
    refine (if_pos rfl).trans (congrArg some (funext fun i => ?_))
    rw [if_neg List.not_mem_nil]
  | cons i rest ih =>
    obtain ⟨n, rfl⟩ := Nat.exists_eq_succ_of_ne_zero (Nat.ne_of_gt (Nat.zero_lt_of_lt hn))
    obtain ⟨hlt, hsome, hnew⟩ := hslots i (List.mem_cons_self ..)
    obtain ⟨e, he⟩ := Option.isSome_iff_exists.mp hsome
    have hsplit : done ++ i :: rest = (done ++ [i]) ++ rest := by simp
    have hi : i ∉ rest := (List.nodup_cons.mp (List.nodup_append.mp h.isList.nodup).2.1).1
    rw [copyLoop, if_neg (getD_head?_ne hlt), List.head?_cons, Option.getD_some, he]
    dsimp only
    rw [if_pos hnew, h.next_eq he, ih (hsplit ▸ h) (fun j hj => hslots j (List.mem_cons_of_mem _ hj))
      (Nat.lt_of_succ_lt_succ hn)]
    refine congrArg some (funext fun j => ?_)
    rcases eq_or_ne j i with rfl | hne
    · rw [if_neg hi, if_pos (List.mem_cons_self ..), Function.update_self, he]
    · rw [Function.update_of_ne hne]
      by_cases hj : j ∈ rest
      · rw [if_pos hj, if_pos (List.mem_cons_of_mem _ hj)]
      · rw [if_neg hj, if_neg fun hmem => hj ((List.mem_cons.mp hmem).resolve_left hne)]

variable [Inhabited T]

/-- **The new elements** are constructed. -/
theorem construct_apply (totalSize newSize : ℕ) (temp : Entries T) (i : ℕ) :
    construct totalSize newSize temp i =
      if totalSize ≤ i ∧ i < newSize then some (newEntry i) else temp i := by
  have hfold (n : ℕ) : (List.range' totalSize n).foldl
      (fun temp i => Function.update temp i (some (newEntry i))) temp = fun i =>
        if totalSize ≤ i ∧ i < totalSize + n then some (newEntry i) else temp i := by
    induction n with
    | zero =>
      funext i
      rw [if_neg (by omega)]
      rfl
    | succ n ih =>
      rw [List.range'_concat, List.foldl_append, ih, List.foldl_cons, List.foldl_nil]
      funext i
      rcases eq_or_ne i (totalSize + 1 * n) with rfl | hne
      · rw [Function.update_self, if_pos (by omega)]
      · rw [Function.update_of_ne hne]
        exact if_congr (by omega) rfl rfl
  rw [construct, hfold]
  exact if_congr (by omega) rfl rfl

/-- The new entries, linked with each other and with the head of the free list. -/
def linked (totalSize newSize i : ℕ) : MapEntry T where
  next := if i + 1 = newSize then MapList.free.id else i + 1
  prev := if i = totalSize then MapList.free.id else i - 1
  extId := ⟨MapList.free.id, 0⟩
  intId := default
  free := false

/-- **The array after it has grown.** -/
def grown (newSize : ℕ) (s : ActiveMap T) : Entries T := fun i =>
  if s.totalSize ≤ i ∧ i < newSize then some (linked s.totalSize newSize i) else s.searchStructure i

theorem adjust_construct {s : ActiveMap T} {newSize : ℕ} (hlt : s.totalSize < newSize)
    (hle : newSize ≤ 2 ^ 32 - 2) :
    adjust (some s.totalSize) (fun e => { e with prev := MapList.free.id })
      (adjust (some (newSize - 1)) (fun e => { e with next := MapList.free.id })
        (construct s.totalSize newSize s.searchStructure)) = grown newSize s := by
  funext i
  have hlast : some (newSize - 1) = some i ↔ i + 1 = newSize := by
    rw [Option.some.injEq]
    omega
  have hfirst : some s.totalSize = some i ↔ i = s.totalSize := by
    rw [Option.some.injEq]
    exact eq_comm
  rw [adjust, adjust, construct_apply, grown, if_congr hlast rfl rfl, if_congr hfirst rfl rfl]
  by_cases hi : s.totalSize ≤ i ∧ i < newSize
  · have hnext : (i + 1) % 2 ^ 32 = i + 1 := Nat.mod_eq_of_lt (by omega)
    have hprev : i ≠ s.totalSize → (i + 2 ^ 32 - 1) % 2 ^ 32 = i - 1 := by omega
    rw [if_pos hi, if_pos hi, linked, newEntry, hnext]
    split_ifs with h₁ h₂ h₂
    · rfl
    · rfl
    · rw [hprev h₁]
      rfl
    · rw [hprev h₁]
  · rw [if_neg hi, if_neg hi, if_neg (by omega), if_neg (by omega)]

/-- The free list behind the growth. -/
theorem isList_grown {s : ActiveMap T} {newSize : ℕ} (hle : newSize ≤ 2 ^ 32 - 2) :
    IsList (nextLinks .free (grown newSize s)) (prevLinks .free (grown newSize s))
      (List.range' s.totalSize (newSize - s.totalSize)) := by
  have hid : MapList.free.id = 2 ^ 32 - 1 := rfl
  refine ⟨List.nodup_range', fun l₁ i l₂ heq => ?_, fun l₁ i l₂ heq => ?_⟩
  all_goals
    obtain ⟨k, hk, rfl, hrest⟩ := List.range'_eq_append_iff.mp heq
    obtain ⟨rfl, hpos, rfl⟩ := List.range'_eq_cons_iff.mp hrest.symm
    have hi : s.totalSize ≤ s.totalSize + k * 1 ∧ s.totalSize + k * 1 < newSize := by omega
  · rw [nextLinks, grown, if_pos hi, Option.map_some, List.head?_range', linked]
    refine congrArg some ?_
    dsimp only
    rw [toLink]
    split_ifs <;> first | rfl | omega
  · rw [prevLinks, grown, if_pos hi, Option.map_some, List.getLast?_range', linked]
    refine congrArg some ?_
    dsimp only
    rw [toLink]
    split_ifs <;> first | rfl | omega | (refine congrArg some ?_; omega)

/-! ### `resize_i` and `next_free` -/

/-- The size after the growth is larger, and no slot has the index of a list. -/
def CanGrow (s : ActiveMap T) : Prop := s.totalSize < s.newSize ∧ s.newSize ≤ 2 ^ 32 - 2

/-- **What `next_free` finds**: the first slot of the free list, unless there is no memory. -/
def Finds (lazy memory : Bool) (s t : ActiveMap T) (r : Option ℕ) : Prop :=
  Keeps s t ∧ ((∃ slot rest occ, r = some slot ∧ Lists lazy t (slot :: rest) occ) ∨
    memory = false ∧ r = none ∧ ∃ free occ, Lists lazy t free occ)

namespace Lists

variable {lazy : Bool} {s : ActiveMap T} {free occ : List ℕ}

/-- **The array grows**: the entries are copied, and the new slots are free. -/
theorem resize (h : Lists lazy s [] occ) {newSize : ℕ} (hlt : s.totalSize < newSize)
    (hle : newSize ≤ 2 ^ 32 - 2) : ∃ t, s.resize true newSize = some (t, 0) ∧
      Lists lazy t (List.range' s.totalSize (newSize - s.totalSize)) occ ∧ Keeps s t ∧
      t.totalSize = newSize := by
  have hocc : ∀ {i}, i ∈ occ ↔ i < s.totalSize := h.mem_iff
  have hnone : ∀ i, i ∉ occ → s.searchStructure i = none := fun i hi =>
    Option.not_isSome_iff_eq_none.mp fun hsome => hi (hocc.mpr ((h.isSome i).mp hsome))
  have hlength := h.length_add
  rw [List.length_nil, Nat.zero_add] at hlength
  -- the copies
  have hcopy : copyLoop s.searchStructure newSize .occupied s.turns s.occupiedList.next
      (fun _ => none) = some s.searchStructure := by
    have hhead : s.occupiedList.next = occ.head?.getD MapList.occupied.id := h.occCircular.next_head
    rw [hhead]
    have hcircular : Circular s .occupied ([] ++ occ) := h.occCircular
    refine (copyLoop_spec hcircular (fun i hi => ⟨(h.slots i hi).1, (h.slots i hi).2,
      (hocc.mp hi).trans hlt⟩) (by rw [turns]; omega) _).trans ?_
    refine congrArg some (funext fun i => ?_)
    split_ifs with hi
    · rfl
    · exact (hnone i hi).symm
  have hcopy' : copyLoop s.searchStructure newSize .free s.turns s.freeList.next
      s.searchStructure = some s.searchStructure := by
    have hhead : s.freeList.next = MapList.free.id := h.freeCircular.next_head
    rw [hhead]
    exact if_pos rfl
  -- the ends of the new list
  have hmod : (newSize + 2 ^ 32 - 1) % 2 ^ 32 = newSize - 1 := by omega
  have hnew : ∀ i, s.totalSize ≤ i → i < newSize →
      (construct s.totalSize newSize s.searchStructure i).isSome := by
    intro i hge hi
    rw [construct_apply, if_pos ⟨hge, hi⟩]
    rfl
  obtain ⟨u, hu, huentries, huhead, hutotal, hucur⟩ := @modify_spec _
    { s with
      searchStructure := construct s.totalSize newSize s.searchStructure
      freeList := ⟨s.totalSize, newSize - 1⟩ } (newSize - 1) (hnew _ (by omega) (by omega))
    fun e => { e with next := MapList.free.id }
  obtain ⟨v, hv, hventries, hvhead, hvtotal, hvcur⟩ := @modify_spec _ u s.totalSize
    (by rw [huentries, isSome_adjust]; exact hnew _ le_rfl hlt)
    fun e => { e with prev := MapList.free.id }
  have hentries : v.searchStructure = grown newSize s := by
    rw [hventries, huentries]
    exact adjust_construct hlt hle
  have hfreeList : v.freeList = ⟨s.totalSize, newSize - 1⟩ :=
    (hvhead .free).trans (huhead .free)
  have hoccList : v.occupiedList = s.occupiedList := (hvhead .occupied).trans (huhead .occupied)
  have hold : ∀ i, i < s.totalSize → v.searchStructure i = s.searchStructure i := fun i hi => by
    rw [hentries, grown, if_neg (by omega)]
  have hfresh : ∀ i e, ¬i < s.totalSize → v.searchStructure i = some e →
      e = linked s.totalSize newSize i ∧ i < newSize := by
    intro i e hi he
    rw [hentries, grown] at he
    split_ifs at he with hnew
    · exact ⟨(Option.some.inj he).symm, hnew.2⟩
    · cases (hnone i fun hmem => hi (hocc.mp hmem)).symm.trans he
  refine ⟨{ v with totalSize := newSize }, ?_, ⟨hle, fun i => ?_, ⟨?_, ?_, ?_⟩, ⟨?_, ?_, ?_⟩, ?_,
    ?_, ?_⟩, ⟨hvcur.trans hucur, hlt.le, ?_, ?_⟩, rfl⟩
  · rw [ActiveMap.resize, if_pos rfl, hcopy, Option.bind_eq_bind, Option.bind_some, hcopy',
      Option.bind_eq_bind, Option.bind_some, hmod]
    simp only [hu, hv, Option.bind_some]
    rfl
  · dsimp only
    rw [hentries, grown]
    split_ifs with hi
    · exact ⟨fun _ => hi.2, fun _ => rfl⟩
    · rw [h.isSome]
      omega
  · dsimp only
    rw [hentries]
    exact isList_grown hle
  · change v.freeList.next = _
    rw [hfreeList, List.head?_range', if_neg (by omega)]
    rfl
  · change v.freeList.prev = _
    rw [hfreeList, List.getLast?_range', if_neg (by omega)]
    change newSize - 1 = s.totalSize + (newSize - s.totalSize) - 1
    omega
  · refine h.occCircular.isList.congr (fun i hi => ?_) fun i hi => ?_
    · exact nextLinks_of_eq (hold i (hocc.mp hi))
    · exact prevLinks_of_eq (hold i (hocc.mp hi))
  · change v.occupiedList.next = _
    rw [hoccList]
    exact h.occCircular.next_head
  · change v.occupiedList.prev = _
    rw [hoccList]
    exact h.occCircular.prev_head
  · have hperm : occ.Perm (List.range s.totalSize) := h.perm
    refine List.perm_append_comm.trans ((hperm.append_right _).trans ?_)
    rw [List.range_eq_range', List.range_eq_range']
    have happend := @List.range'_append_1 0 s.totalSize (newSize - s.totalSize)
    rw [Nat.zero_add, Nat.add_sub_cancel' hlt.le] at happend
    rw [happend]
  · intro i hi e he
    have hge := (List.mem_range'_1.mp hi).1
    rw [(hfresh i e (Nat.not_lt.mpr hge) he).1]
    exact ⟨rfl, rfl⟩
  · intro i hi e he
    exact h.occEntry i hi e ((hold i (hocc.mp hi)).symm.trans he)
  · intro i k x b hd
    obtain ⟨e, he, -⟩ := entryData_eq_some.mp hd
    have hi : i < s.totalSize := (h.isSome i).mp (Option.isSome_iff_exists.mpr ⟨e, he⟩)
    rw [entryData, he] at hd
    refine ⟨b, ?_⟩
    rw [entryData]
    dsimp only
    rw [hold i hi, he]
    exact hd
  · intro i k x b hnone' hd
    obtain ⟨e, he, heq⟩ := entryData_eq_some.mp hd
    have hi : ¬i < s.totalSize := fun hi => by
      have hsome := (h.isSome i).mpr hi
      rw [← isSome_entryData, hnone'] at hsome
      cases hsome
    rw [(hfresh i e hi he).1] at heq
    exact (congrArg Prod.fst heq).symm

theorem nextFreeOfNew (h : Lists lazy s [] occ) {memory : Bool}
    (hgrow : memory = true → CanGrow s) :
    ∃ t r, s.nextFreeOfNew memory = some (t, r) ∧ Finds lazy memory s t r := by
  cases memory with
  | false =>
    exact ⟨s, none, rfl, Keeps.refl s, Or.inr ⟨rfl, rfl, [], occ, h⟩⟩
  | true =>
    obtain ⟨hlt, hle⟩ := hgrow rfl
    obtain ⟨t, ht, hlists, hkeeps, -⟩ := h.resize hlt hle
    obtain ⟨k, hk⟩ := Nat.exists_eq_add_of_lt hlt
    have hrange : s.newSize - s.totalSize = k + 1 := by omega
    rw [hrange, List.range'_succ] at hlists
    have hnext : t.freeList.next = s.totalSize := hlists.freeCircular.next_head
    refine ⟨t, some s.totalSize, ?_, hkeeps, Or.inl ⟨_, _, occ, rfl, hlists⟩⟩
    rw [ActiveMap.nextFreeOfNew, ht, ← hnext]
    rfl

/-- **`next_free`.** -/
theorem nextFree (h : Lists lazy s free occ) {memory : Bool}
    (hgrow : memory = true → (∀ i e, s.searchStructure i = some e → e.extId.slotIndex = i) →
      CanGrow s) :
    ∃ t r, s.nextFree lazy memory = some (t, r) ∧ Finds lazy memory s t r := by
  rcases h.freeList_next with ⟨hne, rest, hfree⟩ | ⟨heq, rfl⟩
  · exact ⟨s, some s.freeList.next, if_pos hne, Keeps.refl s,
      Or.inl ⟨_, rest, occ, rfl, hfree ▸ h⟩⟩
  · rw [ActiveMap.nextFree, if_neg (not_not.mpr heq)]
    cases lazy with
    | false =>
      refine h.nextFreeOfNew fun hm => hgrow hm fun i e he => h.bound_of_nil (fun i hi e he => ?_) he
      rcases h.occEntry i hi e he with ⟨hflag, -⟩ | ⟨hlazy, -⟩
      · exact hflag
      · cases hlazy
    | true =>
      have hhead : s.occupiedList.next = occ.head?.getD MapList.occupied.id :=
        h.occCircular.next_head
      have hturns : occ.length < s.turns := by
        have hlength := h.length_add
        rw [List.length_nil, Nat.zero_add] at hlength
        exact hlength.trans_lt (Nat.lt_succ_self _)
      obtain ⟨t, free', occ', ht, hlists, hkeeps, htotal, hflags⟩ :=
        @Lists.moveAllLoop _ _ _ _ [] occ _ h hturns fun i hi => absurd hi List.not_mem_nil
      rw [if_pos rfl, moveAllFreeSlotsFromOccupiedList, hhead, ht, Option.bind_some]
      rcases hlists.freeList_next with ⟨hne, rest, hfree⟩ | ⟨heq, rfl⟩
      · exact ⟨t, some t.freeList.next, if_pos hne, hkeeps,
          Or.inl ⟨_, rest, occ', rfl, hfree ▸ hlists⟩⟩
      · rw [if_neg (not_not.mpr heq)]
        have hgrow' : memory = true → CanGrow t := fun hm => by
          have hcan := hgrow hm fun i e he => by
            obtain ⟨b, hb⟩ := hkeeps.old i _ _ _ (entryData_eq_some.mpr ⟨e, he, rfl⟩)
            obtain ⟨e', he', heq⟩ := entryData_eq_some.mp hb
            have hext : e'.extId = e.extId := congrArg Prod.fst heq
            rw [← hext]
            exact hlists.bound_of_nil hflags he'
          rwa [CanGrow, newSize, htotal]
        obtain ⟨u, r, hu, hkeeps', hcase⟩ := hlists.nextFreeOfNew hgrow'
        exact ⟨u, r, hu, hkeeps.trans hkeeps', hcase⟩

end Lists

/-- **`open`** makes a map all of whose slots are free. -/
theorem openMap_spec {size : ℕ} (hpos : 1 ≤ size) (hle : size ≤ 2 ^ 32 - 2) (lazy : Bool) :
    ∃ t : ActiveMap T, openMap size = some t ∧ Lists lazy t (List.range size) [] ∧
      Keeps closed t ∧ t.totalSize = size := by
  have hnil (l : MapList) : Circular (closed : ActiveMap T) l [] :=
    ⟨isList_nil _ _, by cases l <;> rfl, by cases l <;> rfl⟩
  have hclosed : Lists lazy (closed : ActiveMap T) [] [] := by
    refine ⟨Nat.zero_le _, fun i => ⟨fun h => ?_, fun h => absurd h (Nat.not_lt_zero i)⟩, hnil .free,
      hnil .occupied, List.Perm.refl _, ?_, ?_⟩
    · cases h
    · exact fun i hi => absurd hi List.not_mem_nil
    · exact fun i hi => absurd hi List.not_mem_nil
  obtain ⟨t, ht, hlists, hkeeps, htotal⟩ := hclosed.resize hpos hle
  refine ⟨t, ?_, ?_, hkeeps, htotal⟩
  · rw [openMap, ht]
    rfl
  · rw [List.range_eq_range']
    exact hlists

end ActiveMap

end AceTao
