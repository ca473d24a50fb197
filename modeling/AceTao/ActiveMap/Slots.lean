import AceTao.ActiveMap.Lists
import Mathlib.Data.List.Perm.Basic
import Mathlib.Order.Basic
import Mathlib.Order.Nat

/-!
# Finding a free slot

The two lists hold all slots of the array (`ActiveMap.Lists`). `next_free` finds a slot at the
beginning of the free list, where it may first move slots there from the occupied list or copy the
entries into a larger array (`ActiveMap.nextFree_spec`): no key and no value is lost.
-/

namespace AceTao

namespace ActiveMap

open DoublyLinked

variable {T : Type}

/-- **An entry of the occupied list** is bound, or it waits to be moved to the free list. -/
def OccupiedEntry (lazy : Bool) (i : ℕ) (e : MapEntry T) : Prop :=
  e.free = false ∧ e.extId.slotIndex = i ∨
    lazy = true ∧ e.free = true ∧ e.extId.slotIndex = MapList.free.id

/-- **The lists hold all slots.** -/
structure Lists (lazy : Bool) (s : ActiveMap T) (free occ : List ℕ) : Prop where
  le : s.totalSize ≤ 2 ^ 32 - 2
  isSome : ∀ i, (s.searchStructure i).isSome = true ↔ i < s.totalSize
  freeCircular : Circular s .free free
  occCircular : Circular s .occupied occ
  perm : (free ++ occ).Perm (List.range s.totalSize)
  freeEntry : ∀ i ∈ free, ∀ e, s.searchStructure i = some e →
    e.free = false ∧ e.extId.slotIndex = MapList.free.id
  occEntry : ∀ i ∈ occ, ∀ e, s.searchStructure i = some e → OccupiedEntry lazy i e

/-- **What an entry holds** besides the links. -/
def entryData (s : ActiveMap T) (i : ℕ) : Option (MapKey × T × Bool) :=
  (s.searchStructure i).map fun e => (e.extId, e.intId, e.free)

theorem entryData_eq_some {s : ActiveMap T} {i : ℕ} {d : MapKey × T × Bool} :
    s.entryData i = some d ↔
      ∃ e, s.searchStructure i = some e ∧ (e.extId, e.intId, e.free) = d :=
  Option.map_eq_some_iff

theorem isSome_entryData (s : ActiveMap T) (i : ℕ) :
    (s.entryData i).isSome = (s.searchStructure i).isSome := Option.isSome_map

theorem SameData.entryData {s t : ActiveMap T} (h : SameData s t) : t.entryData = s.entryData := by
  funext i
  rw [ActiveMap.entryData, ActiveMap.entryData]
  rcases h.entries i with ⟨hs, ht⟩ | ⟨e, e', hs, ht, hext, hint, hfree⟩
  · rw [hs, ht]
  · rw [hs, ht, Option.map_some, Option.map_some, hext, hint, hfree]

theorem entryData_adjust {s t : ActiveMap T} {i : ℕ} {f : MapEntry T → MapEntry T}
    (ht : t.searchStructure = adjust (some i) f s.searchStructure) {e : MapEntry T}
    (he : s.searchStructure i = some e) :
    t.entryData = Function.update s.entryData i
      (some ((f e).extId, (f e).intId, (f e).free)) := by
  funext j
  rw [entryData, ht]
  rcases eq_or_ne j i with rfl | hne
  · rw [Function.update_self, adjust, if_pos rfl, he]
    rfl
  · rw [Function.update_of_ne hne, adjust_of_ne (by simpa using hne.symm)]
    rfl

/-- **No key and no value is lost**; new entries have the default key. -/
structure Keeps (s t : ActiveMap T) : Prop where
  curSize : t.curSize = s.curSize
  totalSize : s.totalSize ≤ t.totalSize
  old : ∀ i k x b, s.entryData i = some (k, x, b) → ∃ b', t.entryData i = some (k, x, b')
  new : ∀ i k x b, s.entryData i = none → t.entryData i = some (k, x, b) →
    k = ⟨MapList.free.id, 0⟩

theorem Keeps.refl (s : ActiveMap T) : Keeps s s :=
  ⟨rfl, le_rfl, fun _ _ _ b h => ⟨b, h⟩, fun _ _ _ _ hnone h => by cases hnone.symm.trans h⟩

theorem Keeps.trans {s t u : ActiveMap T} (h : Keeps s t) (h' : Keeps t u) : Keeps s u := by
  refine ⟨h'.curSize.trans h.curSize, h.totalSize.trans h'.totalSize, fun i k x b hs => ?_,
    fun i k x b hnone hu => ?_⟩
  · obtain ⟨b', ht⟩ := h.old i k x b hs
    exact h'.old i k x b' ht
  · rcases ht : t.entryData i with _ | d
    · exact h'.new i k x b ht hu
    · obtain ⟨k', x', b'⟩ := d
      obtain ⟨c, hc⟩ := h'.old i k' x' b' ht
      cases hc.symm.trans hu
      exact h.new i _ _ _ hnone ht

/-- A change of the flag of an entry. -/
theorem Keeps.of_update {s t : ActiveMap T} {i : ℕ} {k : MapKey} {x : T} {b b' : Bool}
    (hcur : t.curSize = s.curSize) (htotal : t.totalSize = s.totalSize)
    (hs : s.entryData i = some (k, x, b))
    (ht : t.entryData = Function.update s.entryData i (some (k, x, b'))) : Keeps s t := by
  refine ⟨hcur, htotal.ge, fun j k' x' c hj => ?_, fun j k' x' c hnone hj => ?_⟩
  · rw [ht]
    rcases eq_or_ne j i with rfl | hne
    · cases hj.symm.trans hs
      exact ⟨b', Function.update_self ..⟩
    · exact ⟨c, (Function.update_of_ne hne ..).trans hj⟩
  · rw [ht] at hj
    rcases eq_or_ne j i with rfl | hne
    · cases hnone.symm.trans hs
    · rw [Function.update_of_ne hne] at hj
      cases hnone.symm.trans hj

namespace Lists

variable {lazy : Bool} {s : ActiveMap T} {free occ : List ℕ}

theorem nodup (h : Lists lazy s free occ) : (free ++ occ).Nodup :=
  h.perm.nodup_iff.mpr List.nodup_range

theorem mem_iff (h : Lists lazy s free occ) {i : ℕ} : i ∈ free ++ occ ↔ i < s.totalSize :=
  h.perm.mem_iff.trans List.mem_range

theorem length_add (h : Lists lazy s free occ) : free.length + occ.length = s.totalSize := by
  rw [← List.length_append, h.perm.length_eq, List.length_range]

theorem slots (h : Lists lazy s free occ) : ∀ i ∈ free ++ occ,
    i < 2 ^ 32 - 2 ∧ (s.searchStructure i).isSome := by
  intro i hi
  have hlt := h.mem_iff.mp hi
  exact ⟨hlt.trans_le h.le, (h.isSome i).mpr hlt⟩

theorem slots_comm (h : Lists lazy s free occ) : ∀ i ∈ occ ++ free,
    i < 2 ^ 32 - 2 ∧ (s.searchStructure i).isSome :=
  fun i hi => h.slots i (List.mem_append.mpr (List.mem_append.mp hi).symm)

theorem nodup_comm (h : Lists lazy s free occ) : (occ ++ free).Nodup :=
  (List.perm_append_comm.nodup_iff).mp h.nodup

/-- **A slot is moved** to the occupied list. -/
theorem moveToOccupied {a b : List ℕ} {slot : ℕ} (h : Lists lazy s (a ++ slot :: b) occ) :
    ∃ t, s.moveFromFreeListToOccupiedList slot = some t ∧ Circular t .free (a ++ b) ∧
      Circular t .occupied (slot :: occ) ∧ SameData s t :=
  sharedMove_spec h.slots h.nodup (by decide) h.freeCircular h.occCircular

/-- **A slot is moved** to the free list. -/
theorem moveToFree {a b : List ℕ} {slot : ℕ} (h : Lists lazy s free (a ++ slot :: b)) :
    ∃ t, s.moveFromOccupiedListToFreeList slot = some t ∧ Circular t .occupied (a ++ b) ∧
      Circular t .free (slot :: free) ∧ SameData s t :=
  sharedMove_spec h.slots_comm h.nodup_comm (by decide) h.occCircular h.freeCircular

/-- **All slots are bound** when the free list is empty and no slot is marked. -/
theorem bound_of_nil (h : Lists lazy s [] occ)
    (hflags : ∀ i ∈ occ, ∀ e, s.searchStructure i = some e → e.free = false) {i : ℕ}
    {e : MapEntry T} (he : s.searchStructure i = some e) : e.extId.slotIndex = i := by
  have hi : i ∈ occ := h.mem_iff.mpr ((h.isSome i).mp (Option.isSome_iff_exists.mpr ⟨e, he⟩))
  rcases h.occEntry i hi e he with ⟨-, hindex⟩ | ⟨-, hmarked, -⟩
  · exact hindex
  · cases (hflags i hi e he).symm.trans hmarked

theorem freeList_next (h : Lists lazy s free occ) :
    s.freeList.next ≠ MapList.free.id ∧ (∃ rest, free = s.freeList.next :: rest) ∨
      s.freeList.next = MapList.free.id ∧ free = [] := by
  have hnext : s.freeList.next = free.head?.getD MapList.free.id := h.freeCircular.next_head
  rcases free with _ | ⟨slot, rest⟩
  · exact Or.inr ⟨hnext, rfl⟩
  · have hslot : s.freeList.next = slot := hnext
    rw [hslot]
    exact Or.inl ⟨MapList.ne_id (h.slots slot (by simp)).1 .free, rest, rfl⟩

end Lists

/-- A change of an entry that keeps the links of all. -/
theorem Circular.modify {s t : ActiveMap T} {l : MapList} {xs : List ℕ} (h : Circular s l xs)
    {i : ℕ} {f : MapEntry T → MapEntry T}
    (ht : t.searchStructure = adjust (some i) f s.searchStructure)
    (hf : ∀ e, (f e).next = e.next ∧ (f e).prev = e.prev) (hhead : t.head l = s.head l) :
    Circular t l xs := by
  have hmap (g : MapEntry T → ℕ) (hg : ∀ e, g (f e) = g e) (x : ℕ) :
      (t.searchStructure x).map (fun e => toLink l (g e)) =
        (s.searchStructure x).map fun e => toLink l (g e) := by
    rw [ht, adjust]
    split_ifs
    · rw [Option.map_map]
      exact congrArg (Option.map · (s.searchStructure x))
        (funext fun e => congrArg (toLink l) (hg e))
    · rfl
  exact ⟨h.isList.congr (fun x _ => hmap MapEntry.next (fun e => (hf e).1) x)
    (fun x _ => hmap MapEntry.prev (fun e => (hf e).2) x), hhead ▸ h.next_head,
    hhead ▸ h.prev_head⟩

/-! ### Changing a slot -/

/-- **One slot is changed**, and may be on another list. -/
theorem Lists.change {lazy : Bool} {s t : ActiveMap T} {free occ free' occ' : List ℕ}
    (h : Lists lazy s free occ) {slot : ℕ} {k : MapKey} {x : T} {b : Bool}
    (hslot : slot < s.totalSize)
    (hdata : t.entryData = Function.update s.entryData slot (some (k, x, b)))
    (htotal : t.totalSize = s.totalSize) (hfree : Circular t .free free')
    (hocc : Circular t .occupied occ') (hperm : (free' ++ occ').Perm (free ++ occ))
    (hfreesub : ∀ j ∈ free', j ≠ slot → j ∈ free) (hoccsub : ∀ j ∈ occ', j ≠ slot → j ∈ occ)
    (hslotfree : slot ∈ free' → b = false ∧ k.slotIndex = MapList.free.id)
    (hslotocc : slot ∈ occ' → b = false ∧ k.slotIndex = slot ∨
      lazy = true ∧ b = true ∧ k.slotIndex = MapList.free.id) : Lists lazy t free' occ' := by
  have hat : ∀ e, t.searchStructure slot = some e → e.extId = k ∧ e.free = b := by
    intro e he
    have hd := entryData_eq_some.mpr ⟨e, he, rfl⟩
    rw [hdata, Function.update_self, Option.some.injEq] at hd
    cases hd
    exact ⟨rfl, rfl⟩
  have hother : ∀ j e, j ≠ slot → t.searchStructure j = some e →
      ∃ f, s.searchStructure j = some f ∧ e.extId = f.extId ∧ e.free = f.free := by
    intro j e hne he
    have hd := entryData_eq_some.mpr ⟨e, he, rfl⟩
    rw [hdata, Function.update_of_ne hne] at hd
    obtain ⟨f, hf, heq⟩ := entryData_eq_some.mp hd
    exact ⟨f, hf, (congrArg Prod.fst heq).symm, (congrArg (fun d => d.2.2) heq).symm⟩
  refine ⟨htotal ▸ h.le, fun j => ?_, hfree, hocc, htotal ▸ hperm.trans h.perm, fun j hj e he => ?_,
    fun j hj e he => ?_⟩
  · rw [← isSome_entryData, hdata, htotal]
    rcases eq_or_ne j slot with rfl | hne
    · rw [Function.update_self]
      exact ⟨fun _ => hslot, fun _ => rfl⟩
    · rw [Function.update_of_ne hne, isSome_entryData]
      exact h.isSome j
  · rcases eq_or_ne j slot with rfl | hne
    · obtain ⟨rfl, rfl⟩ := hat e he
      exact hslotfree hj
    · obtain ⟨f, hf, hext, hflag⟩ := hother j e hne he
      rw [hext, hflag]
      exact h.freeEntry j (hfreesub j hj hne) f hf
  · rcases eq_or_ne j slot with rfl | hne
    · obtain ⟨rfl, rfl⟩ := hat e he
      exact hslotocc hj
    · obtain ⟨f, hf, hext, hflag⟩ := hother j e hne he
      rw [OccupiedEntry, hext, hflag]
      exact h.occEntry j (hoccsub j hj hne) f hf

/-! ### Moving the slots that were unbound -/

theorem Circular.next_eq {s : ActiveMap T} {l : MapList} {a b : List ℕ} {i : ℕ}
    (h : Circular s l (a ++ i :: b)) {e : MapEntry T} (he : s.searchStructure i = some e) :
    e.next = b.head?.getD l.id := by
  have hlink := h.isList.next_eq a i b rfl
  rw [nextLinks, he, Option.map_some, Option.some.injEq] at hlink
  exact eq_getD_of_toLink hlink

theorem getD_head?_ne {l : MapList} {i : ℕ} {b : List ℕ} (hi : i < 2 ^ 32 - 2) :
    ¬(i :: b).head?.getD l.id = l.id := MapList.ne_id hi l

/-- **A marked slot** is moved to the free list, and is no longer marked. -/
theorem Lists.moveMarked {lazy : Bool} {s : ActiveMap T} {free a b : List ℕ} {i : ℕ}
    (h : Lists lazy s free (a ++ i :: b)) {e : MapEntry T} (he : s.searchStructure i = some e)
    (hfree : e.free = true) : ∃ u t, s.modify i (fun e => { e with free := false }) = some u ∧
      u.moveFromOccupiedListToFreeList i = some t ∧ Lists lazy t (i :: free) (a ++ b) ∧
      Keeps s t ∧ t.totalSize = s.totalSize ∧ (∀ j ∈ a ++ b, ∀ e', t.searchStructure j = some e' →
        ∃ e, s.searchStructure j = some e ∧ e'.free = e.free) := by
  have hmem : i ∈ free ++ (a ++ i :: b) := by simp
  have hnodup := h.nodup
  have hdisj := List.nodup_append.mp hnodup
  have hmid := List.nodup_cons.mp (List.nodup_middle.mp hdisj.2.1)
  obtain ⟨u, hu, hentries, hhead, htotal, hcur⟩ := modify_spec (h.slots i hmem).2 fun e =>
    { e with free := false }
  have hslots : ∀ j ∈ (a ++ i :: b) ++ free, j < 2 ^ 32 - 2 ∧ (u.searchStructure j).isSome := by
    intro j hj
    rw [hentries, isSome_adjust]
    exact h.slots_comm j hj
  obtain ⟨t, ht, hocc, hfreelist, hdata⟩ := sharedMove_spec hslots h.nodup_comm (by decide)
    (h.occCircular.modify hentries (fun _ => ⟨rfl, rfl⟩) (hhead _))
    (h.freeCircular.modify hentries (fun _ => ⟨rfl, rfl⟩) (hhead _))
  have hupdate : t.entryData = Function.update s.entryData i (some (e.extId, e.intId, false)) :=
    hdata.entryData.trans (entryData_adjust hentries he)
  have hkey : e.extId.slotIndex = MapList.free.id := by
    rcases h.occEntry i (by simp) e he with ⟨hbound, -⟩ | ⟨-, -, hindex⟩
    · cases hbound.symm.trans hfree
    · exact hindex
  have htotal' : t.totalSize = s.totalSize := hdata.totalSize.trans htotal
  refine ⟨u, t, hu, ht, ?_, ?_, htotal', fun j hj e' he' => ?_⟩
  · refine h.change (h.mem_iff.mp hmem) hupdate htotal' hfreelist hocc ?_ (fun j hj hne => ?_)
      (fun j hj _ => ?_) (fun _ => ⟨rfl, hkey⟩) fun hi => absurd hi hmid.1
    · rw [List.cons_append, ← List.append_assoc, ← List.append_assoc]
      exact List.perm_middle.symm
    · exact (List.mem_cons.mp hj).resolve_left hne
    · simpa using Or.imp_right Or.inr (List.mem_append.mp hj)
  · exact Keeps.of_update (hdata.curSize.trans hcur) htotal'
      (entryData_eq_some.mpr ⟨e, he, rfl⟩) hupdate
  · have hne : j ≠ i := fun heq => hmid.1 (heq ▸ hj)
    have hd := entryData_eq_some.mpr ⟨e', he', rfl⟩
    rw [hupdate, Function.update_of_ne hne] at hd
    obtain ⟨f, hf, heq⟩ := entryData_eq_some.mp hd
    exact ⟨f, hf, (congrArg (fun d => d.2.2) heq).symm⟩

/-- **The loop over the occupied list**: behind it, no slot of this list is marked. -/
theorem Lists.moveAllLoop {lazy : Bool} {s : ActiveMap T} {free kept rest : List ℕ} {n : ℕ}
    (h : Lists lazy s free (kept ++ rest)) (hn : rest.length < n)
    (hkept : ∀ i ∈ kept, ∀ e, s.searchStructure i = some e → e.free = false) :
    ∃ t free' occ', ActiveMap.moveAllLoop n (rest.head?.getD MapList.occupied.id) s = some t ∧
      Lists lazy t free' occ' ∧ Keeps s t ∧ t.totalSize = s.totalSize ∧
      ∀ i ∈ occ', ∀ e, t.searchStructure i = some e → e.free = false := by
  induction rest generalizing s free kept n with
  | nil =>
    obtain ⟨n, rfl⟩ := Nat.exists_eq_succ_of_ne_zero (Nat.ne_of_gt hn)
    rw [List.append_nil] at h
    exact ⟨s, free, kept, if_pos rfl, h, Keeps.refl s, rfl, hkept⟩
  | cons i rest ih =>
    obtain ⟨n, rfl⟩ := Nat.exists_eq_succ_of_ne_zero (Nat.ne_of_gt (Nat.zero_lt_of_lt hn))
    obtain ⟨hlt, hsome⟩ := h.slots i (by simp)
    obtain ⟨e, he⟩ := Option.isSome_iff_exists.mp hsome
    have hnext := h.occCircular.next_eq he
    have hn' : rest.length < n := Nat.lt_of_succ_lt_succ hn
    have hloop : ActiveMap.moveAllLoop (n + 1) ((i :: rest).head?.getD MapList.occupied.id) s =
        if e.free then
          (s.modify i fun e => { e with free := false }).bind fun s =>
            (s.moveFromOccupiedListToFreeList i).bind fun s => ActiveMap.moveAllLoop n e.next s
        else ActiveMap.moveAllLoop n e.next s := by
      rw [ActiveMap.moveAllLoop, if_neg (getD_head?_ne hlt), List.head?_cons, Option.getD_some, he]
    rw [hloop, hnext]
    by_cases hfree : e.free = true
    · obtain ⟨u, t, hu, ht, hlists, hkeeps, htotal, hflags⟩ := h.moveMarked he hfree
      have hkept' : ∀ j ∈ kept, ∀ e', t.searchStructure j = some e' → e'.free = false := by
        intro j hj e' he'
        obtain ⟨f, hf, hflag⟩ := hflags j (List.mem_append_left _ hj) e' he'
        exact hflag.trans (hkept j hj f hf)
      obtain ⟨v, free', occ', hv, hlists', hkeeps', htotal', hflags'⟩ := ih hlists hn' hkept'
      refine ⟨v, free', occ', ?_, hlists', hkeeps.trans hkeeps', htotal'.trans htotal, hflags'⟩
      rw [if_pos hfree, hu, Option.bind_some, ht, Option.bind_some, hv]
    · rw [if_neg hfree]
      have hsplit : kept ++ i :: rest = (kept ++ [i]) ++ rest := by simp
      rw [hsplit] at h
      refine ih h hn' fun j hj e' he' => ?_
      rcases List.mem_append.mp hj with hj | hj
      · exact hkept j hj e' he'
      · cases List.mem_singleton.mp hj
        cases he'.symm.trans he
        exact Bool.not_eq_true _ |>.mp hfree

end ActiveMap

end AceTao
