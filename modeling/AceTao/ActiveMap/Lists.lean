import AceTao.ActiveMap.Basic

/-!
# The circular lists of `ACE_Active_Map_Manager`

The slots of a list are linked in both directions from the head of the list and back to it
(`ActiveMap.Circular`). Seen without the head, they are a doubly linked list whose last links are
the index of the head.

`shared_move` takes a slot out of one list and puts it at the beginning of another; nothing but
links changes (`ActiveMap.sharedMove_spec`).
-/

namespace AceTao

namespace ActiveMap

open DoublyLinked

variable {T : Type}

abbrev Entries (T : Type) := ℕ → Option (MapEntry T)

/-- A link, which leads out of the list where it is the index of the head. -/
def toLink (l : MapList) (i : ℕ) : Option ℕ := if i = l.id then none else some i

def nextLinks (l : MapList) (entries : Entries T) : Links ℕ := fun i =>
  (entries i).map fun entry => toLink l entry.next

def prevLinks (l : MapList) (entries : Entries T) : Links ℕ := fun i =>
  (entries i).map fun entry => toLink l entry.prev

/-- **A circular list**: its slots are linked in both directions, and with the head. -/
structure Circular (s : ActiveMap T) (l : MapList) (xs : List ℕ) : Prop where
  isList : IsList (nextLinks l s.searchStructure) (prevLinks l s.searchStructure) xs
  next_head : (s.head l).next = xs.head?.getD l.id
  prev_head : (s.head l).prev = xs.getLast?.getD l.id

/-- **Only links are different.** -/
def SameEntries (entries entries' : Entries T) : Prop :=
  ∀ i, entries i = none ∧ entries' i = none ∨ ∃ e e', entries i = some e ∧ entries' i = some e' ∧
    e'.extId = e.extId ∧ e'.intId = e.intId ∧ e'.free = e.free

structure SameData (s t : ActiveMap T) : Prop where
  entries : SameEntries s.searchStructure t.searchStructure
  totalSize : t.totalSize = s.totalSize
  curSize : t.curSize = s.curSize

theorem SameEntries.refl (entries : Entries T) : SameEntries entries entries := by
  intro i
  rcases h : entries i with _ | e
  · exact Or.inl ⟨rfl, rfl⟩
  · exact Or.inr ⟨e, e, rfl, rfl, rfl, rfl, rfl⟩

theorem SameEntries.trans {entries entries' entries'' : Entries T}
    (h : SameEntries entries entries') (h' : SameEntries entries' entries'') :
    SameEntries entries entries'' := by
  intro i
  rcases h i with ⟨hs, ht⟩ | ⟨e, e', hs, ht, hext, hint, hfree⟩
  · rcases h' i with ⟨-, hu⟩ | ⟨f, f', ht', -⟩
    · exact Or.inl ⟨hs, hu⟩
    · cases ht.symm.trans ht'
  · rcases h' i with ⟨ht', -⟩ | ⟨f, f', ht', hu, hext', hint', hfree'⟩
    · cases ht.symm.trans ht'
    · cases ht.symm.trans ht'
      exact Or.inr ⟨e, f', hs, hu, hext'.trans hext, hint'.trans hint, hfree'.trans hfree⟩

theorem SameEntries.isSome {entries entries' : Entries T} (h : SameEntries entries entries')
    (i : ℕ) : (entries' i).isSome = (entries i).isSome := by
  rcases h i with ⟨hs, ht⟩ | ⟨e, e', hs, ht, -⟩
  · rw [ht, hs]
  · rw [ht, hs]
    rfl

/-! ### One link -/

/-- The entries with one of them changed, if there is one. -/
def adjust (o : Option ℕ) (f : MapEntry T → MapEntry T) (entries : Entries T) : Entries T :=
  fun i => if o = some i then (entries i).map f else entries i

theorem adjust_none (f : MapEntry T → MapEntry T) (entries : Entries T) :
    adjust none f entries = entries := rfl

theorem toLink_getD {l : MapList} {o : Option ℕ} (h : ∀ i ∈ o, i ≠ l.id) :
    toLink l (o.getD l.id) = o := by
  rcases o with _ | i
  · exact if_pos rfl
  · exact if_neg (h i rfl)

theorem isSome_adjust (o : Option ℕ) (f : MapEntry T → MapEntry T) (entries : Entries T) (i : ℕ) :
    (adjust o f entries i).isSome = (entries i).isSome := by
  rw [adjust]
  split_ifs
  · exact Option.isSome_map
  · rfl

theorem nextLinks_setNext (l : MapList) (o : Option ℕ) (n : ℕ) {entries : Entries T} {i : ℕ}
    (h : (entries i).isSome) :
    nextLinks l (adjust o (fun e => { e with next := n }) entries) i =
      if o = some i then some (toLink l n) else nextLinks l entries i := by
  obtain ⟨e, he⟩ := Option.isSome_iff_exists.mp h
  rw [nextLinks, nextLinks, adjust]
  split_ifs
  · rw [he]
    rfl
  · rfl

theorem prevLinks_setPrev (l : MapList) (o : Option ℕ) (n : ℕ) {entries : Entries T} {i : ℕ}
    (h : (entries i).isSome) :
    prevLinks l (adjust o (fun e => { e with prev := n }) entries) i =
      if o = some i then some (toLink l n) else prevLinks l entries i := by
  obtain ⟨e, he⟩ := Option.isSome_iff_exists.mp h
  rw [prevLinks, prevLinks, adjust]
  split_ifs
  · rw [he]
    rfl
  · rfl

/-- A change of the other link. -/
theorem nextLinks_setPrev (l : MapList) (o : Option ℕ) (n : ℕ) (entries : Entries T) :
    nextLinks l (adjust o (fun e => { e with prev := n }) entries) = nextLinks l entries := by
  funext i
  rw [nextLinks, nextLinks, adjust]
  split_ifs
  · exact Option.map_map ..
  · rfl

theorem prevLinks_setNext (l : MapList) (o : Option ℕ) (n : ℕ) (entries : Entries T) :
    prevLinks l (adjust o (fun e => { e with next := n }) entries) = prevLinks l entries := by
  funext i
  rw [prevLinks, prevLinks, adjust]
  split_ifs
  · exact Option.map_map ..
  · rfl

/-- A change elsewhere. -/
theorem adjust_of_ne {o : Option ℕ} {i : ℕ} (h : o ≠ some i) (f : MapEntry T → MapEntry T)
    (entries : Entries T) : adjust o f entries i = entries i := if_neg h

theorem modify_eq {s : ActiveMap T} {i : ℕ} (h : (s.searchStructure i).isSome)
    (f : MapEntry T → MapEntry T) : s.modify i f =
      some { s with searchStructure := adjust (some i) f s.searchStructure } := by
  obtain ⟨e, he⟩ := Option.isSome_iff_exists.mp h
  have hupdate : Function.update s.searchStructure i (some (f e)) =
      adjust (some i) f s.searchStructure := by
    funext j
    rcases eq_or_ne j i with rfl | hne
    · rw [Function.update_self, adjust, if_pos rfl, he]
      rfl
    · rw [Function.update_of_ne hne, adjust, if_neg (by simpa using hne.symm)]
  rw [modify, he, Option.map_some, hupdate]

theorem modify_spec {s : ActiveMap T} {i : ℕ} (h : (s.searchStructure i).isSome)
    (f : MapEntry T → MapEntry T) : ∃ t, s.modify i f = some t ∧
      t.searchStructure = adjust (some i) f s.searchStructure ∧ (∀ l, t.head l = s.head l) ∧
      t.totalSize = s.totalSize ∧ t.curSize = s.curSize :=
  ⟨_, modify_eq h f, rfl, fun l => by cases l <;> rfl, rfl, rfl⟩

/-- A change that keeps the data. -/
theorem SameEntries.adjust {entries entries' : Entries T} (h : SameEntries entries entries')
    {f : MapEntry T → MapEntry T}
    (hf : ∀ e, (f e).extId = e.extId ∧ (f e).intId = e.intId ∧ (f e).free = e.free)
    (o : Option ℕ) : SameEntries entries (adjust o f entries') := by
  refine h.trans fun i => ?_
  rw [ActiveMap.adjust]
  rcases hi : entries' i with _ | e
  · exact Or.inl ⟨rfl, by split_ifs <;> rfl⟩
  · split_ifs
    · exact Or.inr ⟨e, f e, rfl, rfl, hf e⟩
    · exact Or.inr ⟨e, e, rfl, rfl, rfl, rfl, rfl⟩

/-- A link of a list is set: that of a slot, or that of the head. -/
structure LinkSet (s : ActiveMap T) (l : MapList) (o : Option ℕ) (f : MapEntry T → MapEntry T)
    (g : ListHead → ListHead) (t : ActiveMap T) : Prop where
  entries : t.searchStructure = adjust o f s.searchStructure
  head : t.head l = if o = none then g (s.head l) else s.head l
  other : ∀ l', l' ≠ l → t.head l' = s.head l'
  totalSize : t.totalSize = s.totalSize
  curSize : t.curSize = s.curSize

theorem setHead_spec (s : ActiveMap T) (h : ListHead) (l : MapList) :
    (s.setHead h l).searchStructure = s.searchStructure ∧ (s.setHead h l).head l = h ∧
      (∀ l', l' ≠ l → (s.setHead h l).head l' = s.head l') ∧
      (s.setHead h l).totalSize = s.totalSize ∧ (s.setHead h l).curSize = s.curSize := by
  cases l with
  | free =>
    refine ⟨rfl, rfl, fun l' hl' => ?_, rfl, rfl⟩
    cases l' with
    | free => exact absurd rfl hl'
    | occupied => rfl
  | occupied =>
    refine ⟨rfl, rfl, fun l' hl' => ?_, rfl, rfl⟩
    cases l' with
    | free => rfl
    | occupied => exact absurd rfl hl'

theorem setNext_spec {s : ActiveMap T} {l : MapList} {o : Option ℕ}
    (h : ∀ i ∈ o, i ≠ l.id ∧ (s.searchStructure i).isSome) (n : ℕ) :
    ∃ t, s.setNext l (o.getD l.id) n = some t ∧
      LinkSet s l o (fun e => { e with next := n }) (fun h => { h with next := n }) t := by
  rcases o with _ | i
  · obtain ⟨hentries, hhead, hother, htotal, hcur⟩ :=
      setHead_spec s { s.head l with next := n } l
    exact ⟨_, if_pos rfl, hentries, hhead, hother, htotal, hcur⟩
  · obtain ⟨hne, hsome⟩ := h i rfl
    exact ⟨_, (if_neg hne).trans (modify_eq hsome _), rfl, rfl, fun l' _ => by cases l' <;> rfl,
      rfl, rfl⟩

theorem setPrev_spec {s : ActiveMap T} {l : MapList} {o : Option ℕ}
    (h : ∀ i ∈ o, i ≠ l.id ∧ (s.searchStructure i).isSome) (n : ℕ) :
    ∃ t, s.setPrev l (o.getD l.id) n = some t ∧
      LinkSet s l o (fun e => { e with prev := n }) (fun h => { h with prev := n }) t := by
  rcases o with _ | i
  · obtain ⟨hentries, hhead, hother, htotal, hcur⟩ :=
      setHead_spec s { s.head l with prev := n } l
    exact ⟨_, if_pos rfl, hentries, hhead, hother, htotal, hcur⟩
  · obtain ⟨hne, hsome⟩ := h i rfl
    exact ⟨_, (if_neg hne).trans (modify_eq hsome _), rfl, rfl, fun l' _ => by cases l' <;> rfl,
      rfl, rfl⟩

/-! ### Moving a slot -/

theorem eq_getD_of_toLink {l : MapList} {i : ℕ} {o : Option ℕ} (h : toLink l i = o) :
    i = o.getD l.id := by
  rw [toLink] at h
  split_ifs at h with hi
  · rw [← h]
    exact hi
  · rw [← h]
    rfl

theorem nextLinks_of_eq {l : MapList} {entries entries' : Entries T} {i : ℕ}
    (h : entries' i = entries i) : nextLinks l entries' i = nextLinks l entries i := by
  rw [nextLinks, nextLinks, h]

theorem prevLinks_of_eq {l : MapList} {entries entries' : Entries T} {i : ℕ}
    (h : entries' i = entries i) : prevLinks l entries' i = prevLinks l entries i := by
  rw [prevLinks, prevLinks, h]

/-- The entries after a slot has been moved from between `a` and `b` to the front of `m`. -/
def moved (l l' : MapList) (a b m : List ℕ) (slot : ℕ) (entries : Entries T) : Entries T :=
  adjust m.head? (fun e => { e with prev := slot })
    (adjust (some slot) (fun e => { e with next := m.head?.getD l'.id, prev := l'.id })
      (adjust b.head? (fun e => { e with prev := a.getLast?.getD l.id })
        (adjust a.getLast? (fun e => { e with next := b.head?.getD l.id }) entries)))

theorem sameEntries_moved (l l' : MapList) (a b m : List ℕ) (slot : ℕ) (entries : Entries T) :
    SameEntries entries (moved l l' a b m slot entries) := by
  have hlinks (e : MapEntry T) (n p : ℕ) : ({ e with next := n, prev := p } : MapEntry T).extId =
      e.extId ∧ ({ e with next := n, prev := p } : MapEntry T).intId = e.intId ∧
      ({ e with next := n, prev := p } : MapEntry T).free = e.free := ⟨rfl, rfl, rfl⟩
  exact ((((SameEntries.refl entries).adjust (fun e => hlinks e _ _) _).adjust
    (fun e => hlinks e _ _) _).adjust (fun e => hlinks e _ _) _).adjust (fun e => hlinks e _ _) _

section Move

variable {s : ActiveMap T} {l l' : MapList} {a b m : List ℕ} {slot : ℕ}
  (hslots : ∀ i ∈ (a ++ slot :: b) ++ m, i < 2 ^ 32 - 2 ∧ (s.searchStructure i).isSome)
  (hnodup : ((a ++ slot :: b) ++ m).Nodup)

theorem MapList.ne_id {i : ℕ} (h : i < 2 ^ 32 - 2) (l : MapList) : i ≠ l.id := by
  cases l <;> rw [MapList.id] <;> omega

include hslots in
theorem isSome_moved {i : ℕ} (hi : i ∈ (a ++ slot :: b) ++ m) :
    (moved l l' a b m slot s.searchStructure i).isSome := by
  rw [moved, isSome_adjust, isSome_adjust, isSome_adjust, isSome_adjust]
  exact (hslots i hi).2

include hslots hnodup

/-- **The slots that stay** are still linked. -/
theorem isList_moved (h : Circular s l (a ++ slot :: b)) :
    IsList (nextLinks l (moved l l' a b m slot s.searchStructure))
      (prevLinks l (moved l l' a b m slot s.searchStructure)) (a ++ b) := by
  have hdisj := List.nodup_append.mp hnodup
  have hmid := List.nodup_middle.mp hdisj.1
  have hmem : ∀ x ∈ a ++ b, x ≠ slot ∧ m.head? ≠ some x ∧ (s.searchStructure x).isSome := by
    intro x hx
    have hx' : x ∈ a ++ slot :: b := by simpa using Or.imp_right Or.inr (List.mem_append.mp hx)
    refine ⟨fun heq => (List.nodup_cons.mp hmid).1 (heq ▸ hx), fun hhead => ?_,
      (hslots x (List.mem_append_left _ hx')).2⟩
    exact hdisj.2.2 x hx' x (List.mem_of_mem_head? hhead) rfl
  have hnext : toLink l (b.head?.getD l.id) = b.head? := toLink_getD fun i hi =>
    MapList.ne_id (hslots i (by simp [List.mem_of_mem_head? hi])).1 l
  have hprev : toLink l (a.getLast?.getD l.id) = a.getLast? := toLink_getD fun i hi =>
    MapList.ne_id (hslots i (by simp [List.mem_of_mem_getLast? hi])).1 l
  refine h.isList.erase (fun x hx => ?_) fun x hx => ?_
  · obtain ⟨hslot, -, hsome⟩ := hmem x hx
    rw [moved, nextLinks_setPrev, nextLinks_of_eq (adjust_of_ne (by simpa using hslot.symm) _ _),
      nextLinks_setPrev, nextLinks_setNext l _ _ hsome, hnext]
  · obtain ⟨hslot, hhead, hsome⟩ := hmem x hx
    rw [moved, prevLinks_of_eq (adjust_of_ne hhead _ _),
      prevLinks_of_eq (adjust_of_ne (by simpa using hslot.symm) _ _),
      prevLinks_setPrev l _ _ (by rwa [isSome_adjust]), prevLinks_setNext, hprev]

/-- **The slot is in front** of the other list. -/
theorem isList_moved_cons (h : Circular s l' m) :
    IsList (nextLinks l' (moved l l' a b m slot s.searchStructure))
      (prevLinks l' (moved l l' a b m slot s.searchStructure)) (slot :: m) := by
  have hdisj := List.nodup_append.mp hnodup
  have hslot : slot ∉ m := fun hmem => hdisj.2.2 slot (by simp) slot hmem rfl
  have hother : ∀ x ∈ m, a.getLast? ≠ some x ∧ b.head? ≠ some x ∧ slot ≠ x := by
    intro x hx
    refine ⟨fun hlast => ?_, fun hhead => ?_, fun heq => hslot (heq ▸ hx)⟩
    · exact hdisj.2.2 x (by simp [List.mem_of_mem_getLast? hlast]) x hx rfl
    · exact hdisj.2.2 x (by simp [List.mem_of_mem_head? hhead]) x hx rfl
  have hnext : toLink l' (m.head?.getD l'.id) = m.head? := toLink_getD fun i hi =>
    MapList.ne_id (hslots i (by simp [List.mem_of_mem_head? hi])).1 l'
  have hhead : m.head? ≠ some slot := fun hhead => hslot (List.mem_of_mem_head? hhead)
  obtain ⟨e, he⟩ := Option.isSome_iff_exists.mp
    (hslots slot (by simp)).2
  have hsome : (adjust b.head? (fun e => { e with prev := a.getLast?.getD l.id })
      (adjust a.getLast? (fun e => { e with next := b.head?.getD l.id }) s.searchStructure)
        slot).isSome := by
    rw [isSome_adjust, isSome_adjust, he]
    rfl
  obtain ⟨e', he'⟩ := Option.isSome_iff_exists.mp hsome
  have hat : moved l l' a b m slot s.searchStructure slot =
      some { e' with next := m.head?.getD l'.id, prev := l'.id } := by
    rw [moved, adjust_of_ne hhead, adjust, if_pos rfl, he']
    rfl
  have hkeep : ∀ x ∈ m, adjust (some slot)
      (fun e => { e with next := m.head?.getD l'.id, prev := l'.id })
      (adjust b.head? (fun e => { e with prev := a.getLast?.getD l.id })
        (adjust a.getLast? (fun e => { e with next := b.head?.getD l.id }) s.searchStructure)) x =
      s.searchStructure x := by
    intro x hx
    obtain ⟨hlast, hfirst, hne⟩ := hother x hx
    rw [adjust_of_ne (by simpa using hne), adjust_of_ne hfirst, adjust_of_ne hlast]
  refine h.isList.cons hslot ?_ ?_ (fun x hx => ?_) fun x hx => ?_
  · rw [nextLinks, hat, Option.map_some, hnext]
  · rw [prevLinks, hat, Option.map_some]
    exact congrArg some (if_pos rfl)
  · rw [moved, nextLinks_setPrev, nextLinks_of_eq (hkeep x hx)]
  · have hx' := (hslots x (List.mem_append_right _ hx)).2
    have hto : toLink l' slot = some slot := if_neg (MapList.ne_id (hslots slot (by simp)).1 l')
    rw [moved, prevLinks_setPrev l' _ _ (by rwa [hkeep x hx]), prevLinks_of_eq (hkeep x hx), hto]

/-- **`shared_move`** takes the slot out of one list and puts it at the beginning of the other. -/
theorem sharedMove_spec (hl : l' ≠ l) (h : Circular s l (a ++ slot :: b)) (h' : Circular s l' m) :
    ∃ t, s.sharedMove slot l l' = some t ∧ Circular t l (a ++ b) ∧ Circular t l' (slot :: m) ∧
      SameData s t := by
  have hids : ∀ x ∈ (a ++ slot :: b) ++ m, ∀ k : MapList, x ≠ k.id := fun x hx =>
    MapList.ne_id (hslots x hx).1
  obtain ⟨e, he⟩ := Option.isSome_iff_exists.mp (hslots slot (by simp)).2
  have hdisj := List.nodup_append.mp hnodup
  have hmid := List.nodup_cons.mp (List.nodup_middle.mp hdisj.1)
  -- the links of the slot
  have hnext : e.next = b.head?.getD l.id := by
    have hlink := h.isList.next_eq a slot b rfl
    rw [nextLinks, he, Option.map_some, Option.some.injEq] at hlink
    exact eq_getD_of_toLink hlink
  have hprev : e.prev = a.getLast?.getD l.id := by
    have hlink := h.isList.prev_eq a slot b rfl
    rw [prevLinks, he, Option.map_some, Option.some.injEq] at hlink
    exact eq_getD_of_toLink hlink
  -- its neighbours
  obtain ⟨t₁, heq₁, h₁⟩ := @setNext_spec _ s l a.getLast? (fun i hi =>
    ⟨hids i (by simp [List.mem_of_mem_getLast? hi]) l,
      (hslots i (by simp [List.mem_of_mem_getLast? hi])).2⟩) e.next
  have he₁ : t₁.searchStructure slot = some e := by
    rw [h₁.entries, adjust_of_ne, he]
    exact fun hlast => hmid.1 (List.mem_append_left _ (List.mem_of_mem_getLast? hlast))
  obtain ⟨t₂, heq₂, h₂⟩ := @setPrev_spec _ t₁ l b.head? (fun i hi => by
    refine ⟨hids i (by simp [List.mem_of_mem_head? hi]) l, ?_⟩
    rw [h₁.entries, isSome_adjust]
    exact (hslots i (by simp [List.mem_of_mem_head? hi])).2) e.prev
  have he₂ : (t₂.searchStructure slot).isSome := by
    rw [h₂.entries, isSome_adjust, he₁]
    rfl
  have hm : (t₂.head l').next = m.head?.getD l'.id := by
    rw [h₂.other l' hl, h₁.other l' hl, h'.next_head]
  -- the slot and the other list
  obtain ⟨t₃, heq₃, hentries₃, hhead₃, htotal₃, hcur₃⟩ := modify_spec he₂ fun e =>
    { e with next := m.head?.getD l'.id, prev := l'.id }
  obtain ⟨hentries₄, hhead₄, hother₄, htotal₄, hcur₄⟩ :=
    setHead_spec t₃ { t₃.head l' with next := slot } l'
  obtain ⟨t₅, heq₅, h₅⟩ := @setPrev_spec _ (t₃.setHead { t₃.head l' with next := slot } l') l'
    m.head? (fun i hi => by
      have hmem : i ∈ m := List.mem_of_mem_head? hi
      refine ⟨hids i (List.mem_append_right _ hmem) l', ?_⟩
      rw [hentries₄, hentries₃, isSome_adjust, h₂.entries, isSome_adjust, h₁.entries,
        isSome_adjust]
      exact (hslots i (List.mem_append_right _ hmem)).2) slot
  have hall : t₅.searchStructure = moved l l' a b m slot s.searchStructure := by
    rw [h₅.entries, hentries₄, hentries₃, h₂.entries, h₁.entries, moved, hnext, hprev]
  have hheadl : t₅.head l = t₂.head l := by
    rw [h₅.other l hl.symm, hother₄ l hl.symm, hhead₃]
  have hheadl' : (t₅.head l').next = slot ∧
      (t₅.head l').prev = if m.head? = none then slot else (s.head l').prev := by
    rw [h₅.head, hhead₄, hhead₃, h₂.other l' hl, h₁.other l' hl]
    split_ifs
    · exact ⟨rfl, rfl⟩
    · exact ⟨rfl, rfl⟩
  refine ⟨t₅, ?_, ⟨?_, ?_, ?_⟩, ⟨?_, hheadl'.1, ?_⟩, ⟨?_, ?_, ?_⟩⟩
  · rw [← hprev] at heq₁
    rw [← hnext] at heq₂
    simp only [sharedMove, Option.bind_eq_bind, he, Option.bind_some, heq₁, he₁, heq₂, hm, heq₃,
      heq₅]
  · rw [hall]
    exact isList_moved hslots hnodup h
  · rw [hheadl, h₂.head, h₁.head]
    have hfirst : (if a.getLast? = none then { s.head l with next := e.next } else s.head l).next
        = (a ++ b).head?.getD l.id := by
      rcases a with _ | ⟨x, a⟩
      · exact hnext
      · rw [if_neg (by simp), h.next_head]
        rfl
    split_ifs at hfirst ⊢ <;> exact hfirst
  · rw [hheadl, h₂.head, h₁.head]
    have hlast : (if a.getLast? = none then { s.head l with next := e.next } else s.head l).prev
        = (s.head l).prev := by
      split_ifs <;> rfl
    rcases b with _ | ⟨y, b⟩
    · rw [if_pos List.head?_nil, List.append_nil]
      exact hprev
    · rw [if_neg (by simp), hlast, h.prev_head]
      simp [List.getLast?_append, List.getLast?_cons_cons]
  · rw [hall]
    exact isList_moved_cons hslots hnodup h'
  · rw [hheadl'.2, h'.prev_head]
    rcases m with _ | ⟨x, m⟩
    · rfl
    · simp
  · rw [hall]
    exact sameEntries_moved l l' a b m slot s.searchStructure
  · rw [h₅.totalSize, htotal₄, htotal₃, h₂.totalSize, h₁.totalSize]
  · rw [h₅.curSize, hcur₄, hcur₃, h₂.curSize, h₁.curSize]

end Move

end ActiveMap

end AceTao
