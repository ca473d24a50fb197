import AceTao.ActiveMap.Grow

/-!
# One operation of `ACE_Active_Map_Manager`

An operation changes what one entry holds, or nothing: `bindSlot_spec`, `find_spec`,
`rebindSlot_spec` and `unbindSlot_spec` say how, and that the lists hold all slots again.
-/

namespace AceTao

namespace ActiveMap

variable {T : Type} {lazy : Bool} {s : ActiveMap T} {free occ : List ℕ}

/-! ### One entry -/

/-- A change of an entry that keeps its links. -/
theorem modify_data {i : ℕ} {d : MapKey × T × Bool} (h : s.entryData i = some d)
    {f : MapEntry T → MapEntry T} (hf : ∀ e, (f e).next = e.next ∧ (f e).prev = e.prev)
    (g : MapKey × T × Bool → MapKey × T × Bool)
    (hg : ∀ e, ((f e).extId, (f e).intId, (f e).free) = g (e.extId, e.intId, e.free)) :
    ∃ t, s.modify i f = some t ∧ t.entryData = Function.update s.entryData i (some (g d)) ∧
      (∀ l xs, Circular s l xs → Circular t l xs) ∧ t.totalSize = s.totalSize ∧
      t.curSize = s.curSize := by
  obtain ⟨e, he, heq⟩ := entryData_eq_some.mp h
  obtain ⟨t, ht, hentries, hhead, htotal, hcur⟩ :=
    modify_spec (Option.isSome_iff_exists.mpr ⟨e, he⟩) f
  refine ⟨t, ht, ?_, fun l xs hc => hc.modify hentries hf (hhead l), htotal, hcur⟩
  rw [entryData_adjust hentries he, hg e, heq]

theorem Lists.data_of_free (h : Lists lazy s free occ) {i : ℕ} (hi : i ∈ free) :
    ∃ k x, s.entryData i = some (k, x, false) ∧ k.slotIndex = MapList.free.id := by
  obtain ⟨e, he⟩ := Option.isSome_iff_exists.mp (h.slots i (List.mem_append_left _ hi)).2
  obtain ⟨hflag, hindex⟩ := h.freeEntry i hi e he
  exact ⟨e.extId, e.intId, entryData_eq_some.mpr ⟨e, he, by rw [hflag]⟩, hindex⟩

theorem Circular.setCurSize {l : MapList} {xs : List ℕ} (h : Circular s l xs) (n : ℕ) :
    Circular { s with curSize := n } l xs := ⟨h.isList, h.next_head, h.prev_head⟩

theorem entryData_setCurSize (s : ActiveMap T) (n : ℕ) :
    ({ s with curSize := n } : ActiveMap T).entryData = s.entryData := rfl

theorem Lists.setCurSize (h : Lists lazy s free occ) (n : ℕ) :
    Lists lazy { s with curSize := n } free occ :=
  ⟨h.le, h.isSome, h.freeCircular.setCurSize n, h.occCircular.setCurSize n, h.perm, h.freeEntry,
    h.occEntry⟩

/-- **A bound slot** is on the occupied list, and not marked. -/
theorem Lists.of_bound (h : Lists lazy s free occ) {i : ℕ} {k : MapKey} {x : T} {b : Bool}
    (hi : s.entryData i = some (k, x, b)) (hk : k.slotIndex ≠ MapList.free.id) :
    i ∈ occ ∧ k.slotIndex = i ∧ b = false := by
  obtain ⟨e, he, heq⟩ := entryData_eq_some.mp hi
  cases heq
  have hmem := h.mem_iff.mpr ((h.isSome i).mp (Option.isSome_iff_exists.mpr ⟨e, he⟩))
  rcases List.mem_append.mp hmem with hfree | hocc
  · exact absurd (h.freeEntry i hfree e he).2 hk
  · rcases h.occEntry i hocc e he with ⟨hflag, hindex⟩ | ⟨-, -, hindex⟩
    · exact ⟨hocc, hindex, hflag⟩
    · exact absurd hindex hk

/-! ### `bind` -/

/-- **`bind`** stores the value in the first slot of the free list, under a key of the next
generation. -/
theorem bindSlot_spec {slot : ℕ} {rest : List ℕ} (h : Lists lazy s (slot :: rest) occ) (value : T) :
    ∃ t k x, s.entryData slot = some (k, x, false) ∧ k.slotIndex = MapList.free.id ∧
      s.bindSlot value slot = some (t, ⟨slot, (k.slotGeneration + 1) % 2 ^ 32⟩) ∧
      Lists lazy t rest (slot :: occ) ∧
      t.entryData = Function.update s.entryData slot
        (some (⟨slot, (k.slotGeneration + 1) % 2 ^ 32⟩, value, false)) ∧
      t.totalSize = s.totalSize ∧ t.curSize = (s.curSize + 1) % 2 ^ 32 := by
  obtain ⟨k, x, hd, hk⟩ := h.data_of_free (List.mem_cons_self ..)
  have hslot : slot < s.totalSize := h.mem_iff.mp (by simp)
  obtain ⟨t₁, ht₁, hfree₁, hocc₁, hdata₁⟩ := @Lists.moveToOccupied _ _ _ _ [] rest slot h
  obtain ⟨t₂, ht₂, hdata₂, hcirc₂, htotal₂, hcur₂⟩ :=
    @modify_data _ t₁ slot (k, x, false) (by rw [hdata₁.entryData, hd])
      (fun e => { e with extId := ⟨slot, (e.extId.slotGeneration + 1) % 2 ^ 32⟩ })
      (fun _ => ⟨rfl, rfl⟩) (fun d => (⟨slot, (d.1.slotGeneration + 1) % 2 ^ 32⟩, d.2)) fun _ => rfl
  have hat₂ : t₂.entryData slot = some (⟨slot, (k.slotGeneration + 1) % 2 ^ 32⟩, x, false) := by
    rw [hdata₂, Function.update_self]
  obtain ⟨e₂, he₂, heq₂⟩ := entryData_eq_some.mp hat₂
  obtain ⟨t₃, ht₃, hdata₃, hcirc₃, htotal₃, hcur₃⟩ :=
    @modify_data _ { t₂ with curSize := (t₂.curSize + 1) % 2 ^ 32 } slot _ hat₂
      (fun e => { e with intId := value }) (fun _ => ⟨rfl, rfl⟩)
      (fun d => (d.1, value, d.2.2)) fun _ => rfl
  have hcirc : ∀ l xs, Circular t₁ l xs → Circular t₃ l xs := fun l xs hc =>
    hcirc₃ l xs ((hcirc₂ l xs hc).setCurSize _)
  have hupdate : t₃.entryData = Function.update s.entryData slot
      (some (⟨slot, (k.slotGeneration + 1) % 2 ^ 32⟩, value, false)) := by
    rw [hdata₃, entryData_setCurSize, hdata₂, Function.update_idem, hdata₁.entryData]
  have htotal : t₃.totalSize = s.totalSize := htotal₃.trans (htotal₂.trans hdata₁.totalSize)
  have hnodup := List.nodup_cons.mp (List.nodup_append.mp h.nodup).1
  refine ⟨t₃, k, x, hd, hk, ?_, ?_, hupdate, htotal, ?_⟩
  · rw [bindSlot, ht₁]
    simp only [Option.bind_eq_bind, Option.bind_some, ht₂, he₂, ht₃]
    exact congrArg (fun d => some (t₃, d.1)) heq₂
  · refine h.change hslot hupdate htotal (hcirc _ _ hfree₁) (hcirc _ _ hocc₁) ?_ (fun j hj _ => ?_)
      (fun j hj hne => ?_) (fun hmem => absurd hmem hnodup.1) fun _ => Or.inl ⟨rfl, rfl⟩
    · exact List.perm_middle
    · exact List.mem_cons_of_mem _ hj
    · exact (List.mem_cons.mp hj).resolve_left hne
  · rw [hcur₃]
    dsimp only
    rw [hcur₂, hdata₁.curSize]

/-! ### `find`, `rebind` and `unbind` -/

/-- **`find`** finds the entry that holds the key. -/
theorem find_spec (h : Lists lazy s free occ) {key : MapKey} (hkey : key.slotIndex ≠ s.totalSize) :
    (∃ e b, s.find lazy key = some (some e) ∧ s.searchStructure key.slotIndex = some e ∧
      s.entryData key.slotIndex = some (key, e.intId, b)) ∨
    s.find lazy key = some none ∧ ∀ x b, s.entryData key.slotIndex ≠ some (key, x, b) := by
  rw [find]
  rcases Nat.lt_or_ge s.totalSize key.slotIndex with hlt | hge
  · refine Or.inr ⟨if_pos hlt, fun x b hd => ?_⟩
    obtain ⟨e, he, -⟩ := entryData_eq_some.mp hd
    exact absurd ((h.isSome _).mp (Option.isSome_iff_exists.mpr ⟨e, he⟩)) (Nat.lt_asymm hlt)
  · have hi : key.slotIndex < s.totalSize := Nat.lt_of_le_of_ne hge hkey
    obtain ⟨e, he⟩ := Option.isSome_iff_exists.mp ((h.isSome _).mpr hi)
    have hd : s.entryData key.slotIndex = some (e.extId, e.intId, e.free) :=
      entryData_eq_some.mpr ⟨e, he, rfl⟩
    rw [if_neg (Nat.not_lt.mpr hge), he, Option.map_some]
    by_cases hcond : (lazy && e.free) = true ∨ e.extId.slotGeneration ≠ key.slotGeneration ∨
        e.extId.slotIndex = MapList.free.id
    · refine Or.inr ⟨congrArg some (if_pos hcond), fun x b hx => ?_⟩
      rw [hd, Option.some.injEq, Prod.mk.injEq, Prod.mk.injEq] at hx
      obtain ⟨rfl, -, -⟩ := hx
      have hne : e.extId.slotIndex ≠ MapList.free.id :=
        MapList.ne_id (Nat.lt_of_lt_of_le hi h.le) .free
      obtain ⟨-, -, hflag⟩ := h.of_bound hd hne
      rw [hflag, Bool.and_false] at hcond
      rcases hcond with hcond | hcond | hcond
      · cases hcond
      · exact hcond rfl
      · exact hne hcond
    · obtain ⟨-, hcond'⟩ := not_or.mp hcond
      obtain ⟨hgen, hne⟩ := not_or.mp hcond'
      obtain ⟨-, hindex, -⟩ := h.of_bound hd hne
      have hext : e.extId = key := by
        rcases hext : e.extId with ⟨i, g⟩
        rw [hext] at hindex hgen
        rcases key with ⟨j, g'⟩
        cases not_not.mp hgen
        cases hindex
        rfl
      exact Or.inl ⟨e, e.free, congrArg some (if_neg hcond), rfl, hext ▸ hd⟩

/-- **`rebind`** changes the value. -/
theorem rebindSlot_spec (h : Lists lazy s free occ) {slot : ℕ} {k : MapKey} {x : T} {b : Bool}
    (hd : s.entryData slot = some (k, x, b)) (hk : k.slotIndex ≠ MapList.free.id) (value : T) :
    ∃ t, s.modify slot (fun e => { e with intId := value }) = some t ∧ Lists lazy t free occ ∧
      t.entryData = Function.update s.entryData slot (some (k, value, b)) ∧
      t.totalSize = s.totalSize ∧ t.curSize = s.curSize := by
  obtain ⟨hmem, hindex, rfl⟩ := h.of_bound hd hk
  obtain ⟨t, ht, hdata, hcirc, htotal, hcur⟩ := modify_data hd
    (fun (e : MapEntry T) => ⟨(rfl : ({ e with intId := value } : MapEntry T).next = e.next), rfl⟩)
    (fun d => (d.1, value, d.2.2)) fun _ => rfl
  refine ⟨t, ht, ?_, hdata, htotal, hcur⟩
  have hslot : slot < s.totalSize := h.mem_iff.mp (List.mem_append_right _ hmem)
  exact h.change hslot hdata htotal (hcirc _ _ h.freeCircular) (hcirc _ _ h.occCircular)
    (List.Perm.refl _) (fun _ hj _ => hj) (fun _ hj _ => hj)
    (fun hfree => absurd rfl ((List.nodup_append.mp h.nodup).2.2 slot hfree slot hmem))
    fun _ => Or.inl ⟨rfl, hindex⟩

/-- **`unbind`** leaves the generation in the entry. -/
theorem unbindSlot_spec (h : Lists lazy s free occ) {slot : ℕ} {k : MapKey} {x : T} {b : Bool}
    (hd : s.entryData slot = some (k, x, b)) (hk : k.slotIndex ≠ MapList.free.id) :
    ∃ t free' occ', s.unbindSlot lazy slot = some t ∧ Lists lazy t free' occ' ∧
      t.entryData = Function.update s.entryData slot
        (some ({ k with slotIndex := MapList.free.id }, x, lazy)) ∧
      t.totalSize = s.totalSize ∧ t.curSize = (s.curSize + 2 ^ 32 - 1) % 2 ^ 32 := by
  obtain ⟨hmem, hindex, rfl⟩ := h.of_bound hd hk
  have hslot : slot < s.totalSize := h.mem_iff.mp (List.mem_append_right _ hmem)
  have hnotfree : slot ∉ free := fun hfree =>
    (List.nodup_append.mp h.nodup).2.2 slot hfree slot hmem rfl
  cases lazy with
  | true =>
    obtain ⟨t₁, ht₁, hdata₁, hcirc₁, htotal₁, hcur₁⟩ :=
      @modify_data _ s slot _ hd (fun e => { e with free := true }) (fun _ => ⟨rfl, rfl⟩)
        (fun d => (d.1, d.2.1, true)) fun _ => rfl
    obtain ⟨t₂, ht₂, hdata₂, hcirc₂, htotal₂, hcur₂⟩ :=
      @modify_data _ t₁ slot (k, x, true) (by rw [hdata₁, Function.update_self])
        (fun e => { e with extId := { e.extId with slotIndex := MapList.free.id } })
        (fun _ => ⟨rfl, rfl⟩) (fun d => ({ d.1 with slotIndex := MapList.free.id }, d.2)) fun _ =>
          rfl
    have hupdate : t₂.entryData = Function.update s.entryData slot
        (some ({ k with slotIndex := MapList.free.id }, x, true)) := by
      rw [hdata₂, hdata₁, Function.update_idem]
    have htotal := htotal₂.trans htotal₁
    have hlists : Lists true t₂ free occ :=
      h.change hslot hupdate htotal (hcirc₂ _ _ (hcirc₁ _ _ h.freeCircular))
        (hcirc₂ _ _ (hcirc₁ _ _ h.occCircular)) (List.Perm.refl _) (fun _ hj _ => hj)
        (fun _ hj _ => hj) (fun hfree => absurd hfree hnotfree) fun _ => Or.inr ⟨rfl, rfl, rfl⟩
    refine ⟨{ t₂ with curSize := (t₂.curSize + 2 ^ 32 - 1) % 2 ^ 32 }, free, occ, ?_,
      hlists.setCurSize _, (entryData_setCurSize t₂ _).trans hupdate, htotal, ?_⟩
    · rw [unbindSlot, if_pos rfl, ht₁]
      simp only [Option.bind_eq_bind, Option.bind_some, ht₂]
      rfl
    · dsimp only
      rw [hcur₂, hcur₁]
  | false =>
    obtain ⟨a, c, rfl⟩ := List.append_of_mem hmem
    obtain ⟨t₁, ht₁, hocc₁, hfree₁, hdata₁⟩ := h.moveToFree
    obtain ⟨t₂, ht₂, hdata₂, hcirc₂, htotal₂, hcur₂⟩ :=
      @modify_data _ t₁ slot (k, x, false) (by rw [hdata₁.entryData, hd])
        (fun e => { e with extId := { e.extId with slotIndex := MapList.free.id } })
        (fun _ => ⟨rfl, rfl⟩) (fun d => ({ d.1 with slotIndex := MapList.free.id }, d.2)) fun _ =>
          rfl
    rw [hdata₁.entryData] at hdata₂
    have htotal := htotal₂.trans hdata₁.totalSize
    have hmid := List.nodup_cons.mp (List.nodup_middle.mp (List.nodup_append.mp h.nodup).2.1)
    have hlists : Lists false t₂ (slot :: free) (a ++ c) := by
      refine h.change hslot hdata₂ htotal (hcirc₂ _ _ hfree₁) (hcirc₂ _ _ hocc₁) ?_
        (fun j hj hne => ?_) (fun j hj _ => ?_) (fun _ => ⟨rfl, rfl⟩) fun hj => absurd hj hmid.1
      · rw [List.cons_append, ← List.append_assoc, ← List.append_assoc]
        exact List.perm_middle.symm
      · exact (List.mem_cons.mp hj).resolve_left hne
      · simpa using Or.imp_right Or.inr (List.mem_append.mp hj)
    refine ⟨{ t₂ with curSize := (t₂.curSize + 2 ^ 32 - 1) % 2 ^ 32 }, slot :: free, a ++ c, ?_,
      hlists.setCurSize _, (entryData_setCurSize t₂ _).trans hdata₂, htotal, ?_⟩
    · rw [unbindSlot, if_neg (by simp), ht₁]
      simp only [Option.bind_eq_bind, Option.bind_some, ht₂]
      rfl
    · dsimp only
      rw [hcur₂, hdata₁.curSize]

end ActiveMap

end AceTao
