import AceTao.ActiveMap.Runs
import Mathlib.Data.Set.Card

/-!
# Opening, closing and emptying `ACE_Active_Map_Manager`

The map has operations of its base class, too: `open`, `close` and `unbind_all`, which knows nothing
of the index that marks a key as free. Its `unbind_slot` leaves the key in the entry, so that the
key is still found (`ActiveMap.unbindsAll_iff_of_run`): `unbind_all` is right only where there is
nothing to unbind.

In the states between such calls, a key of any content is looked up inside the array, and found only
where it is bound, unless its index is the size of the array (`ActiveMap.looksUp_iff_of_run`).
-/

namespace AceTao

/-- The calls, also those of the base class. -/
inductive MapCall (T : Type)
  | op (op : MapOp T)
  | unbindAll
  | openMap (size : ℕ) (memory : Bool)
  | close

deriving instance DecidableEq for MapAnswer

namespace ActiveMap

variable {T : Type}

/-! ### `unbind_all` -/

/-- **`unbind_slot`** of the base class. -/
def unbindSlotOfBase (lazy : Bool) (slot : ℕ) (s : ActiveMap T) : Option (ActiveMap T) := do
  let s ← if lazy then s.modify slot fun entry => { entry with free := true }
    else s.moveFromOccupiedListToFreeList slot
  pure { s with curSize := (s.curSize + 2 ^ 32 - 1) % 2 ^ 32 }

/-- The loop of `unbind_all`. -/
def unbindAllLoop (lazy : Bool) : ℕ → ℕ → ActiveMap T → Option (ActiveMap T)
  | 0, _, _ => none
  | n + 1, i, s =>
    if i = MapList.occupied.id then some s
    else
      match s.searchStructure i with
      | none => none
      | some current =>
        if lazy && current.free then unbindAllLoop lazy n current.next s
        else (s.unbindSlotOfBase lazy i).bind fun s => unbindAllLoop lazy n current.next s

/-- **`unbind_all`**. -/
def unbindAll (lazy : Bool) (s : ActiveMap T) : Option (ActiveMap T) :=
  unbindAllLoop lazy s.turns s.occupiedList.next s

variable [Inhabited T]

/-- **The machine with all calls.** -/
def callStep (lazy : Bool) (s : ActiveMap T) : MapCall T →
    Option (ActiveMap T × Option (MapAnswer T))
  | .op op => (s.step lazy op).map fun (s, answer) => (s, some answer)
  | .unbindAll => (s.unbindAll lazy).map fun s => (s, none)
  | .openMap size memory =>
    if memory then (openMap size).map fun s => (s, none) else some (closed, none)
  | .close => some (closed, none)

end ActiveMap

namespace Ledger

variable {T : Type}

/-- Nothing is stored any more. -/
def unbindAll (L : Ledger T) : Ledger T := { L with value := fun _ => none }

/-- **The calls**, with their results. -/
inductive Call (L : Ledger T) : MapCall T → Option (MapAnswer T) → Ledger T → Prop
  | op {op : MapOp T} {a : MapAnswer T} {L' : Ledger T} (h : Step L op a L') :
      Call L (.op op) (some a) L'
  | unbindAll : Call L .unbindAll none L.unbindAll
  | openMap (size : ℕ) (memory : Bool) : Call L (.openMap size memory) none empty
  | close : Call L .close none empty

end Ledger

namespace ActiveMap

variable {T : Type} {lazy : Bool} {s t : ActiveMap T} {free occ : List ℕ} {L : Ledger T}

/-! ### What `unbind_all` leaves -/

/-- **Where nothing is bound**, all occupied slots wait to be moved, and the loop passes them. -/
theorem Lists.unbindAllLoop_eq {kept rest : List ℕ} {n : ℕ}
    (h : Lists lazy s free (kept ++ rest)) (hn : rest.length < n)
    (hrest : ∀ i ∈ rest, ∀ e, s.searchStructure i = some e → lazy = true ∧ e.free = true) :
    unbindAllLoop lazy n (rest.head?.getD MapList.occupied.id) s = some s := by
  induction rest generalizing kept n with
  | nil =>
    obtain ⟨n, rfl⟩ := Nat.exists_eq_succ_of_ne_zero (Nat.ne_of_gt hn)
    exact if_pos rfl
  | cons i rest ih =>
    obtain ⟨n, rfl⟩ := Nat.exists_eq_succ_of_ne_zero (Nat.ne_of_gt (Nat.zero_lt_of_lt hn))
    obtain ⟨hlt, hsome⟩ := h.slots i (by simp)
    obtain ⟨e, he⟩ := Option.isSome_iff_exists.mp hsome
    obtain ⟨hlazy, hfree⟩ := hrest i List.mem_cons_self e he
    have hnext := h.occCircular.next_eq he
    have hsplit : kept ++ i :: rest = (kept ++ [i]) ++ rest := by simp
    rw [hsplit] at h
    have hloop := ih h (Nat.lt_of_succ_lt_succ hn) fun j hj => hrest j (List.mem_cons_of_mem _ hj)
    rw [unbindAllLoop, if_neg (getD_head?_ne hlt), List.head?_cons, Option.getD_some, he]
    dsimp only
    rw [hlazy] at hloop ⊢
    rw [if_pos (by rw [hfree]; rfl), hnext, hloop]

theorem Lists.unbindAll_eq (h : Lists lazy s free occ) (hnone : s.boundSlots = ∅) :
    s.unbindAll lazy = some s := by
  have hhead : s.occupiedList.next = occ.head?.getD MapList.occupied.id := h.occCircular.next_head
  have hlength := h.length_add
  rw [unbindAll, hhead]
  refine @unbindAllLoop_eq _ _ _ _ [] occ _ h (by rw [turns]; omega) fun i hi e he => ?_
  rcases h.occEntry i hi e he with ⟨hflag, hindex⟩ | ⟨hlazy, hflag, -⟩
  · -- such an entry is bound
    have hlt := (h.slots i (List.mem_append_right _ hi)).1
    have hbound : i ∈ s.boundSlots := by
      refine h.mem_boundSlots.mpr (isBound_iff.mpr
        ⟨_, _, _, entryData_eq_some.mpr ⟨e, he, rfl⟩, ?_⟩)
      rw [hindex]
      exact MapList.ne_id hlt .free
    rw [hnone] at hbound
    exact absurd hbound (Finset.notMem_empty i)
  · exact ⟨hlazy, hflag⟩

/-- **All slots are moved**, and keep their keys. -/
theorem unbindAllLoop_keeps {n : ℕ} {rest : List ℕ}
    (hslots : ∀ i ∈ rest ++ free, i < 2 ^ 32 - 2 ∧ (s.searchStructure i).isSome)
    (hnodup : (rest ++ free).Nodup) (hocc : Circular s .occupied rest)
    (hfree : Circular s .free free) (hn : rest.length < n) :
    ∃ t, unbindAllLoop false n (rest.head?.getD MapList.occupied.id) s = some t ∧
      t.entryData = s.entryData ∧ t.totalSize = s.totalSize := by
  induction rest generalizing s free n with
  | nil =>
    obtain ⟨n, rfl⟩ := Nat.exists_eq_succ_of_ne_zero (Nat.ne_of_gt hn)
    exact ⟨s, if_pos rfl, rfl, rfl⟩
  | cons i rest ih =>
    obtain ⟨n, rfl⟩ := Nat.exists_eq_succ_of_ne_zero (Nat.ne_of_gt (Nat.zero_lt_of_lt hn))
    obtain ⟨hlt, hsome⟩ := hslots i (by simp)
    obtain ⟨e, he⟩ := Option.isSome_iff_exists.mp hsome
    have hnext : e.next = rest.head?.getD MapList.occupied.id :=
      @Circular.next_eq _ s .occupied [] rest i hocc e he
    obtain ⟨u, hu, hocc', hfree', hsame⟩ :=
      @sharedMove_spec _ s .occupied .free [] rest free i hslots hnodup (by decide) hocc hfree
    have hperm : (rest ++ i :: free).Perm ((i :: rest) ++ free) := List.perm_middle
    obtain ⟨t, ht, hdata, htotal⟩ := @ih { u with curSize := (u.curSize + 2 ^ 32 - 1) % 2 ^ 32 }
      (i :: free) n (fun j hj => by
        obtain ⟨hj', hsome'⟩ := hslots j (hperm.mem_iff.mp hj)
        exact ⟨hj', (hsame.entries.isSome j).trans hsome'⟩)
      (hperm.nodup_iff.mpr hnodup) (hocc'.setCurSize _) (hfree'.setCurSize _)
      (Nat.lt_of_succ_lt_succ hn)
    refine ⟨t, ?_, hdata.trans ((entryData_setCurSize u _).trans hsame.entryData),
      htotal.trans hsame.totalSize⟩
    have hmove : s.unbindSlotOfBase false i =
        some { u with curSize := (u.curSize + 2 ^ 32 - 1) % 2 ^ 32 } := by
      rw [unbindSlotOfBase, if_neg (by simp), moveFromOccupiedListToFreeList, hu]
      rfl
    rw [unbindAllLoop, if_neg (getD_head?_ne hlt), List.head?_cons, Option.getD_some, he]
    dsimp only
    rw [if_neg (by simp), hmove, Option.bind_some, hnext, ht]

theorem Lists.unbindAll_keeps (h : Lists false s free occ) : ∃ t, s.unbindAll false = some t ∧
    t.entryData = s.entryData ∧ t.totalSize = s.totalSize := by
  have hhead : s.occupiedList.next = occ.head?.getD MapList.occupied.id := h.occCircular.next_head
  have hlength := h.length_add
  rw [unbindAll, hhead]
  exact unbindAllLoop_keeps h.slots_comm h.nodup_comm h.occCircular h.freeCircular
    (by rw [turns]; omega)

/-! ### Runs with all calls -/

theorem holds_closed (lazy : Bool) : Holds lazy (closed : ActiveMap T) Ledger.empty := by
  have hnil (l : MapList) : Circular (closed : ActiveMap T) l [] :=
    ⟨DoublyLinked.isList_nil _ _, by cases l <;> rfl, by cases l <;> rfl⟩
  refine ⟨⟨[], [], Nat.zero_le _, fun i => ⟨fun h => ?_, fun h => absurd h (Nat.not_lt_zero i)⟩,
    hnil .free, hnil .occupied, List.Perm.refl _, ?_, ?_⟩, rfl, fun k x => ?_, ?_, ?_, fun _ => ?_⟩
  · cases h
  · exact fun i hi => absurd hi List.not_mem_nil
  · exact fun i hi => absurd hi List.not_mem_nil
  · refine iff_of_false (fun hx => by cases hx) ?_
    rintro ⟨b, hd⟩
    cases hd
  · intro i k x b hd
    cases hd
  · exact fun k hk => absurd hk List.not_mem_nil
  · exact List.nodup_nil

/-- **Nothing is bound**, and nothing is stored. -/
theorem Holds.value_eq_none (h : Holds lazy s L) (hnone : s.boundSlots = ∅) (k : MapKey) :
    L.value k = none := by
  obtain ⟨⟨free, occ, hlists⟩, hrec⟩ := h
  refine Option.eq_none_iff_forall_not_mem.mpr fun x hx => ?_
  obtain ⟨b, hd⟩ := (hrec.value _ _).mp hx
  have hne : k.slotIndex ≠ MapList.free.id :=
    MapList.ne_id ((hlists.lt_of_data hd).trans_le hlists.le) .free
  have hbound : k.slotIndex ∈ s.boundSlots :=
    hlists.mem_boundSlots.mpr (isBound_iff.mpr ⟨k, x, b, hd, hne⟩)
  rw [hnone] at hbound
  exact Finset.notMem_empty _ hbound

theorem Holds.unbindAll_eq (h : Holds lazy s L) (hnone : s.boundSlots = ∅) :
    L.unbindAll = L := by
  have hvalue : (fun _ => none) = L.value := funext fun k => (h.value_eq_none hnone k).symm
  rw [Ledger.unbindAll, hvalue]

variable [Inhabited T]

/-- **When a call is safe**: `unbind_all` has nothing to unbind. -/
def CallSafe (s : ActiveMap T) : MapCall T → Prop
  | .op op => Safe s op
  | .unbindAll => s.boundSlots = ∅
  | .openMap size _ => 1 ≤ size ∧ size ≤ 2 ^ 32 - 2
  | .close => True

instance (s : ActiveMap T) : ∀ call, Decidable (CallSafe s call)
  | .op op => inferInstanceAs (Decidable (Safe s op))
  | .unbindAll => inferInstanceAs (Decidable (s.boundSlots = ∅))
  | .openMap _ _ => inferInstanceAs (Decidable (_ ∧ _))
  | .close => inferInstanceAs (Decidable True)

/-- **One call.** -/
theorem Holds.callStep (h : Holds lazy s L) {call : MapCall T} (hsafe : CallSafe s call) :
    ∃ t a L', callStep lazy s call = some (t, a) ∧ Ledger.Call L call a L' ∧ Holds lazy t L' := by
  cases call with
  | op op =>
    obtain ⟨t, a, L', hstep, hledger, ht⟩ := h.step hsafe
    refine ⟨t, some a, L', ?_, .op hledger, ht⟩
    rw [ActiveMap.callStep, hstep]
    rfl
  | unbindAll =>
    obtain ⟨free, occ, hlists⟩ := h.1
    refine ⟨s, none, L.unbindAll, ?_, .unbindAll, ?_⟩
    · rw [ActiveMap.callStep, hlists.unbindAll_eq hsafe]
      rfl
    · rwa [h.unbindAll_eq hsafe]
  | openMap size memory =>
    cases memory with
    | false => exact ⟨closed, none, _, rfl, .openMap size false, holds_closed lazy⟩
    | true =>
      obtain ⟨t, ht, hholds⟩ := openMap_holds (T := T) hsafe.1 hsafe.2 lazy
      refine ⟨t, none, _, ?_, .openMap size true, hholds⟩
      rw [ActiveMap.callStep, if_pos rfl, ht]
      rfl
  | close => exact ⟨closed, none, _, rfl, .close, holds_closed lazy⟩

/-- **Every run of safe calls** has answers, which are those of a ledger. -/
theorem holds_of_calls {calls : List (MapCall T)}
    (hguard : Machine.Guarded (ActiveMap.callStep lazy) CallSafe closed calls) :
    ∃ s answers L, Machine.run (ActiveMap.callStep lazy) closed calls = some (s, answers) ∧
      Machine.Steps Ledger.Call Ledger.empty calls answers L ∧ Holds lazy s L := by
  refine Machine.run_refines (P := Holds lazy) (fun s L call h hsafe => ?_) (holds_closed lazy)
    hguard
  exact h.callStep hsafe

/-! ### Keys of any content -/

/-- **A key is looked up** inside the array, and found only where it is bound. -/
structure LooksUp (lazy : Bool) (s : ActiveMap T) (L : Ledger T) (key : MapKey) : Prop where
  find : ∃ entry, s.find lazy key = some entry ∧ (entry.isSome → (L.value key).isSome)
  rebind : ∀ value, ∃ t old, s.rebind lazy key value = some (t, old) ∧
    (old.isSome → (L.value key).isSome)
  unbind : ∃ t value, s.unbind lazy key = some (t, value) ∧
    (value.isSome → (L.value key).isSome)

theorem Holds.looksUp (h : Holds lazy s L) {key : MapKey} (hkey : key.slotIndex ≠ s.totalSize) :
    LooksUp lazy s L key := by
  refine ⟨?_, fun value => ?_, ?_⟩
  · rcases h.find hkey with ⟨e, b, hfind, hvalue, -⟩ | ⟨hfind, -⟩
    · exact ⟨some e, hfind, fun _ => by rw [hvalue]; rfl⟩
    · exact ⟨none, hfind, fun hsome => by cases hsome⟩
  · obtain ⟨t, a, L', hstep, hledger, -⟩ := h.rebind (x := value) hkey
    obtain ⟨⟨u, old⟩, hrebind, heq⟩ := Option.map_eq_some_iff.mp hstep
    cases heq
    refine ⟨t, old, hrebind, fun hsome => ?_⟩
    cases hledger
    rwa [Option.isSome_map] at hsome
  · obtain ⟨t, a, L', hstep, hledger, -⟩ := h.unbind hkey
    obtain ⟨⟨u, value⟩, hunbind, heq⟩ := Option.map_eq_some_iff.mp hstep
    cases heq
    refine ⟨t, value, hunbind, fun hsome => ?_⟩
    cases hledger
    exact hsome

omit [Inhabited T] in
/-- The entry behind the array is read. -/
theorem Holds.not_looksUp (h : Holds lazy s L) {key : MapKey}
    (hkey : key.slotIndex = s.totalSize) : ¬LooksUp lazy s L key := by
  intro hlooks
  obtain ⟨entry, hfind, -⟩ := hlooks.find
  obtain ⟨free, occ, hlists⟩ := h.1
  have hnone : s.searchStructure key.slotIndex = none := by
    refine Option.not_isSome_iff_eq_none.mp fun hsome => ?_
    have hlt := (hlists.isSome _).mp hsome
    omega
  rw [ActiveMap.find, if_neg (by omega), hnone] at hfind
  cases hfind

/-- **Every key in every state** that safe calls reach: it is looked up inside the array, and found
only where it is bound, exactly when its index is not the size of the array. -/
theorem looksUp_iff_of_run (lazy : Bool) {calls : List (MapCall T)}
    (hguard : Machine.Guarded (ActiveMap.callStep lazy) CallSafe closed calls) :
    ∃ s answers L, Machine.run (ActiveMap.callStep lazy) closed calls = some (s, answers) ∧
      Machine.Steps Ledger.Call Ledger.empty calls answers L ∧
      ∀ key, LooksUp lazy s L key ↔ key.slotIndex ≠ s.totalSize := by
  obtain ⟨s, answers, L, hrun, hsteps, hholds⟩ := holds_of_calls hguard
  exact ⟨s, answers, L, hrun, hsteps, fun key =>
    ⟨fun h heq => hholds.not_looksUp heq h, hholds.looksUp⟩⟩

/-! ### Emptying the map -/

/-- **`unbind_all` empties the map**: whatever is done behind it, the keys are those of a ledger
that was emptied, no slot is on both lists or twice on one, and `cur_size_` is the number of bound
keys. -/
def UnbindsAll (lazy : Bool) (s : ActiveMap T) (L : Ledger T) : Prop :=
  ∃ t, s.unbindAll lazy = some t ∧ ∀ ops, Machine.Guarded (step lazy) Safe t ops →
    ∃ u answers L', Machine.run (step lazy) t ops = some (u, answers) ∧
      Machine.Steps Ledger.Step L.unbindAll ops answers L' ∧
      (∃ free occ, Circular u .free free ∧ Circular u .occupied occ ∧ (free ++ occ).Nodup) ∧
      u.curSize = {key | (L'.value key).isSome}.ncard

omit [Inhabited T] in
theorem Holds.curSize_eq_ncard (h : Holds lazy s L) :
    s.curSize = {key | (L.value key).isSome}.ncard := by
  obtain ⟨⟨free, occ, hlists⟩, hrec⟩ := h
  have hdata : ∀ k, (L.value k).isSome → ∃ x b, s.entryData k.slotIndex = some (k, x, b) := by
    intro k hk
    obtain ⟨x, hx⟩ := Option.isSome_iff_exists.mp hk
    exact ⟨x, (hrec.value k x).mp hx⟩
  have hinj : Set.InjOn MapKey.slotIndex {key | (L.value key).isSome} := by
    intro k hk k' hk' heq
    obtain ⟨x, b, hd⟩ := hdata k hk
    obtain ⟨x', b', hd'⟩ := hdata k' hk'
    rw [heq, hd', Option.some.injEq, Prod.mk.injEq] at hd
    exact hd.1.symm
  have himage : MapKey.slotIndex '' {key | (L.value key).isSome} = ↑s.boundSlots := by
    ext i
    rw [Set.mem_image, Finset.mem_coe, hlists.mem_boundSlots, isBound_iff]
    constructor
    · rintro ⟨k, hk, rfl⟩
      obtain ⟨x, b, hd⟩ := hdata k hk
      exact ⟨k, x, b, hd, MapList.ne_id ((hlists.lt_of_data hd).trans_le hlists.le) .free⟩
    · rintro ⟨k, x, b, hd, hk⟩
      obtain ⟨-, hindex, -⟩ := hlists.of_bound hd hk
      have hvalue := (hrec.value k x).mpr ⟨b, hindex.symm ▸ hd⟩
      refine ⟨k, ?_, hindex⟩
      rw [Set.mem_ofPred_eq, hvalue]
      rfl
  rw [hrec.curSize, ← Set.ncard_coe_finset, ← himage, hinj.ncard_image]

theorem Holds.unbindsAll (h : Holds lazy s L) (hnone : s.boundSlots = ∅) :
    UnbindsAll lazy s L := by
  obtain ⟨free, occ, hlists⟩ := h.1
  refine ⟨s, hlists.unbindAll_eq hnone, fun ops hguard => ?_⟩
  rw [h.unbindAll_eq hnone]
  have hstep : ∀ (s : ActiveMap T) L op, Holds lazy s L → Safe s op → ∃ t a L',
      ActiveMap.step lazy s op = some (t, a) ∧ Ledger.Step L op a L' ∧ Holds lazy t L' :=
    fun _ _ _ h hsafe => h.step hsafe
  obtain ⟨u, answers, L', hrun, hsteps, hholds⟩ := Machine.run_refines hstep h hguard
  obtain ⟨free', occ', hlists'⟩ := hholds.1
  exact ⟨u, answers, L', hrun, hsteps, ⟨free', occ', hlists'.freeCircular, hlists'.occCircular,
    hlists'.nodup⟩, hholds.curSize_eq_ncard⟩

/-- **A key that was bound** is still found behind `unbind_all`. -/
theorem Holds.not_unbindsAll (h : Holds false s L) (hsome : s.boundSlots ≠ ∅) :
    ¬UnbindsAll false s L := by
  rintro ⟨t, ht, hruns⟩
  obtain ⟨⟨free, occ, hlists⟩, -⟩ := h
  obtain ⟨i, hi⟩ := Finset.nonempty_iff_ne_empty.mpr hsome
  obtain ⟨k, x, b, hd, hk⟩ := isBound_iff.mp (hlists.mem_boundSlots.mp hi)
  obtain ⟨-, hindex, -⟩ := hlists.of_bound hd hk
  obtain ⟨t', ht', hdata, htotal⟩ := hlists.unbindAll_keeps
  cases ht.symm.trans ht'
  have hlt : k.slotIndex < t.totalSize := by
    rw [htotal, hindex]
    exact hlists.lt_of_data hd
  obtain ⟨u, answers, L', hrun, hsteps, -⟩ := hruns [.find k] ⟨hlt.ne, fun _ _ _ => trivial⟩
  obtain ⟨e, he, heq⟩ := entryData_eq_some.mp ((congrFun hdata i).trans hd)
  cases heq
  have hfind : t.find false e.extId = some (some e) := by
    rw [ActiveMap.find, if_neg (Nat.not_lt.mpr hlt.le), hindex, he, Option.map_some]
    refine congrArg some (if_neg ?_)
    rintro (hcond | hcond | hcond)
    · cases hcond
    · exact hcond rfl
    · exact hk hcond
  obtain ⟨u', a, answers', hstep, -, rfl⟩ := Machine.run_cons_eq_some.mp hrun
  rw [ActiveMap.step, hfind] at hstep
  cases hstep
  cases hsteps with
  | cons hledger _ => cases hledger

/-- **When `unbind_all` empties the map**, in every state that safe calls reach: where nothing is
bound. With the flag of a lazy map a single key may go unnoticed. -/
theorem unbindsAll_iff_of_run (lazy : Bool) {calls : List (MapCall T)}
    (hguard : Machine.Guarded (ActiveMap.callStep lazy) CallSafe closed calls) :
    ∃ s answers L, Machine.run (ActiveMap.callStep lazy) closed calls = some (s, answers) ∧
      Machine.Steps Ledger.Call Ledger.empty calls answers L ∧
      (s.boundSlots = ∅ → UnbindsAll lazy s L) ∧
      (lazy = false → (UnbindsAll lazy s L ↔ s.boundSlots = ∅)) := by
  obtain ⟨s, answers, L, hrun, hsteps, hholds⟩ := holds_of_calls hguard
  refine ⟨s, answers, L, hrun, hsteps, hholds.unbindsAll, ?_⟩
  rintro rfl
  refine ⟨fun h => ?_, hholds.unbindsAll⟩
  by_contra hsome
  exact hholds.not_unbindsAll hsome h

section Example

/-- A map is opened, a key is bound and unbound, and the map is emptied. -/
def bindUnbindAll : List (MapCall ℕ) :=
  [.openMap 2 true, .op (.bind 7 true), .op (.unbind ⟨0, 1⟩), .unbindAll, .op (.bind 8 true)]

theorem looksUp_of_bindUnbindAll : ∃ s answers L,
    Machine.run (ActiveMap.callStep false) closed bindUnbindAll = some (s, answers) ∧
      Machine.Steps Ledger.Call Ledger.empty bindUnbindAll answers L ∧
      ∀ key, LooksUp false s L key ↔ key.slotIndex ≠ s.totalSize :=
  looksUp_iff_of_run false (by decide +kernel)

theorem unbindsAll_of_bindUnbindAll : ∃ s answers L,
    Machine.run (ActiveMap.callStep false) closed bindUnbindAll = some (s, answers) ∧
      Machine.Steps Ledger.Call Ledger.empty bindUnbindAll answers L ∧
      (s.boundSlots = ∅ → UnbindsAll false s L) ∧
      (false = false → (UnbindsAll false s L ↔ s.boundSlots = ∅)) :=
  unbindsAll_iff_of_run false (by decide +kernel)

/-- **A key whose index is the size of the array.** -/
theorem not_looksUp_at_size : ∃ (s : ActiveMap ℕ) (answers : _) (L : _),
    Machine.run (ActiveMap.callStep false) closed [.openMap 1 true] = some (s, answers) ∧
      Machine.Steps Ledger.Call Ledger.empty [.openMap 1 true] answers L ∧
      ¬LooksUp false s L ⟨1, 0⟩ := by
  obtain ⟨s, answers, L, hrun, hsteps, hholds⟩ := @holds_of_calls ℕ false _ [.openMap 1 true]
    ⟨by decide, fun _ _ _ => trivial⟩
  refine ⟨s, answers, L, hrun, hsteps, hholds.not_looksUp ?_⟩
  obtain ⟨t, ht, -, -, htotal⟩ := openMap_spec (T := ℕ) le_rfl (by decide) false
  rw [Machine.run, ActiveMap.callStep, if_pos rfl, ht] at hrun
  cases hrun
  exact htotal.symm

/-- A map is emptied while a key is bound. -/
def bindOne : List (MapCall ℕ) := [.openMap 2 true, .op (.bind 7 true)]

/-- **A key that is bound** when the map is emptied: it is found behind it. -/
theorem not_unbindsAll_while_bound : ∃ s answers L,
    Machine.run (ActiveMap.callStep false) closed bindOne = some (s, answers) ∧
      Machine.Steps Ledger.Call Ledger.empty bindOne answers L ∧ ¬UnbindsAll false s L ∧
      (Machine.run (ActiveMap.callStep false) closed
        (bindOne ++ [.unbindAll, .op (.find ⟨0, 1⟩)])).map (fun r => r.2.getLast?) =
          some (some (some (.found (some 7)))) := by
  obtain ⟨s, answers, L, hrun, hsteps, hholds⟩ := @holds_of_calls ℕ false _ bindOne
    (by decide +kernel)
  refine ⟨s, answers, L, hrun, hsteps, hholds.not_unbindsAll fun hnone => ?_, by decide +kernel⟩
  have hcard : (Machine.run (ActiveMap.callStep false) closed bindOne).map
      (fun r => r.1.boundSlots.card) = some 1 := by decide +kernel
  rw [hrun, Option.map_some, hnone, Finset.card_empty] at hcard
  exact absurd (Option.some.inj hcard) (by decide)

end Example

end ActiveMap

end AceTao
