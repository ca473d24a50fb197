import AceTao.ActiveMap.Operations
import AceTao.Library.Machine
import Mathlib.Data.Finset.Card

/-!
# Runs of `ACE_Active_Map_Manager`

What the map is for: `bind` issues a key that it has not issued before, and the value last stored
under a key is found with it until the key is unbound (`Ledger`). Every run does this
(`ActiveMap.recorded_of_run`), in which no key has the index just behind the array and the array
does not grow to more than 2³² − 2 slots; and the two lists hold all slots.

A key has the index of its slot and the number of times the slot has been bound, modulo 2³²
(`ActiveMap.Recorded`).
-/

namespace AceTao

/-- **What was issued, and what is stored.** -/
structure Ledger (T : Type) where
  issued : List MapKey
  value : MapKey → Option T

namespace Ledger

variable {T : Type}

def empty : Ledger T := ⟨[], fun _ => none⟩

/-- The number of times a slot has been bound. -/
def binds (L : Ledger T) (i : ℕ) : ℕ := L.issued.countP fun k => k.slotIndex == i

def bind (k : MapKey) (x : T) (L : Ledger T) : Ledger T :=
  ⟨k :: L.issued, Function.update L.value k (some x)⟩

def rebind (k : MapKey) (x : T) (L : Ledger T) : Ledger T :=
  { L with value := Function.update L.value k ((L.value k).map fun _ => x) }

def unbind (k : MapKey) (L : Ledger T) : Ledger T :=
  { L with value := Function.update L.value k none }

/-- **The operations**, with their results. -/
inductive Step (L : Ledger T) : MapOp T → MapAnswer T → Ledger T → Prop
  | bind (x : T) (memory : Bool) (k : MapKey) :
      Step L (.bind x memory) (.bound (some k)) (L.bind k x)
  | bindWithoutMemory (x : T) : Step L (.bind x false) (.bound none) L
  | find (k : MapKey) : Step L (.find k) (.found (L.value k)) L
  | rebind (k : MapKey) (x : T) :
      Step L (.rebind k x) (.rebound ((L.value k).map fun old => (k, old))) (L.rebind k x)
  | unbind (k : MapKey) : Step L (.unbind k) (.unbound (L.value k)) (L.unbind k)

theorem binds_bind (L : Ledger T) (k : MapKey) (x : T) (i : ℕ) :
    (L.bind k x).binds i = L.binds i + if k.slotIndex = i then 1 else 0 := by
  rw [binds, bind, List.countP_cons, binds]
  simp only [beq_iff_eq]

theorem binds_le_bind (L : Ledger T) (k : MapKey) (x : T) (i : ℕ) :
    L.binds i ≤ (L.bind k x).binds i := by
  rw [binds_bind]
  exact Nat.le_add_right _ _

end Ledger

namespace ActiveMap

variable {T : Type} {lazy : Bool} {s t : ActiveMap T} {free occ : List ℕ} {L : Ledger T}

/-! ### The bound slots -/

def isBound (s : ActiveMap T) (i : ℕ) : Bool :=
  (s.entryData i).any fun d => d.1.slotIndex != MapList.free.id

/-- **The bound slots.** -/
def boundSlots (s : ActiveMap T) : Finset ℕ := (Finset.range s.totalSize).filter (s.isBound ·)

theorem isBound_iff {i : ℕ} : s.isBound i = true ↔
    ∃ k x b, s.entryData i = some (k, x, b) ∧ k.slotIndex ≠ MapList.free.id := by
  rw [isBound, Option.any_eq_true]
  simp only [bne_iff_ne, Prod.exists]

theorem Lists.lt_of_data (h : Lists lazy s free occ) {i : ℕ} {d : MapKey × T × Bool}
    (hd : s.entryData i = some d) : i < s.totalSize := by
  rw [← h.isSome, ← isSome_entryData, hd]
  rfl

theorem Lists.mem_boundSlots (h : Lists lazy s free occ) {i : ℕ} :
    i ∈ s.boundSlots ↔ s.isBound i = true := by
  rw [boundSlots, Finset.mem_filter, Finset.mem_range, and_iff_right_iff_imp]
  intro hi
  obtain ⟨k, x, b, hd, -⟩ := isBound_iff.mp hi
  exact h.lt_of_data hd

theorem card_boundSlots_le (s : ActiveMap T) : s.boundSlots.card ≤ s.totalSize :=
  (Finset.card_filter_le _ _).trans (Finset.card_range _).le

theorem isBound_update {i : ℕ} {k : MapKey} {x : T} {b : Bool}
    (ht : t.entryData = Function.update s.entryData i (some (k, x, b))) (j : ℕ) :
    t.isBound j = if j = i then k.slotIndex != MapList.free.id else s.isBound j := by
  rw [isBound, isBound, ht]
  split_ifs with hj
  · rw [hj, Function.update_self]
    rfl
  · rw [Function.update_of_ne hj]

/-! ### What the entries say -/

/-- **The entries are those of a ledger.** -/
structure Recorded (s : ActiveMap T) (L : Ledger T) : Prop where
  curSize : s.curSize = s.boundSlots.card
  value : ∀ k x, L.value k = some x ↔ ∃ b, s.entryData k.slotIndex = some (k, x, b)
  generation : ∀ i k x b, s.entryData i = some (k, x, b) →
    k.slotGeneration = L.binds i % 2 ^ 32
  issued : ∀ k ∈ L.issued, k.slotIndex < s.totalSize ∧ (L.binds k.slotIndex < 2 ^ 32 →
    1 ≤ k.slotGeneration ∧ k.slotGeneration ≤ L.binds k.slotIndex)
  nodup : (∀ i, L.binds i < 2 ^ 32) → L.issued.Nodup

namespace Recorded

theorem binds_eq_zero (h : Recorded s L) {i : ℕ} (hi : s.totalSize ≤ i) : L.binds i = 0 := by
  rw [Ledger.binds, List.countP_eq_zero]
  intro k hk heq
  have hlt := (h.issued k hk).1
  rw [beq_iff_eq.mp heq] at hlt
  exact absurd hlt (Nat.not_lt.mpr hi)

/-- **Finding a free slot** keeps what is recorded. -/
theorem keeps (h : Recorded s L) (hs : Lists lazy s free occ) {free' occ' : List ℕ}
    (ht : Lists lazy t free' occ') (hkeeps : Keeps s t) : Recorded t L := by
  have hnew : ∀ i k x b, s.entryData i = none → t.entryData i = some (k, x, b) →
      k.slotIndex ≠ i ∧ k.slotIndex = MapList.free.id ∧ k.slotGeneration = 0 := by
    intro i k x b hnone hd
    rw [hkeeps.new i k x b hnone hd]
    exact ⟨(MapList.ne_id ((ht.lt_of_data hd).trans_le ht.le) .free).symm, rfl, rfl⟩
  have hback : ∀ i k x b, t.entryData i = some (k, x, b) → s.entryData i ≠ none →
      ∃ b', s.entryData i = some (k, x, b') := by
    intro i k x b hd hne
    obtain ⟨⟨k', x', b'⟩, hd'⟩ := Option.ne_none_iff_exists'.mp hne
    obtain ⟨c, hc⟩ := hkeeps.old i k' x' b' hd'
    cases hc.symm.trans hd
    exact ⟨b', hd'⟩
  have hbound : ∀ i, t.isBound i = s.isBound i := by
    intro i
    rw [Bool.eq_iff_iff, isBound_iff, isBound_iff]
    constructor
    · rintro ⟨k, x, b, hd, hk⟩
      by_cases hnone : s.entryData i = none
      · exact absurd (hnew i k x b hnone hd).2.1 hk
      · obtain ⟨b', hb'⟩ := hback i k x b hd hnone
        exact ⟨k, x, b', hb', hk⟩
    · rintro ⟨k, x, b, hd, hk⟩
      obtain ⟨b', hb'⟩ := hkeeps.old i k x b hd
      exact ⟨k, x, b', hb', hk⟩
  have hslots : t.boundSlots = s.boundSlots := by
    ext i
    rw [ht.mem_boundSlots, hs.mem_boundSlots, hbound]
  refine ⟨?_, fun k x => (h.value k x).trans ⟨?_, ?_⟩, fun i k x b hd => ?_, fun k hk => ?_, h.nodup⟩
  · rw [hkeeps.curSize, h.curSize, hslots]
  · rintro ⟨b, hd⟩
    exact hkeeps.old _ _ _ b hd
  · rintro ⟨b, hd⟩
    by_cases hnone : s.entryData k.slotIndex = none
    · exact absurd rfl (hnew _ k x b hnone hd).1
    · exact hback _ k x b hd hnone
  · by_cases hnone : s.entryData i = none
    · have hi : s.totalSize ≤ i := by
        rw [← Nat.not_lt, ← hs.isSome, ← isSome_entryData, hnone]
        exact Bool.false_ne_true
      rw [(hnew i k x b hnone hd).2.2, h.binds_eq_zero hi, Nat.zero_mod]
    · obtain ⟨b', hb'⟩ := hback i k x b hd hnone
      exact h.generation i k x b' hb'
  · exact ⟨(h.issued k hk).1.trans_le hkeeps.totalSize, (h.issued k hk).2⟩

/-- **A key of the next generation** is issued. -/
theorem bind (h : Recorded s L) (hs : Lists lazy s free occ) {free' occ' : List ℕ}
    (ht : Lists lazy t free' occ') {slot : ℕ} {k : MapKey} {x y : T} {b : Bool}
    (hd : s.entryData slot = some (k, x, b)) (hk : k.slotIndex = MapList.free.id)
    (hdata : t.entryData = Function.update s.entryData slot
      (some (⟨slot, (k.slotGeneration + 1) % 2 ^ 32⟩, y, false)))
    (htotal : t.totalSize = s.totalSize) (hcur : t.curSize = (s.curSize + 1) % 2 ^ 32) :
    Recorded t (L.bind ⟨slot, (k.slotGeneration + 1) % 2 ^ 32⟩ y) := by
  have hslot : slot < s.totalSize := hs.lt_of_data hd
  have hne : slot ≠ MapList.free.id := MapList.ne_id (hslot.trans_le hs.le) .free
  have hgen := h.generation slot k x b hd
  have hbinds := L.binds_bind ⟨slot, (k.slotGeneration + 1) % 2 ^ 32⟩ y
  have hslots : t.boundSlots = insert slot s.boundSlots := by
    ext i
    rw [ht.mem_boundSlots, isBound_update hdata, Finset.mem_insert, hs.mem_boundSlots]
    split_ifs with hi
    · simp [hi, hne]
    · simp [hi]
  have hnot : slot ∉ s.boundSlots := by
    rw [hs.mem_boundSlots, isBound, hd, Option.any_some, hk]
    simp
  have hfree : ∀ k' x' b', k'.slotIndex = slot → s.entryData slot ≠ some (k', x', b') := by
    rintro k' x' b' hk' hd'
    cases hd.symm.trans hd'
    exact hne (hk'.symm.trans hk)
  refine ⟨?_, fun k' x' => ?_, fun i k' x' b' hd' => ?_, fun k' hk' => ?_, fun hfew => ?_⟩
  · have hle := card_boundSlots_le t
    have ht' := ht.le
    have hcard := Finset.card_insert_of_notMem hnot
    rw [← hslots] at hcard
    rw [hcur, h.curSize, ← hcard]
    exact Nat.mod_eq_of_lt (by omega)
  · rw [Ledger.bind, hdata]
    dsimp only
    rcases eq_or_ne k'.slotIndex slot with heq | hother
    · rw [heq, Function.update_self]
      rcases eq_or_ne k' ⟨slot, (k.slotGeneration + 1) % 2 ^ 32⟩ with rfl | hkey
      · rw [Function.update_self]
        exact ⟨fun hx => ⟨false, by cases hx; rfl⟩, fun ⟨_, hx⟩ => by cases hx; rfl⟩
      · rw [Function.update_of_ne hkey, h.value, heq]
        exact ⟨fun ⟨b', hb'⟩ => absurd hb' (hfree k' x' b' heq),
          fun ⟨_, hx⟩ => absurd (congrArg Prod.fst (Option.some.inj hx)).symm hkey⟩
    · rw [Function.update_of_ne hother, Function.update_of_ne fun heq => hother (by rw [heq])]
      exact h.value k' x'
  · rw [hdata] at hd'
    rw [hbinds]
    rcases eq_or_ne i slot with rfl | hi
    · rw [Function.update_self] at hd'
      cases hd'
      rw [if_pos rfl]
      dsimp only
      rw [hgen]
      omega
    · rw [Function.update_of_ne hi] at hd'
      rw [if_neg hi.symm, Nat.add_zero]
      exact h.generation i k' x' b' hd'
  · rcases List.mem_cons.mp hk' with rfl | hk'
    · refine ⟨htotal ▸ hslot, fun hlt => ?_⟩
      rw [hbinds, if_pos rfl] at hlt ⊢
      rw [hgen]
      dsimp only at hlt ⊢
      omega
    · refine ⟨htotal ▸ (h.issued k' hk').1, fun hlt => ?_⟩
      have hle := L.binds_le_bind ⟨slot, (k.slotGeneration + 1) % 2 ^ 32⟩ y k'.slotIndex
      exact ((h.issued k' hk').2 (hle.trans_lt hlt)).imp id fun hgen' => hgen'.trans hle
  · have hfew' : ∀ i, L.binds i < 2 ^ 32 := fun i => (L.binds_le_bind _ _ i).trans_lt (hfew i)
    refine List.nodup_cons.mpr ⟨fun hmem => ?_, h.nodup hfew'⟩
    have hlt := hfew slot
    have hold := ((h.issued _ hmem).2 (hfew' _)).2
    rw [hbinds, if_pos rfl] at hlt
    dsimp only at hold hlt
    omega

/-- **A value is replaced.** -/
theorem rebind (h : Recorded s L) {key : MapKey} {x y : T} {b : Bool}
    (hs : Lists lazy s free occ) (ht : Lists lazy t free occ)
    (hd : s.entryData key.slotIndex = some (key, x, b))
    (hdata : t.entryData = Function.update s.entryData key.slotIndex (some (key, y, b)))
    (htotal : t.totalSize = s.totalSize) (hcur : t.curSize = s.curSize) :
    Recorded t (L.rebind key y) := by
  have hslots : t.boundSlots = s.boundSlots := by
    ext i
    rw [ht.mem_boundSlots, hs.mem_boundSlots, isBound_update hdata]
    split_ifs with hi
    · rw [hi, isBound, hd]
      rfl
    · rfl
  refine ⟨?_, fun k' x' => ?_, fun i k' x' b' hd' => ?_, fun k' hk' => ?_, h.nodup⟩
  · rw [hcur, h.curSize, hslots]
  · rw [Ledger.rebind, hdata]
    dsimp only
    rw [(h.value key x).mpr ⟨b, hd⟩]
    rcases eq_or_ne k' key with rfl | hkey
    · rw [Function.update_self, Function.update_self]
      exact ⟨fun hx => ⟨b, by cases hx; rfl⟩, fun ⟨_, hx⟩ => by cases hx; rfl⟩
    · rw [Function.update_of_ne hkey, h.value]
      rcases eq_or_ne k'.slotIndex key.slotIndex with heq | hother
      · rw [heq, Function.update_self, hd]
        exact ⟨fun ⟨_, hx⟩ => absurd (congrArg Prod.fst (Option.some.inj hx)).symm hkey,
          fun ⟨_, hx⟩ => absurd (congrArg Prod.fst (Option.some.inj hx)).symm hkey⟩
      · rw [Function.update_of_ne hother]
  · rw [hdata] at hd'
    rcases eq_or_ne i key.slotIndex with rfl | hi
    · rw [Function.update_self] at hd'
      cases hd'
      exact h.generation _ _ x b hd
    · rw [Function.update_of_ne hi] at hd'
      exact h.generation i k' x' b' hd'
  · exact ⟨htotal ▸ (h.issued k' hk').1, (h.issued k' hk').2⟩

/-- **A key is no longer that of its slot.** -/
theorem unbind (h : Recorded s L) {key : MapKey} {x : T} {b b' : Bool} {free' occ' : List ℕ}
    (hs : Lists lazy s free occ) (ht : Lists lazy t free' occ')
    (hd : s.entryData key.slotIndex = some (key, x, b))
    (hdata : t.entryData = Function.update s.entryData key.slotIndex
      (some ({ key with slotIndex := MapList.free.id }, x, b')))
    (htotal : t.totalSize = s.totalSize)
    (hcur : t.curSize = (s.curSize + 2 ^ 32 - 1) % 2 ^ 32) : Recorded t (L.unbind key) := by
  have hlt := hs.lt_of_data hd
  have hne : key.slotIndex ≠ MapList.free.id := MapList.ne_id (hlt.trans_le hs.le) .free
  have hslots : t.boundSlots = s.boundSlots.erase key.slotIndex := by
    ext i
    rw [ht.mem_boundSlots, Finset.mem_erase, hs.mem_boundSlots, isBound_update hdata]
    split_ifs with hi
    · simp [hi]
    · simp [hi]
  have hmem : key.slotIndex ∈ s.boundSlots :=
    hs.mem_boundSlots.mpr (isBound_iff.mpr ⟨key, x, b, hd, hne⟩)
  refine ⟨?_, fun k' x' => ?_, fun i k' x' c hd' => ?_, fun k' hk' => ?_, h.nodup⟩
  · have hcard := Finset.card_erase_of_mem hmem
    have hpos := Finset.card_pos.mpr ⟨_, hmem⟩
    have hle := (card_boundSlots_le s).trans hs.le
    rw [hcur, h.curSize, hslots, hcard]
    omega
  · rw [Ledger.unbind, hdata]
    dsimp only
    rcases eq_or_ne k'.slotIndex key.slotIndex with heq | hother
    · have hnone : ¬∃ c, Function.update s.entryData key.slotIndex
          (some ({ key with slotIndex := MapList.free.id }, x, b')) k'.slotIndex =
            some (k', x', c) := by
        rw [heq, Function.update_self]
        rintro ⟨c, hc⟩
        cases hc
        exact hne heq.symm
      refine iff_of_false (fun hx => ?_) hnone
      rcases eq_or_ne k' key with rfl | hkey
      · rw [Function.update_self] at hx
        cases hx
      · rw [Function.update_of_ne hkey, h.value, heq, hd] at hx
        obtain ⟨c, hc⟩ := hx
        exact hkey (congrArg Prod.fst (Option.some.inj hc)).symm
    · rw [Function.update_of_ne hother, Function.update_of_ne fun heq => hother (by rw [heq])]
      exact h.value k' x'
  · rw [hdata] at hd'
    rcases eq_or_ne i key.slotIndex with rfl | hi
    · rw [Function.update_self] at hd'
      cases hd'
      have hgen := h.generation _ _ x b hd
      exact hgen
    · rw [Function.update_of_ne hi] at hd'
      exact h.generation i k' x' c hd'
  · exact ⟨htotal ▸ (h.issued k' hk').1, (h.issued k' hk').2⟩

end Recorded

/-! ### Every run -/

/-- **What holds of a state**: the lists hold all slots, and the entries are those of a ledger. -/
def Holds (lazy : Bool) (s : ActiveMap T) (L : Ledger T) : Prop :=
  (∃ free occ, Lists lazy s free occ) ∧ Recorded s L

theorem Holds.find (h : Holds lazy s L) {key : MapKey} (hkey : key.slotIndex ≠ s.totalSize) :
    (∃ e b, s.find lazy key = some (some e) ∧ L.value key = some e.intId ∧
      s.searchStructure key.slotIndex = some e ∧
      s.entryData key.slotIndex = some (key, e.intId, b)) ∨
    s.find lazy key = some none ∧ L.value key = none := by
  obtain ⟨⟨free, occ, hlists⟩, hrec⟩ := h
  rcases find_spec hlists hkey with ⟨e, b, hfind, he, hd⟩ | ⟨hfind, hnone⟩
  · exact Or.inl ⟨e, b, hfind, (hrec.value _ _).mpr ⟨b, hd⟩, he, hd⟩
  · refine Or.inr ⟨hfind, Option.eq_none_iff_forall_not_mem.mpr fun x hx => ?_⟩
    obtain ⟨b, hd⟩ := (hrec.value _ _).mp hx
    exact hnone x b hd

theorem curSize_eq_of_bound (h : Holds lazy s L)
    (hall : ∀ i e, s.searchStructure i = some e → e.extId.slotIndex = i) :
    s.curSize = s.totalSize := by
  obtain ⟨⟨free, occ, hlists⟩, hrec⟩ := h
  have hslots : s.boundSlots = Finset.range s.totalSize := by
    refine Finset.filter_eq_self.mpr fun i hi => ?_
    have hlt := Finset.mem_range.mp hi
    obtain ⟨e, he⟩ := Option.isSome_iff_exists.mp ((hlists.isSome i).mpr hlt)
    refine isBound_iff.mpr ⟨_, _, _, entryData_eq_some.mpr ⟨e, he, rfl⟩, ?_⟩
    rw [hall i e he]
    exact MapList.ne_id (hlt.trans_le hlists.le) .free
  rw [hrec.curSize, hslots, Finset.card_range]

variable [Inhabited T]

/-- **When an operation is safe**: the index of its key is not the one just behind the array, and the
array does not grow to a size at which the index of a slot is that of a list. -/
def Safe (s : ActiveMap T) : MapOp T → Prop
  | .bind _ memory => memory = true → s.curSize = s.totalSize → CanGrow s
  | .find key => key.slotIndex ≠ s.totalSize
  | .rebind key _ => key.slotIndex ≠ s.totalSize
  | .unbind key => key.slotIndex ≠ s.totalSize

instance (s : ActiveMap T) : Decidable (CanGrow s) := inferInstanceAs (Decidable (_ ∧ _))

instance (s : ActiveMap T) : ∀ op, Decidable (Safe s op)
  | .bind _ _ => inferInstanceAs (Decidable (_ → _ → CanGrow s))
  | .find _ => inferInstanceAs (Decidable (_ ≠ _))
  | .rebind _ _ => inferInstanceAs (Decidable (_ ≠ _))
  | .unbind _ => inferInstanceAs (Decidable (_ ≠ _))

/-- **`bind`.** -/
theorem Holds.bind (h : Holds lazy s L) {memory : Bool} {x : T} (hsafe : Safe s (.bind x memory)) :
    ∃ t a L', step lazy s (.bind x memory) = some (t, a) ∧ Ledger.Step L (.bind x memory) a L' ∧
      Holds lazy t L' := by
  obtain ⟨⟨free, occ, hlists⟩, hrec⟩ := h
  obtain ⟨t, r, ht, hkeeps, hcase⟩ := hlists.nextFree fun hm hall =>
    hsafe hm (curSize_eq_of_bound ⟨⟨free, occ, hlists⟩, hrec⟩ hall)
  rcases hcase with ⟨slot, rest, occ', rfl, hlists'⟩ | ⟨rfl, rfl, free', occ', hlists'⟩
  · have hrec' := hrec.keeps hlists hlists' hkeeps
    obtain ⟨u, k, y, hd, hk, hu, hlists'', hdata, htotal, hcur⟩ := bindSlot_spec hlists' x
    refine ⟨u, _, _, ?_, .bind x memory _, ⟨_, _, hlists''⟩,
      hrec'.bind hlists' hlists'' hd hk hdata htotal hcur⟩
    rw [step, ActiveMap.bind, ht]
    dsimp only
    rw [hu]
    rfl
  · refine ⟨t, _, L, ?_, .bindWithoutMemory x, ⟨_, _, hlists'⟩,
      hrec.keeps hlists hlists' hkeeps⟩
    rw [step, ActiveMap.bind, ht]
    rfl

/-- **`rebind`.** -/
theorem Holds.rebind (h : Holds lazy s L) {key : MapKey} {x : T} (hsafe : Safe s (.rebind key x)) :
    ∃ t a L', step lazy s (.rebind key x) = some (t, a) ∧ Ledger.Step L (.rebind key x) a L' ∧
      Holds lazy t L' := by
  have hledger := Ledger.Step.rebind (L := L) key x
  rcases h.find hsafe with ⟨e, b, hfind, hvalue, he, hd⟩ | ⟨hfind, hvalue⟩
  · obtain ⟨⟨free, occ, hlists⟩, hrec⟩ := h
    have hne : key.slotIndex ≠ MapList.free.id :=
      MapList.ne_id ((hlists.lt_of_data hd).trans_le hlists.le) .free
    obtain ⟨t, ht, hlists', hdata, htotal, hcur⟩ := rebindSlot_spec hlists hd hne x
    rw [hvalue] at hledger
    refine ⟨t, _, _, ?_, hledger, ⟨_, _, hlists'⟩,
      hrec.rebind hlists hlists' hd hdata htotal hcur⟩
    have hext : e.extId = key := by
      rw [entryData, he] at hd
      exact congrArg Prod.fst (Option.some.inj hd)
    rw [step, ActiveMap.rebind, hfind]
    dsimp only
    rw [ht, hext]
    rfl
  · rw [hvalue] at hledger
    have hsame : L.rebind key x = L := by
      rw [Ledger.rebind, hvalue, Option.map_none, ← hvalue, Function.update_eq_self]
    rw [hsame] at hledger
    refine ⟨s, _, L, ?_, hledger, h⟩
    rw [step, ActiveMap.rebind, hfind]
    rfl

/-- **`unbind`.** -/
theorem Holds.unbind (h : Holds lazy s L) {key : MapKey} (hsafe : Safe s (.unbind key)) :
    ∃ t a L', step lazy s (.unbind key) = some (t, a) ∧ Ledger.Step L (.unbind key) a L' ∧
      Holds lazy t L' := by
  have hledger := Ledger.Step.unbind (L := L) key
  rcases h.find hsafe with ⟨e, b, hfind, hvalue, he, hd⟩ | ⟨hfind, hvalue⟩
  · obtain ⟨⟨free, occ, hlists⟩, hrec⟩ := h
    have hne : key.slotIndex ≠ MapList.free.id :=
      MapList.ne_id ((hlists.lt_of_data hd).trans_le hlists.le) .free
    obtain ⟨t, free', occ', ht, hlists', hdata, htotal, hcur⟩ := unbindSlot_spec hlists hd hne
    rw [hvalue] at hledger
    refine ⟨t, _, _, ?_, hledger, ⟨_, _, hlists'⟩,
      hrec.unbind hlists hlists' hd hdata htotal hcur⟩
    rw [step, ActiveMap.unbind, hfind]
    dsimp only
    rw [ht]
    rfl
  · rw [hvalue] at hledger
    have hsame : L.unbind key = L := by
      rw [Ledger.unbind, ← hvalue, Function.update_eq_self]
    rw [hsame] at hledger
    refine ⟨s, _, L, ?_, hledger, h⟩
    rw [step, ActiveMap.unbind, hfind]
    rfl

/-- **One operation.** -/
theorem Holds.step (h : Holds lazy s L) {op : MapOp T} (hsafe : Safe s op) :
    ∃ t a L', step lazy s op = some (t, a) ∧ Ledger.Step L op a L' ∧ Holds lazy t L' := by
  cases op with
  | bind x memory => exact h.bind hsafe
  | rebind key x => exact h.rebind hsafe
  | unbind key => exact h.unbind hsafe
  | find key =>
    have hledger := Ledger.Step.find (L := L) key
    rcases h.find hsafe with ⟨e, b, hfind, hvalue, -⟩ | ⟨hfind, hvalue⟩
    · rw [hvalue] at hledger
      refine ⟨s, _, L, ?_, hledger, h⟩
      rw [ActiveMap.step, hfind]
      rfl
    · rw [hvalue] at hledger
      refine ⟨s, _, L, ?_, hledger, h⟩
      rw [ActiveMap.step, hfind]
      rfl

theorem openMap_holds {size : ℕ} (hpos : 1 ≤ size) (hle : size ≤ 2 ^ 32 - 2) (lazy : Bool) :
    ∃ s : ActiveMap T, openMap size = some s ∧ Holds lazy s Ledger.empty := by
  obtain ⟨s, hs, hlists, hkeeps, -⟩ := openMap_spec (T := T) hpos hle lazy
  have hclosed : ∀ i, (closed : ActiveMap T).entryData i = none := fun _ => rfl
  have hkey : ∀ i k x b, s.entryData i = some (k, x, b) → k = ⟨MapList.free.id, 0⟩ :=
    fun i k x b => hkeeps.new i k x b (hclosed i)
  have hnone : s.boundSlots = ∅ := by
    refine Finset.filter_eq_empty_iff.mpr fun i _ hi => ?_
    obtain ⟨k, x, b, hd, hk⟩ := isBound_iff.mp hi
    exact hk (congrArg MapKey.slotIndex (hkey i k x b hd))
  refine ⟨s, hs, ⟨_, _, hlists⟩, ?_, fun k x => ?_, fun i k x b hd => ?_, fun k hk => ?_, fun _ => ?_⟩
  · rw [hkeeps.curSize, hnone]
    rfl
  · refine iff_of_false (fun hx => by cases hx) ?_
    rintro ⟨b, hd⟩
    have hlt := (hlists.lt_of_data hd).trans_le hlists.le
    exact MapList.ne_id hlt .free (congrArg MapKey.slotIndex (hkey _ k x b hd))
  · rw [hkey i k x b hd]
    rfl
  · exact absurd hk List.not_mem_nil
  · exact List.nodup_nil

/-- **Every safe run**: it has answers, which are those of a ledger, the lists hold all slots,
`cur_size_` is the number of bound slots, the keys are distinct, and every key that has not been
unbound is found with the value last stored under it. -/
theorem recorded_of_run (lazy : Bool) {size : ℕ} (hpos : 1 ≤ size) (hle : size ≤ 2 ^ 32 - 2)
    (ops : List (MapOp T)) : ∃ s₀ : ActiveMap T, openMap size = some s₀ ∧
      (Machine.Guarded (step lazy) Safe s₀ ops →
        ∃ s answers L, Machine.run (step lazy) s₀ ops = some (s, answers) ∧
          Machine.Steps Ledger.Step Ledger.empty ops answers L ∧
          (∃ free occ, Lists lazy s free occ) ∧ s.curSize = s.boundSlots.card ∧
          ((∀ i, L.binds i < 2 ^ 32) → L.issued.Nodup) ∧
          ∀ key ∈ L.issued,
            (s.find lazy key).map (Option.map MapEntry.intId) = some (L.value key)) := by
  obtain ⟨s₀, hs₀, hholds₀⟩ := openMap_holds (T := T) hpos hle lazy
  refine ⟨s₀, hs₀, fun hguard => ?_⟩
  have hstep : ∀ (s : ActiveMap T) L op, Holds lazy s L → Safe s op → ∃ t a L',
      step lazy s op = some (t, a) ∧ Ledger.Step L op a L' ∧ Holds lazy t L' :=
    fun _ _ _ h hsafe => h.step hsafe
  obtain ⟨s, answers, L, hrun, hsteps, hholds⟩ := Machine.run_refines hstep hholds₀ hguard
  refine ⟨s, answers, L, hrun, hsteps, hholds.1, hholds.2.curSize, hholds.2.nodup,
    fun key hkey => ?_⟩
  rcases hholds.find (hholds.2.issued key hkey).1.ne with ⟨e, b, hfind, hvalue, -⟩ | ⟨hfind, hvalue⟩
  · rw [hfind, hvalue]
    rfl
  · rw [hfind, hvalue]
    rfl

section Example

/-- A map with one slot: a key is bound, and it is found until it is unbound. -/
def bindAndUnbind : List (MapOp ℕ) :=
  [.bind 7 true, .find ⟨0, 1⟩, .bind 8 true, .unbind ⟨0, 1⟩, .find ⟨0, 1⟩, .bind 9 true]

theorem recorded_of_bindAndUnbind : ∃ s₀ : ActiveMap ℕ, openMap 1 = some s₀ ∧
    ∃ s answers L, Machine.run (step true) s₀ bindAndUnbind = some (s, answers) ∧
      Machine.Steps Ledger.Step Ledger.empty bindAndUnbind answers L ∧
      (∃ free occ, Lists true s free occ) ∧ s.curSize = s.boundSlots.card ∧
      ((∀ i, L.binds i < 2 ^ 32) → L.issued.Nodup) ∧
      ∀ key ∈ L.issued,
        (s.find true key).map (Option.map MapEntry.intId) = some (L.value key) := by
  obtain ⟨s₀, hs₀, hrun⟩ := recorded_of_run true le_rfl (by decide) bindAndUnbind
  refine ⟨s₀, hs₀, hrun ?_⟩
  cases hs₀
  decide +kernel

/-- **A key with the index just behind the array** is looked up there. -/
theorem find_behind_array : ∃ s₀ : ActiveMap ℕ, openMap 1 = some s₀ ∧
    ∀ lazy, Machine.run (step lazy) s₀ [.find ⟨1, 0⟩] = none :=
  ⟨_, rfl, fun lazy => by cases lazy <;> rfl⟩

end Example

end ActiveMap

end AceTao
