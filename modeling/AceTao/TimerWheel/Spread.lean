import AceTao.TimerWheel.Spoke

/-!
# `ACE_Timer_Wheel_T`: a sorted list, spread over spokes

`AceTao.TimerWheel.Spread s l` says that the wheel `s` holds the timers of the sorted list
`l`: each spoke holds those of its times, in the same order, and the cached spoke is that of
the first timer. Scheduling a timer is insertion into the list
(`AceTao.TimerWheel.Spread.scheduleNode`), and taking timers out and repairing the cache is
filtering the list (`AceTao.TimerWheel.Spread.filter`).

The second rests on `AceTao.TimerWheel.recalcLoop_eq`: the scan starts at the spoke of the
removed time `last` and stops at the first head that is near. A near time is in the block
of `last` or in the next one, so a head that is near but not the earliest would be in the
next block while the earliest timer is in the block of `last`, whose spoke the scan has seen
first.
-/

namespace AceTao

namespace TimerWheel

open TimeValue (zero)
open SortedInsert (insertBack Sorted insertBack_sorted insertBack_perm mem_insertBack head_le
  head?_insertBack filter_insertBack)

variable {α β : Type} {s : TimerWheel α β} {l : List (TimerNode α β)} {n h : TimerNode α β}

/-- The timers of a list that belong into a spoke. -/
def inSpoke (s : TimerWheel α β) (i : ℕ) (l : List (TimerNode α β)) : List (TimerNode α β) :=
  l.filter fun n => s.calculateSpoke n.timerValue = i

@[simp] theorem mem_inSpoke {i : ℕ} :
    n ∈ s.inSpoke i l ↔ n ∈ l ∧ s.calculateSpoke n.timerValue = i := by
  rw [inSpoke, List.mem_filter, decide_eq_true_eq]

/-- **The wheel holds the timers of the sorted list**, up to the cached spoke. -/
structure Holds (s : TimerWheel α β) (l : List (TimerNode α β)) : Prop where
  opened : Opened s
  sorted : Sorted TimerNode.timerValue l
  epoch : ∀ n ∈ l, zero ≤ n.timerValue
  spokes : ∀ i, i < s.spokeCount → s.spokes i = s.inSpoke i l
  count : s.timerCount = l.length
  earliest_lt : s.earliestSpoke < s.spokeCount

/-- **The wheel holds the timers of the sorted list**, and has cached the spoke of the
first. -/
structure Spread (s : TimerWheel α β) (l : List (TimerNode α β)) : Prop extends Holds s l where
  earliest : ∀ n ∈ l.head?, s.earliestSpoke = s.calculateSpoke n.timerValue

/-! ### The earliest timer -/

/-- The first timer of a list is the first one in its spoke. -/
theorem head?_inSpoke (hl : l.head? = some h) :
    (s.inSpoke (s.calculateSpoke h.timerValue) l).head? = some h := by
  cases l with
  | nil => cases hl
  | cons n l =>
    cases hl
    rw [inSpoke, List.filter_cons_of_pos (by simp), List.head?_cons]

/-- **`get_first` is the first timer of the list.** -/
theorem Spread.getFirst (hs : Spread s l) : s.getFirst = l.head? := by
  rw [TimerWheel.getFirst, hs.spokes _ hs.earliest_lt]
  cases hl : l.head? with
  | none => rw [List.head?_eq_none_iff.mp hl, inSpoke, List.filter_nil, List.head?_nil]
  | some h => rw [hs.earliest h (by rw [hl]; rfl), head?_inSpoke hl]

theorem Holds.isEmpty_iff (hs : Holds s l) : s.isEmpty = true ↔ l = [] := by
  rw [isEmpty, decide_eq_true_eq, hs.count, List.length_eq_zero_iff]

/-- `earliest_time` is the time of the first timer of the list. -/
theorem Spread.earliestTime (hs : Spread s l) :
    s.earliestTime = (l.head?.map TimerNode.timerValue).getD zero := by
  rw [TimerWheel.earliestTime, hs.getFirst]
  cases l.head? <;> rfl

/-- A wheel that has just been opened holds no timers. -/
theorem spread_open {longBits spokes res : ℕ} (hlong : 32 ≤ longBits ∧ longBits ≤ 64)
    (hopen : openI longBits spokes res = some s) : Spread s [] := by
  obtain ⟨ho, hspokes, -, hearliest, hcount⟩ := openI_eq_some hlong hopen
  refine ⟨⟨ho, .nil, ?_, fun i _ => ?_, hcount, ?_⟩, ?_⟩
  · exact fun n hn => by cases hn
  · rw [hspokes]
    rfl
  · rw [hearliest]
    exact Nat.two_pow_pos _
  · exact fun n hn => by cases hn

/-! ### `recalc_earliest` -/

/-- The spokes that the scan has seen after `k` steps from the spoke `start`. -/
def Visited (s : TimerWheel α β) (start k v : ℕ) : Prop :=
  ∃ j, j < k ∧ v = (start + j) % s.spokeCount

/-- What the scan knows after `k` steps: no timer it has seen is near, and `et`, `es` are the
earliest time it has seen and its spoke, `et` being zero if it has seen none. -/
structure Scanned (s : TimerWheel α β) (last : TimeValue) (k : ℕ) (et : TimeValue) (es : ℕ) :
    Prop where
  far : ∀ v, Visited s s.earliestSpoke k v → ∀ n ∈ s.spokes v,
    ¬n.timerValue < last + s.wheelTime
  none : et = zero → ∀ v, Visited s s.earliestSpoke k v → s.spokes v = []
  some : et ≠ zero → (∃ n ∈ s.spokes es, n.timerValue = et) ∧ es < s.spokeCount ∧
    ∀ v, Visited s s.earliestSpoke k v → ∀ n ∈ s.spokes v, et ≤ n.timerValue

theorem visited_succ {start k v : ℕ} :
    Visited s start (k + 1) v ↔ Visited s start k v ∨ v = (start + k) % s.spokeCount := by
  constructor
  · rintro ⟨j, hj, rfl⟩
    rcases Nat.lt_succ_iff_lt_or_eq.mp hj with hlt | rfl
    · exact Or.inl ⟨j, hlt, rfl⟩
    · exact Or.inr rfl
  · rintro (⟨j, hj, rfl⟩ | rfl)
    · exact ⟨j, by omega, rfl⟩
    · exact ⟨k, by omega, rfl⟩

/-- The whole wheel has been seen after as many steps as there are spokes. -/
theorem visited_all {start v : ℕ} (hs : start < s.spokeCount) (hv : v < s.spokeCount) :
    Visited s start s.spokeCount v := by
  rcases Nat.lt_or_ge v start with hlt | hge
  · refine ⟨v + s.spokeCount - start, by omega, ?_⟩
    rw [show start + (v + s.spokeCount - start) = v + s.spokeCount by omega, Nat.add_mod_right,
      Nat.mod_eq_of_lt hv]
  · refine ⟨v - start, by omega, ?_⟩
    rw [show start + (v - start) = v by omega, Nat.mod_eq_of_lt hv]

/-- The next spoke of the scan. -/
theorem next_spoke {p : ℕ} (hp : p < s.spokeCount) :
    (if s.spokeCount ≤ p + 1 then 0 else p + 1) = (p + 1) % s.spokeCount := by
  split
  · rw [show p + 1 = s.spokeCount by omega, Nat.mod_self]
  · rw [Nat.mod_eq_of_lt (by omega)]

/-- **The scan of `recalc_earliest` finds the spoke of the earliest timer**, when it starts at
the spoke of a time `last` that is not after any timer. -/
theorem recalcLoop_eq {last : TimeValue} (hs : Holds s l) (hl : l.head? = some h)
    (hlast : zero ≤ last) (hle : ∀ n ∈ l, last ≤ n.timerValue)
    (hstart : s.earliestSpoke = s.calculateSpoke last) {i k : ℕ} (hik : i + k = s.spokeCount)
    {et : TimeValue} {es : ℕ} (hscan : Scanned s last k et es) :
    recalcLoop last s i ((s.earliestSpoke + k) % s.spokeCount) et es
      = s.calculateSpoke h.timerValue := by
  have hmem : h ∈ l := List.mem_of_mem_head? hl
  have hmin : ∀ n ∈ l, h.timerValue ≤ n.timerValue := by
    intro n hn
    cases l with
    | nil => cases hl
    | cons m l =>
      cases hl
      exact head_le hs.sorted hn
  -- a timer is in the spoke of its time
  have hspoke : ∀ v, v < s.spokeCount → ∀ n ∈ s.spokes v,
      n ∈ l ∧ s.calculateSpoke n.timerValue = v := by
    intro v hv n hn
    rw [hs.spokes v hv] at hn
    exact mem_inSpoke.mp hn
  have hin : h ∈ s.spokes (s.calculateSpoke h.timerValue) := by
    rw [hs.spokes _ (s.calculateSpoke_lt _)]
    exact mem_inSpoke.mpr ⟨hmem, rfl⟩
  induction i generalizing k et es with
  | zero =>
    -- the whole wheel has been seen, and `es` is the spoke of the earliest time
    obtain rfl : k = s.spokeCount := by omega
    have hvis := visited_all hs.earliest_lt (s.calculateSpoke_lt h.timerValue)
    have het : et ≠ zero := fun h0 => by
      have := hscan.none h0 _ hvis
      rw [this] at hin
      cases hin
    obtain ⟨⟨n, hn, rfl⟩, hes, hbest⟩ := hscan.some het
    obtain ⟨hnl, hns⟩ := hspoke es hes n hn
    have heq : n.timerValue = h.timerValue := le_antisymm (hbest _ hvis h hin) (hmin n hnl)
    rw [recalcLoop, ← hns, heq]
  | succ i ih =>
    have hcount : 0 < s.spokeCount := Nat.two_pow_pos _
    have hp : (s.earliestSpoke + k) % s.spokeCount < s.spokeCount := Nat.mod_lt _ hcount
    have hnext : ((s.earliestSpoke + k) % s.spokeCount + 1) % s.spokeCount
        = (s.earliestSpoke + (k + 1)) % s.spokeCount := by
      rw [Nat.mod_add_mod, Nat.add_assoc]
    rw [recalcLoop]
    dsimp only
    rw [next_spoke hp, hnext]
    split
    case h_1 hnil =>
      refine ih (by omega) ⟨fun v hv => ?_, fun h0 v hv => ?_, fun h0 => ?_⟩
      · rcases visited_succ.mp hv with hv | rfl
        · exact hscan.far v hv
        · rw [hnil]
          exact fun n hn => by cases hn
      · rcases visited_succ.mp hv with hv | rfl
        · exact hscan.none h0 v hv
        · exact hnil
      · obtain ⟨hex, hes, hbest⟩ := hscan.some h0
        refine ⟨hex, hes, fun v hv => ?_⟩
        rcases visited_succ.mp hv with hv | rfl
        · exact hbest v hv
        · rw [hnil]
          exact fun n hn => by cases hn
    case h_2 n rest hcons =>
      have hn : n ∈ s.spokes ((s.earliestSpoke + k) % s.spokeCount) := by
        rw [hcons]
        exact List.mem_cons_self ..
      obtain ⟨hnl, hns⟩ := hspoke _ hp n hn
      have hepoch := hs.epoch h hmem
      by_cases hnear : n.timerValue < last + s.wheelTime
      · rw [if_pos hnear]
        -- the head is near, and so is the earliest timer
        have hhnear : h.timerValue < last + s.wheelTime := (hmin n hnl).trans_lt hnear
        have hb₁ := block_le_succ hs.opened hlast (hs.epoch n hnl) hnear
        have hb₂ : s.block last ≤ s.block h.timerValue := block_mono (hle h hmem)
        have hb₃ : s.block h.timerValue ≤ s.block n.timerValue := block_mono (hmin n hnl)
        rcases Nat.eq_or_lt_of_le hb₃ with heq | hlt
        · rw [← hns]
          exact calculateSpoke_congr hs.opened (hs.epoch n hnl) hepoch heq.symm
        · -- the earliest timer is in the block of `last`, where the scan started
          have hsame : s.calculateSpoke h.timerValue = s.earliestSpoke := by
            rw [hstart]
            exact calculateSpoke_congr hs.opened hepoch hlast (by omega)
          rcases Nat.eq_zero_or_pos k with rfl | hk
          · rw [hsame, Nat.add_zero, Nat.mod_eq_of_lt hs.earliest_lt]
          · have hvis : Visited s s.earliestSpoke k (s.calculateSpoke h.timerValue) :=
              ⟨0, hk, by rw [hsame, Nat.add_zero, Nat.mod_eq_of_lt hs.earliest_lt]⟩
            exact absurd hhnear (hscan.far _ hvis h hin)
      · rw [if_neg hnear]
        have hpos := pos_of_not_near hs.opened hlast (hle n hnl) hnear
        -- the head is the earliest timer of its spoke
        have hhead : ∀ m ∈ s.spokes ((s.earliestSpoke + k) % s.spokeCount),
            n.timerValue ≤ m.timerValue := by
          intro m hm
          have hsorted : Sorted TimerNode.timerValue (n :: rest) := by
            rw [← hcons, hs.spokes _ hp]
            exact hs.sorted.filter _
          rw [hcons] at hm
          exact head_le hsorted hm
        have hfar : ∀ v, Visited s s.earliestSpoke (k + 1) v → ∀ m ∈ s.spokes v,
            ¬m.timerValue < last + s.wheelTime := by
          intro v hv m hm
          rcases visited_succ.mp hv with hv | rfl
          · exact hscan.far v hv m hm
          · exact fun hcon => hnear ((hhead m hm).trans_lt hcon)
        by_cases hbetter : et = zero ∨ n.timerValue < et
        · rw [if_pos hbetter]
          refine ih (by omega) ⟨hfar, fun h0 => absurd h0 hpos.ne', fun _ =>
            ⟨⟨n, hn, rfl⟩, hp, fun v hv m hm => ?_⟩⟩
          rcases visited_succ.mp hv with hv | rfl
          · rcases hbetter with h0 | hlt
            · rw [hscan.none h0 v hv] at hm
              cases hm
            · have het : et ≠ zero := fun h0 => absurd (h0 ▸ hlt) (not_lt.mpr hpos.le)
              exact hlt.le.trans ((hscan.some het).2.2 v hv m hm)
          · exact hhead m hm
        · rw [if_neg hbetter]
          rw [not_or, not_lt] at hbetter
          obtain ⟨hex, hes, hbest⟩ := hscan.some hbetter.1
          refine ih (by omega) ⟨hfar, fun h0 => absurd h0 hbetter.1, fun _ =>
            ⟨hex, hes, fun v hv m hm => ?_⟩⟩
          rcases visited_succ.mp hv with hv | rfl
          · exact hbest v hv m hm
          · exact hbetter.2.trans (hhead m hm)

/-- **`recalc_earliest` repairs the cache**, when the cached spoke is that of a time that is
not after any timer. -/
theorem Holds.recalcEarliest {last : TimeValue} (hs : Holds s l) (hlast : zero ≤ last)
    (hle : ∀ n ∈ l, last ≤ n.timerValue) (hstart : s.earliestSpoke = s.calculateSpoke last) :
    Spread (s.recalcEarliest last) l := by
  rw [TimerWheel.recalcEarliest]
  cases hl : l.head? with
  | none =>
    have hnil := List.head?_eq_none_iff.mp hl
    rw [if_pos (hs.isEmpty_iff.mpr hnil)]
    exact ⟨hs, fun n hn => by rw [hl] at hn; cases hn⟩
  | some h =>
    have hne : ¬s.isEmpty = true := fun hcon => by
      rw [hs.isEmpty_iff.mp hcon] at hl
      cases hl
    rw [if_neg hne]
    have hnone : Scanned s last 0 zero 0 :=
      ⟨fun v ⟨j, hj, _⟩ => absurd hj (Nat.not_lt_zero j),
        fun _ v ⟨j, hj, _⟩ => absurd hj (Nat.not_lt_zero j), fun h0 => absurd rfl h0⟩
    have hfirst : recalcLoop last s s.spokeCount s.earliestSpoke zero 0
        = s.calculateSpoke h.timerValue := by
      have := recalcLoop_eq hs hl hlast hle hstart (Nat.add_zero _) hnone
      rwa [Nat.add_zero, Nat.mod_eq_of_lt hs.earliest_lt] at this
    have ho := hs.opened
    refine ⟨⟨⟨ho.1, ho.2, ho.3, ho.4, ho.5, ho.6⟩, hs.sorted, hs.epoch, hs.spokes, hs.count, ?_⟩,
      fun n hn => ?_⟩
    · show recalcLoop last s s.spokeCount s.earliestSpoke zero 0 < s.spokeCount
      rw [hfirst]
      exact s.calculateSpoke_lt _
    · rw [hl] at hn
      cases hn
      exact hfirst

/-! ### Timers come and go -/

/-- **Scheduling a timer is insertion into the list.** -/
theorem Spread.scheduleNode (hs : Spread s l) (hn : zero ≤ n.timerValue) :
    Spread (s.scheduleNode n (s.calculateSpoke n.timerValue))
      (insertBack TimerNode.timerValue n l) := by
  have ho := hs.opened
  rw [TimerWheel.scheduleNode]
  refine ⟨⟨⟨ho.1, ho.2, ho.3, ho.4, ho.5, ho.6⟩, insertBack_sorted hs.sorted, fun m hm => ?_,
    fun i hi => ?_, ?_, ?_⟩, fun m hm => ?_⟩
  · rcases mem_insertBack.mp hm with rfl | hm
    · exact hn
    · exact hs.epoch m hm
  · show Function.update s.spokes _ _ i = (insertBack _ n l).filter
      fun m => s.calculateSpoke m.timerValue = i
    rw [filter_insertBack hs.sorted, Function.update_apply]
    by_cases hi' : i = s.calculateSpoke n.timerValue
    · rw [if_pos hi', if_pos (decide_eq_true hi'.symm), hs.spokes _ (s.calculateSpoke_lt _),
        inSpoke, hi']
    · rw [if_neg hi', if_neg fun h => hi' (of_decide_eq_true h).symm, hs.spokes i hi, inSpoke]
  · show s.timerCount + 1 = _
    rw [hs.count, insertBack_perm.length_eq, List.length_cons]
  · show (if _ then _ else _) < s.spokeCount
    split
    · exact s.calculateSpoke_lt _
    · exact hs.earliest_lt
  · -- the new timer comes first exactly when its spoke becomes the cached one
    show (if _ then _ else _) = s.calculateSpoke m.timerValue
    rw [head?_insertBack hs.sorted, Option.mem_def] at hm
    have hfirst : (s.isEmpty = true ∨ n.timerValue < s.earliestTime) ↔
        ∀ y ∈ l.head?, n.timerValue < y.timerValue := by
      rw [hs.isEmpty_iff, hs.earliestTime]
      cases l <;> simp
    by_cases hc : s.isEmpty = true ∨ n.timerValue < s.earliestTime
    · rw [if_pos (hfirst.mp hc)] at hm
      cases hm
      rw [if_pos hc]
    · rw [if_neg fun h => hc (hfirst.mpr h)] at hm
      rw [if_neg hc]
      exact hs.earliest m hm

/-- **Timers that are taken out are filtered out of the list**: the cache is that of the old
first timer, and is repaired with its time if the first timer goes. -/
theorem Spread.filter {p : TimerNode α β → Bool} {r : ℕ → List (TimerNode α β)} {c : ℕ}
    (hs : Spread s l) (hspokes : ∀ i, i < s.spokeCount → r i = (s.spokes i).filter p)
    (hcount : c = (l.filter p).length) (hh : l.head? = some h) :
    Spread (if p h then { s with timerCount := c, spokes := r }
      else { s with timerCount := c, spokes := r }.recalcEarliest h.timerValue)
      (l.filter p) := by
  have ho := hs.opened
  have hmem : h ∈ l := List.mem_of_mem_head? hh
  have hmin : ∀ n ∈ l, h.timerValue ≤ n.timerValue := by
    cases l with
    | nil => cases hh
    | cons m l =>
      cases hh
      exact fun n => head_le hs.sorted
  have hholds : Holds { s with timerCount := c, spokes := r } (l.filter p) := by
    refine ⟨⟨ho.1, ho.2, ho.3, ho.4, ho.5, ho.6⟩, hs.sorted.filter p,
      fun n hn => hs.epoch n (List.mem_filter.mp hn).1, fun i hi => ?_, hcount, hs.earliest_lt⟩
    show r i = (l.filter p).filter fun n => s.calculateSpoke n.timerValue = i
    rw [hspokes i hi, hs.spokes i hi, inSpoke, List.filter_filter, List.filter_filter]
    simp only [Bool.and_comm]
  split
  case isTrue hp =>
    refine ⟨hholds, fun n hn => ?_⟩
    cases l with
    | nil => cases hh
    | cons m l =>
      cases hh
      rw [List.filter_cons_of_pos hp] at hn
      exact hs.earliest n hn
  case isFalse =>
    exact hholds.recalcEarliest (hs.epoch h hmem)
      (fun n hn => hmin n (List.mem_filter.mp hn).1) (hs.earliest h hh)

end TimerWheel

end AceTao
