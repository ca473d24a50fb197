import AceTao.Library.Machine
import AceTao.TimerWheel.Ops

/-!
# `ACE_Timer_Wheel_T`: are ids unique?

An id is a count and the spoke the timer was first scheduled in. While the counter of a spoke
runs, a new id is new because all counts given out are below the counter. When the counter
is exhausted the wheel starts again from zero if the spoke is empty, and otherwise searches
the spoke for a free id; but a repeating timer that has expired keeps its id in another
spoke, where nobody looks. `AceTao.TimerWheel.OverflowSafe` says that this does not happen at a
call, and `AceTao.TimerWheel.uniqueIds_of_run` that ids are then unique in every run.
-/

namespace AceTao

namespace TimerWheel

open SortedInsert (insertBack_perm)

variable {α β : Type} {w w' : TimerWheel α β} {n : TimerNode α β}

/-- The timers in the wheel. -/
def timers (w : TimerWheel α β) : List (TimerNode α β) :=
  (List.range w.spokeCount).flatMap w.spokes

/-- **No two timers carry the same id**, and none carries `-1`. -/
def UniqueIds (w : TimerWheel α β) : Prop :=
  DistinctIds w.timers ∧ ∀ n ∈ w.timers, n.timerId ≠ -1

/-- A call of a member function. -/
inductive Call (α β : Type)
  | schedule (type : α) (act : β) (futureTime interval : TimeValue)
  | resetInterval (timerId : ℤ) (interval : TimeValue)
  | cancel (timerId : ℤ)
  | cancelType (type : α)
  | expire (fuel : ℕ) (curTime : TimeValue)

/-- **One call**, and its result. -/
def step [DecidableEq α] (w : TimerWheel α β) : Call α β → Option (TimerWheel α β × ℤ)
  | .schedule type act futureTime interval =>
    let p := w.scheduleI type act futureTime interval
    some (p.2, p.1)
  | .resetInterval timerId interval =>
    let p := w.resetInterval timerId interval
    some (p.2, p.1)
  | .cancel timerId =>
    let p := w.cancel timerId
    some (p.2.2, p.1)
  | .cancelType type => (w.cancelType type).map fun p => (p.2, p.1)
  | .expire fuel curTime => (w.expire fuel curTime).map fun p => (p.2, (p.1.length : ℤ))

/-- **A call that does not run into the defect**: if it schedules a timer into a spoke whose
counter is exhausted, then no timer in another spoke has an id of that spoke. -/
def OverflowSafe (w : TimerWheel α β) : Call α β → Prop
  | .schedule _ _ futureTime _ =>
    let spoke := w.calculateSpoke futureTime
    w.maxCnt spoke ≤ w.counters spoke → ∀ i, i < w.spokeCount → i ≠ spoke →
      ∀ n ∈ w.spokes i, n.timerId % 2 ^ w.spokeBits ≠ spoke
  | _ => True

instance (w : TimerWheel α β) : ∀ call, Decidable (OverflowSafe w call)
  | .schedule _ _ futureTime _ =>
    inferInstanceAs (Decidable (w.maxCnt (w.calculateSpoke futureTime)
      ≤ w.counters (w.calculateSpoke futureTime) → ∀ i, i < w.spokeCount →
        i ≠ w.calculateSpoke futureTime → ∀ n ∈ w.spokes i,
          n.timerId % 2 ^ w.spokeBits ≠ w.calculateSpoke futureTime))
  | .resetInterval _ _ => inferInstanceAs (Decidable True)
  | .cancel _ => inferInstanceAs (Decidable True)
  | .cancelType _ => inferInstanceAs (Decidable True)
  | .expire _ _ => inferInstanceAs (Decidable True)

/-! ### Ids -/

theorem two_pow_split (ho : Opened w) :
    (2 : ℤ) ^ w.longBits = 2 ^ (w.longBits - w.spokeBits) * 2 ^ w.spokeBits := by
  have h₁ := ho.longBits_ge
  have h₂ := ho.spokeBits_le
  rw [← pow_add, Nat.sub_add_cancel (by omega)]

/-- The number an id stands for, as an unsigned number. -/
theorem mkId_emod_long (ho : Opened w) {cnt : ℤ} {spoke : ℕ} (hc₀ : 0 ≤ cnt)
    (hc₁ : cnt < 2 ^ (w.longBits - w.spokeBits)) (hs : spoke < w.spokeCount) :
    w.mkId cnt spoke % 2 ^ w.longBits = cnt * 2 ^ w.spokeBits + spoke := by
  have hcast : ((2 ^ w.longBits : ℕ) : ℤ) = 2 ^ w.longBits := by push_cast; rfl
  have hcast' : ((2 ^ w.spokeBits : ℕ) : ℤ) = 2 ^ w.spokeBits := by push_cast; rfl
  have hpos : (0 : ℤ) < 2 ^ w.spokeBits := pow_pos (by norm_num) _
  have h₀ : 0 ≤ cnt * 2 ^ w.spokeBits := mul_nonneg hc₀ hpos.le
  have h₁ : (cnt + 1) * 2 ^ w.spokeBits ≤ 2 ^ w.longBits := by
    rw [two_pow_split ho]
    exact mul_le_mul_of_nonneg_right (by omega) hpos.le
  rw [add_mul, one_mul] at h₁
  rw [spokeCount] at hs
  rw [mkId, ← hcast, Int.bmod_emod, hcast]
  exact Int.emod_eq_of_lt (by omega) (by omega)

/-- **Ids determine their spoke**: it is the one `find_node` looks into first. -/
theorem mkId_emod_spoke (ho : Opened w) {cnt : ℤ} {spoke : ℕ} (hc₀ : 0 ≤ cnt)
    (hc₁ : cnt < 2 ^ (w.longBits - w.spokeBits)) (hs : spoke < w.spokeCount) :
    w.mkId cnt spoke % 2 ^ w.spokeBits = spoke := by
  have hcast : ((2 ^ w.spokeBits : ℕ) : ℤ) = 2 ^ w.spokeBits := by push_cast; rfl
  have hdvd : (2 : ℤ) ^ w.spokeBits ∣ 2 ^ w.longBits :=
    ⟨2 ^ (w.longBits - w.spokeBits), by rw [two_pow_split ho, mul_comm]⟩
  rw [spokeCount] at hs
  rw [← Int.emod_emod_of_dvd _ hdvd, mkId_emod_long ho hc₀ hc₁ hs, add_comm,
    Int.add_mul_emod_self_right]
  exact Int.emod_eq_of_lt (by omega) (by omega)

/-- **Ids determine their count.** -/
theorem mkId_inj (ho : Opened w) {x y : ℤ} {i j : ℕ} (hx₀ : 0 ≤ x)
    (hx₁ : x < 2 ^ (w.longBits - w.spokeBits)) (hi : i < w.spokeCount) (hy₀ : 0 ≤ y)
    (hy₁ : y < 2 ^ (w.longBits - w.spokeBits)) (hj : j < w.spokeCount)
    (h : w.mkId x i = w.mkId y j) : x = y ∧ i = j := by
  have heq := mkId_emod_long ho hx₀ hx₁ hi
  rw [h, mkId_emod_long ho hy₀ hy₁ hj] at heq
  have hij : (i : ℤ) = j := by
    rw [← mkId_emod_spoke ho hx₀ hx₁ hi, h, mkId_emod_spoke ho hy₀ hy₁ hj]
  have hpos : (0 : ℤ) < 2 ^ w.spokeBits := pow_pos (by norm_num) _
  rw [hij, add_left_inj] at heq
  exact ⟨(mul_right_cancel₀ hpos.ne' heq).symm, by omega⟩

/-- Counts below the largest one do not make the id `-1`. -/
theorem mkId_ne (ho : Opened w) {cnt : ℤ} {spoke : ℕ} (hc₀ : 0 ≤ cnt)
    (hc₁ : cnt < 2 ^ (w.longBits - w.spokeBits) - 1) (hs : spoke < w.spokeCount) :
    w.mkId cnt spoke ≠ -1 := by
  intro h
  have hcast : ((2 ^ w.spokeBits : ℕ) : ℤ) = 2 ^ w.spokeBits := by push_cast; rfl
  have hpos : (0 : ℤ) < 2 ^ w.spokeBits := pow_pos (by norm_num) _
  have hlong : (0 : ℤ) < 2 ^ w.longBits := pow_pos (by norm_num) _
  have heq := mkId_emod_long ho hc₀ (by omega) hs
  have hneg : (-1 : ℤ) % 2 ^ w.longBits = 2 ^ w.longBits - 1 := by
    rw [← Int.add_mul_emod_self_left (-1) (2 ^ w.longBits) 1, mul_one, neg_add_eq_sub]
    exact Int.emod_eq_of_lt (by omega) (by omega)
  have h₁ : (cnt + 2) * 2 ^ w.spokeBits ≤ 2 ^ w.longBits := by
    rw [two_pow_split ho]
    exact mul_le_mul_of_nonneg_right (by omega) hpos.le
  rw [add_mul] at h₁
  rw [h, hneg] at heq
  rw [spokeCount] at hs
  omega

theorem maxCnt_eq {spoke : ℕ} (hs : spoke < w.spokeCount) :
    w.maxCnt spoke = 2 ^ (w.longBits - w.spokeBits) - 1 := by
  rw [maxCnt, if_neg hs.ne, sub_zero]

/-! ### The invariant -/

/-- **The ids in the wheel**: each is made of a spoke and a count below the counter of that
spoke, and no two timers have the same. -/
structure IdsInv (w : TimerWheel α β) : Prop where
  opened : Opened w
  counter : ∀ i, 0 ≤ w.counters i ∧ w.counters i ≤ 2 ^ (w.longBits - w.spokeBits) - 1
  outside : ∀ i, w.spokeCount ≤ i → w.spokes i = []
  made : ∀ i, ∀ n ∈ w.spokes i, ∃ (home : ℕ) (cnt : ℤ), home < w.spokeCount ∧ 0 ≤ cnt ∧
    cnt < w.counters home ∧ n.timerId = w.mkId cnt home
  distinct : ∀ i, DistinctIds (w.spokes i)
  disjoint : ∀ i j, i ≠ j → ∀ m ∈ w.spokes i, ∀ n ∈ w.spokes j, m.timerId ≠ n.timerId

/-- **The invariant says that ids are unique.** -/
theorem IdsInv.uniqueIds (h : IdsInv w) : UniqueIds w := by
  constructor
  · rw [DistinctIds, timers, List.map_flatMap, List.nodup_flatMap]
    refine ⟨fun i _ => h.distinct i, List.nodup_range.imp fun {i j} hij => ?_⟩
    intro id hi hj
    obtain ⟨m, hm, rfl⟩ := List.mem_map.mp hi
    obtain ⟨n, hn, heq⟩ := List.mem_map.mp hj
    exact h.disjoint i j hij m hm n hn heq.symm
  · intro n hn
    obtain ⟨i, -, hni⟩ := List.mem_flatMap.mp hn
    obtain ⟨home, cnt, hhome, hc₀, hc₁, hid⟩ := h.made i n hni
    have := (h.counter home).2
    rw [hid]
    exact mkId_ne h.opened hc₀ (by omega) hhome

/-- The wheel gives out ids as before, and each spoke has some of the ids it had. -/
structure FewerIds (w w' : TimerWheel α β) : Prop extends KeepsIds w w' where
  sublist : ∀ i, ((w'.spokes i).map TimerNode.timerId).Sublist
    ((w.spokes i).map TimerNode.timerId)

theorem FewerIds.recalcEarliest {last : TimeValue} (h : FewerIds w w') :
    FewerIds w (w'.recalcEarliest last) := by
  rw [TimerWheel.recalcEarliest]
  split
  · exact h
  · exact ⟨⟨h.1.1, h.1.2, h.1.3, h.1.4⟩, h.sublist⟩

theorem FewerIds.mem (h : FewerIds w w') {i : ℕ} (hn : n ∈ w'.spokes i) :
    ∃ m ∈ w.spokes i, m.timerId = n.timerId :=
  List.mem_map.mp ((h.sublist i).subset (List.mem_map_of_mem hn))

/-- **Fewer ids** keep the invariant. -/
theorem IdsInv.fewer (h : IdsInv w) (hf : FewerIds w w') : IdsInv w' := by
  have ho := h.opened
  have hcount : w'.spokeCount = w.spokeCount := by rw [spokeCount, hf.spokeBits, spokeCount]
  refine ⟨⟨?_, ?_, ?_, ?_, ?_, ?_⟩, fun i => ?_, fun i hi => ?_, fun i n hn => ?_, fun i => ?_,
    fun i j hij m hm n hn => ?_⟩
  · exact hf.longBits ▸ ho.longBits_ge
  · exact hf.longBits ▸ ho.longBits_le
  · exact hf.spokeBits ▸ ho.spokeBits_ge
  · exact hf.spokeBits ▸ ho.spokeBits_le
  · exact hf.resBits ▸ ho.resBits_ge
  · exact hf.resBits ▸ ho.resBits_le
  · rw [hf.counters, hf.longBits, hf.spokeBits]
    exact h.counter i
  · have hsub := hf.sublist i
    rw [h.outside i (hcount ▸ hi), List.map_nil, List.sublist_nil, List.map_eq_nil_iff] at hsub
    exact hsub
  · obtain ⟨m, hm, hmn⟩ := hf.mem hn
    rw [hcount, hf.counters, ← hmn]
    simp only [mkId, hf.longBits, hf.spokeBits]
    exact h.made i m hm
  · exact List.Nodup.sublist (hf.sublist i) (h.distinct i)
  · obtain ⟨m', hm', hmid⟩ := hf.mem hm
    obtain ⟨n', hn', hnid⟩ := hf.mem hn
    rw [← hmid, ← hnid]
    exact h.disjoint i j hij m' hm' n' hn'

/-! ### The operations that give out no id -/

theorem fewerIds_unlink (spoke : ℕ) (timerId : ℤ) (w : TimerWheel α β) :
    FewerIds w (w.unlink spoke timerId) := by
  refine ⟨⟨rfl, rfl, rfl, rfl⟩, fun i => ?_⟩
  show ((Function.update w.spokes _ _ i).map _).Sublist _
  rw [Function.update_apply]
  split
  case isTrue hi =>
    rw [hi]
    exact (List.eraseP_sublist ..).map _
  case isFalse => exact List.Sublist.refl _

theorem fewerIds_cancel (timerId : ℤ) (w : TimerWheel α β) :
    FewerIds w (w.cancel timerId).2.2 := by
  rw [TimerWheel.cancel]
  split
  · exact ⟨⟨rfl, rfl, rfl, rfl⟩, fun i => List.Sublist.refl _⟩
  · dsimp only
    split
    · exact (fewerIds_unlink ..).recalcEarliest
    · exact fewerIds_unlink ..

theorem fewerIds_resetInterval (timerId : ℤ) (interval : TimeValue) (w : TimerWheel α β) :
    FewerIds w (w.resetInterval timerId interval).2 := by
  rw [TimerWheel.resetInterval]
  split
  · exact ⟨⟨rfl, rfl, rfl, rfl⟩, fun i => List.Sublist.refl _⟩
  · refine ⟨⟨rfl, rfl, rfl, rfl⟩, fun i => ?_⟩
    show ((Function.update w.spokes _ _ i).map _).Sublist _
    rw [Function.update_apply]
    split
    case isTrue hi =>
      rw [hi, Keyed.map_replaceF fun m n h => by rw [TimerNode.withInterval_eq_some h]; rfl]
    case isFalse => exact List.Sublist.refl _

theorem fewerIds_cancelType [DecidableEq α] {type : α} {w : TimerWheel α β}
    {p : ℤ × TimerWheel α β} (h : w.cancelType type = some p) : FewerIds w p.2 := by
  have hfilter : ∀ count, FewerIds w { w with
      timerCount := count
      spokes := fun i => if i < w.spokeCount then (w.spokes i).filter fun n => n.type ≠ type
        else w.spokes i } := fun count => by
    refine ⟨⟨rfl, rfl, rfl, rfl⟩, fun i => List.Sublist.map _ ?_⟩
    dsimp only
    split
    · exact List.filter_sublist
    · exact List.Sublist.refl _
  rw [TimerWheel.cancelType] at h
  split at h
  · cases h
    exact ⟨⟨rfl, rfl, rfl, rfl⟩, fun i => List.Sublist.refl _⟩
  · split at h
    · cases h
    · cases h
      dsimp only
      split
      · exact (hfilter _).recalcEarliest
      · exact hfilter _

/-! ### Expiry -/

/-- No timer has the id. -/
def Fresh (id : ℤ) (w : TimerWheel α β) : Prop := ∀ i, ∀ n ∈ w.spokes i, n.timerId ≠ id

/-- **A timer with a new id goes into a spoke.** -/
theorem IdsInv.scheduleNode (h : IdsInv w) {spoke home : ℕ} {cnt : ℤ}
    (hspoke : spoke < w.spokeCount) (hhome : home < w.spokeCount) (hc₀ : 0 ≤ cnt)
    (hc₁ : cnt < w.counters home) (hid : n.timerId = w.mkId cnt home)
    (hfresh : Fresh n.timerId w) : IdsInv (w.scheduleNode n spoke) := by
  have ho := h.opened
  have hmem : ∀ i, ∀ m ∈ (w.scheduleNode n spoke).spokes i,
      (m = n ∧ i = spoke) ∨ m ∈ w.spokes i := by
    intro i m hm
    replace hm : m ∈ Function.update w.spokes spoke _ i := hm
    rw [Function.update_apply] at hm
    split at hm
    case isTrue hi =>
      rcases SortedInsert.mem_insertBack.mp hm with rfl | hm
      · exact Or.inl ⟨rfl, hi⟩
      · exact Or.inr (hi ▸ hm)
    case isFalse => exact Or.inr hm
  refine ⟨⟨ho.1, ho.2, ho.3, ho.4, ho.5, ho.6⟩, h.counter, fun i hi => ?_, fun i m hm => ?_,
    fun i => ?_, fun i j hij m hm m' hm' => ?_⟩
  · show Function.update w.spokes spoke _ i = []
    rw [Function.update_of_ne (fun heq => by
      rw [heq] at hi
      exact absurd hspoke (not_lt.mpr hi))]
    exact h.outside i hi
  · rcases hmem i m hm with ⟨rfl, -⟩ | hm
    · exact ⟨home, cnt, hhome, hc₀, hc₁, hid⟩
    · exact h.made i m hm
  · show ((Function.update w.spokes spoke _ i).map _).Nodup
    rw [Function.update_apply]
    split
    case isTrue =>
      rw [(insertBack_perm.map _).nodup_iff, List.map_cons, List.nodup_cons]
      refine ⟨fun hcon => ?_, h.distinct spoke⟩
      obtain ⟨m, hm, hmid⟩ := List.mem_map.mp hcon
      exact hfresh spoke m hm hmid
    case isFalse => exact h.distinct i
  · rcases hmem i m hm with ⟨rfl, hi⟩ | hold <;> rcases hmem j m' hm' with ⟨rfl, hj⟩ | hold'
    · exact absurd (hi.trans hj.symm) hij
    · exact (hfresh j m' hold').symm
    · exact hfresh i m hold
    · exact h.disjoint i j hij m hold m' hold'

/-- **`remove_first_expired`** takes out a timer, whose id is then free. -/
theorem IdsInv.removeFirstExpired (h : IdsInv w) {now : TimeValue}
    (hr : w.removeFirstExpired now = some (n, w')) :
    FewerIds w w' ∧ n ∈ w.spokes w.earliestSpoke ∧ Fresh n.timerId w' := by
  rw [TimerWheel.removeFirstExpired] at hr
  split at hr
  · cases hr
  · rename_i m hfirst
    split_ifs at hr
    cases hr
    have hn : n ∈ w.spokes w.earliestSpoke := List.mem_of_mem_head? hfirst
    refine ⟨(fewerIds_unlink ..).recalcEarliest, hn, ?_⟩
    have hfresh : Fresh n.timerId (w.unlink w.earliestSpoke n.timerId) := by
      intro i m hm
      replace hm : m ∈ Function.update w.spokes _ _ i := hm
      rw [Function.update_apply] at hm
      split at hm
      case isTrue hi =>
        rw [Keyed.eraseP_eq_filter (h.distinct _)] at hm
        exact of_decide_eq_true (List.mem_filter.mp hm).2
      case isFalse hi => exact h.disjoint i _ hi m hm n hn
    rw [TimerWheel.recalcEarliest]
    split <;> exact hfresh

/-- **`expire` keeps the invariant**: a timer that comes back has the id it had. -/
theorem IdsInv.expire {fuel : ℕ} {curTime : TimeValue} {infos : List (DispatchInfo α β)}
    (h : IdsInv w) (he : w.expire fuel curTime = some (infos, w')) : IdsInv w' := by
  induction fuel generalizing w infos with
  | zero => cases he
  | succ fuel ih =>
    rw [TimerWheel.expire] at he
    split at he
    · cases he
      exact h
    · rename_i n w₁ hr
      obtain ⟨hfewer, hn, hfresh⟩ := h.removeFirstExpired hr
      have h₁ := h.fewer hfewer
      have hback : ∀ w₂, (if TimeValue.zero < n.interval then
          (recomputeNextAbsIntervalTime n curTime).map w₁.reschedule else some w₁) = some w₂ →
          IdsInv w₂ := by
        intro w₂ h₂
        split at h₂
        · obtain ⟨n', hn', rfl⟩ := Option.map_eq_some_iff.mp h₂
          have hid : n'.timerId = n.timerId := by
            obtain ⟨t, rfl⟩ := recompute_eq_some hn'
            rfl
          obtain ⟨home, cnt, hhome, hc₀, hc₁, hmk⟩ := h.made _ n hn
          refine h₁.scheduleNode (w₁.calculateSpoke_lt _) (?_ : home < w₁.spokeCount) hc₀
            (?_ : cnt < w₁.counters home) ?_ (hid ▸ hfresh)
          · rwa [spokeCount, hfewer.spokeBits]
          · rwa [hfewer.counters]
          · rw [hid, hmk, mkId, mkId, hfewer.spokeBits, hfewer.longBits]
        · cases h₂
          exact h₁
      dsimp only at he
      split at he
      · cases he
      · rename_i w₂ h₂
        split at he
        · cases he
        · rename_i infos' t ht
          cases he
          exact ih (hback w₂ h₂) ht

/-! ### New ids -/

/-- The search of `generate_timer_id` finds a count whose id no timer of the spoke has, or
fails. -/
theorem searchId_spec (w : TimerWheel α β) (spoke : ℕ) (maxCnt cnt : ℤ) :
    w.searchId spoke maxCnt cnt = -1 ∨ ∃ c, cnt ≤ c ∧ c < maxCnt - 1 ∧
      w.searchId spoke maxCnt cnt = w.mkId c spoke ∧ ∀ n ∈ w.spokes spoke,
        n.timerId ≠ w.mkId c spoke := by
  fun_induction searchId spoke maxCnt cnt w with
  | case1 cnt hlt hnone =>
    refine Or.inr ⟨cnt, le_rfl, hlt, rfl, fun n hn => ?_⟩
    rw [findSpokeNode, List.find?_eq_none] at hnone
    simpa using hnone n hn
  | case2 cnt hlt hsome ih =>
    rcases ih with hfail | ⟨c, hc, hrest⟩
    · exact Or.inl hfail
    · exact Or.inr ⟨c, by omega, hrest⟩
  | case3 cnt hge => exact Or.inl rfl

/-- The counter of a spoke may be set to any value that is above the counts of the timers. -/
theorem IdsInv.setCounter (h : IdsInv w) {spoke : ℕ} {c : ℤ} (hc₀ : 0 ≤ c)
    (hc₁ : c ≤ 2 ^ (w.longBits - w.spokeBits) - 1)
    (hold : ∀ i, ∀ n ∈ w.spokes i, ∀ cnt : ℤ, 0 ≤ cnt → cnt < w.counters spoke →
      n.timerId = w.mkId cnt spoke → cnt < c) :
    IdsInv { w with counters := Function.update w.counters spoke c } := by
  have ho := h.opened
  refine ⟨⟨ho.1, ho.2, ho.3, ho.4, ho.5, ho.6⟩, fun i => ?_, h.outside, fun i n hn => ?_,
    h.distinct, h.disjoint⟩
  · show 0 ≤ Function.update w.counters spoke c i ∧ Function.update w.counters spoke c i ≤ _
    rw [Function.update_apply]
    split
    · exact ⟨hc₀, hc₁⟩
    · exact h.counter i
  · obtain ⟨home, cnt, hhome, hcnt₀, hcnt₁, hid⟩ := h.made i n hn
    refine ⟨home, cnt, hhome, hcnt₀, ?_, hid⟩
    show cnt < Function.update w.counters spoke c home
    rw [Function.update_apply]
    split
    case isTrue heq =>
      rw [heq] at hcnt₁ hid
      exact hold i n hn cnt hcnt₀ hcnt₁ hid
    case isFalse => exact hcnt₁

/-- A timer with an id of a spoke has a count below the counter. -/
theorem IdsInv.lt_counter (h : IdsInv w) {spoke i : ℕ} {c : ℤ} (hs : spoke < w.spokeCount)
    (hn : n ∈ w.spokes i) (hc₀ : 0 ≤ c) (hc₁ : c < 2 ^ (w.longBits - w.spokeBits))
    (hid : n.timerId = w.mkId c spoke) : c < w.counters spoke := by
  obtain ⟨home, cnt, hhome, hcnt₀, hcnt₁, hmk⟩ := h.made i n hn
  have := (h.counter home).2
  obtain ⟨rfl, rfl⟩ := mkId_inj h.opened hcnt₀ (by omega) hhome hc₀ hc₁ hs (hmk.symm.trans hid)
  exact hcnt₁

/-- **When the counter is exhausted and the call is safe**, a timer with an id of the spoke is in
the spoke. -/
theorem IdsInv.home_eq (h : IdsInv w) {spoke i : ℕ} {cnt : ℤ} (hs : spoke < w.spokeCount)
    (hsafe : ∀ i, i < w.spokeCount → i ≠ spoke →
      ∀ n ∈ w.spokes i, n.timerId % 2 ^ w.spokeBits ≠ spoke)
    (hn : n ∈ w.spokes i) (hc₀ : 0 ≤ cnt) (hc₁ : cnt < w.counters spoke)
    (hid : n.timerId = w.mkId cnt spoke) : i = spoke := by
  by_contra hne
  have := (h.counter spoke).2
  have hi : i < w.spokeCount := by
    by_contra hge
    rw [h.outside i (not_lt.mp hge)] at hn
    cases hn
  refine hsafe i hi hne n hn ?_
  rw [hid, mkId_emod_spoke h.opened hc₀ (by omega) hs]

/-- **A new id is new**, when the call does not run into the defect. -/
theorem IdsInv.generateTimerId (h : IdsInv w) {spoke : ℕ} (hs : spoke < w.spokeCount)
    (hsafe : w.maxCnt spoke ≤ w.counters spoke → ∀ i, i < w.spokeCount → i ≠ spoke →
      ∀ n ∈ w.spokes i, n.timerId % 2 ^ w.spokeBits ≠ spoke) {id : ℤ}
    (hg : w.generateTimerId spoke = (id, w')) :
    IdsInv w' ∧ w'.spokeBits = w.spokeBits ∧ (id ≠ -1 → Fresh id w' ∧ ∃ cnt, 0 ≤ cnt ∧
        cnt < w'.counters spoke ∧ id = w'.mkId cnt spoke) := by
  have ho := h.opened
  have hmax := maxCnt_eq (w := w) hs
  obtain ⟨hk₀, hk₁⟩ := h.counter spoke
  have hbig : (2 : ℤ) ^ 20 ≤ 2 ^ (w.longBits - w.spokeBits) :=
    pow_le_pow_right₀ (by norm_num) (by have := ho.longBits_ge; have := ho.spokeBits_le; omega)
  rw [TimerWheel.generateTimerId] at hg
  split at hg
  case isTrue hlt =>
    -- all counts given out are below the counter
    cases hg
    refine ⟨h.setCounter (by omega) (by omega) fun i n hn cnt hcnt₀ hcnt₁ hid => by omega, rfl,
      fun _ => ⟨fun i n hn hid => ?_, w.counters spoke, hk₀, ?_, rfl⟩⟩
    · exact absurd (h.lt_counter hs hn hk₀ (by omega) hid) (lt_irrefl _)
    · show _ < Function.update w.counters spoke _ spoke
      rw [Function.update_self]
      omega
  case isFalse hge =>
    rw [not_lt] at hge
    split at hg
    case isTrue hempty =>
      -- the spoke is empty, and no other timer has an id of it
      cases hg
      rw [List.isEmpty_iff] at hempty
      have hnone : ∀ i, ∀ n ∈ w.spokes i, ∀ cnt : ℤ, 0 ≤ cnt → cnt < w.counters spoke →
          n.timerId ≠ w.mkId cnt spoke := by
        intro i n hn cnt hcnt₀ hcnt₁ hid
        obtain rfl := h.home_eq hs (hsafe hge) hn hcnt₀ hcnt₁ hid
        rw [hempty] at hn
        cases hn
      have hzero : (spoke : ℤ) = w.mkId 0 spoke := by
        have hcast : ((2 ^ w.longBits : ℕ) : ℤ) = 2 ^ w.longBits := by push_cast; rfl
        have hlong : (2 : ℤ) ^ 32 ≤ 2 ^ w.longBits :=
          pow_le_pow_right₀ (by norm_num) ho.longBits_ge
        have hspoke : 2 ^ w.spokeBits ≤ 2 ^ 12 := Nat.pow_le_pow_right (by norm_num) ho.spokeBits_le
        rw [spokeCount] at hs
        rw [mkId, zero_mul, zero_add, Int.bmod_eq_of_le (by omega) (by omega)]
      refine ⟨h.setCounter (by omega) (by omega) fun i n hn cnt hcnt₀ hcnt₁ hid =>
        absurd hid (hnone i n hn cnt hcnt₀ hcnt₁), rfl,
        fun _ => ⟨fun i n hn hid => ?_, 0, le_rfl, ?_, hzero⟩⟩
      · rw [hzero] at hid
        exact hnone i n hn 0 le_rfl (by omega) hid
      · show 0 < Function.update w.counters spoke _ spoke
        rw [Function.update_self]
        omega
    case isFalse =>
      -- the id is free in the spoke, and no other timer has an id of it
      cases hg
      refine ⟨h, rfl, fun hne => ?_⟩
      rcases searchId_spec w spoke (w.maxCnt spoke) 0 with hfail | ⟨c, hc₀, hc₁, hid, hfree⟩
      · exact absurd hfail hne
      · refine ⟨fun i n hn hin => ?_, c, hc₀, by omega, hid⟩
        rw [hid] at hin
        obtain rfl := h.home_eq hs (hsafe hge) hn hc₀ (by omega) hin
        exact hfree n hn hin

/-! ### Runs -/

/-- **One call keeps the invariant.** -/
theorem IdsInv.step [DecidableEq α] (h : IdsInv w) {call : Call α β} (hsafe : OverflowSafe w call)
    {result : ℤ} (hstep : w.step call = some (w', result)) : IdsInv w' := by
  cases call with
  | schedule type act futureTime interval =>
    cases hstep
    have hs := w.calculateSpoke_lt futureTime
    rw [scheduleI]
    generalize hg : w.generateTimerId (w.calculateSpoke futureTime) = p
    obtain ⟨h₁, hbits, hnew⟩ := h.generateTimerId hs hsafe (hg : w.generateTimerId _ = (p.1, p.2))
    split
    case isTrue hne =>
      obtain ⟨hfresh, cnt, hc₀, hc₁, hid⟩ := hnew hne
      have hs' : w.calculateSpoke futureTime < p.2.spokeCount := by rwa [spokeCount, hbits]
      exact h₁.scheduleNode hs' hs' hc₀ hc₁ hid hfresh
    case isFalse => exact h₁
  | resetInterval timerId interval =>
    cases hstep
    exact h.fewer (fewerIds_resetInterval ..)
  | cancel timerId =>
    cases hstep
    exact h.fewer (fewerIds_cancel ..)
  | cancelType type =>
    obtain ⟨p, hp, heq⟩ := Option.map_eq_some_iff.mp hstep
    cases heq
    exact h.fewer (fewerIds_cancelType hp)
  | expire fuel curTime =>
    obtain ⟨p, hp, heq⟩ := Option.map_eq_some_iff.mp hstep
    cases heq
    exact h.expire hp

/-- A wheel that has just been opened has no ids. -/
theorem idsInv_open {longBits spokes res : ℕ} (hlong : 32 ≤ longBits ∧ longBits ≤ 64)
    (hopen : openI longBits spokes res = some w) : IdsInv w := by
  obtain ⟨ho, hspokes, hcounters, -, -⟩ := openI_eq_some hlong hopen
  have hempty : ∀ i, w.spokes i = [] := fun i => by rw [hspokes]
  have hpos : (0 : ℤ) < 2 ^ (w.longBits - w.spokeBits) := pow_pos (by norm_num) _
  refine ⟨ho, fun i => ?_, fun i _ => hempty i, fun i n hn => ?_, fun i => ?_,
    fun i j _ n hn => ?_⟩
  · have hzero : w.counters i = 0 := by rw [hcounters]
    omega
  · rw [hempty] at hn
    cases hn
  · rw [hempty]
    exact List.nodup_nil
  · rw [hempty] at hn
    cases hn

/-- **Ids are unique in every run whose calls do not run into the defect**, for every width of
`long` from 32 to 64 bits and every wheel that `open_i` makes. -/
theorem uniqueIds_of_run [DecidableEq α] {longBits spokes res : ℕ} {results : List ℤ}
    (hlong : 32 ≤ longBits ∧ longBits ≤ 64) (hopen : openI longBits spokes res = some w)
    (calls : List (Call α β)) (hsafe : Machine.Guarded step OverflowSafe w calls)
    (hrun : Machine.run step w calls = some (w', results)) : UniqueIds w' :=
  (Machine.inv_run_of_guarded (fun _ _ _ _ h hg hs => h.step hg hs) (idsInv_open hlong hopen)
    hsafe hrun).uniqueIds

/-- Two timers in one spoke, one of which is cancelled. -/
def cancellingCalls : List (Call ℕ ℕ) :=
  [.schedule 0 1 TimeValue.zero TimeValue.maxTime, .schedule 0 2 TimeValue.zero TimeValue.zero,
    .cancel 0, .expire 2 TimeValue.zero]

theorem uniqueIds_of_run_nonvacuous : ∃ w' results, Machine.run step
    (⟨32, 3, 1, fun _ => [], fun _ => 0, 0, 0⟩ : TimerWheel ℕ ℕ) cancellingCalls
      = some (w', results) ∧ UniqueIds w' := by
  have hspokes : power2bits (((8 : ℕ) : ℤ).bmod (2 ^ 32)) 3 12 = some 3 := by decide +kernel
  have hres : power2bits (((2 : ℕ) : ℤ).bmod (2 ^ 32)) 1 20 = some 1 := by decide +kernel
  have hopen : openI 32 8 2
      = some (⟨32, 3, 1, fun _ => [], fun _ => 0, 0, 0⟩ : TimerWheel ℕ ℕ) := by
    rw [openI, hspokes, hres]
    rfl
  exact ⟨_, _, rfl, uniqueIds_of_run (by decide) hopen cancellingCalls (by decide +kernel) rfl⟩

/-! ### Ids collide -/

section Collision

open TimeValue (zero ofMsec)
open SortedInsert (insertBack)

/-- Timers at the epoch that are scheduled and cancelled, with the ids from the count `k` on. -/
def exhaust (k : ℤ) : ℕ → List (Call Unit Unit)
  | 0 => []
  | m + 1 => .schedule () () zero zero :: .cancel ((k * 2 ^ 12).bmod (2 ^ 32)) :: exhaust (k + 1) m

/-- **A run in which ids collide**: a repeating timer with the id `0` moves to another spoke, and
the counter of its old spoke is used up. -/
def collidingCalls : List (Call Unit Unit) :=
  [.schedule () () zero (ofMsec 2), .expire 2 zero] ++ exhaust 1 (2 ^ 20 - 2) ++
    [.schedule () () zero zero]

/-- The repeating timer, after it has expired. -/
def moved : TimerNode Unit Unit := ⟨(), (), ofMsec 2, ofMsec 2, 0⟩

/-- A wheel of 4096 spokes with a 32-bit `long` holds the timers of the list, and `k` ids have
been given out in the spoke of the epoch. -/
structure Counting (k : ℤ) (l : List (TimerNode Unit Unit)) (w : TimerWheel Unit Unit) : Prop where
  spread : Spread w l
  longBits : w.longBits = 32
  spokeBits : w.spokeBits = 12
  resBits : w.resBits = 1
  counter : w.counters 0 = k

variable {k : ℤ} {l : List (TimerNode Unit Unit)} {w w' : TimerWheel Unit Unit}

theorem Counting.keepsIds (h : Counting k l w) {l' : List (TimerNode Unit Unit)}
    (hk : KeepsIds w w') (hs : Spread w' l') : Counting k l' w' :=
  ⟨hs, hk.longBits.trans h.longBits, hk.spokeBits.trans h.spokeBits, hk.resBits.trans h.resBits,
    (congrFun hk.counters 0).trans h.counter⟩

theorem Counting.calculateSpoke_zero (h : Counting k l w) : w.calculateSpoke zero = 0 := by
  have hmsec : zero.msec 32 = 0 := rfl
  rw [calculateSpoke, h.longBits, hmsec, Nat.zero_shiftRight, Nat.zero_and]

/-- A timer at the epoch gets the next id of its spoke. -/
theorem Counting.schedule (h : Counting k l w) (interval : TimeValue) (hk₀ : 0 ≤ k)
    (hk₁ : k < 2 ^ 20 - 1) :
    ∃ w', w.step (.schedule () () zero interval) = some (w', (k * 2 ^ 12).bmod (2 ^ 32)) ∧
      Counting (k + 1) (insertBack TimerNode.timerValue
        ⟨(), (), zero, interval, (k * 2 ^ 12).bmod (2 ^ 32)⟩ l) w' := by
  have hspoke := h.calculateSpoke_zero
  have hcount : 0 < w.spokeCount := Nat.two_pow_pos _
  have hwidth : (2 : ℤ) ^ (w.longBits - w.spokeBits) = 2 ^ 20 := by rw [h.longBits, h.spokeBits]
  have hmk : w.mkId k 0 = (k * 2 ^ 12).bmod (2 ^ 32) := by
    rw [mkId, h.longBits, h.spokeBits, Nat.cast_zero, add_zero]
  have hne : w.mkId k 0 ≠ -1 := mkId_ne h.spread.opened hk₀ (by omega) hcount
  have hgen : w.generateTimerId (w.calculateSpoke zero)
      = (w.mkId k 0, { w with counters := Function.update w.counters 0 (k + 1) }) := by
    rw [generateTimerId, hspoke, h.counter, if_pos]
    rw [maxCnt_eq hcount, hwidth]
    exact hk₁
  obtain ⟨w', hw', hkeeps, hs⟩ := h.spread.scheduleI () () interval le_rfl hgen hne
  rw [hmk] at hw' hs
  refine ⟨w', congrArg (fun p : ℤ × _ => some (p.2, p.1)) hw', hs, hkeeps.longBits.trans h.longBits,
    hkeeps.spokeBits.trans h.spokeBits, hkeeps.resBits.trans h.resBits, ?_⟩
  rw [hkeeps.counters]
  exact Function.update_self (0 : ℕ) (k + 1) w.counters

/-- One timer is scheduled and cancelled. -/
theorem Counting.scheduleCancel (h : Counting k [moved] w) (hk₀ : 1 ≤ k)
    (hk₁ : k < 2 ^ 20 - 1) :
    ∃ w₁ w₂ r₁ r₂, w.step (.schedule () () zero zero) = some (w₁, r₁) ∧
      w₁.step (.cancel ((k * 2 ^ 12).bmod (2 ^ 32))) = some (w₂, r₂) ∧
      Counting (k + 1) [moved] w₂ := by
  obtain ⟨w₁, hw₁, h₁⟩ := h.schedule zero (by omega) hk₁
  have hemod : (k * 2 ^ 12).bmod (2 ^ 32) % (2 ^ 32 : ℕ) = k * 2 ^ 12 := by
    rw [Int.bmod_emod]
    exact Int.emod_eq_of_lt (by omega) (by push_cast; omega)
  generalize (k * 2 ^ 12).bmod (2 ^ 32) = id at hw₁ h₁ hemod ⊢
  have hne : id ≠ -1 := fun hcon => by
    rw [hcon] at hemod
    norm_num at hemod
    omega
  have hne₀ : (0 : ℤ) ≠ id := fun hcon => by
    rw [← hcon] at hemod
    norm_num at hemod
    omega
  -- the new timer is before the repeating one
  have hlist : insertBack TimerNode.timerValue (⟨(), (), zero, zero, id⟩ : TimerNode Unit Unit)
      [moved] = [⟨(), (), zero, zero, id⟩, moved] := rfl
  rw [hlist] at h₁
  have hd : DistinctIds [(⟨(), (), zero, zero, id⟩ : TimerNode Unit Unit), moved] := by
    refine List.nodup_cons.mpr ⟨fun hmem => ?_, List.nodup_singleton _⟩
    exact hne₀ (List.mem_singleton.mp hmem).symm
  obtain ⟨w₂, hw₂, hkeeps, hs⟩ := h₁.spread.cancel hd hne (List.mem_cons_self ..) rfl
  rw [List.filter_cons_of_neg (by simp), List.filter_cons_of_pos (a := moved) (decide_eq_true hne₀),
    List.filter_nil] at hs
  exact ⟨w₁, w₂, _, _, hw₁, congrArg (fun p : ℤ × _ × _ => some (p.2.2, p.1)) hw₂,
    h₁.keepsIds hkeeps hs⟩

/-- **The counter is used up.** The induction is on the number of timers that are scheduled and
cancelled. -/
theorem Counting.exhaust {m : ℕ} (h : Counting k [moved] w) (hk₀ : 1 ≤ k)
    (hk₁ : k + m ≤ 2 ^ 20 - 1) :
    ∃ w' results, Machine.run step w (exhaust k m) = some (w', results) ∧
      Counting (k + m) [moved] w' := by
  induction m generalizing k w with
  | zero => exact ⟨w, [], rfl, by rwa [Nat.cast_zero, add_zero]⟩
  | succ m ih =>
    push_cast at hk₁
    obtain ⟨w₁, w₂, r₁, r₂, hw₁, hw₂, h₂⟩ := h.scheduleCancel hk₀ (by omega)
    obtain ⟨w', results, hrun, h'⟩ := ih h₂ (by omega) (by omega)
    refine ⟨w', r₁ :: r₂ :: results, ?_, ?_⟩
    · rw [TimerWheel.exhaust, Machine.run_cons_eq_some]
      exact ⟨w₁, r₁, _, hw₁, Machine.run_cons_eq_some.mpr ⟨w₂, r₂, _, hw₂, hrun, rfl⟩, rfl⟩
    · push_cast
      rwa [show k + ((m : ℤ) + 1) = k + 1 + m by ring]

/-- The repeating timer is scheduled, expires and moves to another spoke. -/
theorem exists_moved (h : Counting 0 [] w) : ∃ w' results,
    Machine.run step w [.schedule () () zero (ofMsec 2), .expire 2 zero] = some (w', results) ∧
      Counting 1 [moved] w' := by
  obtain ⟨w₁, hw₁, h₁⟩ := h.schedule (ofMsec 2) le_rfl (by norm_num)
  rw [zero_mul, Int.zero_bmod] at hw₁ h₁
  obtain ⟨w₂, hw₂, hkeeps₂, hs₂⟩ := h₁.spread.removeFirstExpired
    (n := ⟨(), (), zero, ofMsec 2, 0⟩) (List.nodup_singleton _) le_rfl
  have hrecompute : recomputeNextAbsIntervalTime
      (⟨(), (), zero, ofMsec 2, 0⟩ : TimerNode Unit Unit) zero = some moved := by decide
  have hs₃ := hs₂.scheduleNode (n := moved) (by decide)
  have hstop : (w₂.reschedule moved).removeFirstExpired zero = none := by
    rw [TimerWheel.removeFirstExpired, reschedule, hs₃.getFirst]
    exact if_neg (by decide)
  have hexpire : w₁.expire 2 zero = some ([⟨(), (), true⟩], w₂.reschedule moved) := by
    have hlast : (w₂.reschedule moved).expire 1 zero = some ([], w₂.reschedule moved) := by
      rw [TimerWheel.expire, hstop]
    rw [TimerWheel.expire, hw₂]
    dsimp only
    rw [if_pos (by decide), hrecompute, Option.map_some]
    dsimp only
    rw [hlast]
    rfl
  refine ⟨w₂.reschedule moved, [0, 1], ?_, ?_⟩
  · refine Machine.run_cons_eq_some.mpr ⟨w₁, 0, [1], hw₁, ?_, rfl⟩
    refine Machine.run_cons_eq_some.mpr ⟨w₂.reschedule moved, 1, [], ?_, rfl, rfl⟩
    exact congrArg (Option.map fun p => (p.2, (p.1.length : ℤ))) hexpire
  · exact (h₁.keepsIds hkeeps₂ hs₂).keepsIds ⟨rfl, rfl, rfl, rfl⟩ hs₃

/-- **When the counter is used up**, the next timer gets the id of the repeating timer. -/
theorem Counting.collide (h : Counting (2 ^ 20 - 1) [moved] w) :
    ∃ w' result, w.step (.schedule () () zero zero) = some (w', result) ∧ ¬UniqueIds w' := by
  have hspoke := h.calculateSpoke_zero
  have hcount : 1 < w.spokeCount := by
    rw [spokeCount, h.spokeBits]
    norm_num
  have hmoved : w.calculateSpoke moved.timerValue = 1 := by
    rw [calculateSpoke, spokeCount, h.longBits, h.spokeBits, h.resBits]
    decide +kernel
  have hempty : w.spokes 0 = [] := by
    rw [h.spread.spokes 0 (by omega), inSpoke, List.filter_cons_of_neg, List.filter_nil]
    rw [hmoved]
    decide
  have hgen : w.generateTimerId (w.calculateSpoke zero)
      = (0, { w with counters := Function.update w.counters 0 1 }) := by
    rw [generateTimerId, hspoke, h.counter, if_neg, hempty]
    · rfl
    · rw [maxCnt_eq (by omega), h.longBits, h.spokeBits]
      norm_num
  obtain ⟨w', hw', hkeeps, hs⟩ := h.spread.scheduleI () () zero le_rfl hgen (by norm_num)
  refine ⟨w', 0, congrArg (fun p : ℤ × _ => some (p.2, p.1)) hw', fun hunique => ?_⟩
  have hmem : ∀ n ∈ insertBack TimerNode.timerValue (⟨(), (), zero, zero, 0⟩ : TimerNode Unit Unit)
      [moved], n ∈ w'.timers := fun n hn => by
    refine List.mem_flatMap.mpr ⟨w'.calculateSpoke n.timerValue,
      List.mem_range.mpr (w'.calculateSpoke_lt _), ?_⟩
    rw [hs.spokes _ (w'.calculateSpoke_lt _)]
    exact mem_inSpoke.mpr ⟨hn, rfl⟩
  have heq := List.inj_on_of_nodup_map hunique.1 (hmem _ (SortedInsert.mem_insertBack.mpr
    (Or.inl rfl))) (hmem moved (SortedInsert.mem_insertBack.mpr (Or.inr (List.mem_cons_self ..))))
    rfl
  exact absurd heq (by decide)

/-- **Ids collide.** -/
theorem uniqueIds_fails : ∃ w : TimerWheel Unit Unit, openI 32 4096 2 = some w ∧
    ∃ w' results, Machine.run step w collidingCalls = some (w', results) ∧ ¬UniqueIds w' := by
  have hspokes : power2bits (((4096 : ℕ) : ℤ).bmod (2 ^ 32)) 3 12 = some 12 := by decide +kernel
  have hres : power2bits (((2 : ℕ) : ℤ).bmod (2 ^ 32)) 1 20 = some 1 := by decide +kernel
  have hopen : openI 32 4096 2
      = some (⟨32, 12, 1, fun _ => [], fun _ => 0, 0, 0⟩ : TimerWheel Unit Unit) := by
    rw [openI, hspokes, hres]
    rfl
  refine ⟨_, hopen, ?_⟩
  have h₀ : Counting 0 [] (⟨32, 12, 1, fun _ => [], fun _ => 0, 0, 0⟩ : TimerWheel Unit Unit) :=
    ⟨spread_open (by norm_num) hopen, rfl, rfl, rfl, rfl⟩
  obtain ⟨w₁, r₁, hrun₁, h₁⟩ := exists_moved h₀
  obtain ⟨w₂, r₂, hrun₂, h₂⟩ := h₁.exhaust (m := 2 ^ 20 - 2) le_rfl (by norm_num)
  obtain ⟨w₃, r, hstep, hcollide⟩ := Counting.collide (w := w₂) (by norm_num at h₂ ⊢; exact h₂)
  refine ⟨w₃, (r₁ ++ r₂) ++ [r], Machine.run_append.mpr ⟨w₂, r₁ ++ r₂, [r],
    Machine.run_append.mpr ⟨w₁, r₁, r₂, hrun₁, hrun₂, rfl⟩, ?_, rfl⟩, hcollide⟩
  exact Machine.run_cons_eq_some.mpr ⟨w₃, r, [], hstep, rfl, rfl⟩

end Collision

end TimerWheel

end AceTao
