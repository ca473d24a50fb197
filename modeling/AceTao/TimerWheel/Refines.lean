import AceTao.TimerList
import AceTao.TimerWheel.Ops

/-!
# `ACE_Timer_Wheel_T` refines `ACE_Timer_List_T`

A client cannot tell the timing wheel from the sorted list
(`AceTao.TimerWheel.refines_timerList`). The relation between the two
(`AceTao.TimerWheel.Matches`) says that the wheel spreads the list, with the ids of the list
renamed to its own. The list counts its ids from zero, so the id of a timer in the list is the
number of the call that scheduled it. An id of the wheel is a count and a spoke, and as long
as the counts are small an id is never given out twice.
-/

namespace AceTao

namespace TimerWheel

open TimeValue (zero)
open SortedInsert (insertBack insertBack_perm insertBack_map mem_insertBack)

variable {α β : Type} {f : ℤ → ℤ} {len : ℕ} {q : TimerList α β} {w : TimerWheel α β}
  {n : TimerNode α β}

/-- A timer of the list, under the id it has in the wheel. -/
def relabel (f : ℤ → ℤ) (n : TimerNode α β) : TimerNode α β := { n with timerId := f n.timerId }

/-- **The ids the wheel has issued**: the call with number `k` has got the id `f k`, made of a
spoke and a count that the counter of the spoke has passed. -/
structure Issued (f : ℤ → ℤ) (len : ℕ) (w : TimerWheel α β) : Prop where
  few : len ≤ 2 ^ 19
  counter : ∀ i, 0 ≤ w.counters i ∧ w.counters i ≤ len
  made : ∀ k : ℤ, 0 ≤ k → k < len → ∃ (spoke : ℕ) (cnt : ℤ), spoke < w.spokeCount ∧ 0 ≤ cnt ∧
    cnt < w.counters spoke ∧ f k = cnt * 2 ^ w.spokeBits + spoke
  inj : ∀ j k : ℤ, 0 ≤ j → j < len → 0 ≤ k → k < len → f j = f k → j = k

/-- **The wheel holds the timers of the list**, under its own ids. -/
structure Matches (f : ℤ → ℤ) (len : ℕ) (q : TimerList α β) (w : TimerWheel α β) : Prop where
  spread : Spread w (q.nodes.map (relabel f))
  distinct : DistinctIds q.nodes
  known : ∀ n ∈ q.nodes, 0 ≤ n.timerId ∧ n.timerId < len
  counter : q.idCounter = len
  issued : Issued f len w

/-! ### Ids -/

theorem Issued.keepsIds {w' : TimerWheel α β} (h : Issued f len w) (hk : KeepsIds w w') :
    Issued f len w' := by
  have hc := hk.counters
  have hb := hk.spokeBits
  refine ⟨h.few, ?_, ?_, h.inj⟩
  · rw [hc]
    exact h.counter
  · rw [hc, hb, spokeCount, hb]
    exact h.made

/-- Issued ids are not `-1`. -/
theorem Issued.ne (h : Issued f len w) {k : ℤ} (h₀ : 0 ≤ k) (h₁ : k < len) : f k ≠ -1 := by
  obtain ⟨spoke, cnt, -, hcnt, -, hf⟩ := h.made k h₀ h₁
  have : 0 ≤ cnt * 2 ^ w.spokeBits := mul_nonneg hcnt (pow_nonneg (by norm_num) _)
  omega

/-- The ids of the wheel determine the spoke and the count they are made of. -/
theorem mul_add_inj {b i j : ℕ} {x y : ℤ} (hi : i < 2 ^ b) (hj : j < 2 ^ b)
    (h : x * 2 ^ b + i = y * 2 ^ b + j) : x = y ∧ i = j := by
  have hcast : ((2 ^ b : ℕ) : ℤ) = 2 ^ b := by push_cast; rfl
  have hmod : ∀ (x : ℤ) (i : ℕ), i < 2 ^ b → (x * 2 ^ b + i) % 2 ^ b = i := fun x i hi => by
    rw [add_comm, Int.add_mul_emod_self_right]
    exact Int.emod_eq_of_lt (by omega) (by omega)
  have hij : (i : ℤ) = j := by rw [← hmod x i hi, h, hmod y j hj]
  have hpos : (0 : ℤ) < 2 ^ b := pow_pos (by norm_num) _
  rw [hij, add_left_inj] at h
  exact ⟨mul_right_cancel₀ hpos.ne' h, by omega⟩

/-- **A new id**: as long as few ids have been issued, the next id is the count and the
spoke. -/
theorem Issued.generateTimerId (h : Issued f len w) (ho : Opened w) (hlen : len < 2 ^ 19)
    {spoke : ℕ} (hs : spoke < w.spokeCount) :
    ∃ w', w.generateTimerId spoke = (w.counters spoke * 2 ^ w.spokeBits + spoke, w') ∧
      w' = { w with counters := Function.update w.counters spoke (w.counters spoke + 1) } ∧
      Issued (Function.update f len (w.counters spoke * 2 ^ w.spokeBits + spoke)) (len + 1)
        w' := by
  obtain ⟨h₀, h₁⟩ := h.counter spoke
  have hb := ho.spokeBits_le
  have hl := ho.longBits_ge
  have hcast : ((2 ^ w.spokeBits : ℕ) : ℤ) = 2 ^ w.spokeBits := by push_cast; rfl
  have hpow : (2 : ℤ) ^ w.spokeBits ≤ 2 ^ 12 := pow_le_pow_right₀ (by norm_num) hb
  have hpos : (0 : ℤ) < 2 ^ w.spokeBits := pow_pos (by norm_num) _
  have hmax : w.counters spoke < w.maxCnt spoke := by
    have : (2 : ℤ) ^ 20 ≤ 2 ^ (w.longBits - w.spokeBits) :=
      pow_le_pow_right₀ (by norm_num) (by omega)
    rw [maxCnt]
    split <;> omega
  -- the id is less than `2 ^ 31`, so it fits into a `long`
  have hid : w.mkId (w.counters spoke) spoke = w.counters spoke * 2 ^ w.spokeBits + spoke := by
    have hnonneg : 0 ≤ w.counters spoke * 2 ^ w.spokeBits := mul_nonneg h₀ hpos.le
    have hle : w.counters spoke * 2 ^ w.spokeBits ≤ (2 ^ 19 - 1) * 2 ^ 12 :=
      mul_le_mul (by omega) hpow hpos.le (by norm_num)
    have hlong : (2 : ℤ) ^ 32 ≤ 2 ^ w.longBits := pow_le_pow_right₀ (by norm_num) hl
    have hcast' : ((2 ^ w.longBits : ℕ) : ℤ) = 2 ^ w.longBits := by push_cast; rfl
    rw [spokeCount] at hs
    rw [mkId]
    exact Int.bmod_eq_of_le (by omega) (by omega)
  rw [TimerWheel.generateTimerId, if_pos hmax, hid]
  refine ⟨_, rfl, rfl, by omega, fun i => ?_, fun k hk₀ hk₁ => ?_, fun j k hj₀ hj₁ hk₀ hk₁ => ?_⟩
  · show 0 ≤ Function.update w.counters spoke _ i ∧ Function.update w.counters spoke _ i ≤ _
    rw [Function.update_apply]
    have := h.counter i
    split <;> push_cast <;> omega
  · show ∃ (spoke' : ℕ) (cnt : ℤ), spoke' < w.spokeCount ∧ 0 ≤ cnt ∧
      cnt < Function.update w.counters spoke _ spoke' ∧ _ = cnt * 2 ^ w.spokeBits + spoke'
    rcases eq_or_ne k len with rfl | hne
    · refine ⟨spoke, w.counters spoke, hs, h₀, ?_, ?_⟩
      · rw [Function.update_self]
        omega
      · rw [Function.update_self]
    · obtain ⟨spoke', cnt, hs', hc₀, hc₁, hf⟩ := h.made k hk₀ (by push_cast at hk₁; omega)
      refine ⟨spoke', cnt, hs', hc₀, ?_, ?_⟩
      · rw [Function.update_apply]
        split
        case isTrue heq => rw [heq] at hc₁; omega
        case isFalse => exact hc₁
      · rw [Function.update_of_ne hne, hf]
  · -- an old id has a smaller count or another spoke
    have hnew : ∀ k, 0 ≤ k → k < (len : ℤ) → f k ≠ w.counters spoke * 2 ^ w.spokeBits + spoke := by
      intro k hk₀ hk₁ heq
      obtain ⟨spoke', cnt, hs', -, hc₁, hf⟩ := h.made k hk₀ hk₁
      obtain ⟨hc, hsp⟩ := mul_add_inj hs' hs (hf.symm.trans heq)
      rw [hsp] at hc₁
      omega
    push_cast at hj₁ hk₁
    rw [Function.update_apply, Function.update_apply]
    intro heq
    split_ifs at heq with hj hk hk
    · rw [hj, hk]
    · exact absurd heq.symm (hnew k hk₀ (by omega))
    · exact absurd heq (hnew j hj₀ (by omega))
    · exact h.inj j k hj₀ (by omega) hk₀ (by omega) heq

/-! ### The operations keep the relation -/

theorem map_relabel_congr {g : ℤ → ℤ} (h : ∀ n ∈ q.nodes, g n.timerId = f n.timerId) :
    q.nodes.map (relabel g) = q.nodes.map (relabel f) :=
  List.map_congr_left fun n hn => by rw [relabel, relabel, h n hn]

/-- The ids in the wheel are distinct as well. -/
theorem Matches.distinct_map (h : Matches f len q w) : DistinctIds (q.nodes.map (relabel f)) := by
  have hmap : (q.nodes.map (relabel f)).map TimerNode.timerId
      = (q.nodes.map TimerNode.timerId).map f := by
    rw [List.map_map, List.map_map]
    rfl
  rw [DistinctIds, hmap]
  refine h.distinct.map_on fun j hj k hk heq => ?_
  obtain ⟨m, hm, rfl⟩ := List.mem_map.mp hj
  obtain ⟨n, hn, rfl⟩ := List.mem_map.mp hk
  exact h.issued.inj _ _ (h.known m hm).1 (h.known m hm).2 (h.known n hn).1 (h.known n hn).2 heq

/-- Timers with an id of the list are those with the id of the wheel. -/
theorem Matches.relabel_timerId (h : Matches f len q w) {k : ℤ} (hk₀ : 0 ≤ k) (hk₁ : k < len)
    (hn : n ∈ q.nodes) : (relabel f n).timerId = f k ↔ n.timerId = k :=
  ⟨h.issued.inj _ _ (h.known n hn).1 (h.known n hn).2 hk₀ hk₁, congrArg f⟩

/-- **Scheduling** keeps the relation. -/
theorem Matches.scheduleNode (h : Matches f len q w) (hn : zero ≤ n.timerValue)
    (hid : 0 ≤ n.timerId ∧ n.timerId < len) (hnew : ∀ m ∈ q.nodes, m.timerId ≠ n.timerId) :
    Matches f len (q.scheduleNode n)
      (w.scheduleNode (relabel f n) (w.calculateSpoke n.timerValue)) := by
  refine ⟨?_, ?_, fun m hm => ?_, h.counter, h.issued.keepsIds ⟨rfl, rfl, rfl, rfl⟩⟩
  · show Spread _ ((insertBack _ n q.nodes).map (relabel f))
    rw [← insertBack_map (f := relabel f) fun _ => rfl]
    exact h.spread.scheduleNode (n := relabel f n) hn
  · show ((insertBack _ n q.nodes).map TimerNode.timerId).Nodup
    rw [(insertBack_perm.map _).nodup_iff, List.map_cons, List.nodup_cons]
    refine ⟨fun hmem => ?_, h.distinct⟩
    obtain ⟨m, hm, hmid⟩ := List.mem_map.mp hmem
    exact hnew m hm hmid
  · rcases mem_insertBack.mp hm with rfl | hm
    · exact hid
    · exact h.known m hm

/-- **`schedule`** keeps the relation, and succeeds on both sides. -/
theorem Matches.scheduleI (h : Matches f len q w) (type : α) (act : β)
    {futureTime : TimeValue} (interval : TimeValue) (htime : zero ≤ futureTime)
    (hlen : len < 2 ^ 19) :
    ∃ g q' w', q.scheduleI type act futureTime interval = ((len : ℤ), q') ∧
      w.scheduleI type act futureTime interval = (g len, w') ∧
      (∀ k : ℤ, k < len → g k = f k) ∧ Matches g (len + 1) q' w' := by
  obtain ⟨w₁, hgen, hw₁, hissued⟩ := h.issued.generateTimerId h.spread.opened hlen
    (w.calculateSpoke_lt futureTime)
  generalize hg : Function.update f (len : ℤ) _ = g at hissued
  have hold : ∀ k : ℤ, k < len → g k = f k := fun k hk => by
    rw [← hg, Function.update_of_ne (by omega)]
  have hgl : g len = w.counters (w.calculateSpoke futureTime) * 2 ^ w.spokeBits
      + w.calculateSpoke futureTime := by
    rw [← hg, Function.update_self]
  have hmatch : Matches g (len + 1) { q with idCounter := wrap64 (q.idCounter + 1) } w₁ := by
    refine ⟨?_, h.distinct, fun n hn => ?_, ?_, hissued⟩
    · show Spread w₁ (q.nodes.map (relabel g))
      rw [map_relabel_congr fun n hn => hold _ (h.known n hn).2, hw₁]
      exact h.spread.setCounters _
    · have := h.known n hn
      push_cast
      omega
    · show wrap64 (q.idCounter + 1) = _
      rw [h.counter, wrap64_of_fits (by omega) (by omega)]
      push_cast
      rfl
  have hne : g len ≠ -1 := hissued.ne (by omega) (by push_cast; omega)
  have hcalc : w.calculateSpoke futureTime = w₁.calculateSpoke futureTime := by rw [hw₁]; rfl
  have hsched := hmatch.scheduleNode (n := ⟨type, act, futureTime, interval, len⟩) htime
    (by push_cast; exact ⟨by omega, by omega⟩) fun n hn => by
      have := (h.known n hn).2
      exact this.ne
  refine ⟨g, _, _, ?_, ?_, hold, hsched⟩
  · rw [TimerList.scheduleI, h.counter]
    exact if_pos (by omega)
  · rw [TimerWheel.scheduleI, hgen, ← hgl]
    dsimp only
    rw [if_pos hne, hcalc]
    rfl

/-- The list, under the ids of the wheel, without the timer with an id. -/
theorem Matches.filter_id (h : Matches f len q w) {k : ℤ} (hk₀ : 0 ≤ k) (hk₁ : k < len) :
    (q.nodes.map (relabel f)).filter (fun n => n.timerId ≠ f k)
      = (q.nodes.filter fun n => n.timerId ≠ k).map (relabel f) := by
  rw [List.filter_map]
  refine congrArg _ (List.filter_congr fun n hn => ?_)
  rw [Function.comp_apply, decide_eq_decide, ne_eq, h.relabel_timerId hk₀ hk₁ hn]

/-- A timer with an id is in the list if and only if it is in the wheel. -/
theorem Matches.find?_eq_none (h : Matches f len q w) {k : ℤ} (hk₀ : 0 ≤ k) (hk₁ : k < len)
    (hf : q.findNode k = none) :
    (q.nodes.map (relabel f)).find? (fun n => n.timerId = f k) = none := by
  rw [List.find?_eq_none]
  intro n hn
  obtain ⟨m, hm, rfl⟩ := List.mem_map.mp hn
  rw [decide_eq_true_eq, h.relabel_timerId hk₀ hk₁ hm]
  intro hmk
  rw [TimerList.findNode, List.find?_eq_none] at hf
  exact hf m hm (decide_eq_true hmk)

/-- Timers that go from both sides. -/
theorem Matches.of_filter {w' : TimerWheel α β} {q' : TimerList α β} (h : Matches f len q w)
    (hk : KeepsIds w w') (hq : q'.nodes.Sublist q.nodes) (hc : q'.idCounter = q.idCounter)
    (hs : Spread w' (q'.nodes.map (relabel f))) : Matches f len q' w' :=
  ⟨hs, h.distinct.sublist hq, fun n hn => h.known n (hq.subset hn), hc.trans h.counter,
    h.issued.keepsIds hk⟩

/-- **`cancel (timer_id)`** keeps the relation, and has the same result. -/
theorem Matches.cancel (h : Matches f len q w) {k : ℤ} (hk₀ : 0 ≤ k) (hk₁ : k < len) :
    ∃ r a q' w', q.cancel k = (r, a, q') ∧ w.cancel (f k) = (r, a, w') ∧
      Matches f len q' w' := by
  have hne := h.issued.ne hk₀ hk₁
  rw [TimerList.cancel]
  cases hf : q.findNode k with
  | none =>
    refine ⟨0, none, q, w, rfl, ?_, h⟩
    rw [TimerWheel.cancel, h.spread.findNode h.distinct_map hne, h.find?_eq_none hk₀ hk₁ hf,
      Option.map_none]
  | some n =>
    have hn : n ∈ q.nodes := List.mem_of_find?_eq_some hf
    have hnk : n.timerId = k := by simpa using List.find?_some hf
    obtain ⟨w', hw', hkeeps, hs⟩ := h.spread.cancel h.distinct_map hne
      (List.mem_map_of_mem hn) (congrArg f hnk)
    rw [h.filter_id hk₀ hk₁] at hs
    refine ⟨1, some n.act, _, w', rfl, hw', h.of_filter hkeeps (List.eraseP_sublist ..) rfl ?_⟩
    show Spread w' ((q.nodes.eraseP _).map (relabel f))
    rw [Keyed.eraseP_eq_filter h.distinct]
    exact hs

/-- **`reset_interval`** keeps the relation, and has the same result. -/
theorem Matches.resetInterval (h : Matches f len q w) {k : ℤ} (hk₀ : 0 ≤ k) (hk₁ : k < len)
    (interval : TimeValue) :
    ∃ r q' w', q.resetInterval k interval = (r, q') ∧ w.resetInterval (f k) interval = (r, w') ∧
      Matches f len q' w' := by
  have hne := h.issued.ne hk₀ hk₁
  rw [TimerList.resetInterval]
  cases hf : q.findNode k with
  | none =>
    refine ⟨-1, q, w, rfl, ?_, h⟩
    rw [TimerWheel.resetInterval, h.spread.findNode h.distinct_map hne,
      h.find?_eq_none hk₀ hk₁ hf, Option.map_none]
  | some n =>
    have hn : n ∈ q.nodes := List.mem_of_find?_eq_some hf
    have hnk : n.timerId = k := by simpa using List.find?_some hf
    obtain ⟨w', hw', hkeeps, hs⟩ := h.spread.resetInterval h.distinct_map hne
      (List.mem_map_of_mem hn) (congrArg f hnk) interval
    have hids : ∀ m : TimerNode α β,
        (if m.timerId = k then m.setInterval interval else m).timerId = m.timerId := fun m => by
      split <;> rfl
    refine ⟨0, _, w', rfl, hw', ?_, ?_, ?_, h.counter, h.issued.keepsIds hkeeps⟩ <;> dsimp only <;>
      rw [replaceF_withInterval h.distinct]
    · convert hs using 1
      rw [List.map_map, List.map_map]
      refine List.map_congr_left fun m hm => ?_
      rw [Function.comp_apply, Function.comp_apply]
      by_cases hmk : m.timerId = k
      · rw [if_pos hmk, if_pos ((h.relabel_timerId hk₀ hk₁ hm).mpr hmk)]
        rfl
      · rw [if_neg hmk, if_neg fun hcon => hmk ((h.relabel_timerId hk₀ hk₁ hm).mp hcon)]
    · have hmap : (q.nodes.map fun m => if m.timerId = k then m.setInterval interval else m).map
          TimerNode.timerId = q.nodes.map TimerNode.timerId := by
        rw [List.map_map]
        exact List.map_congr_left fun m _ => hids m
      rw [DistinctIds, hmap]
      exact h.distinct
    · intro m hm
      obtain ⟨m', hm', rfl⟩ := List.mem_map.mp hm
      rw [hids]
      exact h.known m' hm'

/-- **`cancel (type)`** keeps the relation, and has the same result. -/
theorem Matches.cancelType [DecidableEq α] (h : Matches f len q w) (type : α) :
    ∃ r q' w', q.cancelType type = (r, q') ∧ w.cancelType type = some (r, w') ∧
      Matches f len q' w' := by
  obtain ⟨w', hw', hkeeps, hs⟩ := h.spread.cancelType type
  have hcount : ((q.nodes.map (relabel f)).countP fun n => n.type = type)
      = q.nodes.countP fun n => n.type = type := List.countP_map
  rw [List.filter_map] at hs
  rw [hcount] at hw'
  exact ⟨_, _, w', rfl, hw', h.of_filter hkeeps List.filter_sublist rfl hs⟩

/-! ### Expiry -/

/-- **Both loops of `expire` dispatch the same timers.** The base class looks at the first timer
before it takes it out and the wheel takes it out if it is due; no timer is dispatched
twice, since a next expiry that is not before the epoch is after the current time. -/
theorem Matches.expireLoop {curTime : TimeValue} (fuel : ℕ) (h : Matches f len q w)
    (hepoch : ∀ n ∈ q.nodes, Due curTime n → Recurring n → n.interval.toUsec ≠ 0 →
      zero ≤ nextExpiry curTime n) :
    Option.Rel (fun p p' => p.1 = p'.1 ∧ Matches f len p.2 p'.2)
      (AceTao.expireLoop fuel curTime q) (w.expire fuel curTime) := by
  induction fuel generalizing q w with
  | zero => exact .none
  | succ fuel ih =>
    obtain ⟨nodes, idCounter, sorted⟩ := q
    have hfirst := h.spread.getFirst
    rw [List.head?_map] at hfirst
    cases nodes with
    | nil =>
      have hw : w.removeFirstExpired curTime = none := by
        rw [TimerWheel.removeFirstExpired, hfirst]
        rfl
      rw [TimerWheel.expire, hw]
      exact .some ⟨rfl, h⟩
    | cons n rest =>
      rw [AceTao.expireLoop, TimerList.dispatchInfoI_cons]
      by_cases hdue : n.timerValue ≤ curTime
      · obtain ⟨w₁, hw₁, hkeeps, hspread⟩ := h.spread.removeFirstExpired (n := relabel f n)
          h.distinct_map hdue
        have hrest : Matches f len ⟨rest, idCounter, (List.pairwise_cons.mp sorted).2⟩ w₁ :=
          h.of_filter hkeeps (List.sublist_cons_self ..) rfl hspread
        rw [if_pos hdue, TimerWheel.expire, hw₁]
        have hepoch' := fun m hm => hepoch m (List.mem_cons_of_mem n hm)
        by_cases hrec : zero < n.interval
        · have hrec' : zero < (relabel f n).interval := hrec
          have hrecompute : recomputeNextAbsIntervalTime (relabel f n) curTime
              = (recomputeNextAbsIntervalTime n curTime).map (relabel f) := by
            rw [recompute_of_due hdue, recompute_of_due (show Due curTime (relabel f n) from hdue)]
            split
            case isTrue h0 => rw [if_pos (show n.interval.toUsec = 0 from h0)]; rfl
            case isFalse h0 => rw [if_neg (show n.interval.toUsec ≠ 0 from h0)]; rfl
          rw [if_pos hrec]
          dsimp only
          rw [if_pos hrec', hrecompute, recompute_of_due hdue]
          by_cases h0 : n.interval.toUsec = 0
          · rw [if_pos h0]
            exact .none
          · rw [if_neg h0]
            -- the timer comes back on both sides, and is not due any more
            have hnext := hepoch n (List.mem_cons_self ..) hdue hrec h0
            have hlater := lt_nextExpiry_of_epoch h0 hnext
            have hrel := ih (hrest.scheduleNode (n := renew curTime n) hnext
              (h.known n (List.mem_cons_self ..)) fun m hm heq => ?_) fun m hm hmdue => ?_
            · simp only [Option.map_some]
              change Option.Rel _ (AceTao.expireLoop fuel curTime (TimerList.reschedule _ _))
                (TimerWheel.expire fuel curTime (w₁.reschedule (relabel f (renew curTime n)))) at hrel
              generalize AceTao.expireLoop fuel curTime (TimerList.reschedule _ _) = r at hrel ⊢
              generalize TimerWheel.expire fuel curTime (w₁.reschedule _) = r' at hrel ⊢
              cases hrel with
              | none => exact .none
              | some hp => exact .some ⟨congrArg (n.getDispatchInfo :: ·) hp.1, hp.2⟩
            · have hdist := h.distinct
              rw [DistinctIds, List.map_cons, List.nodup_cons] at hdist
              exact hdist.1 (heq ▸ List.mem_map_of_mem hm)
            · rcases mem_insertBack.mp hm with rfl | hm
              · exact absurd hmdue (not_le.mpr hlater)
              · exact hepoch' m hm hmdue
        · have hrec' : ¬zero < (relabel f n).interval := hrec
          rw [if_neg hrec]
          dsimp only
          rw [if_neg hrec']
          dsimp only
          have hrel := ih hrest hepoch'
          generalize AceTao.expireLoop fuel curTime (_ : TimerList α β) = r at hrel ⊢
          generalize w₁.expire fuel curTime = r' at hrel ⊢
          cases hrel with
          | none => exact .none
          | some hp => exact .some ⟨congrArg (n.getDispatchInfo :: ·) hp.1, hp.2⟩
      · have hw : w.removeFirstExpired curTime = none := by
          rw [TimerWheel.removeFirstExpired, hfirst]
          exact if_neg hdue
        rw [if_neg hdue, TimerWheel.expire, hw]
        exact .some ⟨rfl, h⟩

/-! ### Clients -/

theorem Matches.isEmpty (h : Matches f len q w) : w.isEmpty = q.isEmpty := by
  rw [Bool.eq_iff_iff, h.spread.isEmpty_iff, List.map_eq_nil_iff, TimerList.isEmpty,
    List.isEmpty_iff]

theorem Matches.earliestTime (h : Matches f len q w) : w.earliestTime = q.earliestTime := by
  rw [h.spread.earliestTime, List.head?_map, TimerList.earliestTime]
  cases q.nodes <;> rfl

/-- The clients observe the same. -/
theorem Matches.observe [DecidableEq α] (h : Matches f len q w) (r : ℤ) (a : Option β)
    (d : List (DispatchInfo α β)) : observe r a d q = observe r a d w := by
  show (⟨r, a, d, q.isEmpty, q.earliestTime⟩ : Observation α β)
    = ⟨r, a, d, w.isEmpty, w.earliestTime⟩
  rw [h.isEmpty, h.earliestTime]

/-- **The clients of the list and of the wheel**: the list has issued the numbers from zero
on. -/
def Related (c : Client (TimerList α β)) (c' : Client (TimerWheel α β)) : Prop :=
  ∃ f len, Matches f len c.queue c'.queue ∧ c.issued = (List.range len).map Nat.cast ∧
    c'.issued = c.issued.map f

/-- **The runs in question**: fewer than `2 ^ 19` timers have been scheduled before a timer is,
and no timer expires before the epoch, neither when it is scheduled nor when `expire`
reschedules it. -/
def InScope (c : Client (TimerList α β)) : Command α β → Prop
  | .schedule _ _ futureTime _ => zero ≤ futureTime ∧ c.issued.length < 2 ^ 19
  | .expire curTime => ∀ n ∈ c.queue.nodes, Due curTime n → Recurring n →
      n.interval.toUsec ≠ 0 → zero ≤ nextExpiry curTime n
  | _ => True

instance : ∀ (c : Client (TimerList α β)) (cmd : Command α β), Decidable (InScope c cmd)
  | c, .schedule _ _ futureTime _ =>
    inferInstanceAs (Decidable (zero ≤ futureTime ∧ c.issued.length < 2 ^ 19))
  | c, .expire curTime =>
    inferInstanceAs (Decidable (∀ n ∈ c.queue.nodes, Due curTime n → Recurring n →
      n.interval.toUsec ≠ 0 → zero ≤ nextExpiry curTime n))
  | _, .cancel _ => inferInstanceAs (Decidable True)
  | _, .cancelType _ => inferInstanceAs (Decidable True)
  | _, .resetInterval _ _ => inferInstanceAs (Decidable True)

/-- **One call keeps the clients related** and is observed as the same. -/
theorem Related.step [DecidableEq α] (fuel : ℕ) {c : Client (TimerList α β)}
    {c' : Client (TimerWheel α β)} (h : Related c c') (cmd : Command α β) (hg : InScope c cmd) :
    Option.Rel (fun p p' => Related p.1 p'.1 ∧ p.2 = p'.2) (c.step (fuel + 1) cmd)
      (c'.step (fuel + 1) cmd) := by
  obtain ⟨f, len, hm, hi, hi'⟩ := h
  have hlen : c.issued.length = len := by rw [hi, List.length_map, List.length_range]
  -- the ids of a call that was made
  have hissued : ∀ k, (len ≤ k ∧ c.issued[k]? = none ∧ c'.issued[k]? = none) ∨
      (k < len ∧ c.issued[k]? = some (k : ℤ) ∧ c'.issued[k]? = some (f k)) := by
    intro k
    rw [hi', List.getElem?_map, hi, List.getElem?_map]
    rcases Nat.lt_or_ge k len with hk | hk
    · rw [List.getElem?_range hk]
      exact Or.inr ⟨hk, rfl, rfl⟩
    · rw [List.getElem?_eq_none (by rwa [List.length_range])]
      exact Or.inl ⟨hk, rfl, rfl⟩
  cases cmd with
  | schedule type act futureTime interval =>
    rw [InScope, hlen] at hg
    obtain ⟨g, q', w', hq, hw, hgf, hm'⟩ := hm.scheduleI type act interval hg.1 hg.2
    have hne : g len ≠ -1 := hm'.issued.ne (by omega) (by push_cast; omega)
    have hq' : TimerService.schedule type act futureTime interval c.queue = ((len : ℤ), q') := hq
    have hw' : TimerService.schedule type act futureTime interval c'.queue = (g len, w') := hw
    simp only [Client.step, hq', hw']
    rw [if_neg (by omega), if_neg hne]
    refine .some ⟨⟨g, len + 1, hm', ?_, ?_⟩, hm'.observe ..⟩
    · rw [hi, List.range_succ, List.map_append]
      rfl
    · rw [List.map_append, hi', hi, List.map_map, List.map_map]
      refine congrArg (· ++ [g len]) (List.map_congr_left fun k hk => ?_)
      rw [Function.comp_apply, Function.comp_apply, hgf]
      exact_mod_cast List.mem_range.mp hk
  | resetInterval k interval =>
    rcases hissued k with ⟨-, hk, hk'⟩ | ⟨hlt, hk, hk'⟩
    · simp only [Client.step, hk, hk']
      exact .none
    · obtain ⟨r, q', w', hq, hw, hm'⟩ := hm.resetInterval (k := k) (by omega) (by omega) interval
      have hq' : TimerService.resetInterval (k : ℤ) interval c.queue = (r, q') := hq
      have hw' : TimerService.resetInterval (f k) interval c'.queue = (r, w') := hw
      simp only [Client.step, hk, hk', hq', hw']
      exact .some ⟨⟨f, len, hm', hi, hi'⟩, hm'.observe ..⟩
  | cancel k =>
    rcases hissued k with ⟨-, hk, hk'⟩ | ⟨hlt, hk, hk'⟩
    · simp only [Client.step, hk, hk']
      exact .none
    · obtain ⟨r, a, q', w', hq, hw, hm'⟩ := hm.cancel (k := k) (by omega) (by omega)
      have hq' : TimerService.cancel (k : ℤ) c.queue = (r, a, q') := hq
      have hw' : TimerService.cancel (f k) c'.queue = (r, a, w') := hw
      simp only [Client.step, hk, hk', hq', hw']
      exact .some ⟨⟨f, len, hm', hi, hi'⟩, hm'.observe ..⟩
  | cancelType type =>
    obtain ⟨r, q', w', hq, hw, hm'⟩ := hm.cancelType type
    have hq' : TimerService.cancelType type c.queue = some (r, q') := congrArg some hq
    have hw' : TimerService.cancelType type c'.queue = some (r, w') := hw
    simp only [Client.step, hq', hw']
    exact .some ⟨⟨f, len, hm', hi, hi'⟩, hm'.observe ..⟩
  | expire curTime =>
    have hrel := hm.expireLoop (fuel + 1) hg
    rw [← expire_succ] at hrel
    simp only [Client.step]
    change Option.Rel _ (TimerService.expire (fuel + 1) curTime c.queue)
      (TimerService.expire (fuel + 1) curTime c'.queue) at hrel
    generalize TimerService.expire (fuel + 1) curTime c.queue = r at hrel ⊢
    generalize TimerService.expire (fuel + 1) curTime c'.queue = r' at hrel ⊢
    cases hrel with
    | none => exact .none
    | @some p p' hp =>
      dsimp only
      rw [← hp.1]
      exact .some ⟨⟨f, len, hp.2, hi, hi'⟩, hp.2.observe ..⟩

/-- A wheel that has just been opened holds what an empty list holds. -/
theorem related_open {longBits spokes res : ℕ} (hlong : 32 ≤ longBits ∧ longBits ≤ 64)
    (hopen : openI longBits spokes res = some w) :
    Related ⟨(TimerList.empty : TimerList α β), []⟩ ⟨w, []⟩ := by
  obtain ⟨-, -, hcounters, -, -⟩ := openI_eq_some hlong hopen
  refine ⟨id, 0, ⟨spread_open hlong hopen, .nil, ?_, rfl,
    ⟨by norm_num, fun i => ?_, fun k h₀ h₁ => ?_, fun j k h₀ h₁ => ?_⟩⟩, rfl, rfl⟩
  · exact fun n hn => by cases hn
  · rw [hcounters]
    exact ⟨le_rfl, le_rfl⟩
  · exact absurd h₀ (by push_cast at h₁; omega)
  · exact absurd h₀ (by push_cast at h₁; omega)

/-- The list has no more timers than ids were issued. -/
theorem Matches.length_le (h : Matches f len q w) : q.nodes.length ≤ len := by
  have hsub : q.nodes.map TimerNode.timerId ⊆ (List.range len).map Nat.cast := by
    intro k hk
    obtain ⟨n, hn, rfl⟩ := List.mem_map.mp hk
    obtain ⟨h₀, h₁⟩ := h.known n hn
    exact List.mem_map.mpr ⟨n.timerId.toNat, List.mem_range.mpr (by omega), by omega⟩
  have := (h.distinct.subperm hsub).length_le
  rwa [List.length_map, List.length_map, List.length_range] at this

/-- A call that has an answer: it is for an id that was issued, or it is an `expire` that does not
divide by zero. -/
def Answered (c : Client (TimerList α β)) : Command α β → Prop
  | .resetInterval k _ => k < c.issued.length
  | .cancel k => k < c.issued.length
  | .expire curTime => ∀ n ∈ c.queue.nodes, Due curTime n → Recurring n → n.interval.toUsec ≠ 0
  | _ => True

/-- Such a call is answered when there is fuel for as many timers as a run may schedule. -/
theorem Related.isSome_step [DecidableEq α] {fuel : ℕ} (hfuel : 2 ^ 19 ≤ fuel)
    {c : Client (TimerList α β)} {c' : Client (TimerWheel α β)} (h : Related c c')
    {cmd : Command α β} (hg : InScope c cmd) (ha : Answered c cmd) :
    ∃ c₁ o, c.step (fuel + 1) cmd = some (c₁, o) := by
  cases cmd with
  | schedule type act futureTime interval =>
    rw [Client.step]
    split <;> exact ⟨_, _, rfl⟩
  | resetInterval k interval =>
    rw [Answered] at ha
    rw [Client.step, List.getElem?_eq_getElem ha]
    exact ⟨_, _, rfl⟩
  | cancel k =>
    rw [Answered] at ha
    rw [Client.step, List.getElem?_eq_getElem ha]
    exact ⟨_, _, rfl⟩
  | cancelType type => exact ⟨_, _, rfl⟩
  | expire curTime =>
    obtain ⟨f, len, hm, -, -⟩ := h
    have hfits : ∀ n ∈ LawfulTimerQueue.contents c.queue, Due curTime n → Recurring n →
        NextFits curTime n := fun n hn hdue hrec =>
      (lt_nextExpiry_iff (ha n hn hdue hrec)).mp
        (lt_nextExpiry_of_epoch (ha n hn hdue hrec) (hg n hn hdue hrec (ha n hn hdue hrec)))
    obtain ⟨ds, q', hl, -⟩ := expireLoop_correct (q := c.queue) rfl trivial hfits
    have hcount : dueCount curTime c.queue ≤ fuel := by
      refine (List.countP_le_length (l := c.queue.nodes)).trans ?_
      exact hm.length_le.trans (hm.issued.few.trans hfuel)
    have hexpire : TimerService.expire (fuel + 1) curTime c.queue
        = some (ds.map TimerNode.getDispatchInfo, q') :=
      (expire_succ ..).trans (expireLoop_mono (by omega) hl)
    simp only [Client.step, hexpire]
    exact ⟨_, _, rfl⟩

/-- **The timing wheel refines the timer list**: for every width of `long` from 32 to 64 bits
and every wheel that `open_i` makes, the same calls are observed as the same in every run
in scope. With enough fuel every call of a run in scope is answered, if it is for an id that
was issued and does not divide by zero. -/
theorem refines_timerList [DecidableEq α] {longBits spokes res : ℕ}
    (hlong : 32 ≤ longBits ∧ longBits ≤ 64) (hopen : openI longBits spokes res = some w)
    (fuel : ℕ) (cmds : List (Command α β))
    (hscope : Machine.Guarded (Client.step (fuel + 1)) InScope ⟨TimerList.empty, []⟩ cmds) :
    (Machine.run (Client.step (fuel + 1)) ⟨w, []⟩ cmds).map Prod.snd
        = (Machine.run (Client.step (fuel + 1)) ⟨(TimerList.empty : TimerList α β), []⟩ cmds).map
          Prod.snd ∧
      (2 ^ 19 ≤ fuel →
        Machine.Guarded (Client.step (fuel + 1)) Answered ⟨TimerList.empty, []⟩ cmds →
        (Machine.run (Client.step (fuel + 1)) ⟨(TimerList.empty : TimerList α β), []⟩
          cmds).isSome) := by
  have hrel := related_open (α := α) (β := β) hlong hopen
  constructor
  · have hlockstep := Machine.run_lockstep (fun c c' cmd h hg => h.step fuel cmd hg) hrel hscope
    generalize Machine.run (Client.step (fuel + 1)) ⟨(TimerList.empty : TimerList α β), []⟩ cmds
      = r at hlockstep ⊢
    generalize Machine.run (Client.step (fuel + 1)) ⟨w, []⟩ cmds = r' at hlockstep ⊢
    cases hlockstep with
    | none => rfl
    | some hp => exact congrArg some hp.2.symm
  · intro hfuel hanswered
    obtain ⟨t, os, hrun, -⟩ := Machine.run_isSome_of_guarded
      (P := fun c => ∃ c', Related c c') (G := fun c cmd => InScope c cmd ∧ Answered c cmd)
      (fun c cmd ⟨c', h⟩ ⟨hg, ha⟩ => by
        obtain ⟨c₁, o, hs⟩ := h.isSome_step hfuel hg ha
        have hstep := h.step fuel cmd hg
        rw [hs] at hstep
        generalize c'.step (fuel + 1) cmd = r at hstep
        cases hstep with
        | some hp => exact ⟨c₁, o, hs, _, hp.1⟩) ⟨_, hrel⟩ (hscope.and hanswered)
    rw [hrun]
    rfl

/-- A tie at the epoch, and a timer at the largest time that is cancelled. -/
def tiedCommands : List (Command ℕ ℕ) :=
  [.schedule 0 1 TimeValue.maxTime zero, .schedule 0 2 zero zero, .schedule 0 3 zero zero,
    .expire zero, .cancel 0]

theorem refines_timerList_nonvacuous :
    (Machine.run (Client.step 4) ⟨(⟨64, 3, 7, fun _ => [], fun _ => 0, 0, 0⟩ : TimerWheel ℕ ℕ), []⟩
        tiedCommands).map Prod.snd
      = (Machine.run (Client.step 4) ⟨(TimerList.empty : TimerList ℕ ℕ), []⟩ tiedCommands).map
        Prod.snd := by
  have hspokes : power2bits (((8 : ℕ) : ℤ).bmod (2 ^ 32)) 3 12 = some 3 := by decide +kernel
  have hres : power2bits (((100 : ℕ) : ℤ).bmod (2 ^ 32)) 1 20 = some 7 := by decide +kernel
  have hopen : openI 64 8 100
      = some (⟨64, 3, 7, fun _ => [], fun _ => 0, 0, 0⟩ : TimerWheel ℕ ℕ) := by
    rw [openI, hspokes, hres]
    rfl
  exact (refines_timerList (by decide) hopen 3 tiedCommands (by decide)).1

end TimerWheel

end AceTao
