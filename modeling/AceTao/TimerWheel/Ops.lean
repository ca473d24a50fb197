import Mathlib.Algebra.BigOperators.Group.List.Basic
import AceTao.Library.Keyed
import AceTao.TimerWheel.Spread

/-!
# `ACE_Timer_Wheel_T`: the operations on a spread list

When no two timers carry the same id, the operations of the wheel are those of the sorted list
it spreads: `find_node` finds the timer with an id wherever it is
(`AceTao.TimerWheel.Spread.findNode`), `cancel` filters the list, and the first expired timer
is the head of the list.
-/

namespace AceTao

namespace TimerWheel

open TimeValue (zero)

variable {α β : Type} {s : TimerWheel α β} {l : List (TimerNode α β)} {n h : TimerNode α β}
  {id : ℤ}

/-- **`find_node` finds the timer with the id**, in the spoke of its time. -/
theorem Spread.findNode (hs : Spread s l) (hd : DistinctIds l) (hid : id ≠ -1) : s.findNode id
    = (l.find? fun n => n.timerId = id).map fun n => (s.calculateSpoke n.timerValue, n) := by
  -- what the search of one spoke finds
  have hspoke : ∀ i, i < s.spokeCount → ∀ m, s.findSpokeNode i id = some m →
      m ∈ l ∧ m.timerId = id ∧ s.calculateSpoke m.timerValue = i := by
    intro i hi m hm
    rw [findSpokeNode, hs.spokes i hi] at hm
    obtain ⟨hml, hmi⟩ := mem_inSpoke.mp (List.mem_of_find?_eq_some hm)
    exact ⟨hml, by simpa using List.find?_some hm, hmi⟩
  have hstart : (id % 2 ^ s.spokeBits).toNat < s.spokeCount := by
    have h₁ : (0 : ℤ) < 2 ^ s.spokeBits := pow_pos (by norm_num) _
    have h₂ := Int.emod_nonneg id h₁.ne'
    have h₃ := Int.emod_lt_of_pos id h₁
    have hcast : ((2 ^ s.spokeBits : ℕ) : ℤ) = 2 ^ s.spokeBits := by push_cast; rfl
    rw [spokeCount]
    omega
  rw [TimerWheel.findNode, if_neg hid]
  dsimp only
  cases hf : l.find? fun n => n.timerId = id with
  | none =>
    have hnone : ∀ i, i < s.spokeCount → s.findSpokeNode i id = none := by
      intro i hi
      cases hm : s.findSpokeNode i id with
      | none => rfl
      | some m =>
        obtain ⟨hml, hmid, -⟩ := hspoke i hi m hm
        exact absurd (decide_eq_true hmid) (List.find?_eq_none.mp hf m hml)
    rw [hnone _ hstart, Option.map_none, List.findSome?_eq_none_iff]
    intro i hi
    rw [hnone i (List.mem_range.mp hi), Option.map_none, ite_self]
  | some n =>
    have hnl := List.mem_of_find?_eq_some hf
    have hnid : n.timerId = id := by simpa using List.find?_some hf
    have huniq : ∀ m ∈ l, m.timerId = id → m = n := fun m hm hmid =>
      List.inj_on_of_nodup_map hd hm hnl (hmid.trans hnid.symm)
    -- the timer is found in the spoke of its time only
    have hfind : ∀ i, i < s.spokeCount →
        s.findSpokeNode i id = if s.calculateSpoke n.timerValue = i then some n else none := by
      intro i hi
      split
      case isTrue heq =>
        have hmem : n ∈ s.spokes i := by
          rw [hs.spokes i hi]
          exact mem_inSpoke.mpr ⟨hnl, heq⟩
        rw [findSpokeNode, Keyed.find?_eq_some _ hmem hnid]
        rw [hs.spokes i hi]
        exact hd.sublist List.filter_sublist
      case isFalse hne =>
        cases hm : s.findSpokeNode i id with
        | none => rfl
        | some m =>
          obtain ⟨hml, hmid, hmi⟩ := hspoke i hi m hm
          rw [huniq m hml hmid] at hmi
          exact absurd hmi hne
    rw [hfind _ hstart, Option.map_some]
    by_cases heq : s.calculateSpoke n.timerValue = (id % 2 ^ s.spokeBits).toNat
    · rw [if_pos heq, ← heq]
    · rw [if_neg heq]
      dsimp only
      have hcalc := s.calculateSpoke_lt n.timerValue
      obtain ⟨p, hp⟩ : ∃ p, (List.range s.spokeCount).findSome? (fun i =>
          if i ≠ (id % 2 ^ s.spokeBits).toNat then (s.findSpokeNode i id).map fun n => (i, n)
          else none) = some p := by
        rw [← Option.isSome_iff_exists, List.findSome?_isSome_iff]
        refine ⟨_, List.mem_range.mpr hcalc, ?_⟩
        rw [if_pos heq, hfind _ hcalc, if_pos rfl]
        rfl
      rw [hp]
      obtain ⟨i, hi, hpi⟩ := List.exists_of_findSome?_eq_some hp
      rw [hfind i (List.mem_range.mp hi)] at hpi
      split_ifs at hpi with h₁ h₂
      · rw [← h₂] at hpi
        exact congrArg some (Option.some.inj hpi).symm
      · cases hpi

/-- Unlinking the timer with an id filters the spokes. -/
theorem Spread.unlink_spokes (hs : Spread s l) (hd : DistinctIds l) (hn : n ∈ l) {i : ℕ}
    (hi : i < s.spokeCount) :
    (s.unlink (s.calculateSpoke n.timerValue) n.timerId).spokes i
      = (s.spokes i).filter fun m => m.timerId ≠ n.timerId := by
  have hspoke : ∀ i, i < s.spokeCount → DistinctIds (s.spokes i) := fun i hi => by
    rw [hs.spokes i hi]
    exact hd.sublist List.filter_sublist
  show Function.update s.spokes _ _ i = _
  rw [Function.update_apply]
  split
  case isTrue heq => rw [Keyed.eraseP_eq_filter (hspoke _ (heq ▸ hi)), heq]
  case isFalse hne =>
    rw [List.filter_eq_self.mpr]
    intro m hm
    rw [hs.spokes i hi] at hm
    obtain ⟨hml, hmi⟩ := mem_inSpoke.mp hm
    rw [decide_eq_true_eq]
    rintro heq
    rw [List.inj_on_of_nodup_map hd hml hn heq] at hmi
    exact hne hmi.symm

/-- Unlinking the timer with an id takes one timer out. -/
theorem length_filter_id (hd : DistinctIds l) (hn : n ∈ l) :
    l.length - 1 = (l.filter fun m => m.timerId ≠ n.timerId).length := by
  rw [← Keyed.eraseP_eq_filter hd, List.length_eraseP_of_mem hn (decide_eq_true rfl)]

/-! ### The operations -/

/-- The wheel gives out ids as before. -/
structure KeepsIds (s s' : TimerWheel α β) : Prop where
  longBits : s'.longBits = s.longBits
  spokeBits : s'.spokeBits = s.spokeBits
  resBits : s'.resBits = s.resBits
  counters : s'.counters = s.counters

theorem KeepsIds.recalcEarliest {s' : TimerWheel α β} {last : TimeValue} (h : KeepsIds s s') :
    KeepsIds s (s'.recalcEarliest last) := by
  rw [TimerWheel.recalcEarliest]
  split
  · exact h
  · exact ⟨h.1, h.2, h.3, h.4⟩

/-- The counters do not matter to the timers. -/
theorem Spread.setCounters (hs : Spread s l) (c : ℕ → ℤ) : Spread { s with counters := c } l := by
  have ho := hs.opened
  exact ⟨⟨⟨ho.1, ho.2, ho.3, ho.4, ho.5, ho.6⟩, hs.sorted, hs.epoch, hs.spokes, hs.count,
    hs.earliest_lt⟩, hs.earliest⟩

/-- **`schedule` inserts into the list**, when an id is given out. -/
theorem Spread.scheduleI (hs : Spread s l) (type : α) (act : β) {t : TimeValue}
    (interval : TimeValue) (ht : zero ≤ t) {c : ℕ → ℤ}
    (hg : s.generateTimerId (s.calculateSpoke t) = (id, { s with counters := c }))
    (hid : id ≠ -1) :
    ∃ s', s.scheduleI type act t interval = (id, s') ∧ KeepsIds { s with counters := c } s' ∧
      Spread s' (SortedInsert.insertBack TimerNode.timerValue ⟨type, act, t, interval, id⟩ l) := by
  rw [TimerWheel.scheduleI, hg]
  exact ⟨_, if_pos hid, ⟨rfl, rfl, rfl, rfl⟩,
    (hs.setCounters c).scheduleNode (n := ⟨type, act, t, interval, id⟩) ht⟩

/-- **`cancel (timer_id)` filters the list.** -/
theorem Spread.cancel (hs : Spread s l) (hd : DistinctIds l) (hid : id ≠ -1) (hn : n ∈ l)
    (hnid : n.timerId = id) :
    ∃ s', s.cancel id = (1, some n.act, s') ∧ KeepsIds s s' ∧
      Spread s' (l.filter fun m => m.timerId ≠ id) := by
  obtain rfl := hnid
  have hkeeps : KeepsIds s (s.unlink (s.calculateSpoke n.timerValue) n.timerId) :=
    ⟨rfl, rfl, rfl, rfl⟩
  rw [TimerWheel.cancel, hs.findNode hd hid, Keyed.find?_eq_some hd hn rfl, Option.map_some]
  dsimp only
  cases hh : l.head? with
  | none =>
    rw [List.head?_eq_none_iff.mp hh] at hn
    cases hn
  | some h =>
    have hspread := hs.filter (p := fun m => m.timerId ≠ n.timerId) (c := s.timerCount - 1)
      (fun i hi => hs.unlink_spokes hd hn hi)
      (by rw [← length_filter_id hd hn, hs.count]) hh
    have hfirst : s.isFirst (s.calculateSpoke n.timerValue) n.timerId = true ↔
        h.timerId = n.timerId := by
      rw [isFirst, decide_eq_true_eq, hs.getFirst, hh]
      constructor
      · rintro ⟨-, m, hm, hmid⟩
        cases hm
        exact hmid
      · intro heq
        rw [← List.inj_on_of_nodup_map hd (List.mem_of_mem_head? hh) hn heq]
        exact ⟨(hs.earliest h hh).symm, h, rfl, rfl⟩
    by_cases heq : h.timerId = n.timerId
    · rw [if_neg (by simpa using heq),
        List.inj_on_of_nodup_map hd (List.mem_of_mem_head? hh) hn heq] at hspread
      rw [if_pos (hfirst.mpr heq)]
      exact ⟨_, rfl, hkeeps.recalcEarliest, hspread⟩
    · rw [if_pos (by simpa using heq)] at hspread
      rw [if_neg fun h => heq (hfirst.mp h)]
      exact ⟨_, rfl, hkeeps, hspread⟩

/-- Changing the first node with an id is mapping. -/
theorem replaceF_withInterval (hd : DistinctIds l) (interval : TimeValue) :
    l.replaceF (TimerNode.withInterval id interval)
      = l.map fun m => if m.timerId = id then m.setInterval interval else m :=
  Keyed.replaceF_eq_map hd fun m => m.setInterval interval

/-- `reset_interval` maps the list. -/
theorem Spread.resetInterval (hs : Spread s l) (hd : DistinctIds l) (hid : id ≠ -1) (hn : n ∈ l)
    (hnid : n.timerId = id) (interval : TimeValue) :
    ∃ s', s.resetInterval id interval = (0, s') ∧ KeepsIds s s' ∧
      Spread s' (l.map fun m => if m.timerId = id then m.setInterval interval else m) := by
  obtain rfl := hnid
  rw [TimerWheel.resetInterval, hs.findNode hd hid, Keyed.find?_eq_some hd hn rfl, Option.map_some]
  refine ⟨_, rfl, ⟨rfl, rfl, rfl, rfl⟩, ?_⟩
  have ho := hs.opened
  have htime : ∀ m : TimerNode α β, (if m.timerId = n.timerId then m.setInterval interval
      else m).timerValue = m.timerValue := fun m => by split <;> rfl
  refine ⟨⟨⟨ho.1, ho.2, ho.3, ho.4, ho.5, ho.6⟩, ?_, ?_, fun i hi => ?_, ?_, hs.earliest_lt⟩, ?_⟩
  · refine List.pairwise_map.mpr (hs.sorted.imp fun {a b} hab => ?_)
    rwa [htime, htime]
  · intro m hm
    obtain ⟨m', hm', rfl⟩ := List.mem_map.mp hm
    rw [htime]
    exact hs.epoch m' hm'
  · show Function.update s.spokes _ _ i = (l.map _).filter fun m => s.calculateSpoke m.timerValue = i
    have hspokes : ∀ i, i < s.spokeCount →
        (l.map fun m => if m.timerId = n.timerId then m.setInterval interval else m).filter
          (fun m => s.calculateSpoke m.timerValue = i)
        = (s.spokes i).map fun m =>
            if m.timerId = n.timerId then m.setInterval interval else m := by
      intro i hi
      rw [hs.spokes i hi, inSpoke, List.filter_map]
      congr 2
      funext m
      rw [Function.comp_apply, htime]
    rw [hspokes i hi, Function.update_apply]
    split
    case isTrue heq =>
      have hdist : DistinctIds (s.spokes i) := by
        rw [hs.spokes i hi]
        exact hd.sublist List.filter_sublist
      rw [← heq, replaceF_withInterval hdist]
    case isFalse hne =>
      conv_lhs => rw [← List.map_id' (s.spokes i)]
      refine List.map_congr_left fun m hm => (if_neg fun heq => ?_).symm
      rw [hs.spokes i hi] at hm
      obtain ⟨hml, hmi⟩ := mem_inSpoke.mp hm
      rw [List.inj_on_of_nodup_map hd hml hn heq] at hmi
      exact hne hmi.symm
  · show s.timerCount = _
    rw [hs.count, List.length_map]
  · intro m hm
    rw [List.head?_map] at hm
    obtain ⟨m', hm', rfl⟩ := Option.map_eq_some_iff.mp hm
    show s.earliestSpoke = s.calculateSpoke _
    rw [htime]
    exact hs.earliest m' hm'

/-- The timers of a kind, counted spoke by spoke. -/
theorem sum_countP_inSpoke (s : TimerWheel α β) (l : List (TimerNode α β))
    (p : TimerNode α β → Bool) :
    ((List.range s.spokeCount).map fun i => (s.inSpoke i l).countP p).sum = l.countP p := by
  induction l with
  | nil => simp [inSpoke]
  | cons n l ih =>
    have hcons : ∀ i, (s.inSpoke i (n :: l)).countP p = (s.inSpoke i l).countP p
        + if i = s.calculateSpoke n.timerValue then if p n = true then 1 else 0 else 0 := by
      intro i
      by_cases hi : s.calculateSpoke n.timerValue = i
      · rw [inSpoke, List.filter_cons_of_pos (by simpa using hi), List.countP_cons, if_pos hi.symm,
          inSpoke]
      · rw [inSpoke, List.filter_cons_of_neg (by simpa using hi), if_neg (Ne.symm hi), inSpoke]
        rfl
    simp only [hcons, List.sum_map_add, ih]
    rw [List.sum_map_eq_nsmul_single (s.calculateSpoke n.timerValue) _ fun i hi _ => if_neg hi,
      List.count_eq_one_of_mem List.nodup_range (List.mem_range.mpr (s.calculateSpoke_lt _)),
      if_pos rfl, one_nsmul, List.countP_cons]

/-- **`cancel (type)` filters the list.** -/
theorem Spread.cancelType [DecidableEq α] (hs : Spread s l) (type : α) :
    ∃ s', s.cancelType type = some (↑(l.countP fun n => n.type = type), s') ∧
      KeepsIds s s' ∧ Spread s' (l.filter fun n => n.type ≠ type) := by
  rw [TimerWheel.cancelType]
  cases hh : l.head? with
  | none =>
    obtain rfl := List.head?_eq_none_iff.mp hh
    rw [if_pos (hs.isEmpty_iff.mpr rfl)]
    exact ⟨s, rfl, ⟨rfl, rfl, rfl, rfl⟩, hs⟩
  | some h =>
    have hne : ¬s.isEmpty = true := fun hcon => by
      rw [hs.isEmpty_iff.mp hcon] at hh
      cases hh
    have hsum : ((List.range s.spokeCount).map fun i =>
        (s.spokes i).countP fun n => n.type = type).sum = l.countP fun n => n.type = type := by
      rw [← sum_countP_inSpoke s]
      refine congrArg List.sum (List.map_congr_left fun i hi => ?_)
      rw [hs.spokes i (List.mem_range.mp hi)]
    rw [if_neg hne, hs.getFirst, hh]
    dsimp only
    rw [hsum]
    have hspread := hs.filter (p := fun m => m.type ≠ type)
      (r := fun i => if i < s.spokeCount then (s.spokes i).filter fun n => n.type ≠ type
        else s.spokes i) (c := s.timerCount - l.countP fun n => n.type = type)
      (fun i hi => if_pos hi) (by
        rw [hs.count, l.length_eq_countP_add_countP fun n => n.type = type,
          Nat.add_sub_cancel_left, List.countP_eq_length_filter]
        simp) hh
    by_cases heq : h.type = type
    · rw [if_neg (by simpa using heq)] at hspread
      rw [if_pos heq]
      exact ⟨_, rfl, KeepsIds.recalcEarliest ⟨rfl, rfl, rfl, rfl⟩, hspread⟩
    · rw [if_pos (by simpa using heq)] at hspread
      rw [if_neg heq]
      exact ⟨_, rfl, ⟨rfl, rfl, rfl, rfl⟩, hspread⟩

/-- **`remove_first_expired` takes out the first timer of the list**, if it is due. -/
theorem Spread.removeFirstExpired {now : TimeValue} (hs : Spread s (n :: l))
    (hd : DistinctIds (n :: l)) (hdue : n.timerValue ≤ now) :
    ∃ s', s.removeFirstExpired now = some (n, s') ∧ KeepsIds s s' ∧ Spread s' l := by
  have hmem : n ∈ n :: l := List.mem_cons_self ..
  have hspread := hs.filter (p := fun m => m.timerId ≠ n.timerId) (c := s.timerCount - 1)
    (fun i hi => hs.unlink_spokes hd hmem hi)
    (by rw [← length_filter_id hd hmem, hs.count]) List.head?_cons
  rw [if_neg (by simp), ← Keyed.eraseP_eq_filter hd,
    List.eraseP_cons_of_pos (by simp)] at hspread
  rw [TimerWheel.removeFirstExpired, hs.getFirst, List.head?_cons]
  dsimp only
  rw [if_pos hdue, hs.earliest n rfl]
  exact ⟨_, rfl, KeepsIds.recalcEarliest ⟨rfl, rfl, rfl, rfl⟩, hspread⟩

end TimerWheel

end AceTao
