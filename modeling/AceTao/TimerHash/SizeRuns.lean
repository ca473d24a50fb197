import AceTao.Library.Machine
import AceTao.TimerHash.Size

/-!
# The number of timers in every run

`schedule`, `cancel`, `cancel (type)` and `expire` keep the counter right
(`AceTao.TimerHash.Counted`). `expire_single` goes through `remove_first`, which decrements
`size_`, and `reschedule`, which does not increment it: it keeps the counter right only when
the timer that it dispatches does not repeat. So `size_` is right, and `cancel (type)` cancels
all timers of the type, in every run in which `expire_single` dispatches no repeating timer
(`AceTao.TimerHash.sizeExact_of_run`); `AceTao.TimerHash.sizeExact_fails` is a run in which it
dispatches one.
-/

namespace AceTao

namespace TimerHash

open TimeValue (zero)
open TimerBucket (nodes)
open LawfulTimerBucket

variable {B α β : Type} [TimerBucket B α ℤ]

/-- **What `size_` is meant to say**: `cancel (type)` has room for the tokens of the type, and
cancels all timers of the type. -/
def SizeExact [DecidableEq α] (s : TimerHash B α β) : Prop :=
  s.size = s.timers ∧ ∀ type, (s.timerIds type).length ≤ s.size ∧
    ∃ s', s.cancelType type = some ((s.timersOf type : ℤ), s')

variable [LawfulTimerBucket B α ℤ] {s s' : TimerHash B α β}

/-- **The counter is right**, and every timer is accounted for. -/
structure Counted (s : TimerHash B α β) : Prop where
  accounted : Accounted s
  size : s.size = s.timers
  tableSize : 1 ≤ s.tableSize

namespace Counted

variable {i : ℕ} {n : TimerNode α ℤ} {b : B} {id : ℤ} {type : α} {act : β}
  {futureTime interval curTime : TimeValue}

/-- A timer goes into a bucket. -/
theorem insert (h : Accounted s) (hu : Unused n.act s) (hi : i < s.tableSize) (hvalid : Valid b)
    (hperm : (nodes b).Perm (n :: nodes (s.table i))) (token : HashToken α β)
    (hpos : token.pos = i) (hid : token.origId = n.timerId) :
    let s' : TimerHash B α β := noteEarlier i { s with
      tokens := Function.update s.tokens n.act (some token)
      table := Function.update s.table i b }
    Accounted s' ∧ s'.timers = s.timers + 1 := by
  obtain ⟨haccounted, htimers⟩ := h.insert hu hi hvalid hperm token hpos hid
  exact ⟨haccounted.congr (noteEarlier_table ..) (noteEarlier_tokens ..)
    (noteEarlier_tokenList ..) (noteEarlier_tableSize ..) (noteEarlier_allocated ..),
    (timers_congr (noteEarlier_table ..) (noteEarlier_tableSize ..)).trans htimers⟩

theorem scheduleI (h : Counted s) (hs : s.scheduleI type act futureTime interval = some (id, s')) :
    Counted s' := by
  obtain ⟨origId, b, rfl, hb, hid, rfl⟩ := scheduleI_eq_some hs
  obtain ⟨haccounted, hunused⟩ := h.accounted.removeToken
  obtain ⟨hvalid, hperm⟩ := schedule_spec _ _ _ _ _ _ _ (haccounted.valid _) hb hid
  have hpos : s.position futureTime < s.removeToken.2.tableSize :=
    removeToken_tableSize s ▸ position_lt h.tableSize futureTime
  obtain ⟨haccounted', htimers⟩ := insert haccounted
    (n := ⟨type, s.removeToken.1, futureTime, interval, origId⟩) hunused hpos hvalid hperm
    ⟨act, s.position futureTime, origId, type⟩ rfl rfl
  refine ⟨haccounted'.congr rfl rfl rfl rfl rfl, ?_, ?_⟩
  · show s.removeToken.2.size + 1 = timers (noteEarlier _ _)
    rw [htimers, removeToken_size, h.size,
      timers_congr (removeToken_table s) (removeToken_tableSize s)]
  · show 1 ≤ (noteEarlier _ _).tableSize
    rw [noteEarlier_tableSize]
    exact Nat.one_le_of_lt hpos

/-- A node that has been taken out goes back. -/
theorem reschedule (h : Accounted s) (hu : Unused n.act s) (hsize : 1 ≤ s.tableSize)
    (hr : s.reschedule n = some s') :
    Accounted s' ∧ s'.timers = s.timers + 1 ∧ s'.size = s.size ∧ s'.tableSize = s.tableSize := by
  obtain ⟨token, origId, b, ht, hb, hid, rfl⟩ := reschedule_eq_some hr
  obtain ⟨hvalid, hperm⟩ := schedule_spec _ _ _ _ _ _ _ (h.valid _) hb hid
  obtain ⟨haccounted, htimers⟩ := insert h
    (n := ⟨n.type, n.act, n.timerValue, n.interval, origId⟩) hu (position_lt hsize n.timerValue)
    hvalid hperm { token with pos := s.position n.timerValue, origId := origId } rfl rfl
  exact ⟨haccounted, htimers, noteEarlier_size .., noteEarlier_tableSize ..⟩

/-- The token of a timer that has been taken out goes to the free list. -/
theorem release (h : Accounted s) (hu : Unused id s) (hsize : s.size = s.timers + 1)
    (htable : 1 ≤ s.tableSize) : Counted (s.addToken id).decrementSize := by
  refine ⟨(h.addToken hu).congr rfl rfl rfl rfl rfl, ?_,
    htable.trans_eq (addToken_tableSize ..).symm⟩
  have htimers : (s.addToken id).decrementSize.timers = s.timers :=
    timers_congr (addToken_table ..) (addToken_tableSize ..)
  rw [htimers]
  show (if (s.addToken id).size = 0 then 2 ^ 64 - 1 else (s.addToken id).size - 1) = s.timers
  rw [addToken_size, hsize, if_neg (Nat.succ_ne_zero _), Nat.add_sub_cancel]

/-- `cancel` of a bucket, with the id that the token of a timer knows. -/
theorem cancel_bucket (h : Counted s) (hn : n ∈ nodes (s.table i)) :
    ∃ token b, s.tokens n.act = some token ∧
      TimerBucket.cancel token.origId (s.table token.pos) = some (1, b) ∧
      let s₁ : TimerHash B α β := { s with table := Function.update s.table token.pos b }
      Accounted s₁ ∧ Unused n.act s₁ ∧ s₁.size = s₁.timers + 1 ∧
        ∀ j, ∀ m ∈ nodes (s.table j), m.act ≠ n.act → m ∈ nodes (s₁.table j) := by
  obtain ⟨token, ht, rfl, hid⟩ := h.accounted.token i n hn
  obtain ⟨b, hb, hvalid, hperm⟩ := cancel_spec _ n (h.accounted.valid _) hn
  obtain ⟨haccounted, hunused, htimers⟩ := h.accounted.remove hvalid hperm
  refine ⟨token, b, ht, hid ▸ hb, haccounted, hunused, h.size.trans htimers.symm, ?_⟩
  intro j m hm hne
  dsimp only
  rcases eq_or_ne j token.pos with rfl | hj
  · rw [Function.update_self]
    exact (List.mem_cons.mp (hperm.mem_iff.mp hm)).resolve_left fun heq => hne (heq ▸ rfl)
  · rwa [Function.update_of_ne hj]

/-- **`cancel` of the id of a timer.** -/
theorem cancel (h : Counted s) {r : ℤ} {a : Option β} (hn : n ∈ nodes (s.table i))
    (hc : s.cancel n.act = some (r, a, s')) : Counted s' := by
  obtain ⟨token, b, ht, hb, haccounted, hunused, hsize, -⟩ := h.cancel_bucket hn
  rcases cancel_eq_some hc with ⟨-, rfl⟩ | ⟨token', b', ht', hb', hcase⟩
  · exact h
  · cases ht.symm.trans ht'
    cases hb.symm.trans hb'
    rcases hcase with ⟨-, s₁, rfl, rfl⟩ | ⟨hr, -⟩
    · split_ifs
      · exact release (haccounted.congr rfl rfl rfl rfl rfl)
          ⟨hunused.notQueued, hunused.notFree, hunused.inMemory⟩ hsize h.tableSize
      · exact release haccounted hunused hsize h.tableSize
    · exact absurd rfl hr

/-- **The second loop of `cancel (type)`** cancels a list of different timers. The induction is on
the list. -/
theorem cancelAll {ids : List ℤ} (h : Counted s) (hnodup : ids.Nodup)
    (hids : ∀ id ∈ ids, ∃ i n, n ∈ nodes (s.table i) ∧ n.act = id) :
    ∃ s', cancelAll ids s = some s' ∧ Counted s' := by
  induction ids generalizing s with
  | nil => exact ⟨s, rfl, h⟩
  | cons id ids ih =>
    obtain ⟨hid, hnodup'⟩ := List.nodup_cons.mp hnodup
    obtain ⟨i, n, hn, rfl⟩ := hids id (List.mem_cons_self ..)
    obtain ⟨token, b, ht, hb, haccounted, hunused, hsize, hkept⟩ := h.cancel_bucket hn
    obtain ⟨s', hs', h'⟩ := ih (release haccounted hunused hsize h.tableSize) hnodup'
      (fun id' hid' => by
        obtain ⟨j, m, hm, rfl⟩ := hids id' (List.mem_cons_of_mem _ hid')
        refine ⟨j, m, ?_, rfl⟩
        rw [show (TimerHash.addToken _ _).decrementSize.table = _ from addToken_table ..]
        exact hkept j m hm fun heq => hid (heq ▸ hid'))
    refine ⟨s', ?_, h'⟩
    simp only [TimerHash.cancelAll, ht, hb, if_pos]
    exact hs'

/-- The tokens that `cancel (type)` collects are those of different timers. -/
theorem nodup_timerIds [DecidableEq α] (h : Accounted s) (type : α) : (s.timerIds type).Nodup := by
  refine List.nodup_flatMap.mpr ⟨fun i _ => ?_, ?_⟩
  · refine List.Nodup.map_on (fun n hn m hm heq => ?_)
      (List.Nodup.filter _ (List.Nodup.of_map _ (distinct _ (h.valid i))))
    exact (h.eq_of_act (List.mem_of_mem_filter hn) (List.mem_of_mem_filter hm) heq).2
  · refine List.Nodup.pairwise_of_forall_ne List.nodup_range fun i _ j _ hij => ?_
    rintro id hi hj
    obtain ⟨n, hn, rfl⟩ := List.mem_map.mp hi
    obtain ⟨m, hm, heq⟩ := List.mem_map.mp hj
    exact hij (h.eq_of_act (List.mem_of_mem_filter hn) (List.mem_of_mem_filter hm) heq.symm).1

/-- **`cancel (type)`** cancels all timers of the type. -/
theorem cancelType [DecidableEq α] (h : Counted s) (type : α) :
    ∃ s', s.cancelType type = some ((s.timersOf type : ℤ), s') ∧ Counted s' := by
  have hle : ¬s.size < (s.timerIds type).length := by
    rw [length_timerIds, h.size]
    exact not_lt.mpr (timersOf_le type)
  obtain ⟨s', hs', h'⟩ := h.cancelAll (nodup_timerIds h.accounted type) (fun id hid => by
    obtain ⟨i, -, hi⟩ := List.mem_flatMap.mp hid
    obtain ⟨n, hn, heq⟩ := List.mem_map.mp hi
    exact ⟨i, n, List.mem_of_mem_filter hn, heq⟩)
  refine ⟨s'.findNewEarliest, ?_, h'.accounted.congr rfl rfl rfl rfl rfl, h'.size, h'.tableSize⟩
  rw [TimerHash.cancelType, if_neg hle, hs', length_timerIds]

theorem sizeExact [DecidableEq α] (h : Counted s) : SizeExact s := by
  refine ⟨h.size, fun type => ⟨?_, ?_⟩⟩
  · rw [length_timerIds, h.size]
    exact timersOf_le type
  · obtain ⟨s', hs', -⟩ := h.cancelType type
    exact ⟨s', hs'⟩

/-! ### Expiry -/

/-- **The body of the loop of `expire`.** -/
theorem expireOne (h : Counted s) {info : DispatchInfo α β} (hne : nodes (s.table i) ≠ [])
    (he : s.expireOne curTime i = some (info, s')) : Counted s' := by
  obtain ⟨n, b, hb, hcase⟩ := expireOne_eq_some he
  obtain ⟨n', b', hb', -, hperm, -, hvalid⟩ := removeFirst_spec _ (h.accounted.valid i) hne
  cases hb'.symm.trans hb
  obtain ⟨haccounted, hunused, htimers⟩ := h.accounted.remove hvalid hperm
  rcases hcase with ⟨-, next, hnext, hs'⟩ | ⟨-, rfl⟩
  · obtain ⟨t, rfl⟩ := recompute_eq_some hnext
    obtain ⟨haccounted', htimers', hsize', htable'⟩ :=
      reschedule (n := n.setTimerValue t) haccounted hunused h.tableSize hs'
    exact ⟨haccounted', hsize'.trans (h.size.trans (htimers.symm.trans htimers'.symm)),
      h.tableSize.trans_eq htable'.symm⟩
  · exact release haccounted hunused (h.size.trans htimers.symm) h.tableSize

/-- The loop over a bucket. -/
theorem expireBucket {fuel : ℕ} {infos : List (DispatchInfo α β)} (h : Counted s)
    (he : s.expireBucket curTime i fuel = some (infos, s')) : Counted s' := by
  induction fuel generalizing s infos with
  | zero => cases he
  | succ fuel ih =>
    rw [TimerHash.expireBucket] at he
    split_ifs at he with hcond
    · cases he
      exact h
    · split at he
      · cases he
      · rename_i info s₁ hs₁
        split at he
        · cases he
        · rename_i infos' t hs₂
          cases he
          have hne : nodes (s.table i) ≠ [] :=
            isEmpty_eq_false.mp (Bool.not_eq_true _ ▸ (not_or.mp hcond).1)
          exact ih (h.expireOne hne hs₁) hs₂

/-- The loop over the buckets. -/
theorem expireTable {fuel : ℕ} {is : List ℕ} {infos : List (DispatchInfo α β)} (h : Counted s)
    (he : s.expireTable fuel curTime is = some (infos, s')) : Counted s' := by
  induction is generalizing s infos with
  | nil =>
    cases he
    exact h
  | cons i is ih =>
    rw [TimerHash.expireTable] at he
    split at he
    · cases he
    · rename_i infos₁ s₁ hs₁
      split at he
      · cases he
      · rename_i infos₂ t hs₂
        cases he
        exact ih (h.expireBucket hs₁) hs₂

theorem expire {fuel : ℕ} {infos : List (DispatchInfo α β)} (h : Counted s)
    (he : s.expire fuel curTime = some (infos, s')) : Counted s' := by
  rw [TimerHash.expire] at he
  split at he
  · cases he
  · rename_i infos' s₁ hs₁
    cases he
    have h₁ := h.expireTable hs₁
    split_ifs
    · exact ⟨h₁.accounted.congr rfl rfl rfl rfl rfl, h₁.size, h₁.tableSize⟩
    · exact h₁

omit [LawfulTimerBucket B α ℤ] in
/-- What `expire_single` does with a timer that does not repeat. -/
theorem expireSingle_eq_some {info : Option (DispatchInfo α β)}
    (he : s.expireSingle curTime = some (info, s')) : s' = s ∨
      ∃ n s₁, s.earliestTime ≤ curTime ∧ s.removeFirst = some (n, s₁) ∧
        (¬Recurring n → s' = s₁.freeNode n) := by
  rw [TimerHash.expireSingle] at he
  split_ifs at he with hempty
  · cases he
    exact Or.inl rfl
  have hs' : ∃ o, AceTao.dispatchInfoI curTime s = some (o, s') := by
    rw [TimerHash.dispatchInfoI] at he
    split at he
    · cases he
    · rename_i s₁ hs₁
      cases he
      exact ⟨none, hs₁⟩
    · rename_i info₁ s₁ hs₁
      obtain ⟨token, -, heq⟩ := Option.map_eq_some_iff.mp he
      cases heq
      exact ⟨some info₁, hs₁⟩
  obtain ⟨o, ho⟩ := hs'
  rw [AceTao.dispatchInfoI, if_neg (show ¬TimerQueue.isEmpty s = true from hempty)] at ho
  split_ifs at ho with hle
  · right
    split at ho
    · cases ho
    · rename_i n s₁ hs₁
      refine ⟨n, s₁, hle, hs₁, fun hrec => ?_⟩
      rw [if_neg (show ¬zero < n.interval from hrec)] at ho
      obtain ⟨q, hq, heq⟩ := Option.map_eq_some_iff.mp ho
      cases heq
      exact (Option.some.inj hq).symm
  · cases ho
    exact Or.inl rfl

/-- **`expire_single`**, when the timer that it dispatches does not repeat. -/
theorem expireSingle (h : Counted s) {info : Option (DispatchInfo α β)}
    (hrec : ∀ n s₁, s.earliestTime ≤ curTime → s.removeFirst = some (n, s₁) → ¬Recurring n)
    (he : s.expireSingle curTime = some (info, s')) : Counted s' := by
  rcases expireSingle_eq_some he with rfl | ⟨n, s₁, hle, hs₁, hfree⟩
  · exact h
  · rw [hfree (hrec n s₁ hle hs₁)]
    obtain ⟨hempty, b, hb, rfl⟩ := removeFirst_eq_some hs₁
    obtain ⟨n', b', hb', -, hperm, -, hvalid⟩ := removeFirst_spec _
      (h.accounted.valid s.earliestPosition) (isEmpty_eq_false.mp hempty)
    cases hb'.symm.trans hb
    obtain ⟨haccounted, hunused, htimers⟩ := h.accounted.remove hvalid hperm
    rw [freeNode, addToken_decrementSize]
    exact release (haccounted.congr rfl rfl rfl rfl rfl)
      ⟨hunused.notQueued, hunused.notFree, hunused.inMemory⟩ (h.size.trans htimers.symm) h.tableSize

end Counted

/-! ### Every run -/

/-- The calls of `schedule`, `cancel` of the id of a timer, `cancel (type)`, `expire` and
`expire_single`. -/
def LiveIds (s : State B α β) : Call α β → Prop
  | .cancel timerId => ∃ i n, n ∈ nodes (s.queue.table i) ∧ n.act = timerId
  | .schedule .. => True
  | .cancelType _ => True
  | .expire .. => True
  | .expireSingle _ => True
  | .removeFirst => False
  | .reschedule .. => False
  | .freeNode _ => False

/-- **`expire_single` dispatches no repeating timer.** -/
def NoSingleRepeat (s : State B α β) : Call α β → Prop
  | .expireSingle curTime => ∀ n s₁, s.queue.earliestTime ≤ curTime →
    s.queue.removeFirst = some (n, s₁) → ¬Recurring n
  | _ => True

theorem init_counted {tableSize : ℕ} (h : 1 ≤ tableSize) :
    Counted (init tableSize : TimerHash B α β) := by
  have hempty : ∀ i, nodes ((init tableSize : TimerHash B α β).table i) = [] := fun _ =>
    init_spec.2
  have hnone : ∀ i, ∀ n, n ∉ nodes ((init tableSize : TimerHash B α β).table i) := fun i n => by
    rw [hempty i]
    exact List.not_mem_nil
  refine ⟨⟨fun _ => init_spec.1, fun i n hn => absurd hn (hnone i n),
    fun i n hn => absurd hn (hnone i n), fun i n hn => absurd hn (hnone i n),
    fun i n hn => absurd hn (hnone i n), List.nodup_nil, List.forall_mem_nil _⟩, ?_, h⟩
  exact (Finset.sum_eq_zero fun i _ => by rw [hempty i]; rfl).symm

/-- **One call.** -/
theorem step_counted [DecidableEq α] {s s' : State B α β} {c : Call α β} {r : ℤ}
    (h : Counted s.queue) (hc : LiveIds s c ∧ NoSingleRepeat s c)
    (hstep : step s c = some (s', r)) : Counted s'.queue := by
  cases c with
  | schedule type act futureTime interval =>
    obtain ⟨p, hp, heq⟩ := Option.map_eq_some_iff.mp hstep
    cases heq
    exact h.scheduleI hp
  | cancel timerId =>
    obtain ⟨p, hp, heq⟩ := Option.map_eq_some_iff.mp hstep
    cases heq
    obtain ⟨i, n, hn, rfl⟩ := hc.1
    exact h.cancel hn hp
  | cancelType type =>
    obtain ⟨p, hp, heq⟩ := Option.map_eq_some_iff.mp hstep
    cases heq
    obtain ⟨q, hq, hcounted⟩ := h.cancelType type
    cases hq.symm.trans hp
    exact hcounted
  | expire fuel curTime =>
    obtain ⟨p, hp, heq⟩ := Option.map_eq_some_iff.mp hstep
    cases heq
    exact h.expire hp
  | expireSingle curTime =>
    obtain ⟨p, hp, heq⟩ := Option.map_eq_some_iff.mp hstep
    cases heq
    exact h.expireSingle hc.2 hp
  | removeFirst => exact hc.1.elim
  | reschedule k time => exact hc.1.elim
  | freeNode k => exact hc.1.elim

/-- **`size_` is right in every run** in which `expire_single` dispatches no repeating timer. -/
theorem sizeExact_of_run [DecidableEq α] {tableSize : ℕ} (hsize : 1 ≤ tableSize)
    {calls : List (Call α β)} {s : State B α β} {results : List ℤ}
    (hlive : Machine.Guarded step LiveIds (⟨init tableSize, []⟩ : State B α β) calls)
    (hsingle : Machine.Guarded step NoSingleRepeat (⟨init tableSize, []⟩ : State B α β) calls)
    (hrun : Machine.run step (⟨init tableSize, []⟩ : State B α β) calls = some (s, results)) :
    SizeExact s.queue :=
  (Machine.inv_run_of_guarded (P := fun s : State B α β => Counted s.queue)
    (fun _ _ _ _ h hc => step_counted h hc) (init_counted hsize) (hlive.and hsingle)
    hrun).sizeExact

section Example

open TimeValue (ofMsec)

/-- An empty table with one bucket. -/
def oneBucket : State (TimerList Unit ℤ) Unit Unit := ⟨init 1, []⟩

/-- `expire_single` dispatches a timer that does not repeat. -/
def oneShotCalls : List (Call Unit Unit) :=
  [.schedule () () zero zero, .schedule () () zero (ofMsec 1), .expireSingle zero]

theorem sizeExact_of_oneShotCalls :
    ∃ (s : State (TimerList Unit ℤ) Unit Unit) (results : List ℤ),
      Machine.run step oneBucket oneShotCalls = some (s, results) ∧ SizeExact s.queue := by
  refine ⟨_, _, rfl, @sizeExact_of_run _ _ _ _ _ _ _ le_rfl oneShotCalls _ _ ?_ ?_ rfl⟩
  · exact ⟨trivial, fun _ _ _ => ⟨trivial, fun _ _ _ => ⟨trivial, fun _ _ _ => trivial⟩⟩⟩
  · refine ⟨trivial, fun s₁ o₁ h₁ => ⟨trivial, fun s₂ o₂ h₂ => ⟨?_, fun _ _ _ => trivial⟩⟩⟩
    cases h₁
    cases h₂
    intro n s₁ _ hn
    cases hn
    decide

/-- `expire_single` dispatches a repeating timer. -/
def repeatingCalls : List (Call Unit Unit) :=
  [.schedule () () zero (ofMsec 1), .expireSingle zero]

/-- **`expire_single` loses count of a repeating timer.** -/
theorem sizeExact_fails :
    ∃ (s : State (TimerList Unit ℤ) Unit Unit) (results : List ℤ),
      Machine.Guarded step LiveIds oneBucket repeatingCalls ∧
      Machine.run step oneBucket repeatingCalls = some (s, results) ∧ ¬SizeExact s.queue := by
  refine ⟨_, _, ⟨trivial, fun _ _ _ => ⟨trivial, fun _ _ _ => trivial⟩⟩, rfl, fun h => ?_⟩
  exact absurd h.1 (by decide)

end Example

end TimerHash

end AceTao
