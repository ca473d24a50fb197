import AceTao.TimerHash.Earliest

/-!
# The earliest timer in every run

Each operation of the hash table keeps the timers in their buckets
(`AceTao.TimerHash.Placed`) and, if its scan of the table is safe, the earliest bucket
(`AceTao.TimerHash.Earliest`). Only `cancel` and `remove_first` can make an unsafe scan:
`expire` dispatches every timer at time zero before it scans. Hence `is_empty` and
`earliest_time` are right in every run in which these two leave no timer at time zero together
with timers outside the first bucket (`AceTao.TimerHash.earliestKnown_of_run`), and
`AceTao.TimerHash.earliestKnown_fails` is a run in which they are wrong.
-/

namespace AceTao

namespace TimerHash

open TimeValue (zero)
open TimerBucket (nodes)
open LawfulTimerBucket

variable {B α β : Type} [TimerBucket B α ℤ] [LawfulTimerBucket B α ℤ] {s s' : TimerHash B α β}

/-! ### Scheduling -/

/-- A timer goes into its bucket. -/
theorem Placed.insert (h : Placed s) {type : α} {act origId : ℤ} {time interval : TimeValue}
    {b : B} (ht : zero ≤ time)
    (hs : TimerBucket.schedule type act time interval (s.table (s.position time))
      = some (origId, b)) (hid : origId ≠ -1)
    (htable : s'.table = Function.update s.table (s.position time) b)
    (hsize : s'.tableSize = s.tableSize) (hpos : s'.earliestPosition = s.earliestPosition) :
    Placed (s'.noteEarlier (s.position time)) ∧
      (Earliest s → Earliest (s'.noteEarlier (s.position time))) := by
  obtain ⟨hb, hperm⟩ := schedule_spec _ _ _ _ _ _ _ (h.valid _) hs hid
  have hlt := position_lt ((Nat.zero_le _).trans_lt h.pos) time
  refine ⟨h.update hb (fun n hn => ?_) ((noteEarlier_table ..).trans htable)
    ((noteEarlier_tableSize ..).trans hsize) ?_, fun he => ?_⟩
  · rcases List.mem_cons.mp (hperm.mem_iff.mp hn) with rfl | hn
    · exact ⟨ht, rfl⟩
    · exact ⟨h.epoch _ n hn, h.bucket _ n hn⟩
  · rcases noteEarlier_earliestPosition (s.position time) s' with heq | heq
    · rw [heq]
      exact hlt
    · rw [heq, hpos]
      exact h.pos
  · refine he.noteEarlier h hb ?_ (fun n hn => ?_) htable hpos
    · exact List.ne_nil_of_mem (hperm.mem_iff.mpr (List.mem_cons_self ..))
    · exact hperm.mem_iff.mpr (List.mem_cons_of_mem _ hn)

theorem Placed.scheduleI (h : Placed s) {type : α} {act : β} {futureTime interval : TimeValue}
    {id : ℤ} (ht : zero ≤ futureTime)
    (hs : s.scheduleI type act futureTime interval = some (id, s')) :
    Placed s' ∧ (Earliest s → Earliest s') := by
  obtain ⟨origId, b, -, hb, hid, rfl⟩ := scheduleI_eq_some hs
  rw [removeToken_table] at hb ⊢
  let s₁ : TimerHash B α β := { s.removeToken.2 with
    tokens := Function.update s.removeToken.2.tokens id
      (some ⟨act, s.position futureTime, origId, type⟩)
    table := Function.update s.table (s.position futureTime) b }
  obtain ⟨hplaced, hearliest⟩ := h.insert ht hb hid (rfl : s₁.table = _) (removeToken_tableSize s)
    (removeToken_earliestPosition s)
  exact ⟨hplaced.congr rfl rfl hplaced.pos, fun he => (hearliest he).congr rfl rfl⟩

theorem Placed.reschedule (h : Placed s) {n : TimerNode α ℤ} (ht : zero ≤ n.timerValue)
    (hr : s.reschedule n = some s') : Placed s' ∧ (Earliest s → Earliest s') := by
  obtain ⟨token, origId, b, -, hb, hid, rfl⟩ := reschedule_eq_some hr
  exact h.insert ht hb hid rfl rfl rfl

/-! ### Cancelling -/

/-- The timers that an operation takes out leave no timer at time zero, or no timer outside the
first bucket. -/
def ZeroSafe (gone : ℕ → TimerNode α ℤ → Prop) (s : TimerHash B α β) : Prop :=
  (∃ n ∈ nodes (s.table 0), n.timerValue = zero ∧ ¬gone 0 n) →
    ∀ i < s.tableSize, i ≠ 0 → ∀ n ∈ nodes (s.table i), gone i n

/-- The timer that `cancel (timer_id)` takes out. -/
def cancelled (s : TimerHash B α β) (timerId : ℤ) (i : ℕ) (n : TimerNode α ℤ) : Prop :=
  ∃ token, s.tokens timerId = some token ∧ token.pos = i ∧ token.origId = n.timerId

theorem ZeroSafe.scanSafe {gone : ℕ → TimerNode α ℤ → Prop} (hz : ZeroSafe gone s) (h : Placed s)
    (hleft : ∀ i, ∀ n ∈ nodes (s'.table i), n ∈ nodes (s.table i) ∧ ¬gone i n) : ScanSafe s' := by
  rintro ⟨n₀, hn₀, hzero⟩ i hi
  refine List.eq_nil_iff_forall_not_mem.mpr fun n hn => ?_
  obtain ⟨hmem, hgone⟩ := hleft i n hn
  obtain ⟨hmem₀, hgone₀⟩ := hleft 0 n₀ hn₀
  exact hgone (hz ⟨n₀, hmem₀, hzero, hgone₀⟩ i (h.lt_tableSize hmem) hi n hmem)

omit [LawfulTimerBucket B α ℤ] in
/-- Timers leave another bucket than the earliest one. -/
theorem Earliest.shrink (he : Earliest s) {i : ℕ} {b : B} (hi : i ≠ s.earliestPosition)
    (hsub : nodes b ⊆ nodes (s.table i)) (htable : s'.table = Function.update s.table i b)
    (hpos : s'.earliestPosition = s.earliestPosition) : Earliest s' := by
  intro j n hn
  rw [isEmpty, earliestTime, hpos, htable, Function.update_of_ne hi.symm]
  rw [htable] at hn
  rcases eq_or_ne j i with rfl | hj
  · rw [Function.update_self] at hn
    exact he j n (hsub hn)
  · rw [Function.update_of_ne hj] at hn
    exact he j n hn

/-- The timers left after a bucket has taken one out. -/
theorem Placed.cancel_left (h : Placed s) {i : ℕ} {n : TimerNode α ℤ} {b : B}
    (hperm : (nodes (s.table i)).Perm (n :: nodes b)) :
    ∀ m ∈ nodes b, m ∈ nodes (s.table i) ∧ m.timerId ≠ n.timerId := by
  intro m hm
  refine ⟨hperm.mem_iff.mpr (List.mem_cons_of_mem n hm), fun heq => ?_⟩
  have hnodup := (hperm.map TimerNode.timerId).nodup_iff.mp (distinct _ (h.valid i))
  exact (List.nodup_cons.mp hnodup).1 (heq ▸ List.mem_map_of_mem hm)

theorem Placed.cancel (h : Placed s) {id r : ℤ} {act : Option β}
    (hc : s.cancel id = some (r, act, s')) : Placed s' ∧
      (Earliest s → ((∃ i n, n ∈ nodes (s.table i) ∧ i = s.earliestPosition ∧ s.cancelled id i n) →
        ZeroSafe (s.cancelled id) s) → Earliest s') := by
  rcases cancel_eq_some hc with ⟨-, rfl⟩ | ⟨token, b, ht, hb, hcase⟩
  · exact ⟨h, fun he _ => he⟩
  · rcases cancel_cases (h.valid _) hb with ⟨rfl, hvalid, n, hid, hperm⟩ | ⟨hr, rfl, -⟩
    · rcases hcase with ⟨-, s₁, rfl, rfl⟩ | ⟨hr, -⟩
      · have hleft := h.cancel_left hperm
        have hplaced : Placed { s with table := Function.update s.table token.pos b } :=
          h.shrink hvalid (fun m hm => (hleft m hm).1) rfl rfl h.pos
        split_ifs with hpos
        · have hscan := hplaced.findNewEarliest
          refine ⟨hscan.congr (addToken_table ..) (addToken_tableSize ..) ?_, fun he hz => ?_⟩
          · exact (addToken_earliestPosition ..).trans_lt hscan.pos
          · have hn : n ∈ nodes (s.table token.pos) := hperm.mem_iff.mpr (List.mem_cons_self ..)
            have hsafe : ScanSafe { s with table := Function.update s.table token.pos b } :=
              (hz ⟨_, n, hn, hpos, token, ht, rfl, hid.symm⟩).scanSafe h ?_
            · exact (hplaced.findNewEarliest_earliest hsafe).congr (addToken_table ..)
                (addToken_earliestPosition ..)
            · intro i m hm
              dsimp only at hm
              rcases eq_or_ne i token.pos with rfl | hi
              · rw [Function.update_self] at hm
                refine ⟨(hleft m hm).1, ?_⟩
                rintro ⟨token', ht', -, hid'⟩
                cases ht.symm.trans ht'
                exact (hleft m hm).2 (hid'.symm.trans hid.symm)
              · rw [Function.update_of_ne hi] at hm
                refine ⟨hm, ?_⟩
                rintro ⟨token', ht', hi', -⟩
                cases ht.symm.trans ht'
                exact hi hi'.symm
        · refine ⟨hplaced.congr (addToken_table ..) (addToken_tableSize ..) ?_, fun he _ => ?_⟩
          · exact (addToken_earliestPosition ..).trans_lt h.pos
          · exact he.shrink hpos (fun m hm => (hleft m hm).1) (addToken_table ..)
              (addToken_earliestPosition ..)
      · exact absurd rfl hr
    · rcases hcase with ⟨rfl, -⟩ | ⟨-, rfl⟩
      · exact absurd rfl hr
      · have htable : Function.update s.table token.pos (s.table token.pos) = s.table :=
          Function.update_eq_self ..
        exact ⟨h.congr htable rfl h.pos, fun he _ => he.congr htable rfl⟩

/-- **The second loop of `cancel (type)`** leaves no timer that one of the tokens names. -/
theorem Placed.cancelAll {ids : List ℤ} (h : Placed s) (hc : cancelAll ids s = some s') :
    Placed s' ∧ s'.earliestPosition = s.earliestPosition ∧ s'.tableSize = s.tableSize ∧
      (∀ i, nodes (s'.table i) ⊆ nodes (s.table i)) ∧
      ∀ id ∈ ids, ∃ token, s.tokens id = some token ∧
        ∀ n ∈ nodes (s'.table token.pos), token.origId ≠ n.timerId := by
  induction ids generalizing s with
  | nil =>
    cases hc
    exact ⟨h, rfl, rfl, fun i => List.Subset.refl _, fun id hid => absurd hid List.not_mem_nil⟩
  | cons id ids ih =>
    rw [TimerHash.cancelAll] at hc
    split at hc
    · cases hc
    · rename_i token ht
      split at hc
      · cases hc
      · rename_i r b hb
        split_ifs at hc with hr
        rcases cancel_cases (h.valid _) hb with ⟨-, hvalid, n, hid, hperm⟩ | ⟨hr', -⟩
        · have hleft := h.cancel_left hperm
          have hplaced : Placed ((({ s with table := Function.update s.table token.pos b } :
              TimerHash B α β).addToken id).decrementSize) :=
            h.shrink hvalid (fun m hm => (hleft m hm).1) (addToken_table ..)
              (addToken_tableSize ..) ((addToken_earliestPosition ..).trans_lt h.pos)
          obtain ⟨hs', hpos, hsize, hsub, hgone⟩ := ih hplaced hc
          have htable : (({ s with table := Function.update s.table token.pos b } :
              TimerHash B α β).addToken id).decrementSize.table
              = Function.update s.table token.pos b := addToken_table ..
          rw [htable] at hsub
          refine ⟨hs', hpos.trans (addToken_earliestPosition ..),
            hsize.trans (addToken_tableSize ..), fun i m hm => ?_, fun id' hid' => ?_⟩
          · have hm' := hsub i hm
            rcases eq_or_ne i token.pos with rfl | hi
            · rw [Function.update_self] at hm'
              exact (hleft m hm').1
            · rwa [Function.update_of_ne hi] at hm'
          · rcases List.mem_cons.mp hid' with rfl | hid'
            · refine ⟨token, ht, fun m hm => ?_⟩
              have hm' := hsub _ hm
              rw [Function.update_self] at hm'
              exact fun heq => (hleft m hm').2 (heq.symm.trans hid.symm)
            · obtain ⟨token', ht', hgone'⟩ := hgone id' hid'
              exact ⟨token', addToken_tokens_eq_some (s := { s with
                table := Function.update s.table token.pos b }) ht', hgone'⟩
        · exact absurd hr hr'

theorem Placed.cancelType [DecidableEq α] {type : α} {r : ℤ} (h : Placed s)
    (hc : s.cancelType type = some (r, s')) : Placed s' ∧
      (Earliest s → (¬s.size < (s.timerIds type).length →
        ZeroSafe (fun i n => ∃ id ∈ s.timerIds type, s.cancelled id i n) s) → Earliest s') := by
  rw [TimerHash.cancelType] at hc
  split_ifs at hc with hlt
  · cases hc
    exact ⟨h, fun he _ => he⟩
  · split at hc
    · cases hc
    · rename_i s₁ hs₁
      cases hc
      obtain ⟨hplaced, hpos, hsize, hsub, hgone⟩ := h.cancelAll hs₁
      refine ⟨hplaced.findNewEarliest, fun he hz => ?_⟩
      refine hplaced.findNewEarliest_earliest ((hz hlt).scanSafe h fun i n hn => ⟨hsub i hn, ?_⟩)
      rintro ⟨id, hid, token, ht, rfl, hn'⟩
      obtain ⟨token', ht', hgone'⟩ := hgone id hid
      cases ht.symm.trans ht'
      exact hgone' n hn hn'

/-! ### Expiry -/

/-- At most one timer at time zero is in the table, or no timer outside the first bucket. -/
def SingleZeroSafe (s : TimerHash B α β) : Prop :=
  2 ≤ (nodes (s.table 0)).countP (fun n => n.timerValue = zero) →
    ∀ i < s.tableSize, i ≠ 0 → nodes (s.table i) = []

theorem Placed.removeFirst (h : Placed s) {n : TimerNode α ℤ}
    (hr : s.removeFirst = some (n, s')) :
    Placed s' ∧ (Earliest s → SingleZeroSafe s → Earliest s') := by
  obtain ⟨hempty, b, hb, rfl⟩ := removeFirst_eq_some hr
  obtain ⟨n', b', hb', hearliest, hperm, -, hvalid⟩ := removeFirst_spec _
    (h.valid s.earliestPosition) (isEmpty_eq_false.mp hempty)
  cases hb'.symm.trans hb
  have hsub : nodes b ⊆ nodes (s.table s.earliestPosition) := fun m hm =>
    hperm.mem_iff.mpr (List.mem_cons_of_mem n hm)
  have hplaced : Placed { s with table := Function.update s.table s.earliestPosition b } :=
    h.shrink hvalid hsub rfl rfl h.pos
  have hscan := hplaced.findNewEarliest
  refine ⟨hscan.congr rfl rfl hscan.pos, fun he hz => ?_⟩
  refine (hplaced.findNewEarliest_earliest ?_).congr rfl rfl
  -- a timer at time zero that is left means that the one taken out was at time zero too
  rintro ⟨m, hm, hzero⟩ i hi
  dsimp only at hm ⊢
  have hn : n ∈ nodes (s.table s.earliestPosition) := hperm.mem_iff.mpr (List.mem_cons_self ..)
  have hm₀ : m ∈ nodes (s.table 0) := by
    rcases eq_or_ne 0 s.earliestPosition with hpos | hpos
    · rw [← hpos, Function.update_self] at hm
      exact hpos ▸ hsub hm
    · rwa [Function.update_of_ne hpos] at hm
  have hn₀ : n.timerValue = zero := by
    refine le_antisymm ?_ (h.epoch _ n hn)
    rw [← hearliest, ← hzero]
    exact (he 0 m hm₀).2
  have hpos : s.earliestPosition = 0 := by rw [← h.bucket _ n hn, hn₀, position_zero]
  rw [hpos] at hm hperm ⊢
  rw [Function.update_self] at hm
  rw [Function.update_of_ne hi]
  by_contra hne
  obtain ⟨m', hm'⟩ := List.exists_mem_of_ne_nil _ hne
  refine hne (hz ?_ i (h.lt_tableSize hm') hi)
  rw [hperm.countP_eq, List.countP_cons_of_pos (by rw [hn₀]; rfl)]
  exact Nat.succ_le_succ (List.countP_pos_iff.mpr ⟨m, hm, decide_eq_true hzero⟩)

/-- The times that `expire` gives to repeating timers are not before the epoch. -/
def RenewsAfterEpoch (curTime : TimeValue) (s : TimerHash B α β) : Prop :=
  ∀ i, ∀ n ∈ nodes (s.table i), Due curTime n → Recurring n →
    ∀ next, recomputeNextAbsIntervalTime n curTime = some next → zero ≤ next.timerValue

/-- **What `expire` preserves**: a bucket without due timers does not get one. -/
structure Expiring (curTime : TimeValue) (s s' : TimerHash B α β) : Prop where
  placed : Placed s'
  renews : RenewsAfterEpoch curTime s'
  tableSize : s'.tableSize = s.tableSize
  notDue : ∀ i, (∀ n ∈ nodes (s.table i), ¬Due curTime n) → ∀ n ∈ nodes (s'.table i), ¬Due curTime n

variable {curTime : TimeValue}

theorem Expiring.refl (h : Placed s) (hr : RenewsAfterEpoch curTime s) : Expiring curTime s s :=
  ⟨h, hr, rfl, fun _ h => h⟩

theorem Expiring.trans {s₁ s₂ s₃ : TimerHash B α β} (h : Expiring curTime s₁ s₂)
    (h' : Expiring curTime s₂ s₃) : Expiring curTime s₁ s₃ :=
  ⟨h'.placed, h'.renews, h'.tableSize.trans h.tableSize, fun i hi => h'.notDue i (h.notDue i hi)⟩

omit [LawfulTimerBucket B α ℤ] in
/-- The next expiry of a timer that is due is not due. -/
theorem RenewsAfterEpoch.next (hr : RenewsAfterEpoch curTime s) {i : ℕ} {n next : TimerNode α ℤ}
    (hn : n ∈ nodes (s.table i)) (hdue : Due curTime n) (hrec : Recurring n)
    (hnext : recomputeNextAbsIntervalTime n curTime = some next) :
    zero ≤ next.timerValue ∧ ¬Due curTime next := by
  have hepoch := hr i n hn hdue hrec next hnext
  refine ⟨hepoch, ?_⟩
  rw [recompute_of_due hdue] at hnext
  split_ifs at hnext with h₀
  cases hnext
  exact not_le.mpr (lt_nextExpiry_of_epoch h₀ hepoch)

/-- One timer that is due is taken out of its bucket. -/
theorem Expiring.remove (h : Placed s) (hr : RenewsAfterEpoch curTime s) {i : ℕ}
    {n : TimerNode α ℤ} {b : B} (hvalid : Valid b) (hperm : (nodes (s.table i)).Perm (n :: nodes b))
    (htable : s'.table = Function.update s.table i b) (hsize : s'.tableSize = s.tableSize)
    (hpos : s'.earliestPosition = s.earliestPosition) : Expiring curTime s s' := by
  have hsub : nodes b ⊆ nodes (s.table i) := fun m hm =>
    hperm.mem_iff.mpr (List.mem_cons_of_mem n hm)
  have hall : ∀ j, nodes (s'.table j) ⊆ nodes (s.table j) := fun j m hm => by
    rw [htable] at hm
    rcases eq_or_ne j i with rfl | hj
    · exact hsub (by rwa [Function.update_self] at hm)
    · rwa [Function.update_of_ne hj] at hm
  exact ⟨h.shrink hvalid hsub htable hsize (hpos ▸ h.pos), fun j m hm => hr j m (hall j hm), hsize,
    fun j hj m hm => hj m (hall j hm)⟩

/-- A timer that is not due goes into its bucket. -/
theorem Expiring.reschedule (h : Placed s) (hr : RenewsAfterEpoch curTime s) {n : TimerNode α ℤ}
    (hepoch : zero ≤ n.timerValue) (hn : ¬Due curTime n) (hs : s.reschedule n = some s') :
    Expiring curTime s s' := by
  have hplaced := (h.reschedule hepoch hs).1
  obtain ⟨token, origId, b, -, hb, hid, rfl⟩ := reschedule_eq_some hs
  obtain ⟨-, hperm⟩ := schedule_spec _ _ _ _ _ _ _ (h.valid _) hb hid
  have hall : ∀ j, ∀ m ∈ nodes (Function.update s.table (s.position n.timerValue) b j),
      m ∈ nodes (s.table j) ∨ ¬Due curTime m := by
    intro j m hm
    rcases eq_or_ne j (s.position n.timerValue) with rfl | hj
    · rw [Function.update_self] at hm
      rcases List.mem_cons.mp (hperm.mem_iff.mp hm) with rfl | hm
      · exact Or.inr hn
      · exact Or.inl hm
    · rw [Function.update_of_ne hj] at hm
      exact Or.inl hm
  refine ⟨hplaced, fun j m hm hdue => ?_, noteEarlier_tableSize .., fun j hj m hm => ?_⟩
  · rw [noteEarlier_table] at hm
    exact (hall j m hm).elim (fun hm => hr j m hm hdue) fun hm => absurd hdue hm
  · rw [noteEarlier_table] at hm
    exact (hall j m hm).elim (hj m) id

/-- The body of the loop. -/
theorem Expiring.expireOne {i : ℕ} {info : DispatchInfo α β} (h : Placed s)
    (hr : RenewsAfterEpoch curTime s) (hne : nodes (s.table i) ≠ [])
    (hle : TimerQueue.earliestTime (s.table i) ≤ curTime)
    (he : s.expireOne curTime i = some (info, s')) :
    Expiring curTime s s' ∧ zero ≤ curTime := by
  obtain ⟨n, b, hb, hcase⟩ := expireOne_eq_some he
  obtain ⟨n', b', hb', hearliest, hperm, -, hvalid⟩ := removeFirst_spec _ (h.valid i) hne
  cases hb'.symm.trans hb
  have hn : n ∈ nodes (s.table i) := hperm.mem_iff.mpr (List.mem_cons_self ..)
  rw [hearliest] at hle
  refine ⟨?_, (h.epoch i n hn).trans hle⟩
  rcases hcase with ⟨hrec, next, hnext, hs'⟩ | ⟨-, rfl⟩
  · have hremove : Expiring curTime s { s with table := Function.update s.table i b } :=
      Expiring.remove h hr hvalid hperm rfl rfl rfl
    obtain ⟨hepoch, hnot⟩ := hr.next hn hle hrec hnext
    exact hremove.trans (Expiring.reschedule hremove.placed hremove.renews hepoch hnot hs')
  · exact Expiring.remove h hr hvalid hperm (addToken_table ..) (addToken_tableSize ..)
      (addToken_earliestPosition ..)

/-- **The loop over a bucket** leaves no due timer in it; it changes nothing when it dispatches
nothing. -/
theorem Expiring.expireBucket {i fuel : ℕ} {infos : List (DispatchInfo α β)} (h : Placed s)
    (hr : RenewsAfterEpoch curTime s) (he : s.expireBucket curTime i fuel = some (infos, s')) :
    Expiring curTime s s' ∧ (∀ n ∈ nodes (s'.table i), ¬Due curTime n) ∧
      (infos = [] ∧ s' = s ∨ infos ≠ [] ∧ zero ≤ curTime) := by
  induction fuel generalizing s infos with
  | zero => cases he
  | succ fuel ih =>
    rw [TimerHash.expireBucket] at he
    split_ifs at he with hcond
    · cases he
      refine ⟨Expiring.refl h hr, fun n hn hdue => ?_, Or.inl ⟨rfl, rfl⟩⟩
      rcases hcond with hempty | hlate
      · exact List.ne_nil_of_mem hn ((LawfulTimerBucket.isEmpty_iff _).mp hempty)
      · exact hlate ((earliestTime_le (h.valid i) hn).trans hdue)
    · split at he
      · cases he
      · rename_i info s₁ hs₁
        split at he
        · cases he
        · rename_i infos' t hs₂
          cases he
          have hdue := not_not.mp (not_or.mp hcond).2
          have hne : nodes (s.table i) ≠ [] :=
            isEmpty_eq_false.mp (Bool.not_eq_true _ ▸ (not_or.mp hcond).1)
          obtain ⟨h₁, hzero⟩ := Expiring.expireOne h hr hne hdue hs₁
          obtain ⟨h₂, hi, -⟩ := ih h₁.placed h₁.renews hs₂
          exact ⟨h₁.trans h₂, hi, Or.inr ⟨List.cons_ne_nil _ _, hzero⟩⟩

/-- **The loop over the buckets.** -/
theorem Expiring.expireTable {fuel : ℕ} {is : List ℕ} {infos : List (DispatchInfo α β)}
    (h : Placed s) (hr : RenewsAfterEpoch curTime s)
    (he : s.expireTable fuel curTime is = some (infos, s')) :
    Expiring curTime s s' ∧ (∀ i ∈ is, ∀ n ∈ nodes (s'.table i), ¬Due curTime n) ∧
      (infos = [] ∧ s' = s ∨ infos ≠ [] ∧ zero ≤ curTime) := by
  induction is generalizing s infos with
  | nil =>
    cases he
    exact ⟨Expiring.refl h hr, fun i hi => absurd hi List.not_mem_nil, Or.inl ⟨rfl, rfl⟩⟩
  | cons i is ih =>
    rw [TimerHash.expireTable] at he
    split at he
    · cases he
    · rename_i infos₁ s₁ hs₁
      split at he
      · cases he
      · rename_i infos₂ t hs₂
        cases he
        obtain ⟨h₁, hi₁, hcase₁⟩ := Expiring.expireBucket h hr hs₁
        obtain ⟨h₂, hi₂, hcase₂⟩ := ih h₁.placed h₁.renews hs₂
        refine ⟨h₁.trans h₂, fun j hj => ?_, ?_⟩
        · rcases List.mem_cons.mp hj with rfl | hj
          · exact h₂.notDue j hi₁
          · exact hi₂ j hj
        · rcases hcase₁ with ⟨rfl, rfl⟩ | ⟨hne, hzero⟩
          · exact hcase₂
          · exact Or.inr ⟨fun hcon => hne (List.append_eq_nil_iff.mp hcon).1, hzero⟩

/-- **`expire` finds the earliest bucket**: its scan is safe, as no timer at time zero is left. -/
theorem Placed.expire {fuel : ℕ} {infos : List (DispatchInfo α β)} (h : Placed s)
    (hr : RenewsAfterEpoch curTime s) (he : s.expire fuel curTime = some (infos, s')) :
    Placed s' ∧ (Earliest s → Earliest s') := by
  rw [TimerHash.expire] at he
  split at he
  · cases he
  · rename_i infos' s₁ hs₁
    cases he
    obtain ⟨h₁, hdue, hcase⟩ := Expiring.expireTable h hr hs₁
    rcases hcase with ⟨rfl, rfl⟩ | ⟨hne, hzero⟩
    · exact ⟨h, fun he => he⟩
    · rw [if_pos (List.length_pos_iff.mpr hne)]
      refine ⟨h₁.placed.findNewEarliest, fun _ => h₁.placed.findNewEarliest_earliest ?_⟩
      rintro ⟨n, hn, hn₀⟩
      have hlt := h₁.placed.lt_tableSize hn
      rw [h₁.tableSize] at hlt
      exact absurd (hn₀.trans_le hzero) (hdue 0 (List.mem_range.mpr hlt) n hn)

/-! ### Every run -/

/-- **The calls of the member functions of the table**, with no time before the epoch. -/
def AfterEpoch (s : State B α β) : Call α β → Prop
  | .schedule _ _ futureTime _ => zero ≤ futureTime
  | .reschedule _ time => zero ≤ time
  | .expire _ curTime => RenewsAfterEpoch curTime s.queue
  | .expireSingle _ => False
  | .cancel _ => True
  | .cancelType _ => True
  | .removeFirst => True
  | .freeNode _ => True

/-- **The scan that a call makes is safe**: of the timers that it leaves none is at time zero, or
none is outside the first bucket. -/
def ScansSafely [DecidableEq α] (s : State B α β) : Call α β → Prop
  | .cancel timerId =>
    (∃ i n, n ∈ nodes (s.queue.table i) ∧ i = s.queue.earliestPosition ∧
      s.queue.cancelled timerId i n) → ZeroSafe (s.queue.cancelled timerId) s.queue
  | .cancelType type => ¬s.queue.size < (s.queue.timerIds type).length →
    ZeroSafe (fun i n => ∃ id ∈ s.queue.timerIds type, s.queue.cancelled id i n) s.queue
  | .removeFirst => SingleZeroSafe s.queue
  | _ => True

theorem init_placed {tableSize : ℕ} (h : 1 ≤ tableSize) :
    Placed (init tableSize : TimerHash B α β) ∧ Earliest (init tableSize : TimerHash B α β) := by
  have hempty : ∀ i, nodes ((init tableSize : TimerHash B α β).table i) = [] := fun _ =>
    init_spec.2
  have hnone : ∀ i, ∀ n, n ∉ nodes ((init tableSize : TimerHash B α β).table i) := fun i n => by
    rw [hempty i]
    exact List.not_mem_nil
  exact ⟨⟨h, fun _ => init_spec.1, fun i n hn => absurd hn (hnone i n),
    fun i n hn => absurd hn (hnone i n)⟩, fun i n hn => absurd hn (hnone i n)⟩

/-- **One call.** -/
theorem step_placed [DecidableEq α] {s s' : State B α β} {c : Call α β} {r : ℤ}
    (h : Placed s.queue ∧ Earliest s.queue) (hc : AfterEpoch s c ∧ ScansSafely s c)
    (hstep : step s c = some (s', r)) : Placed s'.queue ∧ Earliest s'.queue := by
  obtain ⟨hplaced, hearliest⟩ := h
  cases c with
  | schedule type act futureTime interval =>
    obtain ⟨⟨timerId, q⟩, hq, heq⟩ := Option.map_eq_some_iff.mp hstep
    cases heq
    exact (hplaced.scheduleI hc.1 hq).imp id fun hs => hs hearliest
  | cancel timerId =>
    obtain ⟨⟨result, act, q⟩, hq, heq⟩ := Option.map_eq_some_iff.mp hstep
    cases heq
    exact (hplaced.cancel hq).imp id fun hs => hs hearliest hc.2
  | cancelType type =>
    obtain ⟨⟨result, q⟩, hq, heq⟩ := Option.map_eq_some_iff.mp hstep
    cases heq
    exact (hplaced.cancelType hq).imp id fun hs => hs hearliest hc.2
  | expire fuel curTime =>
    obtain ⟨⟨infos, q⟩, hq, heq⟩ := Option.map_eq_some_iff.mp hstep
    cases heq
    exact (hplaced.expire hc.1 hq).imp id fun hs => hs hearliest
  | expireSingle curTime => exact hc.1.elim
  | removeFirst =>
    rw [step] at hstep
    split at hstep
    · cases hstep
      exact ⟨hplaced, hearliest⟩
    · rename_i p hp
      cases hstep
      exact (hplaced.removeFirst hp).imp id fun hs => hs hearliest hc.2
  | reschedule k time =>
    rw [step] at hstep
    split at hstep
    · cases hstep
    · rename_i n hn
      obtain ⟨q, hq, heq⟩ := Option.map_eq_some_iff.mp hstep
      cases heq
      exact (hplaced.reschedule (n := n.setTimerValue time) hc.1 hq).imp id fun hs => hs hearliest
  | freeNode k =>
    rw [step] at hstep
    split at hstep
    · cases hstep
    · cases hstep
      exact ⟨hplaced.congr (addToken_table ..) (addToken_tableSize ..)
        ((addToken_earliestPosition ..).trans_lt hplaced.pos),
        hearliest.congr (addToken_table ..) (addToken_earliestPosition ..)⟩

/-- **`is_empty` and `earliest_time` are right in every run** all of whose scans are safe. -/
theorem earliestKnown_of_run [DecidableEq α] {tableSize : ℕ} (hsize : 1 ≤ tableSize)
    {calls : List (Call α β)} {s : State B α β} {results : List ℤ}
    (hepoch : Machine.Guarded step AfterEpoch (⟨init tableSize, []⟩ : State B α β) calls)
    (hsafe : Machine.Guarded step ScansSafely (⟨init tableSize, []⟩ : State B α β) calls)
    (hrun : Machine.run step (⟨init tableSize, []⟩ : State B α β) calls = some (s, results)) :
    EarliestKnown s.queue := by
  have h := Machine.inv_run_of_guarded (P := fun s : State B α β => Placed s.queue ∧
    Earliest s.queue) (fun _ _ _ _ h hc => step_placed h hc) (init_placed hsize)
    (hepoch.and hsafe) hrun
  exact h.1.earliestKnown h.2

section Example

open TimeValue (ofMsec)

/-- An empty table with two buckets. -/
def twoBuckets : State (TimerList Unit ℤ) Unit Unit := ⟨init 2, []⟩

/-- The only timer at time zero is cancelled. -/
def safeCalls : List (Call Unit Unit) :=
  [.schedule () () zero zero, .schedule () () (ofMsec 1000) zero, .cancel 99]

theorem earliestKnown_of_safeCalls :
    ∃ (s : State (TimerList Unit ℤ) Unit Unit) (results : List ℤ),
      Machine.run step twoBuckets safeCalls = some (s, results) ∧ EarliestKnown s.queue := by
  refine ⟨_, _, rfl, @earliestKnown_of_run _ _ _ _ _ _ _ one_le_two safeCalls _ _ ?_ ?_ rfl⟩
  · exact ⟨le_rfl, fun _ _ _ => ⟨(by decide : zero ≤ ofMsec 1000), fun _ _ _ =>
      ⟨trivial, fun _ _ _ => trivial⟩⟩⟩
  · refine ⟨trivial, fun s₁ o₁ h₁ => ⟨trivial, fun s₂ o₂ h₂ => ⟨fun _ => ?_, fun _ _ _ => trivial⟩⟩⟩
    cases h₁
    cases h₂
    rintro ⟨n, hn, -, hgone⟩
    obtain rfl := List.mem_singleton.mp hn
    exact absurd ⟨_, rfl, rfl, rfl⟩ hgone

/-- One of two timers at time zero is cancelled. -/
def zeroCalls : List (Call Unit Unit) :=
  [.schedule () () zero zero, .schedule () () zero zero, .schedule () () (ofMsec 1000) zero,
    .cancel 99]

/-- **The scan moves on from a timer at time zero.** -/
theorem earliestKnown_fails :
    ∃ (s : State (TimerList Unit ℤ) Unit Unit) (results : List ℤ),
      Machine.Guarded step AfterEpoch twoBuckets zeroCalls ∧
      Machine.run step twoBuckets zeroCalls = some (s, results) ∧ ¬EarliestKnown s.queue := by
  refine ⟨_, _, ?_, rfl, fun h => ?_⟩
  · exact ⟨le_rfl, fun _ _ _ => ⟨le_rfl, fun _ _ _ =>
      ⟨(by decide : zero ≤ ofMsec 1000), fun _ _ _ => ⟨trivial, fun _ _ _ => trivial⟩⟩⟩⟩
  · have hle := (h.2 rfl).2 ⟨0, by decide, ⟨(), 98, zero, zero, 1⟩, List.mem_singleton.mpr rfl, rfl⟩
    exact absurd hle (by decide)

end Example

end TimerHash

end AceTao
