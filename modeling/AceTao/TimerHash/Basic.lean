import AceTao.Library.Machine
import AceTao.TimerHash.Bucket

/-!
# `ACE_Timer_Hash_T`: the code

The hash table distributes timers over `table_size_` buckets by the seconds of their time. A
timer in a bucket has a `Hash_Token` as its asynchronous completion token; the token knows
what the user passed in, the bucket and the id of the timer there, and its address is the id
the user gets. Tokens come from a free list. The table counts its timers in `size_`, and
caches the position of the bucket with the earliest one, which `find_new_earliest` repairs.

Addresses are `long`. Tokens that are deleted are read no more: a read of one, a failed
assertion and a null pointer leave an operation without an answer.
-/

namespace AceTao

open TimeValue (zero)
open TimerQueue (isEmpty earliestTime removeFirst)

/-- **`Hash_Token`**. -/
structure HashToken (α β : Type) where
  /-- `act_` -/
  act : β
  /-- `pos_` -/
  pos : ℕ
  /-- `orig_id_` -/
  origId : ℤ
  /-- `type_` -/
  type : α

/-- **`ACE_Timer_Hash_T`**, over the buckets `B`. -/
structure TimerHash (B α β : Type) where
  /-- `size_` -/
  size : ℕ
  /-- `table_` -/
  table : ℕ → B
  /-- `table_size_` -/
  tableSize : ℕ
  /-- `earliest_position_` -/
  earliestPosition : ℕ
  /-- The tokens in memory, by their address. -/
  tokens : ℤ → Option (HashToken α β)
  /-- `token_list_`, from its head. -/
  tokenList : List ℤ
  /-- The number of tokens that have been allocated. -/
  allocated : ℕ

namespace TimerHash

variable {B α β : Type}

/-! ### Tokens -/

/-- `ACE_DEFAULT_FREE_LIST_INC`. -/
def freeListInc : ℕ := 100

/-- `ACE_DEFAULT_FREE_LIST_HWM`. -/
def freeListHwm : ℕ := 25000

/-- `token_list_.remove ()`: an empty list is filled first, and the last token allocated is
the first one taken. -/
def removeToken (s : TimerHash B α β) : ℤ × TimerHash B α β :=
  match s.tokenList with
  | h :: l => (h, { s with tokenList := l })
  | [] =>
    ((s.allocated + (freeListInc - 1) : ℕ), { s with
      tokenList := (List.range (freeListInc - 1)).reverse.map fun k => ((s.allocated + k : ℕ) : ℤ)
      allocated := s.allocated + freeListInc })

/-- `token_list_.add (h)`: above the high water mark the token is deleted. -/
def addToken (h : ℤ) (s : TimerHash B α β) : TimerHash B α β :=
  if s.tokenList.length < freeListHwm then { s with tokenList := h :: s.tokenList }
  else { s with tokens := Function.update s.tokens h none }

section RemoveToken

variable (s : TimerHash B α β)

@[simp] theorem removeToken_table : s.removeToken.2.table = s.table := by
  rw [removeToken]
  split <;> rfl

@[simp] theorem removeToken_tableSize : s.removeToken.2.tableSize = s.tableSize := by
  rw [removeToken]
  split <;> rfl

@[simp] theorem removeToken_earliestPosition :
    s.removeToken.2.earliestPosition = s.earliestPosition := by
  rw [removeToken]
  split <;> rfl

@[simp] theorem removeToken_size : s.removeToken.2.size = s.size := by
  rw [removeToken]
  split <;> rfl

end RemoveToken

section AddToken

variable (h : ℤ) (s : TimerHash B α β)

@[simp] theorem addToken_table : (s.addToken h).table = s.table := by
  rw [addToken]
  split_ifs <;> rfl

@[simp] theorem addToken_tableSize : (s.addToken h).tableSize = s.tableSize := by
  rw [addToken]
  split_ifs <;> rfl

@[simp] theorem addToken_earliestPosition :
    (s.addToken h).earliestPosition = s.earliestPosition := by
  rw [addToken]
  split_ifs <;> rfl

@[simp] theorem addToken_size : (s.addToken h).size = s.size := by
  rw [addToken]
  split_ifs <;> rfl

end AddToken

/-- A token that is not deleted stays as it is. -/
theorem addToken_tokens_eq_some {s : TimerHash B α β} {h id : ℤ} {token : HashToken α β}
    (ht : (s.addToken h).tokens id = some token) : s.tokens id = some token := by
  rw [addToken] at ht
  split_ifs at ht
  · exact ht
  · rcases eq_or_ne id h with rfl | hne
    · cases (Function.update_self (β := fun _ => Option (HashToken α β)) ..).symm.trans ht
    · exact (Function.update_of_ne hne ..).symm.trans ht

/-- `--size_`, of a `size_t`. The increment does not overflow, since every timer has a token in
memory. -/
def decrementSize (s : TimerHash B α β) : TimerHash B α β :=
  { s with size := if s.size = 0 then 2 ^ 64 - 1 else s.size - 1 }

theorem addToken_decrementSize (h : ℤ) (s : TimerHash B α β) :
    s.decrementSize.addToken h = (s.addToken h).decrementSize := by
  rw [addToken, addToken]
  split_ifs <;> first | rfl | contradiction

/-- The bucket of a time: its seconds, cast to `size_t`, modulo the size of the table. -/
def position (t : TimeValue) (s : TimerHash B α β) : ℕ := (t.sec % 2 ^ 64).toNat % s.tableSize

theorem position_lt {s : TimerHash B α β} (h : 0 < s.tableSize) (t : TimeValue) :
    s.position t < s.tableSize :=
  Nat.mod_lt _ h

theorem position_congr {s s' : TimerHash B α β} (h : s'.tableSize = s.tableSize) (t : TimeValue) :
    s'.position t = s.position t := by
  rw [position, position, h]

/-- Time zero belongs to the first bucket. -/
theorem position_zero {s : TimerHash B α β} : s.position zero = 0 := Nat.zero_mod _

/-! ### The earliest bucket -/

variable [TimerBucket B α ℤ]

/-- The constructor. -/
def init (tableSize : ℕ) : TimerHash B α β :=
  ⟨0, fun _ => TimerBucket.init, tableSize, 0, fun _ => none, [], 0⟩

/-- `is_empty`. -/
def isEmpty (s : TimerHash B α β) : Bool := TimerQueue.isEmpty (s.table s.earliestPosition)

/-- `earliest_time`. -/
def earliestTime (s : TimerHash B α β) : TimeValue :=
  TimerQueue.earliestTime (s.table s.earliestPosition)

/-- One iteration of the loop of `find_new_earliest`, at the bucket `i`; `e` is
`earliest_position_`. -/
def scanBucket (s : TimerHash B α β) (e i : ℕ) : ℕ :=
  if ¬TimerQueue.isEmpty (s.table i) ∧ (TimerQueue.isEmpty (s.table e) ∨
      TimerQueue.earliestTime (s.table e) = zero ∨
      TimerQueue.earliestTime (s.table i) ≤ TimerQueue.earliestTime (s.table e)) then i
  else e

/-- `find_new_earliest`. -/
def findNewEarliest (s : TimerHash B α β) : TimerHash B α β :=
  { s with earliestPosition := (List.range s.tableSize).foldl s.scanBucket s.earliestPosition }

/-- What `reschedule` and `schedule_i` do after a timer has gone into the bucket `pos`. -/
def noteEarlier (pos : ℕ) (s : TimerHash B α β) : TimerHash B α β :=
  if TimerQueue.isEmpty (s.table s.earliestPosition) ∨ TimerQueue.earliestTime (s.table pos)
      < TimerQueue.earliestTime (s.table s.earliestPosition) then { s with earliestPosition := pos }
  else s

section NoteEarlier

variable (pos : ℕ) (s : TimerHash B α β)

@[simp] theorem noteEarlier_table : (noteEarlier pos s).table = s.table := by
  rw [noteEarlier]
  split_ifs <;> rfl

@[simp] theorem noteEarlier_tableSize : (noteEarlier pos s).tableSize = s.tableSize := by
  rw [noteEarlier]
  split_ifs <;> rfl

@[simp] theorem noteEarlier_tokens : (noteEarlier pos s).tokens = s.tokens := by
  rw [noteEarlier]
  split_ifs <;> rfl

@[simp] theorem noteEarlier_tokenList : (noteEarlier pos s).tokenList = s.tokenList := by
  rw [noteEarlier]
  split_ifs <;> rfl

@[simp] theorem noteEarlier_allocated : (noteEarlier pos s).allocated = s.allocated := by
  rw [noteEarlier]
  split_ifs <;> rfl

@[simp] theorem noteEarlier_size : (noteEarlier pos s).size = s.size := by
  rw [noteEarlier]
  split_ifs <;> rfl

theorem noteEarlier_earliestPosition : (noteEarlier pos s).earliestPosition = pos ∨
    (noteEarlier pos s).earliestPosition = s.earliestPosition := by
  rw [noteEarlier]
  split_ifs
  · exact Or.inl rfl
  · exact Or.inr rfl

end NoteEarlier

/-! ### Scheduling -/

/-- `schedule_i`. -/
def scheduleI (type : α) (act : β) (futureTime interval : TimeValue) (s : TimerHash B α β) :
    Option (ℤ × TimerHash B α β) :=
  let pos := s.position futureTime
  let h := s.removeToken.1
  let s₁ := s.removeToken.2
  match TimerBucket.schedule type h futureTime interval (s₁.table pos) with
  | none => none
  | some (origId, b) =>
    if origId = -1 then none
    else
      let s₂ := noteEarlier pos { s₁ with
        tokens := Function.update s₁.tokens h (some ⟨act, pos, origId, type⟩)
        table := Function.update s₁.table pos b }
      some (h, { s₂ with size := s₂.size + 1 })

/-- `reschedule`. -/
def reschedule (expired : TimerNode α ℤ) (s : TimerHash B α β) : Option (TimerHash B α β) :=
  match s.tokens expired.act with
  | none => none
  | some h =>
    let pos := s.position expired.timerValue
    match TimerBucket.schedule expired.type expired.act expired.timerValue expired.interval
        (s.table pos) with
    | none => none
    | some (origId, b) =>
      if origId = -1 then none
      else some (noteEarlier pos { s with
        tokens := Function.update s.tokens expired.act
          (some { h with pos := pos, origId := origId })
        table := Function.update s.table pos b })

section Spec

variable {s s' : TimerHash B α β} {type : α} {act : β} {futureTime interval : TimeValue} {id r : ℤ}

/-- **What `schedule_i` does.** -/
theorem scheduleI_eq_some (h : s.scheduleI type act futureTime interval = some (id, s')) :
    ∃ origId b, id = s.removeToken.1 ∧ TimerBucket.schedule type id futureTime interval
        (s.removeToken.2.table (s.position futureTime)) = some (origId, b) ∧ origId ≠ -1 ∧
      s' = { noteEarlier (s.position futureTime) { s.removeToken.2 with
        tokens := Function.update s.removeToken.2.tokens id
          (some ⟨act, s.position futureTime, origId, type⟩)
        table := Function.update s.removeToken.2.table (s.position futureTime) b } with
          size := s.removeToken.2.size + 1 } := by
  simp only [scheduleI] at h
  split at h
  · cases h
  · rename_i origId b hs
    split_ifs at h with hid
    cases h
    refine ⟨origId, b, rfl, hs, hid, ?_⟩
    rw [noteEarlier_size]

/-- **What `reschedule` does.** -/
theorem reschedule_eq_some {n : TimerNode α ℤ} (h : s.reschedule n = some s') :
    ∃ token origId b, s.tokens n.act = some token ∧
      TimerBucket.schedule n.type n.act n.timerValue n.interval
        (s.table (s.position n.timerValue)) = some (origId, b) ∧ origId ≠ -1 ∧
      s' = noteEarlier (s.position n.timerValue) { s with
        tokens := Function.update s.tokens n.act
          (some { token with pos := s.position n.timerValue, origId := origId })
        table := Function.update s.table (s.position n.timerValue) b } := by
  simp only [reschedule] at h
  split at h
  · cases h
  · rename_i token ht
    split at h
    · cases h
    · rename_i origId b hs
      split_ifs at h with hid
      exact ⟨token, origId, b, ht, hs, hid, (Option.some.inj h).symm⟩

end Spec

/-! ### Cancelling -/

/-- `cancel (timer_id, act)`. -/
def cancel (timerId : ℤ) (s : TimerHash B α β) : Option (ℤ × Option β × TimerHash B α β) :=
  if timerId = -1 then some (0, none, s)
  else
    match s.tokens timerId with
    | none => none
    | some h =>
      match TimerBucket.cancel h.origId (s.table h.pos) with
      | none => none
      | some (result, b) =>
        let s' := { s with table := Function.update s.table h.pos b }
        if result = 1 then
          let s'' := if h.pos = s'.earliestPosition then s'.findNewEarliest else s'
          some (result, some h.act, (s''.addToken timerId).decrementSize)
        else some (result, none, s')

/-- The tokens that `cancel (type)` writes into its array `timer_ids`. -/
def timerIds [DecidableEq α] (type : α) (s : TimerHash B α β) : List ℤ :=
  (List.range s.tableSize).flatMap fun i =>
    ((TimerBucket.nodes (s.table i)).filter fun n => n.type = type).map TimerNode.act

/-- The second loop of `cancel (type)`. -/
def cancelAll : List ℤ → TimerHash B α β → Option (TimerHash B α β)
  | [], s => some s
  | id :: ids, s =>
    match s.tokens id with
    | none => none
    | some h =>
      match TimerBucket.cancel h.origId (s.table h.pos) with
      | none => none
      | some (result, b) =>
        if result = 1 then
          cancelAll ids (({ s with table := Function.update s.table h.pos b } :
            TimerHash B α β).addToken id).decrementSize
        else none

/-- `cancel (type)`. It allocates an array of `size_` tokens, but compares the number of tokens
with `size_` only after it has written them. -/
def cancelType [DecidableEq α] (type : α) (s : TimerHash B α β) : Option (ℤ × TimerHash B α β) :=
  if s.size < (s.timerIds type).length then some (-1, s)
  else
    match s.cancelAll (s.timerIds type) with
    | none => none
    | some s' => some ((s.timerIds type).length, s'.findNewEarliest)

/-- **What `cancel (timer_id)` does.** -/
theorem cancel_eq_some {s s' : TimerHash B α β} {id r : ℤ} {act : Option β}
    (h : s.cancel id = some (r, act, s')) : (id = -1 ∧ s' = s) ∨
      ∃ token b, s.tokens id = some token ∧
        TimerBucket.cancel token.origId (s.table token.pos) = some (r, b) ∧
        ((r = 1 ∧ ∃ s₁, (s₁ = ({ s with table := Function.update s.table token.pos b } :
            TimerHash B α β)) ∧ s' = ((if token.pos = s.earliestPosition then s₁.findNewEarliest
              else s₁).addToken id).decrementSize) ∨
          (r ≠ 1 ∧ s' = { s with table := Function.update s.table token.pos b })) := by
  rw [cancel] at h
  split_ifs at h with hid
  · cases h
    exact Or.inl ⟨hid, rfl⟩
  · right
    split at h
    · cases h
    · rename_i token ht
      split at h
      · cases h
      · rename_i result b hb
        dsimp only at h
        split_ifs at h with hr hpos
        · cases h
          exact ⟨token, b, ht, hb, Or.inl ⟨hr, _, rfl, by rw [if_pos hpos]⟩⟩
        · cases h
          exact ⟨token, b, ht, hb, Or.inl ⟨hr, _, rfl, by rw [if_neg hpos]⟩⟩
        · cases h
          exact ⟨token, b, ht, hb, Or.inr ⟨hr, rfl⟩⟩

/-! ### Expiry -/

/-- `remove_first`. -/
def removeFirst (s : TimerHash B α β) : Option (TimerNode α ℤ × TimerHash B α β) :=
  if s.isEmpty then none
  else
    match TimerQueue.removeFirst (s.table s.earliestPosition) with
    | none => none
    | some (n, b) =>
      let s' := { s with table := Function.update s.table s.earliestPosition b }
      some (n, s'.findNewEarliest.decrementSize)

/-- **What `remove_first` does.** -/
theorem removeFirst_eq_some {s s' : TimerHash B α β} {n : TimerNode α ℤ}
    (h : s.removeFirst = some (n, s')) : s.isEmpty = false ∧
      ∃ b, TimerQueue.removeFirst (s.table s.earliestPosition) = some (n, b) ∧
        s' = (findNewEarliest
          { s with table := Function.update s.table s.earliestPosition b }).decrementSize := by
  rw [removeFirst] at h
  split_ifs at h with hempty
  split at h
  · cases h
  · rename_i m b hb
    cases h
    exact ⟨Bool.not_eq_true _ ▸ hempty, b, hb, rfl⟩

/-- `free_node`. -/
def freeNode (node : TimerNode α ℤ) (s : TimerHash B α β) : TimerHash B α β :=
  s.addToken node.act

/-- The virtual functions of a hash table. -/
instance : TimerQueue (TimerHash B α β) α ℤ where
  isEmpty := isEmpty
  earliestTime := earliestTime
  removeFirst := removeFirst
  reschedule := reschedule
  freeNode node s := some (s.freeNode node)

/-- `dispatch_info_i`: that of the base class, with the `act` of the user. -/
def dispatchInfoI (curTime : TimeValue) (s : TimerHash B α β) :
    Option (Option (DispatchInfo α β) × TimerHash B α β) :=
  match AceTao.dispatchInfoI curTime s with
  | none => none
  | some (none, s') => some (none, s')
  | some (some info, s') =>
    (s'.tokens info.act).map fun h => (some ⟨info.type, h.act, info.recurringTimer⟩, s')

/-- `expire_single` at a time, without the upcalls. -/
def expireSingle (curTime : TimeValue) (s : TimerHash B α β) :
    Option (Option (DispatchInfo α β) × TimerHash B α β) :=
  if s.isEmpty then some (none, s) else s.dispatchInfoI curTime

/-- The body of the loop of `expire`, at the bucket `i`. -/
def expireOne (curTime : TimeValue) (i : ℕ) (s : TimerHash B α β) :
    Option (DispatchInfo α β × TimerHash B α β) :=
  match TimerQueue.removeFirst (s.table i) with
  | none => none
  | some (expired, b) =>
    match s.tokens expired.act with
    | none => none
    | some h =>
      if h.pos ≠ i then none
      else
        let s' : TimerHash B α β := { s with table := Function.update s.table i b }
        let next :=
          if zero < expired.interval then
            (recomputeNextAbsIntervalTime expired curTime).bind s'.reschedule
          else some (s'.freeNode expired).decrementSize
        match next with
        | none => none
        | some s'' => (s''.tokens expired.act).map fun h' =>
          (⟨expired.type, h'.act, decide (zero < expired.interval)⟩, s'')

/-- **What the body of the loop does.** -/
theorem expireOne_eq_some {curTime : TimeValue} {i : ℕ} {s s' : TimerHash B α β}
    {info : DispatchInfo α β} (h : s.expireOne curTime i = some (info, s')) :
    ∃ n b, TimerQueue.removeFirst (s.table i) = some (n, b) ∧
      ((Recurring n ∧ ∃ next, recomputeNextAbsIntervalTime n curTime = some next ∧
          reschedule next ({ s with table := Function.update s.table i b }) = some s') ∨
        (¬Recurring n ∧ s' = (freeNode n
          { s with table := Function.update s.table i b }).decrementSize)) := by
  rw [expireOne] at h
  split at h
  · cases h
  · rename_i n b hb
    refine ⟨n, b, hb, ?_⟩
    split at h
    · cases h
    · rename_i token ht
      by_cases hpos : token.pos ≠ i
      · cases (if_pos hpos).symm.trans h
      replace h := (if_neg hpos).symm.trans h
      dsimp only at h
      split at h
      · cases h
      · rename_i s₁ hs₁
        obtain ⟨token', -, heq⟩ := Option.map_eq_some_iff.mp h
        obtain rfl : s₁ = s' := (Prod.mk.inj heq).2
        split_ifs at hs₁ with hrec
        · obtain ⟨next, hnext, hres⟩ := Option.bind_eq_some_iff.mp hs₁
          exact Or.inl ⟨hrec, next, hnext, hres⟩
        · exact Or.inr ⟨hrec, (Option.some.inj hs₁).symm⟩

/-- The loop of `expire` over the bucket `i`, with at most `fuel` evaluations of its
condition. -/
def expireBucket (curTime : TimeValue) (i : ℕ) :
    ℕ → TimerHash B α β → Option (List (DispatchInfo α β) × TimerHash B α β)
  | 0, _ => none
  | fuel + 1, s =>
    if TimerQueue.isEmpty (s.table i) ∨ ¬TimerQueue.earliestTime (s.table i) ≤ curTime then
      some ([], s)
    else
      match s.expireOne curTime i with
      | none => none
      | some (info, s') =>
        match expireBucket curTime i fuel s' with
        | none => none
        | some (infos, t) => some (info :: infos, t)

/-- The loop of `expire` over the buckets. -/
def expireTable (fuel : ℕ) (curTime : TimeValue) :
    List ℕ → TimerHash B α β → Option (List (DispatchInfo α β) × TimerHash B α β)
  | [], s => some ([], s)
  | i :: is, s =>
    match s.expireBucket curTime i fuel with
    | none => none
    | some (infos, s') =>
      match expireTable fuel curTime is s' with
      | none => none
      | some (infos', t) => some (infos ++ infos', t)

/-- **`expire (cur_time)`**: the upcalls it makes, whose number it returns. -/
def expire (fuel : ℕ) (curTime : TimeValue) (s : TimerHash B α β) :
    Option (List (DispatchInfo α β) × TimerHash B α β) :=
  match s.expireTable fuel curTime (List.range s.tableSize) with
  | none => none
  | some (infos, s') => some (infos, if 0 < infos.length then s'.findNewEarliest else s')

/-! ### Runs -/

/-- A call of a member function. A node that `remove_first` has taken out is in the hands of
the caller, who may set its time and `reschedule` it, or free it. -/
inductive Call (α β : Type)
  | schedule (type : α) (act : β) (futureTime interval : TimeValue)
  | cancel (timerId : ℤ)
  | cancelType (type : α)
  | expire (fuel : ℕ) (curTime : TimeValue)
  | expireSingle (curTime : TimeValue)
  | removeFirst
  | reschedule (k : ℕ) (time : TimeValue)
  | freeNode (k : ℕ)

/-- A table, and the nodes in the hands of the caller. -/
structure State (B α β : Type) where
  queue : TimerHash B α β
  held : List (TimerNode α ℤ)

/-- **One call**, and its result. -/
def step [DecidableEq α] (s : State B α β) : Call α β → Option (State B α β × ℤ)
  | .schedule type act futureTime interval =>
    (s.queue.scheduleI type act futureTime interval).map fun p => (⟨p.2, s.held⟩, p.1)
  | .cancel timerId => (s.queue.cancel timerId).map fun p => (⟨p.2.2, s.held⟩, p.1)
  | .cancelType type => (s.queue.cancelType type).map fun p => (⟨p.2, s.held⟩, p.1)
  | .expire fuel curTime =>
    (s.queue.expire fuel curTime).map fun p => (⟨p.2, s.held⟩, (p.1.length : ℤ))
  | .expireSingle curTime =>
    (s.queue.expireSingle curTime).map fun p => (⟨p.2, s.held⟩, if p.1.isSome then 1 else 0)
  | .removeFirst =>
    match s.queue.removeFirst with
    | none => some (s, 0)
    | some p => some (⟨p.2, p.1 :: s.held⟩, 1)
  | .reschedule k time =>
    match s.held[k]? with
    | none => none
    | some n =>
      (s.queue.reschedule (n.setTimerValue time)).map fun q => (⟨q, s.held.eraseIdx k⟩, 0)
  | .freeNode k =>
    match s.held[k]? with
    | none => none
    | some n => some (⟨s.queue.freeNode n, s.held.eraseIdx k⟩, 0)

end TimerHash

end AceTao
