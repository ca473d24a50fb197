import AceTao.RMCast.AcknowledgeSpec

/-!
# Ordered delivery exactly once

For each sender, the messages that are handed up are numbered one after the other from the number of
the first message that arrived. They are messages that arrived, whatever can be handed up has been,
and nothing else that arrives makes a difference (`OrderedDelivery`).

This is so of exactly the runs whose steps end (`orderedDelivery_iff`). A step does not end when the
first message of a sender had the number 0 and the next ones leave its queue empty, or when no number
fits in a negative acknowledgement (`Ends`).
-/

namespace AceTao.RMCast.Acknowledge

open ReorderBuffer Queue Machine

/-- A message of the sender that is put in order. -/
def fromSender (b : Address) (m : Message) : Bool := sequenced m && decide (m.findFrom = some b)

/-- The messages of a sender that arrive, in their order. -/
def received (b : Address) : List Event → List Message
  | [] => []
  | .recv m :: events => if fromSender b m then m :: received b events else received b events
  | .track _ :: events => received b events

/-- The messages of a sender that are handed up, in their order. -/
def delivered (b : Address) (passed : List Passed) : List Message :=
  (passed.flatMap Passed.up).filter (fromSender b)

/-- **What is handed up for a sender**: the first message that arrives, and then messages that arrive,
numbered one after the other. A message whose predecessors have been handed up has been, too. -/
structure InOrder (arrived handedUp : List Message) : Prop where
  head : handedUp.head? = arrived.head?
  numbers : ∀ first, arrived.head? = some first →
    handedUp.map number = List.range' (number first) handedUp.length
  subset : ∀ m ∈ handedUp, m ∈ arrived
  complete : ∀ first, arrived.head? = some first → ∀ m ∈ arrived, number first ≤ number m →
    (∀ k, number first ≤ k → k < number m → k ∈ handedUp.map number) →
    number m ∈ handedUp.map number

/-- **Ordered delivery exactly once**: all steps of the run end, what is handed up for a sender is in
order, and it is the same in all runs in which the same messages of this sender arrive. -/
def OrderedDelivery (p : Parameters) (events : List Event) : Prop :=
  ∃ hold passed, run (step p) init events = some (hold, passed) ∧ ∀ b,
    InOrder (received b events) (delivered b passed) ∧
    ∀ events' hold' passed', run (step p) init events' = some (hold', passed') →
      received b events' = received b events → delivered b passed' = delivered b passed

/-- **When a step ends.** A message that is put in order has its sender and its number. If it is the
next one of its sender, then something stays behind it in the queue, or the last number handed up was
not 0. A queue that is tracked is empty, or a number fits in a negative acknowledgement. -/
def Ends (p : Parameters) (hold : Hold) : Event → Prop
  | .recv m => sequenced m → ∃ source sn, m.findFrom = some source ∧ m.findSn = some sn ∧
      ∀ q, recvNrtm hold m source = some q → KnownEnds q sn m
  | .track address => ∀ q, hold address = some q → q.entries = [] ∨ NakFits p

/-! ### The reorder buffers of the senders -/

/-- The buffers of the senders that are known. -/
abbrev Windows := Address → Option (Window Message)

/-- The buffer of a sender whose first message is `m`. -/
def firstWindow (m : Message) : Window Message := ⟨number m + 1, fun _ => none⟩

/-- **What an event does to the buffers**, and what is handed up. -/
inductive Delivers : Windows → Event → Passed → Windows → Prop
  | first {ws : Windows} {m : Message} {source : Address} {o : Passed} (hm : fromSender source m)
    (hw : ws source = none) (ho : o.up = [m]) :
    Delivers ws (.recv m) o (Function.update ws source (some (firstWindow m)))
  | next {ws : Windows} {m : Message} {source : Address} {o : Passed} {w w' : Window Message}
    (hm : fromSender source m) (hw : ws source = some w) (h : Receives number w m o.up w') :
    Delivers ws (.recv m) o (Function.update ws source (some w'))
  | other {ws : Windows} {m : Message} {o : Passed} (hm : ¬sequenced m) (ho : o.up = [m]) :
    Delivers ws (.recv m) o ws
  | track {ws : Windows} {address : Address} {o : Passed} (ho : o.up = []) :
    Delivers ws (.track address) o ws

section

variable {p : Parameters} {hold hold' : Hold} {event : Event} {b : Address}

/-- The invariant of all queues. -/
def Inv (hold : Hold) : Prop := ∀ b q, hold b = some q → q.Inv

def windows (hold : Hold) : Windows := fun b => (hold b).map Queue.window

/-! ### One step -/

theorem Inv.update {q : Queue} (h : Inv hold) (hq : q.Inv) (b : Address) :
    Inv (Function.update hold b (some q)) := by
  intro b' q' hq'
  rcases eq_or_ne b' b with rfl | hne
  · rw [Function.update_self] at hq'
    exact Option.some.inj hq' ▸ hq
  · rw [Function.update_of_ne hne] at hq'
    exact h b' q' hq'

theorem windows_update (q : Queue) (b : Address) :
    windows (Function.update hold b (some q)) = Function.update (windows hold) b (some q.window) := by
  funext b'
  rcases eq_or_ne b' b with rfl | hne
  · rw [windows, Function.update_self, Function.update_self, Option.map_some]
  · rw [windows, Function.update_of_ne hne, Function.update_of_ne hne, windows]

theorem recvNrtm_spec (h : Inv hold) (m : Message) :
    Inv (recvNrtm hold m) ∧ windows (recvNrtm hold m) = windows hold := by
  rw [recvNrtm]
  cases m.findNrtm with
  | none => exact ⟨h, rfl⟩
  | some map =>
    constructor
    · intro b q hq
      obtain ⟨q₀, hq₀, rfl⟩ := Option.map_eq_some_iff.mp hq
      exact ((h b q₀ hq₀).notice _).1
    · funext b
      rw [windows, windows, Option.map_map]
      cases hq : hold b with
      | none => rfl
      | some q => exact congrArg some ((h b q hq).notice _).2

theorem fromSender_iff {m : Message} : fromSender b m ↔ sequenced m ∧ m.findFrom = some b := by
  rw [fromSender, Bool.and_eq_true, decide_eq_true_eq]

/-- **A message arrives**, and the step ends. -/
theorem recv_spec (h : Inv hold) {m : Message} (hends : Ends p hold (.recv m)) :
    ∃ hold' up, recv hold m = some (hold', up) ∧ Inv hold' ∧
      ∀ down, Delivers (windows hold) (.recv m) ⟨up, down⟩ (windows hold') := by
  obtain ⟨hinv, hwindows⟩ := recvNrtm_spec h m
  rw [recv, ← hwindows]
  by_cases hm : sequenced m
  · obtain ⟨source, sn, hfrom, hsn, hknown⟩ := hends hm
    have hsender := fromSender_iff.mpr ⟨hm, hfrom⟩
    simp only [if_pos hm, hfrom, hsn]
    cases hq : recvNrtm hold m source with
    | none =>
      refine ⟨_, _, rfl, hinv.update (inv_new sn) source, fun down => ?_⟩
      have hfirst : (Queue.new sn).window = firstWindow m := by
        rw [window_new, firstWindow, number, hsn]
      rw [windows_update, hfirst]
      exact .first hsender (by rw [windows, hq]; rfl) rfl
    | some q =>
      obtain ⟨q', up, hrecv, hinv', hreceives⟩ :=
        recvKnown_spec (hinv source q hq) hsn (hknown q hq)
      simp only [hrecv]
      refine ⟨_, _, rfl, hinv.update hinv' source, fun down => ?_⟩
      rw [windows_update]
      exact .next hsender (by rw [windows, hq]; rfl) hreceives
  · rw [if_neg hm]
    exact ⟨_, _, rfl, hinv, fun down => .other hm rfl⟩

/-- **A step that ends.** -/
theorem step_spec (h : Inv hold) (hends : Ends p hold event) :
    ∃ hold' o, step p hold event = some (hold', o) ∧ Inv hold' ∧
      Delivers (windows hold) event o (windows hold') := by
  cases event with
  | recv m =>
    obtain ⟨hold', up, hrecv, hinv, hdelivers⟩ := recv_spec h hends
    exact ⟨hold', ⟨up, []⟩, by rw [step, hrecv], hinv, hdelivers []⟩
  | track address =>
    rw [step]
    cases hq : hold address with
    | none => exact ⟨_, _, rfl, h, .track rfl⟩
    | some q =>
      by_cases hnil : q.entries = []
      · simp only [if_pos hnil]
        exact ⟨_, _, rfl, h, .track rfl⟩
      · obtain ⟨q', down, htrack, hinv, hwindow⟩ := trackQueue_spec p
          ((hends q hq).resolve_left hnil) address (h address q hq) hnil
        simp only [if_neg hnil, htrack]
        refine ⟨_, _, rfl, h.update hinv address, ?_⟩
        have hsame : windows (Function.update hold address (some q')) = windows hold := by
          rw [windows_update, hwindow]
          exact Function.update_eq_self_iff.mpr (by rw [windows, hq]; rfl)
        rw [hsame]
        exact .track rfl

/-- **The other steps do not end.** -/
theorem step_eq_none (h : Inv hold) (hends : ¬Ends p hold event) : step p hold event = none := by
  cases event with
  | recv m =>
    obtain ⟨hm, hnot⟩ := Classical.not_imp.mp hends
    suffices hrecv : recv hold m = none by rw [step, hrecv]
    rw [recv]
    simp only [if_pos hm]
    cases hfrom : m.findFrom with
    | none => rfl
    | some source =>
      cases hsn : m.findSn with
      | none => rfl
      | some sn =>
        have hbad : ¬∀ q, recvNrtm hold m source = some q → KnownEnds q sn m :=
          fun hknown => hnot ⟨source, sn, hfrom, hsn, hknown⟩
        obtain ⟨q, hq⟩ := not_forall.mp hbad
        obtain ⟨hq, hbad⟩ := Classical.not_imp.mp hq
        simp only [hq, recvKnown_eq_none ((recvNrtm_spec h m).1 source q hq) hbad]
  | track address =>
    obtain ⟨q, hq⟩ := not_forall.mp hends
    obtain ⟨hq, hbad⟩ := Classical.not_imp.mp hq
    rw [not_or] at hbad
    rw [step, hq]
    simp only [if_neg hbad.1, trackQueue_eq_none hbad.2 address hbad.1]

/-! ### Runs -/

theorem inv_init : Inv init := nofun

/-- **A run whose steps end.** -/
theorem run_spec {events : List Event} (hends : Guarded (step p) (Ends p) init events) :
    ∃ hold passed ws, run (step p) init events = some (hold, passed) ∧
      Steps Delivers (windows init) events passed ws := by
  obtain ⟨hold, passed, ws, hrun, hsteps, -⟩ :=
    run_refines (P := fun hold ws => Inv hold ∧ windows hold = ws) (R := Delivers)
      (fun hold ws event ⟨h, hws⟩ hends => by
        obtain ⟨hold', o, hstep, hinv, hdelivers⟩ := step_spec h hends
        exact ⟨hold', o, _, hstep, hws ▸ hdelivers, hinv, rfl⟩) ⟨inv_init, rfl⟩ hends
  exact ⟨hold, passed, ws, hrun, hsteps⟩

/-- All steps of a run that is completed end. -/
theorem guarded_of_run {events : List Event} {passed : List Passed} (h : Inv hold)
    (hrun : run (step p) hold events = some (hold', passed)) :
    Guarded (step p) (Ends p) hold events := by
  induction events generalizing hold passed with
  | nil => trivial
  | cons event events ih =>
    obtain ⟨hold₁, o, os, hstep, hrest, -⟩ := run_cons_eq_some.mp hrun
    have hends : Ends p hold event := by
      by_contra hends
      rw [step_eq_none h hends] at hstep
      cases hstep
    obtain ⟨hold₂, o₂, hstep₂, hinv, -⟩ := step_spec h hends
    cases hstep.symm.trans hstep₂
    refine ⟨hends, fun hold₃ o₃ hstep₃ => ?_⟩
    cases hstep.symm.trans hstep₃
    exact ih hinv hrest

end

/-! ### One sender -/

/-- The buffer of a sender holds only its own messages. -/
def Owned (ws : Windows) : Prop :=
  ∀ b w n m, ws b = some w → w.held n = some m → fromSender b m

section

variable {ws ws' : Windows} {event : Event} {o : Passed} {b : Address} {w w' : Window Message}
  {events : List Event} {passed : List Passed} {first : Message} {rest : List Message}
  {outs : List (List Message)}

theorem received_cons (b : Address) (event : Event) (events : List Event) :
    received b (event :: events) = received b [event] ++ received b events := by
  cases event with
  | recv m =>
    rw [received, received]
    split_ifs <;> rfl
  | track address => rfl

theorem delivered_cons (b : Address) (o : Passed) (os : List Passed) :
    delivered b (o :: os) = delivered b [o] ++ delivered b os := by
  rw [delivered, delivered, delivered, ← List.filter_append, ← List.flatMap_append]
  rfl

theorem delivered_singleton (b : Address) (o : Passed) :
    delivered b [o] = o.up.filter (fromSender b) := by
  rw [delivered, List.flatMap_singleton]

/-- A message comes from one sender. -/
theorem fromSender_unique {m : Message} {source : Address} (h : fromSender source m)
    (hb : fromSender b m) : b = source := by
  have hsource := (fromSender_iff.mp h).2
  rw [(fromSender_iff.mp hb).2] at hsource
  exact Option.some.inj hsource

theorem Owned.update (h : Owned ws) (b : Address)
    (hw : ∀ n m, w.held n = some m → fromSender b m) : Owned (Function.update ws b (some w)) := by
  intro b' w' n m hb' hm
  rcases eq_or_ne b' b with rfl | hne
  · rw [Function.update_self] at hb'
    exact hw n m (Option.some.inj hb' ▸ hm)
  · rw [Function.update_of_ne hne] at hb'
    exact h b' w' n m hb' hm

theorem Delivers.owned (h : Delivers ws event o ws') (howned : Owned ws) : Owned ws' := by
  cases h with
  | first => exact howned.update _ nofun
  | next hm hw h =>
    refine howned.update _ fun n m' hm' => ?_
    rcases h.held hm' with rfl | hheld
    · exact hm
    · exact howned _ _ n m' hw hheld
  | other => exact howned
  | track => exact howned

/-- What is handed up belongs to the sender of the message that arrived. -/
theorem up_owned {m : Message} {source : Address} (howned : Owned ws) (hm : fromSender source m)
    (hw : ws source = some w) (h : Receives number w m o.up w') :
    delivered b [o] = if b = source then o.up else [] := by
  have hall : ∀ y ∈ o.up, fromSender source y := by
    intro y hy
    rcases h.mem hy with rfl | ⟨n, hn⟩
    · exact hm
    · exact howned source w n y hw hn
  rw [delivered_singleton]
  split_ifs with hb
  · exact List.filter_eq_self.mpr (hb ▸ hall)
  · exact List.filter_eq_nil_iff.mpr fun y hy hy' => hb (fromSender_unique (hall y hy) hy')

/-- **An event**, for a sender that is known: nothing, or its buffer receives a message. -/
theorem Delivers.known (h : Delivers ws event o ws') (howned : Owned ws) (hw : ws b = some w) :
    received b [event] = [] ∧ delivered b [o] = [] ∧ ws' b = some w ∨
      ∃ m w', received b [event] = [m] ∧ Receives number w m (delivered b [o]) w' ∧
        ws' b = some w' := by
  cases h with
  | @first m source _ hm hnone ho =>
    have hb : b ≠ source := by
      rintro rfl
      rw [hnone] at hw
      cases hw
    have hnot : ¬fromSender b m := fun h => hb (fromSender_unique hm h)
    refine Or.inl ⟨by rw [received, if_neg hnot, received], ?_, ?_⟩
    · rw [delivered_singleton, ho, List.filter_cons_of_neg hnot, List.filter_nil]
    · rw [Function.update_of_ne hb, hw]
  | @next m source _ w₁ w₁' hm hw₁ h =>
    have hup := up_owned (b := b) howned hm hw₁ h
    by_cases hb : b = source
    · subst hb
      cases hw.symm.trans hw₁
      rw [if_pos rfl] at hup
      exact Or.inr ⟨m, w₁', by rw [received, if_pos hm, received], hup ▸ h,
        Function.update_self ..⟩
    · have hnot : ¬fromSender b m := fun h => hb (fromSender_unique hm h)
      rw [if_neg hb] at hup
      exact Or.inl ⟨by rw [received, if_neg hnot, received], hup, by
        rw [Function.update_of_ne hb, hw]⟩
  | @other m _ hm ho =>
    have hnot : ¬fromSender b m := fun h => hm (fromSender_iff.mp h).1
    refine Or.inl ⟨by rw [received, if_neg hnot, received], ?_, hw⟩
    rw [delivered_singleton, ho, List.filter_cons_of_neg hnot, List.filter_nil]
  | track ho => exact Or.inl ⟨rfl, by rw [delivered_singleton, ho, List.filter_nil], hw⟩

/-- **An event**, for a sender that is not known: nothing, or its first message. -/
theorem Delivers.unknown (h : Delivers ws event o ws') (howned : Owned ws) (hw : ws b = none) :
    received b [event] = [] ∧ delivered b [o] = [] ∧ ws' b = none ∨
      ∃ m, received b [event] = [m] ∧ delivered b [o] = [m] ∧ ws' b = some (firstWindow m) := by
  cases h with
  | @first m source _ hm hnone ho =>
    by_cases hb : b = source
    · subst hb
      refine Or.inr ⟨m, by rw [received, if_pos hm, received], ?_, Function.update_self ..⟩
      rw [delivered_singleton, ho, List.filter_cons_of_pos hm, List.filter_nil]
    · have hnot : ¬fromSender b m := fun h => hb (fromSender_unique hm h)
      refine Or.inl ⟨by rw [received, if_neg hnot, received], ?_, ?_⟩
      · rw [delivered_singleton, ho, List.filter_cons_of_neg hnot, List.filter_nil]
      · rw [Function.update_of_ne hb, hw]
  | @next m source _ w₁ w₁' hm hw₁ h =>
    have hup := up_owned (b := b) howned hm hw₁ h
    have hb : b ≠ source := by
      rintro rfl
      rw [hw₁] at hw
      cases hw
    have hnot : ¬fromSender b m := fun h => hb (fromSender_unique hm h)
    rw [if_neg hb] at hup
    exact Or.inl ⟨by rw [received, if_neg hnot, received], hup, by
      rw [Function.update_of_ne hb, hw]⟩
  | @other m _ hm ho =>
    have hnot : ¬fromSender b m := fun h => hm (fromSender_iff.mp h).1
    refine Or.inl ⟨by rw [received, if_neg hnot, received], ?_, hw⟩
    rw [delivered_singleton, ho, List.filter_cons_of_neg hnot, List.filter_nil]
  | track ho => exact Or.inl ⟨rfl, by rw [delivered_singleton, ho, List.filter_nil], hw⟩

/-- **A run**, for a sender that is known: its buffer receives its messages. -/
theorem delivered_known (h : Steps Delivers ws events passed ws') (howned : Owned ws)
    (hw : ws b = some w) :
    ∃ outs w', Steps (Receives number) w (received b events) outs w' ∧
      delivered b passed = outs.flatten := by
  induction h generalizing w with
  | nil => exact ⟨[], w, .nil w, rfl⟩
  | @cons _ _ _ event o events passed h _ ih =>
    rw [received_cons, delivered_cons]
    rcases h.known howned hw with ⟨hr, hd, hw'⟩ | ⟨m, w', hr, hreceives, hw'⟩
    · rw [hr, hd]
      exact ih (h.owned howned) hw'
    · obtain ⟨outs, w'', hsteps, hflat⟩ := ih (h.owned howned) hw'
      refine ⟨delivered b [o] :: outs, w'', ?_, by rw [hflat, List.flatten_cons]⟩
      rw [hr]
      exact .cons hreceives hsteps

/-- **A run**, for a sender that is not known: nothing, or its first message is handed up, and its
buffer receives the others. -/
theorem delivered_unknown (h : Steps Delivers ws events passed ws') (howned : Owned ws)
    (hw : ws b = none) :
    received b events = [] ∧ delivered b passed = [] ∨
      ∃ first rest outs w', received b events = first :: rest ∧
        Steps (Receives number) (firstWindow first) rest outs w' ∧
        delivered b passed = first :: outs.flatten := by
  induction h with
  | nil => exact Or.inl ⟨rfl, rfl⟩
  | @cons _ _ _ event o events passed h hs ih =>
    rw [received_cons, delivered_cons]
    rcases h.unknown howned hw with ⟨hr, hd, hw'⟩ | ⟨m, hr, hd, hw'⟩
    · rw [hr, hd]
      exact ih (h.owned howned) hw'
    · obtain ⟨outs, w', hsteps, hflat⟩ := delivered_known hs (h.owned howned) hw'
      rw [hr, hd, hflat]
      exact Or.inr ⟨m, _, outs, w', rfl, hsteps, rfl⟩

theorem valid_firstWindow (m : Message) : (firstWindow m).Valid number := ⟨nofun, rfl⟩

/-- **What is handed up is in order.** -/
theorem inOrder_of_steps (h : Steps (Receives number) (firstWindow first) rest outs w') :
    InOrder (first :: rest) (first :: outs.flatten) := by
  have hvalid := valid_firstWindow first
  obtain ⟨hnumbers, hnext⟩ := ReorderBuffer.Steps.released_numbers h hvalid
  have hrange : (first :: outs.flatten).map number =
      List.range' (number first) (first :: outs.flatten).length := by
    rw [List.map_cons, hnumbers, List.length_cons, List.range'_succ]
    rfl
  refine ⟨rfl, fun _ hfirst => ?_, fun m hm => ?_, fun _ hfirst m hm hle hbefore => ?_⟩
  · cases hfirst
    exact hrange
  · rcases List.mem_cons.mp hm with rfl | hm
    · exact List.mem_cons_self ..
    · rcases ReorderBuffer.Steps.mem_released h hm with hm | ⟨n, hn⟩
      · exact List.mem_cons_of_mem _ hm
      · cases hn
  · cases hfirst
    have hnext' : w'.next = number first + (first :: outs.flatten).length := by
      rw [hnext, List.length_cons]
      show number first + 1 + outs.flatten.length = _
      omega
    rw [hrange] at hbefore ⊢
    rcases Nat.lt_trichotomy (number m) w'.next with hlt | heq | hgt
    · exact List.mem_range'_1.mpr ⟨hle, by omega⟩
    · rcases List.mem_cons.mp hm with rfl | hm
      · exact List.mem_range'_1.mpr ⟨hle, by simp⟩
      · exact absurd heq (ReorderBuffer.Steps.next_not_received h hvalid m hm)
    · have := List.mem_range'_1.mp (hbefore w'.next (by omega) hgt)
      omega

theorem inOrder_nil : InOrder [] [] := ⟨rfl, nofun, nofun, nofun⟩

end

theorem owned_init : Owned (windows init) := nofun

/-- **Ordered delivery exactly once, of exactly the runs whose steps end.** -/
theorem orderedDelivery_iff (p : Parameters) (events : List Event) :
    OrderedDelivery p events ↔ Guarded (step p) (Ends p) init events := by
  refine ⟨fun ⟨_, _, hrun, _⟩ => guarded_of_run inv_init hrun, fun hends => ?_⟩
  obtain ⟨hold, passed, ws, hrun, hsteps⟩ := run_spec hends
  refine ⟨hold, passed, hrun, fun b => ?_⟩
  rcases delivered_unknown hsteps owned_init (b := b) rfl with
    ⟨hr, hd⟩ | ⟨first, rest, outs, w', hr, hreceives, hd⟩
  · refine ⟨hr ▸ hd ▸ inOrder_nil, fun events' hold' passed' hrun' hsame => ?_⟩
    obtain ⟨_, _, ws', hrun'', hsteps'⟩ := run_spec (guarded_of_run inv_init hrun')
    cases hrun'.symm.trans hrun''
    rcases delivered_unknown hsteps' owned_init (b := b) rfl with ⟨-, hd'⟩ | ⟨_, _, _, _, hr', -⟩
    · rw [hd', hd]
    · rw [hr', hr] at hsame
      cases hsame
  · refine ⟨by rw [hr, hd]; exact inOrder_of_steps hreceives,
      fun events' hold' passed' hrun' hsame => ?_⟩
    obtain ⟨_, _, ws', hrun'', hsteps'⟩ := run_spec (guarded_of_run inv_init hrun')
    cases hrun'.symm.trans hrun''
    rcases delivered_unknown hsteps' owned_init (b := b) rfl with
      ⟨hr', -⟩ | ⟨first', rest', outs', w'', hr', hreceives', hd'⟩
    · rw [hr', hr] at hsame
      cases hsame
    · rw [hr', hr] at hsame
      cases hsame
      obtain ⟨rfl, rfl⟩ := ReorderBuffer.Steps.released_unique hreceives' hreceives
      rw [hd', hd]

/-- A message with a serial number. -/
def dataMessage (b : Address) (sn : U64) : Message :=
  ((Message.empty.add (.fromAddress b)).add (.sn sn)).add (.data (.new [] 0))

/-- **After a first message with the number 0**, the step for the next one does not end. -/
theorem not_orderedDelivery_zero :
    ¬OrderedDelivery ⟨1470, 1⟩
      [.recv (dataMessage ⟨10000, 1⟩ 0), .recv (dataMessage ⟨10000, 1⟩ 1)] := by
  rw [orderedDelivery_iff]
  intro hends
  obtain ⟨source, sn, hfrom, hsn, hknown⟩ := (hends.2 _ _ rfl).1 rfl
  cases hfrom
  cases hsn
  rcases hknown (.new 0) rfl rfl with hne | ⟨e, he, hlost | hfar⟩
  · exact hne rfl
  · cases List.mem_singleton.mp he
    cases hlost
  · cases List.mem_singleton.mp he
    exact absurd hfar (by decide)

end AceTao.RMCast.Acknowledge
