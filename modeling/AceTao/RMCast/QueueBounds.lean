import AceTao.RMCast.OrderedDelivery

/-!
# The bounds of the loss queue

Between two calls, the numbers in the queue of a sender lie behind `sn_`, up to `max_sn ()`, which is
the largest of them (`Queue.Bounded`). After the tracking thread has passed, each number before the
largest has an entry (`Queue.Detected`). The search for a new maximum needs no more tests than there
are numbers from `sn_` to the old one: with only that many the answer is the same
(`Queue.unbindShort`).

All of it is required of each call that an event makes (`Acknowledge.Right`), and all of it holds for
exactly the runs in which no search runs past 0 (`Acknowledge.guarded_right_iff_searchEnds`).
-/

namespace AceTao.RMCast

open ReorderBuffer Machine

namespace Queue

variable {q q' q₁ q₂ : Queue} {sn sn₁ last : U64} {d : Descr} {m : Message} {n : ℕ}

/-- **The bounds of a queue.** -/
structure Bounded (q : Queue) : Prop where
  between : ∀ e ∈ q.entries, q.sn < e.1 ∧ e.1 ≤ q.largest
  largest_mem : q.entries ≠ [] → ∃ e ∈ q.entries, e.1 = q.largest
  largest_nil : q.entries = [] → q.largest = q.sn

/-- **No loss is missed**: each number before the largest has an entry. -/
def Detected (q : Queue) : Prop := ∀ n, q.sn < n → n < q.largest → (q.find n).isSome

/-- `unbind` with at most `max_sn_ - sn_ + 1` tests in its search. -/
def unbindShort (q : Queue) (sn : U64) : Option Queue :=
  if (q.find sn).isSome then
    let rest := { q with entries := q.entries.filter fun e => e.1 ≠ sn }
    if sn = q.maxSn then
      match rest.searchMax (q.maxSn.toNat - q.sn.toNat + 1) (q.maxSn - 1) with
      | none => none
      | some n => some { rest with maxSn := n }
    else some rest
  else some q

/-- The queues and numbers that the loop of `collapse` comes to. -/
inductive Collapsing (q : Queue) (sn : U64) : Queue → U64 → Prop
  | start : Collapsing q sn q sn
  | next {q₁ q₂ : Queue} {sn₁ : U64} {m : Message} (h : Collapsing q sn q₁ sn₁)
    (hf : q₁.find sn₁ = some (.msg m)) (hu : q₁.unbind sn₁ = some q₂) :
    Collapsing q sn q₂ (sn₁ + 1)

/-- **What the loop of `collapse` comes to**: queues in their bounds, and calls of `unbind` whose
search ends in time. -/
def CollapsesRight (q : Queue) (sn : U64) : Prop :=
  ∀ q₁ sn₁, Collapsing q sn q₁ sn₁ → q₁.Bounded ∧
    ∀ m, q₁.find sn₁ = some (.msg m) → ∃ q₂, q₁.unbind sn₁ = some q₂ ∧ q₁.unbindShort sn₁ = some q₂

/-! ### Bounds -/

/-- Numbers behind `sn_`, with a maximum that says something of them, are in their bounds. -/
theorem Ready.bounded (h : q.Ready n) (hn : q.sn.toNat < n) : q.Bounded := by
  by_cases hnil : q.entries = []
  · refine ⟨?_, fun hne => absurd hnil hne, fun _ => if_pos hnil⟩
    rw [hnil]
    exact nofun
  · have hlargest : q.largest = q.maxSn := if_neg hnil
    refine ⟨fun e he => ⟨?_, ?_⟩, fun _ => ?_, fun h => absurd h hnil⟩
    · exact BitVec.lt_def.mpr (hn.trans_le (h.le e he))
    · rw [hlargest]
      exact h.le_max e he
    · rw [hlargest]
      obtain ⟨e, he⟩ := List.exists_mem_of_ne_nil _ hnil
      exact h.max_mem ((h.le e he).trans (BitVec.le_def.mp (h.le_max e he)))

theorem Inv.bounded (h : q.Inv) : q.Bounded := h.ready.bounded (Nat.lt_succ_self _)

/-! ### The search -/

/-- **The search of `unbind`** has found its answer after that many tests. -/
theorem unbindShort_eq (h : q.Ready n) (hsn : sn.toNat = n) (hq : q.sn.toNat < n)
    (hf : (q.find sn).isSome)
    (hends : q.sn ≠ 0 ∨ q.entries.filter (fun e => e.1 ≠ sn) ≠ []) :
    q.unbindShort sn = q.unbind sn := by
  rw [unbindShort, unbind, if_pos hf, if_pos hf]
  by_cases hnil : q.entries.filter (fun e => e.1 ≠ sn) = []
  · have hmax := h.max_eq hsn hf hnil
    have hq0 : q.sn ≠ 0 := hends.resolve_right fun hne => hne hnil
    have hpred : (q.maxSn - 1).toNat + 1 = n := by
      rw [hmax, BitVec.toNat_sub_of_le (BitVec.le_def.mpr (by simp; omega))]
      simp
      omega
    have hlt := sn.isLt
    have hsearch (tests : ℕ) (htests : n < q.sn.toNat + tests) :
        searchMax { q with entries := q.entries.filter fun e => e.1 ≠ sn } tests (q.maxSn - 1) =
          some (q.sn - 1) :=
      searchMax_of_nil (q := { q with entries := q.entries.filter fun e => e.1 ≠ sn }) hnil
        hq0 tests (by show q.sn.toNat ≤ _; omega) (by show _ < q.sn.toNat + _; omega)
    have hshort := hsearch (q.maxSn.toNat - q.sn.toNat + 1) (by rw [hmax]; omega)
    have hlong := hsearch (2 ^ 64) (by omega)
    rw [if_pos hmax.symm, if_pos hmax.symm]
    simp only [hshort, hlong]
  · obtain ⟨e, he⟩ := List.exists_mem_of_ne_nil _ hnil
    have hne : sn ≠ q.maxSn := by
      intro heq
      have hle := BitVec.le_def.mp ((h.filter hsn).le_max e he)
      have hge := (h.filter hsn).le e he
      rw [← heq] at hle
      omega
    exact (if_neg hne).trans (if_neg hne).symm

/-- What holds wherever the loop of `collapse` comes to. -/
structure Gathers (q : Queue) (n : ℕ) (sn : U64) : Prop where
  ready : q.Ready n
  behind : q.sn.toNat < n
  sn_eq : sn = BitVec.ofNat 64 n
  ends : q.sn ≠ 0 ∨ q.Blocked n

namespace Gathers

/-- The number of a message that is there. -/
theorem toNat_eq (h : q.Gathers n sn) (hf : q.find sn = some d) : sn.toNat = n := by
  have hle := h.ready.le _ (exists_of_find hf)
  have hlt := sn.isLt
  have hmod : sn.toNat = n % 2 ^ 64 := by rw [h.sn_eq, BitVec.toNat_ofNat]
  rw [Nat.mod_eq_of_lt (by omega)] at hmod
  exact hmod

theorem unbind (h : q.Gathers n sn) (hf : q.find sn = some (.msg m)) :
    ∃ q₂, q.unbind sn = some q₂ ∧ q.unbindShort sn = some q₂ ∧ q₂.Gathers (n + 1) (sn + 1) := by
  have hto := h.toNat_eq hf
  have hsome : (q.find sn).isSome := hf ▸ rfl
  have hblocked (hb : q.Blocked n) :
      Blocked { q with entries := q.entries.filter fun e => e.1 ≠ sn } (n + 1) :=
    hb.filter h.ready hto hf rfl
  have hends := h.ends.imp_right fun hb => (hblocked hb).ne_nil
  obtain ⟨q₂, hunbind, hentries, hqsn, hready⟩ := unbind_spec h.ready hto h.behind hsome hends
  have hbehind := h.behind
  refine ⟨q₂, hunbind, (unbindShort_eq h.ready hto h.behind hsome hends).trans hunbind, hready,
    by rw [hqsn]; omega, ?_, ?_⟩
  · rw [h.sn_eq, BitVec.ofNat_add]
    rfl
  · rw [hqsn]
    exact h.ends.imp_right fun hb => hb.filter h.ready hto hf hentries

/-- **The loop of `collapse`**, one number after the other. -/
theorem collapsesRight (h : q.Gathers n sn) : q.CollapsesRight sn := by
  intro q₁ sn₁ hc
  obtain ⟨n₁, h₁⟩ : ∃ n₁, q₁.Gathers n₁ sn₁ := by
    induction hc with
    | start => exact ⟨n, h⟩
    | next _ hf hu ih =>
      obtain ⟨n₁, h₁⟩ := ih
      obtain ⟨q₂, hunbind, -, h₂⟩ := h₁.unbind hf
      cases hu.symm.trans hunbind
      exact ⟨n₁ + 1, h₂⟩
  refine ⟨h₁.ready.bounded h₁.behind, fun m hf => ?_⟩
  obtain ⟨q₂, hunbind, hshort, -⟩ := h₁.unbind hf
  exact ⟨q₂, hunbind, hshort⟩

end Gathers

/-! ### New losses -/

theorem find_bind_self (q : Queue) (sn : U64) (d : Descr) : ((q.bind sn d).find sn).isSome := by
  rw [bind]
  by_cases hf : (q.find sn).isSome
  · rw [if_pos hf]
    exact hf
  · rw [if_neg hf, find, List.find?_append, Option.isSome_map, Option.isSome_or]
    simp

/-- Nothing is taken out. -/
theorem find_bind (h : (q.find sn₁).isSome) : ((q.bind sn d).find sn₁).isSome := by
  rw [bind]
  by_cases hf : (q.find sn).isSome
  · rw [if_pos hf]
    exact h
  · rw [find, Option.isSome_map] at h
    rw [if_neg hf, find, List.find?_append, Option.isSome_map, Option.isSome_or, h]
    rfl

/-- A number before the largest does not move it. -/
theorem largest_bind (hne : q.entries ≠ []) (hlt : sn < q.largest) :
    (q.bind sn d).entries ≠ [] ∧ (q.bind sn d).largest = q.largest := by
  rw [bind]
  by_cases hf : (q.find sn).isSome
  · rw [if_pos hf]
    exact ⟨hne, rfl⟩
  · have hlargest : q.largest = q.maxSn := if_neg hne
    have hnot : ¬q.maxSn < sn := BitVec.not_lt.mpr (BitVec.le_of_lt (hlargest ▸ hlt))
    have hne' : q.entries ++ [(sn, d)] ≠ [] := List.append_ne_nil_of_left_ne_nil hne _
    rw [if_neg hf, if_neg hnot]
    exact ⟨hne', (if_neg hne').trans hlargest.symm⟩

end Queue

namespace Acknowledge

open Queue

variable {p : Parameters} {q q' : Queue} {sn last : U64} {m : Message} {hold hold' : Hold}
  {event : Event}

theorem find_recordLosses {tests : ℕ} {n : U64} (h : (q.find n).isSome) :
    ((recordLosses last tests sn q).find n).isSome := by
  induction tests generalizing q sn with
  | zero => exact h
  | succ tests ih =>
    rw [recordLosses]
    split_ifs
    · exact ih (find_bind h)
    · exact h

/-- **The loop that records new losses** comes to each number before the last. -/
theorem recordLosses_detects {tests : ℕ} (htests : last.toNat - sn.toNat ≤ tests) {n : U64}
    (hle : sn ≤ n) (hlt : n < last) : ((recordLosses last tests sn q).find n).isSome := by
  induction tests generalizing q sn with
  | zero =>
    have hle' := BitVec.le_def.mp hle
    have hlt' := BitVec.lt_def.mp hlt
    omega
  | succ tests ih =>
    have hle' := BitVec.le_def.mp hle
    have hlt' := BitVec.lt_def.mp hlt
    have hlast := last.isLt
    rw [recordLosses, if_pos (BitVec.lt_def.mpr (by omega))]
    by_cases heq : n = sn
    · subst heq
      exact find_recordLosses (find_bind_self q n .newLoss)
    · have hne : n.toNat ≠ sn.toNat := mt BitVec.eq_of_toNat_eq heq
      have hnext : (sn + 1).toNat = sn.toNat + 1 := by
        rw [BitVec.toNat_add]
        exact Nat.mod_eq_of_lt (show sn.toNat + 1 < 2 ^ 64 by omega)
      exact ih (by omega) (BitVec.le_def.mpr (by omega))

/-- It does not move the largest number. -/
theorem largest_recordLosses (tests : ℕ) (hne : q.entries ≠ []) (hlast : last = q.largest) :
    (recordLosses last tests sn q).largest = q.largest := by
  induction tests generalizing q sn with
  | zero => rfl
  | succ tests ih =>
    rw [recordLosses]
    split_ifs with hlt
    · obtain ⟨hne', hlargest⟩ := largest_bind (d := .newLoss) hne (hlast ▸ hlt)
      exact (ih hne' (hlast.trans hlargest.symm)).trans hlargest
    · rfl

theorem sn_recordLosses (tests : ℕ) : (recordLosses last tests sn q).sn = q.sn := by
  induction tests generalizing q sn with
  | zero => rfl
  | succ tests ih =>
    rw [recordLosses]
    split_ifs
    · rw [ih, bind_sn]
    · rfl

/-! ### Every call of an event -/

/-- **A message of a known sender**: the queue after the message is put in, the calls of `collapse`,
and the queue at the end. -/
structure KnownRight (q : Queue) (sn : U64) (m : Message) : Prop where
  kept : q.sn < sn → (q.rebind sn (.msg m)).Bounded
  collapses : q.sn < sn → sn = q.sn + 1 → (q.rebind sn (.msg m)).CollapsesRight (q.sn + 1)
  ends : ∃ q' up, recvKnown q sn m = some (q', up) ∧ q'.Bounded

/-- **A pass of the tracking thread**: the queue after each new loss, and what has been found at the
end. -/
def TrackedRight (p : Parameters) (address : Address) (q : Queue) : Prop :=
  ∀ entries naks, trackLosses p.nakTimeout
      (nakMaxCount (p.maxPacketSize - BitVec.ofNat 16 maxServiceSize : U16).toNat)
      q.entries.length q.entries = some (entries, naks) →
    (∀ tests, Bounded (recordLosses (largest { q with entries := entries }) tests (q.sn + 1)
      { q with entries := entries })) ∧
    ∀ q' down, trackQueue p address q = some (q', down) → q'.Detected

/-- **What is required of an event.** -/
structure Right (p : Parameters) (hold : Hold) (event : Event) : Prop where
  noticed : ∀ m, event = .recv m → ∀ b q, recvNrtm hold m b = some q → q.Bounded
  known : ∀ m, event = .recv m → sequenced m → ∀ source sn q, m.findFrom = some source →
    m.findSn = some sn → recvNrtm hold m source = some q → KnownRight q sn m
  tracked : ∀ b, event = .track b → ∀ q, hold b = some q → q.entries ≠ [] → TrackedRight p b q
  after : ∀ hold' o, step p hold event = some (hold', o) → ∀ b q, hold' b = some q → q.Bounded

/-- **No search runs past 0**: when the next message of a known sender is put into the queue, an
entry stays behind or `sn_` is not 0. -/
def SearchEnds (hold : Hold) : Event → Prop
  | .recv m => sequenced m → ∀ source sn q, m.findFrom = some source → m.findSn = some sn →
      recvNrtm hold m source = some q → KnownEnds q sn m
  | .track _ => True

/-- A message of a known sender whose search ends. -/
theorem knownRight (h : q.Inv) (hsn : m.findSn = some sn) (hends : KnownEnds q sn m) :
    KnownRight q sn m := by
  refine ⟨fun hlt => ?_, fun hlt heq => ?_, ?_⟩
  · have hready := h.ready.rebind (BitVec.lt_def.mp hlt) (.msg m)
    exact hready.bounded (by rw [rebind_sn]; exact Nat.lt_succ_self _)
  · have hready := h.ready.rebind (BitVec.lt_def.mp hlt) (.msg m)
    refine Gathers.collapsesRight ⟨hready, by rw [rebind_sn]; exact Nat.lt_succ_self _, ?_, ?_⟩
    · rw [BitVec.ofNat_add, BitVec.ofNat_toNat, BitVec.setWidth_eq]
      rfl
    · rw [rebind_sn]
      exact hends heq
  · obtain ⟨q', up, hrecv, hinv, -⟩ := recvKnown_spec h hsn hends
    exact ⟨q', up, hrecv, hinv.bounded⟩

/-- The numbers of the entries stay, whatever a tick does. -/
theorem view_of_trackLosses {nakTimeout : U64} {maxElem : ℕ} {es es' : List (U64 × Descr)}
    {naks : List (List U64)}
    (h : trackLosses nakTimeout maxElem es.length es = some (es', naks)) :
    es'.map view = es.map view := by
  rcases Nat.eq_zero_or_pos maxElem with rfl | hpos
  · by_cases hnil : es = []
    · subst hnil
      rw [trackLosses] at h
      cases h
      rfl
    · rw [trackLosses_zero nakTimeout hnil] at h
      cases h
  · obtain ⟨es₁, naks₁, h₁, hview⟩ := trackLosses_spec nakTimeout hpos es le_rfl
    cases h.symm.trans h₁
    exact hview

/-- A pass of the tracking thread. -/
theorem trackedRight (p : Parameters) (address : Address) (h : q.Inv) (hne : q.entries ≠ []) :
    TrackedRight p address q := by
  intro entries naks hlosses
  have hview := view_of_trackLosses hlosses
  have hkeys : entries.map Prod.fst = q.entries.map Prod.fst := by
    have := congrArg (List.map Prod.fst) hview
    rwa [List.map_map, List.map_map] at this
  obtain ⟨hinv, -⟩ : Queue.Inv { q with entries := entries } ∧
      Queue.window { q with entries := entries } = q.window :=
    h.congr rfl (heldIn_congr hview) (h.ready.congr hkeys)
  have hne' : entries ≠ [] := by
    rintro rfl
    exact hne (List.map_eq_nil_iff.mp hkeys.symm)
  have hlt : q.sn < q.sn + 1 := by
    obtain ⟨e, he⟩ := List.exists_mem_of_ne_nil _ hne
    have hle := h.ready.le e he
    have hmax := e.1.isLt
    rw [BitVec.lt_def, BitVec.toNat_add, show (1 : U64).toNat = 1 from rfl, Nat.mod_eq_of_lt]
      <;> omega
  refine ⟨fun tests => (recordLosses_spec _ tests hinv hlt).1.bounded, fun q' down htrack => ?_⟩
  rw [trackQueue] at htrack
  simp only [hlosses] at htrack
  cases htrack
  intro n hbehind hbefore
  rw [sn_recordLosses] at hbehind
  rw [largest_recordLosses _ hne' rfl] at hbefore
  refine recordLosses_detects ?_ ?_ hbefore
  · have hmax := (largest { q with entries := entries }).isLt
    omega
  · have hbehind' := BitVec.lt_def.mp hbehind
    have hmax := n.isLt
    rw [BitVec.le_def, BitVec.toNat_add, show (1 : U64).toNat = 1 from rfl, Nat.mod_eq_of_lt]
      <;> dsimp only at * <;> omega

/-! ### Every run -/

/-- A step that ends keeps the invariant. -/
theorem inv_of_step {o : Passed} (h : Inv hold) (hstep : step p hold event = some (hold', o)) :
    Inv hold' := by
  have hends : Ends p hold event := by
    by_contra hends
    rw [step_eq_none h hends] at hstep
    cases hstep
  obtain ⟨hold₁, o₁, hstep₁, hinv, -⟩ := step_spec h hends
  cases hstep.symm.trans hstep₁
  exact hinv

/-- **One event.** -/
theorem right_iff_searchEnds (h : Inv hold) : Right p hold event ↔ SearchEnds hold event := by
  constructor
  · intro hright
    cases event with
    | track b => trivial
    | recv m =>
      intro hm source sn q hfrom hsn hq
      by_contra hnot
      obtain ⟨q', up, hrecv, -⟩ := (hright.known m rfl hm source sn q hfrom hsn hq).ends
      rw [recvKnown_eq_none ((recvNrtm_spec h m).1 source q hq) hnot] at hrecv
      cases hrecv
  · intro hends
    refine ⟨?_, ?_, ?_, fun hold' o hstep b q hq => (inv_of_step h hstep b q hq).bounded⟩
    · rintro m rfl b q hq
      exact ((recvNrtm_spec h m).1 b q hq).bounded
    · rintro m rfl hm source sn q hfrom hsn hq
      exact knownRight ((recvNrtm_spec h m).1 source q hq) hsn
        (hends hm source sn q hfrom hsn hq)
    · rintro b rfl q hq hne
      exact trackedRight p b (h b q hq) hne

/-- **The loss queues are right throughout a run** exactly if no search runs past 0. -/
theorem guarded_right_iff_searchEnds (p : Parameters) (events : List Event) :
    Guarded (step p) (Right p) init events ↔ Guarded (step p) SearchEnds init events :=
  guarded_congr (fun _ _ _ _ h _ hstep => inv_of_step h hstep) (fun _ _ h => right_iff_searchEnds h)
    inv_init

/-- After a first message with the number 0, the search for the next one does not end. -/
theorem not_right_zero : ¬Guarded (step ⟨1470, 1⟩) (Right ⟨1470, 1⟩) init
    [.recv (dataMessage ⟨10000, 1⟩ 0), .recv (dataMessage ⟨10000, 1⟩ 1)] := by
  intro hright
  have hnext := (hright.2 _ _ rfl).1
  obtain ⟨q', up, hrecv, -⟩ := (hnext.known _ rfl rfl _ _ (.new 0) rfl rfl rfl).ends
  have hbad : ¬KnownEnds (.new 0) 1 (dataMessage ⟨10000, 1⟩ 1) := by
    intro hends
    rcases hends rfl with hne | ⟨e, he, hlost | hfar⟩
    · exact hne rfl
    · cases List.mem_singleton.mp he
      cases hlost
    · cases List.mem_singleton.mp he
      exact absurd hfar (by decide)
  rw [recvKnown_eq_none (inv_new 0) hbad] at hrecv
  cases hrecv

end Acknowledge

end AceTao.RMCast
