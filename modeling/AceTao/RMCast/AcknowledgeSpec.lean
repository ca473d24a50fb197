import AceTao.RMCast.QueueSpec

/-!
# What the acknowledgement protocol does to a queue

The queue of a known sender receives a message as a reorder buffer does (`recvKnown_spec`). Notices
(`Inv.notice`) and the tracking thread (`trackQueue_spec`) leave the buffer as it is.

The step for a message does not end if the first message of its sender had the number 0 and its queue
would be left empty (`recvKnown_eq_none`), and a tick does not end if no number fits in a negative
acknowledgement (`trackQueue_eq_none`).
-/

namespace AceTao.RMCast

open ReorderBuffer

/-- The serial number of a message. -/
def number (m : Message) : ℕ :=
  match m.findSn with
  | some sn => sn.toNat
  | none => 0

namespace Queue

variable {q q' : Queue} {sn : U64} {m : Message}

/-- **The invariant of a queue**: its numbers are behind `sn_`, its messages have their numbers, and
the next one is not there. -/
structure Inv (q : Queue) : Prop where
  ready : q.Ready (q.sn.toNat + 1)
  valid : q.window.Valid number

theorem inv_new (sn : U64) : (new sn).Inv := ⟨ready_new sn, nofun, rfl⟩

theorem window_new (sn : U64) : (new sn).window = ⟨sn.toNat + 1, fun _ => none⟩ := rfl

/-- A queue with the same messages. -/
theorem Inv.congr (h : q.Inv) (hsn : q'.sn = q.sn) (hheld : q'.held = q.held)
    (hready : q'.Ready (q.sn.toNat + 1)) : q'.Inv ∧ q'.window = q.window := by
  have hwindow : q'.window = q.window := by rw [window, window, hsn, hheld]
  exact ⟨⟨hsn ▸ hready, hwindow ▸ h.valid⟩, hwindow⟩

theorem Inv.bind_newLoss (h : q.Inv) (hsn : q.sn < sn) :
    (q.bind sn .newLoss).Inv ∧ (q.bind sn .newLoss).window = q.window :=
  h.congr bind_sn held_bind_newLoss (h.ready.bind (BitVec.lt_def.mp hsn) _)

/-- The last number handed up is not larger than the largest number known. -/
theorem Inv.sn_le_largest (h : q.Inv) : q.sn ≤ q.largest := by
  rw [largest]
  split_ifs with hnil
  · exact BitVec.le_refl _
  · obtain ⟨e, he⟩ := List.exists_mem_of_ne_nil _ hnil
    exact BitVec.le_trans (BitVec.le_of_lt (BitVec.lt_def.mpr (h.ready.le e he)))
      (h.ready.le_max e he)

/-- **A notice** of the highest number changes nothing for the messages. -/
theorem Inv.notice (h : q.Inv) (sn : U64) :
    (q.notice sn).Inv ∧ (q.notice sn).window = q.window := by
  rw [Queue.notice]
  split_ifs with hn
  · exact h.bind_newLoss (BitVec.lt_def.mpr
      (Nat.lt_of_le_of_lt (BitVec.le_def.mp h.sn_le_largest) (BitVec.lt_def.mp hn.2)))
  · exact ⟨h, rfl⟩

theorem window_rebind (hsn : m.findSn = some sn) :
    (q.rebind sn (.msg m)).window = q.window.put (number m) m := by
  rw [window, rebind_sn, held_rebind, number, hsn]
  rfl

end Queue

namespace Acknowledge

open Queue Machine

variable {p : Parameters} {q q' : Queue} {sn : U64} {m : Message}

/-! ### A message of a known sender -/

/-- When the message is put into the queue, and a message before it stays missing or `sn_` is not 0,
the step ends. -/
def KnownEnds (q : Queue) (sn : U64) (m : Message) : Prop :=
  sn = q.sn + 1 → q.sn ≠ 0 ∨ (q.rebind sn (.msg m)).Blocked (q.sn.toNat + 1)

/-- The number after `sn_`, if there is one. -/
theorem toNat_succ (hle : ¬sn ≤ q.sn) (h : sn = q.sn + 1) : sn.toNat = q.sn.toNat + 1 := by
  have hlt := BitVec.lt_def.mp (BitVec.not_le.mp hle)
  have hmax := sn.isLt
  rw [h, BitVec.toNat_add] at hlt ⊢
  have hone : (1 : U64).toNat = 1 := rfl
  rw [hone] at hlt ⊢
  omega

/-- **A message of a known sender** is received by the reorder buffer. -/
theorem recvKnown_spec (h : q.Inv) (hsn : m.findSn = some sn) (hends : KnownEnds q sn m) :
    ∃ q' up, recvKnown q sn m = some (q', up) ∧ q'.Inv ∧
      Receives number q.window m up q'.window := by
  have hnumber : number m = sn.toNat := by rw [number, hsn]
  rw [recvKnown]
  by_cases hle : sn ≤ q.sn
  · rw [if_pos hle]
    exact ⟨q, [], rfl, h, .dropped (hnumber ▸ Nat.lt_succ_of_le (BitVec.le_def.mp hle))⟩
  · rw [if_neg hle]
    have hlt : q.sn.toNat + 1 ≤ sn.toNat := BitVec.lt_def.mp (BitVec.not_le.mp hle)
    have hready : (q.rebind sn (.msg m)).Ready (q.sn.toNat + 1) := h.ready.rebind hlt _
    have hput : q.window.put (number m) m = ⟨q.sn.toNat + 1, (q.rebind sn (.msg m)).held⟩ := by
      rw [← window_rebind hsn, window, rebind_sn]
    have hreceives {count : ℕ} {up : List Message}
        (hfront : (q.window.put (number m) m).Front count up) :
        Receives number q.window m up ((q.window.put (number m) m).drop count) :=
      .kept (hnumber ▸ hlt) hfront
    by_cases heq : sn = q.sn + 1
    · rw [if_pos heq, collapse, rebind_sn]
      obtain ⟨q', up, count, hloop, hfront, hwindow, hready'⟩ :=
        collapseLoop_spec hready (by have := q.sn.isLt; omega)
          (show q.sn + 1 = BitVec.ofNat 64 (q.sn.toNat + 1) by
            rw [BitVec.ofNat_add, BitVec.ofNat_toNat, BitVec.setWidth_eq]; rfl)
          (by rw [rebind_sn]; exact Nat.lt_succ_self _) (by rw [rebind_sn]; exact hends heq)
          (Nat.lt_succ_self _)
      rw [← hput] at hfront hwindow
      have hrec := hreceives hfront
      rw [← hwindow] at hrec
      have hnext : q'.sn.toNat + 1 = q.sn.toNat + 1 + count := congrArg Window.next hwindow
      exact ⟨q', up, hloop, ⟨hnext ▸ hready', hrec.valid h.valid⟩, hrec⟩
    · rw [if_neg heq]
      have hfront : (q.window.put (number m) m).Front 0 [] := by
        refine ⟨rfl, ?_⟩
        have hne : q.window.next ≠ number m := by
          intro hn
          have hn' : q.sn.toNat + 1 = sn.toNat := hn.trans hnumber
          refine heq (BitVec.eq_of_toNat_eq ?_)
          rw [BitVec.toNat_add, ← hn', show (1 : U64).toNat = 1 from rfl, Nat.mod_eq_of_lt]
          rw [hn']
          exact sn.isLt
        exact (q.window.held_put_of_ne hne m).trans h.valid.next_eq
      have hrec := hreceives hfront
      rw [hput, hready.drop_zero, ← hput, ← window_rebind hsn] at hrec
      exact ⟨_, _, rfl, ⟨by rw [rebind_sn]; exact hready, hrec.valid h.valid⟩, hrec⟩

/-- **It does not end** otherwise. -/
theorem recvKnown_eq_none (h : q.Inv) (hends : ¬KnownEnds q sn m) : recvKnown q sn m = none := by
  rw [KnownEnds, Classical.not_imp, not_or, not_ne_iff] at hends
  obtain ⟨hsn, hzero, hblocked⟩ := hends
  have hone : sn = 1 := by rw [hsn, hzero]; rfl
  have hle : ¬sn ≤ q.sn := by
    rw [hone, hzero]
    decide
  have hlt : q.sn.toNat + 1 ≤ sn.toNat := (toNat_succ hle hsn).ge
  rw [recvKnown, if_neg hle, if_pos hsn, collapse]
  refine collapseLoop_eq_none (h.ready.rebind hlt _) ?_ ?_ (rebind_sn.trans hzero)
    (Nat.succ_pos _) hblocked _
  · intro hnil
    have hheld : (q.rebind sn (.msg m)).held sn.toNat = some m := by
      rw [held_rebind, Function.update_self]
    rw [held, hnil] at hheld
    cases hheld
  · rw [rebind_sn, hzero]
    rfl

/-! ### A tick -/

/-- What an entry is for the reorder buffer: its number, and its message. -/
def view (e : U64 × Descr) : U64 × Option Message := (e.1, e.2.message)

theorem heldIn_congr {es es' : List (U64 × Descr)} (h : es.map view = es'.map view) :
    heldIn es = heldIn es' := by
  have heq (es : List (U64 × Descr)) (n : ℕ) :
      heldIn es n = ((es.map view).find? fun e => e.1.toNat = n).bind (·.2) := by
    rw [heldIn, List.find?_map, Option.bind_map]
    rfl
  funext n
  rw [heq, heq, h]

theorem view_tick (nakTimeout sn : U64) (d : Descr) :
    view (sn, (tick nakTimeout d).1) = view (sn, d) := by
  cases d with
  | msg m => rfl
  | lost nakCount timer =>
    rw [tick]
    split_ifs <;> rfl

/-- The inner loop passes entries and leaves the others, an entry at least if one number fits. -/
theorem fillNak_spec (nakTimeout : U64) (maxElem : ℕ) (es : List (U64 × Descr)) (sns : List U64) :
    ((fillNak nakTimeout maxElem sns es).2.1 ++ (fillNak nakTimeout maxElem sns es).2.2).map view =
      es.map view := by
  induction es generalizing sns with
  | nil => rfl
  | cons e es ih =>
    rw [fillNak]
    split_ifs with hlt
    · exact congrArg₂ List.cons (view_tick nakTimeout e.1 e.2) (ih _)
    · rfl

theorem length_fillNak_le (nakTimeout : U64) (maxElem : ℕ) (es : List (U64 × Descr))
    (sns : List U64) : (fillNak nakTimeout maxElem sns es).2.2.length ≤ es.length := by
  have hlen := congrArg List.length (fillNak_spec nakTimeout maxElem es sns)
  rw [List.length_map, List.length_map, List.length_append] at hlen
  omega

theorem length_fillNak_lt (nakTimeout : U64) {maxElem : ℕ} (hpos : 0 < maxElem)
    (e : U64 × Descr) (es : List (U64 × Descr)) :
    (fillNak nakTimeout maxElem [] (e :: es)).2.2.length ≤ es.length := by
  rw [fillNak, if_pos (by exact hpos)]
  exact length_fillNak_le _ _ _ _

/-- **The loop over the losses** ends if one number fits in a negative acknowledgement. -/
theorem trackLosses_spec (nakTimeout : U64) {maxElem : ℕ} (hpos : 0 < maxElem)
    (es : List (U64 × Descr)) {tests : ℕ} (htests : es.length ≤ tests) :
    ∃ es' naks, trackLosses nakTimeout maxElem tests es = some (es', naks) ∧
      es'.map view = es.map view := by
  induction tests generalizing es with
  | zero =>
    rw [List.length_eq_zero_iff.mp (Nat.le_zero.mp htests)]
    exact ⟨[], [], by rw [trackLosses], rfl⟩
  | succ tests ih =>
    cases es with
    | nil => exact ⟨[], [], by rw [trackLosses], rfl⟩
    | cons e es =>
      have hlt := length_fillNak_lt nakTimeout hpos e es
      obtain ⟨es', naks, hrest, hview⟩ := ih _ (hlt.trans (Nat.le_of_succ_le_succ htests))
      refine ⟨_, _, by rw [trackLosses]; simp only [hrest]; rfl, ?_⟩
      rw [List.map_append, hview, ← List.map_append]
      exact fillNak_spec nakTimeout maxElem (e :: es) []

/-- It does not end otherwise, unless there are no entries. -/
theorem trackLosses_zero (nakTimeout : U64) {es : List (U64 × Descr)} (hne : es ≠ [])
    (tests : ℕ) : trackLosses nakTimeout 0 tests es = none := by
  obtain ⟨e, es, rfl⟩ := List.exists_cons_of_ne_nil hne
  induction tests with
  | zero => rfl
  | succ tests ih =>
    rw [trackLosses, fillNak, if_neg (Nat.not_lt_zero _)]
    simp only [ih]

/-- **New losses** change nothing for the messages. -/
theorem recordLosses_spec (last : U64) (tests : ℕ) (h : q.Inv) (hsn : q.sn < sn) :
    (recordLosses last tests sn q).Inv ∧ (recordLosses last tests sn q).window = q.window := by
  induction tests generalizing q sn with
  | zero => exact ⟨h, rfl⟩
  | succ tests ih =>
    rw [recordLosses]
    split_ifs with hlast
    · obtain ⟨hinv, hwindow⟩ := h.bind_newLoss hsn
      have hnext : q.sn < sn + 1 := by
        have hlt := BitVec.lt_def.mp hlast
        have hmax := last.isLt
        have hsn' := BitVec.lt_def.mp hsn
        rw [BitVec.lt_def, BitVec.toNat_add, show (1 : U64).toNat = 1 from rfl, Nat.mod_eq_of_lt]
          <;> omega
      obtain ⟨hinv', hwindow'⟩ := ih hinv (bind_sn.symm ▸ hnext)
      exact ⟨hinv', hwindow'.trans hwindow⟩
    · exact ⟨h, rfl⟩

/-- One number fits in a negative acknowledgement from 24 bytes on. -/
theorem nakMaxCount_pos {maxSize : ℕ} : 0 < nakMaxCount maxSize ↔ 24 ≤ maxSize := by
  have hmono : ∀ tests total n, n ≤ nakCountLoop maxSize tests total n := by
    intro tests
    induction tests with
    | zero => exact fun _ n => le_rfl
    | succ tests ih =>
      intro total n
      rw [nakCountLoop]
      split_ifs
      · exact Nat.le_succ n
      · exact le_rfl
      · exact (Nat.le_succ n).trans (ih _ _)
      · exact ih _ _
  by_cases hfit : 24 ≤ maxSize
  · refine iff_of_true ?_ hfit
    rw [nakMaxCount, nakCountLoop, if_pos (show 16 + 8 ≤ maxSize from hfit)]
    split_ifs
    · exact Nat.one_pos
    · exact Nat.lt_of_lt_of_le Nat.one_pos (hmono _ _ _)
  · refine iff_of_false ?_ hfit
    rw [nakMaxCount, nakCountLoop, if_neg (show ¬16 + 8 ≤ maxSize from hfit), if_pos (by omega)]
    exact Nat.lt_irrefl 0

/-- The size of a payload allows one number in a negative acknowledgement. -/
def NakFits (p : Parameters) : Prop :=
  24 ≤ (p.maxPacketSize - BitVec.ofNat 16 maxServiceSize : U16).toNat

/-- **`track_queue`** changes nothing for the messages. -/
theorem trackQueue_spec (p : Parameters) (hp : NakFits p) (address : Address) (h : q.Inv)
    (hne : q.entries ≠ []) :
    ∃ q' down, trackQueue p address q = some (q', down) ∧ q'.Inv ∧ q'.window = q.window := by
  obtain ⟨es, naks, hlosses, hview⟩ := trackLosses_spec p.nakTimeout (nakMaxCount_pos.mpr hp)
    q.entries le_rfl
  rw [trackQueue]
  simp only [hlosses]
  have hkeys : es.map Prod.fst = q.entries.map Prod.fst := by
    have := congrArg (List.map Prod.fst) hview
    rwa [List.map_map, List.map_map] at this
  obtain ⟨hinv, hwindow⟩ : Queue.Inv { q with entries := es } ∧
      Queue.window { q with entries := es } = q.window :=
    h.congr rfl (heldIn_congr hview) (h.ready.congr hkeys)
  have hlt : q.sn < q.sn + 1 := by
    obtain ⟨e, he⟩ := List.exists_mem_of_ne_nil _ hne
    have hle := h.ready.le e he
    have hmax := e.1.isLt
    rw [BitVec.lt_def, BitVec.toNat_add, show (1 : U64).toNat = 1 from rfl, Nat.mod_eq_of_lt]
      <;> omega
  obtain ⟨hinv', hwindow'⟩ := recordLosses_spec _ (2 ^ 64) hinv hlt
  exact ⟨_, _, rfl, hinv', hwindow'.trans hwindow⟩

/-- It does not end when no number fits. -/
theorem trackQueue_eq_none (hp : ¬NakFits p) (address : Address) (hne : q.entries ≠ []) :
    trackQueue p address q = none := by
  have hzero : nakMaxCount (p.maxPacketSize - BitVec.ofNat 16 maxServiceSize : U16).toNat = 0 :=
    Nat.eq_zero_of_not_pos (mt nakMaxCount_pos.mp hp)
  rw [trackQueue, hzero]
  simp only [trackLosses_zero p.nakTimeout hne]

end Acknowledge

end AceTao.RMCast
