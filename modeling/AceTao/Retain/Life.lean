import AceTao.Retain.Basic
import Mathlib.Data.List.Infix
import Mathlib.Data.List.Perm.Basic
import Mathlib.Data.BitVec

/-!
# The life of an entry

An entry is *active*, then *closing* while there are upcalls on it that began before it was
deactivated, then it is *cleaned up*, and is unbound at the end of that (`RetainPoa.Active`,
`RetainPoa.Closing`, `RetainPoa.CleanedUp`). What is asked of a state is
`RetainPoa.CleanedUpOnce`: the reference counts are right, and the histories of the entries are
beginnings of the history that an activation should have.

The count alone does not tell the stages apart, and an entry that is cleaned up is still found in the
map, with `deactivated_` unset when there was no upcall to wait for. `RetainPoa.Safe` excludes the
sections that go wrong: a call from within a clean-up that finds such an entry, or one that
`deactivate_all_objects` is about to deactivate; a servant that is incarnated for an id whose entry
has a servant; an exception of `etherealize`; and one upcall too many for the count.
-/

namespace AceTao

namespace NonServantUpcall

variable {I : Type}

/-- The entry that is being cleaned up. -/
def entry : NonServantUpcall I → Option ℕ
  | .cleanupServant _ p _ => some p
  | .addRef | .incarnate _ => none

/-- The entries that are yet to be deactivated. -/
def rest : NonServantUpcall I → List ℕ
  | .cleanupServant _ _ rest => rest
  | .addRef | .incarnate _ => []

end NonServantUpcall

namespace RetainPoa

variable {I S T : Type}

/-! ### What is asked -/

/-- **Every activation is cleaned up once**, after the last upcall, and the counts are right. -/
structure CleanedUpOnce (s : RetainPoa I S T) : Prop where
  /-- The count is the number of upcalls, and one before the entry is deactivated. -/
  referenceCount : ∀ p e, s.entries p = some e →
    e.referenceCount.toNat = s.upcallsOn p + if .deactivated ∈ s.history p then 0 else 1
  /-- The flag is right until the clean-up. -/
  flag : ∀ p e, s.entries p = some e → .cleanup ∉ s.history p →
    (e.deactivated ↔ .deactivated ∈ s.history p)
  /-- Nothing happens twice to an entry, nor out of order. The second history is that of an entry
  that has never had a servant. -/
  once : ∀ p, s.history p <+: [.activated, .deactivated, .cleanup, .unbound] ∨
    s.history p <+: [.deactivated, .cleanup, .unbound]
  lastUpcall : ∀ p, .cleanup ∈ s.history p → s.upcallsOn p = 0
  finished : s.nonServantUpcalls = [] → ∀ p, .deactivated ∈ s.history p → s.upcallsOn p = 0 →
    .unbound ∈ s.history p

/-- The entries that are being cleaned up. -/
def cleaning (s : RetainPoa I S T) : List ℕ := s.nonServantUpcalls.filterMap NonServantUpcall.entry

/-- The entries that calls of `deactivate_all_objects` are yet to deactivate. -/
def pending (s : RetainPoa I S T) : List ℕ := s.nonServantUpcalls.flatMap NonServantUpcall.rest

/-- What the innermost non-servant upcall may return. -/
def SafeReturn (c : RetainPolicies) (s : RetainPoa I S T) :
    List (NonServantUpcall I) → UpcallResult S → Prop
  | .cleanupServant true _ _ :: _, .raised => False
  | .incarnate id :: _, .servant v => (c.uniqueId ∧ (s.servantMap v).isSome) ∨
    ∀ p ∈ s.userIdMap id, ∀ e ∈ s.entries p, e.servant = none
  | _, _ => True

/-- What a section has to meet where it runs. -/
def SafeSection (c : RetainPolicies) (s : RetainPoa I S T) : RetainOp I S T → Prop
  | .beginUpcall _ id => ∀ p ∈ s.userIdMap id, ∀ e ∈ s.entries p, e.deactivated = false →
    p ∉ s.cleaning ∧ e.referenceCount.toNat + 1 < 2 ^ 16
  | .deactivateObject _ id => ∀ p ∈ s.userIdMap id, ∀ e ∈ s.entries p, e.deactivated = false →
    p ∉ s.cleaning ∧ p ∉ s.pending
  | .deactivateAllObjects _ _ order => ∀ p ∈ order, ∀ e ∈ s.entries p, e.deactivated = false →
    p ∉ s.cleaning ∧ p ∉ s.pending
  | .returnNonServantUpcall _ result => SafeReturn c s s.nonServantUpcalls result
  | .activateObject .. | .activateObjectWithId .. | .createReference .. | .endUpcall .. => True

/-- **A safe section.** A thread that has to wait does nothing. -/
def Safe (c : RetainPolicies) [DecidableEq T] (s : RetainPoa I S T) (op : RetainOp I S T) : Prop :=
  s.thread.any (· ≠ op.thread) ∨ SafeSection c s op

/-! ### Stages -/

/-- The history of an entry before it is deactivated. -/
def activation (e : RetainedEntry I S) : List EntryEvent :=
  if e.servant.isSome then [.activated] else []

/-- **An active entry**, with the number of upcalls on it and its history. -/
structure Active (e : RetainedEntry I S) (n : ℕ) (h : List EntryEvent) : Prop where
  flag : e.deactivated = false
  count : e.referenceCount.toNat = n + 1
  history : h = activation e
  servantless : e.servant = none → n = 0

/-- **An entry that is closing.** -/
structure Closing (e : RetainedEntry I S) (n : ℕ) (h : List EntryEvent) : Prop where
  flag : e.deactivated = true
  count : e.referenceCount.toNat = n
  pos : 0 < n
  history : h = [.activated, .deactivated]
  servant : e.servant.isSome

/-- **An entry that is being cleaned up.** -/
structure CleanedUp (e : RetainedEntry I S) (n : ℕ) (h : List EntryEvent) : Prop where
  count : e.referenceCount = 0
  upcalls : n = 0
  history : h = [.activated, .deactivated, .cleanup]
  servant : e.servant.isSome

/-- The history of an entry that does not exist. -/
def Gone (h : List EntryEvent) : Prop :=
  h = [] ∨ h = [.activated, .deactivated, .cleanup, .unbound] ∨ h = [.deactivated, .cleanup, .unbound]

/-- The stage of an entry, if it exists, and whether it is being cleaned up. -/
def InStage (e : Option (RetainedEntry I S)) (n : ℕ) (h : List EntryEvent) (cleaning : Prop) :
    Prop :=
  match e with
  | none => n = 0 ∧ Gone h ∧ ¬cleaning
  | some e => Active e n h ∧ ¬cleaning ∨ Closing e n h ∧ ¬cleaning ∨ CleanedUp e n h ∧ cleaning

/-- The key of an entry in `servant_map_`. -/
def servantKey (c : RetainPolicies) (e : RetainedEntry I S) : Option S :=
  if c.uniqueId then e.servant else none

/-- **The invariant.** -/
structure Inv (c : RetainPolicies) (s : RetainPoa I S T) : Prop where
  stage : ∀ p, InStage (s.entries p) (s.upcallsOn p) (s.history p) (p ∈ s.cleaning)
  fresh : ∀ p, s.nextEntry ≤ p → s.entries p = none ∧ s.history p = []
  ids : StoreIndex.Indexes s.userIdMap s.entries fun e => some e.userId
  servants : StoreIndex.Indexes s.servantMap s.entries (servantKey c)
  cleaningNodup : s.cleaning.Nodup
  pendingNodup : s.pending.Nodup
  pendingActive : ∀ p ∈ s.pending, p ∉ s.cleaning ∧ ∃ e, s.entries p = some e ∧
    e.deactivated = false

variable {c : RetainPolicies} {s s' : RetainPoa I S T} {p : ℕ} {e : RetainedEntry I S}

theorem deactivated_notMem_activation : .deactivated ∉ activation e := by
  rw [activation]
  split_ifs <;> decide

theorem cleanup_notMem_activation : .cleanup ∉ activation e := by
  rw [activation]
  split_ifs <;> decide

/-- The stage of an entry that exists. -/
theorem Inv.stage_some (h : Inv c s) (he : s.entries p = some e) :
    Active e (s.upcallsOn p) (s.history p) ∧ p ∉ s.cleaning ∨
      Closing e (s.upcallsOn p) (s.history p) ∧ p ∉ s.cleaning ∨
        CleanedUp e (s.upcallsOn p) (s.history p) ∧ p ∈ s.cleaning := by
  have hs := h.stage p
  rwa [he] at hs

/-- Where there is no entry. -/
theorem Inv.stage_none (h : Inv c s) (he : s.entries p = none) :
    s.upcallsOn p = 0 ∧ Gone (s.history p) ∧ p ∉ s.cleaning := by
  have hs := h.stage p
  rwa [he] at hs

/-- An entry that is found is active if it is not being cleaned up. -/
theorem Inv.active (h : Inv c s) (he : s.entries p = some e) (hflag : e.deactivated = false)
    (hp : p ∉ s.cleaning) : Active e (s.upcallsOn p) (s.history p) := by
  rcases h.stage_some he with ⟨hs, -⟩ | ⟨hs, -⟩ | ⟨-, hs⟩
  · exact hs
  · exact absurd (hs.flag.symm.trans hflag) nofun
  · exact absurd hs hp

theorem Gone.once {l : List EntryEvent} (h : Gone l) :
    l <+: [.activated, .deactivated, .cleanup, .unbound] ∨
      l <+: [.deactivated, .cleanup, .unbound] := by
  rcases h with rfl | rfl | rfl <;> decide

theorem activation_once : activation e <+: [.activated, .deactivated, .cleanup, .unbound] := by
  rw [activation]
  split_ifs <;> decide

/-- **The stages give what is asked.** -/
theorem Inv.cleanedUpOnce (h : Inv c s) : CleanedUpOnce s where
  referenceCount p e he := by
    rcases h.stage_some he with ⟨hs, -⟩ | ⟨hs, -⟩ | ⟨hs, -⟩
    · rw [hs.count, hs.history, if_neg deactivated_notMem_activation]
    · rw [hs.count, hs.history, if_pos (by decide), Nat.add_zero]
    · rw [hs.count, hs.history, hs.upcalls, if_pos (by decide)]
      rfl
  flag p e he hnot := by
    rcases h.stage_some he with ⟨hs, -⟩ | ⟨hs, -⟩ | ⟨hs, -⟩
    · rw [hs.flag, hs.history]
      exact iff_of_false nofun deactivated_notMem_activation
    · rw [hs.flag, hs.history]
      exact iff_of_true rfl (by decide)
    · rw [hs.history] at hnot
      exact absurd (by decide) hnot
  once p := by
    rcases he : s.entries p with _ | e
    · exact (h.stage_none he).2.1.once
    · rcases h.stage_some he with ⟨hs, -⟩ | ⟨hs, -⟩ | ⟨hs, -⟩ <;> rw [hs.history]
      · exact .inl activation_once
      · decide
      · decide
  lastUpcall p hp := by
    rcases he : s.entries p with _ | e
    · exact (h.stage_none he).1
    · rcases h.stage_some he with ⟨hs, -⟩ | ⟨hs, -⟩ | ⟨hs, -⟩
      · rw [hs.history] at hp
        exact absurd hp cleanup_notMem_activation
      · rw [hs.history] at hp
        exact absurd hp (by decide)
      · exact hs.upcalls
  finished hnil p hd hn := by
    rcases he : s.entries p with _ | e
    · rcases (h.stage_none he).2.1 with hs | hs | hs <;> rw [hs] at hd ⊢
      · cases hd
      · decide
      · decide
    · rcases h.stage_some he with ⟨hs, -⟩ | ⟨hs, -⟩ | ⟨-, hs⟩
      · rw [hs.history] at hd
        exact absurd hd deactivated_notMem_activation
      · exact absurd hn hs.pos.ne'
      · rw [RetainPoa.cleaning, hnil] at hs
        cases hs

end RetainPoa

end AceTao
