import Mathlib.Data.List.Basic
import Mathlib.Data.Option.Basic

/-!
# Partial machines and their runs

A *partial machine* is a step function `step : σ → ι → Option (σ × ο)`: from a
state and a command it computes the next state and an output, or it has no
answer, when the command is not available in that state. A run executes a list
of commands in order and collects the outputs.

Four rules carry every result about runs:

* `Machine.inv_run`: what one step preserves, a run preserves;
* `Machine.inv_run_of_guarded`: the same when a step preserves the invariant only under
  a condition on the state before it, for runs all of whose steps meet the condition;
* `Machine.run_refines`: a machine each of whose steps is one of a relation has runs that are
  sequences of such steps;
* `Machine.run_lockstep`: two machines that answer every command by the same output, and
  keep a relation between their states, have runs with the same outputs.
-/

namespace Machine

variable {σ σ' ι ι' ο ο' : Type*}

/-! ### Runs -/

/-- **A run**: the commands one after the other, with the outputs collected. It has no
answer as soon as one of its steps has none. -/
def run (step : σ → ι → Option (σ × ο)) : σ → List ι → Option (σ × List ο)
  | s, [] => some (s, [])
  | s, i :: is =>
    match step s i with
    | none => none
    | some (s', o) =>
      match run step s' is with
      | none => none
      | some (t, os) => some (t, o :: os)

variable {step : σ → ι → Option (σ × ο)}

@[simp] theorem run_nil (s : σ) : run step s [] = some (s, []) := rfl

/-- A run of a non-empty list is a step followed by a run. -/
theorem run_cons_eq_some {s t : σ} {i : ι} {is : List ι} {os : List ο} :
    run step s (i :: is) = some (t, os) ↔
      ∃ s' o os', step s i = some (s', o) ∧ run step s' is = some (t, os') ∧ os = o :: os' := by
  rw [run]
  constructor
  · intro h
    split at h
    · cases h
    · rename_i s' o hs
      split at h
      · cases h
      · rename_i t' os' ht
        cases h
        exact ⟨s', o, os', hs, ht, rfl⟩
  · rintro ⟨s', o, os', hs, ht, rfl⟩
    simp only [hs, ht]

/-- Runs compose. -/
theorem run_append {s t : σ} {is js : List ι} {os : List ο} :
    run step s (is ++ js) = some (t, os) ↔
      ∃ s' os₁ os₂, run step s is = some (s', os₁) ∧ run step s' js = some (t, os₂) ∧
        os = os₁ ++ os₂ := by
  induction is generalizing s os with
  | nil => simp
  | cons i is ih =>
    rw [List.cons_append, run_cons_eq_some]
    constructor
    · rintro ⟨s₁, o, os', hs, hr, rfl⟩
      obtain ⟨s', os₁, os₂, h₁, h₂, rfl⟩ := ih.mp hr
      exact ⟨s', o :: os₁, os₂, run_cons_eq_some.mpr ⟨s₁, o, os₁, hs, h₁, rfl⟩, h₂, rfl⟩
    · rintro ⟨s', os₁, os₂, h₁, h₂, rfl⟩
      obtain ⟨s₁, o, os', hs, hr, rfl⟩ := run_cons_eq_some.mp h₁
      exact ⟨s₁, o, os' ++ os₂, hs, ih.mpr ⟨s', os', os₂, hr, h₂, rfl⟩, rfl⟩

/-! ### Invariants over runs -/

/-- **The invariant rule**: a predicate that every step preserves holds at the end of
every run that starts in it. -/
theorem inv_run {P : σ → Prop} (hstep : ∀ s i s' o, P s → step s i = some (s', o) → P s')
    {s t : σ} {is : List ι} {os : List ο} (hs : P s) (h : run step s is = some (t, os)) :
    P t := by
  induction is generalizing s os with
  | nil => cases h; exact hs
  | cons i is ih =>
    obtain ⟨s', o, os', hi, hr, -⟩ := run_cons_eq_some.mp h
    exact ih (hstep s i s' o hs hi) hr

/-- A run is **guarded** by a condition when each of its steps is taken in a state that
meets it. -/
def Guarded (step : σ → ι → Option (σ × ο)) (G : σ → ι → Prop) : σ → List ι → Prop
  | _, [] => True
  | s, i :: is => G s i ∧ ∀ s' o, step s i = some (s', o) → Guarded step G s' is

variable {G : σ → ι → Prop}

/-- **The invariant rule under a condition on the steps.** -/
theorem inv_run_of_guarded {P : σ → Prop}
    (hstep : ∀ s i s' o, P s → G s i → step s i = some (s', o) → P s')
    {s t : σ} {is : List ι} {os : List ο} (hs : P s) (hg : Guarded step G s is)
    (h : run step s is = some (t, os)) : P t := by
  induction is generalizing s os with
  | nil => cases h; exact hs
  | cons i is ih =>
    obtain ⟨s', o, os', hi, hr, -⟩ := run_cons_eq_some.mp h
    exact ih (hstep s i s' o hs hg.1 hi) (hg.2 s' o hi) hr

/-- Whether a run is guarded is decided by executing it. -/
instance decidableGuarded [∀ s i, Decidable (G s i)] :
    ∀ s is, Decidable (Guarded step G s is)
  | _, [] => isTrue trivial
  | s, i :: is =>
    match h : step s i with
    | none => decidable_of_iff (G s i)
        ⟨fun hG => ⟨hG, fun _ _ hs => by rw [h] at hs; cases hs⟩, fun hg => hg.1⟩
    | some (s', _) =>
      have := decidableGuarded s' is
      decidable_of_iff (G s i ∧ Guarded step G s' is)
        ⟨fun hg => ⟨hg.1, fun _ _ hs => by rw [h] at hs; cases hs; exact hg.2⟩,
          fun hg => ⟨hg.1, hg.2 s' _ h⟩⟩

theorem Guarded.and {G' : σ → ι → Prop} {s : σ} {is : List ι} (h : Guarded step G s is)
    (h' : Guarded step G' s is) : Guarded step (fun s i => G s i ∧ G' s i) s is := by
  induction is generalizing s with
  | nil => trivial
  | cons i is ih => exact ⟨⟨h.1, h'.1⟩, fun s' o hs => ih (h.2 s' o hs) (h'.2 s' o hs)⟩

/-- A guarded run is guarded in both halves. -/
theorem Guarded.of_append {s : σ} {is js : List ι} (h : Guarded step G s (is ++ js)) :
    Guarded step G s is ∧ ∀ t os, run step s is = some (t, os) → Guarded step G t js := by
  induction is generalizing s with
  | nil =>
    refine ⟨trivial, fun t os ht => ?_⟩
    cases ht
    exact h
  | cons i is ih =>
    refine ⟨⟨h.1, fun s' o hs => (ih (h.2 s' o hs)).1⟩, fun t os ht => ?_⟩
    obtain ⟨s', o, os', hi, hr, -⟩ := run_cons_eq_some.mp ht
    exact (ih (h.2 s' o hi)).2 t os' hr

/-- A stronger condition is enough. -/
theorem Guarded.mono {G' : σ → ι → Prop} (hG : ∀ s i, G s i → G' s i) {s : σ} {is : List ι}
    (h : Guarded step G s is) : Guarded step G' s is := by
  induction is generalizing s with
  | nil => trivial
  | cons i is ih => exact ⟨hG s i h.1, fun s' o hs => ih (h.2 s' o hs)⟩

/-- Two conditions that agree wherever an invariant holds guard the same runs, if steps that meet them
preserve the invariant. -/
theorem guarded_congr {G' : σ → ι → Prop} {P : σ → Prop}
    (hstep : ∀ s i s' o, P s → G s i → step s i = some (s', o) → P s')
    (hG : ∀ s i, P s → (G s i ↔ G' s i)) {s : σ} {is : List ι} (hs : P s) :
    Guarded step G s is ↔ Guarded step G' s is := by
  induction is generalizing s with
  | nil => exact Iff.rfl
  | cons i is ih =>
    constructor
    · intro h
      exact ⟨(hG s i hs).mp h.1, fun s' o hi => (ih (hstep s i s' o hs h.1 hi)).mp (h.2 s' o hi)⟩
    · intro h
      have hi := (hG s i hs).mpr h.1
      exact ⟨hi, fun s' o hs' => (ih (hstep s i s' o hs hi hs')).mpr (h.2 s' o hs')⟩

/-- A condition that each command meets in every state guards the run. -/
theorem guarded_of_forall_mem {is : List ι} (hG : ∀ i ∈ is, ∀ s, G s i) (s : σ) :
    Guarded step G s is := by
  induction is generalizing s with
  | nil => trivial
  | cons i is ih =>
    obtain ⟨hi, his⟩ := List.forall_mem_cons.mp hG
    exact ⟨hi s, fun s' _ _ => ih his s'⟩

/-- **Progress**: when every step that meets the condition has an answer and preserves the
invariant, every guarded run has one. -/
theorem run_isSome_of_guarded {P : σ → Prop}
    (hprog : ∀ s i, P s → G s i → ∃ s' o, step s i = some (s', o) ∧ P s')
    {s : σ} {is : List ι} (hs : P s) (hg : Guarded step G s is) :
    ∃ t os, run step s is = some (t, os) ∧ P t := by
  induction is generalizing s with
  | nil => exact ⟨s, [], rfl, hs⟩
  | cons i is ih =>
    obtain ⟨s', o, hi, hs'⟩ := hprog s i hs hg.1
    obtain ⟨t, os, hr, ht⟩ := ih hs' (hg.2 s' o hi)
    exact ⟨t, o :: os, run_cons_eq_some.mpr ⟨s', o, os, hi, hr, rfl⟩, ht⟩

/-- **The rule for outputs**: when every step from a state of the invariant has an answer, whose output
has a property, and preserves the invariant, then so does every run. -/
theorem run_outputs {P : σ → Prop} {Q : ο → Prop}
    (hstep : ∀ s i, P s → ∃ s' o, step s i = some (s', o) ∧ P s' ∧ Q o) {s : σ} (hs : P s)
    (is : List ι) : ∃ t os, run step s is = some (t, os) ∧ P t ∧ ∀ o ∈ os, Q o := by
  induction is generalizing s with
  | nil => exact ⟨s, [], rfl, hs, nofun⟩
  | cons i is ih =>
    obtain ⟨s', o, hi, hs', ho⟩ := hstep s i hs
    obtain ⟨t, os, hr, ht, hos⟩ := ih hs'
    exact ⟨t, o :: os, run_cons_eq_some.mpr ⟨s', o, os, hi, hr, rfl⟩, ht,
      List.forall_mem_cons.mpr ⟨ho, hos⟩⟩

/-! ### A machine and a relation -/

variable {α : Type*}

/-- Steps of a relation one after the other. -/
inductive Steps (R : α → ι → ο → α → Prop) : α → List ι → List ο → α → Prop
  | nil (a : α) : Steps R a [] [] a
  | cons {a a' a'' : α} {i : ι} {o : ο} {is : List ι} {os : List ο} (h : R a i o a')
      (hs : Steps R a' is os a'') : Steps R a (i :: is) (o :: os) a''

/-- **The refinement rule**: when every step that meets the condition has an answer, which is one of
the relation and keeps the two states related, then so do guarded runs. -/
theorem run_refines {P : σ → α → Prop} {R : α → ι → ο → α → Prop}
    (hstep : ∀ s a i, P s a → G s i → ∃ s' o a', step s i = some (s', o) ∧ R a i o a' ∧ P s' a')
    {s : σ} {a : α} {is : List ι} (hs : P s a) (hg : Guarded step G s is) :
    ∃ t os b, run step s is = some (t, os) ∧ Steps R a is os b ∧ P t b := by
  induction is generalizing s a with
  | nil => exact ⟨s, [], a, rfl, .nil a, hs⟩
  | cons i is ih =>
    obtain ⟨s', o, a', hi, hR, hs'⟩ := hstep s a i hs hg.1
    obtain ⟨t, os, b, hr, hsteps, ht⟩ := ih hs' (hg.2 s' o hi)
    exact ⟨t, o :: os, b, run_cons_eq_some.mpr ⟨s', o, os, hi, hr, rfl⟩, .cons hR hsteps, ht⟩

/-! ### Two machines -/

/-- **The lockstep rule**: when related states answer a command that meets the condition by the
same output and related states, or both have no answer, then so do guarded runs. -/
theorem run_lockstep {step' : σ' → ι → Option (σ' × ο)} {R : σ → σ' → Prop}
    (hstep : ∀ s s' i, R s s' → G s i →
      Option.Rel (fun p p' => R p.1 p'.1 ∧ p.2 = p'.2) (step s i) (step' s' i))
    {s : σ} {s' : σ'} {is : List ι} (hs : R s s') (hg : Guarded step G s is) :
    Option.Rel (fun p p' => R p.1 p'.1 ∧ p.2 = p'.2) (run step s is) (run step' s' is) := by
  induction is generalizing s s' with
  | nil => exact .some ⟨hs, rfl⟩
  | cons i is ih =>
    have h₁ := hstep s s' i hs hg.1
    rw [run, run]
    generalize hr : step s i = r at h₁
    generalize step' s' i = r' at h₁
    cases h₁ with
    | none => exact .none
    | @some p p' hp =>
      obtain ⟨t, o⟩ := p
      obtain ⟨t', o'⟩ := p'
      obtain ⟨hR, rfl⟩ := hp
      have h₂ := ih hR (hg.2 t o hr)
      dsimp only
      generalize run step t is = r at h₂
      generalize run step' t' is = r' at h₂
      cases h₂ with
      | none => exact .none
      | @some p p' hp =>
        obtain ⟨hR', hos⟩ := hp
        exact .some ⟨hR', congrArg (o :: ·) hos⟩

end Machine

/-!
## Runs that can go wrong

The step of a program that can go wrong says what went wrong: `step : σ → ι → Except ε (σ × ο)`. A
run ends with the first fault.

* `FaultRun.run_eq_error_iff`: a run ends with a fault exactly where some command does, behind
  commands that succeed;
* `FaultRun.account_run`: what each step keeps between the state and an account of the commands so
  far, which is made without looking at the state, holds behind every run.
-/

namespace FaultRun

variable {σ ι ο ε ρ : Type*}

/-- **A run**: the commands one after the other, up to the first fault. -/
def run (step : σ → ι → Except ε (σ × ο)) : σ → List ι → Except ε σ
  | s, [] => .ok s
  | s, i :: is =>
    match step s i with
    | .error e => .error e
    | .ok (s', _) => run step s' is

variable {step : σ → ι → Except ε (σ × ο)}

theorem run_cons_of_ok {s s' : σ} {i : ι} {is : List ι} {o : ο} (h : step s i = .ok (s', o)) :
    run step s (i :: is) = run step s' is := by
  rw [run, h]

theorem run_cons_of_error {s : σ} {i : ι} {is : List ι} {e : ε} (h : step s i = .error e) :
    run step s (i :: is) = .error e := by
  rw [run, h]

/-- **Where a run goes wrong.** -/
theorem run_eq_error_iff {s : σ} {is : List ι} {e : ε} : run step s is = .error e ↔
    ∃ pre i post t, is = pre ++ i :: post ∧ run step s pre = .ok t ∧ step t i = .error e := by
  induction is generalizing s with
  | nil =>
    constructor
    · intro h
      cases h
    · rintro ⟨pre, i, post, t, hnil, -, -⟩
      exact absurd hnil.symm (List.append_ne_nil_of_right_ne_nil pre (List.cons_ne_nil i post))
  | cons j is ih =>
    rcases hj : step s j with e' | ⟨s', o⟩
    · rw [run_cons_of_error hj]
      constructor
      · rintro ⟨⟩
        exact ⟨[], j, is, s, rfl, rfl, hj⟩
      · rintro ⟨_ | ⟨k, pre⟩, i, post, t, heq, hpre, hi⟩
        · cases heq
          cases hpre
          rw [hj] at hi
          cases hi
          rfl
        · cases heq
          rw [run_cons_of_error hj] at hpre
          cases hpre
    · rw [run_cons_of_ok hj, ih]
      constructor
      · rintro ⟨pre, i, post, t, rfl, hpre, hi⟩
        exact ⟨j :: pre, i, post, t, rfl, (run_cons_of_ok hj).trans hpre, hi⟩
      · rintro ⟨_ | ⟨k, pre⟩, i, post, t, heq, hpre, hi⟩
        · cases heq
          cases hpre
          rw [hj] at hi
          cases hi
        · cases heq
          rw [run_cons_of_ok hj] at hpre
          exact ⟨pre, i, post, t, rfl, hpre, hi⟩

/-- **The rule for accounts.** -/
theorem account_run {next : ρ → ι → ρ} {R : ρ → σ → Prop}
    (hstep : ∀ r s i s' o, R r s → step s i = .ok (s', o) → R (next r i) s')
    {r : ρ} {s t : σ} {is : List ι} (hr : R r s) (h : run step s is = .ok t) :
    R (is.foldl next r) t := by
  induction is generalizing r s with
  | nil =>
    cases h
    exact hr
  | cons i is ih =>
    rcases hi : step s i with e | ⟨s', o⟩
    · rw [run_cons_of_error hi] at h
      cases h
    · rw [run_cons_of_ok hi] at h
      exact ih (hstep r s i s' o hr hi) h

/-- **Where the fault is foreseen by an account**: a run ends with it exactly where some command that
is reached is not accepted by the account of those before it. -/
theorem run_ne_error_iff {next : ρ → ι → ρ} {R : ρ → σ → Prop} {accepts : ρ → ι → Prop} {e : ε}
    (hstep : ∀ r s i s' o, R r s → step s i = .ok (s', o) → R (next r i) s')
    (herror : ∀ r s i, R r s → (step s i ≠ .error e ↔ accepts r i))
    {r : ρ} {s : σ} {is : List ι} (hr : R r s) : run step s is ≠ .error e ↔
      ∀ pre i post t, is = pre ++ i :: post → run step s pre = .ok t →
        accepts (pre.foldl next r) i := by
  rw [Ne, run_eq_error_iff]
  constructor
  · intro h pre i post t his hpre
    refine (herror _ t i (account_run hstep hr hpre)).mp fun hi => ?_
    exact h ⟨pre, i, post, t, his, hpre, hi⟩
  · rintro h ⟨pre, i, post, t, his, hpre, hi⟩
    exact (herror _ t i (account_run hstep hr hpre)).mpr (h pre i post t his hpre) hi

end FaultRun
