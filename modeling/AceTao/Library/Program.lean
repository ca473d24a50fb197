import Mathlib.Logic.Basic
import Mathlib.Order.Filter.AtTopBot.Basic
import Mathlib.Order.Defs.Unbundled
import Mathlib.Tactic.SplitIfs

/-!
# Programs over a state, with exceptions and undefined behaviour

A `Program σ ε α` runs from a state in `σ`. It ends in a new state, with a value in `α` or
with an exception in `ε`, or it has no answer: that is the outcome of a step whose behaviour is
undefined, such as a load outside the memory the program may read.

Two kinds of statement are made about a program, each with one rule for each construct:

* `Program.Keeps R m`: whenever `m` has an answer, the state before and the state after are
  related by `R`. For a reflexive and transitive `R` it is closed under sequencing
  (`Program.Keeps.bind`);
* `Program.Ends m Q s`: from `s` the program has an answer, and it satisfies `Q`
  (`Program.Ends.mono`).
-/

/-- **A program**: from a state, a result with the new state, or no answer. -/
def Program (σ ε α : Type) : Type := σ → Option (Except ε α × σ)

namespace Program

variable {σ ε α β : Type}

instance : Monad (Program σ ε) where
  pure a := fun s => some (.ok a, s)
  bind m f := fun s =>
    match m s with
    | none => none
    | some (.error e, t) => some (.error e, t)
    | some (.ok a, t) => f a t

/-- The current state. -/
def get : Program σ ε σ := fun s => some (.ok s, s)

/-- A change of the state. -/
def modify (f : σ → σ) : Program σ ε Unit := fun s => some (.ok (), f s)

/-- An exception. -/
def throw (e : ε) : Program σ ε α := fun s => some (.error e, s)

/-- A step without a defined outcome. -/
def undefined : Program σ ε α := fun _ => none

/-- **A handler** runs in the state the exception was thrown in. -/
def handle (m : Program σ ε α) (h : ε → Program σ ε α) : Program σ ε α := fun s =>
  match m s with
  | none => none
  | some (.error e, t) => h e t
  | some (.ok a, t) => some (.ok a, t)

variable {ε' : Type}

/-- An exception under another name. -/
def mapError (f : ε → ε') (m : Program σ ε α) : Program σ ε' α := fun s =>
  (m s).map fun r => (r.1.mapError f, r.2)

/-- **An exception as an answer**: `none` in the state it was thrown in. -/
def attempt (m : Program σ ε α) : Program σ ε' (Option α) := fun s =>
  (m s).map fun r => (.ok r.1.toOption, r.2)

theorem bind_apply (m : Program σ ε α) (f : α → Program σ ε β) (s : σ) :
    (m >>= f) s = match m s with
      | none => none
      | some (.error e, t) => some (.error e, t)
      | some (.ok a, t) => f a t := rfl

/-- A sequence ends where its first half throws, or where its second half ends. -/
theorem bind_eq_some {m : Program σ ε α} {f : α → Program σ ε β} {s t : σ} {r : Except ε β} :
    (m >>= f) s = some (r, t) ↔ (∃ e, r = .error e ∧ m s = some (.error e, t)) ∨
      ∃ a u, m s = some (.ok a, u) ∧ f a u = some (r, t) := by
  rw [bind_apply]
  rcases m s with _ | ⟨e | a, u⟩
  · simp
  · grind
  · grind

/-- A sequence ends with a value where both halves do. -/
theorem bind_eq_ok {m : Program σ ε α} {f : α → Program σ ε β} {s t : σ} {b : β} :
    (m >>= f) s = some (.ok b, t) ↔
      ∃ a u, m s = some (.ok a, u) ∧ f a u = some (.ok b, t) := by
  rw [bind_eq_some]
  constructor
  · rintro (⟨e, he, -⟩ | h)
    · cases he
    · exact h
  · exact Or.inr

theorem handle_eq_some {m : Program σ ε α} {h : ε → Program σ ε α} {s t : σ} {r : Except ε α} :
    handle m h s = some (r, t) ↔ (∃ a, r = .ok a ∧ m s = some (.ok a, t)) ∨
      ∃ e u, m s = some (.error e, u) ∧ h e u = some (r, t) := by
  rw [handle]
  rcases m s with _ | ⟨e | a, u⟩
  · simp
  · grind
  · grind

section Evaluation

variable {m : Program σ ε α} {f : α → Program σ ε β} {s t : σ}

/-- After a first half that ends with a value, the second half runs. -/
theorem bind_of_ok {a : α} (h : m s = some (.ok a, t)) : (m >>= f) s = f a t := by
  rw [bind_apply, h]

/-- After a first half that throws, nothing runs. -/
theorem bind_of_error {e : ε} (h : m s = some (.error e, t)) : (m >>= f) s = some (.error e, t) := by
  rw [bind_apply, h]

/-- After a first half without an answer there is none. -/
theorem bind_of_none (h : m s = none) : (m >>= f) s = none := by
  rw [bind_apply, h]

@[simp] theorem pure_apply (a : α) : (pure a : Program σ ε α) s = some (.ok a, s) := rfl

@[simp] theorem throw_apply (e : ε) : (throw e : Program σ ε α) s = some (.error e, s) := rfl

@[simp] theorem undefined_apply : (undefined : Program σ ε α) s = none := rfl

@[simp] theorem get_bind_apply (f : σ → Program σ ε β) : (get >>= f) s = f s s := rfl

@[simp] theorem modify_apply (g : σ → σ) : (modify g : Program σ ε Unit) s = some (.ok (), g s) :=
  rfl

@[simp] theorem modify_bind_apply (g : σ → σ) (f : Unit → Program σ ε β) :
    (modify g >>= f) s = f () (g s) := rfl

theorem ite_run {c : Prop} [Decidable c] (m m' : Program σ ε α) :
    (if c then m else m') s = if c then m s else m' s := by
  split_ifs <;> rfl

/-- A handler does not run after a value. -/
theorem handle_of_ok {a : α} {h : ε → Program σ ε α} (hm : m s = some (.ok a, t)) :
    handle m h s = some (.ok a, t) := by
  rw [handle, hm]

theorem handle_of_none {h : ε → Program σ ε α} (hm : m s = none) : handle m h s = none := by
  rw [handle, hm]

theorem mapError_of_ok {ε' : Type} {a : α} {g : ε → ε'} (hm : m s = some (.ok a, t)) :
    mapError g m s = some (.ok a, t) := by
  rw [mapError, hm]
  rfl

theorem attempt_of_ok {ε' : Type} {a : α} (hm : m s = some (.ok a, t)) :
    (attempt m : Program σ ε' (Option α)) s = some (.ok (some a), t) := by
  rw [attempt, hm]
  rfl

end Evaluation

/-! ### What a program keeps -/

/-- Whenever the program has an answer, the states before and after it are **related**. -/
def Keeps (R : σ → σ → Prop) (m : Program σ ε α) : Prop :=
  ∀ s r t, m s = some (r, t) → R s t

namespace Keeps

variable {R : σ → σ → Prop} {m m' : Program σ ε α} {f : α → Program σ ε β}

theorem pure [Std.Refl R] (a : α) : Keeps R (Pure.pure a : Program σ ε α) := by
  rintro s r t ⟨⟩
  exact refl s

theorem get [Std.Refl R] : Keeps R (get : Program σ ε σ) := by
  rintro s r t ⟨⟩
  exact refl s

theorem throw [Std.Refl R] (e : ε) : Keeps R (throw e : Program σ ε α) := by
  rintro s r t ⟨⟩
  exact refl s

theorem undefined : Keeps R (undefined : Program σ ε α) := by
  rintro s r t ⟨⟩

theorem modify {g : σ → σ} (h : ∀ s, R s (g s)) : Keeps R (modify g : Program σ ε Unit) := by
  rintro s r t ⟨⟩
  exact h s

/-- **Sequencing**: what both halves keep, the whole keeps. -/
theorem bind [IsTrans σ R] (hm : Keeps R m) (hf : ∀ a, Keeps R (f a)) : Keeps R (m >>= f) := by
  intro s r t h
  rcases bind_eq_some.mp h with ⟨e, -, he⟩ | ⟨a, u, ha, hr⟩
  · exact hm s _ t he
  · exact IsTrans.trans s u t (hm s _ u ha) (hf a u r t hr)

theorem handle [IsTrans σ R] {h : ε → Program σ ε α} (hm : Keeps R m)
    (hh : ∀ e, Keeps R (h e)) : Keeps R (handle m h) := by
  intro s r t heq
  rcases handle_eq_some.mp heq with ⟨a, -, ha⟩ | ⟨e, u, he, hr⟩
  · exact hm s _ t ha
  · exact IsTrans.trans s u t (hm s _ u he) (hh e u r t hr)

theorem ite {c : Prop} [Decidable c] (hm : c → Keeps R m) (hm' : ¬c → Keeps R m') :
    Keeps R (if c then m else m') := by
  split_ifs with hc
  · exact hm hc
  · exact hm' hc

end Keeps

/-! ### How a program ends -/

/-- From `s` the program **has an answer**, and the answer satisfies `Q`. -/
def Ends (m : Program σ ε α) (Q : Except ε α → σ → Prop) (s : σ) : Prop :=
  ∃ r t, m s = some (r, t) ∧ Q r t

section Ends

variable {m : Program σ ε α} {Q Q' : Except ε α → σ → Prop} {s : σ}

theorem Ends.mono (h : Ends m Q s) (hQ : ∀ r t, Q r t → Q' r t) : Ends m Q' s := by
  obtain ⟨r, t, heq, hq⟩ := h
  exact ⟨r, t, heq, hQ r t hq⟩

end Ends

/-! ### Fuel -/

/-- What holds of a recursive call for all fuel from some amount on holds of the caller, which has
one unit more. -/
theorem eventually_succ {p q : ℕ → Prop} (h : ∀ᶠ fuel in Filter.atTop, p fuel)
    (hpq : ∀ fuel, p fuel → q (fuel + 1)) : ∀ᶠ fuel in Filter.atTop, q fuel := by
  obtain ⟨m, hm⟩ := Filter.eventually_atTop.mp h
  refine Filter.eventually_atTop.mpr ⟨m + 1, fun fuel hfuel => ?_⟩
  obtain ⟨k, rfl⟩ := Nat.exists_eq_add_of_le' (Nat.le_of_add_left_le hfuel : 1 ≤ fuel)
  exact hpq k (hm k (Nat.le_of_succ_le_succ hfuel))

end Program
