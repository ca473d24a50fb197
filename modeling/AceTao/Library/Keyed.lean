import Mathlib.Data.List.Basic
import Mathlib.Data.List.Nodup
import Mathlib.Logic.Function.Basic
import Mathlib.Tactic.SplitIfs

/-!
# Lists with distinct keys

A list whose entries have distinct keys is a finite map. Searching for a key finds the entry
that has it, and operations that change the first entry with a key, as a search through
a linked list does, change all entries with that key: erasing is filtering, and replacing
is mapping.
-/

namespace Keyed

variable {ν κ : Type*} [DecidableEq κ] {key : ν → κ} {l : List ν} {x : ν} {k : κ}

/-- Searching finds the entry that has the key. -/
theorem find?_eq_some (h : (l.map key).Nodup) (hx : x ∈ l) (hk : key x = k) :
    l.find? (fun y => key y = k) = some x := by
  cases hf : l.find? (fun y => key y = k) with
  | none =>
    rw [List.find?_eq_none] at hf
    exact absurd (decide_eq_true hk) (hf x hx)
  | some y =>
    have hy : key y = k := by simpa using List.find?_some hf
    rw [List.inj_on_of_nodup_map h (List.mem_of_find?_eq_some hf) hx (hy.trans hk.symm)]

omit [DecidableEq κ] in
/-- Past the entry with a key, no entry has that key. -/
theorem key_ne_of_nodup_cons (h : ((x :: l).map key).Nodup) (hk : key x = k) :
    ∀ y ∈ l, key y ≠ k := by
  rintro y hy rfl
  rw [List.map_cons, List.nodup_cons, hk] at h
  exact h.1 (List.mem_map_of_mem hy)

/-- Erasing the first entry with a key is filtering. -/
theorem eraseP_eq_filter (h : (l.map key).Nodup) :
    l.eraseP (fun y => key y = k) = l.filter fun y => key y ≠ k := by
  induction l with
  | nil => rfl
  | cons x l ih =>
    by_cases hx : key x = k
    · rw [List.eraseP_cons_of_pos (p := fun y => key y = k) (decide_eq_true hx),
        List.filter_cons_of_neg (by simpa using hx), List.filter_eq_self.mpr]
      exact fun y hy => decide_eq_true (key_ne_of_nodup_cons h hx y hy)
    · rw [List.eraseP_cons_of_neg (by simpa using hx), List.filter_cons_of_pos (by simpa using hx),
        ih (List.nodup_cons.mp h).2]

/-- Erasing takes the entry with the key out. -/
theorem perm_eraseP (h : (l.map key).Nodup) (hx : x ∈ l) :
    l.Perm (x :: l.eraseP fun y => key y = key x) := by
  obtain ⟨y, l₁, l₂, -, hy, hl, he⟩ :=
    List.exists_of_eraseP (p := fun y => decide (key y = key x)) hx (decide_eq_true rfl)
  have hyx : y = x := List.inj_on_of_nodup_map h
    (by rw [hl]; exact List.mem_append_right l₁ (List.mem_cons_self ..)) hx (of_decide_eq_true hy)
  rw [he]
  conv_lhs => rw [hl, hyx]
  exact List.perm_middle

omit [DecidableEq κ] in
/-- Replacing an entry by one with the same key keeps the keys. -/
theorem map_replaceF {p : ν → Option ν} (h : ∀ x y, p x = some y → key y = key x) (l : List ν) :
    (l.replaceF p).map key = l.map key := by
  induction l with
  | nil => rfl
  | cons x l ih =>
    rw [List.replaceF]
    cases hp : p x with
    | none => exact congrArg (key x :: ·) ih
    | some y => rw [List.map_cons, List.map_cons, h x y hp]

/-- Replacing the first entry with a key is mapping. -/
theorem replaceF_eq_map (h : (l.map key).Nodup) (g : ν → ν) :
    l.replaceF (fun y => if key y = k then some (g y) else none)
      = l.map fun y => if key y = k then g y else y := by
  induction l with
  | nil => rfl
  | cons x l ih =>
    rw [List.replaceF, List.map_cons]
    by_cases hx : key x = k
    · rw [if_pos hx, if_pos hx]
      have hid : (l.map fun y => if key y = k then g y else y) = l := by
        conv_rhs => rw [← List.map_id' l]
        exact List.map_congr_left fun y hy => if_neg (key_ne_of_nodup_cons h hx y hy)
      rw [hid]
    · rw [if_neg hx, if_neg hx]
      exact congrArg (x :: ·) (ih (List.nodup_cons.mp h).2)

end Keyed

/-!
## Indexes of a store

A *store* `σ : A → Option V` has records at addresses. A map `m : K → Option A` *indexes* it by a
partial function `f : V → Option K` (`StoreIndex.Indexes`) when the keys that the map has are those
of the records, each with the address of its record. Two records then have different keys.

`StoreIndex.setKey` is a change of a map at a key that may be missing, which is how an index changes
when a record is added or removed (`Indexes.insert`, `Indexes.erase`) or replaced by another
(`Indexes.replace`).
-/

namespace StoreIndex

variable {A V K : Type*}

/-- **An index** of a store. -/
def Indexes (m : K → Option A) (σ : A → Option V) (f : V → Option K) : Prop :=
  ∀ k p, m k = some p ↔ ∃ v, σ p = some v ∧ f v = some k

theorem indexes_empty (f : V → Option K) : Indexes (fun _ : K => none) (fun _ : A => none) f :=
  fun _ _ => iff_of_false nofun (by rintro ⟨v, hv, -⟩; cases hv)

variable {m : K → Option A} {σ : A → Option V} {f : V → Option K} {p : A} {v : V}

/-- The key of a record is bound to its address. -/
theorem Indexes.eq_some (h : Indexes m σ f) (hv : σ p = some v) {k : K} (hk : f v = some k) :
    m k = some p := (h k p).mpr ⟨v, hv, hk⟩

variable [DecidableEq K]

/-- A change at a key that may be missing. -/
def setKey (m : K → Option A) (k : Option K) (a : Option A) : K → Option A :=
  match k with
  | none => m
  | some k => Function.update m k a

@[simp] theorem setKey_none (m : K → Option A) (a : Option A) : setKey m none a = m := rfl

@[simp] theorem setKey_some (m : K → Option A) (k : K) (a : Option A) :
    setKey m (some k) a = Function.update m k a := rfl

/-- What a changed map has at a key. -/
theorem setKey_apply (m : K → Option A) (k : Option K) (a : Option A) (k' : K) :
    setKey m k a k' = if k = some k' then a else m k' := by
  rcases k with _ | k
  · rw [setKey_none, if_neg nofun]
  · rw [setKey_some, Function.update_apply]
    refine if_congr ⟨fun h => congrArg some h.symm, fun h => (Option.some.inj h).symm⟩ rfl rfl

/-- A key that was not bound is bound and unbound. -/
theorem setKey_setKey {k : Option K} (hk : ∀ k', k = some k' → m k' = none) (a : Option A) :
    setKey (setKey m k a) k none = m := by
  funext k'
  rw [setKey_apply, setKey_apply]
  split_ifs with h
  · exact (hk k' h).symm
  · rfl

variable [DecidableEq A]

/-- **A record is added** at a free address, and bound under its key, which is free. -/
theorem Indexes.insert (h : Indexes m σ f) (hp : σ p = none)
    (hkey : ∀ k, f v = some k → m k = none) :
    Indexes (setKey m (f v) (some p)) (Function.update σ p (some v)) f := by
  intro k q
  rw [setKey_apply, Function.update_apply]
  by_cases hk : f v = some k
  · rw [if_pos hk]
    constructor
    · rintro hq
      cases hq
      exact ⟨v, if_pos rfl, hk⟩
    · rintro ⟨w, hw, hwk⟩
      split_ifs at hw with hq
      · rw [hq]
      · have hfree := hkey k hk
        rw [h.eq_some hw hwk] at hfree
        cases hfree
  · rw [if_neg hk, h k q]
    refine exists_congr fun w => and_congr_left fun hwk => ?_
    split_ifs with hq
    · rw [hq, hp]
      refine iff_of_false nofun fun hw => ?_
      exact hk (Option.some.inj hw ▸ hwk)
    · exact Iff.rfl

/-- **A record is removed**, and its key unbound. -/
theorem Indexes.erase (h : Indexes m σ f) (hv : σ p = some v) :
    Indexes (setKey m (f v) none) (Function.update σ p none) f := by
  intro k q
  rw [setKey_apply, Function.update_apply]
  by_cases hk : f v = some k
  · rw [if_pos hk]
    refine iff_of_false nofun ?_
    rintro ⟨w, hw, hwk⟩
    split_ifs at hw with hq
    have hqp := h.eq_some hw hwk
    rw [h.eq_some hv hk] at hqp
    exact hq (Option.some.inj hqp).symm
  · rw [if_neg hk, h k q]
    refine exists_congr fun w => and_congr_left fun hwk => ?_
    split_ifs with hq
    · rw [hq, hv]
      exact iff_of_false (fun hw => hk (Option.some.inj hw ▸ hwk)) nofun
    · exact Iff.rfl

/-- **A record is replaced** by another, which has no key or a free one instead of the key of the
first. -/
theorem Indexes.replace (h : Indexes m σ f) (hv : σ p = some v) {w : V}
    (hkey : ∀ k, f w = some k → setKey m (f v) none k = none) :
    Indexes (setKey (setKey m (f v) none) (f w) (some p)) (Function.update σ p (some w)) f := by
  have hadd := (h.erase hv).insert (Function.update_self p none σ) hkey
  rwa [Function.update_idem] at hadd

/-- A record is replaced by one with the same key. -/
theorem Indexes.replace_same (h : Indexes m σ f) (hv : σ p = some v) {w : V} (hvw : f w = f v) :
    Indexes m (Function.update σ p (some w)) f := by
  have hadd := h.replace hv (w := w) fun k hk => by
    rw [setKey_apply, if_pos (hvw ▸ hk)]
  have hset : setKey (setKey m (f v) none) (f w) (some p) = m := by
    funext k
    rw [setKey_apply, setKey_apply, hvw]
    split_ifs with hk
    · exact (h.eq_some hv hk).symm
    · rfl
  rwa [hset] at hadd

end StoreIndex
