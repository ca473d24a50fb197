import Mathlib.Data.Finset.Card
import Mathlib.Data.Finset.Filter
import Mathlib.Logic.Relation
import Mathlib.Logic.Function.Basic

/-!
# Depth-first search with marks

A graph is given by the successors of its vertices, and some vertices are goals. The search marks
every vertex that it comes to and passes over those that are marked; it stops at the first goal. The
marks are shared between the branches of the search: what one branch leaves marked the next one
passes over.

* `MarkedSearch.search`: the search, with a bound on the depth. It returns whether it found a goal,
  the marks, and the vertices that it marked, in this order.
* `exists_search`: the bound is enough when it is larger than the number of vertices that are not
  marked, and the search does what it should (`Searches`).
* `Searches.found_iff`: from a clean graph it finds a goal exactly when one is reachable.
-/

namespace MarkedSearch

variable {V : Type*} [DecidableEq V]

/-- What a search returns: whether it found a goal, the marks, and the vertices it marked. -/
structure Result (V : Type*) where
  found : Bool
  marks : V → Bool
  visits : List V

/-- The successors one after the other, until a goal is found. -/
def searchAll (rec : V → (V → Bool) → Option (Result V)) :
    List V → (V → Bool) → Option (Result V)
  | [], marks => some ⟨false, marks, []⟩
  | v :: vs, marks =>
    match rec v marks with
    | none => none
    | some r =>
      if r.found then some r
      else (searchAll rec vs r.marks).map fun r' => { r' with visits := r.visits ++ r'.visits }

/-- **The search**, at most `n` vertices deep. -/
def search (goal : V → Bool) (succ : V → List V) : ℕ → V → (V → Bool) → Option (Result V)
  | 0, _, _ => none
  | n + 1, v, marks =>
    if marks v then some ⟨false, marks, []⟩
    else
      let marks' := Function.update marks v true
      if goal v then some ⟨true, marks', [v]⟩
      else (searchAll (search goal succ n) (succ v) marks').map fun r =>
        { r with visits := v :: r.visits }

variable {goal : V → Bool} {succ : V → List V} {marks marks' : V → Bool} {v x : V} {vs : List V}
  {r : Result V} {n : ℕ}

omit [DecidableEq V] in
/-- It matters only how a search from the successors goes. -/
theorem searchAll_congr {rec rec' : V → (V → Bool) → Option (Result V)}
    (h : ∀ v ∈ vs, ∀ marks, rec v marks = rec' v marks) :
    searchAll rec vs marks = searchAll rec' vs marks := by
  induction vs generalizing marks with
  | nil => rfl
  | cons v vs ih =>
    rw [searchAll, searchAll, h v (by simp)]
    rcases rec' v marks with _ | r
    · rfl
    · simp only [ih fun w hw => h w (by simp [hw])]

/-- The vertices that are reachable from another one. -/
abbrev Reach (succ : V → List V) : V → V → Prop := Relation.ReflTransGen fun x y => y ∈ succ x

/-- **What a search from some vertices has done.** -/
structure Searches (goal : V → Bool) (succ : V → List V) (marks : V → Bool) (vs : List V)
    (r : Result V) : Prop where
  marks_iff : ∀ x, r.marks x = true ↔ marks x = true ∨ x ∈ r.visits
  fresh : ∀ x ∈ r.visits, marks x = false
  nodup : r.visits.Nodup
  reach : ∀ x ∈ r.visits, ∃ v ∈ vs, Reach succ v x
  sound : r.found = true → ∃ x ∈ r.visits, goal x = true
  closed : r.found = false → (∀ v ∈ vs, r.marks v = true) ∧
    ∀ x ∈ r.visits, goal x = false ∧ ∀ y ∈ succ x, r.marks y = true

/-- The number of vertices that are not marked. -/
def unmarked (S : Finset V) (marks : V → Bool) : ℕ := (S.filter fun x => marks x = false).card

omit [DecidableEq V] in
theorem unmarked_mono {S : Finset V} (h : ∀ x, marks x = true → marks' x = true) :
    unmarked S marks' ≤ unmarked S marks := by
  refine Finset.card_le_card fun x hx => ?_
  rw [Finset.mem_filter] at hx ⊢
  refine ⟨hx.1, ?_⟩
  by_contra hcon
  rw [h x (by simpa using hcon)] at hx
  cases hx.2

/-- A new mark leaves fewer vertices. -/
theorem unmarked_update {S : Finset V} (hv : v ∈ S) (hm : marks v = false) :
    unmarked S (Function.update marks v true) < unmarked S marks := by
  refine Finset.card_lt_card ((Finset.ssubset_iff_of_subset fun x hx => ?_).mpr
    ⟨v, by simp [hv, hm], by simp⟩)
  rw [Finset.mem_filter] at hx ⊢
  by_cases hxv : x = v
  · rw [hxv, Function.update_self] at hx
    cases hx.2
  · rwa [Function.update_of_ne hxv] at hx

omit [DecidableEq V] in
theorem Searches.mono (h : Searches goal succ marks vs r) (hx : marks x = true) :
    r.marks x = true := (h.marks_iff x).mpr (Or.inl hx)

omit [DecidableEq V] in
/-- One search behind the other. -/
theorem Searches.append {r' : Result V} (h : Searches goal succ marks [v] r)
    (hfound : r.found = false) (h' : Searches goal succ r.marks vs r') :
    Searches goal succ marks (v :: vs) { r' with visits := r.visits ++ r'.visits } := by
  obtain ⟨hroot, hclosed⟩ := h.closed hfound
  refine ⟨fun x => ?_, fun x hx => ?_, ?_, fun x hx => ?_, fun hr => ?_, fun hr => ⟨?_, ?_⟩⟩
  · rw [h'.marks_iff, h.marks_iff, List.mem_append, or_assoc]
  · rcases List.mem_append.mp hx with hx | hx
    · exact h.fresh x hx
    · have hm := h'.fresh x hx
      by_contra hcon
      rw [h.mono (by simpa using hcon)] at hm
      cases hm
  · refine List.nodup_append.mpr ⟨h.nodup, h'.nodup, ?_⟩
    rintro x hx _ hx' rfl
    have hm := h'.fresh x hx'
    rw [(h.marks_iff x).mpr (Or.inr hx)] at hm
    cases hm
  · rcases List.mem_append.mp hx with hx | hx
    · obtain ⟨w, hw, hreach⟩ := h.reach x hx
      exact ⟨w, by simp [List.mem_singleton.mp hw], hreach⟩
    · obtain ⟨w, hw, hreach⟩ := h'.reach x hx
      exact ⟨w, by simp [hw], hreach⟩
  · obtain ⟨x, hx, hgoal⟩ := h'.sound hr
    exact ⟨x, List.mem_append_right _ hx, hgoal⟩
  · intro w hw
    rcases List.mem_cons.mp hw with rfl | hw
    · exact h'.mono (hroot w (by simp))
    · exact (h'.closed hr).1 w hw
  · intro x hx
    rcases List.mem_append.mp hx with hx | hx
    · exact ⟨(hclosed x hx).1, fun y hy => h'.mono ((hclosed x hx).2 y hy)⟩
    · exact (h'.closed hr).2 x hx

omit [DecidableEq V] in
/-- **The successors are searched** when a search from each of them does what it should. -/
theorem exists_searchAll {rec : V → (V → Bool) → Option (Result V)} {S : Finset V} {m : ℕ}
    (hrec : ∀ v ∈ S, ∀ marks, unmarked S marks ≤ m →
      ∃ r, rec v marks = some r ∧ Searches goal succ marks [v] r)
    (hvs : ∀ v ∈ vs, v ∈ S) (hm : unmarked S marks ≤ m) :
    ∃ r, searchAll rec vs marks = some r ∧ Searches goal succ marks vs r := by
  induction vs generalizing marks with
  | nil => exact ⟨_, rfl, by simp, by simp, List.nodup_nil, by simp, by simp, by simp⟩
  | cons v vs ih =>
    obtain ⟨r, heq, hr⟩ := hrec v (hvs v (by simp)) marks hm
    rw [searchAll, heq]
    by_cases hfound : r.found = true
    · refine ⟨r, if_pos hfound, hr.marks_iff, hr.fresh, hr.nodup, fun x hx => ?_, hr.sound,
        fun hno => ?_⟩
      · obtain ⟨w, hw, hreach⟩ := hr.reach x hx
        exact ⟨w, by simp [List.mem_singleton.mp hw], hreach⟩
      · rw [hfound] at hno
        cases hno
    · obtain ⟨r', heq', hr'⟩ := ih (fun w hw => hvs w (by simp [hw]))
        (le_trans (unmarked_mono fun x => hr.mono (x := x)) hm)
      exact ⟨{ r' with visits := r.visits ++ r'.visits }, by simp only [if_neg hfound, heq']; rfl,
        hr.append (by simpa using hfound) hr'⟩

/-- **The search has an end**, and it does what it should. -/
theorem exists_search {S : Finset V} (hS : ∀ x ∈ S, ∀ y ∈ succ x, y ∈ S) (hv : v ∈ S)
    (hn : unmarked S marks < n) :
    ∃ r, search goal succ n v marks = some r ∧ Searches goal succ marks [v] r := by
  induction n generalizing v marks with
  | zero => omega
  | succ n ih =>
    rw [search]
    by_cases hmark : marks v = true
    · refine ⟨_, if_pos hmark, by simp, by simp, List.nodup_nil, by simp, by simp, fun _ => ?_⟩
      exact ⟨by simpa using hmark, by simp⟩
    have hfalse : marks v = false := by simpa using hmark
    rw [if_neg hmark]
    by_cases hgoal : goal v = true
    · refine ⟨_, if_pos hgoal, fun x => ?_, by simpa using hfalse, List.nodup_singleton v, ?_, ?_,
        by simp⟩
      · by_cases hxv : x = v <;> simp [hxv]
      · exact fun x hx => ⟨v, by simp, by rw [List.mem_singleton.mp hx]⟩
      · exact fun _ => ⟨v, by simp, hgoal⟩
    have hlt := unmarked_update hv hfalse
    obtain ⟨r, heq, hr⟩ := exists_searchAll (m := unmarked S (Function.update marks v true))
      (fun w hw marks' hm => ih hw (by omega)) (hS v hv) le_rfl
    have hself : ∀ x, r.marks x = true ↔ marks x = true ∨ x ∈ v :: r.visits := by
      intro x
      rw [hr.marks_iff, List.mem_cons, ← or_assoc]
      refine or_congr_left ?_
      by_cases hxv : x = v <;> simp [hxv]
    have hvisits : ∀ x ∈ r.visits, x ≠ v ∧ marks x = false := by
      intro x hx
      have hm := hr.fresh x hx
      have hxv : x ≠ v := by
        rintro rfl
        rw [Function.update_self] at hm
        cases hm
      exact ⟨hxv, by rwa [Function.update_of_ne hxv] at hm⟩
    refine ⟨{ r with visits := v :: r.visits }, by simp only [if_neg hgoal, heq]; rfl, hself,
      fun x hx => ?_, ?_, fun x hx => ?_, fun hfound => ?_, fun hfound => ⟨?_, fun x hx => ?_⟩⟩
    · rcases List.mem_cons.mp hx with rfl | hx
      · exact hfalse
      · exact (hvisits x hx).2
    · exact List.nodup_cons.mpr ⟨fun hx => (hvisits v hx).1 rfl, hr.nodup⟩
    · rcases List.mem_cons.mp hx with rfl | hx
      · exact ⟨x, by simp, Relation.ReflTransGen.refl⟩
      · obtain ⟨w, hw, hreach⟩ := hr.reach x hx
        exact ⟨v, by simp, Relation.ReflTransGen.head hw hreach⟩
    · obtain ⟨x, hx, hxgoal⟩ := hr.sound hfound
      exact ⟨x, by simp [hx], hxgoal⟩
    · simpa using (hself v).mpr (Or.inr (by simp))
    · rcases List.mem_cons.mp hx with rfl | hx
      · exact ⟨by simpa using hgoal, (hr.closed hfound).1⟩
      · exact (hr.closed hfound).2 x hx

omit [DecidableEq V] in
/-- **A search of a clean graph** finds a goal exactly when one is reachable. -/
theorem Searches.found_iff (h : Searches goal succ (fun _ => false) [v] r) :
    r.found = true ↔ ∃ x, Reach succ v x ∧ goal x = true := by
  constructor
  · intro hfound
    obtain ⟨x, hx, hgoal⟩ := h.sound hfound
    obtain ⟨w, hw, hreach⟩ := h.reach x hx
    rw [List.mem_singleton.mp hw] at hreach
    exact ⟨x, hreach, hgoal⟩
  · rintro ⟨x, hreach, hgoal⟩
    by_contra hfound
    obtain ⟨hroot, hclosed⟩ := h.closed (by simpa using hfound)
    -- the marked vertices are closed under the successors
    have hmarked : ∀ y, Reach succ v y → y ∈ r.visits := by
      intro y hy
      induction hy with
      | refl => simpa using (h.marks_iff v).mp (hroot v (by simp))
      | tail _ hstep ih => simpa using (h.marks_iff _).mp ((hclosed _ ih).2 _ hstep)
    rw [(hclosed x (hmarked x hreach)).1] at hgoal
    cases hgoal

end MarkedSearch
