import AceTao.ObjectAdapter.Tree
import Mathlib.Data.List.DropRight

/-!
# Looking for a persistent POA

A POA found by its hint or by its name is the one that was asked for. The way down the tree does not
ask whether the POA at its end is persistent, as `find_transient_poa` does, and an iterator that
stands on the last separator and has no other before it goes straight to the end: what follows the
last separator is never looked at. So the way leads to the POA with the name that is left without
that (`terminated`), as `activateLoop_spec` says, and a lookup is exact (`FindsExactly`) where the
name is bound or this POA is as it should be (`Suits`, `findsExactly_of_suits`).
-/

namespace AceTao

namespace ObjectAdapter

open Program (bind_eq_some Keeps get_bind_apply)

variable {c : AdapterConfig} {s t u : ObjectAdapter} {Good : PoaName → Bool → Prop}

/-! ### The components of a name -/

/-- **The part of a name that is terminated** by a separator. -/
def terminated (name : PoaName) : PoaName := name.rdropWhile (· != nameSeparator)

theorem terminated_append {done rest : PoaName} (hdone : ∃ d, done = d ++ [nameSeparator])
    (hrest : nameSeparator ∉ rest) : terminated (done ++ rest) = done := by
  obtain ⟨d, rfl⟩ := hdone
  induction rest using List.reverseRecOn with
  | nil =>
    rw [List.append_nil, terminated, List.rdropWhile_concat_neg]
    simp
  | append_singleton rest x ih =>
    rw [List.mem_append, not_or, List.mem_singleton] at hrest
    rw [terminated, ← List.append_assoc, List.rdropWhile_concat_pos]
    · exact ih hrest.1
    · simpa using fun h => hrest.2 h.symm

/-- **The iterator is on the first component** of `rest`, and the components of `done` are behind
it. -/
structure AtComponent (it : PoaNameIterator) (done rest : PoaName) : Prop where
  buffer : it.foldedBuffer = done ++ rest
  lastSeparator : it.lastSeparator = (done.length + (2 ^ 32 - 1)) % 2 ^ 32
  position : it.position = done.length + rest.findIdx (· == nameSeparator)

theorem atComponent_start (name : PoaName) : AtComponent (PoaNameIterator.start name) [] name where
  buffer := rfl
  lastSeparator := rfl
  position := by
    have hzero : (2 ^ 32 - 1 + 1) % 2 ^ 32 = 0 := by norm_num
    rw [PoaNameIterator.start, PoaNameIterator.next]
    dsimp only
    rw [hzero]
    rfl

/-- A name has a first component that is followed by a separator, or it has no separator. -/
theorem exists_component (rest : PoaName) : (nameSeparator ∉ rest ∧
      rest.findIdx (· == nameSeparator) = rest.length) ∨
    ∃ comp rest', rest = comp ++ nameSeparator :: rest' ∧
      rest.findIdx (· == nameSeparator) = comp.length := by
  by_cases hmem : nameSeparator ∈ rest
  · obtain ⟨comp, rest', rfl, hcomp⟩ := List.eq_append_cons_of_mem hmem
    refine Or.inr ⟨comp, rest', rfl, ?_⟩
    have hnone : comp.findIdx (· == nameSeparator) = comp.length :=
      List.findIdx_eq_length_of_false fun x hx => by
        rw [beq_eq_false_iff_ne]
        rintro rfl
        exact hcomp hx
    rw [List.findIdx_append, if_neg (by simpa using hcomp)]
    simp [List.findIdx_cons]
  · refine Or.inl ⟨hmem, List.findIdx_eq_length_of_false fun x hx => ?_⟩
    rw [beq_eq_false_iff_ne]
    rintro rfl
    exact hmem hx

theorem component_eq {it : PoaNameIterator} {done rest : PoaName} (h : AtComponent it done rest)
    (hlen : (done ++ rest).length < 2 ^ 32) :
    it.component = some (rest.take (rest.findIdx (· == nameSeparator))) := by
  have hidx := @List.findIdx_le_length _ (· == nameSeparator) rest
  rw [List.length_append] at hlen
  have hstart : (it.lastSeparator + 1) % 2 ^ 32 = done.length := by
    rw [h.lastSeparator]
    omega
  have hcount : (((it.position : ℤ) - it.lastSeparator - 1) % 2 ^ 32).toNat =
      rest.findIdx (· == nameSeparator) := by
    rw [h.lastSeparator, h.position]
    omega
  rw [PoaNameIterator.component, hstart, hcount, h.buffer, Poa.readOctets, List.drop_left,
    if_pos (Or.inr (by rw [List.length_append]; omega))]

/-- **Behind a component** and its separator. -/
theorem AtComponent.next {it : PoaNameIterator} {done comp rest : PoaName}
    (h : AtComponent it done (comp ++ nameSeparator :: rest))
    (hcomp : (comp ++ nameSeparator :: rest).findIdx (· == nameSeparator) = comp.length)
    (hlen : (done ++ (comp ++ nameSeparator :: rest)).length < 2 ^ 32) :
    AtComponent it.next (done ++ comp ++ [nameSeparator]) rest := by
  have hbuffer : done ++ (comp ++ nameSeparator :: rest) =
      done ++ comp ++ [nameSeparator] ++ rest := by simp
  have hsize : (done ++ comp ++ [nameSeparator]).length = done.length + comp.length + 1 := by
    rw [List.length_append, List.length_append]
    rfl
  rw [hbuffer, List.length_append, hsize] at hlen
  have hposition : it.position = done.length + comp.length := by rw [h.position, hcomp]
  have hstart : (it.position + 1) % 2 ^ 32 = (done ++ comp ++ [nameSeparator]).length := by
    rw [hposition, hsize]
    omega
  refine ⟨h.buffer.trans hbuffer, ?_, ?_⟩
  · rw [PoaNameIterator.next, hsize]
    dsimp only
    rw [hposition]
    omega
  · rw [PoaNameIterator.next, h.buffer, hbuffer]
    dsimp only
    rw [hstart, List.drop_left]

/-- **The iterator is past the end**, and does not get back to it. -/
structure PastEnd (it : PoaNameIterator) : Prop where
  size : it.foldedBuffer.length < it.position
  lastSeparator : it.lastSeparator + 1 = it.position

theorem PastEnd.component {it : PoaNameIterator} (h : PastEnd it) :
    it.component = some [] := by
  have hcount : (((it.position : ℤ) - it.lastSeparator - 1) % 2 ^ 32).toNat = 0 := by
    have hlast := h.lastSeparator
    omega
  rw [PoaNameIterator.component, hcount, Poa.readOctets, if_pos (Or.inl rfl), List.take_zero]

theorem next_of_size_le {it : PoaNameIterator} (h : it.foldedBuffer.length ≤ it.position)
    (hpos : it.position + 1 < 2 ^ 32) : PastEnd it.next ∧ it.next.position = it.position + 1 := by
  have hnext : it.next.position = it.position + 1 := by
    rw [PoaNameIterator.next]
    dsimp only
    rw [Nat.mod_eq_of_lt hpos, List.drop_eq_nil_of_le (Nat.le_succ_of_le h), List.findIdx_nil]
  refine ⟨⟨?_, ?_⟩, hnext⟩
  · rw [hnext]
    exact Nat.lt_succ_of_le h
  · exact hnext.symm

/-! ### One component -/

/-- What is asked of the operations in the upcalls that are left. -/
def Upcalls (c : AdapterConfig) (Good : PoaName → Bool → Prop) (s : ObjectAdapter)
    (upcalls : List Upcall) : Prop :=
  Machine.Guarded (step c) (Creates Good) s (upcalls.flatMap Upcall.ops)

theorem during_spec {ops : List PoaOp} {r : Except AdapterException Unit}
    (h : during c ops s = some (r, t)) (hs : Inv c s)
    (hgood : Machine.Guarded (step c) (Creates Good) s ops) :
    r = .ok () ∧ Inv c t ∧ Extends Good s t ∧ ∃ os, Machine.run (step c) s ops = some (t, os) := by
  obtain ⟨⟨u, os⟩, hrun, heq⟩ := Option.map_eq_some_iff.mp h
  cases heq
  obtain ⟨ht, hext⟩ := run_advances hrun hs hgood
  exact ⟨rfl, ht, hext, os, hrun⟩

/-- **What `find_POA_i` does**: the POA that it returns is a child of the POA. -/
structure FindsChild (c : AdapterConfig) (Good : PoaName → Bool → Prop) (poa : ℕ)
    (childName : PoaName) (s : ObjectAdapter) (r : Except AdapterException (ℕ × List Upcall))
    (t : ObjectAdapter) : Prop where
  inv : Inv c t
  extend : Extends Good s t
  inside : r ≠ .error .outside
  child : ∀ i upcalls, r = .ok (i, upcalls) → Upcalls c Good t upcalls ∧
    ∃ p : RootPoa, t.poas[poa]? = some p ∧ (childName, i) ∈ p.children

theorem mem_of_lookup {name : PoaName} {i : ℕ} {l : List (PoaName × ℕ)}
    (h : l.lookup name = some i) : (name, i) ∈ l := by
  induction l with
  | nil => cases h
  | cons entry l ih =>
    obtain ⟨k, v⟩ := entry
    rw [List.lookup_cons] at h
    cases hk : name == k with
    | true =>
      rw [hk] at h
      cases h
      rw [eq_of_beq hk]
      exact List.mem_cons_self ..
    | false =>
      rw [hk] at h
      exact List.mem_cons_of_mem _ (ih h)

theorem findChild_eq_some {childName : PoaName} {poa : ℕ}
    {r : Except AdapterException (Option ℕ)} (h : findChild childName poa s = some (r, t)) :
    t = s ∧ ∃ child, r = .ok child ∧ ∀ i, child = some i →
      ∃ p : RootPoa, s.poas[poa]? = some p ∧ (childName, i) ∈ p.children := by
  obtain ⟨p, hp, hrest⟩ := poaAt_bind h
  cases hrest
  exact ⟨rfl, _, rfl, fun i hi => ⟨p, hp, mem_of_lookup hi⟩⟩

theorem findPoaI_spec {childName : PoaName} {poa : ℕ} {upcalls : List Upcall}
    {r : Except AdapterException (ℕ × List Upcall)}
    (h : findPoaI c childName poa upcalls s = some (r, t)) (hs : Inv c s)
    (hup : Upcalls c Good s upcalls) : FindsChild c Good poa childName s r t := by
  obtain ⟨_, -, hfind⟩ | ⟨child, u, hfind, hrest⟩ := bind_eq_some.mp h
  · obtain ⟨-, _, hok, -⟩ := findChild_eq_some hfind
    cases hok
  obtain ⟨rfl, _, hok, hchild⟩ := findChild_eq_some hfind
  cases hok
  match child, upcalls with
  | some child, upcalls =>
    cases hrest
    refine ⟨hs, .refl _, nofun, fun i ups hi => ?_⟩
    cases hi
    exact ⟨hup, hchild _ rfl⟩
  | none, [] =>
    cases hrest
    exact ⟨hs, .refl _, nofun, nofun⟩
  | none, upcall :: upcalls =>
    obtain ⟨hops, hleft⟩ := Machine.Guarded.of_append hup
    obtain ⟨_, -, hduring⟩ | ⟨_, v, hduring, hrest⟩ := bind_eq_some.mp hrest
    · obtain ⟨hok, -⟩ := during_spec hduring hs hops
      cases hok
    obtain ⟨-, hv, hext, os, hrun⟩ := during_spec hduring hs hops
    rcases hsuccess : upcall.success with _ | success
    · rw [hsuccess] at hrest
      cases hrest
      exact ⟨hv, hext, nofun, nofun⟩
    rw [hsuccess] at hrest
    cases success with
    | false =>
      cases hrest
      exact ⟨hv, hext, nofun, nofun⟩
    | true =>
      obtain ⟨_, -, hfind'⟩ | ⟨child, w, hfind', hrest⟩ := bind_eq_some.mp hrest
      · obtain ⟨-, _, hok, -⟩ := findChild_eq_some hfind'
        cases hok
      obtain ⟨rfl, _, hok, hchild⟩ := findChild_eq_some hfind'
      cases hok
      cases child with
      | none =>
        cases hrest
        exact ⟨hv, hext, nofun, nofun⟩
      | some child =>
        cases hrest
        refine ⟨hv, hext, nofun, fun i ups hi => ?_⟩
        cases hi
        exact ⟨hleft _ os hrun, hchild _ rfl⟩

/-! ### The way down the tree -/

/-- **Where the way down from `s` can lead**: to a POA that was created on the way, or to one of the
tree. -/
def OnTheWay (s : ObjectAdapter) (poa : ℕ) : Prop := s.poas[poa]? ≠ none → Reached s poa

/-- A child of a POA on the way. -/
theorem OnTheWay.child {poa i : ℕ} {name : PoaName} {p : RootPoa} (h : OnTheWay s poa)
    (hext : Extends Good s t) (hp : t.poas[poa]? = some p) (hmem : (name, i) ∈ p.children) :
    OnTheWay s i := by
  intro hi
  obtain ⟨q, hq, hmem'⟩ := hext.children poa p name i hp hmem hi
  exact .child (h (by rw [hq]; nofun)) hq hmem'

/-- **What the loop of `activate_poa` finds**, from `s` on. -/
structure FindsNamed (Good : PoaName → Bool → Prop) (s : ObjectAdapter)
    (foldedName : PoaName) (r : Except AdapterException ℕ) (t : ObjectAdapter) : Prop where
  extend : Extends Good s t
  inside : r ≠ .error .outside
  named : ∀ poa, r = .ok poa → OnTheWay s poa ∧
    ∃ p : RootPoa, t.poas[poa]? = some p ∧ p.foldedName = foldedName

/-- One turn of the loop. -/
theorem activateLoop_succ {fuel poa : ℕ} {it : PoaNameIterator} {upcalls : List Upcall}
    {comp : PoaName} {r : Except AdapterException ℕ} {p : RootPoa} {u : ObjectAdapter}
    (h : activateLoop c (fuel + 1) it upcalls poa t = some (r, u)) (ht : Inv c t)
    (hext : Extends Good s t) (hup : Upcalls c Good t upcalls)
    (hne : it.position ≠ it.foldedBuffer.length) (hcomp : it.component = some comp)
    (hp : t.poas[poa]? = some p) (hway : OnTheWay s poa) :
    (∃ e, r = .error e ∧ e ≠ .outside ∧ Extends Good s u) ∨
      ∃ v upcalls' i, activateLoop c fuel it.next upcalls' i v = some (r, u) ∧ Inv c v ∧
        Extends Good s v ∧ Upcalls c Good v upcalls' ∧ OnTheWay s i ∧
        ∃ q : RootPoa, v.poas[i]? = some q ∧ q.foldedName = foldName p.foldedName comp := by
  rw [activateLoop, if_neg hne, hcomp, ofRead_bind] at h
  obtain ⟨e, rfl, hfind⟩ | ⟨⟨i, upcalls'⟩, v, hfind, hrest⟩ := bind_eq_some.mp h
  · have hchild := findPoaI_spec hfind ht hup
    refine Or.inl ⟨e, rfl, ?_, hext.trans hchild.extend⟩
    rintro rfl
    exact hchild.inside rfl
  · have hchild := findPoaI_spec hfind ht hup
    obtain ⟨hup', q, hq, hmem⟩ := hchild.child i upcalls' rfl
    obtain ⟨q', hq', hsame⟩ := hchild.extend.old poa p hp
    obtain rfl : q' = q := Option.some.inj (hq'.symm.trans hq)
    obtain ⟨child, hi, hfolded⟩ := hchild.inv.child poa q' comp i hq hmem
    rw [hsame.foldedName] at hfolded
    have hext' := hext.trans hchild.extend
    exact Or.inr ⟨v, upcalls', i, hrest, hchild.inv, hext', hup', hway.child hext' hq hmem, child,
      hi, hfolded⟩

/-- **Past the end** nothing is found: the names of the POAs grow as fast as the position. -/
theorem activateLoop_pastEnd (fuel : ℕ) : ∀ {it : PoaNameIterator} {upcalls : List Upcall}
    {poa : ℕ} {t u : ObjectAdapter} {r : Except AdapterException ℕ} {p : RootPoa},
    activateLoop c fuel it upcalls poa t = some (r, u) → Inv c t → Extends Good s t →
    Upcalls c Good t upcalls → PastEnd it → t.poas[poa]? = some p →
    it.position ≤ p.foldedName.length → OnTheWay s poa →
    ∃ e, r = .error e ∧ e ≠ .outside ∧ Extends Good s u := by
  induction fuel with
  | zero =>
    intro it upcalls poa t u r p h
    cases h
  | succ fuel ih =>
    intro it upcalls poa t u r p h ht hext hup hit hp hlen hway
    rcases activateLoop_succ h ht hext hup hit.size.ne' hit.component hp hway with
      herr | ⟨v, upcalls', i, hrest, hv, hsv, hup', hway', q, hq, hfolded⟩
    · exact herr
    · have hsize : q.foldedName.length = p.foldedName.length + 1 := by
        rw [hfolded, foldName, List.append_nil, List.length_append]
        rfl
      have hlt := hv.length i q hq
      obtain ⟨hnext, hposition⟩ := next_of_size_le hit.size.le (by omega)
      exact ih hrest hv hsv hup' hnext hq (by omega) hway'

/-- **The way down the tree** leads to the POA whose name is the part that is terminated. -/
theorem activateLoop_spec (fuel : ℕ) : ∀ {it : PoaNameIterator} {upcalls : List Upcall} {poa : ℕ}
    {t u : ObjectAdapter} {r : Except AdapterException ℕ} {p : RootPoa} {rest : PoaName},
    activateLoop c fuel it upcalls poa t = some (r, u) → Inv c t → Extends Good s t →
    Upcalls c Good t upcalls → AtComponent it p.foldedName rest →
    (p.foldedName ++ rest).length < 2 ^ 32 → t.poas[poa]? = some p →
    (∃ d, p.foldedName = d ++ [nameSeparator]) → OnTheWay s poa →
    FindsNamed Good s (terminated (p.foldedName ++ rest)) r u := by
  induction fuel with
  | zero =>
    intro it upcalls poa t u r p rest h
    cases h
  | succ fuel ih =>
    intro it upcalls poa t u r p rest h ht hext hup hit hlen hp hdone hway
    rcases exists_component rest with ⟨hmem, hidx⟩ | ⟨comp, rest, rfl, hidx⟩
    · have hend : it.position = it.foldedBuffer.length := by
        rw [hit.position, hit.buffer, hidx, List.length_append]
      rw [activateLoop, if_pos hend] at h
      cases h
      refine ⟨hext, nofun, fun i hi => ?_⟩
      cases hi
      exact ⟨hway, p, hp, (terminated_append hdone hmem).symm⟩
    · have hne : it.position ≠ it.foldedBuffer.length := by
        rw [hit.position, hit.buffer, hidx, List.length_append, List.length_append,
          List.length_cons]
        omega
      have hcomp : it.component = some comp := by
        rw [component_eq hit hlen, hidx, List.take_left]
      rcases activateLoop_succ h ht hext hup hne hcomp hp hway with
        ⟨e, rfl, he, hsu⟩ | ⟨v, upcalls', i, hrest, hv, hsv, hup', hway', q, hq, hfolded⟩
      · exact ⟨hsu, fun heq => he (Except.error.inj heq), nofun⟩
      · have hnext := hit.next hidx hlen
        have hname : p.foldedName ++ (comp ++ nameSeparator :: rest) = q.foldedName ++ rest := by
          rw [hfolded, foldName]
          simp
        rw [hname] at hlen ⊢
        rw [← foldName, ← hfolded] at hnext
        exact ih hrest hv hsv hup' hnext hlen hq ⟨_, hfolded⟩ hway'

/-! ### The lookup -/

/-- **What `activate_poa` finds**, from `s` on. -/
structure FindsOnTheWay (Good : PoaName → Bool → Prop) (s : ObjectAdapter) (foldedName : PoaName)
    (r : Except AdapterException (Option ℕ)) (t : ObjectAdapter) : Prop where
  inside : r ≠ .error .outside
  named : ∀ poa, r = .ok (some poa) → Extends Good s t ∧ OnTheWay s poa ∧
    ∃ p : RootPoa, t.poas[poa]? = some p ∧ p.foldedName = foldedName

theorem FindsOnTheWay.of_throw {foldedName : PoaName} {e : AdapterException} (he : e ≠ .outside) :
    FindsOnTheWay Good s foldedName (.error e) t := by
  refine ⟨?_, nofun⟩
  rintro ⟨⟩
  exact he rfl

/-- The loop, once the root has been found to have the first component as its name. -/
theorem activateLoop_root {fuel root : ℕ} {upcalls : List Upcall} {foldedName : PoaName}
    {r : Except AdapterException ℕ} {p : RootPoa}
    (h : activateLoop c fuel (PoaNameIterator.start foldedName).next upcalls root s = some (r, t))
    (hs : Inv c s) (hlen : foldedName.length < 2 ^ 32) (hup : Upcalls c Good s upcalls)
    (hroot : s.root = some root) (hp : s.poas[root]? = some p)
    (hfolded : p.foldedName = foldName [] p.name)
    (hname : p.name = foldedName.take (foldedName.findIdx (· == nameSeparator))) :
    FindsNamed Good s (terminated foldedName) r t := by
  have hstart := atComponent_start foldedName
  have hway : OnTheWay s root := fun _ => .root hroot
  rcases exists_component foldedName with ⟨-, hidx⟩ | ⟨comp, rest, rfl, hidx⟩
  · -- there is no separator: the iterator goes past the end
    rw [hidx, List.take_length] at hname
    have hposition : (PoaNameIterator.start foldedName).position = foldedName.length := by
      rw [hstart.position, hidx]
      exact Nat.zero_add _
    have hsize : p.foldedName.length = foldedName.length + 1 := by
      rw [hfolded, hname, foldName, List.nil_append, List.length_append]
      rfl
    have hlt := hs.length root p hp
    have hpos : (PoaNameIterator.start foldedName).position + 1 < 2 ^ 32 := by omega
    obtain ⟨hpast, hnext⟩ := next_of_size_le (Nat.le_of_eq hposition.symm) hpos
    obtain ⟨e, rfl, he, hext⟩ := activateLoop_pastEnd fuel h hs (.refl s) hup hpast hp
      (by omega) hway
    exact ⟨hext, fun heq => he (Except.error.inj heq), nofun⟩
  · rw [hidx, List.take_left] at hname
    have hnext := hstart.next hidx hlen
    have hdone : [] ++ comp ++ [nameSeparator] = p.foldedName := by rw [hfolded, hname, foldName]
    have hwhole : comp ++ nameSeparator :: rest = p.foldedName ++ rest := by
      rw [← hdone]
      simp
    rw [hdone] at hnext
    rw [hwhole] at hlen ⊢
    exact activateLoop_spec fuel h hs (.refl s) hup (hwhole ▸ hnext) hlen hp ⟨_, hdone.symm⟩ hway

theorem activatePoa_spec {fuel : ℕ} {upcalls : List Upcall} {foldedName : PoaName}
    {r : Except AdapterException (Option ℕ)}
    (h : activatePoa c fuel upcalls foldedName s = some (r, t)) (hs : Inv c s)
    (hlen : foldedName.length < 2 ^ 32) (hup : Upcalls c Good s upcalls) :
    FindsOnTheWay Good s (terminated foldedName) r t := by
  rw [activatePoa, get_bind_apply, component_eq (atComponent_start foldedName) hlen,
    ofRead_bind] at h
  rcases hroot : s.root with _ | root
  · rw [hroot] at h
    cases h
    exact .of_throw nofun
  rw [hroot] at h
  obtain ⟨p, hq, hrest⟩ := poaAt_bind h
  split_ifs at hrest with hname
  · cases hrest
    exact .of_throw nofun
  obtain ⟨p', hp', hpname, hpfolded⟩ := hs.root root hroot
  obtain rfl : p' = p := Option.some.inj (hp'.symm.trans hq)
  have hloop : ∀ {r' w}, activateLoop c fuel (PoaNameIterator.start foldedName).next upcalls root s
      = some (r', w) → FindsNamed Good s (terminated foldedName) r' w := fun h' =>
    activateLoop_root h' hs hlen hup hroot hq (hpname ▸ hpfolded) (not_not.mp hname)
  obtain ⟨a, rfl, hmap⟩ | ⟨e, w, hmap, hhandler⟩ := Program.handle_eq_some.mp hrest
  · obtain ⟨poa, w, hfound, hpure⟩ := Program.bind_eq_ok.mp hmap
    cases hpure
    have hnamed := hloop hfound
    refine ⟨nofun, fun i hi => ?_⟩
    cases hi
    exact ⟨hnamed.extend, hnamed.named _ rfl⟩
  · obtain ⟨e', he', hfailed⟩ | ⟨_, _, -, hpure⟩ := bind_eq_some.mp hmap
    · cases he'
      split_ifs at hhandler with hcaught
      · cases hhandler
        exact ⟨nofun, nofun⟩
      · cases hhandler
        exact .of_throw fun he => (hloop hfailed).inside (congrArg _ he)
    · cases hpure

/-- The name that a persistent lookup is for. -/
def requestedName (c : AdapterConfig) (systemName : PoaName) : PoaName :=
  if c.useActiveHintInPoaNames then systemName.drop Poa.activeKeySize else systemName

/-- **An exact lookup** stays inside what it may read, and the POA that it finds is persistent and
has the requested name. -/
structure FindsExactly (c : AdapterConfig) (systemName : PoaName)
    (r : Except AdapterException (Option ℕ)) (t : ObjectAdapter) : Prop where
  inside : r ≠ .error .outside
  exact : ∀ poa, r = .ok (some poa) → ∃ p : RootPoa, t.poas[poa]? = some p ∧
    p.persistent = true ∧ p.foldedName = requestedName c systemName

/-- What is asked of a POA with the name that is left of the requested one. -/
def Fits (requested foldedName : PoaName) (persistent : Bool) : Prop :=
  foldedName = terminated requested → persistent = true ∧ foldedName = requested

/-- **Where a lookup is exact**: a hint is complete and does not point behind the array, and the
name is bound, or the POA of the tree with what is left of the name, if there is one, or one that is
created during the lookup, is persistent and has all of the name. -/
structure Suits (c : AdapterConfig) (s : ObjectAdapter) (upcalls : List Upcall)
    (systemName : PoaName) : Prop where
  hint : c.useActiveHintInPoaNames = true → Poa.activeKeySize ≤ systemName.length ∧
    ∀ key, decodeKey systemName = some key → key.slotIndex ≠ s.persistentPoaSystemMap.totalSize
  tree : (s.persistentPoaNameMap.lookup (requestedName c systemName)).isSome = true ∨
    (∀ (poa : ℕ) (p : RootPoa), Reached s poa → s.poas[poa]? = some p →
      Fits (requestedName c systemName) p.foldedName p.persistent) ∧
    Upcalls c (Fits (requestedName c systemName)) s upcalls

/-- The name, and then the tree. -/
theorem findByName_spec {fuel : ℕ} {upcalls : List Upcall} {systemName : PoaName}
    {r : Except AdapterException (Option ℕ)}
    (h : findByName c fuel upcalls (requestedName c systemName) s = some (r, t)) (hs : Inv c s)
    (hlen : systemName.length < 2 ^ 32) (hsuits : Suits c s upcalls systemName) :
    FindsExactly c systemName r t := by
  have hlen' : (requestedName c systemName).length < 2 ^ 32 := by
    rw [requestedName]
    split_ifs
    · rw [List.length_drop]
      omega
    · exact hlen
  rw [findByName, get_bind_apply] at h
  rcases hlookup : s.persistentPoaNameMap.lookup (requestedName c systemName) with _ | poa
  · rw [hlookup] at h
    obtain ⟨htree, hup⟩ := hsuits.tree.resolve_left (by rw [hlookup]; nofun)
    have hway := activatePoa_spec h hs hlen' hup
    refine ⟨hway.inside, fun poa hpoa => ?_⟩
    obtain ⟨hext, hon, p, hp, hname⟩ := hway.named poa hpoa
    rcases hold : s.poas[poa]? with _ | q
    · obtain ⟨hpers, hfolded⟩ := hext.new poa p hp hold hname
      exact ⟨p, hp, hpers, hfolded⟩
    · obtain ⟨p', hp', hsame⟩ := hext.old poa q hold
      obtain rfl : p' = p := Option.some.inj (hp'.symm.trans hp)
      obtain ⟨hpers, hfolded⟩ := htree poa q (hon (by rw [hold]; nofun)) hold
        (hsame.foldedName.symm.trans hname)
      exact ⟨p', hp, hsame.persistent.trans hpers, hsame.foldedName.trans hfolded⟩
  · rw [hlookup] at h
    cases h
    refine ⟨nofun, fun i hi => ?_⟩
    cases hi
    exact hs.nameMap _ _ (mem_of_lookup hlookup)

theorem findByHint_spec {systemName : PoaName} {r : Except AdapterException (Option ℕ)}
    (h : findByHint c systemName s = some (r, t)) (hs : Inv c s)
    (hhint : c.useActiveHintInPoaNames = true) (hsize : Poa.activeKeySize ≤ systemName.length)
    (hkey : ∀ key, decodeKey systemName = some key →
      key.slotIndex ≠ s.persistentPoaSystemMap.totalSize) :
    t = s ∧ ∃ found, r = .ok found ∧ ∀ poa, found = some poa →
      ∃ p : RootPoa, s.poas[poa]? = some p ∧ p.persistent = true := by
  obtain ⟨key, hdecode⟩ : ∃ key, decodeKey systemName = some key := by
    rw [decodeKey, Poa.readOctets, if_pos (Or.inr (by rwa [Nat.zero_add]))]
    exact ⟨_, rfl⟩
  obtain ⟨L, hholds, hL⟩ := hs.systemMap hhint
  rw [findByHint, get_bind_apply, hdecode, ofRead_bind] at h
  have hfound : ∃ entry, s.persistentPoaSystemMap.find c.lazyMap key = some entry ∧
      ∀ e, entry = some e → L.value key = some e.intId := by
    rcases hholds.find (hkey key hdecode) with ⟨e, -, hfind, hvalue, -⟩ | ⟨hfind, -⟩
    · refine ⟨_, hfind, fun e' he' => ?_⟩
      cases he'
      exact hvalue
    · exact ⟨_, hfind, fun _ h => by cases h⟩
  obtain ⟨entry, hfind, hentry⟩ := hfound
  rw [hfind, ofRead_bind] at h
  cases h
  refine ⟨rfl, _, rfl, fun poa hpoa => ?_⟩
  obtain ⟨e, rfl, rfl⟩ := Option.map_eq_some_iff.mp hpoa
  exact hL key _ (hentry e rfl)

theorem findPersistentPoa_spec {fuel : ℕ} {upcalls : List Upcall} {systemName : PoaName}
    {r : Except AdapterException (Option ℕ)}
    (h : findPersistentPoa c fuel upcalls systemName s = some (r, t)) (hs : Inv c s)
    (hlen : systemName.length < 2 ^ 32) (hsuits : Suits c s upcalls systemName) :
    FindsExactly c systemName r t := by
  by_cases hhint : c.useActiveHintInPoaNames = true
  · obtain ⟨hsize, hkey⟩ := hsuits.hint hhint
    have hrequested : requestedName c systemName = systemName.drop Poa.activeKeySize :=
      if_pos hhint
    have hsub : Poa.subULong systemName.length Poa.activeKeySize =
        systemName.length - Poa.activeKeySize := by
      rw [Poa.subULong]
      rw [Poa.activeKeySize] at hsize ⊢
      omega
    have hrecover : recoverKey systemName = some (requestedName c systemName) := by
      rw [recoverKey, hsub, Poa.readOctets, if_pos (Or.inr (by omega)), hrequested,
        List.take_of_length_le (by rw [List.length_drop])]
    rw [findPersistentPoa, if_pos hhint, hrecover, ofRead_bind] at h
    obtain ⟨e, -, hfind⟩ | ⟨hinted, v, hfind, hrest⟩ := bind_eq_some.mp h
    · obtain ⟨-, _, hok, -⟩ := findByHint_spec hfind hs hhint hsize hkey
      cases hok
    obtain ⟨rfl, _, hok, hvalue⟩ := findByHint_spec hfind hs hhint hsize hkey
    cases hok
    cases hinted with
    | none => exact findByName_spec hrest hs hlen hsuits
    | some poa =>
      obtain ⟨p, hp, hpers⟩ := hvalue poa rfl
      obtain ⟨p', hq, hlast⟩ := poaAt_bind hrest
      obtain rfl : p = p' := Option.some.inj (hp.symm.trans hq)
      split_ifs at hlast with hname
      · cases hlast
        refine ⟨(fun h => by cases h), fun i hi => ?_⟩
        cases hi
        exact ⟨p, hp, hpers, hname.symm⟩
      · exact findByName_spec hlast hs hlen hsuits
  · have hrequested : requestedName c systemName = systemName := if_neg hhint
    rw [findPersistentPoa, if_neg hhint] at h
    exact findByName_spec (hrequested.symm ▸ h) hs hlen hsuits

section Example

/-- All there is to be had. -/
def plenty : Resources := ⟨true, true, true, true⟩

def withoutHints : AdapterConfig := ⟨false, 24, false⟩

/-- `"RootPOA\0A\0"`: the name of the child `"A"` of the root. -/
def nameOfA : PoaName := foldName (foldName [] rootPoaName) [65]

end Example

end ObjectAdapter

end AceTao
