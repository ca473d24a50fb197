import AceTao.Tokens.TokenManager

/-!
# Deadlock detection

In a well formed manager the recursion of `check_deadlock` is a depth-first search of the graph of
the tokens and those that their owners wait for (`check_eq_search`). So it has an end on every
graph, it visits no token twice, and it finds a deadlock exactly when there is one, provided that
each client waits for at most one token (`checkDeadlock_spec`): `token_waiting_for` returns the
first.
-/

namespace AceTao.Tokens

open MarkedSearch

variable {E P C N T : Type} [Fintype E] [Fintype P] [DecidableEq C] [DecidableEq T]

namespace TokenManager

section Search

variable (k : Clients E P C) (m : TokenManager E P N T)

/-- Whether a client waits at an address. -/
def waitsAt (c : C) (a : T) : Bool :=
  match m.object a with
  | none => false
  | some o => o.token.WaitsFor k.proxies c

/-- The first token of the collection that the client waits for. -/
def waitedFor (c : C) : Option T := (m.collection.map Prod.snd).find? (m.waitsAt k c)

/-- The goals of the search: the tokens that the client owns. -/
def ownsAt (c : C) (a : T) : Bool :=
  match m.object a with
  | none => false
  | some o => o.token.Owns k.proxies c

/-- The successors of a token: what its owners wait for, from the top of the stack. -/
def successors (a : T) : List T :=
  match m.object a with
  | none => []
  | some o => (o.token.ownersOf k.proxies).reverse.filterMap fun e => m.waitedFor k (k.clientId e)

end Search

variable {k : Clients E P C} {m : TokenManager E P N T} {c : C} {a a' : T} {e : E}

omit [Fintype P] [DecidableEq T] in
theorem waitsAt_iff : m.waitsAt k c a = true ↔
    ∃ o, m.object a = some o ∧ o.token.WaitsFor k.proxies c := by
  rw [waitsAt]
  rcases m.object a with _ | o <;> simp

omit [Fintype P] [DecidableEq T] in
theorem ownsAt_iff : m.ownsAt k c a = true ↔ m.OwnsAt k c a := by
  rw [ownsAt, OwnsAt]
  rcases m.object a with _ | o <;> simp

omit [Fintype P] [DecidableEq T] in
/-- What a client waits for is in the collection. -/
theorem waitedFor_waits (hw : m.waitedFor k c = some a) : m.Waits k c a :=
  ⟨List.mem_of_find?_eq_some hw, waitsAt_iff.mp (List.find?_some hw)⟩

omit [Fintype P] [DecidableEq T] in
theorem leadsTo_of_mem_successors (ha' : a' ∈ m.successors k a) : m.LeadsTo k a a' := by
  rw [successors] at ha'
  rcases ho : m.object a with _ | o
  · rw [ho] at ha'
    cases ha'
  · rw [ho] at ha'
    obtain ⟨e, he, hw⟩ := List.mem_filterMap.mp ha'
    exact ⟨o, rfl.trans ho, e, List.mem_reverse.mp he, waitedFor_waits hw⟩

omit [Fintype P] [DecidableEq C] [DecidableEq T] in
theorem LeadsTo.mem_collection (h : m.LeadsTo k a a') : a' ∈ m.collection.map Prod.snd := by
  obtain ⟨o, -, e, -, hwaits⟩ := h
  exact hwaits.1

omit [Fintype P] [DecidableEq T] in
/-- **The successors are the wait-for graph** when each client waits for at most one token. -/
theorem mem_successors_iff (hsingle : m.SingleWait k) :
    a' ∈ m.successors k a ↔ m.LeadsTo k a a' := by
  refine ⟨leadsTo_of_mem_successors, ?_⟩
  rintro ⟨o, ho, e, he, hwaits⟩
  rw [successors, ho]
  refine List.mem_filterMap.mpr ⟨e, List.mem_reverse.mpr he, ?_⟩
  rcases hw : m.waitedFor k (k.clientId e) with _ | b
  · rw [waitedFor, List.find?_eq_none] at hw
    exact absurd (waitsAt_iff.mpr hwaits.2) (hw a' hwaits.1)
  · rw [hsingle _ _ _ (waitedFor_waits hw) hwaits]

namespace WellFormed

variable (h : m.WellFormed)

include h

omit [Fintype E] in
/-- The tokens of the collection are there. -/
theorem exists_object (ha : a ∈ m.collection.map Prod.snd) : ∃ o, m.object a = some o := by
  obtain ⟨b, hb, rfl⟩ := List.mem_map.mp ha
  obtain ⟨o, ho, -⟩ := h.bound b hb
  exact ⟨o, ho⟩

omit [Fintype E] in
/-- And those that are there are in the collection. -/
theorem mem_collection {o : TokenObject N E} (ho : m.object a = some o) :
    a ∈ m.collection.map Prod.snd := List.mem_map.mpr ⟨_, h.collected a o ho, rfl⟩

/-- **`token_waiting_for`** goes through the collection. -/
theorem tokenWaitingFor_eq (l : List (N × T)) (hl : ∀ b ∈ l, b ∈ m.collection) :
    m.tokenWaitingFor k c l = some ((l.map Prod.snd).find? (m.waitsAt k c)) := by
  induction l with
  | nil => rfl
  | cons b l ih =>
    obtain ⟨o, ho, -⟩ := h.bound b (hl b (by simp))
    obtain ⟨q, hq⟩ := h.represents b.2 o ho
    rw [tokenWaitingFor, ho]
    simp only [Token.isWaitingFor_eq hq, List.map_cons]
    have hat : m.waitsAt k c b.2 = decide (o.token.WaitsFor k.proxies c) := by
      rw [waitsAt, ho]
    by_cases hwaits : o.token.WaitsFor k.proxies c
    · rw [List.find?_cons_of_pos (by rw [hat]; simpa using hwaits)]
      simp [hwaits]
    · rw [List.find?_cons_of_neg (by rw [hat]; simpa using hwaits)]
      simp only [hwaits, decide_false]
      exact ih fun b hb => hl b (by simp [hb])

/-- **The loop over the owners** searches what they wait for. -/
theorem checkOwners_eq (rec : T → (T → Bool) → Option (Result T)) (stack : List E)
    (visited : T → Bool) : m.checkOwners k rec stack visited =
      searchAll rec (stack.filterMap fun e => m.waitedFor k (k.clientId e)) visited := by
  induction stack generalizing visited with
  | nil => rfl
  | cons e stack ih =>
    rw [checkOwners, h.tokenWaitingFor_eq _ fun _ hb => hb]
    rcases hw : m.waitedFor k (k.clientId e) with _ | twf
    · have hfind : (m.collection.map Prod.snd).find? (m.waitsAt k (k.clientId e)) = none := hw
      simp only [hfind, List.filterMap_cons, hw]
      exact ih visited
    · have hfind : (m.collection.map Prod.snd).find? (m.waitsAt k (k.clientId e)) = some twf := hw
      simp only [hfind, List.filterMap_cons, hw, searchAll]
      rcases rec twf visited with _ | r
      · rfl
      · simp only [ih]

/-- **The recursion is a search** of this graph. -/
theorem check_eq_search (c : C) (n : ℕ) (visited : T → Bool) (ha : ∃ o, m.object a = some o) :
    m.check k c n a visited = search (m.ownsAt k c) (m.successors k) n a visited := by
  induction n generalizing a visited with
  | zero => rfl
  | succ n ih =>
    obtain ⟨o, ho⟩ := ha
    obtain ⟨l, hl⟩ := h.represents a o ho
    rw [check, search]
    by_cases hv : visited a = true
    · rw [if_pos hv, if_pos hv]
    rw [if_neg hv, if_neg hv, ho]
    simp only [Token.owners_eq hl]
    have hgoal : m.ownsAt k c a = decide (o.token.Owns k.proxies c) := by rw [ownsAt, ho]
    have hsucc : m.successors k a = (o.token.ownersOf k.proxies).reverse.filterMap fun e =>
        m.waitedFor k (k.clientId e) := by rw [successors, ho]
    have hrec : searchAll (m.check k c n) (m.successors k a) (Function.update visited a true) =
        searchAll (search (m.ownsAt k c) (m.successors k) n) (m.successors k a)
          (Function.update visited a true) :=
      searchAll_congr fun a' ha' visited' =>
        ih visited' (h.exists_object (leadsTo_of_mem_successors ha').mem_collection)
    rw [hgoal, h.checkOwners_eq, ← hsucc, hrec]

/-- **`check_deadlock` is right**: it ends, visits no token twice, leaves no mark, and finds a
deadlock exactly when there is one. -/
theorem checkDeadlock_spec (hopen : m.proxyState (k.proxy e) = .opened a) :
    ∃ found visits, m.checkDeadlock k e = some (m, found, visits) ∧ visits.Nodup ∧
      (m.SingleWait k → (found = true ↔ m.Deadlock k (k.clientId e) a)) := by
  obtain ⟨o, ho⟩ := h.opened _ a hopen
  have hvisited : m.visited = fun _ => false := funext h.clean
  let S : Finset T := (m.collection.map Prod.snd).toFinset
  have hcard : unmarked S m.visited < m.collection.length + 2 := by
    have h₁ : unmarked S m.visited ≤ S.card := Finset.card_filter_le _ _
    have h₂ : S.card ≤ m.collection.length :=
      (List.toFinset_card_le _).trans (List.length_map _).le
    omega
  obtain ⟨r, hr, hsearch⟩ : ∃ r, search (m.ownsAt k (k.clientId e)) (m.successors k)
      (m.collection.length + 2) a m.visited = some r ∧
      Searches (m.ownsAt k (k.clientId e)) (m.successors k) m.visited [a] r :=
    exists_search (S := S)
      (fun x _ y hy => List.mem_toFinset.mpr (leadsTo_of_mem_successors hy).mem_collection)
      (List.mem_toFinset.mpr (h.mem_collection ho)) hcard
  -- the marks are in the collection, so that none is left
  have hvisits : ∀ x ∈ r.visits, x ∈ m.collection.map Prod.snd := by
    intro x hx
    obtain ⟨v, hv, hreach⟩ := hsearch.reach x hx
    rw [List.mem_singleton.mp hv] at hreach
    rcases Relation.ReflTransGen.cases_tail hreach with rfl | ⟨y, -, hstep⟩
    · exact h.mem_collection ho
    · exact (leadsTo_of_mem_successors hstep).mem_collection
  have hunmark : m.unmark r.marks = m.visited := by
    funext x
    rw [unmark, hvisited]
    split_ifs with hx
    · rfl
    · by_contra hmark
      rcases (hsearch.marks_iff x).mp (by simpa using hmark) with hm | hm
      · rw [hvisited] at hm
        cases hm
      · exact hx (hvisits x hm)
  refine ⟨r.found, r.visits, ?_, hsearch.nodup, fun hsingle => ?_⟩
  · simp only [checkDeadlock, hopen, h.check_eq_search _ _ _ ⟨o, ho⟩, hr, Option.map_some, hunmark]
  · rw [hvisited] at hsearch
    have hgraph : (fun x y => y ∈ m.successors k x) = m.LeadsTo k := by
      funext x y
      exact propext (mem_successors_iff hsingle)
    rw [hsearch.found_iff, Deadlock, Reach, hgraph]
    exact exists_congr fun x => and_congr_right fun _ => ownsAt_iff

end WellFormed

end TokenManager

end AceTao.Tokens
