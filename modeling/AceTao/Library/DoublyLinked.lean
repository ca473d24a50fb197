import Mathlib.Data.List.Nodup

/-!
# Doubly linked lists in memory

The nodes of a list are at addresses, and each has a link to its successor and one to its
predecessor. A memory is seen here through the links only: `next a` is the link of the node at `a`,
if there is a node, and the link is an address or null.

* `DoublyLinked.IsList`: the nodes at the addresses of a list are linked in both directions. The
  predicate is symmetric (`IsList.reverse`), and a node is added (`IsList.insert`) or removed
  (`IsList.erase`) anywhere;
* `DoublyLinked.Path`: what a loop sees that follows one kind of links until null. A list is a path
  from any of its positions, in both directions.

A loop `for (p = start; p != 0; p = link (p))` is given a number of turns, and has no answer when it
needs more of them or comes to an address without a node.

* `DoublyLinked.scan`: the loop that breaks at the first node which meets a condition;
* `DoublyLinked.accumulate`: the loop that goes to the end with an accumulator.

A node has a *value*, and links, which the loops only follow. When the nodes along a path hold the
values of a list (`DoublyLinked.Holds`), both loops are those of the list (`scan_eq`,
`accumulate_eq`).
-/

namespace DoublyLinked

variable {A : Type*}

/-- One kind of links: those of the nodes that are there. -/
abbrev Links (A : Type*) := A → Option (Option A)

/-- **Nodes linked in both directions**, from the first to the last. -/
structure IsList (next prev : Links A) (l : List A) : Prop where
  nodup : l.Nodup
  next_eq : ∀ l₁ a l₂, l = l₁ ++ a :: l₂ → next a = some l₂.head?
  prev_eq : ∀ l₁ a l₂, l = l₁ ++ a :: l₂ → prev a = some l₁.getLast?

/-- **A path**: following the links from `p`, one comes to the nodes of `l` and then to null. -/
def Path (link : Links A) : Option A → List A → Prop
  | p, [] => p = none
  | p, a :: l => p = some a ∧ ∃ q, link a = some q ∧ Path link q l

variable {next prev next' prev' : Links A} {a b : A} {l l₁ l₂ : List A}

theorem isList_nil (next prev : Links A) : IsList next prev [] :=
  ⟨List.nodup_nil, by simp, by simp⟩

/-- **Symmetry**: backwards, the links change their parts. -/
theorem IsList.reverse (h : IsList next prev l) : IsList prev next l.reverse := by
  have hsplit : ∀ l₁ a l₂, l.reverse = l₁ ++ a :: l₂ → l = l₂.reverse ++ a :: l₁.reverse := by
    intro l₁ a l₂ heq
    rw [← List.reverse_reverse l, heq]
    simp
  refine ⟨List.nodup_reverse.mpr h.nodup, fun l₁ a l₂ heq => ?_, fun l₁ a l₂ heq => ?_⟩
  · rw [h.prev_eq _ _ _ (hsplit l₁ a l₂ heq), List.getLast?_reverse]
  · rw [h.next_eq _ _ _ (hsplit l₁ a l₂ heq), List.head?_reverse]

/-- **The two links are inverse to each other.** -/
theorem IsList.next_iff (h : IsList next prev l) (ha : a ∈ l) (hb : b ∈ l) :
    next a = some (some b) ↔ prev b = some (some a) := by
  constructor
  · obtain ⟨l₁, l₂, rfl⟩ := List.append_of_mem ha
    intro hnext
    rw [h.next_eq l₁ a l₂ rfl, Option.some.injEq] at hnext
    obtain ⟨l₃, rfl⟩ := List.head?_eq_some_iff.mp hnext
    rw [h.prev_eq (l₁ ++ [a]) b l₃ (by simp), List.getLast?_concat]
  · obtain ⟨l₁, l₂, rfl⟩ := List.append_of_mem hb
    intro hprev
    rw [h.prev_eq l₁ b l₂ rfl, Option.some.injEq] at hprev
    obtain ⟨l₃, rfl⟩ := List.getLast?_eq_some_iff.mp hprev
    rw [h.next_eq l₃ a (b :: l₂) (by simp), List.head?_cons]

/-! ### Changing a list -/

/-- Only the links of its nodes matter. -/
theorem IsList.congr (h : IsList next prev l) (hnext : ∀ x ∈ l, next' x = next x)
    (hprev : ∀ x ∈ l, prev' x = prev x) : IsList next' prev' l := by
  refine ⟨h.nodup, fun l₁ a l₂ heq => ?_, fun l₁ a l₂ heq => ?_⟩
  · rw [hnext a (by simp [heq]), h.next_eq l₁ a l₂ heq]
  · rw [hprev a (by simp [heq]), h.prev_eq l₁ a l₂ heq]

/-- One half of adding a node. -/
theorem IsList.next_insert [DecidableEq A] (h : IsList next prev (l₁ ++ l₂)) (ha : a ∉ l₁ ++ l₂)
    (hnew : next' a = some l₂.head?)
    (hnext : ∀ x ∈ l₁ ++ l₂, next' x = if l₁.getLast? = some x then some (some a) else next x)
    (m₁ : List A) (x : A) (m₂ : List A) (heq : l₁ ++ a :: l₂ = m₁ ++ x :: m₂) :
    next' x = some m₂.head? := by
  have hnodup := List.nodup_append.mp h.nodup
  rcases List.append_eq_append_iff.mp heq with ⟨k, rfl, hk⟩ | ⟨k, rfl, hk⟩
  · rcases k with _ | ⟨y, k⟩
    · obtain ⟨rfl, rfl⟩ := List.cons.inj hk
      exact hnew
    · obtain ⟨rfl, rfl⟩ := List.cons.inj hk
      have hne : ¬l₁.getLast? = some x := fun hlast =>
        hnodup.2.2 x (List.mem_of_getLast? hlast) x (by simp) rfl
      rw [hnext x (by simp), if_neg hne]
      exact h.next_eq (l₁ ++ k) x m₂ (by simp)
  · rcases k with _ | ⟨y, k⟩
    · obtain ⟨rfl, rfl⟩ := List.cons.inj hk
      exact hnew
    · obtain ⟨rfl, rfl⟩ := List.cons.inj hk
      rw [hnext x (by simp)]
      rcases k with _ | ⟨z, k⟩
      · simp
      · have hmem : (m₁ ++ x :: z :: k).getLast? = some x → x ∈ z :: k := by
          intro hlast
          rw [List.getLast?_append, List.getLast?_cons_cons,
            List.getLast?_eq_some_getLast (List.cons_ne_nil z k), Option.some_or] at hlast
          rw [← Option.some.inj hlast]
          exact List.getLast_mem _
        have hne : ¬(m₁ ++ x :: z :: k).getLast? = some x := fun hlast =>
          (List.nodup_cons.mp (List.nodup_append.mp hnodup.1).2.1).1 (hmem hlast)
        rw [if_neg hne, h.next_eq m₁ x ((z :: k) ++ l₂) (by simp)]
        simp

/-- **A node is added**, between any two others or at an end. -/
theorem IsList.insert [DecidableEq A] (h : IsList next prev (l₁ ++ l₂)) (ha : a ∉ l₁ ++ l₂)
    (hnext : next' a = some l₂.head?) (hprev : prev' a = some l₁.getLast?)
    (hnext' : ∀ x ∈ l₁ ++ l₂, next' x = if l₁.getLast? = some x then some (some a) else next x)
    (hprev' : ∀ x ∈ l₁ ++ l₂, prev' x = if l₂.head? = some x then some (some a) else prev x) :
    IsList next' prev' (l₁ ++ a :: l₂) := by
  refine ⟨List.nodup_middle.mpr (List.nodup_cons.mpr ⟨ha, h.nodup⟩),
    h.next_insert ha hnext hnext', fun m₁ x m₂ heq => ?_⟩
  have hrev := h.reverse
  rw [List.reverse_append] at hrev
  have hback : prev' x = some m₁.reverse.head? := hrev.next_insert
    (fun hmem => ha (by simpa [or_comm] using hmem))
    (by rw [hprev, List.head?_reverse])
    (fun x hx => by
      rw [hprev' x (by simpa [or_comm] using hx), List.getLast?_reverse])
    m₂.reverse x m₁.reverse (by simpa using congrArg List.reverse heq)
  rwa [List.head?_reverse] at hback

/-- **A new first node.** -/
theorem IsList.cons [DecidableEq A] (h : IsList next prev l) (ha : a ∉ l)
    (hnext : next' a = some l.head?) (hprev : prev' a = some none)
    (hnext' : ∀ x ∈ l, next' x = next x)
    (hprev' : ∀ x ∈ l, prev' x = if l.head? = some x then some (some a) else prev x) :
    IsList next' prev' (a :: l) :=
  @IsList.insert _ _ _ _ _ _ [] l _ h ha hnext hprev (fun x hx => by simp [hnext' x hx]) hprev'

/-- One half of removing a node. -/
theorem IsList.next_erase [DecidableEq A] (h : IsList next prev (l₁ ++ a :: l₂))
    (hnext : ∀ x ∈ l₁ ++ l₂, next' x = if l₁.getLast? = some x then some l₂.head? else next x)
    (m₁ : List A) (x : A) (m₂ : List A) (heq : l₁ ++ l₂ = m₁ ++ x :: m₂) :
    next' x = some m₂.head? := by
  have hnodup := List.nodup_append.mp h.nodup
  rw [hnext x (by rw [heq]; simp)]
  have hbehind : ∀ k, l₂ = k ++ x :: m₂ → (if l₁.getLast? = some x then some l₂.head? else next x) =
      some m₂.head? := by
    rintro k rfl
    have hne : ¬l₁.getLast? = some x := fun hlast =>
      hnodup.2.2 x (List.mem_of_getLast? hlast) x (by simp) rfl
    rw [if_neg hne]
    exact h.next_eq (l₁ ++ a :: k) x m₂ (by simp)
  rcases List.append_eq_append_iff.mp heq with ⟨k, rfl, hk⟩ | ⟨k, hl₁, hk⟩
  · exact hbehind k hk
  · rcases k with _ | ⟨y, k⟩
    · exact hbehind [] hk.symm
    · obtain ⟨rfl, rfl⟩ := List.cons.inj hk
      subst hl₁
      rcases k with _ | ⟨z, k⟩
      · simp
      · have hne : ¬(m₁ ++ x :: z :: k).getLast? = some x := by
          intro hlast
          rw [List.getLast?_append, List.getLast?_cons_cons] at hlast
          have hmem : x ∈ z :: k := by
            rw [List.getLast?_eq_some_getLast (List.cons_ne_nil z k)] at hlast
            exact List.mem_of_getLast? (l := z :: k)
              (by rw [List.getLast?_eq_some_getLast (List.cons_ne_nil z k)]; simpa using hlast)
          exact (List.nodup_cons.mp (List.nodup_append.mp hnodup.1).2.1).1 hmem
        rw [if_neg hne, h.next_eq m₁ x ((z :: k) ++ a :: l₂) (by simp)]
        simp

/-- **A node is removed**: its neighbours are linked to each other. -/
theorem IsList.erase [DecidableEq A] (h : IsList next prev (l₁ ++ a :: l₂))
    (hnext : ∀ x ∈ l₁ ++ l₂, next' x = if l₁.getLast? = some x then some l₂.head? else next x)
    (hprev : ∀ x ∈ l₁ ++ l₂, prev' x = if l₂.head? = some x then some l₁.getLast? else prev x) :
    IsList next' prev' (l₁ ++ l₂) := by
  have hnodup : (l₁ ++ l₂).Nodup := h.nodup.sublist (by simp)
  refine ⟨hnodup, h.next_erase hnext, fun m₁ x m₂ heq => ?_⟩
  have hrev := h.reverse
  rw [List.reverse_append, List.reverse_cons, List.append_assoc, List.singleton_append] at hrev
  have hback : prev' x = some m₁.reverse.head? := hrev.next_erase
    (fun x hx => by
      rw [hprev x (by simpa [or_comm] using hx), List.getLast?_reverse, List.head?_reverse])
    m₂.reverse x m₁.reverse (by rw [← List.reverse_append, heq]; simp)
  rwa [List.head?_reverse] at hback

/-! ### Paths -/

theorem Path.eq_head? {link : Links A} {p : Option A} (h : Path link p l) : p = l.head? := by
  rcases l with _ | ⟨a, l⟩
  · exact h
  · exact h.1

/-- **Forward** from any position. -/
theorem IsList.path (h : IsList next prev (l₁ ++ l₂)) : Path next l₂.head? l₂ := by
  induction l₂ generalizing l₁ with
  | nil => rfl
  | cons a l₂ ih =>
    refine ⟨rfl, l₂.head?, h.next_eq l₁ a l₂ rfl, @ih (l₁ ++ [a]) ?_⟩
    rwa [List.append_assoc]

/-- **Backward** from any position. -/
theorem IsList.path_reverse (h : IsList next prev (l₁ ++ l₂)) :
    Path prev l₁.getLast? l₁.reverse := by
  have hrev := h.reverse
  rw [List.reverse_append] at hrev
  rw [← List.head?_reverse]
  exact hrev.path

/-! ### Loops along links -/

section Loops

variable {N V σ : Type*}

/-- One kind of links of the nodes in memory. -/
def linksBy (node : A → Option N) (link : N → Option A) : Links A := fun a => (node a).map link

/-- **The search** for a node. -/
def scan (node : A → Option N) (link : N → Option A) (p : N → Bool) :
    ℕ → Option A → Option (Option A)
  | 0, _ => none
  | _ + 1, none => some none
  | n + 1, some a =>
    match node a with
    | none => none
    | some b => if p b then some (some a) else scan node link p n (link b)

/-- **The loop with an accumulator.** -/
def accumulate (node : A → Option N) (link : N → Option A) (f : σ → A → N → σ) :
    ℕ → Option A → σ → Option σ
  | 0, _, _ => none
  | _ + 1, none, s => some s
  | n + 1, some a, s =>
    match node a with
    | none => none
    | some b => accumulate node link f n (link b) (f s a b)

/-- A node is at the address of an entry, with its value. -/
def Holds (node : A → Option N) (value : N → V) (e : A × V) : Prop :=
  ∃ b, node e.1 = some b ∧ value b = e.2

variable {node : A → Option N} {link : N → Option A} {value : N → V} {e : A × V} {es : List (A × V)}
  {start : Option A} {n : ℕ}

/-- The first node of a path. -/
theorem Path.cons_inv (h : Path (linksBy node link) start ((e :: es).map Prod.fst))
    (he : Holds node value e) : start = some e.1 ∧ ∃ b, node e.1 = some b ∧ value b = e.2 ∧
      Path (linksBy node link) (link b) (es.map Prod.fst) := by
  obtain ⟨rfl, q, hq, hpath⟩ := h
  obtain ⟨b, hb, hvalue⟩ := he
  rw [linksBy, hb, Option.map_some, Option.some.injEq] at hq
  exact ⟨rfl, b, hb, hvalue, by rwa [hq]⟩

/-- **The search along a path** finds the first entry that meets the condition. -/
theorem scan_eq {p : V → Bool} (h : Path (linksBy node link) start (es.map Prod.fst))
    (hes : ∀ e ∈ es, Holds node value e) (hn : es.length < n) :
    scan node link (fun b => p (value b)) n start =
      some ((es.find? fun e => p e.2).map Prod.fst) := by
  induction es generalizing n start with
  | nil =>
    obtain ⟨n, rfl⟩ := Nat.exists_eq_succ_of_ne_zero (Nat.ne_of_gt hn)
    obtain rfl : start = none := h
    rfl
  | cons e es ih =>
    obtain ⟨n, rfl⟩ := Nat.exists_eq_succ_of_ne_zero (Nat.ne_of_gt (Nat.zero_lt_of_lt hn))
    obtain ⟨he, hes⟩ := List.forall_mem_cons.mp hes
    obtain ⟨rfl, b, hb, hvalue, hpath⟩ := h.cons_inv he
    rw [scan, hb]
    dsimp only
    rw [hvalue]
    by_cases hp : p e.2 = true
    · rw [if_pos hp, List.find?_cons_of_pos (p := fun e : A × V => p e.2) hp]
      rfl
    · rw [if_neg hp, List.find?_cons_of_neg (p := fun e : A × V => p e.2) hp]
      exact ih hpath hes (Nat.lt_of_succ_lt_succ hn)

/-- **The accumulator along a path** is that of a fold. -/
theorem accumulate_eq {f : σ → A → V → σ} {s : σ}
    (h : Path (linksBy node link) start (es.map Prod.fst))
    (hes : ∀ e ∈ es, Holds node value e) (hn : es.length < n) :
    accumulate node link (fun s a b => f s a (value b)) n start s =
      some (es.foldl (fun s e => f s e.1 e.2) s) := by
  induction es generalizing n start s with
  | nil =>
    obtain ⟨n, rfl⟩ := Nat.exists_eq_succ_of_ne_zero (Nat.ne_of_gt hn)
    obtain rfl : start = none := h
    rfl
  | cons e es ih =>
    obtain ⟨n, rfl⟩ := Nat.exists_eq_succ_of_ne_zero (Nat.ne_of_gt (Nat.zero_lt_of_lt hn))
    obtain ⟨he, hes⟩ := List.forall_mem_cons.mp hes
    obtain ⟨rfl, b, hb, hvalue, hpath⟩ := h.cons_inv he
    rw [accumulate, hb]
    dsimp only
    rw [hvalue, ih hpath hes (Nat.lt_of_succ_lt_succ hn)]
    rfl

end Loops

end DoublyLinked
