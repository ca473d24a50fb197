import AceTao.Library.Machine
import AceTao.NameTable.Basic

/-!
# The name table as a multimap

The nodes of a table are listed from the newest to the oldest (`Represents`). On this list the
operations are those of a multimap in which names are stacked (`Multimap.Step`): a binding goes in
front, and `find` and `unbind` take the first entry of a name.

An iterator without a filter visits the whole list, in one direction or the other. With a filter,
the one from the newest node visits the matching nodes; the one from the oldest node begins at this
node whether it matches or not (`fifoVisits_eq`).
-/

namespace AceTao

open DoublyLinked

/-- A node with its name and pointer. -/
structure NameEntry (A P : Type) where
  node : A
  name : Name
  pointer : P

namespace NameEntry

variable {A P : Type}

/-- An entry has the name. -/
def Named (name : Name) (e : NameEntry A P) : Bool := e.name = name

/-- Which entries an iterator is for. -/
def Matches (filter : Option Name) (e : NameEntry A P) : Bool :=
  match filter with
  | none => true
  | some name => e.Named name

end NameEntry

namespace NameTable

variable {A P : Type} {pool : Allocator A} {t : NameTable pool P}
  {es es₁ es₂ : List (NameEntry A P)} {e : NameEntry A P} {name : Name} {pointer : P}

/-- One kind of links. -/
def linksOf (nodes : A → Option (NameNode A P)) (link : NameNode A P → Option A) : Links A :=
  fun a => (nodes a).map link

/-- A node is there with the name and the pointer of an entry. -/
def Holds (nodes : A → Option (NameNode A P)) (e : NameEntry A P) : Prop :=
  ∃ node, nodes e.node = some node ∧ node.name = e.name ∧ node.pointer = e.pointer

/-- **The entries of a table**, from the newest to the oldest: their nodes are linked, and there are
no other nodes. -/
structure Represents (t : NameTable pool P) (es : List (NameEntry A P)) : Prop where
  head : t.nameHead = (es.map NameEntry.node).head?
  isList : IsList (linksOf t.nodes NameNode.next) (linksOf t.nodes NameNode.prev)
    (es.map NameEntry.node)
  holds : ∀ e ∈ es, Holds t.nodes e
  others : ∀ a ∉ es.map NameEntry.node, t.nodes a = none
  live : ∀ e ∈ es, e.node ∈ pool.live t.state

theorem represents_empty (state : pool.State) : Represents (empty pool P state) [] :=
  ⟨rfl, isList_nil _ _, List.forall_mem_nil _, fun _ _ => rfl, List.forall_mem_nil _⟩

theorem Represents.length_lt [Fintype A] (h : Represents t es) : es.length < turns A := by
  have hle := h.isList.nodup.length_le_card
  rw [List.length_map] at hle
  exact Nat.lt_succ_of_le hle

/-! ### The loops -/

section Loops

variable {nodes : A → Option (NameNode A P)} {link : NameNode A P → Option A} {n : ℕ}
  {p prev : Option A}

/-- The first node of a path. -/
theorem path_cons (h : Path (linksOf nodes link) p ((e :: es).map NameEntry.node))
    (he : Holds nodes e) : p = some e.node ∧ ∃ node, nodes e.node = some node ∧
      node.name = e.name ∧ node.pointer = e.pointer ∧
      Path (linksOf nodes link) (link node) (es.map NameEntry.node) := by
  obtain ⟨rfl, q, hq, hpath⟩ := h
  obtain ⟨node, hnode, hname, hpointer⟩ := he
  rw [linksOf, hnode, Option.map_some, Option.some.injEq] at hq
  exact ⟨rfl, node, hnode, hname, hpointer, by rwa [hq]⟩

/-- **The search for a name** along a path. -/
theorem findLoop_eq (h : Path (linksOf nodes link) p (es.map NameEntry.node))
    (hes : ∀ e ∈ es, Holds nodes e) (hn : es.length < n) :
    findLoop nodes link name n p = some ((es.find? (NameEntry.Named name)).map NameEntry.node) := by
  induction es generalizing n p with
  | nil =>
    obtain ⟨n, rfl⟩ := Nat.exists_eq_succ_of_ne_zero (Nat.ne_of_gt hn)
    obtain rfl : p = none := h
    rfl
  | cons e es ih =>
    obtain ⟨n, rfl⟩ := Nat.exists_eq_succ_of_ne_zero (Nat.ne_of_gt (Nat.zero_lt_of_lt hn))
    obtain ⟨he, hes⟩ := List.forall_mem_cons.mp hes
    obtain ⟨rfl, node, hnode, hname, -, hpath⟩ := path_cons h he
    rw [findLoop, hnode]
    dsimp only
    by_cases hmatch : e.name = name
    · rw [if_pos (hname.trans hmatch),
        List.find?_cons_of_pos (by simpa [NameEntry.Named] using hmatch)]
      rfl
    · rw [if_neg (by rwa [hname]), List.find?_cons_of_neg (by simpa [NameEntry.Named] using hmatch)]
      exact ih hpath hes (Nat.lt_of_succ_lt_succ hn)

/-- The search of `unbind` passes the nodes of other names. -/
theorem unbindLoop_append (prev : Option A)
    (h : Path (linksOf nodes NameNode.next) p ((es₁ ++ es₂).map NameEntry.node))
    (hes : ∀ e ∈ es₁, Holds nodes e) (hother : ∀ e ∈ es₁, e.name ≠ name) :
    ∃ q, Path (linksOf nodes NameNode.next) q (es₂.map NameEntry.node) ∧
      ∀ m, unbindLoop nodes name (m + es₁.length) prev p =
        unbindLoop nodes name m ((es₁.map NameEntry.node).getLast?.or prev) q := by
  induction es₁ generalizing p prev with
  | nil => exact ⟨p, h, fun m => rfl⟩
  | cons e es₁ ih =>
    obtain ⟨he, hes⟩ := List.forall_mem_cons.mp hes
    obtain ⟨hne, hother⟩ := List.forall_mem_cons.mp hother
    obtain ⟨rfl, node, hnode, hname, -, hpath⟩ := path_cons h he
    obtain ⟨q, hq, hloop⟩ := ih (some e.node) hpath hes hother
    refine ⟨q, hq, fun m => ?_⟩
    rw [List.length_cons, ← Nat.add_assoc, unbindLoop, hnode]
    dsimp only
    rw [if_neg (by rwa [hname]), hloop, List.map_cons, List.getLast?_cons]
    rcases (es₁.map NameEntry.node).getLast? with _ | a <;> rfl

/-! ### The iterators -/

/-- **An iterator without a filter** visits a path. -/
theorem visitLoop_none [Fintype A] (h : Path (linksOf t.nodes link) p (es.map NameEntry.node))
    (hes : ∀ e ∈ es, Holds t.nodes e) (hn : es.length < n) :
    visitLoop t link none n p = some (es.map NameEntry.node) := by
  induction es generalizing n p with
  | nil =>
    obtain ⟨n, rfl⟩ := Nat.exists_eq_succ_of_ne_zero (Nat.ne_of_gt hn)
    obtain rfl : p = none := h
    rfl
  | cons e es ih =>
    obtain ⟨n, rfl⟩ := Nat.exists_eq_succ_of_ne_zero (Nat.ne_of_gt (Nat.zero_lt_of_lt hn))
    obtain ⟨he, hes⟩ := List.forall_mem_cons.mp hes
    obtain ⟨rfl, node, hnode, -, -, hpath⟩ := path_cons h he
    rw [visitLoop, advance, hnode]
    dsimp only
    rw [ih hpath hes (Nat.lt_of_succ_lt_succ hn)]
    rfl

/-- **An iterator with a filter**, from a matching node: it visits the matching nodes behind. -/
theorem visitLoop_some [Fintype A] (h : Path (linksOf t.nodes link) p (es.map NameEntry.node))
    (hes : ∀ e ∈ es, Holds t.nodes e) (hn : es.length < n) (hturns : es.length < turns A) :
    visitLoop t link (some name) n ((es.find? (NameEntry.Named name)).map NameEntry.node) =
      some ((es.filter (NameEntry.Named name)).map NameEntry.node) := by
  induction es generalizing n p with
  | nil =>
    obtain ⟨n, rfl⟩ := Nat.exists_eq_succ_of_ne_zero (Nat.ne_of_gt hn)
    rfl
  | cons e es ih =>
    obtain ⟨n, rfl⟩ := Nat.exists_eq_succ_of_ne_zero (Nat.ne_of_gt (Nat.zero_lt_of_lt hn))
    obtain ⟨he, hes⟩ := List.forall_mem_cons.mp hes
    obtain ⟨rfl, node, hnode, -, -, hpath⟩ := path_cons h he
    have hlt := Nat.lt_of_succ_lt hturns
    by_cases hmatch : NameEntry.Named name e = true
    · rw [List.find?_cons_of_pos hmatch, List.filter_cons_of_pos hmatch, Option.map_some, visitLoop,
        advance, hnode]
      dsimp only
      rw [findLoop_eq hpath hes hlt]
      dsimp only
      rw [ih hpath hes (Nat.lt_of_succ_lt_succ hn) hlt]
      rfl
    · rw [List.find?_cons_of_neg hmatch, List.filter_cons_of_neg hmatch]
      exact ih hpath hes (Nat.lt_of_succ_lt hn) hlt

theorem startLoop_eq (h : Path (linksOf nodes NameNode.next) p (es.map NameEntry.node))
    (hes : ∀ e ∈ es, Holds nodes e) (hn : es.length < n) :
    startLoop nodes n prev p = some ((es.map NameEntry.node).getLast?.or prev) := by
  induction es generalizing n p prev with
  | nil =>
    obtain ⟨n, rfl⟩ := Nat.exists_eq_succ_of_ne_zero (Nat.ne_of_gt hn)
    obtain rfl : p = none := h
    rfl
  | cons e es ih =>
    obtain ⟨n, rfl⟩ := Nat.exists_eq_succ_of_ne_zero (Nat.ne_of_gt (Nat.zero_lt_of_lt hn))
    obtain ⟨he, hes⟩ := List.forall_mem_cons.mp hes
    obtain ⟨rfl, node, hnode, -, -, hpath⟩ := path_cons h he
    rw [startLoop, hnode]
    dsimp only
    rw [ih hpath hes (Nat.lt_of_succ_lt_succ hn), List.map_cons, List.getLast?_cons]
    rcases (es.map NameEntry.node).getLast? with _ | a <;> rfl

end Loops

theorem Represents.path (h : Represents t es) :
    Path (linksOf t.nodes NameNode.next) t.nameHead (es.map NameEntry.node) := by
  rw [h.head]
  exact @IsList.path _ _ _ [] _ h.isList

section Iterators

variable [Fintype A]

/-- **From the newest to the oldest**: the iterator visits the matching nodes. -/
theorem lifoVisits_eq (h : Represents t es) (filter : Option Name) :
    lifoVisits t filter = some ((es.filter (NameEntry.Matches filter)).map NameEntry.node) := by
  rw [lifoVisits]
  rcases filter with _ | name
  · refine (visitLoop_none h.path h.holds h.length_lt).trans ?_
    congr 2
    exact (List.filter_eq_self.mpr fun _ _ => rfl).symm
  · rw [show lifoInit t (some name) = _ from findLoop_eq h.path h.holds h.length_lt]
    exact visitLoop_some h.path h.holds h.length_lt h.length_lt

/-- **From the oldest to the newest**: the iterator visits the oldest node, whether it matches or
not, and then the matching ones. -/
theorem fifoVisits_concat (h : Represents t (es ++ [e])) (filter : Option Name) :
    fifoVisits t filter =
      some ((e :: es.reverse.filter (NameEntry.Matches filter)).map NameEntry.node) := by
  have hlt := h.length_lt
  rw [List.length_append, List.length_singleton] at hlt
  have hback : Path (linksOf t.nodes NameNode.prev) (some e.node)
      ((e :: es.reverse).map NameEntry.node) := by
    have hpath := h.isList
    rw [← List.append_nil (List.map _ _)] at hpath
    have hrev := hpath.path_reverse
    rw [← List.map_reverse] at hrev
    simpa using hrev
  have hes : ∀ e' ∈ e :: es.reverse, Holds t.nodes e' := fun e' he' =>
    h.holds e' (by simpa [or_comm] using he')
  have hstart : fifoInit t filter = some (some e.node) := by
    refine (startLoop_eq h.path h.holds h.length_lt).trans ?_
    simp
  rw [fifoVisits, hstart]
  rcases filter with _ | name
  · refine (visitLoop_none hback hes (by simpa using hlt)).trans ?_
    congr 3
    exact (List.filter_eq_self.mpr fun _ _ => rfl).symm
  · obtain ⟨-, node, hnode, -, -, hpath⟩ := path_cons hback (hes e List.mem_cons_self)
    have hes' := (List.forall_mem_cons.mp hes).2
    obtain ⟨n, hn⟩ : ∃ n, turns A = n + 1 := ⟨_, rfl⟩
    have hlen : es.reverse.length < n := by
      rw [List.length_reverse]
      omega
    dsimp only
    rw [hn, visitLoop, advance, hnode]
    dsimp only
    rw [findLoop_eq hpath hes' (by omega)]
    dsimp only
    rw [visitLoop_some hpath hes' hlen (by omega)]
    rfl

theorem fifoVisits_nil (h : Represents t []) (filter : Option Name) :
    fifoVisits t filter = some [] := by
  have hstart : fifoInit t filter = some none := startLoop_eq h.path h.holds h.length_lt
  rw [fifoVisits, hstart]
  rfl

/-- **When the order is the right one**: the oldest node matches. -/
theorem fifoVisits_iff (h : Represents t es) (filter : Option Name) :
    fifoVisits t filter =
        some ((es.filter (NameEntry.Matches filter)).map NameEntry.node).reverse ↔
      ∀ e ∈ es.getLast?, e.Matches filter = true := by
  rcases List.eq_nil_or_concat' es with rfl | ⟨es, e, rfl⟩
  · rw [fifoVisits_nil h]
    simp
  · rw [fifoVisits_concat h, List.getLast?_concat]
    simp only [Option.mem_def, Option.some.injEq, forall_eq']
    constructor
    · intro heq
      by_contra hnot
      have hlen := congrArg List.length heq
      simp [hnot] at hlen
    · intro hmatch
      simp [hmatch]

end Iterators

end NameTable

end AceTao
