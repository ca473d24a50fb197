import AceTao.NameTable.Spec
import Mathlib.Data.Finset.Basic

/-!
# Runs of the name table

Each operation does on the entries what it does in a multimap (`step_spec`). An operation that adds
a name fails when the allocator does, and then it changes nothing.
-/

namespace AceTao

open DoublyLinked

namespace Multimap

variable {A P : Type}

/-- The newest entry of a name. -/
def lookup (name : Name) (es : List (NameEntry A P)) : Option (NameEntry A P) :=
  es.find? (NameEntry.Named name)

/-- Adding an entry of a node that is not in use, or failing to. -/
inductive Push (es : List (NameEntry A P)) (name : Name) (pointer : P) :
    ℤ → List (NameEntry A P) → Prop
  | pushed (a : A) (ha : a ∉ es.map NameEntry.node) :
      Push es name pointer 0 (⟨a, name, pointer⟩ :: es)
  | exhausted : Push es name pointer (-1) es

/-- **The operations of a multimap** in which the entries of a name are stacked. -/
inductive Step (es : List (NameEntry A P)) :
    NameTable.Command P → NameTable.Result P → List (NameEntry A P) → Prop
  | bind {name : Name} {pointer : P} {duplicates code : ℤ} {es' : List (NameEntry A P)}
      (h : duplicates ≠ 0 ∨ lookup name es = none) (hpush : Push es name pointer code es') :
      Step es (.bind name pointer duplicates) ⟨code, none⟩ es'
  | bindPresent {name : Name} {pointer : P} {e : NameEntry A P} (h : lookup name es = some e) :
      Step es (.bind name pointer 0) ⟨1, none⟩ es
  | trybind {name : Name} {pointer : P} {code : ℤ} {es' : List (NameEntry A P)}
      (h : lookup name es = none) (hpush : Push es name pointer code es') :
      Step es (.trybind name pointer) ⟨code, none⟩ es'
  | trybindPresent {name : Name} {pointer : P} {e : NameEntry A P} (h : lookup name es = some e) :
      Step es (.trybind name pointer) ⟨1, some e.pointer⟩ es
  | find {name : Name} {e : NameEntry A P} (h : lookup name es = some e) :
      Step es (.find name) ⟨0, some e.pointer⟩ es
  | findAbsent {name : Name} (h : lookup name es = none) : Step es (.find name) ⟨-1, none⟩ es
  | unbind {name : Name} {e : NameEntry A P} (h : lookup name es = some e) :
      Step es (.unbind name) ⟨0, some e.pointer⟩ (es.eraseP (NameEntry.Named name))
  | unbindAbsent {name : Name} (h : lookup name es = none) : Step es (.unbind name) ⟨-1, none⟩ es

/-- Operations one after the other. -/
inductive Steps : List (NameEntry A P) → List (NameTable.Command P) → List (NameTable.Result P) →
    List (NameEntry A P) → Prop
  | nil (es : List (NameEntry A P)) : Steps es [] [] es
  | cons {es es' es'' : List (NameEntry A P)} {cmd : NameTable.Command P} {r : NameTable.Result P}
      {cmds : List (NameTable.Command P)} {rs : List (NameTable.Result P)}
      (h : Step es cmd r es') (hs : Steps es' cmds rs es'') : Steps es (cmd :: cmds) (r :: rs) es''

end Multimap

namespace NameTable

variable {A P : Type} {pool : Allocator A} {t : NameTable pool P}
  {es es₁ es₂ : List (NameEntry A P)} {e : NameEntry A P} {name : Name} {pointer : P}
  {nodes : A → Option (NameNode A P)} {a : A}

/-! ### Adding a node -/

/-- **The table with a new node**, whose fields and whose neighbour's are set. -/
theorem Represents.push [DecidableEq A] (h : Represents t es) (ha : a ∉ es.map NameEntry.node)
    (hnew : nodes a = some ⟨name, pointer, t.nameHead, none⟩)
    (hold : ∀ x ≠ a, nodes x = if t.nameHead = some x
      then (t.nodes x).map fun node => { node with prev := some a } else t.nodes x)
    {state : pool.State} (hlive : pool.live state = insert a (pool.live t.state)) :
    Represents ⟨some a, nodes, state⟩ (⟨a, name, pointer⟩ :: es) := by
  have hne : ∀ e ∈ es, e.node ≠ a := fun e he heq => ha (heq ▸ List.mem_map_of_mem he)
  have hlinks : ∀ x ∈ es.map NameEntry.node, x ≠ a := fun x hx heq => ha (heq ▸ hx)
  have hlist : IsList (linksOf nodes NameNode.next) (linksOf nodes NameNode.prev)
      (a :: es.map NameEntry.node) := by
    refine h.isList.cons ha ?_ ?_ (fun x hx => ?_) fun x hx => ?_
    · rw [linksOf, hnew, h.head]
      rfl
    · rw [linksOf, hnew]
      rfl
    · rw [linksOf, linksOf, hold x (hlinks x hx)]
      split_ifs
      · rw [Option.map_map]
        rfl
      · rfl
    · rw [linksOf, linksOf, hold x (hlinks x hx), ← h.head]
      split_ifs
      · obtain ⟨e, he, rfl⟩ := List.mem_map.mp hx
        obtain ⟨node, hnode, -⟩ := h.holds e he
        rw [hnode]
        rfl
      · rfl
  refine ⟨rfl, hlist, ?_, ?_, ?_⟩
  · refine List.forall_mem_cons.mpr ⟨⟨_, hnew, rfl, rfl⟩, fun e he => ?_⟩
    obtain ⟨node, hnode, hname, hpointer⟩ := h.holds e he
    have hold := hold _ (hne e he)
    rw [hnode] at hold
    split_ifs at hold
    · exact ⟨_, hold, hname, hpointer⟩
    · exact ⟨_, hold, hname, hpointer⟩
  · intro x hx
    obtain ⟨hxa, hx⟩ := not_or.mp (mt List.mem_cons.mpr hx)
    have hold := hold x hxa
    rw [h.others x hx] at hold
    split_ifs at hold
    · exact hold
    · exact hold
  · rw [hlive]
    exact List.forall_mem_cons.mpr
      ⟨Set.mem_insert a _, fun e he => Set.mem_insert_of_mem a (h.live e he)⟩

theorem modify_eq [DecidableEq A] {node : NameNode A P} (h : nodes a = some node)
    (f : NameNode A P → NameNode A P) :
    modify nodes a f = some (Function.update nodes a (some (f node))) := by
  rw [modify, h]
  rfl

/-- **`shared_bind`** adds an entry, unless memory is exhausted. -/
theorem sharedBind_spec [DecidableEq A] (h : Represents t es) (name : Name) (pointer : P) :
    ∃ t' code es', sharedBind t name pointer = some (t', code) ∧
      Multimap.Push es name pointer code es' ∧ Represents t' es' := by
  rw [sharedBind]
  rcases hm : pool.malloc t.state (nodeSize + name.length + 1) with _ | ⟨a, state⟩
  · exact ⟨t, -1, es, rfl, .exhausted, h⟩
  · have ha : a ∉ es.map NameEntry.node := fun hmem => by
      obtain ⟨e, he, rfl⟩ := List.mem_map.mp hmem
      exact pool.malloc_fresh hm (h.live e he)
    have hpush : Multimap.Push es name pointer 0 _ := .pushed a ha
    let nodes := Function.update t.nodes a (some ⟨name, pointer, t.nameHead, none⟩)
    have hnew : nodes a = some ⟨name, pointer, t.nameHead, none⟩ := Function.update_self ..
    have hold : ∀ x ≠ a, nodes x = t.nodes x := fun x hx => Function.update_of_ne hx ..
    have hhead := h.head
    rcases es with _ | ⟨e, es⟩
    · rw [List.map_nil, List.head?_nil] at hhead
      have hrep : Represents ⟨some a, nodes, state⟩ [⟨a, name, pointer⟩] :=
        h.push ha hnew (fun x hx => by rw [hold x hx, hhead, if_neg (Option.some_ne_none x).symm])
          (pool.live_malloc hm)
      refine ⟨_, 0, _, ?_, hpush, hrep⟩
      simp only [hhead, nodes]
    · rw [List.map_cons, List.head?_cons] at hhead
      obtain ⟨node, hnode, -⟩ := h.holds e List.mem_cons_self
      have hne : e.node ≠ a := fun heq => ha (heq ▸ List.mem_map_of_mem List.mem_cons_self)
      have hmod := modify_eq ((hold e.node hne).trans hnode) fun node =>
        { node with prev := some a }
      have hrep : Represents
          ⟨some a, Function.update nodes e.node (some { node with prev := some a }), state⟩
          (⟨a, name, pointer⟩ :: e :: es) := by
        refine h.push ha ?_ (fun x hx => ?_) (pool.live_malloc hm)
        · rw [Function.update_of_ne hne.symm, hnew]
        · rw [hhead]
          rcases eq_or_ne e.node x with rfl | hex
          · rw [Function.update_self, if_pos rfl, hnode]
            rfl
          · rw [Function.update_of_ne hex.symm, hold x hx, if_neg (by simpa using hex)]
      refine ⟨_, 0, _, ?_, hpush, hrep⟩
      simp only [hhead, nodes] at hmod ⊢
      rw [hmod]
      rfl

/-! ### Removing a node -/

/-- **The table without a node**, whose neighbours are linked. -/
theorem Represents.erase [DecidableEq A] (h : Represents t (es₁ ++ e :: es₂))
    (hnone : nodes e.node = none)
    (hold : ∀ x ≠ e.node, nodes x = (t.nodes x).map fun node =>
      { node with
        next := if (es₁.map NameEntry.node).getLast? = some x
          then (es₂.map NameEntry.node).head? else node.next
        prev := if (es₂.map NameEntry.node).head? = some x
          then (es₁.map NameEntry.node).getLast? else node.prev })
    {nameHead : Option A} (hhead : nameHead = ((es₁ ++ es₂).map NameEntry.node).head?) :
    Represents ⟨nameHead, nodes, pool.free t.state e.node⟩ (es₁ ++ es₂) := by
  have hlist := h.isList
  rw [List.map_append, List.map_cons] at hlist
  have hne : ∀ x ∈ es₁.map NameEntry.node ++ es₂.map NameEntry.node, x ≠ e.node := by
    rintro x hx rfl
    exact (List.nodup_middle.mp hlist.nodup).notMem hx
  have hmem : ∀ e' ∈ es₁ ++ es₂, e' ∈ es₁ ++ e :: es₂ := fun e' he' => by
    rcases List.mem_append.mp he' with he' | he'
    · exact List.mem_append_left _ he'
    · exact List.mem_append_right _ (List.mem_cons_of_mem e he')
  have hne' : ∀ e' ∈ es₁ ++ es₂, e'.node ≠ e.node := fun e' he' =>
    hne e'.node (by rw [← List.map_append]; exact List.mem_map_of_mem he')
  have hlinks : ∀ x ∈ es₁.map NameEntry.node ++ es₂.map NameEntry.node, ∃ node,
      t.nodes x = some node := by
    intro x hx
    rw [← List.map_append] at hx
    obtain ⟨e', he', rfl⟩ := List.mem_map.mp hx
    obtain ⟨node, hnode, -⟩ := h.holds e' (hmem e' he')
    exact ⟨node, hnode⟩
  refine ⟨hhead, ?_, fun e' he' => ?_, fun x hx => ?_, fun e' he' => ?_⟩
  · rw [List.map_append]
    refine hlist.erase (fun x hx => ?_) fun x hx => ?_
    · obtain ⟨node, hnode⟩ := hlinks x hx
      have hval := hold x (hne x hx)
      rw [hnode, Option.map_some] at hval
      rw [linksOf, linksOf, hnode]
      dsimp only
      rw [hval]
      split_ifs <;> rfl
    · obtain ⟨node, hnode⟩ := hlinks x hx
      have hval := hold x (hne x hx)
      rw [hnode, Option.map_some] at hval
      rw [linksOf, linksOf, hnode]
      dsimp only
      rw [hval]
      split_ifs <;> rfl
  · obtain ⟨node, hnode, hname, hpointer⟩ := h.holds e' (hmem e' he')
    have hval := hold e'.node (hne' e' he')
    rw [hnode] at hval
    exact ⟨_, hval, hname, hpointer⟩
  · rcases eq_or_ne x e.node with rfl | hxe
    · exact hnone
    · have hx' : x ∉ (es₁ ++ e :: es₂).map NameEntry.node := by
        rw [List.map_append] at hx ⊢
        simpa [hxe] using hx
      have hval := hold x hxe
      rwa [h.others x hx'] at hval
  · rw [pool.live_free]
    exact ⟨h.live e' (hmem e' he'), hne' e' he'⟩

/-- The first entry of a name, between the others. -/
theorem lookup_eq_some (h : Multimap.lookup name es = some e) :
    ∃ es₁ es₂, es = es₁ ++ e :: es₂ ∧ (∀ e' ∈ es₁, e'.name ≠ name) ∧ e.name = name ∧
      es.eraseP (NameEntry.Named name) = es₁ ++ es₂ := by
  obtain ⟨hname, es₁, es₂, rfl, hother⟩ := List.find?_eq_some_iff_append.mp h
  have hne : ∀ e' ∈ es₁, ¬NameEntry.Named name e' = true := by simpa using hother
  refine ⟨es₁, es₂, rfl, fun e' he' => ?_, of_decide_eq_true hname, ?_⟩
  · simpa [NameEntry.Named] using hne e' he'
  · rw [List.eraseP_append_right _ hne, List.eraseP_cons_of_pos hname]

theorem modify_apply [DecidableEq A] {nodes' : A → Option (NameNode A P)}
    {f : NameNode A P → NameNode A P} (h : modify nodes a f = some nodes') (x : A) :
    nodes' x = if a = x then (nodes x).map f else nodes x := by
  obtain ⟨node, hnode, rfl⟩ := Option.map_eq_some_iff.mp h
  rcases eq_or_ne a x with rfl | hne
  · rw [Function.update_self, if_pos rfl, hnode]
    rfl
  · rw [Function.update_of_ne hne.symm, if_neg hne]

theorem linkNext_spec [DecidableEq A] (t : NameTable pool P) (prev next : Option A)
    (hprev : ∀ a ∈ prev, ∃ node, t.nodes a = some node) :
    ∃ nodes, linkNext t prev next = some (prev.elim next fun _ => t.nameHead, nodes) ∧
      ∀ x, nodes x = if prev = some x then (t.nodes x).map fun node => { node with next := next }
        else t.nodes x := by
  rcases prev with _ | a
  · exact ⟨t.nodes, rfl, fun x => (if_neg (Option.some_ne_none x).symm).symm⟩
  · obtain ⟨node, hnode⟩ := hprev a rfl
    have hmod := modify_eq hnode fun node => { node with next := next }
    refine ⟨_, by rw [linkNext, hmod]; rfl, fun x => ?_⟩
    rw [modify_apply hmod]
    simp

theorem linkPrev_spec [DecidableEq A] (nodes : A → Option (NameNode A P)) (prev next : Option A)
    (hnext : ∀ a ∈ next, ∃ node, nodes a = some node) :
    ∃ nodes', linkPrev nodes prev next = some nodes' ∧
      ∀ x, nodes' x = if next = some x then (nodes x).map fun node => { node with prev := prev }
        else nodes x := by
  rcases next with _ | a
  · exact ⟨nodes, rfl, fun x => (if_neg (Option.some_ne_none x).symm).symm⟩
  · obtain ⟨node, hnode⟩ := hnext a rfl
    have hmod := modify_eq hnode fun node => { node with prev := prev }
    refine ⟨_, hmod, fun x => ?_⟩
    rw [modify_apply hmod]
    simp

/-- The search of `unbind` comes to the newest node of the name, with the one before it. -/
theorem unbindLoop_found [DecidableEq A] [Fintype A] (h : Represents t (es₁ ++ e :: es₂))
    (hother : ∀ e' ∈ es₁, e'.name ≠ name) (hname : e.name = name) :
    unbindLoop t.nodes name (turns A) none t.nameHead =
        some ((es₁.map NameEntry.node).getLast?, some e.node) ∧
      ∃ node, t.nodes e.node = some node ∧ node.pointer = e.pointer ∧
        node.next = (es₂.map NameEntry.node).head? := by
  obtain ⟨q, hq, hloop⟩ := unbindLoop_append none h.path
    (fun e' he' => h.holds e' (List.mem_append_left _ he')) hother
  obtain ⟨rfl, node, hnode, hnodeName, hpointer, hpath⟩ := path_cons hq (h.holds e (by simp))
  refine ⟨?_, node, hnode, hpointer, hpath.eq_head?⟩
  have hlen := h.length_lt
  rw [List.length_append, List.length_cons] at hlen
  obtain ⟨m, hm⟩ := Nat.exists_eq_add_of_le (Nat.le_of_lt hlen)
  have hturns : turns A = m + es₂.length + 1 + es₁.length := by omega
  rw [hturns, hloop, Option.or_none, unbindLoop, hnode]
  exact if_pos (hnodeName.trans hname)

/-- **`unbind`** of a name that is there. -/
theorem unbind_present [DecidableEq A] [Fintype A] (h : Represents t (es₁ ++ e :: es₂))
    (hother : ∀ e' ∈ es₁, e'.name ≠ name) (hname : e.name = name) :
    ∃ t', unbind t name = some (t', ⟨0, some e.pointer⟩) ∧ Represents t' (es₁ ++ es₂) := by
  obtain ⟨hsearch, node, hnode, hpointer, hnext⟩ := unbindLoop_found h hother hname
  have hthere : ∀ e' ∈ es₁ ++ es₂, ∃ node', t.nodes e'.node = some node' := fun e' he' => by
    have hmem : e' ∈ es₁ ++ e :: es₂ := by
      rcases List.mem_append.mp he' with he' | he'
      · exact List.mem_append_left _ he'
      · exact List.mem_append_right _ (List.mem_cons_of_mem e he')
    obtain ⟨node', hnode', -⟩ := h.holds e' hmem
    exact ⟨node', hnode'⟩
  obtain ⟨nodes₁, hfirst, hnodes₁⟩ := linkNext_spec t (es₁.map NameEntry.node).getLast? node.next
    fun a ha => by
      obtain ⟨e', he', rfl⟩ := List.mem_map.mp (List.mem_of_getLast? ha)
      exact hthere e' (List.mem_append_left _ he')
  obtain ⟨nodes₂, hsecond, hnodes₂⟩ := linkPrev_spec nodes₁ (es₁.map NameEntry.node).getLast?
    node.next fun a ha => by
      rw [hnext] at ha
      obtain ⟨e', he', rfl⟩ := List.mem_map.mp (List.mem_of_head? ha)
      obtain ⟨node', hnode'⟩ := hthere e' (List.mem_append_right _ he')
      have hval := hnodes₁ e'.node
      rw [hnode'] at hval
      split_ifs at hval
      · exact ⟨_, hval⟩
      · exact ⟨_, hval⟩
  have hhead : ((es₁.map NameEntry.node).getLast?.elim node.next fun _ => t.nameHead) =
      ((es₁ ++ es₂).map NameEntry.node).head? := by
    rcases es₁ with _ | ⟨e₁, es₁⟩
    · exact hnext
    · rw [List.map_cons, List.getLast?_cons]
      exact h.head
  have hrep := h.erase (Function.update_self e.node none nodes₂) (fun x hx => by
    rw [Function.update_of_ne hx, hnodes₂, hnodes₁, hnext]
    rcases t.nodes x with _ | node'
    · split_ifs <;> rfl
    · split_ifs <;> rfl) hhead
  refine ⟨_, ?_, hrep⟩
  simp only [unbind, hsearch, hnode, hfirst, hsecond, hpointer, Option.map_some]

/-- **`unbind`** of a name that is not there. -/
theorem unbind_absent [DecidableEq A] [Fintype A] (h : Represents t es)
    (hother : ∀ e ∈ es, e.name ≠ name) : unbind t name = some (t, ⟨-1, none⟩) := by
  have hpath := h.path
  rw [← List.append_nil es] at hpath
  obtain ⟨q, hq, hloop⟩ := unbindLoop_append none hpath h.holds hother
  obtain rfl : q = none := hq
  obtain ⟨m, hm⟩ := Nat.exists_eq_add_of_lt h.length_lt
  have hturns : turns A = m + 1 + es.length := by omega
  rw [unbind, hturns, hloop]
  rfl

/-! ### Operations -/

/-- **One operation** does on the entries what it does in a multimap. -/
theorem step_spec [DecidableEq A] [Fintype A] (h : Represents t es) (cmd : Command P) :
    ∃ t' r es', step t cmd = some (t', r) ∧ Multimap.Step es cmd r es' ∧ Represents t' es' := by
  have hfind : ∀ name, sharedFind t name = some ((Multimap.lookup name es).map NameEntry.node) :=
    fun name => findLoop_eq h.path h.holds h.length_lt
  have hholds : ∀ {name e}, Multimap.lookup name es = some e → Holds t.nodes e := fun he =>
    h.holds _ (List.mem_of_find?_eq_some he)
  rcases cmd with ⟨name, pointer, duplicates⟩ | ⟨name, pointer⟩ | name | name
  · obtain ⟨t', code, es', hbind, hpush, ht'⟩ := sharedBind_spec h name pointer
    rcases hl : Multimap.lookup name es with _ | e
    · refine ⟨t', ⟨code, none⟩, es', ?_, .bind (Or.inr hl) hpush, ht'⟩
      rw [step, bind, hfind, hl, hbind]
      exact ite_self _
    · by_cases hdup : duplicates = 0
      · subst hdup
        refine ⟨t, ⟨1, none⟩, es, ?_, .bindPresent hl, h⟩
        rw [step, bind, hfind, hl]
        rfl
      · refine ⟨t', ⟨code, none⟩, es', ?_, .bind (Or.inl hdup) hpush, ht'⟩
        rw [step, bind, if_neg hdup, hbind]
        rfl
  · rcases hl : Multimap.lookup name es with _ | e
    · obtain ⟨t', code, es', hbind, hpush, ht'⟩ := sharedBind_spec h name pointer
      refine ⟨t', ⟨code, none⟩, es', ?_, .trybind hl hpush, ht'⟩
      rw [step, trybind, hfind, hl, hbind]
      rfl
    · obtain ⟨node, hnode, -, hpointer⟩ := hholds hl
      refine ⟨t, ⟨1, some e.pointer⟩, es, ?_, .trybindPresent hl, h⟩
      rw [step, trybind, hfind, hl, ← hpointer]
      simp only [Option.map_some, hnode]
  · rcases hl : Multimap.lookup name es with _ | e
    · refine ⟨t, ⟨-1, none⟩, es, ?_, .findAbsent hl, h⟩
      rw [step, find, hfind, hl]
      rfl
    · obtain ⟨node, hnode, -, hpointer⟩ := hholds hl
      refine ⟨t, ⟨0, some e.pointer⟩, es, ?_, .find hl, h⟩
      rw [step, find, hfind, hl, ← hpointer]
      simp only [Option.map_some, hnode]
  · rcases hl : Multimap.lookup name es with _ | e
    · refine ⟨t, ⟨-1, none⟩, es, unbind_absent h ?_, .unbindAbsent hl, h⟩
      simpa [NameEntry.Named] using List.find?_eq_none.mp hl
    · obtain ⟨es₁, es₂, rfl, hother, hname, herase⟩ := lookup_eq_some hl
      obtain ⟨t', hunbind, ht'⟩ := unbind_present h hother hname
      exact ⟨t', _, es₁ ++ es₂, hunbind, herase ▸ .unbind hl, ht'⟩

/-- **Runs.** -/
theorem run_spec [DecidableEq A] [Fintype A] (h : Represents t es) (cmds : List (Command P)) :
    ∃ t' rs es', Machine.run step t cmds = some (t', rs) ∧ Multimap.Steps es cmds rs es' ∧
      Represents t' es' := by
  induction cmds generalizing t es with
  | nil => exact ⟨t, [], es, rfl, .nil es, h⟩
  | cons cmd cmds ih =>
    obtain ⟨t₁, r, es₁, hstep, hmap, h₁⟩ := step_spec h cmd
    obtain ⟨t₂, rs, es₂, hrun, hmaps, h₂⟩ := ih h₁
    exact ⟨t₂, r :: rs, es₂, Machine.run_cons_eq_some.mpr ⟨t₁, r, rs, hstep, hrun, rfl⟩,
      .cons hmap hmaps, h₂⟩

/-- **The name table.** After every run the nodes are linked in both directions and are the entries
of a multimap that has gone through the same operations, with the same results. For every filter,
the iterator from the newest entry visits the matching nodes in this order; the one from the oldest
visits them in the opposite order exactly when the oldest entry matches the filter. -/
theorem nameTable_iff [DecidableEq A] [Fintype A] (pool : Allocator A) (state : pool.State)
    (cmds : List (Command P)) :
    ∃ t rs es, Machine.run step (empty pool P state) cmds = some (t, rs) ∧
      Multimap.Steps [] cmds rs es ∧ Represents t es ∧
      (∀ a ∈ es.map NameEntry.node, ∀ b ∈ es.map NameEntry.node,
        linksOf t.nodes NameNode.next a = some (some b) ↔
          linksOf t.nodes NameNode.prev b = some (some a)) ∧
      ∀ filter, lifoVisits t filter =
          some ((es.filter (NameEntry.Matches filter)).map NameEntry.node) ∧
        (fifoVisits t filter =
            some ((es.filter (NameEntry.Matches filter)).map NameEntry.node).reverse ↔
          ∀ e ∈ es.getLast?, e.Matches filter = true) := by
  obtain ⟨t, rs, es, hrun, hmaps, ht⟩ := run_spec (represents_empty state) cmds
  exact ⟨t, rs, es, hrun, hmaps, ht, fun a ha b hb => ht.isList.next_iff ha hb, fun filter =>
    ⟨lifoVisits_eq ht filter, fifoVisits_iff ht filter⟩⟩

/-! ### A run -/

/-- An allocator of eight blocks, which gives out the first one that is free. -/
def firstFree : Allocator (Fin 8) where
  State := Finset (Fin 8)
  live s := s
  malloc s _ := ((List.finRange 8).find? fun a => a ∉ s).map fun a => (a, insert a s)
  free s a := s.erase a
  malloc_fresh h := by
    obtain ⟨a, ha, heq⟩ := Option.map_eq_some_iff.mp h
    obtain ⟨rfl, -⟩ := Prod.mk.inj heq
    simpa using List.find?_some ha
  live_malloc h := by
    obtain ⟨a, -, heq⟩ := Option.map_eq_some_iff.mp h
    obtain ⟨rfl, rfl⟩ := Prod.mk.inj heq
    exact Finset.coe_insert a _
  live_free s a := Finset.coe_erase a s

/-- With a filter for the second of two names, the iterator from the oldest entry visits both. -/
theorem fifoVisits_ne : ¬∀ (cmds : List (Command ℕ)) (filter : Option Name)
    (t : NameTable firstFree ℕ) (rs : List (Result ℕ)),
    Machine.run step (empty firstFree ℕ (∅ : Finset (Fin 8))) cmds = some (t, rs) →
      fifoVisits t filter = (lifoVisits t filter).map List.reverse := by
  intro h
  have heq := h [.bind [97] 1 0, .bind [98] 2 0] (some [98]) _ _ rfl
  revert heq
  decide

end NameTable

end AceTao
