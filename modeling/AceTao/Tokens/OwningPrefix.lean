import AceTao.Tokens.RWToken
import Mathlib.Data.List.TakeWhile

/-!
# The owning prefix of a queue

When the queue of a readers/writer token represents a list of entries, its owners are a prefix of
that list (`Proxies.owners`): the writer at the head, or the readers up to the first writer. The
functions of the token that go along the queue are functions of the list then.

The lemmas about the prefix say who is an owner after an entry has come or gone. A reader makes no
difference to the others (`mem_readers_insert`), and one that comes to the end makes none where a
writer is queued. A writer that goes from the middle of the queue may leave more owners behind it.
-/

namespace AceTao.Tokens

open SinglyLinked

variable {E C : Type} {p : Proxies E C} {l l₁ l₂ : List E} {e x : E} {c : C}

namespace Proxies

/-- The readers before the first writer. -/
def readers (p : Proxies E C) (l : List E) : List E := l.takeWhile fun e => p.type e = .reader

/-- **The owners**: a writer at the head, or the readers before the first writer. -/
def owners (p : Proxies E C) : List E → List E
  | [] => []
  | e :: l => if p.type e = .writer then [e] else p.readers (e :: l)

/-- **The client owns the token**: one of the owners is an entry of it. -/
def Owns (p : Proxies E C) (l : List E) (c : C) : Prop := ∃ e ∈ p.owners l, p.clientId e = c

instance [DecidableEq C] (p : Proxies E C) (l : List E) (c : C) : Decidable (p.Owns l c) :=
  inferInstanceAs (Decidable (∃ e ∈ p.owners l, p.clientId e = c))

/-! ### Readers and owners -/

@[simp] theorem readers_nil : p.readers [] = [] := rfl

@[simp] theorem owners_nil : p.owners [] = [] := rfl

theorem readers_cons_of_reader (h : p.type e = .reader) :
    p.readers (e :: l) = e :: p.readers l := by
  rw [readers, List.takeWhile_cons_of_pos (by simpa using h)]
  rfl

theorem readers_cons_of_writer (h : p.type e = .writer) : p.readers (e :: l) = [] := by
  rw [readers, List.takeWhile_cons_of_neg (by simp [h])]

theorem mem_of_mem_readers (h : x ∈ p.readers l) : x ∈ l := (List.takeWhile_prefix _).subset h

theorem reader_of_mem_readers (h : x ∈ p.readers l) : p.type x = .reader := by
  simpa using List.mem_takeWhile_imp h

theorem readers_eq_self (h : ∀ x ∈ l, p.type x = .reader) : p.readers l = l :=
  List.takeWhile_eq_self_iff.mpr fun x hx => by simpa using h x hx

theorem owners_cons_of_reader (h : p.type e = .reader) :
    p.owners (e :: l) = p.readers (e :: l) := by
  rw [owners, if_neg (by simp [h])]

theorem owners_cons_of_writer (h : p.type e = .writer) : p.owners (e :: l) = [e] := by
  rw [owners, if_pos h]

/-- **Who is an owner.** -/
theorem mem_owners : x ∈ p.owners l ↔
    x ∈ p.readers l ∨ p.type x = .writer ∧ l.head? = some x := by
  rcases l with _ | ⟨a, l⟩
  · simp
  rw [List.head?_cons, Option.some.injEq]
  rcases ha : p.type a
  · rw [owners_cons_of_reader ha]
    refine ⟨Or.inl, ?_⟩
    rintro (h | ⟨hx, rfl⟩)
    · exact h
    · rw [ha] at hx
      cases hx
  · rw [owners_cons_of_writer ha, readers_cons_of_writer ha, List.mem_singleton]
    constructor
    · rintro rfl
      exact Or.inr ⟨ha, rfl⟩
    · rintro (h | ⟨-, rfl⟩)
      · cases h
      · rfl

theorem mem_of_mem_owners (h : x ∈ p.owners l) : x ∈ l := by
  rcases mem_owners.mp h with h | ⟨-, h⟩
  · exact mem_of_mem_readers h
  · exact List.mem_of_mem_head? h

/-- The head is an owner. -/
theorem head_mem_owners (h : l.head? = some x) : x ∈ p.owners l := by
  rcases hx : p.type x
  · obtain ⟨t, rfl⟩ := List.head?_eq_some_iff.mp h
    rw [owners_cons_of_reader hx, readers_cons_of_reader hx]
    simp
  · exact mem_owners.mpr (Or.inr ⟨hx, h⟩)

/-- Behind a writer at the head there are no other owners. -/
theorem eq_of_head_writer (h : l.head? = some e) (he : p.type e = .writer)
    (hx : x ∈ p.owners l) : x = e := by
  obtain ⟨t, rfl⟩ := List.head?_eq_some_iff.mp h
  rw [owners_cons_of_writer he, List.mem_singleton] at hx
  exact hx

/-- The owners are readers when one of them is. -/
theorem mem_readers_of_mem_owners (he : e ∈ p.owners l) (hreader : p.type e = .reader)
    (hx : x ∈ p.owners l) : x ∈ p.readers l := by
  rcases mem_owners.mp hx with h | ⟨hw, h⟩
  · exact h
  · rw [eq_of_head_writer h hw he, hw] at hreader
    cases hreader

/-- A writer that owns the token is at the head. -/
theorem head_of_mem_owners (he : e ∈ p.owners l) (hw : p.type e = .writer) :
    l.head? = some e := by
  rcases mem_owners.mp he with h | ⟨-, h⟩
  · rw [reader_of_mem_readers h] at hw
    cases hw
  · exact h

theorem owners_of_reader (h : l.head? = some e) (he : p.type e = .reader) :
    p.owners l = p.readers l := by
  obtain ⟨t, rfl⟩ := List.head?_eq_some_iff.mp h
  exact owners_cons_of_reader he

/-! ### Entries that come and go -/

/-- **A reader makes no difference to the other readers**, wherever it is. -/
theorem mem_readers_insert (he : p.type e = .reader) (hne : x ≠ e) :
    x ∈ p.readers (l₁ ++ e :: l₂) ↔ x ∈ p.readers (l₁ ++ l₂) := by
  induction l₁ with
  | nil =>
    rw [List.nil_append, readers_cons_of_reader he, List.mem_cons, List.nil_append]
    exact or_iff_right hne
  | cons a l₁ ih =>
    rcases ha : p.type a
    · rw [List.cons_append, List.cons_append, readers_cons_of_reader ha, readers_cons_of_reader ha,
        List.mem_cons, List.mem_cons, ih]
    · rw [List.cons_append, List.cons_append, readers_cons_of_writer ha, readers_cons_of_writer ha]

/-- Whatever goes away, the readers before it stay readers. -/
theorem mem_readers_of_insert (hne : x ≠ e) (h : x ∈ p.readers (l₁ ++ e :: l₂)) :
    x ∈ p.readers (l₁ ++ l₂) := by
  rcases he : p.type e
  · exact (mem_readers_insert he hne).mp h
  · induction l₁ with
    | nil =>
      rw [List.nil_append, readers_cons_of_writer he] at h
      cases h
    | cons a l₁ ih =>
      rcases ha : p.type a
      · rw [List.cons_append, readers_cons_of_reader ha, List.mem_cons] at h ⊢
        exact h.imp_right ih
      · rw [List.cons_append, readers_cons_of_writer ha] at h
        cases h

/-- A writer that comes to the end makes no difference, and an entry behind a writer none. -/
theorem readers_concat (h : (∃ w ∈ l, p.type w = .writer) ∨ p.type e = .writer) :
    p.readers (l ++ [e]) = p.readers l := by
  induction l with
  | nil =>
    rcases h with ⟨w, hw, -⟩ | he
    · cases hw
    · exact readers_cons_of_writer he
  | cons a l ih =>
    rcases ha : p.type a
    · rw [List.cons_append, readers_cons_of_reader ha, readers_cons_of_reader ha, ih]
      refine h.imp_left ?_
      rintro ⟨w, hw, htype⟩
      rcases List.mem_cons.mp hw with rfl | hw
      · rw [ha] at htype
        cases htype
      · exact ⟨w, hw, htype⟩
    · rw [List.cons_append, readers_cons_of_writer ha, readers_cons_of_writer ha]

/-- **An entry that has to wait** leaves the owners as they are. -/
theorem mem_owners_concat (hl : l ≠ [])
    (h : (∃ w ∈ l, p.type w = .writer) ∨ p.type e = .writer) :
    x ∈ p.owners (l ++ [e]) ↔ x ∈ p.owners l := by
  rw [mem_owners, mem_owners, readers_concat h, List.head?_append_of_ne_nil _ hl]

section

variable [DecidableEq E]

/-- The list around an entry that is in it. -/
theorem exists_erase (h : e ∈ l) :
    ∃ l₁ l₂, l = l₁ ++ e :: l₂ ∧ l.erase e = l₁ ++ l₂ := by
  obtain ⟨l₁, l₂, rfl, hnotin⟩ := List.eq_append_cons_of_mem h
  exact ⟨l₁, l₂, rfl, by rw [List.erase_append_right _ hnotin, List.erase_cons_head]⟩

/-- **A reader that goes leaves the others as they are.** -/
theorem mem_readers_erase (he : p.type e = .reader) (hne : x ≠ e) :
    x ∈ p.readers (l.erase e) ↔ x ∈ p.readers l := by
  by_cases hmem : e ∈ l
  · obtain ⟨l₁, l₂, rfl, herase⟩ := exists_erase hmem
    rw [herase, mem_readers_insert he hne]
  · rw [List.erase_of_not_mem hmem]

/-- **The readers stay readers** whoever goes. -/
theorem mem_readers_erase_of_mem (hne : x ≠ e) (h : x ∈ p.readers l) :
    x ∈ p.readers (l.erase e) := by
  by_cases hmem : e ∈ l
  · obtain ⟨l₁, l₂, rfl, herase⟩ := exists_erase hmem
    rw [herase]
    exact mem_readers_of_insert hne h
  · rwa [List.erase_of_not_mem hmem]

/-- The head of what is left, when the head has not gone. -/
theorem head?_erase (h : l.head? ≠ some e) : (l.erase e).head? = l.head? := by
  rcases l with _ | ⟨a, l⟩
  · rfl
  · have hne : a ≠ e := fun heq => h (by simp [heq])
    rw [List.erase_cons_tail (by simpa using hne)]
    rfl

/-- **The owners stay owners** whoever else goes. -/
theorem mem_owners_erase_of_mem (hne : x ≠ e) (h : x ∈ p.owners l) : x ∈ p.owners (l.erase e) := by
  rcases mem_owners.mp h with h | ⟨hw, h⟩
  · exact mem_owners.mpr (Or.inl (mem_readers_erase_of_mem hne h))
  · refine mem_owners.mpr (Or.inr ⟨hw, ?_⟩)
    rw [head?_erase (by simpa [h] using hne), h]

/-- **A reader that waits and goes** leaves the owners as they are. -/
theorem mem_owners_erase (hnodup : l.Nodup) (he : e ∉ p.owners l) (hreader : p.type e = .reader) :
    x ∈ p.owners (l.erase e) ↔ x ∈ p.owners l := by
  constructor
  · intro h
    have hne : x ≠ e := by
      rintro rfl
      exact hnodup.not_mem_erase (mem_of_mem_owners h)
    rw [mem_owners, mem_readers_erase hreader hne,
      head?_erase fun hhead => he (head_mem_owners hhead)] at h
    exact mem_owners.mpr h
  · intro h
    exact mem_owners_erase_of_mem (fun heq => he (heq ▸ h)) h

omit [DecidableEq E] in
/-- Where a reader is put makes no difference to the others either. -/
theorem mem_readers_place (he : p.type e = .reader) (hne : x ≠ e) (position : ℤ) :
    x ∈ p.readers (ProxyQueue.place l e position) ↔ x ∈ p.readers l := by
  unfold ProxyQueue.place
  split_ifs
  · rw [← List.nil_append (e :: l), mem_readers_insert he hne, List.nil_append]
  · rw [mem_readers_insert he hne, List.append_nil]
  · rw [mem_readers_insert he hne, List.take_append_drop]

omit [DecidableEq E] in
/-- An entry that is not put at the front leaves the head. -/
theorem head?_place {position : ℤ} (hl : l ≠ []) (h0 : position ≠ 0) :
    (ProxyQueue.place l e position).head? = l.head? := by
  obtain ⟨a, l, rfl⟩ := List.exists_cons_of_ne_nil hl
  rw [ProxyQueue.place, if_neg (by simp [h0])]
  split_ifs
  · rfl
  · obtain ⟨n, hn⟩ : ∃ n, max 1 position.toNat = n + 1 := ⟨max 1 position.toNat - 1, by omega⟩
    rw [hn, List.take_succ_cons]
    rfl

end

end Proxies

/-! ### What the token finds out -/

namespace RWToken

open ProxyQueue Proxies

variable [Fintype E] {t : RWToken E}

omit [Fintype E] in
theorem visit_readerBody (acc : List E) :
    (visit (readerBody p) l acc).elim id id = acc ++ p.readers l := by
  induction l generalizing acc with
  | nil => simp [visit]
  | cons a l ih =>
    rcases ha : p.type a
    · rw [readers_cons_of_reader ha, visit, readerBody, if_neg (by simp [ha])]
      simp only [ih, List.append_assoc, List.singleton_append]
    · rw [readers_cons_of_writer ha, visit, readerBody, if_pos ha]
      simp

theorem readersFrom_head (h : t.waiters.Represents l) :
    t.readersFrom p t.waiters.head = some (p.readers l) := by
  rw [readersFrom, h.walk_eq, Option.map_some, visit_readerBody, List.nil_append]

theorem readersFrom_next (h : t.waiters.Represents (e :: l)) :
    t.readersFrom p (t.waiters.next e) = some (p.readers l) := by
  rw [readersFrom, h.walk_tail, Option.map_some, visit_readerBody, List.nil_append]

omit [Fintype E] in
theorem owner_eq (h : t.waiters.Represents l) : t.owner = l.head? := h.head

section Client

variable [DecidableEq C]

omit [Fintype E] in
theorem visit_isOwnerBody :
    ((visit (isOwnerBody p c) l ()).elim (fun _ => false) fun b => b) =
      decide (∃ x ∈ p.readers l, p.clientId x = c) := by
  induction l with
  | nil => simp [visit]
  | cons a l ih =>
    rcases ha : p.type a
    · rw [readers_cons_of_reader ha, visit, isOwnerBody, if_neg (by simp [ha])]
      by_cases hid : p.clientId a = c
      · simp [hid]
      · simpa [hid] using ih
    · rw [readers_cons_of_writer ha, visit, isOwnerBody, if_pos (by simp [ha])]
      simp

/-- **`is_owner`** finds out whether the client owns the token. -/
theorem isOwner_eq (h : t.waiters.Represents l) : t.isOwner p c = some (decide (p.Owns l c)) := by
  rcases l with _ | ⟨a, l⟩
  · simp only [isOwner, owner_eq h, List.head?_nil]
    simp [Owns]
  · simp only [isOwner, owner_eq h, List.head?_cons]
    rcases ha : p.type a
    · rw [if_neg (by simp), h.walk_eq, Option.map_some, visit_isOwnerBody]
      simp only [Owns, owners_cons_of_reader ha]
    · simp [Owns, owners_cons_of_writer ha]

/-- **`owners`** returns the owners, and whether the client is one. -/
theorem owners_eq (h : t.waiters.Represents l) :
    t.owners p c = some (p.owners l, decide (p.Owns l c)) := by
  rcases l with _ | ⟨a, l⟩
  · simp only [RWToken.owners, owner_eq h, List.head?_nil]
    simp [Owns]
  · simp only [RWToken.owners, owner_eq h, List.head?_cons]
    rcases ha : p.type a
    · rw [if_neg (by simp), readersFrom_head h, Option.map_some]
      simp only [Owns, owners_cons_of_reader ha, Option.some.injEq, Prod.mk.injEq, true_and]
      rw [Bool.eq_iff_iff]
      simp
    · simp [Owns, owners_cons_of_writer ha]

omit [Fintype E] in
theorem visit_isWaitingForBody :
    ((visit (isWaitingForBody p c) l ()).elim (fun _ => false) fun b => b) =
      decide (∃ x ∈ l, p.clientId x = c) := by
  induction l with
  | nil => simp [visit]
  | cons a l ih =>
    by_cases hid : p.clientId a = c
    · simp [visit, isWaitingForBody, hid]
    · simp only [visit, isWaitingForBody, if_neg hid, ih]
      simp [hid]

/-- **`is_waiting_for`** finds out whether the client does not own the token, but is queued. -/
theorem isWaitingFor_eq (h : t.waiters.Represents l) :
    t.isWaitingFor p c = some (decide (¬p.Owns l c ∧ ∃ x ∈ l, p.clientId x = c)) := by
  rcases l with _ | ⟨a, l⟩
  · simp only [isWaitingFor, owner_eq h, List.head?_nil]
    simp
  · simp only [isWaitingFor, owner_eq h, List.head?_cons, isOwner_eq h, h.walk_tail]
    by_cases howns : p.Owns (a :: l) c
    · simp [howns]
    · have ha : p.clientId a ≠ c := fun heq => howns ⟨a, head_mem_owners rfl, heq⟩
      simp [howns, visit_isWaitingForBody, ha]

end Client

/-- The entries that are told that they own the token now. -/
def notified (p : Proxies E C) (l : List E) (oldOwner : E) : List E :=
  if (∃ e, l.head? = some e ∧ p.type e = .reader) ∧ p.type oldOwner = .reader then []
  else p.owners l

omit [Fintype E] in
/-- Who is told to own the token owns it. -/
theorem mem_owners_of_notified {l : List E} (h : x ∈ notified p l e) : x ∈ p.owners l := by
  unfold notified at h
  split_ifs at h
  · cases h
  · exact h

omit [Fintype E] in
/-- An owner that is not told is a reader before whom there is a reader, behind a reader. -/
theorem of_not_notified {l : List E} (hx : x ∈ p.owners l) (h : x ∉ notified p l e) :
    x ∈ p.readers l ∧ p.type e = .reader := by
  unfold notified at h
  split_ifs at h with hif
  · obtain ⟨⟨w, hhead, hreader⟩, he⟩ := hif
    exact ⟨owners_of_reader hhead hreader ▸ hx, he⟩
  · exact absurd hx h

/-- **`notify_new_owner`** calls `token_acquired` for them. -/
theorem notifyNewOwner_eq (h : t.waiters.Represents l) :
    t.notifyNewOwner p e = some (notified p l e) := by
  rcases l with _ | ⟨a, l⟩
  · simp only [notifyNewOwner, owner_eq h, List.head?_nil]
    simp [notified]
  · simp only [notifyNewOwner, owner_eq h, List.head?_cons, readersFrom_head h]
    rcases ha : p.type a
    · rcases he : p.type e <;> simp [notified, ha, he, owners_cons_of_reader ha]
    · simp [notified, ha, owners_cons_of_writer ha]

/-- The sleep hooks that are called are those of the owners. -/
theorem callSleepHooks_eq (h : t.waiters.Represents l) (hne : l ≠ []) :
    t.callSleepHooks p = some (p.owners l) := by
  obtain ⟨a, l, rfl⟩ := List.exists_cons_of_ne_nil hne
  simp only [callSleepHooks, owner_eq h, List.head?_cons, readersFrom_next h]
  rcases ha : p.type a
  · simp [owners_cons_of_reader ha, readers_cons_of_reader ha]
  · simp [owners_cons_of_writer ha]

end RWToken

end AceTao.Tokens
