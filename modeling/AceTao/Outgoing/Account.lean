import AceTao.Outgoing.Drain
import Mathlib.Data.List.Basic
import Mathlib.Logic.Relation

/-!
# What the peer has got

A list of messages accounts for the bytes in the socket and for the queue, if the messages are
those that are `done`, all of which is in the socket, and then those in the queue; of the first of
these a `part` may be in the socket too, and then it does not expire. So the bytes in the socket
and those that are yet to be sent are the messages, one after the other (`Accounts.flatten`).

A move leaves such a list, with at most a whole message less (`Accounts.move`), and the last
message is the same if it does not expire (`EndsWith.move`).
-/

namespace AceTao.Outgoing

open Message

/-- The messages in the queue as a whole, of the first of which a part was sent. -/
def whole (part : List UInt8) (q : List Message) : List (List UInt8) :=
  (q.map pending).modifyHead (part ++ ·)

/-- **The messages and how much of them was sent.** -/
structure Account (messages : List (List UInt8)) (wire : List UInt8) (q : List Message)
    (done : List (List UInt8)) (part : List UInt8) : Prop where
  messages_eq : messages = done ++ whole part q
  wire_eq : wire = done.flatten ++ part
  sound : ∀ m ∈ q, m.Sound ∧ m.pending ≠ []
  part_eq : q = [] → part = []
  lasting : part ≠ [] → ∀ m ∈ q.head?, m.Lasting

/-- The messages account for the bytes in the socket and the queue. -/
def Accounts (messages : List (List UInt8)) (s : List UInt8 × List Message) : Prop :=
  ∃ done part, Account messages s.1 s.2 done part

variable {messages done : List (List UInt8)} {wire part : List UInt8} {q q₁ q₂ : List Message}
  {s s' : List UInt8 × List Message} {m : Message}

@[simp] theorem whole_nil (q : List Message) : whole [] q = q.map pending := by
  rw [whole]
  cases q <;> rfl

theorem whole_append (h : q₁ = [] → part = []) :
    whole part (q₁ ++ q₂) = whole part q₁ ++ q₂.map pending := by
  cases q₁ with
  | nil => rw [h rfl, whole_nil, whole_nil]; rfl
  | cons m q₁ =>
    rw [whole, whole, List.cons_append, List.map_cons, List.map_cons, List.map_append]
    rfl

theorem flatten_whole (h : q = [] → part = []) :
    (whole part q).flatten = part ++ (q.map pending).flatten := by
  cases q with
  | nil => rw [h rfl]; rfl
  | cons m q => exact List.append_assoc _ _ _

theorem Account.flatten (h : Account messages wire q done part) :
    wire ++ (q.map pending).flatten = messages.flatten := by
  rw [h.messages_eq, List.flatten_append, flatten_whole h.part_eq, h.wire_eq, List.append_assoc]

/-- **The bytes in the socket and those in the queue** are the messages one after the other. -/
theorem Accounts.flatten (h : Accounts messages s) :
    s.1 ++ (s.2.map pending).flatten = messages.flatten := by
  obtain ⟨done, part, h⟩ := h
  exact h.flatten

/-! ### Moves -/

/-- **A message that may expire** is not in the socket, and is discarded as a whole. -/
theorem Account.discard (h : Account messages wire (q₁ ++ m :: q₂) done part) (hm : ¬ m.Lasting) :
    Account (done ++ (whole part q₁ ++ q₂.map pending)) wire (q₁ ++ q₂) done part ∧
      messages = done ++ (whole part q₁ ++ m.pending :: q₂.map pending) := by
  have hpart : q₁ = [] → part = [] := by
    rintro rfl
    by_contra hne
    exact hm (h.lasting hne m rfl)
  refine ⟨⟨by rw [whole_append hpart], h.wire_eq, fun x hx => h.sound x ?_, fun hnil => ?_, ?_⟩, ?_⟩
  · rcases List.mem_append.mp hx with hx | hx
    · exact List.mem_append_left _ hx
    · exact List.mem_append_right _ (List.mem_cons_of_mem _ hx)
  · exact hpart (List.append_eq_nil_iff.mp hnil).1
  · intro hne x hx
    cases q₁ with
    | nil => exact absurd (hpart rfl) hne
    | cons y q₁ => exact h.lasting hne x hx
  · rw [h.messages_eq, whole_append hpart, List.map_cons]

/-- **The first bytes of the queue** are moved into the socket. -/
theorem Account.sent {n : ℕ} (h : Account messages wire q done part)
    (hn : n ≤ (q.map pending).flatten.length) :
    ∃ done' part',
      Account messages (wire ++ (q.map pending).flatten.take n) (cleanupQueue n q) done' part' := by
  induction q generalizing wire done part n with
  | nil =>
    refine ⟨done, part, ?_⟩
    rw [cleanupQueue, List.map_nil, List.flatten_nil, List.take_nil, List.append_nil]
    exact h
  | cons m q ih =>
    obtain ⟨⟨hsound, hpending⟩, hsounds⟩ := List.forall_mem_cons.mp h.sound
    rw [cleanupQueue]
    by_cases hzero : n = 0
    · rw [if_pos hzero, hzero, List.take_zero, List.append_nil]
      exact ⟨done, part, h⟩
    have hpos := Nat.pos_of_ne_zero hzero
    obtain ⟨hsound', hpending', hrest⟩ := bytesTransferred_spec hsound hpos
    rw [if_neg hzero, List.map_cons, List.flatten_cons, List.take_append]
    dsimp only
    rw [List.map_cons, List.flatten_cons, List.length_append] at hn
    have hmessages := h.messages_eq
    by_cases hall : (m.bytesTransferred n).1.allDataSent = true
    · -- All of the first message is in the socket.
      have hle : m.pending.length ≤ n := by
        rw [← pending_eq_nil_iff hsound', hpending', List.drop_eq_nil_iff] at hall
        exact hall
      rw [if_pos hall, hrest, List.take_of_length_le hle, ← List.append_assoc]
      suffices haccount :
          Account messages (wire ++ m.pending) q (done ++ [part ++ m.pending]) [] from
        ih haccount (by omega)
      refine ⟨?_, ?_, hsounds, fun _ => rfl, fun hne => absurd rfl hne⟩
      · rw [whole_nil, List.append_assoc, hmessages]
        rfl
      · rw [h.wire_eq, List.flatten_append, List.flatten_singleton, List.append_nil,
          List.append_assoc]
    · have hlt : n < m.pending.length := by
        rw [← pending_eq_nil_iff hsound', hpending', List.drop_eq_nil_iff] at hall
        omega
      rw [if_neg hall, Nat.sub_eq_zero_of_le (Nat.le_of_lt hlt), List.take_zero, List.append_nil]
      refine ⟨done, part ++ m.pending.take n, ?_, ?_, ?_, ?_, ?_⟩
      · rw [hmessages, whole, whole, List.map_cons, List.map_cons, List.modifyHead_cons,
          List.modifyHead_cons, pending_copyIfNecessary, hpending', List.append_assoc,
          List.take_append_drop]
      · rw [h.wire_eq, List.append_assoc]
      · refine List.forall_mem_cons.mpr ⟨⟨hsound'.copyIfNecessary, ?_⟩, hsounds⟩
        rw [pending_copyIfNecessary, hpending', Ne, List.drop_eq_nil_iff]
        omega
      · exact fun hnil => absurd hnil (List.cons_ne_nil _ _)
      · rintro - x hx
        obtain rfl := Option.some_inj.mp hx
        exact (lasting_bytesTransferred hpending hpos).copyIfNecessary

/-- Messages that do not expire are still such. -/
theorem lasting_cleanupQueue (h : ∀ m ∈ q, m.Lasting) (hp : ∀ m ∈ q, m.pending ≠ []) (n : ℕ) :
    ∀ m ∈ cleanupQueue n q, m.Lasting := by
  induction q generalizing n with
  | nil => exact List.forall_mem_nil _
  | cons m q ih =>
    obtain ⟨hm, hq⟩ := List.forall_mem_cons.mp h
    obtain ⟨hpm, hpq⟩ := List.forall_mem_cons.mp hp
    rw [cleanupQueue]
    split_ifs with hzero
    · exact h
    dsimp only
    split_ifs
    · exact ih hq hpq _
    · exact List.forall_mem_cons.mpr
        ⟨(lasting_bytesTransferred hpm (Nat.pos_of_ne_zero hzero)).copyIfNecessary, hq⟩

/-- **What a drain leaves** of messages that stand in a relation to the queue: only whole ones that
may expire are missing. -/
def Leaves (P : List (List UInt8) → List UInt8 × List Message → Prop)
    (messages : List (List UInt8)) (s s' : List UInt8 × List Message) : Prop :=
  ∃ messages', P messages' s' ∧ messages'.Sublist messages ∧
    ((∀ m ∈ s.2, m.Lasting) → messages' = messages ∧ ∀ m ∈ s'.2, m.Lasting)

/-- What one move leaves, a drain leaves. -/
theorem leaves_of_moves {P : List (List UInt8) → List UInt8 × List Message → Prop}
    (hmove : ∀ {messages s s'}, P messages s → Move s s' → Leaves P messages s s')
    (h : P messages s) (hmoves : Moves s s') : Leaves P messages s s' := by
  induction hmoves with
  | refl => exact ⟨messages, h, List.Sublist.refl _, fun hlasting => ⟨rfl, hlasting⟩⟩
  | tail _ hlast ih =>
    obtain ⟨messages', h', hsub, hlasting⟩ := ih
    obtain ⟨messages'', h'', hsub', hlasting'⟩ := hmove h' hlast
    refine ⟨messages'', h'', hsub'.trans hsub, fun hall => ?_⟩
    obtain ⟨heq, hall'⟩ := hlasting hall
    obtain ⟨heq', hall''⟩ := hlasting' hall'
    exact ⟨heq'.trans heq, hall''⟩

/-- **One move**: the messages that account for the queue are the same, or there is a whole one
less, which may expire. -/
theorem Accounts.move (h : Accounts messages s) (hmove : Move s s') :
    Leaves Accounts messages s s' := by
  obtain ⟨done, part, h⟩ := h
  cases hmove with
  | discard wire q₁ q₂ m hm =>
    obtain ⟨haccount, hmessages⟩ := h.discard hm
    refine ⟨_, ⟨done, part, haccount⟩, ?_, fun hlasting => ?_⟩
    · rw [hmessages]
      exact ((List.sublist_cons_self _ _).append_left _).append_left _
    · exact absurd (hlasting m (List.mem_append_right _ List.mem_cons_self)) hm
  | sent wire q n hn =>
    obtain ⟨done', part', haccount⟩ := h.sent hn
    exact ⟨messages, ⟨done', part', haccount⟩, List.Sublist.refl _, fun hlasting =>
      ⟨rfl, lasting_cleanupQueue hlasting (fun m hm => (h.sound m hm).2) n⟩⟩

/-! ### The message at the back -/

/-- **A message of which nothing was sent** can be taken back. -/
theorem Account.dropBack {base : List (List UInt8)} {payload : List UInt8}
    (h : Account (base ++ [payload]) wire (q ++ [m]) done part) (hq : q = [] → part = []) :
    Account base wire q done part := by
  have hmessages := h.messages_eq
  rw [whole_append hq, ← List.append_assoc] at hmessages
  refine ⟨(List.append_inj' hmessages rfl).1, h.wire_eq, fun x hx => ?_, hq, fun hne x hx => ?_⟩
  · exact h.sound x (List.mem_append_left _ hx)
  · refine h.lasting hne x ?_
    cases q with
    | nil => cases hx
    | cons y q => exact hx

/-- A message can be replaced by another one with the same bytes. -/
theorem Account.replaceBack (m' : Message) (h : Account messages wire (q ++ [m]) done part)
    (hpending : m'.pending = m.pending) (hsound : m'.Sound)
    (hlasting : q = [] → part ≠ [] → m'.Lasting) : Account messages wire (q ++ [m']) done part := by
  refine ⟨?_, h.wire_eq, fun x hx => ?_, fun hnil => ?_, fun hne x hx => ?_⟩
  · rw [h.messages_eq, whole, whole, List.map_append, List.map_append, List.map_singleton,
      List.map_singleton, hpending]
  · rcases List.mem_append.mp hx with hx | hx
    · exact h.sound x (List.mem_append_left _ hx)
    · rw [List.mem_singleton.mp hx, hpending]
      exact ⟨hsound, (h.sound m (List.mem_append_right _ List.mem_cons_self)).2⟩
  · exact absurd (List.append_eq_nil_iff.mp hnil).2 (List.cons_ne_nil _ _)
  · cases q with
    | nil =>
      obtain rfl := Option.some_inj.mp hx
      exact hlasting rfl hne
    | cons y q => exact h.lasting hne x hx

/-- A message is queued behind the others. -/
theorem Accounts.push (h : Accounts messages (wire, q)) (hsound : m.Sound)
    (hpending : m.pending ≠ []) :
    Accounts (messages ++ [m.pending]) (wire, q ++ [m]) := by
  obtain ⟨done, part, haccount⟩ := h
  refine ⟨done, part, ?_, haccount.wire_eq, fun x hx => ?_, fun hnil => ?_, fun hne x hx => ?_⟩
  · rw [haccount.messages_eq, whole_append haccount.part_eq, List.append_assoc, List.map_singleton]
  · rcases List.mem_append.mp hx with hx | hx
    · exact haccount.sound x hx
    · rw [List.mem_singleton.mp hx]
      exact ⟨hsound, hpending⟩
  · exact absurd (List.append_eq_nil_iff.mp hnil).2 (List.cons_ne_nil _ _)
  · cases q with
    | nil => exact absurd (haccount.part_eq rfl) hne
    | cons y q => exact haccount.lasting hne x hx

/-- **A message at the back** of which a thread keeps the address: it was the last one to be
queued, and it is in the queue until all of it is in the socket. -/
structure EndsWith (address : ℕ) (base : List (List UInt8)) (payload : List UInt8)
    (s : List UInt8 × List Message) : Prop where
  accounts : Accounts (base ++ [payload]) s
  back : s.2 = [] ∨ ∃ q m, s.2 = q ++ [synch address m] ∧ ∀ a m', synch a m' ∈ q → a < address

variable {address : ℕ} {base : List (List UInt8)} {payload : List UInt8}

theorem mem_of_mem_cleanupQueue {n a : ℕ} {x : Synch} (h : synch a x ∈ cleanupQueue n q) :
    ∃ x', synch a x' ∈ q := by
  induction q generalizing n with
  | nil => cases h
  | cons m q ih =>
    rw [cleanupQueue] at h
    split_ifs at h with hzero
    · exact ⟨x, h⟩
    dsimp only at h
    split_ifs at h with hall
    · obtain ⟨x', hx'⟩ := ih h
      exact ⟨x', List.mem_cons_of_mem _ hx'⟩
    · rcases List.mem_cons.mp h with heq | hmem
      · cases m with
        | synch b y =>
          rw [bytesTransferred, Message.copyIfNecessary] at heq
          injection heq with heq
          exact ⟨y, heq ▸ List.mem_cons_self⟩
        | asynch y =>
          rw [bytesTransferred] at heq
          split_ifs at heq <;> cases heq
      · exact ⟨x, List.mem_cons_of_mem _ hmem⟩

/-- A drain queues nothing. -/
theorem Moves.fresh {n : ℕ} (hmoves : Moves s s') (h : ∀ a x, synch a x ∈ s.2 → a < n) :
    ∀ a x, synch a x ∈ s'.2 → a < n := by
  induction hmoves with
  | refl => exact h
  | tail _ hmove ih =>
    intro a x hx
    cases hmove with
    | discard wire q₁ q₂ m hm =>
      refine ih a x ?_
      rcases List.mem_append.mp hx with hx | hx
      · exact List.mem_append_left _ hx
      · exact List.mem_append_right _ (List.mem_cons_of_mem _ hx)
    | sent wire q k hk =>
      obtain ⟨x', hx'⟩ := mem_of_mem_cleanupQueue hx
      exact ih a x' hx'

/-- The message at the back is sent last. -/
theorem cleanupQueue_back (q : List Message) (x : Synch) (n : ℕ) :
    cleanupQueue n (q ++ [synch address x]) = [] ∨
      ∃ q' x', cleanupQueue n (q ++ [synch address x]) = q' ++ [synch address x'] ∧
        ∀ a y, synch a y ∈ q' → ∃ y', synch a y' ∈ q := by
  induction q generalizing n with
  | nil =>
    rw [List.nil_append, cleanupQueue]
    split_ifs with hzero
    · exact Or.inr ⟨[], x, rfl, fun a y hy => by cases hy⟩
    dsimp only
    split_ifs with hall
    · exact Or.inl (by rw [cleanupQueue])
    · exact Or.inr ⟨[], _, rfl, fun a y hy => by cases hy⟩
  | cons m q ih =>
    rw [List.cons_append, cleanupQueue]
    split_ifs with hzero
    · exact Or.inr ⟨m :: q, x, rfl, fun a y hy => ⟨y, hy⟩⟩
    dsimp only
    split_ifs with hall
    · refine (ih (m.bytesTransferred n).2).imp_right ?_
      rintro ⟨q', x', heq, hmem⟩
      refine ⟨q', x', heq, fun a y hy => ?_⟩
      obtain ⟨y', hy'⟩ := hmem a y hy
      exact ⟨y', List.mem_cons_of_mem _ hy'⟩
    · refine Or.inr ⟨(m.bytesTransferred n).1.copyIfNecessary :: q, x, rfl, fun a y hy => ?_⟩
      have hclean : synch a y ∈ cleanupQueue n (m :: q) := by
        rw [cleanupQueue, if_neg hzero]
        dsimp only
        rw [if_neg hall]
        exact hy
      exact mem_of_mem_cleanupQueue hclean

/-- **One move**, when a thread keeps the address of the last message. -/
theorem EndsWith.move (h : EndsWith address base payload s) (hmove : Move s s') :
    Leaves (fun base => EndsWith address base payload) base s s' := by
  obtain ⟨haccounts, hback⟩ := h
  cases hmove with
  | discard wire q₁ q₂ m hm =>
    obtain ⟨done, part, haccount⟩ := haccounts
    obtain ⟨haccount', hmessages⟩ := haccount.discard hm
    rcases hback with hnil | ⟨q, x, hq, hfresh⟩
    · exact absurd (List.append_eq_nil_iff.mp hnil).2 (List.cons_ne_nil _ _)
    -- The message that is discarded is not the one at the back.
    rcases List.eq_nil_or_concat' q₂ with rfl | ⟨q₂, y, rfl⟩
    · have hlast := (List.append_inj' hq rfl).2
      injection hlast with hlast
      exact absurd (hlast ▸ lasting_synch _ _) hm
    dsimp only at hq
    rw [← List.cons_append, ← List.append_assoc] at hq
    obtain ⟨rfl, hlast⟩ := List.append_inj' hq rfl
    obtain rfl := List.singleton_inj.mp hlast
    rw [List.map_append, ← List.cons_append, ← List.append_assoc, ← List.append_assoc] at hmessages
    obtain ⟨rfl, hpayload⟩ := List.append_inj' hmessages rfl
    refine ⟨done ++ (whole part q₁ ++ q₂.map pending),
      ⟨⟨done, part, ?_⟩, Or.inr ⟨q₁ ++ q₂, x, ?_, ?_⟩⟩, ?_, fun hlasting => ?_⟩
    · rw [hpayload, List.append_assoc, List.append_assoc]
      rw [List.map_append] at haccount'
      exact haccount'
    · exact (List.append_assoc _ _ _).symm
    · intro a y hy
      refine hfresh a y ?_
      rcases List.mem_append.mp hy with hy | hy
      · exact List.mem_append_left _ hy
      · exact List.mem_append_right _ (List.mem_cons_of_mem _ hy)
    · rw [List.append_assoc]
      exact ((List.sublist_cons_self _ _).append_left _).append_left _
    · exact absurd (hlasting m (List.mem_append_right _ List.mem_cons_self)) hm
  | sent wire q n hn =>
    obtain ⟨done, part, haccount⟩ := haccounts
    obtain ⟨done', part', haccount'⟩ := haccount.sent hn
    refine ⟨base, ⟨⟨done', part', haccount'⟩, ?_⟩, List.Sublist.refl _, fun hlasting =>
      ⟨rfl, lasting_cleanupQueue hlasting (fun m hm => (haccount.sound m hm).2) n⟩⟩
    rcases hback with hnil | ⟨q', x, hq, hfresh⟩
    · obtain rfl : q = [] := hnil
      exact Or.inl (by rw [cleanupQueue])
    · obtain rfl : q = q' ++ [synch address x] := hq
      refine (cleanupQueue_back q' x n).imp_right ?_
      rintro ⟨q'', x', heq, hmem⟩
      refine ⟨q'', x', heq, fun a y hy => ?_⟩
      obtain ⟨y', hy'⟩ := hmem a y hy
      exact hfresh a y' hy'

end AceTao.Outgoing
