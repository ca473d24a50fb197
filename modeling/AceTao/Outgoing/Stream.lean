import AceTao.Outgoing.Sends
import Mathlib.Data.List.Basic
import Mathlib.Logic.Relation

/-!
# The bytes on a connection

Whatever the order of the calls, the bytes that the socket has taken are messages in the order in
which they were to be sent, each of them as a whole; only the last one may be cut off, and the
rest of it is then at the front of the queue (`Transport.run_stream`). A message is left out only
as a whole: because it has expired in the queue, or because its sender got the exception
`TIMEOUT`. Where no message has a time limit, exactly the messages whose senders got this
exception are left out (`Transport.run_accepted`).
-/

namespace AceTao.Outgoing

open Message Machine

/-- **Invariant**, until a call has failed: the messages account for the bytes and the queue. -/
structure Holds (messages : List (List UInt8)) (t : Transport) : Prop where
  wire_prefix : t.wire <+: messages.flatten
  accounts : t.failed = false → Accounts messages (t.wire, t.queue)
  fresh : t.failed = false → ∀ a m, synch a m ∈ t.queue → a < t.next

/-- **What a call does** to the messages: the one that it is to send is added, unless `TIMEOUT` says
that it was not sent; and messages that may expire are left out. -/
def Carries (messages payload : List (List UInt8)) (lasting : Prop) (t : Transport)
    (result : Transport × Outcome) : Prop :=
  ∃ messages', Holds messages' result.1 ∧ messages'.Sublist (messages ++ payload) ∧
    (lasting → (∀ m ∈ t.queue, m.Lasting) → result.1.failed = false →
      messages' = messages ++ (if result.2 = .timedOut then [] else payload) ∧
        ∀ m ∈ result.1.queue, m.Lasting)

variable {messages base : List (List UInt8)} {t t' : Transport} {iovMax address : ℕ} {call : Call}
  {payload : List UInt8} {lasting : Prop}

theorem Holds.of_accounts (h : Accounts messages (t.wire, t.queue))
    (hfresh : ∀ a m, synch a m ∈ t.queue → a < t.next) : Holds messages t :=
  ⟨⟨_, h.flatten⟩, fun _ => h, fun _ => hfresh⟩

/-- **A drain within a call**: the message of the caller is at the back. -/
theorem Holds.drain {result : DrainResult} (h : Holds messages t) (hf : t.failed = false)
    (hmax : 0 < iovMax) (hdrain : Transport.drainQueueI iovMax call.now call.answers
      (t.pushSynch call) = (t', result)) :
    ∃ base, EndsWith t.next base call.chain.1.flatten (t'.wire, t'.queue) ∧
      base.Sublist messages ∧
      ((∀ m ∈ t.queue, m.Lasting) → base = messages ∧ ∀ m ∈ t'.queue, m.Lasting) ∧
      t'.next = t.next + 1 := by
  have hpush : EndsWith t.next messages call.chain.1.flatten
      ((t.pushSynch call).wire, (t.pushSynch call).queue) := by
    refine ⟨(h.accounts hf).push (m := synch t.next (Synch.new call.chain.1 call.inStream))
      (fun hnil => absurd hnil call.chain.2) call.chain.2, Or.inr ⟨t.queue, _, rfl, h.fresh hf⟩⟩
  obtain ⟨hmoves, hnext, -⟩ :=
    Transport.drainQueueI_moves hmax call.answers call.now (t.pushSynch call)
  rw [hdrain] at hmoves hnext
  obtain ⟨base, hends, hsub, hlasting⟩ := leaves_of_moves EndsWith.move hpush hmoves
  refine ⟨base, hends, hsub, fun hall => hlasting fun m hm => ?_, hnext⟩
  rcases List.mem_append.mp hm with hm | hm
  · exact hall m hm
  · rw [List.mem_singleton.mp hm]
    exact lasting_synch _ _

/-- The message of a thread is in the queue, or all of it was sent. -/
theorem EndsWith.find (h : EndsWith address base payload (t.wire, t.queue)) :
    (t.queue = [] ∧ t.find address = none) ∨
      ∃ q m, t.queue = q ++ [synch address m] ∧ t.find address = some (synch address m) ∧
        (t.remove address).queue = q ∧ ∀ a m', synch a m' ∈ q → a < address := by
  refine h.back.imp (fun hnil => ⟨hnil, ?_⟩) ?_
  · rw [Transport.find, show t.queue = [] from hnil]
    rfl
  · rintro ⟨q, m, hq, hfresh⟩
    have hq : t.queue = q ++ [synch address m] := hq
    have hnot : ∀ x ∈ q, x.isAt address = false := by
      intro x hx
      cases x with
      | synch a y => exact decide_eq_false (Nat.ne_of_lt (hfresh a y hx))
      | asynch y => rfl
    have hat : (synch address m).isAt address = true := decide_eq_true rfl
    refine ⟨q, m, hq, ?_, ?_, hfresh⟩
    · rw [Transport.find, hq, List.find?_append, List.find?_eq_none.mpr, Option.none_or,
        List.find?_singleton, if_pos hat]
      intro x hx
      rw [hnot x hx]
      exact Bool.false_ne_true
    · rw [Transport.remove, hq, List.filter_append, List.filter_eq_self.mpr,
        List.filter_singleton, hat]
      · exact List.append_nil q
      · intro x hx
        rw [hnot x hx]
        rfl

/-- A call that fails. -/
theorem EndsWith.carries_fail (h : EndsWith address base payload (t'.wire, t'.queue))
    (hsub : base.Sublist messages) :
    Carries messages [payload] lasting t (Transport.fail (t'.remove address)) := by
  refine ⟨base ++ [payload], ⟨⟨_, h.accounts.flatten⟩, fun hf => ?_, fun hf => ?_⟩,
    hsub.append_right _, fun _ _ hf => ?_⟩
  · cases hf
  · cases hf
  · cases hf

/-- A call that leaves the queue as it is. -/
theorem EndsWith.carries {outcome : Outcome} (h : EndsWith address base payload (t'.wire, t'.queue))
    (hsub : base.Sublist messages)
    (hlasting : (∀ m ∈ t.queue, m.Lasting) → base = messages ∧ ∀ m ∈ t'.queue, m.Lasting)
    (hnext : t'.next = address + 1) (houtcome : outcome ≠ .timedOut) :
    Carries messages [payload] lasting t (t', outcome) := by
  refine ⟨base ++ [payload], Holds.of_accounts h.accounts fun a m hm => ?_, hsub.append_right _,
    fun _ hall _ => ?_⟩
  · rcases h.find with ⟨hnil, -⟩ | ⟨q, x, hq, -, -, hfresh⟩
    · dsimp only at hm
      rw [hnil] at hm
      cases hm
    · dsimp only at hm ⊢
      rw [hq] at hm
      rcases List.mem_append.mp hm with hm | hm
      · have := hfresh a m hm
        omega
      · injection List.mem_singleton.mp hm with ha
        omega
  · obtain ⟨rfl, hall'⟩ := hlasting hall
    rw [if_neg houtcome]
    exact ⟨rfl, hall'⟩

/-- A call whose message is taken back, since nothing of it was sent. -/
theorem EndsWith.carries_remove (h : EndsWith address base payload (t'.wire, t'.queue))
    (hsub : base.Sublist messages)
    (hlasting : (∀ m ∈ t.queue, m.Lasting) → base = messages ∧ ∀ m ∈ t'.queue, m.Lasting)
    (hnext : t'.next = address + 1) (hlen : payload.length = t'.messageLength address)
    (hpayload : payload ≠ []) :
    Carries messages [payload] lasting t (t'.remove address, .timedOut) := by
  rcases h.find with ⟨-, hfind⟩ | ⟨q, m, hq, hfind, hremove, hfresh⟩
  · rw [Transport.messageLength, hfind] at hlen
    exact absurd (List.length_eq_zero_iff.mp hlen) hpayload
  obtain ⟨done, part, haccount⟩ := h.accounts
  rw [hq] at haccount
  -- If the message is the first one, its bytes and a part are the payload, so the part is empty.
  have hpart : q = [] → part = [] := by
    rintro rfl
    have hmessages := haccount.messages_eq
    rw [List.nil_append, whole, List.map_singleton, List.modifyHead_cons] at hmessages
    have hbytes := List.singleton_inj.mp (List.append_inj' hmessages rfl).2
    rw [Transport.messageLength, hfind, hbytes, List.length_append] at hlen
    dsimp only [Option.map_some, Option.getD_some] at hlen
    exact List.length_eq_zero_iff.mp (by omega)
  have haccount' := haccount.dropBack hpart
  refine ⟨base, Holds.of_accounts ⟨done, part, ?_⟩ fun a x hx => ?_,
    hsub.trans (List.sublist_append_left _ _), fun _ hall _ => ?_⟩
  · rw [hremove]
    exact haccount'
  · dsimp only at hx ⊢
    rw [hremove] at hx
    rw [Transport.remove, hnext]
    exact Nat.lt_succ_of_lt (hfresh a x hx)
  · obtain ⟨rfl, hall'⟩ := hlasting hall
    rw [if_pos rfl, List.append_nil]
    refine ⟨rfl, fun x hx => ?_⟩
    dsimp only at hx
    rw [hremove] at hx
    exact hall' x (hq ▸ List.mem_append_left _ hx)

/-- **`send_synchronous_message_i`**. -/
theorem Holds.sendSynchronous (h : Holds messages t) (hf : t.failed = false) (hmax : 0 < iovMax)
    (call : Call) (scheduled : Bool) :
    Carries messages [call.chain.1.flatten] lasting t
      (t.sendSynchronous iovMax call scheduled) := by
  rw [Transport.sendSynchronous]
  rcases hdrain : Transport.drainQueueI iovMax call.now call.answers (t.pushSynch call) with
    ⟨t', result⟩
  obtain ⟨base, hends, hsub, hlasting, hnext⟩ := h.drain hf hmax hdrain
  have hleft : Carries messages [call.chain.1.flatten] lasting t
      (if t'.find t.next = none then (t', .done)
        else if scheduled = true then (t', .waiting) else Transport.fail (t'.remove t.next)) := by
    split_ifs
    · exact hends.carries hsub hlasting hnext (fun h => by cases h)
    · exact hends.carries hsub hlasting hnext (fun h => by cases h)
    · exact hends.carries_fail hsub
  cases result with
  | error errno =>
    dsimp only
    split_ifs with hnone
    · exact hends.carries_remove hsub hlasting hnext hnone.2 call.chain.2
    · exact hends.carries_fail hsub
  | queueEmpty => exact hends.carries hsub hlasting hnext (fun h => by cases h)
  | ok => exact hleft
  | wouldBlock => exact hleft

/-- **`send_reply_message_i`**: the clone of the message is at the place of the message. -/
theorem Holds.sendReply (h : Holds messages t) (hf : t.failed = false) (hmax : 0 < iovMax)
    (call : Call) :
    Carries messages [call.chain.1.flatten] lasting t (t.sendReply iovMax call true) := by
  rw [Transport.sendReply]
  rcases hdrain : Transport.drainQueueI iovMax call.now call.answers (t.pushSynch call) with
    ⟨t', result⟩
  obtain ⟨base, hends, hsub, hlasting, hnext⟩ := h.drain hf hmax hdrain
  rcases hends.find with ⟨hnil, hfind⟩ | ⟨q, m, hq, hfind, hremove, hfresh⟩
  · -- it has been sent
    have hdone : Carries messages [call.chain.1.flatten] lasting t (t', .done) :=
      hends.carries hsub hlasting hnext (fun h => by cases h)
    cases result with
    | error errno => exact hends.carries_fail hsub
    | queueEmpty => exact hdone
    | ok =>
      dsimp only
      rw [hfind]
      exact hdone
    | wouldBlock =>
      dsimp only
      rw [hfind]
      exact hdone
  · -- it is at the back, and so is its clone
    have hqueued : Carries messages [call.chain.1.flatten] lasting t
        ({ t' with
            queue := q ++ [.synch t'.next ⟨m.blocks, m.blocks, true, false⟩]
            next := t'.next + 1 }, .queued) := by
      obtain ⟨done, part, haccount⟩ := hends.accounts
      rw [hq] at haccount
      have haccount' := haccount.replaceBack (synch t'.next ⟨m.blocks, m.blocks, true, false⟩) rfl
        (haccount.sound _ (List.mem_append_right _ List.mem_cons_self)).1
        fun _ _ => lasting_synch _ _
      refine ⟨base ++ [call.chain.1.flatten],
        Holds.of_accounts ⟨done, part, haccount'⟩ fun a x hx => ?_,
        hsub.append_right _, fun _ hall _ => ?_⟩
      · rcases List.mem_append.mp hx with hx | hx
        · have := hfresh a x hx
          dsimp only
          omega
        · injection List.mem_singleton.mp hx with ha
          dsimp only
          omega
      · obtain ⟨rfl, hall'⟩ := hlasting hall
        rw [if_neg (fun h => by cases h)]
        refine ⟨rfl, fun x hx => ?_⟩
        rcases List.mem_append.mp hx with hx | hx
        · exact hall' x (hq ▸ List.mem_append_left _ hx)
        · rw [List.mem_singleton.mp hx]
          exact lasting_synch _ _
    cases result with
    | error errno => exact hends.carries_fail hsub
    | queueEmpty => exact hends.carries hsub hlasting hnext (fun h => by cases h)
    | ok =>
      dsimp only
      rw [hfind]
      dsimp only
      rw [if_pos rfl, hremove]
      exact hqueued
    | wouldBlock =>
      dsimp only
      rw [hfind]
      dsimp only
      rw [if_pos rfl, hremove]
      exact hqueued

/-! ### Oneway requests -/

/-- One call of `send` is enough for a message of few blocks. -/
theorem fillVector_alone (now : ℤ) (address : ℕ) (inStream : Bool) {chain : List Block}
    (hpieces : pieces chain < iovMax) :
    fillVector iovMax now [synch address (Synch.new chain inStream)] [] =
        ([synch address (Synch.new chain inStream)], fillBlocks iovMax chain []) ∧
      (fillBlocks iovMax chain []).length ≠ iovMax := by
  have hlen := (fillBlocks_spec chain [] (Nat.zero_le iovMax)).1
  have hroom : (fillBlocks iovMax chain []).length ≠ iovMax := by
    rw [hlen, List.length_nil]
    omega
  refine ⟨?_, hroom⟩
  rw [fillVector, if_neg (fun h => by cases h), fillIov, Synch.new, if_neg hroom]
  rfl

theorem cleanupQueue_alone (chain : List Block) (inStream : Bool) (n : ℕ) :
    cleanupQueue n [synch address (Synch.new chain inStream)] = [] ∨
      ∃ m : Synch, cleanupQueue n [synch address (Synch.new chain inStream)] = [synch address m] ∧
        m.chain = m.blocks := by
  rw [cleanupQueue]
  split_ifs
  · exact Or.inr ⟨_, rfl, rfl⟩
  dsimp only
  split_ifs
  · exact Or.inl (by rw [cleanupQueue])
  · exact Or.inr ⟨_, rfl, rfl⟩

/-- **A request that is tried first**: the blocks of the caller show what is left of it, and if
there is an error nothing of it was sent. -/
theorem drain_alone {now : ℤ} {answers : List (SendAnswer × ℤ)} {result : DrainResult}
    (hempty : t.queue = []) (hpieces : pieces call.chain.1 < iovMax)
    (hdrain : Transport.drainQueueI iovMax now answers (t.pushSynch call) = (t', result)) :
    (t'.queue = [] ∨ ∃ m : Synch, t'.queue = [synch t.next m] ∧ m.chain = m.blocks) ∧
      ∀ errno, result = .error errno →
        t'.queue = [synch t.next (Synch.new call.chain.1 call.inStream)] := by
  have hqueue : (t.pushSynch call).queue =
      [synch t.next (Synch.new call.chain.1 call.inStream)] := by
    rw [Transport.pushSynch, hempty, List.nil_append]
  obtain ⟨hfill, hroom⟩ := fillVector_alone now t.next call.inStream hpieces
  have hnew : ∃ m : Synch,
      [synch t.next (Synch.new call.chain.1 call.inStream)] = [synch t.next m] ∧
        m.chain = m.blocks := ⟨_, rfl, rfl⟩
  cases answers with
  | nil =>
    rw [Transport.drainQueueI, hqueue, hfill] at hdrain
    cases hdrain
    exact ⟨Or.inr hnew, fun _ _ => rfl⟩
  | cons pair answers =>
    obtain ⟨answer, later⟩ := pair
    rw [Transport.drainQueueI, hqueue, hfill] at hdrain
    dsimp only at hdrain
    by_cases hiov : fillBlocks iovMax call.chain.1 [] = []
    · rw [if_pos hiov] at hdrain
      cases hdrain
      exact ⟨Or.inr hnew, fun _ _ => rfl⟩
    rw [if_neg hiov] at hdrain
    rcases answer with n | errno | errno
    · rw [Transport.drainQueueHelper] at hdrain
      dsimp only at hdrain
      rw [if_neg hroom] at hdrain
      cases hdrain
      refine ⟨cleanupQueue_alone _ _ _, fun errno h => ?_⟩
      rw [Transport.endResult] at h
      split_ifs at h
    · cases errno <;> cases hdrain <;> exact ⟨Or.inr hnew, fun _ _ => rfl⟩
    · cases hdrain
      exact ⟨Or.inr hnew, fun _ _ => rfl⟩

/-- What is left of a oneway request is queued. -/
theorem EndsWith.carries_queueRest {m : Synch} {byteCount : ℕ} {absTimeout : ℤ}
    (h : EndsWith address base payload (t'.wire, t'.queue)) (hsub : base.Sublist messages)
    (hlasting : (∀ m ∈ t.queue, m.Lasting) → base = messages) (hq : t'.queue = [synch address m])
    (hchain : m.chain = m.blocks) (hcount : byteCount = payload.length - m.blocks.flatten.length)
    (hlimit : lasting → absTimeout = 0) :
    Carries messages [payload] lasting t (t'.queueRest address byteCount absTimeout, .queued) := by
  have hqueue : (t'.queueRest address byteCount absTimeout).queue =
      [asynch ⟨m.blocks.flatten, 0, if 0 < byteCount then 0 else absTimeout⟩] := by
    have hat : (synch address m).isAt address = true := decide_eq_true rfl
    rw [Transport.queueRest, Transport.find, Transport.remove, hq, List.find?_singleton, if_pos hat,
      List.filter_singleton, hat]
    dsimp only [Option.map_some, Option.getD_some, Message.chain, Bool.not_true]
    rw [hchain]
    split_ifs <;> rfl
  have hwire : (t'.queueRest address byteCount absTimeout).wire = t'.wire := by
    rw [Transport.queueRest]
    split_ifs <;> rfl
  obtain ⟨done, part, haccount⟩ := h.accounts
  dsimp only at haccount
  rw [hq] at haccount
  have hmessages := haccount.messages_eq
  rw [whole, List.map_singleton, List.modifyHead_cons] at hmessages
  have hbytes : payload = part ++ m.blocks.flatten :=
    List.singleton_inj.mp (List.append_inj' hmessages rfl).2
  have hpart : part ≠ [] → 0 < byteCount := by
    intro hne
    have hpos := List.length_pos_iff.mpr hne
    rw [hcount, hbytes, List.length_append]
    omega
  have haccount' := haccount.replaceBack (q := [])
    (asynch ⟨m.blocks.flatten, 0, if 0 < byteCount then 0 else absTimeout⟩) rfl (Nat.zero_le _)
    fun _ hne => lasting_asynch (Or.inl (if_pos (hpart hne)))
  refine ⟨base ++ [payload], Holds.of_accounts ⟨done, part, ?_⟩ fun a x hx => ?_,
    hsub.append_right _, fun hl hall _ => ?_⟩
  · rw [hqueue, hwire]
    exact haccount'
  · dsimp only at hx
    rw [hqueue] at hx
    cases List.mem_singleton.mp hx
  · rw [if_neg (fun h => by cases h), hlasting hall]
    refine ⟨rfl, fun x hx => ?_⟩
    dsimp only at hx
    rw [hqueue] at hx
    rw [List.mem_singleton.mp hx]
    refine lasting_asynch (Or.inl ?_)
    dsimp only
    rw [hlimit hl, ite_self]

/-- **`send_asynchronous_message_i`**. -/
theorem Holds.sendAsynchronous {mustQueue : Bool} {absTimeout : ℤ} (h : Holds messages t)
    (hf : t.failed = false) (hmax : 0 < iovMax) (call : Call)
    (hpieces : t.queue = [] → mustQueue = false → pieces call.chain.1 < iovMax)
    (hlimit : lasting → absTimeout = 0) :
    Carries messages [call.chain.1.flatten] lasting t
      (t.sendAsynchronous iovMax call mustQueue absTimeout) := by
  rw [Transport.sendAsynchronous]
  by_cases hqueue : t.queue ≠ [] ∨ mustQueue = true
  · rw [if_pos hqueue]
    have haccounts := (h.accounts hf).push
      (m := asynch ⟨call.chain.1.flatten, 0, absTimeout⟩) (Nat.zero_le _) call.chain.2
    refine ⟨_, Holds.of_accounts haccounts fun a x hx => ?_, List.Sublist.refl _,
      fun hl hall _ => ⟨?_, fun x hx => ?_⟩⟩
    · rcases List.mem_append.mp hx with hx | hx
      · exact h.fresh hf a x hx
      · cases List.mem_singleton.mp hx
    · rw [if_neg (fun h => by cases h)]
      rfl
    · rcases List.mem_append.mp hx with hx | hx
      · exact hall x hx
      · rw [List.mem_singleton.mp hx]
        exact lasting_asynch (Or.inl (hlimit hl))
  rw [not_or, not_not, Bool.not_eq_true] at hqueue
  obtain ⟨hempty, hmust⟩ := hqueue
  have hfirst : ¬ (t.queue ≠ [] ∨ mustQueue = true) := by
    rw [hmust]
    exact fun h => h.elim (fun hne => hne hempty) Bool.false_ne_true
  rw [if_neg hfirst]
  rcases hdrain : Transport.drainQueueI iovMax call.now call.answers (t.pushSynch call) with
    ⟨t', result⟩
  obtain ⟨base, hends, hsub, hlasting, hnext⟩ := h.drain hf hmax hdrain
  obtain ⟨halone, herror⟩ := drain_alone hempty (hpieces hempty hmust) hdrain
  dsimp only
  have hlength : ∀ m, t'.queue = [synch t.next m] →
      t'.messageLength t.next = m.blocks.flatten.length := by
    intro m hm
    rw [Transport.messageLength, Transport.find, hm, List.find?_singleton,
      if_pos (show Message.isAt t.next (synch t.next m) = true from decide_eq_true rfl)]
    rfl
  have hleft : Carries messages [call.chain.1.flatten] lasting t
      (if call.chain.1.flatten.length =
          call.chain.1.flatten.length - t'.messageLength t.next then (t'.remove t.next, .done)
        else
          (t'.queueRest t.next (call.chain.1.flatten.length - t'.messageLength t.next) absTimeout,
            .queued)) := by
    rcases halone with hnil | ⟨m, hm, hchain⟩
    · have hfind : t'.find t.next = none := by
        rw [Transport.find, show t'.queue = [] from hnil]
        rfl
      have hremove : t'.remove t.next = t' := by
        rw [Transport.remove, show t'.queue = [] from hnil, List.filter_nil,
          ← show t'.queue = [] from hnil]
      have hzero : t'.messageLength t.next = 0 := by
        rw [Transport.messageLength, hfind]
        rfl
      rw [hzero, if_pos (Nat.sub_zero _).symm, hremove]
      exact hends.carries hsub hlasting hnext (fun h => by cases h)
    · have hm : t'.queue = [synch t.next m] := hm
      obtain ⟨done, part, haccount⟩ := hends.accounts
      have hne := (haccount.sound (synch t.next m) (hm ▸ List.mem_cons_self)).2
      have hpos : 0 < m.blocks.flatten.length := List.length_pos_iff.mpr hne
      have hpos' : 0 < call.chain.1.flatten.length := List.length_pos_iff.mpr call.chain.2
      rw [hlength m hm, if_neg (by omega)]
      exact hends.carries_queueRest hsub (fun hall => (hlasting hall).1) hm hchain rfl hlimit
  cases result with
  | error errno =>
    have hnew := herror errno rfl
    cases errno with
    | timedOut => exact hends.carries_remove hsub hlasting hnext (hlength _ hnew).symm call.chain.2
    | other => exact hends.carries_fail hsub
    | wouldBlock =>
      exact hends.carries_queueRest hsub (fun hall => (hlasting hall).1) hnew rfl
        (Nat.sub_self _).symm hlimit
  | queueEmpty => exact hends.carries hsub hlasting hnext (fun h => by cases h)
  | ok => exact hleft
  | wouldBlock => exact hleft

/-! ### Runs -/

/-- **`handle_output`**. -/
theorem Holds.handleOutput {now : ℤ} {answers : List (SendAnswer × ℤ)} (h : Holds messages t)
    (hf : t.failed = false) (hmax : 0 < iovMax) :
    Carries messages [] lasting t (t.handleOutput iovMax now answers) := by
  obtain ⟨hmoves, hnext, hfailed⟩ := Transport.drainQueueI_moves hmax answers now t
  have hfresh := hmoves.fresh (h.fresh hf)
  obtain ⟨messages', haccounts, hsub, hlasting⟩ := leaves_of_moves Accounts.move (h.accounts hf) hmoves
  rw [Transport.handleOutput]
  generalize Transport.drainQueueI iovMax now answers t = result at *
  obtain ⟨t', result⟩ := result
  have hnext : t'.next = t.next := hnext
  have hdone : Carries messages [] lasting t (t', .done) := by
    refine ⟨messages', Holds.of_accounts haccounts fun a m hm => ?_, ?_, fun _ hall _ => ?_⟩
    · exact hnext ▸ hfresh a m hm
    · rw [List.append_nil]
      exact hsub
    · rw [ite_self, List.append_nil]
      exact hlasting hall
  cases result with
  | error errno =>
    refine ⟨messages', ⟨⟨_, haccounts.flatten⟩, fun hf => ?_, fun hf => ?_⟩, ?_, fun _ _ hf => ?_⟩
    · cases hf
    · cases hf
    · rw [List.append_nil]
      exact hsub
    · cases hf
  | ok => exact hdone
  | queueEmpty => exact hdone
  | wouldBlock => exact hdone

/-- The call has no time limit for its message. -/
def Event.Unlimited : Event → Prop
  | .sendAsynchronous _ _ absTimeout => absTimeout = 0
  | _ => True

theorem Admissible.failed_eq {e : Event} (h : Admissible iovMax t e) : t.failed = false := by
  cases e with
  | sendSynchronous call scheduled => exact h
  | flushFailed address => exact h
  | sendReply call scheduled => exact h.1
  | sendAsynchronous call mustQueue absTimeout => exact h.1
  | handleOutput now answers => exact h

/-- **One call.** -/
theorem Holds.step {e : Event} {o : Outcome} (h : Holds messages t) (hmax : 0 < iovMax)
    (hg : Admissible iovMax t e) (hstep : t.step iovMax e = some (t', o)) :
    Carries messages e.payload e.Unlimited t (t', o) := by
  have hf := hg.failed_eq
  cases e with
  | sendSynchronous call scheduled =>
    rw [show (t', o) = t.sendSynchronous iovMax call scheduled from (Option.some_inj.mp hstep).symm]
    exact h.sendSynchronous hf hmax call scheduled
  | flushFailed address =>
    rw [show (t', o) = Transport.fail (t.remove address) from (Option.some_inj.mp hstep).symm]
    refine ⟨messages, ⟨h.wire_prefix, fun hf => ?_, fun hf => ?_⟩, ?_, fun _ _ hf => ?_⟩
    · cases hf
    · cases hf
    · rw [Event.payload, List.append_nil]
    · cases hf
  | sendReply call scheduled =>
    obtain rfl : scheduled = true := hg.2
    rw [show (t', o) = t.sendReply iovMax call true from (Option.some_inj.mp hstep).symm]
    exact h.sendReply hf hmax call
  | sendAsynchronous call mustQueue absTimeout =>
    rw [show (t', o) = t.sendAsynchronous iovMax call mustQueue absTimeout from
      (Option.some_inj.mp hstep).symm]
    exact h.sendAsynchronous hf hmax call hg.2 id
  | handleOutput now answers =>
    rw [show (t', o) = t.handleOutput iovMax now answers from (Option.some_inj.mp hstep).symm]
    exact h.handleOutput hf hmax

/-- The messages whose senders did not get the exception `TIMEOUT`. -/
def accepted (events : List Event) (outcomes : List Outcome) : List (List UInt8) :=
  (List.zipWith (fun e o => if o = .timedOut then [] else e.payload) events outcomes).flatten

/-- **A run.** -/
theorem Holds.run {events : List Event} {outcomes : List Outcome} (h : Holds messages t)
    (hmax : 0 < iovMax) (hg : Guarded (Transport.step iovMax) (Admissible iovMax) t events)
    (hrun : Machine.run (Transport.step iovMax) t events = some (t', outcomes)) :
    ∃ messages', Holds messages' t' ∧ messages'.Sublist (messages ++ events.flatMap Event.payload) ∧
      ((∀ e ∈ events, e.Unlimited) → (∀ m ∈ t.queue, m.Lasting) → t'.failed = false →
        messages' = messages ++ accepted events outcomes) := by
  induction events generalizing t messages outcomes with
  | nil =>
    obtain ⟨rfl, rfl⟩ := Prod.mk.inj (Option.some_inj.mp hrun)
    refine ⟨messages, h, List.sublist_append_left _ _, fun _ _ _ => ?_⟩
    exact (List.append_nil _).symm
  | cons e events ih =>
    obtain ⟨s, o, os, hstep, hrest, rfl⟩ := run_cons_eq_some.mp hrun
    obtain ⟨hge, hgs⟩ := hg
    have hgs := hgs s o hstep
    obtain ⟨messages₁, hholds₁, hsub₁, hexact₁⟩ := h.step hmax hge hstep
    obtain ⟨messages₂, hholds₂, hsub₂, hexact₂⟩ := ih hholds₁ hgs hrest
    refine ⟨messages₂, hholds₂, ?_, fun hlimits hall hf => ?_⟩
    · rw [List.flatMap_cons, ← List.append_assoc]
      exact hsub₂.trans (hsub₁.append_right _)
    · obtain ⟨hlimit, hlimits⟩ := List.forall_mem_cons.mp hlimits
      -- The runs end with the first call that fails.
      have hs : s.failed = false := by
        cases events with
        | nil =>
          obtain ⟨rfl, -⟩ := Prod.mk.inj (Option.some_inj.mp hrest)
          exact hf
        | cons e' events => exact hgs.1.failed_eq
      obtain ⟨rfl, hall'⟩ := hexact₁ hlimit hall hs
      rw [hexact₂ hlimits hall' hf, accepted, accepted, List.zipWith_cons_cons, List.flatten_cons,
        List.append_assoc]

theorem Holds.empty : Holds [] Transport.empty :=
  Holds.of_accounts
    ⟨[], [], rfl, rfl, List.forall_mem_nil _, fun _ => rfl, fun hne => absurd rfl hne⟩
    fun _ _ hm => by cases hm

/-- **The bytes on a connection** are whole messages in the order of the calls, up to the last one,
and what is left of this one is at the front of the queue. -/
theorem Transport.run_stream {events : List Event} {outcomes : List Outcome} (hmax : 0 < iovMax)
    (hg : Guarded (Transport.step iovMax) (Admissible iovMax) Transport.empty events)
    (hrun : Machine.run (Transport.step iovMax) Transport.empty events = some (t, outcomes)) :
    ∃ messages : List (List UInt8), messages.Sublist (events.flatMap Event.payload) ∧
      t.wire <+: messages.flatten ∧
      (t.failed = false → t.wire ++ t.pending = messages.flatten) := by
  obtain ⟨messages, hholds, hsub, -⟩ := Holds.empty.run hmax hg hrun
  exact ⟨messages, hsub, hholds.wire_prefix, fun hf => (hholds.accounts hf).flatten⟩

/-- A request of which the socket takes a byte, and a oneway request that is queued behind it. -/
def requests : List Event :=
  [.sendSynchronous ⟨⟨[[1], [2, 3]], List.cons_ne_nil _ _⟩, true, 0,
      [(.accepted 0, 1), (.failed .wouldBlock, 2)]⟩ true,
    .sendAsynchronous ⟨⟨[[4]], List.cons_ne_nil _ _⟩, true, 3, []⟩ false 0]

theorem run_requests : Machine.run (Transport.step 2) Transport.empty requests =
    some (⟨[synch 0 ⟨[[2, 3]], [[2, 3]], true, true⟩, asynch ⟨[4], 0, 0⟩], [1], 1, false⟩,
      [.waiting, .queued]) := by
  rfl

theorem guarded_requests :
    Guarded (Transport.step 2) (Admissible 2) Transport.empty requests := by
  refine ⟨rfl, fun s o hs => ⟨?_, fun _ _ _ => trivial⟩⟩
  cases hs
  exact ⟨rfl, fun hnil => absurd hnil (List.cons_ne_nil _ _)⟩

theorem Transport.run_stream_requests : ∃ messages : List (List UInt8),
    messages.Sublist (requests.flatMap Event.payload) ∧ [1] <+: messages.flatten ∧
      (false = false → [1] ++ [2, 3, 4] = messages.flatten) :=
  Transport.run_stream (Nat.succ_pos 1) guarded_requests run_requests

/-- **Nothing is lost**: without time limits, the bytes that were sent and those that are in the
queue are exactly the messages whose senders did not get the exception `TIMEOUT`. -/
theorem Transport.run_accepted {events : List Event} {outcomes : List Outcome} (hmax : 0 < iovMax)
    (hg : Guarded (Transport.step iovMax) (Admissible iovMax) Transport.empty events)
    (hlimits : ∀ e ∈ events, e.Unlimited)
    (hrun : Machine.run (Transport.step iovMax) Transport.empty events = some (t, outcomes))
    (hf : t.failed = false) : t.wire ++ t.pending = (accepted events outcomes).flatten := by
  obtain ⟨messages, hholds, -, hexact⟩ := Holds.empty.run hmax hg hrun
  have hmessages := hexact hlimits (List.forall_mem_nil _) hf
  rw [List.nil_append] at hmessages
  exact hmessages ▸ (hholds.accounts hf).flatten

theorem Transport.run_accepted_requests :
    [1] ++ [2, 3, 4] = (accepted requests [.waiting, .queued]).flatten :=
  Transport.run_accepted (Nat.succ_pos 1) guarded_requests
    (List.forall_mem_cons.mpr ⟨trivial, List.forall_mem_cons.mpr ⟨rfl, List.forall_mem_nil _⟩⟩)
    run_requests rfl

end AceTao.Outgoing
