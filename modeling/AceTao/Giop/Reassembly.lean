import AceTao.Cdr.InputSpec
import AceTao.Cdr.OutputSpec
import AceTao.Giop.Fragments
import AceTao.Library.Machine
import Mathlib.Algebra.Order.BigOperators.Group.List
import Mathlib.Data.List.Induction

/-!
# Reassembling the fragments of GIOP 1.2

A message is made of its fragments by `join`: the first one is taken whole, and of the others the
bytes behind the header and the request id. When the final fragment of a message arrives, the code
hands on the join of the fragments of this request id that wait (`receive_spec`), and the others
keep waiting in their order. Which ones wait is told by the messages that have arrived
(`pendingOf`): those since the last final fragment, or the last `CancelRequest`, of their id.
-/

namespace AceTao.Giop

open Cdr ByteImage AlignUp

/-! ### Request ids -/

/-- The request id behind the header of a message of GIOP 1.2, or of a `CancelRequest`. -/
def requestIdOf (qd : QueuedData) : ULong :=
  let bytes := (qd.bytes.drop headerLen).take 4
  ofImage 4 (if qd.state.byteOrder = 1 then bytes else bytes.reverse)

/-- **A message with a request id**: one block, aligned, that holds the header and the id. -/
structure Addressed (qd : QueuedData) : Prop where
  block : ∃ mb, qd.msgBlock = [mb] ∧ headerLen + fragmentHeader ≤ mb.contents.length ∧
    4 ∣ mb.rdAddress

/-- **A fragment** of GIOP 1.2, which has been received completely. -/
structure IsFragment (qd : QueuedData) : Prop where
  version : qd.giopVersion = ⟨1, 2⟩
  type : qd.msgType ∈ [.request, .reply, .locateRequest, .locateReply, .fragment]
  addressed : Addressed qd
  complete : qd.missingData = 0
  fragmented : qd.moreFragments = true ∨ qd.msgType = .fragment

/-- **A message that is not fragmented**, which has been received completely. -/
structure IsWhole (qd : QueuedData) : Prop where
  whole : ¬(qd.moreFragments = true ∨ qd.msgType = .fragment)
  complete : qd.missingData = 0
  addressed : qd.msgType = .cancelRequest → Addressed qd

/-- A message that arrives. -/
def Arrives (qd : QueuedData) : Prop := IsFragment qd ∨ IsWhole qd

variable {serviceContext : Reader Unit} {heap : Heap} {q head tail msg : QueuedData}

theorem Addressed.le_length (h : Addressed q) : headerLen + fragmentHeader ≤ q.bytes.length := by
  obtain ⟨mb, heq, hle, -⟩ := h.block
  simpa [QueuedData.bytes, heq] using hle

/-- **`parse_request_id`** reads the request id. -/
theorem Addressed.parseRequestId (h : Addressed q)
    (hreader : QueuedData.requestIdReader serviceContext q.giopVersion q.msgType =
      InputCDR.readUlong) :
    q.parseRequestId serviceContext = some (.ok (requestIdOf q)) := by
  obtain ⟨mb, heq, hle, hdvd⟩ := h.block
  rw [headerLen, fragmentHeader] at hle
  have hbounds : InputCDR.InBounds (mb.inputCdr q.state) := by
    constructor
    · exact Nat.le_add_right _ _
    · rw [InputCDR.wrPtr]
      dsimp only [MessageBlock.inputCdr]
      rw [headerLen]
      omega
  have halign : alignUp (mb.inputCdr q.state).rdPtr 4 = mb.rdAddress + headerLen :=
    alignUp_of_dvd (by decide) (Nat.dvd_add hdvd (by decide))
  have hword : InputCDR.readWord 4 4 (mb.inputCdr q.state) = _ :=
    InputCDR.readWord_eq hbounds isAlign_four (by decide)
  rw [InputCDR.valueEnd, halign, if_pos] at hword
  · have hread : InputCDR.readUlong (mb.inputCdr q.state) = _ := hword
    rw [QueuedData.parseRequestId, heq]
    simp only [hreader, hread, Option.map_some, Except.mapError]
    have hbytes : q.bytes = mb.contents := by
      rw [QueuedData.bytes, heq]
      exact List.append_nil _
    have hoff : mb.rdAddress + headerLen - mb.rdAddress = headerLen := Nat.add_sub_cancel_left ..
    rw [requestIdOf, hbytes, InputCDR.bytesAt, InputCDR.native]
    dsimp only [MessageBlock.inputCdr]
    rw [hoff]
    by_cases horder : q.state.byteOrder = 1
    · simp [horder]
    · simp [horder]
  · rw [InputCDR.wrPtr]
    dsimp only [MessageBlock.inputCdr]
    rw [headerLen]
    omega

theorem IsFragment.parseRequestId (h : IsFragment q) :
    q.parseRequestId serviceContext = some (.ok (requestIdOf q)) := by
  refine h.addressed.parseRequestId ?_
  have htype := h.type
  have hversion : ¬(q.giopVersion.major = 1 ∧
      (q.giopVersion.minor = 0 ∨ q.giopVersion.minor = 1)) := by
    rw [h.version]
    decide
  refine (if_neg hversion).trans ?_
  generalize q.msgType = t at htype
  simp only [List.mem_cons, List.not_mem_nil, or_false] at htype
  rcases htype with rfl | rfl | rfl | rfl | rfl <;> rfl

/-! ### Joining -/

/-- **The message of its fragments**: the first one, and the bodies of the others. -/
def join : List QueuedData → List UInt8
  | [] => []
  | first :: later =>
    first.bytes ++ later.flatMap fun qd => qd.bytes.drop (headerLen + fragmentHeader)

/-- **A chain of fragments**, which have one block each. -/
structure IsChain (fragments : List QueuedData) (qd : QueuedData) : Prop where
  all : ∀ fragment ∈ fragments, IsFragment fragment
  bytes : qd.bytes = join fragments
  blocks : qd.msgBlock.length = fragments.length
  long : ∃ mb cont, qd.msgBlock = mb :: cont ∧ headerLen + fragmentHeader ≤ mb.contents.length
  state : ∀ first ∈ fragments.head?, qd.state = first.state
  type : qd.msgType ≠ .cancelRequest

/-- **What is handed on**: the message of the fragments, with the state of the first one. -/
structure Delivered (fragments : List QueuedData) (msg : QueuedData) : Prop where
  bytes : msg.bytes = join fragments
  state : ∀ first ∈ fragments.head?, msg.state = { first.state with moreFragments := false }

theorem IsFragment.type_ne (h : IsFragment q) : q.msgType ≠ .cancelRequest := by
  intro hc
  have htype := h.type
  rw [hc] at htype
  simp at htype

theorem IsFragment.isChain (h : IsFragment q) : IsChain [q] q := by
  obtain ⟨mb, heq, hle, -⟩ := h.addressed.block
  refine ⟨?_, (List.append_nil _).symm, by rw [heq]; rfl, ⟨mb, [], heq, hle⟩, ?_, h.type_ne⟩
  · rintro fragment hmem
    rwa [List.mem_singleton.mp hmem]
  · rintro first ⟨⟩
    rfl

/-- **Putting a fragment in front** of a chain. -/
theorem IsChain.link {fragments : List QueuedData} (h : IsChain fragments tail)
    (hne : fragments ≠ []) (hhead : IsFragment head) :
    ∃ t, link (headerLen + fragmentHeader) head tail = some t ∧ IsChain (head :: fragments) t := by
  obtain ⟨mb, heq, hle, -⟩ := hhead.addressed.block
  obtain ⟨mb', cont, heq', hle'⟩ := h.long
  obtain ⟨first, later, rfl⟩ := List.exists_cons_of_ne_nil hne
  obtain ⟨next, hnext⟩ : ∃ next, mb'.advance (headerLen + fragmentHeader) = some next ∧
      next.contents = mb'.contents.drop (headerLen + fragmentHeader) := ⟨_, dif_pos hle', rfl⟩
  have hlen := (h.all first List.mem_cons_self).addressed.le_length
  refine ⟨{ head with msgBlock := mb :: next :: cont }, ?_, ?_, ?_, ?_, ⟨mb, _, rfl, hle⟩, ?_,
    hhead.type_ne⟩
  · rw [Giop.link, heq, heq']
    simp only [hnext.1, Option.map_some]
  · exact List.forall_mem_cons.mpr ⟨hhead, h.all⟩
  · have htail : tail.bytes = mb'.contents ++ cont.flatMap MessageBlock.contents := by
      rw [QueuedData.bytes, heq', List.flatMap_cons]
    have hlater : next.contents ++ cont.flatMap MessageBlock.contents =
        (first :: later).flatMap fun qd => qd.bytes.drop (headerLen + fragmentHeader) := by
      have hdrop := congrArg (List.drop (headerLen + fragmentHeader)) (htail.symm.trans h.bytes)
      rw [join, List.drop_append_of_le_length hle',
        List.drop_append_of_le_length hlen] at hdrop
      rw [hnext.2, hdrop]
      rfl
    rw [join, ← hlater, QueuedData.bytes, QueuedData.bytes, heq]
    simp
  · have hblocks := h.blocks
    rw [heq', List.length_cons] at hblocks
    simp only [List.length_cons, hblocks]
  · rintro first ⟨⟩
    rfl

/-! ### Popping the stack -/

/-- **A fragment that waits** for those behind it. -/
structure Waits (qd : QueuedData) : Prop where
  isFragment : IsFragment qd
  more : qd.moreFragments = true

theorem Waits.belongs12 (h : Waits head) (id : ULong) :
    belongs12 serviceContext (headerLen + fragmentHeader) id head =
      some (.ok (id = requestIdOf head)) := by
  obtain ⟨mb, heq, hle, -⟩ := h.isFragment.addressed.block
  have hversion := h.isFragment.version
  have hge : head.giopVersion.major ≥ 1 ∧ head.giopVersion.minor ≥ 2 := by
    rw [hversion]
    decide
  rw [Giop.belongs12, if_pos ⟨h.more, hge⟩, heq]
  simp only [if_pos hle, h.isFragment.parseRequestId, Option.map_some, Except.map]

/-- **The loop** puts the fragments of a request id in front of the chain, and restores the others
in their order. -/
theorem popFragments_spec (serviceContext : Reader Unit) (id : ULong) {stack : MessageStack}
    (hstack : ∀ qd ∈ stack, Waits qd) {fragments : List QueuedData}
    (h : IsChain fragments tail) (hne : fragments ≠ [])
    (reverseStack : MessageStack) :
    ∃ t, popFragments (headerLen + fragmentHeader)
        (belongs12 serviceContext (headerLen + fragmentHeader) id) stack tail reverseStack =
          some (reverseStack.reverse ++ stack.filter fun qd => ¬id = requestIdOf qd, some t) ∧
      IsChain ((stack.filter fun qd => id = requestIdOf qd).reverse ++ fragments) t := by
  induction stack generalizing tail fragments reverseStack with
  | nil =>
    refine ⟨tail, ?_, h⟩
    rw [popFragments, List.reverseAux_eq]
    rfl
  | cons head stack ih =>
    obtain ⟨hhead, hstack⟩ := List.forall_mem_cons.mp hstack
    rw [popFragments, hhead.belongs12]
    by_cases hid : id = requestIdOf head
    · obtain ⟨t, hlink, ht⟩ := h.link hne hhead.isFragment
      obtain ⟨u, hpop, hu⟩ := ih hstack ht (List.cons_ne_nil _ _) reverseStack
      refine ⟨u, ?_, ?_⟩
      · simpa [hid, hlink] using hpop
      · simpa [hid] using hu
    · obtain ⟨u, hpop, hu⟩ := ih hstack h hne (head :: reverseStack)
      refine ⟨u, ?_, ?_⟩
      · simpa [hid] using hpop
      · simpa [hid] using hu

/-! ### One message -/

theorem copyBlocks_eq {room : ℕ} {src : List MessageBlock} {dst : List UInt8}
    (h : dst.length + (src.map fun i => i.contents.length).sum ≤ room) :
    QueuedData.copyBlocks room src dst = dst ++ src.flatMap MessageBlock.contents := by
  induction src generalizing dst with
  | nil => exact (List.append_nil _).symm
  | cons i src ih =>
    rw [List.map_cons, List.sum_cons] at h
    rw [QueuedData.copyBlocks, if_pos (by omega), ih, List.flatMap_cons, List.append_assoc]
    rw [List.length_append]
    omega

/-- There is memory for a copy of a number of bytes. -/
def Enough (heap : Heap) (n : ℕ) : Prop := (heap.address (firstSize (n + maxAlignment))).isSome

/-- **A chain is copied** into one block. -/
theorem consolidateBlocks_spec {mb : MessageBlock} {cont : List MessageBlock}
    (hmem : Enough heap ((mb :: cont).flatMap MessageBlock.contents).length) :
    ∃ dest, QueuedData.consolidateBlocks heap mb cont = some dest ∧
      dest.contents = (mb :: cont).flatMap MessageBlock.contents := by
  rw [Enough, List.length_flatMap] at hmem
  obtain ⟨base, hbase⟩ := Option.isSome_iff_exists.mp hmem
  have hfits := heap.fits hbase
  have hsize := le_firstSize (((mb :: cont).map fun i => i.contents.length).sum + maxAlignment)
  have hstart : alignBinary base maxAlignment - base = 0 := by
    have hle : base ≤ 2 ^ 63 := (Nat.le_add_right _ _).trans hfits
    rw [maxAlignment, alignBinary_eq isAlign_eight hle,
      alignUp_of_dvd (by decide) (heap.aligned hbase), Nat.sub_self]
  have hdst : base % maxAlignment = 0 := Nat.mod_eq_zero_of_dvd (heap.aligned hbase)
  have hsrc := Nat.mod_lt mb.rdAddress (by decide : 0 < maxAlignment)
  generalize hn : firstSize _ = size at hbase hfits hsize
  have hcopy : QueuedData.copyBlocks (size - mb.rdAddress % maxAlignment) (mb :: cont) [] =
      (mb :: cont).flatMap MessageBlock.contents := by
    refine copyBlocks_eq ?_
    rw [List.length_nil]
    omega
  have hlimit : base + mb.rdAddress % maxAlignment +
      ((mb :: cont).flatMap MessageBlock.contents).length ≤ addressLimit := by
    rw [List.length_flatMap]
    omega
  refine ⟨⟨base, mb.rdAddress % maxAlignment, _, hlimit⟩, ?_, rfl⟩
  rw [QueuedData.consolidateBlocks]
  simp only [hn, hbase, hstart, Nat.add_zero, hdst, Nat.not_lt_zero, if_false, Nat.sub_zero,
    Nat.zero_add, hcopy, dif_pos hlimit]

/-- **The chain of a message becomes its only block.** -/
theorem IsChain.consolidate {waiting : List QueuedData} (h : IsChain (waiting ++ [q]) tail)
    (hwait : ∀ qd ∈ waiting, Waits qd) (hlast : q.moreFragments = false)
    (hmem : Enough heap (join (waiting ++ [q])).length) :
    ∃ msg, tail.consolidate heap = some msg ∧ Delivered (waiting ++ [q]) msg ∧
      msg.msgType ≠ .cancelRequest := by
  have hblocks := h.blocks
  obtain ⟨mb, cont, heq, -⟩ := h.long
  rw [heq, List.length_append, List.length_cons, List.length_singleton] at hblocks
  rw [QueuedData.consolidate, heq]
  rcases waiting with _ | ⟨first, waiting⟩
  · obtain rfl := List.length_eq_zero_iff.mp (Nat.succ.inj hblocks)
    refine ⟨tail, rfl, ⟨h.bytes, ?_⟩, h.type⟩
    rintro first ⟨⟩
    rw [h.state q rfl]
    exact congrArg (fun b => { q.state with moreFragments := b }) hlast
  · have hcont : cont ≠ [] := by
      rintro rfl
      simp at hblocks
    obtain ⟨next, cont, rfl⟩ := List.exists_cons_of_ne_nil hcont
    have hstate : tail.state = first.state := h.state first rfl
    have hmore : tail.moreFragments = true := by
      rw [QueuedData.moreFragments, hstate]
      exact (hwait first List.mem_cons_self).more
    have hbytes := h.bytes
    rw [QueuedData.bytes, heq] at hbytes
    rw [← hbytes] at hmem
    obtain ⟨dest, hdest, hcontents⟩ := consolidateBlocks_spec hmem
    refine ⟨{ tail with msgBlock := [dest], state := { tail.state with moreFragments := false } },
      ?_, ⟨?_, ?_⟩, h.type⟩
    · simp only [if_pos hmore, hdest, Option.map_some]
    · rw [← hbytes, ← hcontents]
      exact List.append_nil _
    · rintro _ ⟨⟩
      rw [hstate]

/-! ### The functions -/

/-- The fragments of a request id that wait on the stack, the oldest first. -/
def waiting (id : ULong) (stack : MessageStack) : List QueuedData :=
  stack.reverse.filter fun qd => id = requestIdOf qd

/-- The fragments of the other request ids. -/
def others (id : ULong) (stack : MessageStack) : MessageStack :=
  stack.filter fun qd => ¬id = requestIdOf qd

theorem waits_of_mem_waiting {id : ULong} {stack : MessageStack} (hstack : ∀ qd ∈ stack, Waits qd) :
    ∀ qd ∈ waiting id stack, Waits qd := fun qd hmem =>
  hstack qd (List.mem_reverse.mp (List.mem_of_mem_filter hmem))

/-- **The final fragment**: the message of the fragments that wait and of this one. -/
theorem consolidateFragmentedMessage_final (serviceContext : Reader Unit) {stack : MessageStack}
    (hstack : ∀ qd ∈ stack, Waits qd) (hq : IsFragment q) (hlast : q.moreFragments = false)
    (hmem : Enough heap (join (waiting (requestIdOf q) stack ++ [q])).length) :
    ∃ msg, consolidateFragmentedMessage serviceContext heap stack q =
        some (others (requestIdOf q) stack, .message msg) ∧
      Delivered (waiting (requestIdOf q) stack ++ [q]) msg ∧ msg.msgType ≠ .cancelRequest := by
  obtain ⟨mb, heq, hle, -⟩ := hq.addressed.block
  obtain ⟨t, hpop, ht⟩ := popFragments_spec serviceContext (requestIdOf q)
    hstack hq.isChain (List.cons_ne_nil _ _) []
  rw [← List.filter_reverse] at ht
  obtain ⟨msg, hmsg, hdelivered, htype⟩ := ht.consolidate (waits_of_mem_waiting hstack) hlast hmem
  refine ⟨msg, ?_, hdelivered, htype⟩
  have h10 : ¬q.giopVersion = ⟨1, 0⟩ := by
    rw [hq.version]
    decide
  have h11 : ¬q.giopVersion = ⟨1, 1⟩ := by
    rw [hq.version]
    decide
  have hlen : fragmentHeaderLength (versionOfMajor q.giopVersion.major) = some fragmentHeader := by
    rw [hq.version]
    rfl
  rw [consolidateFragmentedMessage, if_neg h10, hlast, if_neg Bool.false_ne_true, hlen, heq]
  simp only [if_neg (Nat.not_lt.mpr hle), if_neg h11, hq.parseRequestId, hpop, Option.map_some,
    finish, hmsg]
  rfl

theorem Waits.hasRequestId (h : Waits head) (id : ULong) :
    hasRequestId serviceContext id head = some (id = requestIdOf head : Bool) := by
  rw [Giop.hasRequestId, h.isFragment.parseRequestId]
  rfl

theorem discardLoop_eq (id : ULong) {reverseStack : MessageStack}
    (h : ∀ qd ∈ reverseStack, Waits qd) (stack : MessageStack) :
    discardLoop serviceContext id reverseStack false stack =
      some ((others id reverseStack).reverse ++ stack) := by
  induction reverseStack generalizing stack with
  | nil => rfl
  | cons head reverseStack ih =>
    obtain ⟨hhead, h⟩ := List.forall_mem_cons.mp h
    rw [discardLoop, hhead.isFragment.version, hhead.hasRequestId]
    by_cases hid : id = requestIdOf head
    · simpa [hid, others] using ih h stack
    · simpa [hid, others] using ih h (head :: stack)

/-- **A `CancelRequest`** removes the fragments of its request. -/
theorem discardFragmentedMessage_spec {stack : MessageStack} (hstack : ∀ qd ∈ stack, Waits qd)
    (hq : Addressed q) (htype : q.msgType = .cancelRequest) :
    discardFragmentedMessage serviceContext stack q = some (others (requestIdOf q) stack) := by
  have hparse : q.parseRequestId serviceContext = some (.ok (requestIdOf q)) := by
    refine hq.parseRequestId ?_
    rw [htype]
    exact ite_self _
  rw [discardFragmentedMessage, hparse]
  dsimp only
  rw [List.reverseAux_eq, List.append_nil,
    discardLoop_eq _ fun qd hmem => hstack qd (List.mem_reverse.mp hmem)]
  rw [List.append_nil, others, others, List.filter_reverse, List.reverse_reverse]

/-! ### Messages that arrive -/

/-- **The stack after a message**: a fragment is added to those that wait, and a final fragment or a
`CancelRequest` removes those of its request. -/
def after (stack : MessageStack) (qd : QueuedData) : MessageStack :=
  if qd.moreFragments then qd :: stack
  else if qd.msgType = .fragment ∨ qd.msgType = .cancelRequest then others (requestIdOf qd) stack
  else stack

/-- **What is handed on** when a message arrives and some fragments wait for it: nothing, or the
message of the fragments, or the message itself. -/
def Handed (pending : List QueuedData) (qd : QueuedData) : Except Unit (Option QueuedData) → Prop
  | .error _ => False
  | .ok none => qd.moreFragments = true
  | .ok (some msg) => qd.moreFragments = false ∧
    if qd.msgType = .fragment then Delivered (pending ++ [qd]) msg else msg = qd

/-- **One message arrives.** -/
theorem receive_spec (serviceContext : Reader Unit) {stack : MessageStack}
    (hstack : ∀ qd ∈ stack, Waits qd) (hq : Arrives q)
    (hmem : Enough heap (join (waiting (requestIdOf q) stack ++ [q])).length) :
    ∃ out, consolidateProcessMessage serviceContext heap stack q = some (after stack q, out) ∧
      Handed (waiting (requestIdOf q) stack) q out := by
  rw [consolidateProcessMessage, after]
  rcases hq with hq | hq
  · rw [if_neg (not_not_intro hq.complete), if_pos hq.fragmented]
    rcases hmore : q.moreFragments with _ | _
    · have htype := hq.fragmented.resolve_left (by simp [hmore])
      obtain ⟨msg, hcons, hdelivered, hne⟩ :=
        consolidateFragmentedMessage_final serviceContext hstack hq hmore hmem
      refine ⟨.ok (some msg), ?_, hmore, ?_⟩
      · rw [hcons, if_neg Bool.false_ne_true, if_pos (Or.inl htype)]
        dsimp only
        rw [processParsedMessages, if_neg hne]
        rfl
      · rwa [if_pos htype]
    · refine ⟨.ok none, ?_, hmore⟩
      have h10 : ¬q.giopVersion = ⟨1, 0⟩ := by
        rw [hq.version]
        decide
      rw [consolidateFragmentedMessage, if_neg h10, if_pos hmore]
      rfl
  · have hmore : q.moreFragments = false := by
      simpa using fun h => hq.whole (Or.inl h)
    have htype : ¬q.msgType = .fragment := fun h => hq.whole (Or.inr h)
    rw [if_neg (not_not_intro hq.complete), if_neg hq.whole, hmore, if_neg Bool.false_ne_true,
      processParsedMessages]
    refine ⟨.ok (some q), ?_, hmore, by rw [if_neg htype]⟩
    by_cases hcancel : q.msgType = .cancelRequest
    · rw [if_pos hcancel, if_pos (Or.inr hcancel),
        discardFragmentedMessage_spec hstack (hq.addressed hcancel) hcancel]
      rfl
    · rw [if_neg hcancel, if_neg (by simp [hcancel, htype])]
      rfl

/-! ### Runs -/

/-- How a message changes the fragments of a request id that wait. -/
def track (id : ULong) (pending : List QueuedData) (qd : QueuedData) : List QueuedData :=
  if id = requestIdOf qd then
    if qd.moreFragments then pending ++ [qd]
    else if qd.msgType = .fragment ∨ qd.msgType = .cancelRequest then [] else pending
  else pending

/-- **The fragments of a request id that wait** after some messages: those that have arrived since
its last final fragment or `CancelRequest`. -/
def pendingOf (id : ULong) (arrivals : List QueuedData) : List QueuedData :=
  arrivals.foldl (track id) []

theorem waiting_others (id id' : ULong) (stack : MessageStack) :
    waiting id (others id' stack) = if id = id' then [] else waiting id stack := by
  rw [waiting, others, ← List.filter_reverse, List.filter_filter, waiting]
  split_ifs with hid
  · rw [List.filter_eq_nil_iff]
    rintro qd -
    simp [hid]
  · refine List.filter_congr fun qd _ => ?_
    rcases eq_or_ne id (requestIdOf qd) with heq | hne
    · have hid' : ¬id' = requestIdOf qd := fun h => hid (heq.trans h.symm)
      simp [heq, hid']
    · simp [hne]

/-- The stack follows the history. -/
theorem waiting_after (id : ULong) (stack : MessageStack) (qd : QueuedData) :
    waiting id (after stack qd) = track id (waiting id stack) qd := by
  rw [after, track]
  by_cases hmore : qd.moreFragments = true
  · rw [if_pos hmore, if_pos hmore, waiting, List.reverse_cons, List.filter_append]
    by_cases hid : id = requestIdOf qd
    · rw [if_pos hid, List.filter_cons_of_pos (by simpa using hid)]
      rfl
    · rw [if_neg hid, List.filter_cons_of_neg (by simpa using hid), List.filter_nil,
        List.append_nil]
      rfl
  · rw [if_neg hmore, if_neg hmore]
    by_cases hlast : qd.msgType = .fragment ∨ qd.msgType = .cancelRequest
    · rw [if_pos hlast, if_pos hlast, waiting_others]
    · rw [if_neg hlast, if_neg hlast, ite_self]

theorem after_sublist (stack : MessageStack) (qd : QueuedData) :
    (after stack qd).Sublist (qd :: stack) := by
  rw [after]
  split_ifs
  · exact List.Sublist.refl _
  · exact List.filter_sublist.trans (List.sublist_cons_self qd stack)
  · exact List.sublist_cons_self qd stack

theorem waits_after {stack : MessageStack} (hstack : ∀ qd ∈ stack, Waits qd) (hq : Arrives q) :
    ∀ qd ∈ after stack q, Waits qd := by
  intro qd hmem
  rcases List.mem_cons.mp ((after_sublist stack q).subset hmem) with rfl | hmem'
  · rw [after] at hmem
    split_ifs at hmem with hmore hlast
    · refine ⟨hq.resolve_right fun hw => hw.whole (Or.inl hmore), hmore⟩
    · exact hstack qd (List.mem_of_mem_filter hmem)
    · exact hstack qd hmem
  · exact hstack qd hmem'

theorem length_join_le (fragments : List QueuedData) :
    (join fragments).length ≤ (fragments.map fun qd => qd.bytes.length).sum := by
  rcases fragments with _ | ⟨first, later⟩
  · exact le_refl 0
  · rw [join, List.length_append, List.length_flatMap, List.map_cons, List.sum_cons]
    refine Nat.add_le_add_left (List.sum_le_sum fun qd _ => ?_) _
    rw [List.length_drop]
    exact Nat.sub_le _ _

/-- The fragments of a message are among the messages that have arrived. -/
theorem length_join_waiting_le {stack : MessageStack} {arrivals : List QueuedData}
    (h : stack.reverse.Sublist arrivals) (id : ULong) :
    (join (waiting id stack ++ [q])).length ≤
      ((arrivals ++ [q]).map fun qd => qd.bytes.length).sum := by
  refine (length_join_le _).trans (List.Sublist.sum_le_sum (List.Sublist.map _ ?_) ?_)
  · exact (List.filter_sublist.trans h).append (List.Sublist.refl _)
  · exact fun _ _ => Nat.zero_le _

/-- **Every run has an answer**, and at its end the fragments wait that the history tells. -/
theorem run_spec (serviceContext : Reader Unit) {arrivals : List QueuedData}
    (harrivals : ∀ qd ∈ arrivals, Arrives qd)
    (hmem : ∀ n ≤ (arrivals.map fun qd => qd.bytes.length).sum, Enough heap n) :
    ∃ stack outs, Machine.run (consolidateProcessMessage serviceContext heap) [] arrivals =
        some (stack, outs) ∧ (∀ qd ∈ stack, Waits qd) ∧ stack.reverse.Sublist arrivals ∧
      ∀ id, waiting id stack = pendingOf id arrivals := by
  induction arrivals using List.reverseRecOn with
  | nil =>
    exact ⟨[], [], rfl, List.forall_mem_nil _, List.Sublist.refl _, fun id => rfl⟩
  | append_singleton arrivals q ih =>
    have hq : Arrives q := harrivals q (by simp)
    obtain ⟨stack, outs, hrun, hwaits, hsub, hpending⟩ := ih
      (fun qd hqd => harrivals qd (List.mem_append_left _ hqd))
      fun n hn => hmem n (hn.trans (by simp))
    obtain ⟨out, hstep, -⟩ := receive_spec serviceContext hwaits hq
      (hmem _ (length_join_waiting_le hsub _))
    refine ⟨after stack q, outs ++ [out], ?_, waits_after hwaits hq, ?_, fun id => ?_⟩
    · exact Machine.run_append.mpr ⟨stack, outs, [out], hrun,
        Machine.run_cons_eq_some.mpr ⟨after stack q, out, [], hstep, rfl, rfl⟩, rfl⟩
    · exact (List.reverse_sublist.mpr (after_sublist stack q)).trans
        (by rw [List.reverse_cons]; exact hsub.append (List.Sublist.refl _))
    · rw [waiting_after, hpending, pendingOf, pendingOf, List.foldl_append]
      rfl

/-- **The fragments of GIOP 1.2 are reassembled.** Whenever a message arrives, the message of the
fragments of its request id that wait is handed on when it is the final one; the fragments of other
request ids keep waiting, unchanged and in their order. -/
theorem reassembly (serviceContext : Reader Unit) (heap : Heap) (arrivals : List QueuedData)
    (q : QueuedData) (harrivals : ∀ qd ∈ arrivals ++ [q], Arrives qd)
    (hmem : ∀ n ≤ ((arrivals ++ [q]).map fun qd => qd.bytes.length).sum, Enough heap n) :
    ∃ stack outs out,
      Machine.run (consolidateProcessMessage serviceContext heap) [] arrivals =
        some (stack, outs) ∧
      stack.reverse.Sublist arrivals ∧ (∀ id, waiting id stack = pendingOf id arrivals) ∧
      consolidateProcessMessage serviceContext heap stack q = some (after stack q, out) ∧
      Handed (pendingOf (requestIdOf q) arrivals) q out := by
  obtain ⟨stack, outs, hrun, hwaits, hsub, hpending⟩ := run_spec serviceContext
    (fun qd hqd => harrivals qd (List.mem_append_left _ hqd))
      fun n hn => hmem n (hn.trans (by simp))
  obtain ⟨out, hstep, hout⟩ := receive_spec serviceContext hwaits
    (harrivals q (by simp)) (hmem _ (length_join_waiting_le hsub _))
  rw [hpending] at hout
  exact ⟨stack, outs, out, hrun, hsub, hpending, hstep, hout⟩

/-! ### A run -/

/-- A message of GIOP 1.2 in one block, from its flags, its type and its payload. -/
def sample (more : Bool) (type : MsgType) (octet : UInt8) (payload : List UInt8)
    (h : headerLen + payload.length ≤ addressLimit) : QueuedData where
  msgBlock := [{
    base := 0
    rdPtr := 0
    contents := [71, 73, 79, 80, 1, 2, if more then 3 else 1, octet, UInt8.ofNat payload.length,
      0, 0, 0] ++ payload
    fits := by
      rw [headerLen] at h
      simp only [List.length_append, List.length_cons, List.length_nil]
      omega }]
  missingData := 0
  state := ⟨⟨1, 2⟩, 1, type, BitVec.ofNat 32 payload.length, more⟩

/-- A memory whose buffers all begin at the same address. -/
def sampleHeap : Heap where
  address n := if n ≤ addressLimit then some 0 else none
  fits h := by
    split_ifs at h with hle
    · cases h
      simpa using hle
  aligned h := by
    split_ifs at h
    cases h
    exact dvd_zero 8

theorem enough_sampleHeap {n : ℕ} (hn : n ≤ 504) : Enough sampleHeap n := by
  have hle : ¬defaultBufsize < n + maxAlignment := by
    rw [defaultBufsize, maxAlignment]
    omega
  have hsize : firstSize (n + maxAlignment) = defaultBufsize := by
    rw [firstSize, if_neg (by rw [maxAlignment]; omega), firstSizeFrom, if_neg hle]
  rw [Enough, hsize]
  decide

theorem isFragment_sample {more : Bool} {type : MsgType} {octet : UInt8} {payload : List UInt8}
    {h : headerLen + payload.length ≤ addressLimit}
    (htype : type ∈ [.request, .reply, .locateRequest, .locateReply, .fragment])
    (hmore : more = true ∨ type = .fragment) (hlen : 4 ≤ payload.length) :
    IsFragment (sample more type octet payload h) := by
  refine ⟨rfl, htype, ⟨_, rfl, ?_, dvd_zero 4⟩, rfl, hmore⟩
  rw [headerLen, fragmentHeader]
  simp only [List.length_append, List.length_cons, List.length_nil]
  omega

/-- The first fragments of two requests, a request that is not fragmented, and the final fragment of
the first one. -/
def sampleArrivals : List QueuedData :=
  [sample true .request 0 [1, 0, 0, 0, 10, 11, 12, 13] (by decide),
    sample true .request 0 [2, 0, 0, 0, 30, 31, 32, 33] (by decide),
    sample false .request 0 [3, 0, 0, 0, 50] (by decide)]

def sampleFinal : QueuedData := sample false .fragment 7 [1, 0, 0, 0, 20, 21] (by decide)

def sampleCancel : QueuedData := sample false .cancelRequest 2 [1, 0, 0, 0] (by decide)

theorem arrives_sampleFinal : Arrives sampleFinal :=
  Or.inl (isFragment_sample (by decide) (Or.inr rfl) (by decide))

theorem arrives_samples : ∀ qd ∈ sampleArrivals ++ [sampleCancel], Arrives qd := by
  rw [List.forall_mem_append, sampleArrivals]
  simp only [List.forall_mem_cons, List.not_mem_nil, false_imp_iff, implies_true, and_true]
  refine ⟨⟨Or.inl ?_, Or.inl ?_, Or.inr ⟨by decide, rfl, nofun⟩⟩,
    Or.inr ⟨by decide, rfl, fun _ => ⟨_, rfl, by decide, dvd_zero 4⟩⟩⟩
  · exact isFragment_sample (by decide) (Or.inl rfl) (by decide)
  · exact isFragment_sample (by decide) (Or.inl rfl) (by decide)

theorem reassembly_sample : ∃ stack outs out,
    Machine.run (consolidateProcessMessage (pure ()) sampleHeap) [] sampleArrivals =
      some (stack, outs) ∧
    stack.reverse.Sublist sampleArrivals ∧
    (∀ id, waiting id stack = pendingOf id sampleArrivals) ∧
    consolidateProcessMessage (pure ()) sampleHeap stack sampleFinal =
      some (after stack sampleFinal, out) ∧
    Handed (pendingOf (requestIdOf sampleFinal) sampleArrivals) sampleFinal out :=
  reassembly (pure ()) sampleHeap sampleArrivals sampleFinal
    (List.forall_mem_append.mpr ⟨(List.forall_mem_append.mp arrives_samples).1,
      by simpa using arrives_sampleFinal⟩)
    fun _ hn => enough_sampleHeap (hn.trans (by decide))

/-- A `CancelRequest` between the fragments of its request: the final fragment is handed on without
the first one. -/
theorem reassembly_cancelled : ∃ stack outs stack' msg,
    Machine.run (consolidateProcessMessage (pure ()) sampleHeap) []
      (sampleArrivals ++ [sampleCancel]) = some (stack, outs) ∧
    consolidateProcessMessage (pure ()) sampleHeap stack sampleFinal =
      some (stack', .ok (some msg)) ∧
    msg.bytes ≠ join [sample true .request 0 [1, 0, 0, 0, 10, 11, 12, 13] (by decide),
      sampleFinal] := by
  obtain ⟨stack, outs, hrun, hwaits, hsub, hpending⟩ := run_spec (pure ())
    arrives_samples fun _ hn => enough_sampleHeap (hn.trans (by decide))
  have hnil : waiting (requestIdOf sampleFinal) stack = [] := (hpending _).trans rfl
  obtain ⟨out, hstep, hout⟩ := receive_spec (pure ()) hwaits arrives_sampleFinal
    (by rw [hnil]; exact enough_sampleHeap (by decide))
  rw [hnil] at hout
  rcases out with _ | _ | msg
  · cases hout
  · cases hout
  · refine ⟨stack, outs, _, msg, hrun, hstep, ?_⟩
    rw [hout.2.bytes]
    decide

end AceTao.Giop
