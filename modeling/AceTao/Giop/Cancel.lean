import AceTao.Cdr.Bounds
import AceTao.Giop.Fragments11

/-!
# Discarding the fragments of a cancelled request

A `CancelRequest` removes from the stack the fragments of its request, and releases them. Those of
GIOP 1.2 have a request id each. Of a message of GIOP 1.1 only the first fragment has one, and those
that arrive behind it, up to the next first one, belong to it (`owned`).

The code goes through the fragments in the order in which they have arrived. Once it has released a
first fragment of GIOP 1.1, it releases every fragment of GIOP 1.1 behind it, also those of other
requests (`discards`): so it discards the right ones exactly when no other message of GIOP 1.1 has
begun behind one that is cancelled (`cancelsRight_iff`).
-/

namespace AceTao.Giop

open Cdr InputCDR

variable (serviceContext : Reader Unit)

/-! ### The code, with what it releases -/

/-- **The loop** over the messages in the order in which they have arrived. -/
def releaseLoop (requestId : ULong) :
    MessageStack → Bool → MessageStack → List QueuedData → Option (MessageStack × List QueuedData)
  | [], _, stack, released => some (stack, released)
  | head :: reverseStack, discardAll11, stack, released =>
    let version := head.giopVersion
    let old : Bool := version.major = 1 ∧ version.minor ≤ 1
    match (if old ∧ head.msgType ≠ .fragment then hasRequestId serviceContext requestId head
      else some false) with
    | none => none
    | some true => releaseLoop requestId reverseStack true stack (released ++ [head])
    | some false =>
      if old ∧ discardAll11 then
        releaseLoop requestId reverseStack discardAll11 stack (released ++ [head])
      else
        match (if version.major ≥ 1 ∧ version.minor ≥ 2 then
            hasRequestId serviceContext requestId head else some false) with
        | none => none
        | some true => releaseLoop requestId reverseStack discardAll11 stack (released ++ [head])
        | some false => releaseLoop requestId reverseStack discardAll11 (head :: stack) released

/-- **`discard_fragmented_message`**, with what it releases. -/
def releaseFragmentedMessage (stack : MessageStack) (cancelRequest : QueuedData) :
    Option (MessageStack × List QueuedData) :=
  match cancelRequest.parseRequestId serviceContext with
  | none => none
  | some (.error _) => some (stack, [])
  | some (.ok requestId) => releaseLoop serviceContext requestId (stack.reverseAux []) false [] []

theorem releaseLoop_fst (requestId : ULong) (reverseStack : MessageStack) (discardAll11 : Bool)
    (stack : MessageStack) (released : List QueuedData) :
    (releaseLoop serviceContext requestId reverseStack discardAll11 stack released).map Prod.fst =
      discardLoop serviceContext requestId reverseStack discardAll11 stack := by
  induction reverseStack generalizing discardAll11 stack released with
  | nil => rfl
  | cons head reverseStack ih =>
    rw [releaseLoop, discardLoop]
    generalize (if decide (head.giopVersion.major = 1 ∧ head.giopVersion.minor ≤ 1) = true ∧
      head.msgType ≠ .fragment then hasRequestId serviceContext requestId head
        else some false) = first
    generalize (if head.giopVersion.major ≥ 1 ∧ head.giopVersion.minor ≥ 2 then
      hasRequestId serviceContext requestId head else some false) = second
    rcases first with _ | _ | _
    · rfl
    · dsimp only
      split_ifs
      · exact ih _ _ _
      · rcases second with _ | _ | _
        · rfl
        · exact ih _ _ _
        · exact ih _ _ _
    · exact ih _ _ _

/-- It is `discard_fragmented_message`. -/
theorem releaseFragmentedMessage_fst (stack : MessageStack) (cancelRequest : QueuedData) :
    (releaseFragmentedMessage serviceContext stack cancelRequest).map Prod.fst =
      discardFragmentedMessage serviceContext stack cancelRequest := by
  rw [releaseFragmentedMessage, discardFragmentedMessage]
  rcases cancelRequest.parseRequestId serviceContext with _ | _ | requestId
  · rfl
  · rfl
  · exact releaseLoop_fst _ _ _ _ _ _

/-! ### Request ids -/

/-- The request id of a message, if it has one that can be parsed. -/
def idOf (qd : QueuedData) : Option ULong :=
  match qd.parseRequestId serviceContext with
  | some (.ok id) => some id
  | _ => none

/-- **A message with a header**, in its first block. -/
def HasHeader (qd : QueuedData) : Prop :=
  ∃ mb cont, qd.msgBlock = mb :: cont ∧ headerLen ≤ mb.contents.length

/-- **A message that can wait**: of GIOP 1.1 or 1.2. -/
structure CanWait (qd : QueuedData) : Prop where
  version : qd.giopVersion = ⟨1, 1⟩ ∨ qd.giopVersion = ⟨1, 2⟩
  header : HasHeader qd

/-- The beginning of a message of GIOP 1.1. -/
def Starts11 (qd : QueuedData) : Prop := qd.giopVersion = ⟨1, 1⟩ ∧ qd.msgType ≠ .fragment

variable {serviceContext} {q : QueuedData}

theorem safeAt_requestIdReader (hservice : ReadsSafely serviceContext) (version : MessageVersion)
    (type : MsgType) {s : InputCDR} (h : InBounds s) :
    SafeAt (QueuedData.requestIdReader serviceContext version type) s fun _ => True := by
  have hulong : ∀ t, InBounds t → SafeAt InputCDR.readUlong t fun _ => True := fun t ht =>
    (safeAt_readWord ht isAlign_four (by decide)).mono fun _ _ => trivial
  have hthrow : SafeAt (Program.throw .content : Reader ULong) s fun _ => True :=
    safeAt_throw h nofun
  refine safeAt_ite (fun _ => ?_) fun _ => ?_
  · split
    · exact (hservice s h).bind h fun _ t _ ht => hulong t ht
    · exact (hservice s h).bind h fun _ t _ ht => hulong t ht
    · exact hulong s h
    · exact hulong s h
    · exact hulong s h
    · exact hthrow
  · split
    · exact hulong s h
    · exact hulong s h
    · exact hulong s h
    · exact hulong s h
    · exact hulong s h
    · exact hulong s h
    · exact hthrow

/-- **`parse_request_id`** has an answer. -/
theorem exists_parseRequestId (hservice : ReadsSafely serviceContext) (h : HasHeader q) :
    ∃ r, q.parseRequestId serviceContext = some r := by
  obtain ⟨mb, cont, heq, hle⟩ := h
  have hbounds : InBounds (mb.inputCdr q.state) := by
    constructor
    · exact Nat.le_add_right _ _
    · exact Nat.add_le_add_left hle _
  obtain ⟨r, t, hread, -⟩ :=
    safeAt_requestIdReader hservice q.giopVersion q.msgType hbounds
  rw [QueuedData.parseRequestId, heq]
  dsimp only
  rw [hread]
  exact ⟨_, rfl⟩

theorem hasRequestId_eq (hservice : ReadsSafely serviceContext) (h : HasHeader q) (id : ULong) :
    hasRequestId serviceContext id q = some (decide (idOf serviceContext q = some id)) := by
  obtain ⟨r, hr⟩ := exists_parseRequestId hservice h
  rw [hasRequestId, idOf, hr, Option.map_some]
  rcases r with e | id'
  · rfl
  · simp [eq_comm]

/-! ### What is released -/

variable (serviceContext)

/-- **What the loop releases.** -/
def discards (id : ULong) : Bool → List QueuedData → List Bool
  | _, [] => []
  | discardAll11, qd :: qds =>
    if qd.giopVersion = ⟨1, 1⟩ then
      let found : Bool := qd.msgType ≠ .fragment ∧ idOf serviceContext qd = some id
      (found || discardAll11) :: discards id (found || discardAll11) qds
    else decide (idOf serviceContext qd = some id) :: discards id discardAll11 qds

/-- **What belongs to a request**; whether the last message of GIOP 1.1 does is given. -/
def owned (id : ULong) : Bool → List QueuedData → List Bool
  | _, [] => []
  | current, qd :: qds =>
    if qd.giopVersion = ⟨1, 1⟩ then
      if qd.msgType = .fragment then current :: owned id current qds
      else decide (idOf serviceContext qd = some id) ::
        owned id (decide (idOf serviceContext qd = some id)) qds
    else decide (idOf serviceContext qd = some id) :: owned id current qds

/-- The messages with a mark. -/
def marked (mark : Bool) (marks : List Bool) (qds : List QueuedData) : List QueuedData :=
  ((marks.zip qds).filter fun p => p.1 = mark).map Prod.snd

variable {serviceContext}

theorem marked_cons (mark m : Bool) (marks : List Bool) (q : QueuedData) (qds : List QueuedData) :
    marked mark (m :: marks) (q :: qds) =
      if m = mark then q :: marked mark marks qds else marked mark marks qds := by
  rw [marked, List.zip_cons_cons, List.filter_cons]
  by_cases h : m = mark
  · rw [if_pos (decide_eq_true h), if_pos h]
    rfl
  · rw [if_neg (by simpa using h), if_neg h]
    rfl

/-- **Every message is on the stack or released.** -/
theorem perm_marked {marks : List Bool} {qds : List QueuedData}
    (h : marks.length = qds.length) :
    (marked false marks qds ++ marked true marks qds).Perm qds := by
  induction qds generalizing marks with
  | nil =>
    cases List.length_eq_zero_iff.mp h
    exact .refl _
  | cons q qds ih =>
    obtain ⟨m, marks, rfl⟩ := List.exists_cons_of_length_eq_add_one h
    have hperm := ih (Nat.succ.inj h)
    rw [marked_cons, marked_cons]
    cases m with
    | false => exact hperm.cons q
    | true => exact List.perm_middle.trans (hperm.cons q)

theorem length_discards (id : ULong) (flag : Bool) (qds : List QueuedData) :
    (discards serviceContext id flag qds).length = qds.length := by
  induction qds generalizing flag with
  | nil => rfl
  | cons q qds ih =>
    rw [discards]
    split_ifs
    · exact congrArg (· + 1) (ih _)
    · exact congrArg (· + 1) (ih _)

/-- **What the loop does.** -/
theorem releaseLoop_eq (hservice : ReadsSafely serviceContext) (id : ULong) {qds : List QueuedData}
    (hqds : ∀ qd ∈ qds, CanWait qd) (flag : Bool) (stack : MessageStack)
    (released : List QueuedData) :
    releaseLoop serviceContext id qds flag stack released =
      some ((marked false (discards serviceContext id flag qds) qds).reverse ++ stack,
        released ++ marked true (discards serviceContext id flag qds) qds) := by
  induction qds generalizing flag stack released with
  | nil => simp [releaseLoop, marked, discards]
  | cons q qds ih =>
    obtain ⟨hq, hrest⟩ := List.forall_mem_cons.mp hqds
    have hid := hasRequestId_eq hservice hq.header id
    rw [releaseLoop, discards, hid]
    rcases hq.version with hversion | hversion
    · have hold : decide (q.giopVersion.major = 1 ∧ q.giopVersion.minor ≤ 1) = true := by
        rw [hversion]
        decide
      have hnew : ¬(q.giopVersion.major ≥ 1 ∧ q.giopVersion.minor ≥ 2) := by
        rw [hversion]
        decide
      by_cases hfound : q.msgType ≠ .fragment ∧ idOf serviceContext q = some id
      · simp [hversion, hfound, ih hrest, marked_cons]
      · have hfirst : (if decide (q.giopVersion.major = 1 ∧ q.giopVersion.minor ≤ 1) = true ∧
            q.msgType ≠ .fragment then some (decide (idOf serviceContext q = some id))
              else some false) = some false := by
          split_ifs with hcond
          · exact congrArg some (decide_eq_false fun heq => hfound ⟨hcond.2, heq⟩)
          · rfl
        rw [hfirst, if_pos hversion]
        cases flag with
        | true => simp [hold, hfound, ih hrest, marked_cons]
        | false => simp [hnew, hfound, ih hrest, marked_cons]
    · have hold : ¬decide (q.giopVersion.major = 1 ∧ q.giopVersion.minor ≤ 1) = true := by
        rw [hversion]
        decide
      have hnew : q.giopVersion.major ≥ 1 ∧ q.giopVersion.minor ≥ 2 := by
        rw [hversion]
        decide
      have hne : ¬q.giopVersion = ⟨1, 1⟩ := by
        rw [hversion]
        decide
      rw [if_neg fun h => hold h.1, if_neg hne]
      dsimp only
      rw [if_neg fun h => hold h.1, if_pos hnew]
      by_cases hfound : idOf serviceContext q = some id
      · simp [hfound, ih hrest, marked_cons]
      · simp [hfound, ih hrest, marked_cons]

/-! ### The right ones -/

variable (serviceContext)

/-- **No other message of GIOP 1.1 has begun** behind one of a request. -/
def NoneBehind (id : ULong) (qds : List QueuedData) : Prop :=
  qds.Pairwise fun q q' => Starts11 q → idOf serviceContext q = some id →
    Starts11 q' → idOf serviceContext q' = some id

variable {serviceContext} {id : ULong} {qds : List QueuedData}

/-- Then the loop releases what belongs to the request. -/
theorem discards_eq_owned {flag : Bool} (h : NoneBehind serviceContext id qds)
    (hflag : flag = true → ∀ q ∈ qds, Starts11 q → idOf serviceContext q = some id) :
    discards serviceContext id flag qds = owned serviceContext id flag qds := by
  induction qds generalizing flag with
  | nil => rfl
  | cons q qds ih =>
    obtain ⟨hfirst, hrest⟩ := List.pairwise_cons.mp h
    have hflag' : flag = true → ∀ q' ∈ qds, Starts11 q' → idOf serviceContext q' = some id :=
      fun hf q' hq' => hflag hf q' (List.mem_cons_of_mem _ hq')
    rw [discards, owned]
    by_cases hversion : q.giopVersion = ⟨1, 1⟩
    · rw [if_pos hversion, if_pos hversion]
      by_cases htype : q.msgType = .fragment
      · simp [htype, ih hrest hflag']
      · by_cases hid : idOf serviceContext q = some id
        · simp [htype, hid, ih hrest fun _ q' hq' => hfirst q' hq' ⟨hversion, htype⟩ hid]
        · cases flag with
          | true => exact absurd (hflag rfl q List.mem_cons_self ⟨hversion, htype⟩) hid
          | false => simp [htype, hid, ih hrest hflag']
    · rw [if_neg hversion, if_neg hversion, ih hrest hflag']

theorem length_marked_cons (m : Bool) (marks : List Bool) (q : QueuedData)
    (qds : List QueuedData) : (marked true (m :: marks) (q :: qds)).length =
      (marked true marks qds).length + m.toNat := by
  rw [marked_cons]
  cases m with
  | true => rfl
  | false => rfl

/-- **The loop never releases too few**, and as many as belong to the request only if no other
message of GIOP 1.1 has begun behind one of it. -/
theorem length_owned_le {flag current : Bool} (h : current = true → flag = true) :
    (marked true (owned serviceContext id current qds) qds).length ≤
        (marked true (discards serviceContext id flag qds) qds).length ∧
      ((marked true (owned serviceContext id current qds) qds).length =
          (marked true (discards serviceContext id flag qds) qds).length →
        (flag = true → ∀ q ∈ qds, Starts11 q → idOf serviceContext q = some id) ∧
          NoneBehind serviceContext id qds) := by
  induction qds generalizing flag current with
  | nil => exact ⟨le_rfl, fun _ => ⟨nofun, List.Pairwise.nil⟩⟩
  | cons q qds ih =>
    rw [discards, owned]
    by_cases hversion : q.giopVersion = ⟨1, 1⟩
    · rw [if_pos hversion, if_pos hversion]
      by_cases htype : q.msgType = .fragment
      · -- a later fragment
        have hnot : ¬Starts11 q := fun hs => hs.2 htype
        have hfound : decide (q.msgType ≠ .fragment ∧ idOf serviceContext q = some id) = false :=
          decide_eq_false fun hc => hc.1 htype
        dsimp only
        rw [if_pos htype, hfound, Bool.false_or, length_marked_cons, length_marked_cons]
        obtain ⟨hle, heq⟩ := ih h
        have hnat : current.toNat ≤ flag.toNat := Bool.toNat_le_toNat h
        refine ⟨by omega, fun hlen => ?_⟩
        obtain ⟨hbehind, hnone⟩ := heq (by omega)
        exact ⟨fun hf => List.forall_mem_cons.mpr ⟨fun hs => absurd hs hnot, hbehind hf⟩,
          List.pairwise_cons.mpr ⟨fun _ _ hs => absurd hs hnot, hnone⟩⟩
      · rw [if_neg htype]
        by_cases hid : idOf serviceContext q = some id
        · have hfound : decide (q.msgType ≠ .fragment ∧ idOf serviceContext q = some id) = true :=
            decide_eq_true ⟨htype, hid⟩
          dsimp only
          rw [hfound, Bool.true_or, decide_eq_true hid, length_marked_cons, length_marked_cons]
          obtain ⟨hle, heq⟩ := @ih true true fun _ => rfl
          refine ⟨by omega, fun hlen => ?_⟩
          obtain ⟨hbehind, hnone⟩ := heq (by omega)
          exact ⟨fun _ => List.forall_mem_cons.mpr ⟨fun _ => hid, hbehind rfl⟩,
            List.pairwise_cons.mpr ⟨fun q' hq' _ _ => hbehind rfl q' hq', hnone⟩⟩
        · -- the beginning of another message
          have hfound : decide (q.msgType ≠ .fragment ∧ idOf serviceContext q = some id) =
            false := decide_eq_false fun hc => hid hc.2
          dsimp only
          rw [hfound, Bool.false_or, decide_eq_false hid, length_marked_cons, length_marked_cons,
            Bool.toNat_false]
          obtain ⟨hle, heq⟩ := @ih flag false nofun
          refine ⟨by omega, fun hlen => ?_⟩
          cases flag with
          | true =>
            rw [Bool.toNat_true] at hlen
            omega
          | false =>
            obtain ⟨-, hnone⟩ := heq (by simpa using hlen)
            exact ⟨nofun, List.pairwise_cons.mpr ⟨fun _ _ _ heq => absurd heq hid, hnone⟩⟩
    · have hnot : ¬Starts11 q := fun hs => hversion hs.1
      rw [if_neg hversion, if_neg hversion, length_marked_cons, length_marked_cons]
      obtain ⟨hle, heq⟩ := ih h
      refine ⟨by omega, fun hlen => ?_⟩
      obtain ⟨hbehind, hnone⟩ := heq (by omega)
      exact ⟨fun hf => List.forall_mem_cons.mpr ⟨fun hs => absurd hs hnot, hbehind hf⟩,
        List.pairwise_cons.mpr ⟨fun _ _ hs => absurd hs hnot, hnone⟩⟩

variable (serviceContext)

/-- **The right fragments are discarded**: what belongs to the request of the message is released,
the rest stays in its order, and every fragment is on the stack or has been released. -/
def CancelsRight (stack : MessageStack) (cancelRequest : QueuedData) : Prop :=
  ∃ stack' released,
    releaseFragmentedMessage serviceContext stack cancelRequest = some (stack', released) ∧
    (stack' ++ released).Perm stack ∧
    match idOf serviceContext cancelRequest with
    | none => stack' = stack ∧ released = []
    | some id =>
      stack'.reverse = marked false (owned serviceContext id false stack.reverse) stack.reverse ∧
        released = marked true (owned serviceContext id false stack.reverse) stack.reverse

variable {serviceContext}

/-- **When the right fragments are discarded**: no other message of GIOP 1.1 has begun behind one of
the request. -/
theorem cancelsRight_iff (hservice : ReadsSafely serviceContext) {stack : MessageStack}
    (hstack : ∀ qd ∈ stack, CanWait qd) {cancelRequest : QueuedData}
    (hcancel : HasHeader cancelRequest) :
    CancelsRight serviceContext stack cancelRequest ↔
      ∀ id, idOf serviceContext cancelRequest = some id →
        NoneBehind serviceContext id stack.reverse := by
  obtain ⟨r, hr⟩ := exists_parseRequestId hservice hcancel
  rcases r with e | id
  · -- the message has no request id
    have hid : idOf serviceContext cancelRequest = none := by rw [idOf, hr]
    have hrelease : releaseFragmentedMessage serviceContext stack cancelRequest =
        some (stack, []) := by rw [releaseFragmentedMessage, hr]
    refine iff_of_true ⟨stack, [], hrelease, ?_, ?_⟩ fun id h => ?_
    · rw [List.append_nil]
    · rw [hid]
      exact ⟨rfl, rfl⟩
    · cases hid.symm.trans h
  have hid : idOf serviceContext cancelRequest = some id := by rw [idOf, hr]
  have hreverse : ∀ qd ∈ stack.reverse, CanWait qd := fun qd hqd =>
    hstack qd (List.mem_reverse.mp hqd)
  have hloop := releaseLoop_eq hservice id hreverse false [] []
  rw [List.append_nil, List.nil_append] at hloop
  have hrelease : releaseFragmentedMessage serviceContext stack cancelRequest =
      some ((marked false (discards serviceContext id false stack.reverse) stack.reverse).reverse,
        marked true (discards serviceContext id false stack.reverse) stack.reverse) := by
    rw [releaseFragmentedMessage, hr]
    dsimp only
    rw [List.reverseAux_eq, List.append_nil, hloop]
  constructor
  · rintro ⟨stack', released, hreleased, -, hright⟩ id' hid'
    cases hid.symm.trans hid'
    cases hrelease.symm.trans hreleased
    rw [hid] at hright
    have hlen := congrArg List.length hright.2.symm
    exact ((length_owned_le fun h => h).2 hlen).2
  · intro h
    have heq : discards serviceContext id false stack.reverse =
        owned serviceContext id false stack.reverse := discards_eq_owned (h id hid) nofun
    refine ⟨_, _, hrelease, ?_, ?_⟩
    · have hperm := perm_marked (@length_discards serviceContext id false stack.reverse)
      exact (((List.reverse_perm _).append_right _).trans hperm).trans (List.reverse_perm stack)
    · rw [hid, heq]
      exact ⟨List.reverse_reverse _, rfl⟩

section Example

/-- The first fragments of two requests of GIOP 1.1. -/
def firstOf5 : QueuedData := sample11 true .request 0 [5, 0, 0, 0] (by decide)
def firstOf6 : QueuedData := sample11 true .request 0 [6, 0, 0, 0] (by decide)

/-- A fragment behind one of them. -/
def laterFragment : QueuedData := sample11 true .fragment 7 [1, 2, 3, 4] (by decide)

/-- The first request is cancelled. -/
def cancelOf5 : QueuedData := sample11 false .cancelRequest 2 [5, 0, 0, 0] (by decide)

theorem canWait_sample11 {more : Bool} {type : MsgType} {octet : UInt8} {payload : List UInt8}
    {h : headerLen + payload.length ≤ addressLimit} :
    CanWait (sample11 more type octet payload h) where
  version := .inl rfl
  header := isFragment11_sample11.2.imp fun _ hmb => ⟨[], hmb⟩

theorem readsSafely_pure : ReadsSafely (pure ()) := fun _ h => safeAt_pure h ()

theorem cancelsRight_iff_sample :
    CancelsRight (pure ()) [laterFragment, firstOf5, firstOf6] cancelOf5 ↔
      ∀ id, idOf (pure ()) cancelOf5 = some id →
        NoneBehind (pure ()) id [laterFragment, firstOf5, firstOf6].reverse :=
  cancelsRight_iff readsSafely_pure
    (by
      intro qd hqd
      rcases List.mem_cons.mp hqd with rfl | hqd
      · exact canWait_sample11
      rcases List.mem_cons.mp hqd with rfl | hqd
      · exact canWait_sample11
      · rw [List.mem_singleton.mp hqd]
        exact canWait_sample11)
    canWait_sample11.header

/-- **The other request is lost too**: its first fragment arrived behind the one of the request that
is cancelled. -/
theorem not_cancelsRight_behind : ¬CancelsRight (pure ()) [firstOf6, firstOf5] cancelOf5 := by
  have hrelease : releaseFragmentedMessage (pure ()) [firstOf6, firstOf5] cancelOf5 =
      some ([], [firstOf5, firstOf6]) := rfl
  have howned : marked true (owned (pure ()) 5 false [firstOf5, firstOf6]) [firstOf5, firstOf6] =
      [firstOf5] := rfl
  rintro ⟨stack', released, hreleased, -, hright⟩
  cases hrelease.symm.trans hreleased
  cases (show [firstOf5, firstOf6] = _ from hright.2).trans howned

end Example

end AceTao.Giop
