import AceTao.Giop.Reassembly

/-!
# Reassembling the fragments of GIOP 1.1

A later fragment of GIOP 1.1 has the header of a message and no request id: the message is the first
fragment and the others without their headers (`join11`). The headers that
`consolidate_fragmented_message` skips are those of the version whose major number is that of the
message, and its minor number the default, which is 2. So four bytes of the body are skipped with
each later fragment, and no message is ever put together again (`not_reassembles11`).
-/

namespace AceTao.Giop

open Cdr

variable {serviceContext : Reader Unit} {heap : Heap} {q head tail msg : QueuedData}

/-- **The message of its fragments** in GIOP 1.1. -/
def join11 : List QueuedData → List UInt8
  | [] => []
  | first :: later => first.bytes ++ later.flatMap fun qd => qd.bytes.drop headerLen

/-- **A fragment** of GIOP 1.1: one block, that holds the header. -/
structure IsFragment11 (qd : QueuedData) : Prop where
  version : qd.giopVersion = ⟨1, 1⟩
  block : ∃ mb, qd.msgBlock = [mb] ∧ headerLen ≤ mb.contents.length

/-- **The fragments of a message**: the first one, others, and the final one. -/
structure Split11 (first : QueuedData) (later : List QueuedData) (last : QueuedData) : Prop where
  isFirst : IsFragment11 first ∧ first.msgType ≠ .fragment
  isLater : ∀ qd ∈ later, IsFragment11 qd ∧ qd.msgType = .fragment
  isLast : IsFragment11 last ∧ last.msgType = .fragment
  more : ∀ qd ∈ first :: later, qd.moreFragments = true
  noMore : last.moreFragments = false

/-- **The fragments are put together again**: the final one completes the message. -/
def Reassembles11 (serviceContext : Reader Unit) (heap : Heap) (first : QueuedData)
    (later : List QueuedData) (last : QueuedData) : Prop :=
  ∃ stack msg,
    Machine.run (consolidateFragmentedMessage serviceContext heap) [] (first :: later ++ [last]) =
      some (stack, (first :: later).map (fun _ => .outstanding) ++ [.message msg]) ∧
    msg.bytes = join11 (first :: later ++ [last]) ∧ msg.msgType = first.msgType

/-! ### Lengths -/

theorem IsFragment11.le_length (h : IsFragment11 q) : headerLen ≤ q.bytes.length := by
  obtain ⟨mb, heq, hle⟩ := h.block
  simpa [QueuedData.bytes, heq] using hle

/-- **The headers** of the end of a chain are skipped. -/
theorem length_link {n : ℕ} {t : QueuedData} (hhead : IsFragment11 head)
    (h : link n head tail = some t) :
    t.bytes.length + n = head.bytes.length + tail.bytes.length ∧ n ≤ tail.bytes.length ∧
      t.msgType = head.msgType := by
  obtain ⟨mb, heq, -⟩ := hhead.block
  rw [link, heq] at h
  rcases htail : tail.msgBlock with _ | ⟨mb', cont⟩
  · rw [htail] at h
    cases h
  · rw [htail] at h
    obtain ⟨next, hnext, rfl⟩ := Option.map_eq_some_iff.mp h
    rw [MessageBlock.advance] at hnext
    split_ifs at hnext with hle
    cases hnext
    refine ⟨?_, ?_, rfl⟩
    · simp only [QueuedData.bytes, heq, htail, List.flatMap_cons, List.flatMap_nil,
        List.length_append, List.length_drop, List.length_nil]
      omega
    · simp only [QueuedData.bytes, htail, List.flatMap_cons, List.length_append]
      omega

theorem length_copyBlocks_le (room : ℕ) (src : List MessageBlock) (dst : List UInt8) :
    (QueuedData.copyBlocks room src dst).length ≤
      dst.length + (src.flatMap MessageBlock.contents).length := by
  induction src generalizing dst with
  | nil => exact le_rfl
  | cons i src ih =>
    rw [QueuedData.copyBlocks, List.flatMap_cons, List.length_append]
    refine (ih _).trans ?_
    split_ifs
    · rw [List.length_append]
      omega
    · omega

theorem contents_consolidateBlocks {mb dest : MessageBlock} {cont : List MessageBlock}
    (h : QueuedData.consolidateBlocks heap mb cont = some dest) :
    ∃ room, dest.contents = QueuedData.copyBlocks room (mb :: cont) [] := by
  rw [QueuedData.consolidateBlocks] at h
  dsimp only at h
  split at h
  · cases h
  · obtain ⟨_, hdest⟩ := Option.dite_none_right_eq_some.mp h
    cases hdest
    exact ⟨_, rfl⟩

/-- **Consolidating** adds no bytes. -/
theorem length_consolidate_le (h : tail.consolidate heap = some msg) :
    msg.bytes.length ≤ tail.bytes.length ∧ msg.msgType = tail.msgType := by
  rw [QueuedData.consolidate] at h
  split at h
  · rename_i mb next cont heq
    split_ifs at h
    · obtain ⟨dest, hdest, rfl⟩ := Option.map_eq_some_iff.mp h
      refine ⟨?_, rfl⟩
      obtain ⟨room, hcontents⟩ := contents_consolidateBlocks hdest
      rw [QueuedData.bytes, QueuedData.bytes, heq, List.flatMap_singleton, hcontents]
      exact (length_copyBlocks_le _ _ []).trans (Nat.zero_add _).le
    · cases h
      exact ⟨le_rfl, rfl⟩
  · cases h
    exact ⟨le_rfl, rfl⟩

/-! ### The loop -/

/-- The number of bytes behind the headers. -/
def bodyLength (later : List QueuedData) : ℕ := (later.map fun qd => qd.bytes.length - headerLen).sum

/-- **Bytes are lost**: the chain begins with a later fragment, or it is too short. -/
theorem popFragments_short {first : QueuedData} (hfirst : IsFragment11 first)
    {later : List QueuedData} (hlater : ∀ qd ∈ later, IsFragment11 qd ∧ qd.msgType = .fragment)
    {n : ℕ} (htype : tail.msgType = .fragment) (hlen : tail.bytes.length ≤ headerLen + n)
    {reverseStack stack : MessageStack} {t : QueuedData}
    (h : popFragments (headerLen + fragmentHeader) (belongs11 (headerLen + fragmentHeader))
      (later ++ [first]) tail reverseStack = some (stack, some t)) :
    t.msgType = .fragment ∨ t.bytes.length < first.bytes.length + bodyLength later + n := by
  induction later generalizing tail reverseStack n with
  | nil =>
    rw [List.nil_append, popFragments] at h
    split at h
    · cases h
    · cases h
    · split at h
      · cases h
      · rename_i t' hlink
        cases h
        obtain ⟨hlength, hle, -⟩ := length_link hfirst hlink
        rw [headerLen, fragmentHeader] at *
        exact .inr (by omega)
    · cases h
      exact .inl htype
  | cons head later ih =>
    obtain ⟨⟨hhead, hheadtype⟩, hrest⟩ := List.forall_mem_cons.mp hlater
    have hbody : bodyLength (head :: later) = head.bytes.length - headerLen + bodyLength later := by
      rw [bodyLength, List.map_cons, List.sum_cons, bodyLength]
    have hhlen := hhead.le_length
    rw [List.cons_append, popFragments] at h
    split at h
    · cases h
    · cases h
    · split at h
      · cases h
      · rename_i t' hlink
        obtain ⟨hlength, hle, htype'⟩ := length_link hhead hlink
        have hshort : t'.bytes.length ≤ headerLen + (n + (head.bytes.length - headerLen)) := by
          rw [headerLen, fragmentHeader] at *
          omega
        rcases ih hrest (htype'.trans hheadtype) hshort h with hfragment | hlt
        · exact .inl hfragment
        · exact .inr (by omega)
    · rcases ih hrest htype hlen h with hfragment | hlt
      · exact .inl hfragment
      · exact .inr (by omega)

/-! ### Messages -/

/-- **The fragments that wait** are pushed. -/
theorem run_push {qds : List QueuedData}
    (hqds : ∀ qd ∈ qds, IsFragment11 qd ∧ qd.moreFragments = true) (stack : MessageStack) :
    Machine.run (consolidateFragmentedMessage serviceContext heap) stack qds =
      some (qds.reverse ++ stack, qds.map fun _ => .outstanding) := by
  induction qds generalizing stack with
  | nil => rfl
  | cons qd qds ih =>
    obtain ⟨⟨hqd, hmore⟩, hrest⟩ := List.forall_mem_cons.mp hqds
    have hstep : consolidateFragmentedMessage serviceContext heap stack qd =
        some (qd :: stack, .outstanding) := by
      rw [consolidateFragmentedMessage, if_neg (by rw [hqd.version]; decide), if_pos hmore]
    rw [Machine.run, hstep]
    dsimp only
    rw [ih hrest, List.reverse_cons, List.append_assoc]
    rfl

theorem length_join11 {first : QueuedData} (later : List QueuedData) :
    (join11 (first :: later)).length = first.bytes.length + bodyLength later := by
  rw [join11, List.length_append, List.length_flatMap, bodyLength]
  simp only [List.length_drop]

theorem bodyLength_append (qds qds' : List QueuedData) :
    bodyLength (qds ++ qds') = bodyLength qds + bodyLength qds' := by
  rw [bodyLength, List.map_append, List.sum_append, bodyLength, bodyLength]

theorem bodyLength_reverse (qds : List QueuedData) : bodyLength qds.reverse = bodyLength qds := by
  rw [bodyLength, List.map_reverse, List.sum_reverse, bodyLength]

/-- **The final fragment** is put behind those that wait, but for the bytes that are skipped. -/
theorem consolidate_last {first last : QueuedData} {later : List QueuedData}
    (h : Split11 first later last) {stack : MessageStack}
    (hmsg : consolidateFragmentedMessage serviceContext heap (later.reverse ++ [first]) last =
      some (stack, .message msg)) :
    msg.msgType = .fragment ∨
      msg.bytes.length < first.bytes.length + bodyLength later + (last.bytes.length - headerLen) := by
  obtain ⟨hlast, htype⟩ := h.isLast
  obtain ⟨mb, heq, hle⟩ := hlast.block
  have hlen := hlast.le_length
  have hlater : ∀ qd ∈ later.reverse, IsFragment11 qd ∧ qd.msgType = .fragment :=
    fun qd hqd => h.isLater qd (List.mem_reverse.mp hqd)
  have hparser : fragmentHeaderLength (versionOfMajor last.giopVersion.major) =
      some fragmentHeader := by
    rw [hlast.version]
    rfl
  rw [consolidateFragmentedMessage, if_neg (by rw [hlast.version]; decide),
    if_neg (by rw [h.noMore]; exact Bool.false_ne_true), hparser, heq] at hmsg
  dsimp only at hmsg
  split_ifs at hmsg with hshort hversion
  · cases hmsg
  · obtain ⟨⟨stack', popped⟩, hpop, hfinish⟩ := Option.map_eq_some_iff.mp hmsg
    rcases popped with _ | t
    · cases hfinish
    · rw [finish] at hfinish
      split at hfinish
      · cases hfinish
      · rename_i msg' hconsolidate
        cases hfinish
        obtain ⟨hle', htype'⟩ := length_consolidate_le hconsolidate
        rcases popFragments_short h.isFirst.1 hlater htype
          (n := last.bytes.length - headerLen) (by omega) hpop with hfragment | hlt
        · exact .inl (htype'.trans hfragment)
        · rw [bodyLength_reverse] at hlt
          exact .inr (hle'.trans_lt hlt)
  · exact absurd hlast.version hversion

/-- **No message of GIOP 1.1 is put together again.** -/
theorem not_reassembles11 (serviceContext : Reader Unit) (heap : Heap) {first last : QueuedData}
    {later : List QueuedData} (h : Split11 first later last) :
    ¬Reassembles11 serviceContext heap first later last := by
  rintro ⟨stack, msg, hrun, hbytes, htype⟩
  have hpush : Machine.run (consolidateFragmentedMessage serviceContext heap) [] (first :: later) =
      some (later.reverse ++ [first], (first :: later).map fun _ => .outstanding) := by
    have hwait : ∀ qd ∈ first :: later, IsFragment11 qd ∧ qd.moreFragments = true := by
      intro qd hqd
      refine ⟨?_, h.more qd hqd⟩
      rcases List.mem_cons.mp hqd with rfl | hlater
      · exact h.isFirst.1
      · exact (h.isLater qd hlater).1
    rw [run_push hwait, List.append_nil, List.reverse_cons]
  obtain ⟨stack', waits, out, hwaits, hlast, hout⟩ := Machine.run_append.mp hrun
  cases hwaits.symm.trans hpush
  cases List.append_cancel_left hout
  obtain ⟨stack'', answer, rest, hstep, hrest, hanswer⟩ := Machine.run_cons_eq_some.mp hlast
  cases hanswer
  rcases consolidate_last h hstep with hfragment | hlt
  · exact h.isFirst.2 (htype.symm.trans hfragment)
  · have hjoin : bodyLength [last] = last.bytes.length - headerLen := Nat.add_zero _
    rw [hbytes, List.cons_append, length_join11, bodyLength_append, hjoin] at hlt
    omega

section Example

/-- The bytes of a message of GIOP 1.1. -/
def sampleBytes11 (more : Bool) (octet : UInt8) (payload : List UInt8) : List UInt8 :=
  [71, 73, 79, 80, 1, 1, if more then 3 else 1, octet, UInt8.ofNat payload.length, 0, 0, 0] ++
    payload

theorem fits_sampleBytes11 (more : Bool) (octet : UInt8) (payload : List UInt8)
    (h : headerLen + payload.length ≤ addressLimit) :
    0 + (sampleBytes11 more octet payload).length ≤ addressLimit := by
  rw [headerLen] at h
  rw [sampleBytes11]
  simp only [List.length_append, List.length_cons, List.length_nil]
  omega

/-- A message of GIOP 1.1 in one block. -/
def sample11 (more : Bool) (type : MsgType) (octet : UInt8) (payload : List UInt8)
    (h : headerLen + payload.length ≤ addressLimit) : QueuedData where
  msgBlock := [{
    base := 0
    rdPtr := 0
    contents := sampleBytes11 more octet payload
    fits := fits_sampleBytes11 more octet payload h }]
  missingData := 0
  state := ⟨⟨1, 1⟩, 1, type, BitVec.ofNat 32 payload.length, more⟩

theorem isFragment11_sample11 {more : Bool} {type : MsgType} {octet : UInt8} {payload : List UInt8}
    {h : headerLen + payload.length ≤ addressLimit} :
    IsFragment11 (sample11 more type octet payload h) := by
  refine ⟨rfl, _, rfl, ?_⟩
  show headerLen ≤ (sampleBytes11 more octet payload).length
  rw [headerLen, sampleBytes11]
  simp only [List.length_append, List.length_cons, List.length_nil]
  omega

/-- The first fragment of a request. -/
def sampleFirst11 : QueuedData := sample11 true .request 0 [0, 0, 0, 0, 1, 0, 0, 0] (by decide)

/-- The other one. -/
def sampleLast11 : QueuedData := sample11 false .fragment 7 [1, 2, 3, 4, 5, 6, 7, 8] (by decide)

theorem split11_sample : Split11 sampleFirst11 [] sampleLast11 where
  isFirst := ⟨isFragment11_sample11, by decide⟩
  isLater := nofun
  isLast := ⟨isFragment11_sample11, rfl⟩
  more := List.forall_mem_singleton.mpr rfl
  noMore := rfl

theorem not_reassembles11_sample :
    ¬Reassembles11 (pure ()) sampleHeap sampleFirst11 [] sampleLast11 :=
  not_reassembles11 (pure ()) sampleHeap split11_sample

/-- **Four bytes are lost**: the message that is handed on has `5, 6, 7, 8` behind the first
fragment. -/
theorem four_bytes_lost : Split11 sampleFirst11 [] sampleLast11 ∧ ∃ stack msg,
    Machine.run (consolidateFragmentedMessage (pure ()) sampleHeap) []
      [sampleFirst11, sampleLast11] = some (stack, [.outstanding, .message msg]) ∧
    msg.bytes = sampleFirst11.bytes ++ [5, 6, 7, 8] ∧
    msg.bytes ≠ join11 [sampleFirst11, sampleLast11] := by
  obtain ⟨t, mb, next, hpop, hmore, hblocks, hbytes⟩ : ∃ t mb next,
      popFragments (headerLen + fragmentHeader) (belongs11 (headerLen + fragmentHeader))
        [sampleFirst11] sampleLast11 [] = some ([], some t) ∧ t.moreFragments = true ∧
      t.msgBlock = [mb, next] ∧
      [mb, next].flatMap MessageBlock.contents = sampleFirst11.bytes ++ [5, 6, 7, 8] :=
    ⟨_, _, _, rfl, rfl, rfl, rfl⟩
  obtain ⟨dest, hdest, hcontents⟩ := @consolidateBlocks_spec sampleHeap mb [next]
    (by rw [hbytes]; exact enough_sampleHeap (by decide))
  obtain ⟨msg, hmsg, heq⟩ : ∃ msg, t.consolidate sampleHeap = some msg ∧
      msg.msgBlock = [dest] := by
    refine ⟨{ t with msgBlock := [dest], state := { t.state with moreFragments := false } }, ?_,
      rfl⟩
    rw [QueuedData.consolidate, hblocks]
    simp only [if_pos hmore, hdest, Option.map_some]
  have hmsgbytes : msg.bytes = sampleFirst11.bytes ++ [5, 6, 7, 8] := by
    rw [QueuedData.bytes, heq, List.flatMap_singleton, hcontents, hbytes]
  refine ⟨split11_sample, [], msg, ?_, hmsgbytes, ?_⟩
  swap
  · rw [hmsgbytes]
    decide
  · have hlast : consolidateFragmentedMessage (pure ()) sampleHeap [sampleFirst11] sampleLast11 =
        (popFragments (headerLen + fragmentHeader) (belongs11 (headerLen + fragmentHeader))
          [sampleFirst11] sampleLast11 []).map (finish sampleHeap) := rfl
    refine Machine.run_cons_eq_some.mpr ⟨[sampleFirst11], .outstanding, _, rfl,
      Machine.run_cons_eq_some.mpr ⟨[], _, [], ?_, rfl, rfl⟩, rfl⟩
    rw [hlast, hpop, Option.map_some, finish, hmsg]

end Example

end AceTao.Giop
