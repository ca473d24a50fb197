import AceTao.EventGateway.Datagrams
import AceTao.EventGateway.Reassembly

/-!
# From the senders to the receiver

Several gateways send messages to one receiver. The datagrams can be lost, duplicated and
reordered, and those of different messages and of different sources come in between; what arrives
is any list of transmissions of what was sent (`Network.Valid`).

The receiver behaves as its purpose is stated over the history alone (`Network.Step`): it calls
`decode` at the datagram with which a message is complete, on all bytes of that message, and at no
other (`Network.run_delivers`). So `decode` is called at most once for each message, and it is
called exactly if all datagrams of the message arrived (`Network.run_decodes`).

What is assumed (`Network.Sound`) is what the code needs for this: a message ends with a block
that is not empty, its fragments fit into the buffer of the receiver, and the ids that a source
uses lie so close together that the window does not leave them behind.
-/

namespace AceTao.EventGateway

open Machine

variable {α : Type*}

/-- **The senders, what they send, and the receiver.** -/
structure Network (α : Type*) where
  heap : ℕ → ℕ
  crc32 : List UInt8 → ULong
  iovMax : ℕ
  sender : α → Sender
  messages : α → ULong → Option (List Block)
  isLoopback : α → Bool
  checkCrc : Bool

/-- **A datagram arrives**: the `k`-th one of the message with this id. What `decode` would answer
is given. -/
structure Transmission (α : Type*) where
  source : α
  id : ULong
  k : ℕ
  answer : ℤ

namespace Receiver

variable [DecidableEq α] {s : Receiver α} {source source' : α} {r : Requests}

/-- The data of a source are replaced. -/
def setEntry (s : Receiver α) (source : α) (r : Requests) : Receiver α :=
  { s with requestMap := Function.update s.requestMap source (some r) }

theorem sourceEntry_self : (s.setEntry source r).sourceEntry source = r := by
  simp [sourceEntry, setEntry]

theorem sourceEntry_of_ne (h : source' ≠ source) :
    (s.setEntry source r).sourceEntry source' = s.sourceEntry source' := by
  simp [sourceEntry, setEntry, h]

end Receiver

namespace Network

variable {n : Network α} {first : α → ℕ}

/-- What `send_message` sends for a message. -/
def datagrams (n : Network α) (source : α) (id : ULong) : List (List UInt8) :=
  match n.messages source id with
  | none => []
  | some blocks => ((n.sender source).sendMessage n.heap n.crc32 n.iovMax id blocks).getD []

/-- What arrives. -/
def arrival (n : Network α) (e : Transmission α) : Datagram α where
  source := e.source
  bytes := ((n.datagrams e.source e.id)[e.k]?).getD []
  answer := e.answer

/-- **The receiver** takes the next datagram. -/
def step [DecidableEq α] (n : Network α) (s : Receiver α) (e : Transmission α) :
    Option (Receiver α × Report) :=
  s.handleInput n.crc32 (n.arrival e)

/-- **What was sent by another host.** -/
def Valid (n : Network α) (e : Transmission α) : Prop :=
  n.isLoopback e.source = false ∧ e.k < (n.datagrams e.source e.id).length

/-! ### The purpose of the receiver -/

/-- What has arrived of a message. -/
def got (history : List (Transmission α)) (source : α) (id : ULong) (k : ℕ) : Prop :=
  ∃ e ∈ history, e.source = source ∧ e.id = id ∧ e.k = k

/-- **A step over the history**: `decode` is called on the bytes of a message when its last datagram
arrives, and at no other time. -/
def Step (n : Network α) (history : List (Transmission α)) (e : Transmission α) (report : Report)
    (history' : List (Transmission α)) : Prop :=
  history' = history ++ [e] ∧ ∀ blocks, n.messages e.source e.id = some blocks →
    (Completes (n.datagrams e.source e.id).length (got history e.source e.id) e.k →
      report.decoded = some (blocks.flatten.map some)) ∧
    (¬Completes (n.datagrams e.source e.id).length (got history e.source e.id) e.k →
      report.decoded = none)

/-- **What is asked of a message**: it ends with a byte, and its sizes are those of a `ULong`. -/
structure Sendable (n : Network α) (source : α) (blocks : List Block) : Prop where
  ends : ∃ front b, blocks = front ++ [b] ∧ b ≠ []
  length_lt : blocks.flatten.length < 2 ^ 32
  count_lt : ∀ fragments, fragmentsOf (n.sender source).maxFragmentPayload n.iovMax blocks =
    some fragments → fragments.length < 2 ^ 32

/-- **What is asked of the network**, with the first id of each source. The receiver has 1024 places
and moves its window by at least 32. -/
structure Sound (n : Network α) (first : α → ℕ) : Prop where
  iovMax_gt : 1 < n.iovMax
  payload_le : ∀ source, (n.sender source).maxFragmentPayload ≤ maxDgramSize
  checksum : n.checkCrc = true → ∀ source, (n.sender source).checksum = true
  sendable : ∀ source id blocks, n.messages source id = some blocks → n.Sendable source blocks
  first_le : ∀ source id, (n.messages source id).isSome → first source ≤ id.toNat
  id_le : ∀ source id, (n.messages source id).isSome → id.toNat + 32 ≤ first source + 1024
  id_lt : ∀ source id, (n.messages source id).isSome → id.toNat + 32 ≤ 2 ^ 32

/-- The pieces of a message. -/
def pieces (n : Network α) (source : α) (blocks : List Block) : List (List UInt8) :=
  ((fragmentsOf (n.sender source).maxFragmentPayload n.iovMax blocks).getD []).map Fragment.data

/-! ### One datagram -/

/-- **A datagram of a message** is one of its pieces behind a header that the receiver reads. -/
theorem Sound.isPiece (hn : n.Sound first) {source : α} {id : ULong} {blocks : List Block}
    (hmessage : n.messages source id = some blocks) :
    (n.pieces source blocks).flatten = blocks.flatten ∧
      (n.datagrams source id).length = (n.pieces source blocks).length ∧
      ∀ k bytes, (n.datagrams source id)[k]? = some bytes →
        ∃ (h : Header) (data : List UInt8), bytes = (n.sender source).datagram n.crc32 h data ∧
          IsPiece id (n.pieces source blocks) k h data := by
  have hs := hn.sendable source id blocks hmessage
  obtain ⟨fragments, hcut, hsend⟩ := @Sender.sendMessage_spec n.heap n.crc32 n.iovMax
    (n.sender source) hn.iovMax_gt id blocks
  obtain ⟨fragments', hcut', hnumbered, hfits, hbytes, hinside⟩ :=
    fragmentsOf_numbered (n.sender source).maxFragmentPayload_pos hn.iovMax_gt blocks
  cases hcut.symm.trans hcut'
  have hpieces : n.pieces source blocks = fragments.map Fragment.data := by
    rw [pieces, hcut]
    rfl
  have hdatagrams : n.datagrams source id = fragments.map fun f =>
      (n.sender source).datagram n.crc32
        (Sender.headerOf id blocks.flatten.length fragments.length f) f.data := by
    rw [datagrams, hmessage]
    dsimp only
    rw [hsend]
    rfl
  rw [hpieces, hdatagrams]
  refine ⟨hbytes, by rw [List.length_map, List.length_map], fun k bytes hk => ?_⟩
  rw [List.getElem?_map, Option.map_eq_some_iff] at hk
  obtain ⟨f, hf, rfl⟩ := hk
  refine ⟨_, _, rfl, ?_⟩
  have hmem := List.mem_of_getElem? hf
  have hlt := (List.getElem?_eq_some_iff.mp hf).1
  obtain ⟨front, b, hblocks, hne⟩ := hs.ends
  have hstart := hnumbered.offset_eq k f hf
  have hbefore := hinside front b hblocks hne f hmem
  have hsize := hnumbered.size_eq f hmem
  have hpiece : (fragments.map Fragment.data)[k]? = some f.data := by
    rw [List.getElem?_map, hf]
    rfl
  have hend := Tiling.start_add_length_le hpiece
  have hlength := hs.length_lt
  have hcount := hs.count_lt fragments hcut
  rw [hbytes] at hend
  have hword {m : ℕ} (hm : m < 2 ^ 32) : (BitVec.ofNat 32 m).toNat = m := by
    rw [BitVec.toNat_ofNat, Nat.mod_eq_of_lt hm]
  exact {
    byteOrder := rfl
    requestId := rfl
    requestSize := by
      rw [hbytes]
      exact hword hlength
    fragmentSize := (hword (by omega)).trans hsize
    fragmentOffset := (hword (by omega)).trans hstart
    fragmentId := (hword (by rw [hnumbered.id_eq k f hf]; omega)).trans (hnumbered.id_eq k f hf)
    fragmentCount := by
      rw [List.length_map]
      exact hword hcount
    piece := hpiece
    inside := by
      rw [hbytes, ← hstart]
      exact hbefore
    fits := by
      have hle := hn.payload_le source
      have hfit := (hfits f hmem).1
      omega }

theorem got_append (history : List (Transmission α)) (e : Transmission α) (source : α) :
    got (history ++ [e]) source = fun id k =>
      got history source id k ∨ e.source = source ∧ e.id = id ∧ e.k = k := by
  funext id k
  refine propext ⟨?_, ?_⟩
  · rintro ⟨e', hmem, he'⟩
    rcases List.mem_append.mp hmem with hmem | hmem
    · exact Or.inl ⟨e', hmem, he'⟩
    · exact Or.inr (List.mem_singleton.mp hmem ▸ he')
  · rintro (⟨e', hmem, he'⟩ | he)
    · exact ⟨e', List.mem_append_left _ hmem, he'⟩
    · exact ⟨e, List.mem_append_right _ (List.mem_singleton_self e), he⟩

/-! ### Every run -/

variable {s : Receiver α} {history history' : List (Transmission α)} {e : Transmission α}
  {source : α} {id : ULong}

/-- **The receiver has what has arrived.** -/
structure Holds (n : Network α) (first : α → ℕ) (s : Receiver α) (history : List (Transmission α)) :
    Prop where
  isLoopback : s.isLoopback = n.isLoopback
  checkCrc : s.checkCrc = n.checkCrc
  tracks : ∀ source, Requests.Tracks (fun id => (n.messages source id).map (n.pieces source))
    (first source) (got history source) (s.sourceEntry source)
  size_eq : ∀ source, (s.sourceEntry source).size = 1024
  min_eq : ∀ source, (s.sourceEntry source).minPurgeCount = 32

theorem holds_new (n : Network α) (first : α → ℕ) :
    Holds n first (.new n.isLoopback n.checkCrc) [] := by
  have hgot (source : α) : got [] source = fun _ _ => False := by
    funext id k
    exact propext ⟨fun ⟨_, hmem, _⟩ => absurd hmem List.not_mem_nil, False.elim⟩
  refine ⟨rfl, rfl, fun source => ?_, fun _ => rfl, fun _ => rfl⟩
  rw [hgot]
  have hinv := Receiver.inv_new n.isLoopback n.checkCrc
  exact Requests.tracks_init hinv.pos hinv.fits _ _

/-- **One datagram**: `decode` is called if its message is complete with it. -/
theorem Holds.step [DecidableEq α] (hn : n.Sound first) (h : Holds n first s history)
    (he : n.Valid e) :
    ∃ s' report history', n.step s e = some (s', report) ∧ n.Step history e report history' ∧
      Holds n first s' history' := by
  obtain ⟨hloop, hk⟩ := he
  rcases hmessage : n.messages e.source e.id with _ | blocks
  · rw [datagrams, hmessage] at hk
    exact absurd hk (Nat.not_lt_zero _)
  obtain ⟨hflatten, hlength, hpiece⟩ := hn.isPiece hmessage
  obtain ⟨bytes, hbytes⟩ : ∃ bytes, (n.datagrams e.source e.id)[e.k]? = some bytes :=
    ⟨_, List.getElem?_eq_getElem hk⟩
  obtain ⟨hd, data, hdatagram, hp⟩ := hpiece e.k bytes hbytes
  have hbytes' : (n.arrival e).bytes = (n.sender e.source).datagram n.crc32 hd data := by
    rw [arrival, hbytes, ← hdatagram]
    rfl
  -- the header is read
  have hread : n.step s e = s.process e.source
      (hd.readAs s.checkCrc ((n.sender e.source).padding n.crc32 hd data)) data e.answer := by
    refine Receiver.handleInput_written hp.byteOrder (Sender.length_padding _ _ _) hbytes' hp.fits
      (h.isLoopback ▸ hloop) hp.consistent fun hcheck => ?_
    rw [Sender.padding, hn.checksum (h.checkCrc ▸ hcheck) e.source, if_pos rfl, crcOf_crcParts]
  have hp' : IsPiece e.id (n.pieces e.source blocks) e.k
      (hd.readAs s.checkCrc ((n.sender e.source).padding n.crc32 hd data)) data :=
    ⟨hp.byteOrder, hp.requestId, hp.requestSize, hp.fragmentSize, hp.fragmentOffset, hp.fragmentId,
      hp.fragmentCount, hp.piece, hp.inside, hp.fits⟩
  -- and the data are received
  have hsome : (n.messages e.source e.id).isSome := by rw [hmessage]; rfl
  have hsize := h.size_eq e.source
  have hmin := h.min_eq e.source
  obtain ⟨r, report, hreceive, htracks, hsize', hmin', hdelivers⟩ :=
    (h.tracks e.source).receive (by rw [hmin]; decide) (by rw [hmin, hsize]; decide)
      (show (n.messages e.source e.id).map _ = some (n.pieces e.source blocks) by
        rw [hmessage]; rfl) hp'
      ⟨hn.first_le _ _ hsome, by rw [hmin, hsize]; exact hn.id_le _ _ hsome,
        by rw [hmin]; exact hn.id_lt _ _ hsome⟩ e.answer
  refine ⟨s.setEntry e.source r, report, history ++ [e], ?_, ⟨rfl, fun blocks' hblocks' => ?_⟩,
    h.isLoopback, h.checkCrc, fun source => ?_, fun source => ?_, fun source => ?_⟩
  · rw [hread, Receiver.process, hreceive]
    rfl
  · cases hmessage.symm.trans hblocks'
    rw [hlength, ← hflatten]
    exact hdelivers
  · rw [got_append]
    by_cases hsource : source = e.source
    · subst hsource
      rw [Receiver.sourceEntry_self]
      have hgot : (fun id k => got history e.source id k ∨
          e.source = e.source ∧ e.id = id ∧ e.k = k) =
          fun id k => got history e.source id k ∨ id = e.id ∧ k = e.k := by
        funext id k
        rw [eq_self_iff_true, true_and, @eq_comm _ e.id, @eq_comm _ e.k]
      rw [hgot]
      exact htracks
    · rw [Receiver.sourceEntry_of_ne hsource]
      have hgot : (fun id k => got history source id k ∨ e.source = source ∧ e.id = id ∧ e.k = k) =
          got history source := by
        funext id k
        exact propext ⟨fun hor => hor.resolve_right fun hand => hsource hand.1.symm, Or.inl⟩
      rw [hgot]
      exact h.tracks source
  · by_cases hsource : source = e.source
    · subst hsource
      rw [Receiver.sourceEntry_self, hsize', hsize]
    · rw [Receiver.sourceEntry_of_ne hsource]
      exact h.size_eq source
  · by_cases hsource : source = e.source
    · subst hsource
      rw [Receiver.sourceEntry_self, hmin', hmin]
    · rw [Receiver.sourceEntry_of_ne hsource]
      exact h.min_eq source

/-- The history is what has arrived. -/
theorem history_eq {events : List (Transmission α)} {reports : List Report}
    (h : Steps n.Step history events reports history') : history' = history ++ events := by
  induction h with
  | nil => exact (List.append_nil _).symm
  | cons hstep _ ih => rw [ih, hstep.1, List.append_assoc, List.singleton_append]

variable [DecidableEq α]

/-- **A run** over the history. -/
theorem exists_steps (hn : n.Sound first) {events : List (Transmission α)}
    (hvalid : ∀ e ∈ events, n.Valid e) :
    ∃ s reports history, run n.step (.new n.isLoopback n.checkCrc) events = some (s, reports) ∧
      Steps n.Step [] events reports history := by
  obtain ⟨s, reports, history, hrun, hsteps, -⟩ := Machine.run_refines
    (P := Holds n first) (G := fun _ e => n.Valid e) (R := n.Step)
    (s := .new n.isLoopback n.checkCrc)
    (fun s history e hs he => by
      obtain ⟨s', report, history', hstep, hR, hs'⟩ := Holds.step hn hs he
      exact ⟨s', report, history', hstep, hR, hs'⟩)
    (holds_new n first) (guarded_of_forall_mem (fun e he _ => hvalid e he) _)
  exact ⟨s, reports, history, hrun, hsteps⟩

/-- How often `decode` is called for a message. -/
def decodes (source : α) (id : ULong) (events : List (Transmission α)) (reports : List Report) :
    ℕ :=
  (events.zip reports).countP fun p => p.1.source = source ∧ p.1.id = id ∧ p.2.decoded.isSome

/-- All datagrams of a message have arrived. -/
def Arrived (n : Network α) (history : List (Transmission α)) (source : α) (id : ULong) : Prop :=
  ∀ k < (n.datagrams source id).length, got history source id k

omit [DecidableEq α] in
theorem Arrived.append (h : n.Arrived history source id) (more : List (Transmission α)) :
    n.Arrived (history ++ more) source id := by
  intro k hk
  obtain ⟨e, hmem, he⟩ := h k hk
  exact ⟨e, List.mem_append_left _ hmem, he⟩

/-- **A step calls `decode`** for a message exactly if the last datagram of it arrives. -/
theorem Step.counts_iff {blocks : List Block} {report : Report}
    (hmessage : n.messages source id = some blocks) (h : n.Step history e report history') :
    (e.source = source ∧ e.id = id ∧ report.decoded.isSome) ↔
      n.Arrived history' source id ∧ ¬n.Arrived history source id := by
  obtain ⟨rfl, hreport⟩ := h
  by_cases hsame : e.source = source ∧ e.id = id
  · obtain ⟨rfl, rfl⟩ := hsame
    have hcompletes : Completes (n.datagrams e.source e.id).length (got history e.source e.id) e.k ↔
        n.Arrived (history ++ [e]) e.source e.id ∧ ¬n.Arrived history e.source e.id := by
      refine and_congr_left fun _ => forall₂_congr fun k _ => ?_
      rw [got_append]
      dsimp only
      rw [eq_self_iff_true, eq_self_iff_true, true_and, true_and, @eq_comm _ k]
    obtain ⟨hsome, hnone⟩ := hreport blocks hmessage
    rw [← hcompletes]
    constructor
    · rintro ⟨-, -, hdecoded⟩
      by_contra hnot
      rw [hnone hnot] at hdecoded
      cases hdecoded
    · intro hc
      rw [hsome hc]
      exact ⟨rfl, rfl, rfl⟩
  · have hgot : got (history ++ [e]) source id = got history source id := by
      funext k
      rw [got_append]
      exact propext ⟨fun hor => hor.resolve_right fun hand => hsame ⟨hand.1, hand.2.1⟩, Or.inl⟩
    refine iff_of_false (fun hand => hsame ⟨hand.1, hand.2.1⟩) fun hand => hand.2 ?_
    have harrived := hand.1
    rw [Arrived, hgot] at harrived
    exact harrived

/-- **Over the history**, `decode` is called once, when all datagrams have arrived. -/
theorem decodes_of_steps {blocks : List Block} (hmessage : n.messages source id = some blocks)
    {events : List (Transmission α)} {reports : List Report}
    (h : Steps n.Step history events reports history') :
    (n.Arrived history source id → decodes source id events reports = 0) ∧
      (¬n.Arrived history source id →
        (n.Arrived history' source id → decodes source id events reports = 1) ∧
        (¬n.Arrived history' source id → decodes source id events reports = 0)) := by
  induction h with
  | nil => exact ⟨fun _ => rfl, fun hnot => ⟨fun harrived => absurd harrived hnot, fun _ => rfl⟩⟩
  | @cons history history₁ history' e report events reports hstep hsteps ih =>
    have hcounts := hstep.counts_iff hmessage
    have hdecodes : decodes source id (e :: events) (report :: reports) =
        decodes source id events reports +
          if e.source = source ∧ e.id = id ∧ report.decoded.isSome then 1 else 0 := by
      rw [decodes, List.zip_cons_cons, List.countP_cons, decodes]
      simp only [decide_eq_true_eq]
    rw [hdecodes]
    obtain ⟨hold, hnew⟩ := ih
    obtain ⟨rfl, -⟩ := hstep
    by_cases harrived : n.Arrived history source id
    · have hnot := mt hcounts.mp fun hand => hand.2 harrived
      rw [if_neg hnot, hold (harrived.append [e])]
      exact ⟨fun _ => rfl, fun hnot => absurd harrived hnot⟩
    · refine ⟨fun h => absurd h harrived, fun _ => ?_⟩
      by_cases hnow : n.Arrived (history ++ [e]) source id
      · rw [if_pos (hcounts.mpr ⟨hnow, harrived⟩), hold hnow]
        refine ⟨fun _ => rfl, fun hnot => ?_⟩
        rw [history_eq hsteps] at hnot
        exact absurd (hnow.append events) hnot
      · rw [if_neg fun h => hnow (hcounts.mp h).1]
        exact hnew hnow

/-- A sender with the smallest `mtu_`, of a message with ten bytes. -/
def smallest : Network Unit where
  heap := fun n => 8 * n
  crc32 := fun bytes => BitVec.ofNat 32 bytes.length
  iovMax := 1024
  sender := fun _ => ((Sender.new true).setMtu 40).1
  messages := fun _ id => if id = 5 then some twoBlocks else none
  isLoopback := fun _ => false
  checkCrc := true

theorem smallest_message {source : Unit} {id : ULong} {blocks : List Block}
    (h : smallest.messages source id = some blocks) :
    id = 5 ∧ blocks = twoBlocks := by
  by_cases hid : id = 5
  · exact ⟨hid, Option.some.inj (h.symm.trans (if_pos hid))⟩
  · cases h.symm.trans (if_neg hid)

theorem maxFragmentPayload_smallest (source : Unit) :
    (smallest.sender source).maxFragmentPayload = 8 := by
  change ((Sender.new true).setMtu 40).1.maxFragmentPayload = 8
  decide

theorem fragmentsOf_smallest : (fragmentsOf 8 1024 twoBlocks).map
    List.length = some 2 := by decide

theorem sound_smallest : smallest.Sound fun _ => 5 where
  iovMax_gt := by decide
  payload_le source := by
    rw [maxFragmentPayload_smallest]
    decide
  checksum _ _ := rfl
  sendable source id blocks h := by
    obtain ⟨-, rfl⟩ := smallest_message h
    refine ⟨⟨[[1, 2, 3]], [4, 5, 6, 7, 8, 9, 10], rfl, List.cons_ne_nil _ _⟩, by decide,
      fun fragments hcut => ?_⟩
    have hlength := fragmentsOf_smallest
    rw [maxFragmentPayload_smallest] at hcut
    rw [show fragmentsOf 8 1024 _ = some fragments from hcut, Option.map_some,
      Option.some.injEq] at hlength
    rw [hlength]
    decide
  first_le source id h := by
    obtain ⟨blocks, hmessage⟩ := Option.isSome_iff_exists.mp h
    rw [(smallest_message hmessage).1]
    decide
  id_le source id h := by
    obtain ⟨blocks, hmessage⟩ := Option.isSome_iff_exists.mp h
    rw [(smallest_message hmessage).1]
    decide
  id_lt source id h := by
    obtain ⟨blocks, hmessage⟩ := Option.isSome_iff_exists.mp h
    rw [(smallest_message hmessage).1]
    decide

/-- The second datagram arrives first, and again. -/
def outOfOrder : List (Transmission Unit) := [⟨(), 5, 1, 0⟩, ⟨(), 5, 1, 0⟩, ⟨(), 5, 0, 0⟩]

theorem valid_outOfOrder : ∀ e ∈ outOfOrder, smallest.Valid e := by
  have hlength : (smallest.datagrams () 5).length = 2 :=
    (@Sound.isPiece _ _ _ sound_smallest () 5 twoBlocks rfl).2.1
  simp only [outOfOrder, List.forall_mem_cons, Valid, hlength]
  exact ⟨⟨rfl, by decide⟩, ⟨rfl, by decide⟩, ⟨rfl, by decide⟩, List.forall_mem_nil _⟩

end Network

end AceTao.EventGateway
