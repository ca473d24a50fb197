import AceTao.RMCast.Reassembly
import Mathlib.Data.Fintype.Basic

/-!
# Several threads that send on one socket

Threads of an application send messages that have to be cut. A thread draws a serial number under
the mutex and passes one packet down; then another thread may do so. The packets arrive in the order
of their serial numbers, where some of them have been replaced by a notice that they are lost.

The receiver keeps one message for each address it hears from. So it aborts when the packets of two
messages alternate (`not_whole_of_two`). As long as no thread draws a number while another one is in
the middle of a message, whatever is lost, it never aborts, and each message that it hands up is one
that was sent (`whole_of_run`).
-/

namespace AceTao.RMCast

/-- The threads in `send`, the next serial number, and the messages that have been sent. -/
structure Senders (ι : Type) where
  sn : U64
  threads : ι → Option Sending
  sent : List (List UInt8)

inductive SenderAct (ι : Type)
  | send (t : ι) (bytes : List UInt8)
  | draw (t : ι)

namespace Senders

variable {ι : Type} [DecidableEq ι]

def init (sn : U64) : Senders ι := ⟨sn, fun _ => none, []⟩

/-- The thread is in its loop as long as the condition of the loop holds. -/
def inLoop (s : Sending) : Option Sending := if s.i ≤ s.packets then some s else none

/-- **A step of a thread**: it enters the loop for data that do not fit in a packet, or it goes
through the body once, which passes a packet down. -/
def step (k : ℕ) (s : Senders ι) : SenderAct ι → Option (Senders ι × List Message)
  | .send t bytes =>
    match s.threads t with
    | some _ => none
    | none =>
      if k < bytes.length then
        some ({ s with
          threads := Function.update s.threads t (inLoop (.start k bytes))
          sent := bytes :: s.sent }, [])
      else none
  | .draw t =>
    match s.threads t with
    | none => none
    | some c =>
      match c.iterate k s.sn with
      | none => none
      | some (m, c') =>
        some ({ s with
          sn := s.sn + 1
          threads := Function.update s.threads t (inLoop c') }, [m])

/-- A thread that has passed a packet of its message down, but not the last one. -/
def Started (s : Senders ι) (t : ι) : Prop := ∃ c, s.threads t = some c ∧ c.i ≠ 1

instance (s : Senders ι) (t : ι) : Decidable (s.Started t) :=
  match h : s.threads t with
  | none => isFalse fun ⟨c, hc, _⟩ => by cases h.symm.trans hc
  | some c => decidable_of_iff (c.i ≠ 1)
      ⟨fun hi => ⟨c, h, hi⟩, fun ⟨_, hc, hi⟩ => by cases h.symm.trans hc; exact hi⟩

/-- **No thread cuts in**: a number is drawn only while no other thread is in the middle of a
message. -/
def Exclusive (s : Senders ι) : SenderAct ι → Prop
  | .send _ _ => True
  | .draw t => ∀ u, u ≠ t → ¬s.Started u

instance [Fintype ι] (s : Senders ι) (act : SenderAct ι) : Decidable (s.Exclusive act) :=
  match act with
  | .send _ _ => isTrue trivial
  | .draw t => inferInstanceAs (Decidable (∀ u, u ≠ t → ¬s.Started u))

end Senders

/-- What arrives in place of a packet: the packet, or a notice that it is lost. -/
inductive Arrives (source self : Address) : Message → Message → Prop
  | kept (m : Message) : Arrives source self m (m.linked source self)
  | lost (m : Message) (sn : U64) (h : m.findSn = some sn) :
    Arrives source self m (((Message.empty.add (.sn sn)).add .noData).linked source self)

/-- **What was sent is handed up**: whichever of the packets are lost, the receiver has an answer to
all that arrives, and the data of each message it hands up are those of a message that was sent. -/
def Whole (sent : List (List UInt8)) (packets : List Message) : Prop :=
  ∀ (map : Reassemble.Map) (source self : Address) (arrived : List Message), map source = none →
    List.Forall₂ (Arrives source self) packets arrived →
    ∃ map' ups, Machine.run Reassemble.step map arrived = some (map', ups) ∧
      ∀ m ∈ ups.flatten, ∀ d, m.findData = some d → d.buf ∈ sent

section

variable {ι : Type} [DecidableEq ι] {k n : ℕ} {bytes : List UInt8} {c c' : Sending}
  {map : Reassemble.Map} {source self : Address}

/-! ### One packet -/

/-- Behind the last part a thread leaves its loop. -/
theorem Sending.Valid.inLoop_eq (h : c.Valid k bytes n) (hd : Fragmented k bytes) :
    Senders.inLoop { c with i := c.i + 1, rest := c.rest.drop (c.partSize k) } =
      if n = bytes.length / k then none
      else some { c with i := c.i + 1, rest := c.rest.drop (c.partSize k) } := by
  have hle := h.le
  rw [Senders.inLoop]
  split_ifs with hi hlast hlast
  · exact absurd hi (h.end_of_last hd hlast)
  · rfl
  · rfl
  · exact absurd ((h.next hd (by omega)).i_le hd) hi

/-- What the receiver has of a message before the part number `n + 1`, if it has anything. -/
def Holding (k n : ℕ) (bytes : List UInt8) (map : Reassemble.Map) (source : Address) : Prop :=
  map source = none ∨ n ≠ 0 ∧ map source = Reassemble.gathered k n bytes

/-- **A packet arrives, or is lost**: the receiver has an answer. It has nothing of the message any
more, or one part more, and the data it hands up are those of the message. -/
theorem recv_arrival (h : c.Valid k bytes n) (hd : Fragmented k bytes) (hk : k < 2 ^ 16) {sn : U64}
    (hmap : Holding k n bytes map source) {a : Message}
    (ha : Arrives source self (c.message k sn) a) :
    ∃ map' up, Reassemble.step map a = some (map', up) ∧
      (∀ m ∈ up, ∀ d, m.findData = some d → d.buf = bytes) ∧
      (map' source = none ∨ n ≠ bytes.length / k ∧
        map' source = Reassemble.gathered k (n + 1) bytes) := by
  cases ha with
  | lost sn' hsn =>
    refine ⟨_, _, Reassemble.recv_lost map source self sn', ?_,
      Or.inl (Function.update_self source none map)⟩
    intro m hm d hdata
    rw [List.mem_singleton.mp hm] at hdata
    cases hdata
  | kept =>
    rcases hmap with hnone | ⟨hn, hsome⟩
    · rcases Nat.eq_zero_or_pos n with rfl | hn
      · exact ⟨_, _, Reassemble.recv_first h hd hk hnone, List.forall_mem_nil _,
          Or.inr ⟨hd.div_pos.ne, Function.update_self ..⟩⟩
      · exact ⟨_, _, Reassemble.recv_ignored h hn.ne' hnone, List.forall_mem_nil _, Or.inl hnone⟩
    · have hrecv : Reassemble.recv map ((c.message k sn).linked source self) = _ :=
        Reassemble.recv_next h hd hk hn hsome
      split_ifs at hrecv with hlast
      · refine ⟨_, _, hrecv, ?_, Or.inl (Function.update_self ..)⟩
        intro m hm d hdata
        rw [List.mem_singleton.mp hm] at hdata
        cases hdata
        rfl
      · exact ⟨_, _, hrecv, List.forall_mem_nil _, Or.inr ⟨hlast, Function.update_self ..⟩⟩

/-! ### Runs -/

/-- **The invariant**: each thread is at some part of its message, and the receiver has nothing, or
the beginning of the message of a thread that is in the middle of it. -/
structure Senders.Inv (k : ℕ) (s : Senders ι) (message : ι → List UInt8) (map : Reassemble.Map)
    (source : Address) : Prop where
  sizes : ∀ bytes ∈ s.sent, Fragmented k bytes
  sent : ∀ t c, s.threads t = some c → message t ∈ s.sent
  threads : ∀ t c, s.threads t = some c → ∃ n, c.Valid k (message t) n
  holds : map source = none ∨ ∃ t c n, s.threads t = some c ∧ n ≠ 0 ∧ c.Valid k (message t) n ∧
    map source = Reassemble.gathered k n (message t)

variable {s t : Senders ι} {message : ι → List UInt8}

theorem Sending.Valid.unique {n' : ℕ} (h : c.Valid k bytes n) (h' : c.Valid k bytes n') :
    n = n' := Nat.succ_inj.mp (h.i.symm.trans h'.i)

/-- **A thread enters its loop.** -/
theorem Senders.Inv.send (h : s.Inv k message map source) {u : ι} (hu : s.threads u = none)
    (hd : Fragmented k bytes) :
    Senders.Inv k { s with
      threads := Function.update s.threads u (Senders.inLoop (.start k bytes))
      sent := bytes :: s.sent } (Function.update message u bytes) map source := by
  have hstart := Sending.start_valid hd
  have hloop : Senders.inLoop (.start k bytes) = some (.start k bytes) := if_pos (hstart.i_le hd)
  refine ⟨List.forall_mem_cons.mpr ⟨hd, h.sizes⟩, fun v c hc => ?_, fun v c hc => ?_, ?_⟩
  · dsimp only at hc ⊢
    rcases eq_or_ne v u with rfl | hne
    · rw [Function.update_self]
      exact List.mem_cons_self ..
    · rw [Function.update_of_ne hne] at hc ⊢
      exact List.mem_cons_of_mem _ (h.sent v c hc)
  · dsimp only at hc
    rcases eq_or_ne v u with rfl | hne
    · rw [Function.update_self, hloop] at hc
      cases hc
      rw [Function.update_self]
      exact ⟨0, hstart⟩
    · rw [Function.update_of_ne hne] at hc ⊢
      exact h.threads v c hc
  · refine h.holds.imp_right ?_
    rintro ⟨v, c, n, hc, hn, hvalid, hmap⟩
    have hne : v ≠ u := by
      rintro rfl
      rw [hu] at hc
      cases hc
    refine ⟨v, c, n, ?_, hn, ?_, ?_⟩
    · exact (Function.update_of_ne hne ..).trans hc
    · rwa [Function.update_of_ne hne]
    · rwa [Function.update_of_ne hne]

/-- **A thread passes a packet down** that arrives or is lost, while no other thread is in the middle
of a message. -/
theorem Senders.Inv.draw (h : s.Inv k message map source) (hk : k < 2 ^ 16) {u : ι}
    (hu : s.threads u = some c) (hexclusive : s.Exclusive (.draw u)) {a : Message}
    (ha : Arrives source self (c.message k s.sn) a) :
    ∃ map' up, Reassemble.step map a = some (map', up) ∧
      (∀ m ∈ up, ∀ d, m.findData = some d → d.buf ∈ s.sent) ∧
      Senders.Inv k { s with
        sn := s.sn + 1
        threads := Function.update s.threads u
          (Senders.inLoop { c with i := c.i + 1, rest := c.rest.drop (c.partSize k) }) }
        message map' source := by
  have hmem := h.sent u c hu
  have hd := h.sizes _ hmem
  obtain ⟨n, hvalid⟩ := h.threads u c hu
  have hholding : Holding k n (message u) map source := by
    refine h.holds.imp_right ?_
    rintro ⟨v, c', n', hv, hn', hvalid', hmap⟩
    have hvu : v = u := by
      by_contra hne
      refine hexclusive v hne ⟨c', hv, fun hone => hn' ?_⟩
      exact (Reassemble.num_eq_one_iff hvalid').mp hone
    subst hvu
    cases Option.some.inj (hu.symm.trans hv)
    rw [hvalid.unique hvalid']
    exact ⟨hn', hmap⟩
  obtain ⟨map', up, hstep, hup, hafter⟩ := recv_arrival hvalid hd hk hholding ha
  have hloop := hvalid.inLoop_eq hd
  have hle := hvalid.le
  refine ⟨map', up, hstep, fun m hm d hdata => (hup m hm d hdata) ▸ hmem, h.sizes,
    fun v c' hc' => ?_, fun v c' hc' => ?_, ?_⟩
  · dsimp only at hc'
    rcases eq_or_ne v u with rfl | hne
    · exact hmem
    · rw [Function.update_of_ne hne] at hc'
      exact h.sent v c' hc'
  · dsimp only at hc'
    rcases eq_or_ne v u with rfl | hne
    · rw [Function.update_self, hloop] at hc'
      split_ifs at hc' with hlast
      cases hc'
      exact ⟨n + 1, hvalid.next hd (by omega)⟩
    · rw [Function.update_of_ne hne] at hc'
      exact h.threads v c' hc'
  · refine hafter.imp_right ?_
    rintro ⟨hlast, hmap⟩
    refine ⟨u, _, n + 1, ?_, n.succ_ne_zero, hvalid.next hd (by omega), hmap⟩
    exact (Function.update_self ..).trans (hloop.trans (if_neg hlast))

/-- What a thread does that enters its loop. -/
theorem Senders.step_send {u : ι} {o : List Message}
    (h : Senders.step k s (.send u bytes) = some (t, o)) : s.threads u = none ∧ o = [] ∧
      t = { s with
        threads := Function.update s.threads u (Senders.inLoop (.start k bytes))
        sent := bytes :: s.sent } := by
  rw [Senders.step] at h
  rcases hu : s.threads u with _ | c
  · rw [hu] at h
    dsimp only at h
    split_ifs at h
    cases h
    exact ⟨rfl, rfl, rfl⟩
  · rw [hu] at h
    cases h

/-- What a thread does that draws a number. -/
theorem Senders.step_draw {u : ι} {o : List Message}
    (h : Senders.step k s (.draw u) = some (t, o)) : ∃ c m c', s.threads u = some c ∧
      c.iterate k s.sn = some (m, c') ∧ o = [m] ∧
      t = { s with
        sn := s.sn + 1
        threads := Function.update s.threads u (Senders.inLoop c') } := by
  rw [Senders.step] at h
  rcases hu : s.threads u with _ | c
  · rw [hu] at h
    cases h
  · rw [hu] at h
    dsimp only at h
    rcases hiter : c.iterate k s.sn with _ | ⟨m, c'⟩
    · rw [hiter] at h
      cases h
    · rw [hiter] at h
      cases h
      exact ⟨c, m, c', rfl, hiter, rfl, rfl⟩

/-- What has been sent is not forgotten. -/
theorem Senders.sent_of_run {acts : List (SenderAct ι)} {outs : List (List Message)}
    (h : Machine.run (Senders.step k) s acts = some (t, outs)) : s.sent ⊆ t.sent := by
  refine Machine.inv_run (P := fun t => s.sent ⊆ t.sent) (fun u act u' o hu hstep => ?_)
    (List.Subset.refl _) h
  cases act with
  | send v bytes =>
    obtain ⟨-, -, rfl⟩ := Senders.step_send hstep
    exact List.Subset.trans hu (List.subset_cons_self ..)
  | draw v =>
    obtain ⟨c, m, c', -, -, -, rfl⟩ := Senders.step_draw hstep
    exact hu

/-- The serial numbers of the packets are those that have been drawn. -/
theorem Senders.numbered_of_run {acts : List (SenderAct ι)} {outs : List (List Message)}
    (h : Machine.run (Senders.step k) s acts = some (t, outs)) : Numbered s.sn outs.flatten := by
  induction acts generalizing s outs with
  | nil =>
    cases h
    trivial
  | cons act acts ih =>
    obtain ⟨s', o, outs', hstep, hrun, rfl⟩ := Machine.run_cons_eq_some.mp h
    rw [List.flatten_cons]
    cases act with
    | send u bytes =>
      obtain ⟨-, rfl, rfl⟩ := Senders.step_send hstep
      have hrest := ih hrun
      exact hrest
    | draw u =>
      obtain ⟨c, m, c', -, hiter, rfl, rfl⟩ := Senders.step_draw hstep
      rw [Sending.iterate] at hiter
      split_ifs at hiter
      cases hiter
      exact ⟨rfl, ih hrun⟩

/-- **The packets of a run** in which no thread cuts in, from any state of the invariant. -/
theorem Senders.Inv.run (h : s.Inv k message map source) (hk : k < 2 ^ 16)
    {acts : List (SenderAct ι)} {outs : List (List Message)}
    (hrun : Machine.run (Senders.step k) s acts = some (t, outs))
    (hg : Machine.Guarded (Senders.step k) Senders.Exclusive s acts)
    (hsizes : ∀ bytes ∈ t.sent, Fragmented k bytes) {arrived : List Message}
    (ha : List.Forall₂ (Arrives source self) outs.flatten arrived) :
    ∃ map' ups, Machine.run Reassemble.step map arrived = some (map', ups) ∧
      ∀ m ∈ ups.flatten, ∀ d, m.findData = some d → d.buf ∈ t.sent := by
  induction acts generalizing s message map outs arrived with
  | nil =>
    cases hrun
    cases ha
    exact ⟨map, [], rfl, List.forall_mem_nil _⟩
  | cons act acts ih =>
    obtain ⟨s', o, outs', hstep, hrest, rfl⟩ := Machine.run_cons_eq_some.mp hrun
    have hg' := hg.2 s' o hstep
    have hsub := Senders.sent_of_run hrest
    cases act with
    | send u bytes =>
      obtain ⟨hu, rfl, rfl⟩ := Senders.step_send hstep
      have hd := hsizes bytes (hsub (List.mem_cons_self ..))
      exact ih (h.send hu hd) hrest hg' ha
    | draw u =>
      obtain ⟨c, m, c', hu, hiter, rfl, rfl⟩ := Senders.step_draw hstep
      obtain ⟨n, hvalid⟩ := h.threads u c hu
      rw [hvalid.iterate_eq (h.sizes _ (h.sent u c hu))] at hiter
      cases hiter
      rw [List.flatten_cons, List.singleton_append] at ha
      cases ha with
      | @cons _ a _ arrived' hfirst hothers =>
        obtain ⟨map', up, hrecv, hup, hinv⟩ := h.draw hk hu hg.1 hfirst
        obtain ⟨map'', ups, hups, hdata⟩ := ih hinv hrest hg' hothers
        refine ⟨map'', up :: ups, Machine.run_cons_eq_some.mpr ⟨map', up, ups, hrecv, hups, rfl⟩,
          fun m hm d hd => ?_⟩
        rw [List.flatten_cons, List.mem_append] at hm
        rcases hm with hm | hm
        · exact hsub (hup m hm d hd)
        · exact hdata m hm d hd

/-- **Whatever is lost**, in every run in which no thread cuts in: the packets have their serial
numbers in order, the receiver has an answer to all that arrives, and it hands up nothing but
messages that were sent. -/
theorem whole_of_run {maxPacketSize : U16} (hp : maxServiceSize < maxPacketSize.toNat) {sn : U64}
    {acts : List (SenderAct ι)} {outs : List (List Message)}
    (hrun : Machine.run (Senders.step (maxPayloadSize maxPacketSize)) (Senders.init sn) acts =
      some (t, outs))
    (hsizes : ∀ bytes ∈ t.sent, Fragmented (maxPayloadSize maxPacketSize) bytes)
    (hg : Machine.Guarded (Senders.step (maxPayloadSize maxPacketSize)) Senders.Exclusive
      (Senders.init sn) acts) :
    Numbered sn outs.flatten ∧ Whole t.sent outs.flatten := by
  have hk : maxPayloadSize maxPacketSize < 2 ^ 16 := by
    have hlt := maxPacketSize.isLt
    rw [maxPayloadSize_eq hp]
    omega
  refine ⟨Senders.numbered_of_run hrun, fun map source self arrived hmap ha => ?_⟩
  have hinv : Senders.Inv (maxPayloadSize maxPacketSize) (Senders.init sn : Senders ι)
      (fun _ => []) map source :=
    ⟨List.forall_mem_nil _, (fun _ _ hc => nomatch hc), (fun _ _ hc => nomatch hc), Or.inl hmap⟩
  exact hinv.run hk hrun hg hsizes ha

end

/-! ### Two threads -/

/-- Two threads enter their loops with three bytes each, for packets of two. -/
def twoSends : List (SenderAct Bool) := [.send false [1, 2, 3], .send true [4, 5, 6]]

theorem fragmented_of_twoSends : ∀ bytes ∈ ([[4, 5, 6], [1, 2, 3]] : List (List UInt8)),
    Fragmented 2 bytes := by
  intro bytes hbytes
  have hlen : bytes.length = 3 := by
    rcases List.mem_cons.mp hbytes with rfl | hbytes
    · rfl
    · rw [List.mem_singleton.mp hbytes]
      rfl
  refine ⟨by decide, ?_, ?_, ?_⟩
  · rw [hlen]
    decide
  · rw [hlen]
    decide
  · rw [hlen]
    decide

/-- The packets of one thread after those of the other. -/
theorem whole_of_twoSends : ∃ t outs,
    Machine.run (Senders.step (maxPayloadSize 62)) (Senders.init 1)
      (twoSends ++ [.draw false, .draw false, .draw true, .draw true]) = some (t, outs) ∧
    Numbered 1 outs.flatten ∧ Whole t.sent outs.flatten := by
  have hsent : (Machine.run (Senders.step (maxPayloadSize 62)) (Senders.init 1)
      (twoSends ++ [.draw false, .draw false, .draw true, .draw true])).map (fun r => r.1.sent) =
        some [[4, 5, 6], [1, 2, 3]] := by decide +kernel
  obtain ⟨⟨t, outs⟩, hrun, hsent⟩ := Option.map_eq_some_iff.mp hsent
  refine ⟨t, outs, hrun, whole_of_run (by decide) hrun ?_ (by decide +kernel)⟩
  dsimp only at hsent
  rw [hsent]
  exact fragmented_of_twoSends

/-- **A packet of each thread**: the receiver aborts. -/
theorem not_whole_of_two : ∃ t outs,
    Machine.run (Senders.step (maxPayloadSize 62)) (Senders.init 1)
      (twoSends ++ [.draw false, .draw true]) = some (t, outs) ∧
    (∀ bytes ∈ t.sent, Fragmented (maxPayloadSize 62) bytes) ∧ ¬Whole t.sent outs.flatten := by
  have hsent : (Machine.run (Senders.step (maxPayloadSize 62)) (Senders.init 1)
      (twoSends ++ [.draw false, .draw true])).map (fun r => (r.1.sent,
        (Machine.run Reassemble.step (fun _ => none)
          (r.2.flatten.map (·.linked ⟨1, 1⟩ ⟨2, 2⟩))).isNone)) =
        some ([[4, 5, 6], [1, 2, 3]], true) := by decide +kernel
  obtain ⟨⟨t, outs⟩, hrun, hsent⟩ := Option.map_eq_some_iff.mp hsent
  obtain ⟨hsent, hnone⟩ := Prod.ext_iff.mp hsent
  refine ⟨t, outs, hrun, ?_, fun h => ?_⟩
  · dsimp only at hsent
    rw [hsent]
    exact fragmented_of_twoSends
  · obtain ⟨map', ups, hups, -⟩ := h (fun _ => none) ⟨1, 1⟩ ⟨2, 2⟩ _ rfl
      (List.forall₂_map_right_iff.mpr (List.forall₂_same.mpr fun m _ => Arrives.kept m))
    rw [hups] at hnone
    cases hnone

end AceTao.RMCast
