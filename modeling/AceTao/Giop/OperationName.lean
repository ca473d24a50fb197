import AceTao.Giop.RequestHeader

/-!
# The name of the operation lies in the message

When a request header is accepted, the name that has been recorded is to lie in the message, without
its terminator; a name whose length is zero, or beyond the message, or whose last octet is not zero,
is to be rejected (`NamesRight`).

The parsers check only that the name is in the message. A length of zero becomes `2^32 - 1` when the
terminator is left out, the terminator is never looked at, and for a length of one the name is
measured up to the next zero, wherever it is. So the names are right exactly when the target is read
inside the message, a length of one is followed by a zero, and no header with a length of zero or
without a terminator is acceptable otherwise (`namesRight_iff`).
-/

namespace AceTao.Giop

open Cdr InputCDR Program

variable {α β ε : Type}

/-! ### Programs that stay inside the message -/

/-- The message stays, and `rd_ptr` stays in range. -/
def Stays (s t : InputCDR) : Prop :=
  InBounds s → t.base = s.base ∧ t.data = s.data ∧ InBounds t

instance : Std.Refl Stays := ⟨fun _ h => ⟨rfl, rfl, h⟩⟩

instance : IsTrans InputCDR Stays := by
  refine ⟨fun s t u hst htu hs => ?_⟩
  obtain ⟨hbase, hdata, ht⟩ := hst hs
  obtain ⟨hbase', hdata', hu⟩ := htu ht
  exact ⟨hbase'.trans hbase, hdata'.trans hdata, hu⟩

/-- **A program that stays inside the message**, and has an answer. -/
structure Sound (m : Program InputCDR ε α) : Prop where
  answers : ∀ s, InBounds s → ∃ r t, m s = some (r, t)
  keeps : Keeps Stays m

namespace Sound

variable {m m' : Program InputCDR ε α} {f : α → Program InputCDR ε β}

theorem bind (hm : Sound m) (hf : ∀ a, Sound (f a)) : Sound (m >>= f) where
  answers := by
    intro s hs
    obtain ⟨e | a, t, heq⟩ := hm.answers s hs
    · exact ⟨_, t, bind_of_error heq⟩
    · obtain ⟨r, u, heq'⟩ := (hf a).answers t (hm.keeps s _ t heq hs).2.2
      exact ⟨r, u, (bind_of_ok heq).trans heq'⟩
  keeps := hm.keeps.bind fun a => (hf a).keeps

theorem get : Sound (Program.get : Program InputCDR ε InputCDR) where
  answers := fun s _ => ⟨_, s, rfl⟩
  keeps := Keeps.get

theorem pure (a : α) : Sound (Pure.pure a : Program InputCDR ε α) where
  answers := fun s _ => ⟨_, s, rfl⟩
  keeps := Keeps.pure a

theorem ite {c : Prop} [Decidable c] (hm : c → Sound m) (hm' : ¬c → Sound m') :
    Sound (if c then m else m') := by
  split_ifs with hc
  · exact hm hc
  · exact hm' hc

/-- It ends with a value, if it does not throw. -/
theorem exists_ok {m : HeaderReader α} (hm : Sound m) {s : InputCDR} (hs : InBounds s) :
    ∃ a t, m s = some (.ok a, t) ∧ t.base = s.base ∧ t.data = s.data ∧ InBounds t := by
  obtain ⟨e | a, t, heq⟩ := hm.answers s hs
  · cases e
  · exact ⟨a, t, heq, hm.keeps s _ t heq hs⟩

end Sound

theorem keeps_attempt {ε' : Type} {m : Program InputCDR ε' α} (hm : Keeps Stays m) :
    Keeps Stays (attempt m : Program InputCDR ε (Option α)) := by
  intro s r t heq
  rw [Program.attempt] at heq
  obtain ⟨⟨r', t'⟩, heq', hrt⟩ := Option.map_eq_some_iff.mp heq
  cases hrt
  exact hm s r' t' heq'

theorem Sound.attempt {ε' : Type} {m : Program InputCDR ε' α} (hm : Sound m) :
    Sound (attempt m : Program InputCDR ε (Option α)) where
  answers := by
    intro s hs
    obtain ⟨r, t, heq⟩ := hm.answers s hs
    exact ⟨_, t, by rw [Program.attempt, heq]; rfl⟩
  keeps := keeps_attempt hm.keeps

theorem keeps_andRead {m : Reader α} (hm : Keeps Stays m) (b : Bool) (x : α) :
    Keeps Stays (andRead b m x : Program InputCDR ε (Bool × α)) := by
  refine Keeps.ite (fun _ => (keeps_attempt hm).bind fun y => ?_) fun _ => Keeps.pure _
  rcases y with _ | y
  · exact Keeps.pure _
  · exact Keeps.pure _

theorem Sound.andRead {m : Reader α} (hm : Sound m) (b : Bool) (x : α) :
    Sound (andRead b m x : Program InputCDR ε (Bool × α)) := by
  refine Sound.ite (fun _ => hm.attempt.bind fun y => ?_) fun _ => Sound.pure _
  rcases y with _ | y
  · exact Sound.pure _
  · exact Sound.pure _

theorem sound_of_readsSafely {m : Reader α} (h : ReadsSafely m) : Sound m where
  answers := by
    intro s hs
    obtain ⟨r, t, heq, -⟩ := h s hs
    exact ⟨r, t, heq⟩
  keeps := by
    intro s r t heq hs
    obtain ⟨r', t', heq', hbase, hdata, hge, hle, -⟩ := h s hs
    cases heq.symm.trans heq'
    refine ⟨hbase, hdata, hbase ▸ hs.ge.trans hge, ?_⟩
    rw [wrPtr, hbase, hdata]
    exact hle

theorem sound_readUlong : Sound readUlong := sound_of_readsSafely fun _ h =>
  (safeAt_readWord h isAlign_four (by decide)).mono fun _ _ => trivial

theorem sound_readShort : Sound readShort := sound_of_readsSafely fun _ h =>
  (safeAt_readWord h isAlign_two (by decide)).mono fun _ _ => trivial

theorem sound_readOctet : Sound readOctet := sound_of_readsSafely fun _ h =>
  (safeAt_read1 h).mono fun _ _ => trivial

theorem sound_adjust : Sound (adjust 0 8) := by
  refine sound_of_readsSafely fun s h => ?_
  have heq := adjust_eq h isAlign_eight (Nat.zero_le (2 ^ 62))
  have hge : s.rdPtr ≤ s.valueEnd 0 8 := rdPtr_le_valueEnd isAlign_eight
  split_ifs at heq with hend
  · have hrd := setRdPtr_rdPtr_of_le hend
    exact safeAt_of_eq heq nofun rfl rfl (by omega) (by omega)
  · exact ⟨_, _, heq, rfl, rfl, le_rfl, h.le, fun _ => trivial⟩

theorem sound_skipBytes {n : ℕ} (hn : n < 2 ^ 33) : Sound (skipBytes n) := by
  refine sound_of_readsSafely fun s h => ?_
  have hle := h.le
  have hwr := s.wrPtr_le
  exact (safeAt_skipBytes h (by omega)).mono fun _ _ => trivial

theorem keeps_skipLong (length : ULong) : Keeps Stays (skipLong length) := by
  intro s r t heq hs
  rw [skipLong, skipBytes] at heq
  rcases bind_eq_some.mp heq with ⟨e, -, hfail⟩ | ⟨_, u, hskip, hcheck⟩
  · rw [get_bind_apply, ite_run] at hfail
    split_ifs at hfail
    · cases hfail
    · cases hfail
      exact ⟨rfl, rfl, hs.setGoodBit false⟩
  · rw [get_bind_apply, ite_run] at hskip
    split_ifs at hskip with hle
    · cases hskip
      rw [get_bind_apply, ite_run] at hcheck
      split_ifs at hcheck with hbase
      · cases hcheck
        exact ⟨rfl, rfl, hbase, hle⟩
      · cases hcheck
    · cases hskip

/-! ### The parts of the parsers -/

/-- **The generated operators** stay inside the message. -/
structure Generated.Safe (g : Generated) : Prop where
  serviceContextList : ReadsSafely g.serviceContextList
  octetSeq : ReadsSafely g.octetSeq
  taggedProfile : ReadsSafely g.taggedProfile
  taggedProfileSeq : ReadsSafely g.taggedProfileSeq

variable {g : Generated} {p : Parser} {h : RequestHeader} {length : ULong}

theorem keeps_unmarshallObjectKeyI : Keeps Stays unmarshallObjectKeyI :=
  Keeps.get.bind fun _ => Keeps.ite
    (fun _ => sound_readUlong.keeps.bind fun _ =>
      (keeps_attempt (keeps_skipLong _)).bind fun _ => Keeps.pure _)
    fun _ => Keeps.throw _

namespace Generated.Safe

variable (hg : g.Safe)

include hg

theorem keeps_target (p : Parser) : Keeps Stays (target g p) := by
  have hprofile : Keeps Stays (unmarshallIopProfileI g) :=
    Keeps.get.bind fun _ => (sound_of_readsSafely hg.taggedProfile).keeps.bind fun _ =>
      Keeps.ite (fun _ => Keeps.pure _) fun _ => Keeps.throw _
  have hprofiles := (sound_of_readsSafely hg.taggedProfileSeq).keeps
  have hulong := sound_readUlong.keeps
  have hrefAddr : Keeps Stays (unmarshallRefAddrI g) :=
    Keeps.get.bind fun _ => (keeps_andRead hulong _ _).bind fun _ =>
      (keeps_andRead hulong _ _).bind fun _ => Keeps.ite
        (fun _ => (keeps_attempt (keeps_skipLong _)).bind fun _ => hprofiles.bind fun _ =>
          Keeps.ite (fun _ => Keeps.pure _) fun _ => Keeps.undefined)
        fun _ => hprofiles.bind fun _ => Keeps.throw _
  cases p with
  | parser10 => exact keeps_unmarshallObjectKeyI
  | parser12 =>
    refine sound_readShort.keeps.bind fun discriminator => ?_
    split
    · exact keeps_unmarshallObjectKeyI
    · exact hprofile
    · exact hrefAddr
    · exact Keeps.throw _

theorem sound_beforeTarget (p : Parser) : Sound (beforeTarget g p) := by
  cases p with
  | parser10 =>
    refine (sound_of_readsSafely hg.serviceContextList).attempt.bind fun r => ?_
    rcases r with _ | r
    · exact Sound.pure _
    · exact Sound.get.bind fun _ => (sound_readUlong.andRead _ _).bind fun _ =>
        (sound_readOctet.andRead _ _).bind fun _ => Sound.pure _
  | parser12 =>
    exact Sound.get.bind fun _ => (sound_readUlong.andRead _ _).bind fun _ =>
      (sound_readOctet.andRead _ _).bind fun _ =>
        (sound_skipBytes (by decide)).attempt.bind fun _ => Sound.pure _

theorem sound_behindOperation (p : Parser) (hdrStatus : Bool) :
    Sound (behindOperation g p hdrStatus) := by
  cases p with
  | parser10 =>
    exact Sound.ite (fun _ => (sound_of_readsSafely hg.octetSeq).attempt.bind fun _ =>
      Sound.get.bind fun _ => Sound.pure _) fun _ => Sound.pure _
  | parser12 =>
    refine (sound_of_readsSafely hg.serviceContextList).attempt.bind fun r => ?_
    rcases r with _ | r
    · exact Sound.pure _
    · exact Sound.get.bind fun _ => Sound.ite
        (fun _ => sound_adjust.attempt.bind fun _ => Sound.pure _) fun _ => Sound.pure _

end Generated.Safe

/-! ### The names that are right -/

variable (g p)

/-- **The length of a name is read**; `u` is the stream behind it. -/
def OperationAt (s : InputCDR) (length : ULong) (u : InputCDR) : Prop :=
  ∃ header v, beforeOperation g p s = some (.ok (true, header), v) ∧
    readUlong v = some (.ok length, u)

/-- The octets from `rd_ptr` on. -/
def remaining (u : InputCDR) : List UInt8 := u.data.drop (u.rdPtr - u.base)

/-- The last octet of a name is zero. -/
def EndsInNul (u : InputCDR) (length : ULong) : Prop :=
  (remaining u)[length.toNat - 1]? = some 0

/-- **The name of the operation is right**: in a header that is accepted it lies in the message, and
its length is the encoded one without the terminator; a length of zero, or beyond the message, or a
name without a terminator, is rejected. -/
def NamesRight (s : InputCDR) : Prop :=
  ∃ status header t, parseRequestHeader g p s = some (.ok (status, header), t) ∧
    (status = true → ∃ length u, OperationAt g p s length u ∧ ∃ ptr len,
      header.operation = some (ptr, len) ∧ s.base ≤ ptr ∧ ptr + len ≤ s.wrPtr ∧
        len + 1 = length.toNat) ∧
    ∀ length u, OperationAt g p s length u →
      length = 0 ∨ (remaining u).length < length.toNat ∨ ¬EndsInNul u length → status = false

/-- **The target is read** inside the message. -/
def TargetInside (s : InputCDR) : Prop :=
  ∀ header u, beforeTarget g p s = some (.ok (true, header), u) → (target g p u).isSome

/-- **What follows the name is read.** -/
def BehindReads (u : InputCDR) (length : ULong) : Prop :=
  ∃ t, behindOperation g p true (u.setRdPtr (u.rdPtr + length.toNat)) = some (.ok true, t)

variable {g p}

/-! ### Reading the name -/

theorem andRead_of_ok {m : Reader α} {y : α} (h : m s = some (.ok y, t)) (x : α) :
    (andRead true m x : Program InputCDR ε (Bool × α)) s = some (.ok (true, y), t) := by
  have hm : (attempt m : Program InputCDR ε (Option α)) s = some (.ok (some y), t) :=
    attempt_of_ok h
  exact bind_of_ok hm

theorem andRead_of_error {m : Reader α} {e : Failure} (h : m s = some (.error e, t)) (x : α) :
    (andRead true m x : Program InputCDR ε (Bool × α)) s = some (.ok (false, x), t) := by
  have hm : (attempt m : Program InputCDR ε (Option α)) s = some (.ok none, t) := by
    rw [Program.attempt, h]
    rfl
  exact bind_of_ok hm

theorem length_remaining {u : InputCDR} (hu : InBounds u) :
    (remaining u).length = u.wrPtr - u.rdPtr := by
  have hge := hu.ge
  rw [remaining, List.length_drop, wrPtr]
  omega

theorem skipBytes_eq {u : InputCDR} (hu : InBounds u) (length : ULong) :
    skipBytes length.toNat u = if length.toNat ≤ (remaining u).length
      then some (.ok (), u.setRdPtr (u.rdPtr + length.toNat))
      else some (.error .bounds, u.setGoodBit false) := by
  have hle := hu.le
  have hwr := u.wrPtr_le
  have hlt := length.isLt
  have hcond : (u.rdPtr + length.toNat) % 2 ^ 64 ≤ u.wrPtr ↔
      length.toNat ≤ (remaining u).length := by
    rw [length_remaining hu]
    omega
  rw [skipBytes, get_bind_apply, ite_run]
  by_cases h : length.toNat ≤ (remaining u).length
  · rw [if_pos h, if_pos (hcond.mpr h)]
    rfl
  · rw [if_neg h, if_neg (hcond.not.mpr h)]
    rfl

/-- **What is recorded** when the name is longer than its terminator. -/
theorem recordName_eq {u : InputCDR} (hu : InBounds u) (header : RequestHeader)
    (hlength : length ≠ 1) :
    recordName header length u = some (.ok (length.toNat ≤ (remaining u).length,
        { header with operation := some (u.rdPtr, (length - 1).toNat) }),
      if length.toNat ≤ (remaining u).length then u.setRdPtr (u.rdPtr + length.toNat)
      else u.setGoodBit false) := by
  have hne : length - 1 ≠ 0 := by bv_omega
  have hset : setOperation (length - 1) u = some (.ok (u.rdPtr, (length - 1).toNat), u) := by
    rw [setOperation, get_bind_apply, if_neg hne]
    rfl
  rw [recordName, bind_of_ok hset, bind_apply, Program.attempt, skipBytes_eq hu]
  by_cases h : length.toNat ≤ (remaining u).length
  · simp only [h, decide_true]
    rfl
  · simp only [h, decide_false]
    rfl

theorem strlenAt_eq (u : InputCDR) : strlenAt u = if 0 ∈ remaining u
    then some (.ok ((remaining u).takeWhile (· ≠ 0)).length, u) else none := by
  rw [strlenAt, get_bind_apply, ite_run]
  rfl

/-- **What is recorded** for a terminator: what there is up to the next zero. -/
theorem recordName_one {u : InputCDR} (hu : InBounds u) (header : RequestHeader) :
    recordName header 1 u =
      if 0 ∈ remaining u then some (.ok (true,
          { header with
            operation := some (u.rdPtr, ((remaining u).takeWhile (· ≠ 0)).length) }),
        u.setRdPtr (u.rdPtr + 1))
      else none := by
  have hset : setOperation 0 u = if 0 ∈ remaining u
      then some (.ok (u.rdPtr, ((remaining u).takeWhile (· ≠ 0)).length), u) else none := by
    rw [setOperation, get_bind_apply, if_pos rfl, bind_apply, strlenAt_eq]
    by_cases h : 0 ∈ remaining u
    · rw [if_pos h, if_pos h]
      rfl
    · rw [if_neg h, if_neg h]
  rw [recordName, show (1 - 1 : ULong) = 0 from rfl]
  by_cases h : 0 ∈ remaining u
  · rw [if_pos h] at hset ⊢
    have hle : (1 : ULong).toNat ≤ (remaining u).length := List.length_pos_of_mem h
    rw [bind_of_ok hset, bind_apply, Program.attempt, skipBytes_eq hu, if_pos hle]
    rfl
  · rw [if_neg h] at hset ⊢
    exact bind_of_none hset

/-! ### The end of the parsers -/

/-- A header that has been rejected stays so. -/
theorem behindOperation_false {b : Bool} {v : InputCDR}
    (heq : behindOperation g p false v = some (.ok b, t)) : b = false := by
  cases p with
  | parser10 =>
    cases heq
    rfl
  | parser12 =>
    obtain ⟨r, u, -, hrest⟩ := bind_eq_ok.mp heq
    rcases r with _ | r
    · cases hrest
      rfl
    · have hend : (if u.length > 0 then do
          let _ ← attempt (adjust 0 8)
          pure false
        else pure false : HeaderReader Bool) u = some (.ok b, t) := hrest
      clear hrest
      rename' hend => hrest
      rw [ite_run] at hrest
      split_ifs at hrest
      · obtain ⟨_, _, -, hpure⟩ := bind_eq_ok.mp hrest
        cases hpure
        rfl
      · cases hrest
        rfl

variable (g p) in
/-- The parser, when the name has been read. -/
def parseEnd (x : Bool × RequestHeader) : HeaderReader (Bool × RequestHeader) := do
  let hdrStatus ← behindOperation g p x.1
  pure (hdrStatus, x.2)

theorem parseRequestHeader_of_before {x : Bool × RequestHeader} {v : InputCDR}
    (h : beforeOperation g p s = some (.ok x, v)) :
    parseRequestHeader g p s = (readOperation x.1 x.2 >>= parseEnd g p) v := bind_of_ok h

/-- The parser, from the length of the name on. -/
theorem OperationAt.parseRequestHeader_eq {u : InputCDR} (h : OperationAt g p s length u) :
    ∃ header, parseRequestHeader g p s = (recordName header length >>= parseEnd g p) u := by
  obtain ⟨header, v, hbefore, hread⟩ := h
  have hname : readOperation true header v = recordName header length u :=
    bind_of_ok (andRead_of_ok hread 0)
  refine ⟨header, (parseRequestHeader_of_before hbefore).trans ?_⟩
  rw [bind_apply, bind_apply, hname]

theorem Generated.Safe.rejected_of_before (hg : g.Safe) {header : RequestHeader}
    {hdrStatus : Bool} {v w : InputCDR}
    (hbefore : beforeOperation g p s = some (.ok (hdrStatus, header), v))
    (hname : readOperation hdrStatus header v = some (.ok (false, header), w)) (hw : InBounds w) :
    ∃ header t, parseRequestHeader g p s = some (.ok (false, header), t) := by
  obtain ⟨b, t, hbehind, -⟩ := (hg.sound_behindOperation p false).exists_ok hw
  cases behindOperation_false hbehind
  refine ⟨header, t, (parseRequestHeader_of_before hbefore).trans ((bind_of_ok hname).trans ?_)⟩
  exact bind_of_ok hbehind

/-- **Without a name** the header is rejected. -/
theorem Generated.Safe.rejected (hg : g.Safe) (hs : InBounds s) (htarget : TargetInside g p s)
    (hnone : ∀ length u, ¬OperationAt g p s length u) :
    ∃ header t, parseRequestHeader g p s = some (.ok (false, header), t) := by
  obtain ⟨⟨hdrStatus, header⟩, u, hbeforeTarget, -, -, hu⟩ :=
    (hg.sound_beforeTarget p).exists_ok hs
  cases hdrStatus with
  | false =>
    have hbefore : beforeOperation g p s = some (.ok (false, header), u) :=
      bind_of_ok hbeforeTarget
    exact hg.rejected_of_before hbefore rfl hu
  | true =>
    obtain ⟨⟨r, v⟩, hread⟩ := Option.isSome_iff_exists.mp (htarget header u hbeforeTarget)
    have hv : InBounds v := (hg.keeps_target p u r v hread hu).2.2
    rcases r with e | _
    · have hbefore : beforeOperation g p s = some (.ok (false, header), v) :=
        (bind_of_ok hbeforeTarget).trans (bind_of_ok (andRead_of_error hread ()))
      exact hg.rejected_of_before hbefore rfl hv
    · have hbefore : beforeOperation g p s = some (.ok (true, header), v) :=
        (bind_of_ok hbeforeTarget).trans (bind_of_ok (andRead_of_ok hread ()))
      obtain ⟨e | length, w, hlength⟩ := sound_readUlong.answers v hv
      · have hname : readOperation true header v = some (.ok (false, header), w) :=
          bind_of_ok (andRead_of_error hlength 0)
        exact hg.rejected_of_before hbefore hname (sound_readUlong.keeps v _ w hlength hv).2.2
      · exact absurd ⟨header, v, hbefore, hlength⟩ (hnone length w)

theorem OperationAt.unique {length' : ULong} {u u' : InputCDR} (h : OperationAt g p s length u)
    (h' : OperationAt g p s length' u') : length = length' ∧ u = u' := by
  obtain ⟨header, v, hbefore, hread⟩ := h
  obtain ⟨header', v', hbefore', hread'⟩ := h'
  cases hbefore.symm.trans hbefore'
  cases hread.symm.trans hread'
  exact ⟨rfl, rfl⟩

/-- What stands before the name leaves `rd_ptr` in the message. -/
theorem Generated.Safe.inBounds (hg : g.Safe) (hs : InBounds s) {u : InputCDR}
    (h : OperationAt g p s length u) : u.base = s.base ∧ u.data = s.data ∧ InBounds u := by
  obtain ⟨header, v, hbefore, hread⟩ := h
  have hkeeps : Keeps Stays (beforeOperation g p) :=
    (hg.sound_beforeTarget p).keeps.bind fun _ =>
      (keeps_andRead (hg.keeps_target p) _ _).bind fun _ => Keeps.pure _
  exact IsTrans.trans _ _ _ (hkeeps s _ v hbefore) (sound_readUlong.keeps v _ u hread) hs

/-- An answer needs the target to be read. -/
theorem targetInside_of_answer {r : Except Empty (Bool × RequestHeader)}
    (h : parseRequestHeader g p s = some (r, t)) : TargetInside g p s := by
  intro header u hbeforeTarget
  by_contra hnone
  have hread : target g p u = none := Option.not_isSome_iff_eq_none.mp hnone
  have hand : (andRead true (target g p) () : HeaderReader (Bool × Unit)) u = none := by
    refine bind_of_none ?_
    rw [Program.attempt, hread]
    rfl
  have hbefore : beforeOperation g p s = none :=
    (bind_of_ok hbeforeTarget).trans (bind_of_none hand)
  rw [parseRequestHeader, bind_of_none hbefore] at h
  cases h

/-- **A name that is in the message**: whether it is right is seen when what follows it is read. -/
theorem Generated.Safe.namesRight_of_recorded (hg : g.Safe) (hs : InBounds s) {u : InputCDR}
    (hop : OperationAt g p s length u) {n : ℕ} (hle : length.toNat ≤ (remaining u).length)
    (hrecord : ∀ header, recordName header length u = some
      (.ok (true, { header with operation := some (u.rdPtr, n) }),
        u.setRdPtr (u.rdPtr + length.toNat))) :
    NamesRight g p s ↔
      (BehindReads g p u length → n + 1 = length.toNat ∧ EndsInNul u length) := by
  obtain ⟨hbase, hdata, hu⟩ := hg.inBounds hs hop
  obtain ⟨header, heq⟩ := hop.parseRequestHeader_eq
  have hlen := length_remaining hu
  have hrd := hu.le
  have hv : InBounds (u.setRdPtr (u.rdPtr + length.toNat)) :=
    hu.setRdPtr (Nat.le_add_right _ _) (by omega)
  obtain ⟨status, t, hbehind, -⟩ := (hg.sound_behindOperation p true).exists_ok hv
  have hreads : BehindReads g p u length ↔ status = true := by
    constructor
    · rintro ⟨t', ht'⟩
      cases hbehind.symm.trans ht'
      rfl
    · rintro rfl
      exact ⟨t, hbehind⟩
  have hparse : parseRequestHeader g p s =
      some (.ok (status, { header with operation := some (u.rdPtr, n) }), t) :=
    heq.trans ((bind_of_ok (hrecord header)).trans (bind_of_ok hbehind))
  have hwr : u.wrPtr = s.wrPtr := by rw [wrPtr, wrPtr, hbase, hdata]
  rw [hreads]
  constructor
  · rintro ⟨status', header', t', hparse', hright, hbad⟩ rfl
    cases hparse.symm.trans hparse'
    obtain ⟨length', u', hop', ptr, len, hoperation, -, -, hsum⟩ := hright rfl
    obtain ⟨rfl, rfl⟩ := hop.unique hop'
    cases hoperation
    refine ⟨hsum, ?_⟩
    by_contra hnul
    cases hbad _ _ hop (.inr (.inr hnul))
  · intro h
    refine ⟨status, _, t, hparse, fun hstatus => ?_, fun length' u' hop' hbad => ?_⟩
    · refine ⟨length, u, hop, u.rdPtr, n, rfl, hbase ▸ hu.ge, ?_, (h hstatus).1⟩
      have hsum := (h hstatus).1
      omega
    · obtain ⟨rfl, rfl⟩ := hop.unique hop'
      by_contra hstatus
      obtain ⟨hsum, hnul⟩ := h (Bool.not_eq_false _ ▸ hstatus)
      rcases hbad with rfl | hlt | hnot
      · exact absurd hsum (Nat.succ_ne_zero n)
      · omega
      · exact hnot hnul

/-- A name beyond the message is rejected. -/
theorem Generated.Safe.namesRight_of_beyond (hg : g.Safe) (hs : InBounds s) {u : InputCDR}
    (hop : OperationAt g p s length u) (hone : length ≠ 1)
    (hlt : ¬length.toNat ≤ (remaining u).length) : NamesRight g p s := by
  obtain ⟨-, -, hu⟩ := hg.inBounds hs hop
  obtain ⟨header, heq⟩ := hop.parseRequestHeader_eq
  have hrecord := recordName_eq hu header hone
  rw [if_neg hlt, decide_eq_false hlt] at hrecord
  obtain ⟨status, t, hbehind, -⟩ :=
    (hg.sound_behindOperation p false).exists_ok (hu.setGoodBit false)
  cases behindOperation_false hbehind
  exact ⟨false, _, t, heq.trans ((bind_of_ok hrecord).trans (bind_of_ok hbehind)), nofun,
    fun _ _ _ _ => rfl⟩

/-- **The names that are right.** -/
theorem namesRight_iff (hg : g.Safe) (p : Parser) (hs : InBounds s) :
    NamesRight g p s ↔ TargetInside g p s ∧ ∀ length u, OperationAt g p s length u →
      (length = 1 → 0 ∈ remaining u) ∧
      (length = 0 ∨ length.toNat ≤ (remaining u).length ∧ ¬EndsInNul u length →
        ¬BehindReads g p u length) := by
  by_cases htarget : TargetInside g p s
  swap
  · refine iff_of_false ?_ fun h => htarget h.1
    rintro ⟨status, header, t, heq, -⟩
    exact htarget (targetInside_of_answer heq)
  rw [and_iff_right htarget]
  by_cases hname : ∃ length u, OperationAt g p s length u
  swap
  · have hnone : ∀ length u, ¬OperationAt g p s length u := fun length u h => hname ⟨length, u, h⟩
    obtain ⟨header, t, heq⟩ := hg.rejected hs htarget hnone
    exact iff_of_true ⟨false, header, t, heq, nofun, fun _ _ _ _ => rfl⟩
      fun length u h => absurd h (hnone length u)
  obtain ⟨length, u, hop⟩ := hname
  obtain ⟨-, -, hu⟩ := hg.inBounds hs hop
  have hall : (∀ length' u', OperationAt g p s length' u' →
      (length' = 1 → 0 ∈ remaining u') ∧
      (length' = 0 ∨ length'.toNat ≤ (remaining u').length ∧ ¬EndsInNul u' length' →
        ¬BehindReads g p u' length')) ↔
      (length = 1 → 0 ∈ remaining u) ∧
      (length = 0 ∨ length.toNat ≤ (remaining u).length ∧ ¬EndsInNul u length →
        ¬BehindReads g p u length) := by
    refine ⟨fun h => h length u hop, fun h length' u' hop' => ?_⟩
    obtain ⟨rfl, rfl⟩ := hop.unique hop'
    exact h
  rw [hall]
  by_cases hone : length = 1
  · subst hone
    by_cases hmem : 0 ∈ remaining u
    · -- the name is measured up to the next zero
      have hle : (1 : ULong).toNat ≤ (remaining u).length := List.length_pos_of_mem hmem
      have hrecord : ∀ header, recordName header 1 u = _ := fun header =>
        (recordName_one hu header).trans (if_pos hmem)
      rw [hg.namesRight_of_recorded hs hop hle hrecord]
      have hnul : ((remaining u).takeWhile (· ≠ 0)).length + 1 = (1 : ULong).toNat ↔
          EndsInNul u 1 := by
        rw [EndsInNul]
        rcases hrest : remaining u with _ | ⟨octet, rest⟩
        · rw [hrest] at hmem
          cases hmem
        · by_cases hzero : octet = 0
          · simp [hzero]
          · simp [hzero]
      rw [hnul, and_self]
      constructor
      · rintro h
        refine ⟨fun _ => hmem, ?_⟩
        rintro (hzero | ⟨-, hnot⟩) hreads
        · cases hzero
        · exact hnot (h hreads)
      · intro h hreads
        by_contra hnot
        exact h.2 (.inr ⟨hle, hnot⟩) hreads
    · -- `strlen` leaves the message
      refine iff_of_false ?_ fun h => hmem (h.1 rfl)
      rintro ⟨status, header', t, hparse, -⟩
      obtain ⟨header, heq⟩ := hop.parseRequestHeader_eq
      have hrecord := (recordName_one hu header).trans (if_neg hmem)
      rw [heq, bind_of_none hrecord] at hparse
      cases hparse
  by_cases hle : length.toNat ≤ (remaining u).length
  swap
  · refine iff_of_true (hg.namesRight_of_beyond hs hop hone hle) ⟨fun h => absurd h hone, ?_⟩
    rintro (rfl | ⟨h, -⟩)
    · exact absurd (Nat.zero_le _) hle
    · exact absurd h hle
  have hrecord : ∀ header, recordName header length u = some
      (.ok (true, { header with operation := some (u.rdPtr, (length - 1).toNat) }),
        u.setRdPtr (u.rdPtr + length.toNat)) := by
    intro header
    have h := recordName_eq hu header hone
    rwa [if_pos hle, decide_eq_true hle] at h
  rw [hg.namesRight_of_recorded hs hop hle hrecord]
  have hsum : (length - 1).toNat + 1 = length.toNat ↔ length ≠ 0 := by bv_omega
  rw [hsum]
  constructor
  · intro h
    refine ⟨fun h => absurd h hone, ?_⟩
    rintro (hzero | ⟨-, hnot⟩) hreads
    · exact (h hreads).1 hzero
    · exact hnot (h hreads).2
  · intro h hreads
    constructor
    · exact fun hzero => h.2 (.inl hzero) hreads
    · by_contra hnot
      exact h.2 (.inr ⟨hle, hnot⟩) hreads

section Example

/-- Operators that read nothing. -/
def emptyGenerated : Generated := ⟨pure (), pure (), pure (), pure 0⟩

theorem safe_emptyGenerated : emptyGenerated.Safe where
  serviceContextList := fun _ h => safeAt_pure h ()
  octetSeq := fun _ h => safeAt_pure h ()
  taggedProfile := fun _ h => safeAt_pure h ()
  taggedProfileSeq := fun _ h => safeAt_pure h 0

theorem fits_sampleHeader (name : List UInt8) (h : name.length ≤ 64) :
    0 + ([1, 0, 0, 0, 3, 0, 0, 0, 0, 0, 0, 0, 1, 0, 0, 0, 7, 0, 0, 0] ++ name).length ≤
      addressLimit := by
  rw [addressLimit]
  simp only [List.length_append, List.length_cons, List.length_nil]
  omega

/-- A request header of GIOP 1.2: its id, its flags, an object key of one octet, and a name. -/
def sampleHeader (name : List UInt8) (h : name.length ≤ 64) : InputCDR where
  base := 0
  data := [1, 0, 0, 0, 3, 0, 0, 0, 0, 0, 0, 0, 1, 0, 0, 0, 7, 0, 0, 0] ++ name
  rdPtr := 0
  doByteSwap := false
  goodBit := true
  majorVersion := 1
  minorVersion := 2
  fits := fits_sampleHeader name h

/-- A name of one letter, with its terminator. -/
def oneLetter : InputCDR := sampleHeader [2, 0, 0, 0, 97, 0] (by decide)

theorem namesRight_iff_oneLetter :
    NamesRight emptyGenerated .parser12 oneLetter ↔
      TargetInside emptyGenerated .parser12 oneLetter ∧
      ∀ length u, OperationAt emptyGenerated .parser12 oneLetter length u →
        (length = 1 → 0 ∈ remaining u) ∧
        (length = 0 ∨ length.toNat ≤ (remaining u).length ∧ ¬EndsInNul u length →
          ¬BehindReads emptyGenerated .parser12 u length) :=
  namesRight_iff safe_emptyGenerated .parser12 ⟨Nat.zero_le _, Nat.zero_le _⟩

/-- A name whose length is zero. -/
def noName : InputCDR := sampleHeader [0, 0, 0, 0] (by decide)

/-- **A length of zero is accepted**, and becomes `2^32 - 1`. -/
theorem not_namesRight_zero : ¬NamesRight emptyGenerated .parser12 noName := by
  have hparse : parseRequestHeader emptyGenerated .parser12 noName =
      some (.ok (true, ⟨1, true, false, some (24, 2 ^ 32 - 1)⟩), noName.setRdPtr 24) := rfl
  rintro ⟨status, header, t, heq, hright, -⟩
  cases hparse.symm.trans heq
  obtain ⟨length, u, -, ptr, len, hoperation, -, -, hsum⟩ := hright rfl
  cases hoperation
  exact absurd (hsum ▸ length.isLt) (Nat.lt_irrefl _)

end Example

end AceTao.Giop
