import AceTao.Cdr.Input
import AceTao.Cdr.InputSpec

/-!
# A stream reads only its own bytes

Every length in a message comes from bytes that nobody has checked, or from the caller. While
`rd_ptr` is in range, each operation has an answer, so every load it makes is inside the buffer;
`rd_ptr` moves forward only, not beyond `wr_ptr`; and where a test of the bounds fails, `rd_ptr` is
where the value began, or behind its length.

`SafeAt m s E` says all of this about one operation, with `E` the places where `rd_ptr` may be left
when a test of the bounds fails. The result for calls and their sequences is
`InputCDR.reads_in_bounds`. Values that are read one character at a time are left where the test
failed (`StopsAt`).
-/

namespace AceTao.Cdr

open Program ByteImage AlignUp

namespace InputCDR

variable {α β : Type}

/-- **The operation is safe** at `s`. -/
def SafeAt (m : Reader α) (s : InputCDR) (E : ℕ → Prop) : Prop :=
  Ends m (fun r t => t.base = s.base ∧ t.data = s.data ∧ s.rdPtr ≤ t.rdPtr ∧ t.rdPtr ≤ s.wrPtr ∧
    (r = .error .bounds → E t.rdPtr)) s

/-- **The operation is safe**, wherever it begins. -/
def ReadsSafely (m : Reader α) : Prop := ∀ s : InputCDR, InBounds s → SafeAt m s fun _ => True

variable {m : Reader α} {f : α → Reader β} {s t : InputCDR} {E E' : ℕ → Prop} {size align : ℕ}

/-! ### Rules -/

theorem SafeAt.mono (hm : SafeAt m s E) (hE : ∀ p, E p → E' p) : SafeAt m s E' :=
  Ends.mono hm fun _ _ ⟨hbase, hdata, hge, hle, he⟩ =>
    ⟨hbase, hdata, hge, hle, fun hr => hE _ (he hr)⟩

/-- The buffer stays. -/
theorem wrPtr_of_safeAt {r : Except Failure α} (hm : SafeAt m s E) (heq : m s = some (r, t)) :
    t.wrPtr = s.wrPtr := by
  obtain ⟨r', t', heq', hbase, hdata, -⟩ := hm
  cases heq.symm.trans heq'
  rw [wrPtr, wrPtr, hbase, hdata]

/-- An operation that moves `rd_ptr` to a place in range, with any answer but a failed test. -/
theorem safeAt_of_eq {r : Except Failure α} (heq : m s = some (r, t)) (hr : r ≠ .error .bounds)
    (hbase : t.base = s.base) (hdata : t.data = s.data) (hge : s.rdPtr ≤ t.rdPtr)
    (hle : t.rdPtr ≤ s.wrPtr) : SafeAt m s E :=
  ⟨r, t, heq, hbase, hdata, hge, hle, fun hb => absurd hb hr⟩

theorem safeAt_pure (h : InBounds s) (a : α) : SafeAt (pure a) s E :=
  safeAt_of_eq (pure_apply a) nofun rfl rfl le_rfl h.le

theorem safeAt_throw (h : InBounds s) {e : Failure} (he : e ≠ .bounds) :
    SafeAt (throw e : Reader α) s E :=
  safeAt_of_eq (throw_apply e) (fun heq => he (Except.error.inj heq)) rfl rfl le_rfl h.le

theorem safeAt_fail (h : InBounds s) {e : Failure} (he : e = .bounds → E s.rdPtr) :
    SafeAt (fail e : Reader α) s E :=
  ⟨.error e, s.setGoodBit false, rfl, rfl, rfl, le_rfl, h.le, fun heq => he (Except.error.inj heq)⟩

/-- **Sequencing**: the second half is safe wherever the first leaves the stream. -/
theorem SafeAt.bind (h : InBounds s) (hm : SafeAt m s E)
    (hf : ∀ a t, m s = some (.ok a, t) → InBounds t → SafeAt (f a) t E) :
    SafeAt (m >>= f) s E := by
  obtain ⟨r, t, heq, hbase, hdata, hge, hle, he⟩ := hm
  have hwr : t.wrPtr = s.wrPtr := by rw [wrPtr, wrPtr, hbase, hdata]
  rcases r with e | a
  · refine ⟨.error e, t, ?_, hbase, hdata, hge, hle, fun heq => ?_⟩
    · rw [bind_apply, heq]
    · rw [Except.error.inj heq] at he
      exact he rfl
  · have ht : InBounds t := ⟨hbase ▸ h.ge.trans hge, hwr ▸ hle⟩
    obtain ⟨r, u, heq', hbase', hdata', hge', hle', he'⟩ := hf a t heq ht
    exact ⟨r, u, (bind_of_ok heq).trans heq', hbase'.trans hbase, hdata'.trans hdata,
      hge.trans hge', hwr ▸ hle', he'⟩

theorem safeAt_get_bind {f : InputCDR → Reader β} :
    SafeAt (Program.get >>= f) s E ↔ SafeAt (f s) s E := Iff.rfl

theorem safeAt_ite {c : Prop} [Decidable c] {m' : Reader α} (hm : c → SafeAt m s E)
    (hm' : ¬c → SafeAt m' s E) : SafeAt (if c then m else m') s E := by
  split_ifs with hc
  · exact hm hc
  · exact hm' hc

theorem SafeAt.orFail (hm : SafeAt m s E) : SafeAt (orFail m) s E := by
  obtain ⟨r, t, heq, hbase, hdata, hge, hle, he⟩ := hm
  rcases r with e | a
  · exact ⟨.error e, t.setGoodBit false, orFail_of_error heq, hbase, hdata, hge, hle, he⟩
  · exact ⟨.ok a, t, orFail_eq heq, hbase, hdata, hge, hle, he⟩

/-- Leaving out the value. -/
theorem SafeAt.dropValue (h : InBounds s) (hm : SafeAt m s E) : SafeAt (dropValue m) s E :=
  hm.bind h fun _ _ _ ht => safeAt_pure ht _

theorem safeAt_returnGoodBit (h : InBounds s) (x : α) : SafeAt (returnGoodBit x) s E :=
  safeAt_ite (fun _ => safeAt_pure h x) fun _ => safeAt_throw h nofun

/-! ### Words and arrays -/

theorem safeAt_read1 (h : InBounds s) : SafeAt read1 s (· = s.rdPtr) := by
  have heq := read1_eq h
  have hwr := s.wrPtr_le
  split_ifs at heq with hlt
  · have hrd : (s.setRdPtr (s.rdPtr + 1)).rdPtr = s.rdPtr + 1 := setRdPtr_rdPtr_of_le hlt
    exact safeAt_of_eq heq nofun rfl rfl (by omega) (by omega)
  · exact ⟨_, _, heq, rfl, rfl, le_rfl, h.le, fun _ => rfl⟩

/-- Where `read_1` leaves `rd_ptr`. -/
theorem read1_rdPtr {x : Octet} (h : InBounds s) (heq : read1 s = some (.ok x, t)) :
    t.rdPtr = s.rdPtr + 1 := by
  rw [read1_eq h] at heq
  split_ifs at heq with hlt
  · cases heq
    exact setRdPtr_rdPtr_of_le hlt
  · cases heq

theorem safeAt_readWord (h : InBounds s) (ha : IsAlign align) (hsize : size ≤ 2 ^ 62) :
    SafeAt (readWord size align) s (· = s.rdPtr) := by
  have heq := readWord_eq h ha hsize
  split_ifs at heq with hend
  · have hrd := setRdPtr_rdPtr_of_le hend
    have hge : s.rdPtr ≤ s.valueEnd size align := rdPtr_le_valueEnd ha
    exact safeAt_of_eq heq nofun rfl rfl (by omega) (by omega)
  · exact ⟨_, _, heq, rfl, rfl, le_rfl, h.le, fun _ => rfl⟩

/-- Where a word leaves `rd_ptr`. -/
theorem readWord_rdPtr {x : BitVec (8 * size)} (h : InBounds s) (ha : IsAlign align)
    (hsize : size ≤ 2 ^ 62) (heq : readWord size align s = some (.ok x, t)) :
    t.rdPtr = s.valueEnd size align := by
  rw [readWord_eq h ha hsize] at heq
  split_ifs at heq with hend
  · cases heq
    exact setRdPtr_rdPtr_of_le hend
  · cases heq

theorem safeAt_read2 (h : InBounds s) : SafeAt read2 s (· = s.rdPtr) :=
  safeAt_readWord h isAlign_two (by norm_num)

theorem safeAt_read4 (h : InBounds s) : SafeAt read4 s (· = s.rdPtr) :=
  safeAt_readWord h isAlign_four (by norm_num)

/-- **What follows an alignment** finds the bytes it has claimed. -/
theorem safeAt_adjust_bind {f : ℕ → Reader β} (h : InBounds s) (ha : IsAlign align)
    (hsize : size ≤ 2 ^ 62)
    (hf : ∀ t, InBounds t → t.base = s.base → t.wrPtr = s.wrPtr →
      alignUp s.rdPtr align + size ≤ t.wrPtr →
        SafeAt (f (alignUp s.rdPtr align)) t (fun _ => False)) :
    SafeAt (adjust size align >>= f) s (· = s.rdPtr) := by
  have heq := adjust_eq h ha hsize
  split_ifs at heq with hend
  · have hrd := setRdPtr_rdPtr_of_le hend
    have hge : s.rdPtr ≤ s.valueEnd size align := rdPtr_le_valueEnd ha
    refine (safeAt_of_eq heq nofun rfl rfl (by omega) (by omega)).bind h fun a t hat ht => ?_
    cases heq.symm.trans hat
    exact (hf _ ht rfl rfl hend).mono fun _ => False.elim
  · refine SafeAt.bind h ⟨_, _, heq, rfl, rfl, le_rfl, h.le, fun _ => rfl⟩ fun a t hat => ?_
    cases heq.symm.trans hat

theorem safeAt_load {addr n : ℕ} (h : InBounds s) (hge : s.base ≤ addr) (hle : addr + n ≤ s.wrPtr) :
    SafeAt (load addr n) s E :=
  safeAt_of_eq (load_eq hge hle) nofun rfl rfl le_rfl h.le

theorem safeAt_readArray {length : ℕ} (h : InBounds s) (ha : IsAlign align)
    (hsize : size * length ≤ 2 ^ 62) : SafeAt (readArray size align length) s (· = s.rdPtr) := by
  have hmod : size * length % 2 ^ 64 = size * length := Nat.mod_eq_of_lt (by omega)
  refine safeAt_ite (fun _ => safeAt_pure h _) fun _ => ?_
  rw [hmod]
  refine safeAt_adjust_bind h ha hsize fun t ht hbase _ hend => safeAt_get_bind.mpr ?_
  have hge : t.base ≤ alignUp s.rdPtr align := hbase ▸ h.ge.trans (le_alignUp ha.pos _)
  refine (safeAt_load ht hge hend).bind ht fun bytes u _ hu => ?_
  exact safeAt_ite (fun _ => safeAt_returnGoodBit hu _) fun _ =>
    safeAt_ite (fun _ => safeAt_returnGoodBit hu _) fun _ => safeAt_fail hu nofun

/-- The place of `rd_ptr`, as a relation. -/
def SamePlace (s t : InputCDR) : Prop := t.rdPtr = s.rdPtr

instance : Std.Refl SamePlace := ⟨fun _ => rfl⟩

instance : IsTrans InputCDR SamePlace := ⟨fun _ _ _ h h' => Eq.trans h' h⟩

theorem samePlace_fail (e : Failure) : Keeps SamePlace (fail e : Reader α) :=
  (Keeps.modify fun s => (rfl : SamePlace s (s.setGoodBit false))).bind fun _ => Keeps.throw e

theorem samePlace_load (addr n : ℕ) : Keeps SamePlace (load addr n) :=
  Keeps.get.bind fun _ => Keeps.ite (fun _ => Keeps.pure _) fun _ => Keeps.undefined

theorem samePlace_returnGoodBit (x : α) : Keeps SamePlace (returnGoodBit x) :=
  Keeps.get.bind fun _ => Keeps.ite (fun _ => Keeps.pure x) fun _ => Keeps.throw _

/-- Where an array of bytes leaves `rd_ptr`. -/
theorem readArray_rdPtr {length : ℕ} {x : List UInt8} (h : InBounds s) (hlen : length < 2 ^ 32)
    (heq : readArray 1 1 length s = some (.ok x, t)) : t.rdPtr = s.rdPtr + length := by
  have hmod : 1 * length % 2 ^ 64 = length := by omega
  rw [readArray, hmod, ite_run] at heq
  by_cases hzero : length = 0
  · rw [if_pos hzero] at heq
    cases heq
    exact hzero.symm ▸ rfl
  · rw [if_neg hzero] at heq
    have hadjust := adjust_eq h isAlign_one (show length ≤ 2 ^ 62 by omega)
    rcases bind_eq_some.mp heq with ⟨e, he, -⟩ | ⟨buf, u, hu, hrest⟩
    · cases he
    · split_ifs at hadjust with hend
      · cases hadjust.symm.trans hu
        have hrd := setRdPtr_rdPtr_of_le hend
        refine ((?_ : Keeps SamePlace _) _ _ _ hrest).trans (hrd.trans ?_)
        · exact Keeps.get.bind fun _ => (samePlace_load _ _).bind fun _ => Keeps.ite
            (fun _ => samePlace_returnGoodBit _) fun _ => Keeps.ite
            (fun _ => samePlace_returnGoodBit _) fun _ => samePlace_fail _
        · rw [valueEnd, alignUp_one]
      · cases hadjust.symm.trans hu

/-- Where an array of characters leaves `rd_ptr`. -/
theorem readCharArray_rdPtr {n : ℕ} {length : ULong} {x : List Octet} (h : InBounds s)
    (heq : readCharArray (.plain n) length s = some (.ok x, t)) :
    t.rdPtr = s.rdPtr + length.toNat := by
  rw [readCharArray, get_bind_apply, ite_run] at heq
  split_ifs at heq with hlen
  · cases heq
  · rcases bind_eq_some.mp heq with ⟨e, he, -⟩ | ⟨bytes, u, hu, hrest⟩
    · cases he
    · cases hrest
      exact readArray_rdPtr h length.isLt hu

theorem safeAt_readWordArray (h : InBounds s) (ha : IsAlign align) (hsize : size ≤ 16)
    (length : ULong) : SafeAt (readWordArray size align length) s (· = s.rdPtr) := by
  have hmul : size * length.toNat ≤ 16 * 2 ^ 32 := Nat.mul_le_mul hsize length.isLt.le
  refine safeAt_get_bind.mpr (safeAt_ite (fun _ => safeAt_fail h fun _ => rfl) fun _ => ?_)
  exact (safeAt_readArray h ha (by omega)).bind h fun _ _ _ ht => safeAt_pure ht _

/-! ### Booleans -/

theorem safeAt_readBoolean (h : InBounds s) : SafeAt readBoolean s (· = s.rdPtr) := by
  refine (safeAt_read1 h).bind h fun x t _ ht => ?_
  have hset : SafeAt (Program.modify fun s => s.setGoodBit (x &&& ~~~1 == 0)) t (· = s.rdPtr) :=
    safeAt_of_eq (modify_apply _) nofun rfl rfl le_rfl ht.le
  refine hset.bind ht fun _ u _ hu => safeAt_get_bind.mpr ?_
  exact safeAt_ite (fun _ => safeAt_pure hu _) fun _ => safeAt_throw hu nofun

/-- No test fails in the loop over an array of booleans that has passed the first test. -/
theorem safeAt_readBooleans {n : ℕ} (h : InBounds s) (hn : s.rdPtr + n ≤ s.wrPtr) :
    SafeAt (readBooleans n) s (fun _ => False) := by
  induction n generalizing s with
  | zero => exact safeAt_returnGoodBit h _
  | succ n ih =>
    refine safeAt_get_bind.mpr (safeAt_ite (fun _ => ?_) fun _ => safeAt_throw h nofun)
    have hlt : s.rdPtr < s.wrPtr := by omega
    have heq := readBoolean_eq h hlt rfl
    have hrd : (s.setRdPtr (s.rdPtr + 1)).rdPtr = s.rdPtr + 1 := setRdPtr_rdPtr_of_le hlt
    have hsafe : SafeAt readBoolean s (fun _ => False) :=
      safeAt_of_eq heq (by split_ifs <;> exact nofun) rfl rfl
        (by rw [setGoodBit_rdPtr]; omega) (by rw [setGoodBit_rdPtr]; omega)
    refine hsafe.bind h fun x t hat ht => ?_
    obtain rfl := (Prod.mk.inj (Option.some.inj (heq.symm.trans hat))).2
    have hnext : (s.setRdPtr (s.rdPtr + 1)).rdPtr + n ≤ s.wrPtr := by omega
    exact (ih ht hnext).bind ht fun _ _ _ hu => safeAt_pure hu _

theorem safeAt_readBooleanArray (h : InBounds s) (length : ULong) :
    SafeAt (readBooleanArray length) s (· = s.rdPtr) := by
  refine safeAt_get_bind.mpr (safeAt_ite (fun _ => safeAt_fail h fun _ => rfl) fun hlen => ?_)
  rw [length_eq h] at hlen
  have hle := h.le
  exact (safeAt_readBooleans h (by omega)).mono fun _ => False.elim

/-! ### Skipping -/

theorem safeAt_skipBytes {len : ℕ} (h : InBounds s) (hlen : s.rdPtr + len < 2 ^ 64) :
    SafeAt (skipBytes len) s (· = s.rdPtr) := by
  refine safeAt_get_bind.mpr (safeAt_ite (fun hle => ?_) fun _ => safeAt_fail h fun _ => rfl)
  rw [Nat.mod_eq_of_lt hlen] at hle
  have hrd := setRdPtr_rdPtr_of_le hle
  exact safeAt_of_eq (modify_apply _) nofun rfl rfl (by omega) (by omega)

/-- The places where `rd_ptr` may be left by a value that starts with its length. -/
def AfterLength (s : InputCDR) (p : ℕ) : Prop := p = s.rdPtr ∨ p = s.valueEnd 4 4

/-- **What follows a length** may leave `rd_ptr` behind the length. -/
theorem safeAt_readUlong_bind {f : ULong → Reader β} (h : InBounds s)
    (hE : ∀ p, p = s.rdPtr → E p)
    (hf : ∀ len t, InBounds t → t.rdPtr = s.valueEnd 4 4 → t.base = s.base → t.data = s.data →
      t.giop12 = s.giop12 → SafeAt (f len) t E) :
    SafeAt (readUlong >>= f) s E := by
  refine ((safeAt_read4 h).mono hE).bind h fun len t heq ht => ?_
  have hrd := readWord_rdPtr h isAlign_four (by norm_num) heq
  rw [readUlong, read4, readWord_eq h isAlign_four (by norm_num)] at heq
  split_ifs at heq
  · cases heq
    exact hf _ _ ht hrd rfl rfl rfl
  · cases heq

theorem safeAt_skipString (h : InBounds s) : SafeAt skipString s (AfterLength s) := by
  refine safeAt_readUlong_bind h (fun _ => Or.inl) fun len t ht hrd _ _ _ => ?_
  refine safeAt_ite (fun _ => ?_) fun _ => ?_
  · exact (((safeAt_read4 ht).mono fun p hp => Or.inr (hp.trans hrd)).orFail).dropValue ht
  · have hlt := len.isLt
    have hwr := t.wrPtr_le
    have hle := ht.le
    exact (safeAt_skipBytes ht (by omega)).mono fun p hp => Or.inr (hp.trans hrd)

theorem safeAt_skipFixedOctets (n : ℕ) (h : InBounds s) :
    SafeAt (skipFixedOctets n) s (fun _ => True) := by
  induction n generalizing s with
  | zero => exact safeAt_throw h nofun
  | succ n ih =>
    refine ((safeAt_read1 h).mono fun _ _ => trivial).bind h fun _ t _ ht => ?_
    exact safeAt_ite (fun _ => safeAt_pure ht _) fun _ => ih ht

theorem safeAt_readFixedOctets (n : ℕ) (h : InBounds s) :
    SafeAt (readFixedOctets n) s (fun _ => True) := by
  induction n generalizing s with
  | zero => exact safeAt_throw h nofun
  | succ n ih =>
    refine ((safeAt_read1 h).mono fun _ _ => trivial).bind h fun _ t _ ht => ?_
    exact safeAt_ite (fun _ => safeAt_pure ht _) fun _ =>
      (ih ht).bind ht fun _ _ _ hu => safeAt_pure hu _

variable {n : ℕ}

/-- The places where `rd_ptr` may be left by a single wide character. -/
def AfterOctet (s : InputCDR) (p : ℕ) : Prop :=
  p = s.rdPtr ∨ (s.giop12 = true ∧ p = s.rdPtr + 1)

theorem safeAt_skipWchar (h : InBounds s) : SafeAt (skipWchar (.plain n)) s (AfterOctet s) := by
  refine safeAt_get_bind.mpr (safeAt_ite (fun hgiop => ?_) fun _ =>
    safeAt_ite (fun _ => ?_) fun _ => ?_)
  · refine ((safeAt_read1 h).orFail.mono fun _ => Or.inl).bind h fun len t heq ht => ?_
    have hrd := read1_rdPtr h (eq_of_orFail heq)
    have hlt := len.isLt
    have hwr := t.wrPtr_le
    have hle := ht.le
    exact (safeAt_skipBytes ht (by omega)).mono fun p hp => Or.inr ⟨hgiop, hp.trans hrd⟩
  · exact ((safeAt_read2 h).mono fun _ => Or.inl).dropValue h
  · exact ((safeAt_read4 h).mono fun _ => Or.inl).dropValue h

theorem safeAt_skipWchars (k : ℕ) (h : InBounds s) :
    SafeAt (skipWchars (.plain n) k) s (fun _ => True) := by
  induction k generalizing s with
  | zero => exact safeAt_pure h _
  | succ k ih =>
    exact ((safeAt_skipWchar h).mono fun _ _ => trivial).bind h fun _ t _ ht => ih ht

/-- The places where `rd_ptr` may be left by a wide string whose characters may be taken one by
one. -/
def AfterWchars (s : InputCDR) (p : ℕ) : Prop := AfterLength s p ∨ s.giop12 = false

theorem safeAt_skipWstring (h : InBounds s) :
    SafeAt (skipWstring (.plain n)) s (AfterWchars s) := by
  refine safeAt_readUlong_bind h (fun _ hp => Or.inl (Or.inl hp)) fun len t ht hrd _ _ hgiop => ?_
  refine safeAt_ite (fun _ => safeAt_get_bind.mpr ?_) fun _ => safeAt_pure ht _
  refine safeAt_ite (fun _ => ?_) fun hnot => ?_
  · have hlt := len.isLt
    have hwr := t.wrPtr_le
    have hle := ht.le
    exact (safeAt_skipBytes ht (by omega)).mono fun p hp => Or.inl (Or.inr (hp.trans hrd))
  · rw [hgiop, Bool.not_eq_true] at hnot
    exact (safeAt_skipWchars _ ht).mono fun _ _ => Or.inr hnot

/-! ### Characters and strings -/

theorem safeAt_readCharArray (h : InBounds s) (length : ULong) :
    SafeAt (readCharArray (.plain n) length) s (· = s.rdPtr) := by
  have hlt := length.isLt
  refine safeAt_get_bind.mpr (safeAt_ite (fun _ => safeAt_fail h fun _ => rfl) fun _ => ?_)
  exact (safeAt_readArray h isAlign_one (by omega)).bind h fun _ _ _ ht => safeAt_pure ht _

theorem safeAt_readWchar (h : InBounds s) (stale : WChar) :
    SafeAt (readWchar (.plain n) stale) s (AfterOctet s) := by
  have hread1 : SafeAt read1 s (AfterOctet s) := (safeAt_read1 h).mono fun _ => Or.inl
  -- the octet with the number of bytes is read, and then the bytes
  have hbytes {len : Octet} {t : InputCDR} (hgiop : s.giop12 = true) (ht : InBounds t)
      (hrd : t.rdPtr = s.rdPtr + 1) : SafeAt (readArray len.toNat 1 1) t (AfterOctet s) := by
    have hlt := len.isLt
    exact (safeAt_readArray ht isAlign_one (by omega)).mono fun p hp =>
      Or.inr ⟨hgiop, hp.trans hrd⟩
  refine safeAt_get_bind.mpr (safeAt_ite (fun _ => safeAt_fail h nofun) fun _ => ?_)
  refine safeAt_ite (fun _ => safeAt_ite (fun hgiop => ?_) fun _ => ?_) fun _ => safeAt_ite ?_ ?_
  · exact hread1.orFail.bind h fun len t heq ht =>
      (hbytes hgiop ht (read1_rdPtr h (eq_of_orFail heq))).bind ht fun _ _ _ hu => safeAt_pure hu _
  · exact (safeAt_read4 h).mono fun _ => Or.inl
  · refine fun hgiop => (hread1.bind h fun len t heq ht => ?_).orFail
    have hrd := read1_rdPtr h heq
    exact safeAt_ite
      (fun _ => (hbytes hgiop ht hrd).bind ht fun _ _ _ hu => safeAt_pure hu _)
      fun _ => (hbytes hgiop ht hrd).bind ht fun _ _ _ hu => safeAt_pure hu _
  · refine fun _ => safeAt_ite (fun _ => ?_) fun _ => ?_
    · exact (((safeAt_read2 h).mono fun _ => Or.inl).bind h fun _ _ _ ht => safeAt_pure ht _).orFail
    · exact (hread1.bind h fun _ _ _ ht => safeAt_pure ht _).orFail

/-- The characters of an array have at least one byte in the stream. -/
theorem safeAt_readWcharArrayI (hn : 1 ≤ n) (hn' : n ≤ 2 ^ 30) (h : InBounds s)
    (length : ULong) : SafeAt (readWcharArrayI (.plain n) length) s (· = s.rdPtr) := by
  have hmul : n * length.toNat ≤ 2 ^ 30 * 2 ^ 32 := Nat.mul_le_mul hn' length.isLt.le
  have hmod : n * length.toNat % 2 ^ 64 = n * length.toNat := Nat.mod_eq_of_lt (by omega)
  have halign : IsAlign (if n = 2 then 2 else 1) := by
    split_ifs
    · exact isAlign_two
    · exact isAlign_one
  refine safeAt_ite (fun _ => safeAt_pure h _) fun _ => ?_
  simp only [Codeset.plain, hmod]
  refine safeAt_adjust_bind h halign (by omega) fun t ht hbase _ hend => safeAt_get_bind.mpr ?_
  have hge : t.base ≤ alignUp s.rdPtr _ := hbase ▸ h.ge.trans (le_alignUp halign.pos _)
  refine safeAt_ite (fun htwo => ?_) fun _ => ?_
  · exact (safeAt_load ht hge (htwo ▸ hend)).bind ht fun _ _ _ hu => safeAt_returnGoodBit hu _
  · have hle : length.toNat ≤ n * length.toNat := Nat.le_mul_of_pos_left _ hn
    exact (safeAt_load ht hge ((Nat.add_le_add_left hle _).trans hend)).bind ht
      fun _ _ _ hu => safeAt_returnGoodBit hu _

theorem safeAt_readWcharArray (hn : 1 ≤ n) (hn' : n ≤ 2 ^ 30) (h : InBounds s) (length : ULong) :
    SafeAt (readWcharArray (.plain n) length) s (· = s.rdPtr) := by
  have hlt := length.isLt
  refine safeAt_get_bind.mpr (safeAt_ite (fun _ => safeAt_fail h fun _ => rfl) fun _ => ?_)
  refine safeAt_ite (fun _ => safeAt_readWcharArrayI hn hn' h length) fun _ => ?_
  exact (safeAt_readArray h isAlign_four (by omega)).bind h fun _ _ _ ht => safeAt_pure ht _

theorem safeAt_readString (h : InBounds s) : SafeAt (readString (.plain n)) s (AfterLength s) := by
  refine safeAt_readUlong_bind h (fun _ => Or.inl) fun len t ht hrd _ _ _ => ?_
  refine safeAt_get_bind.mpr (safeAt_ite (fun _ => ?_) fun _ => ?_)
  · exact ((safeAt_readCharArray ht len).mono fun p hp => Or.inr (hp.trans hrd)).orFail
  · exact safeAt_ite (fun _ => safeAt_pure ht _) fun _ => safeAt_fail ht fun _ => Or.inr hrd

theorem safeAt_readAceString (h : InBounds s) :
    SafeAt (readAceString (.plain n)) s (AfterLength s) :=
  ((safeAt_readString h).bind h fun _ _ _ ht => safeAt_pure ht _).orFail

/-- The terminator is there when the other characters are. -/
theorem safeAt_readStdString (h : InBounds s) :
    SafeAt (readStdString (.plain n)) s (AfterLength s) := by
  refine safeAt_readUlong_bind h (fun _ => Or.inl) fun len t ht hrd _ _ _ => ?_
  refine safeAt_get_bind.mpr (safeAt_ite (fun hlen => ?_) fun _ => ?_)
  · have hchars := (safeAt_readCharArray (n := n) ht (len - 1)).orFail
    refine (hchars.mono fun p hp => Or.inr (hp.trans hrd)).bind ht fun x u heq hu => ?_
    have hplace := readCharArray_rdPtr ht (eq_of_orFail heq)
    have hwr := wrPtr_of_safeAt hchars heq
    have hone : (len - 1).toNat + 1 = len.toNat := by
      have hlt := len.isLt
      rw [BitVec.toNat_sub]
      simp only [BitVec.toNat_ofNat, BitVec.ofNat_eq_ofNat]
      omega
    rw [length_eq ht] at hlen
    have hlt : u.rdPtr < u.wrPtr := by omega
    have hskip := read1_eq hu
    rw [if_pos hlt] at hskip
    have hrd' : (u.setRdPtr (u.rdPtr + 1)).rdPtr = u.rdPtr + 1 := setRdPtr_rdPtr_of_le hlt
    have hread : SafeAt read1 u (AfterLength s) :=
      safeAt_of_eq hskip nofun rfl rfl (by omega) (by omega)
    exact (hread.dropValue hu).bind hu fun _ _ _ hv => safeAt_pure hv _
  · exact safeAt_fail ht fun _ => Or.inr hrd

theorem safeAt_readWstring (hn : 1 ≤ n) (hn' : n ≤ 2 ^ 30) (h : InBounds s) :
    SafeAt (readWstring (.plain n)) s (AfterLength s) := by
  refine safeAt_ite (fun _ => safeAt_fail h nofun) fun _ => ?_
  refine safeAt_readUlong_bind h (fun _ => Or.inl) fun len t ht hrd _ _ _ => ?_
  have harray (length : ULong) :
      SafeAt (orFail (readWcharArray (.plain n) length)) t (AfterLength s) :=
    ((safeAt_readWcharArray hn hn' ht length).mono fun p hp => Or.inr (hp.trans hrd)).orFail
  refine safeAt_get_bind.mpr (safeAt_ite (fun _ => safeAt_ite (fun _ => ?_) fun _ => ?_)
    fun _ => ?_)
  · exact (harray _).bind ht fun _ _ _ hu => safeAt_pure hu _
  · exact harray len
  · exact safeAt_ite (fun _ => safeAt_pure ht _) fun _ => safeAt_fail ht fun _ => Or.inr hrd

theorem safeAt_readStdWstring (hn : 1 ≤ n) (hn' : n ≤ 2 ^ 30) (h : InBounds s) :
    SafeAt (readStdWstring (.plain n)) s (AfterWchars s) := by
  refine safeAt_ite (fun _ => safeAt_fail h nofun) fun _ => ?_
  refine safeAt_readUlong_bind h (fun _ hp => Or.inl (Or.inl hp)) fun len t ht hrd _ _ hgiop => ?_
  have hbehind : AfterWchars s t.rdPtr := Or.inl (Or.inr hrd)
  have harray (length : ULong) :
      SafeAt (orFail (readWcharArray (.plain n) length)) t (AfterWchars s) :=
    ((safeAt_readWcharArray hn hn' ht length).mono fun p hp => hp ▸ hbehind).orFail
  refine safeAt_get_bind.mpr (safeAt_ite (fun _ => safeAt_ite (fun _ => harray _) fun hnot => ?_)
    fun _ => safeAt_ite (fun _ => safeAt_pure ht _) fun _ => safeAt_fail ht fun _ => hbehind)
  rw [hgiop, Bool.not_eq_true] at hnot
  have hskip (x : List WChar) {u : InputCDR} (hu : InBounds u) : SafeAt (do
      skipWchar (.plain n)
      pure x) u (AfterWchars s) :=
    ((safeAt_skipWchar hu).mono fun _ _ => Or.inr hnot).bind hu fun _ _ _ hv => safeAt_pure hv _
  exact safeAt_ite (fun _ => (safeAt_pure ht _).bind ht fun x _ _ hu => hskip x hu)
    fun _ => (harray _).bind ht fun x _ _ hu => hskip x hu

/-! ### Calls and runs -/

theorem safeAt_readScalar (h : InBounds s) (x : Scalar) :
    SafeAt (readScalar x) s (· = s.rdPtr) := by
  cases x <;> first
    | exact safeAt_read1 h
    | exact safeAt_read2 h
    | exact safeAt_read4 h
    | exact safeAt_readWord h isAlign_eight (by norm_num)

theorem safeAt_readScalarArray (h : InBounds s) (length : ULong) (x : Scalar) :
    SafeAt (readScalarArray length x) s (· = s.rdPtr) := by
  cases x <;> first
    | exact safeAt_readWordArray h isAlign_one (by norm_num) length
    | exact safeAt_readWordArray h isAlign_two (by norm_num) length
    | exact safeAt_readWordArray h isAlign_four (by norm_num) length
    | exact safeAt_readWordArray h isAlign_eight (by norm_num) length

theorem safeAt_skipScalar (h : InBounds s) (x : Scalar) :
    SafeAt (skipScalar x) s (· = s.rdPtr) := by
  cases x <;> first
    | exact (safeAt_read1 h).dropValue h
    | exact (safeAt_read2 h).dropValue h
    | exact (safeAt_read4 h).dropValue h
    | exact (safeAt_readWord h isAlign_eight (by norm_num)).dropValue h

/-- **Where a failed test leaves `rd_ptr`**: where the value began, or behind the length that
precedes its own bytes. The octets of a fixed point number, and outside GIOP 1.2 the characters of
a wide string that is skipped or read into a `std::wstring`, are taken one by one. -/
def StopsAt (s : InputCDR) (p : ℕ) : Call → Prop
  | .readString _ | .skipString | .readWstring .wchars => AfterLength s p
  | .readWstring .stdWstring | .skipWstring => AfterWchars s p
  | .readWchar _ | .skipWchar => AfterOctet s p
  | .readFixed | .skipFixed => True
  | _ => p = s.rdPtr

/-- The number of bytes to skip does not take `rd_ptr` around the address space. -/
def NoWrap (s : InputCDR) : Call → Prop
  | .skipBytes len => s.rdPtr + len.toNat < 2 ^ 64
  | _ => True

/-- **Every call is safe.** -/
theorem safeAt_perform (hn : 1 ≤ n) (hn' : n ≤ 2 ^ 30) (h : InBounds s) {call : Call}
    (hwrap : NoWrap s call) : SafeAt (perform (.plain n) call) s fun p => StopsAt s p call := by
  cases call with
  | read x => exact (safeAt_readScalar h x).dropValue h
  | readArray x length => exact (safeAt_readScalarArray h length x).dropValue h
  | readBoolean => exact (safeAt_readBoolean h).dropValue h
  | readBooleanArray length => exact (safeAt_readBooleanArray h length).dropValue h
  | readChar => exact (safeAt_read1 h).dropValue h
  | readCharArray length => exact (safeAt_readCharArray h length).dropValue h
  | readWchar stale => exact (safeAt_readWchar h stale).dropValue h
  | readWcharArray length => exact (safeAt_readWcharArray hn hn' h length).dropValue h
  | readString form =>
    cases form with
    | chars => exact (safeAt_readString h).dropValue h
    | aceString => exact (safeAt_readAceString h).dropValue h
    | stdString => exact (safeAt_readStdString h).dropValue h
  | readWstring form =>
    cases form with
    | wchars => exact (safeAt_readWstring hn hn' h).dropValue h
    | stdWstring => exact (safeAt_readStdWstring hn hn' h).dropValue h
  | readFixed => exact (safeAt_readFixedOctets 16 h).dropValue h
  | skip x => exact safeAt_skipScalar h x
  | skipBoolean =>
    exact ((safeAt_read1 h).dropValue h).bind h fun _ _ _ ht => safeAt_returnGoodBit ht _
  | skipChar => exact (safeAt_read1 h).dropValue h
  | skipWchar => exact safeAt_skipWchar h
  | skipString => exact safeAt_skipString h
  | skipWstring => exact safeAt_skipWstring h
  | skipFixed => exact safeAt_skipFixedOctets 16 h
  | skipBytes len => exact safeAt_skipBytes h hwrap

/-- **A step** from a place in range. -/
theorem step_inBounds (hn : 1 ≤ n) (hn' : n ≤ 2 ^ 30) (h : InBounds s) {call : Call}
    (hwrap : NoWrap s call) : ∃ t r, step (.plain n) s call = some (t, r) ∧ InBounds t ∧
      t.base = s.base ∧ t.data = s.data ∧ s.rdPtr ≤ t.rdPtr ∧
      (r = .error .bounds → StopsAt s t.rdPtr call) := by
  have hsafe := safeAt_perform hn hn' h hwrap
  obtain ⟨r, t, heq, hbase, hdata, hge, hle, he⟩ := hsafe
  have hwr : t.wrPtr = s.wrPtr := by rw [wrPtr, wrPtr, hbase, hdata]
  exact ⟨t, r, step_eq_some.mpr heq, ⟨hbase ▸ h.ge.trans hge, hwr ▸ hle⟩, hbase, hdata, hge, he⟩

/-- **A stream reads only its own bytes**: every run of calls from a place in range has an answer
and ends in range, and so does every further call; where a test of the bounds fails in it, `rd_ptr`
is left as `StopsAt` says. -/
theorem reads_in_bounds (hn : 1 ≤ n) (hn' : n ≤ 2 ^ 30) (h : InBounds s) {calls : List Call}
    (hwrap : Machine.Guarded (step (.plain n)) NoWrap s calls) :
    ∃ t answers, Machine.run (step (.plain n)) s calls = some (t, answers) ∧ InBounds t ∧
      t.base = s.base ∧ t.data = s.data ∧ ∀ call, NoWrap t call →
        ∃ u r, step (.plain n) t call = some (u, r) ∧ InBounds u ∧ t.rdPtr ≤ u.rdPtr ∧
          (r = .error .bounds → StopsAt t u.rdPtr call) := by
  obtain ⟨t, answers, hrun, ht, hbase, hdata⟩ := Machine.run_isSome_of_guarded
    (P := fun t : InputCDR => InBounds t ∧ t.base = s.base ∧ t.data = s.data)
    (fun u call ⟨hu, hbase, hdata⟩ hcall => by
      obtain ⟨v, r, hstep, hv, hbase', hdata', -⟩ := step_inBounds hn hn' hu hcall
      exact ⟨v, r, hstep, hv, hbase'.trans hbase, hdata'.trans hdata⟩) ⟨h, rfl, rfl⟩ hwrap
  refine ⟨t, answers, hrun, ht, hbase, hdata, fun call hcall => ?_⟩
  obtain ⟨u, r, hstep, hu, -, -, hge, hstop⟩ := step_inBounds hn hn' ht hcall
  exact ⟨u, r, hstep, hu, hge, hstop⟩

/-- Where wide characters are not supported, an array of them that is longer than what is left of
the stream is read beyond it. -/
theorem readWcharArray_unsupported (h : InBounds s) {length : ULong}
    (hlen : s.wrPtr < s.rdPtr + length.toNat) : readWcharArray (.plain 0) length s = none := by
  have hle := h.le
  have hadjust := adjust_eq h isAlign_one (Nat.zero_le (2 ^ 62))
  have hend : s.valueEnd 0 1 = s.rdPtr := by rw [valueEnd, alignUp_one, Nat.add_zero]
  rw [hend, if_pos hle, alignUp_one] at hadjust
  have hzero : length ≠ 0 := by
    rintro rfl
    exact absurd hlen (Nat.not_lt.mpr hle)
  have hload : load s.rdPtr length.toNat (s.setRdPtr s.rdPtr) = none := by
    rw [load, get_bind_apply, setRdPtr_wrPtr, if_neg (fun hin => absurd hin.2 (by omega)),
      undefined_apply]
  have hfits : ¬length.toNat * (Codeset.plain 0).wcharMaxbytes % 2 ^ 64 > s.length := by
    rw [Codeset.plain, Nat.mul_zero]
    exact Nat.not_lt_zero _
  rw [readWcharArray, get_bind_apply, if_neg hfits]
  change readWcharArrayI (.plain 0) length s = none
  have hnone : (adjust ((Codeset.plain 0).wcharMaxbytes * length.toNat % 2 ^ 64)
      (if (Codeset.plain 0).wcharMaxbytes = 2 then 2 else 1)) = adjust 0 1 := by
    rw [Codeset.plain, Nat.zero_mul]
    rfl
  rw [readWcharArrayI, if_neg hzero]
  dsimp only
  rw [hnone, bind_of_ok hadjust, get_bind_apply]
  change (load s.rdPtr length.toNat >>= _) _ = none
  rw [bind_apply, hload]

section Example

/-- A message of two octets, at the address 8. -/
def twoOctets : InputCDR := ⟨8, [0x12, 0x34], 8, false, true, 1, 1, by
  simp only [List.length_cons, List.length_nil]
  decide⟩

theorem twoOctets_inBounds : InBounds twoOctets := ⟨le_rfl, Nat.le_add_right _ _⟩

/-- An octet is read and one is left. -/
theorem reads_twoOctets : ∃ t answers,
    Machine.run (step (.plain 4)) twoOctets [.read .octet] = some (t, answers) ∧ InBounds t ∧
      t.base = twoOctets.base ∧ t.data = twoOctets.data ∧ ∀ call, NoWrap t call →
        ∃ u r, step (.plain 4) t call = some (u, r) ∧ InBounds u ∧ t.rdPtr ≤ u.rdPtr ∧
          (r = .error .bounds → StopsAt t u.rdPtr call) :=
  reads_in_bounds (by norm_num) (by norm_num) twoOctets_inBounds ⟨trivial, fun _ _ _ => trivial⟩

/-- **A failed test may leave `rd_ptr` in the middle of a value**: a fixed point number without a
sign takes both octets. A number of bytes to skip close to `2 ^ 64` takes `rd_ptr` back, before
the data; and where wide characters are not supported an array of them is read beyond `wr_ptr`. -/
theorem reads_not_in_bounds :
    (∃ t, step (.plain 4) twoOctets .skipFixed = some (t, .error .bounds) ∧
      t.rdPtr = twoOctets.rdPtr + 2) ∧
    (∃ t, step (.plain 4) twoOctets (.skipBytes (-8)) = some (t, .ok ()) ∧ t.rdPtr < t.base) ∧
    step (.plain 0) twoOctets (.readWcharArray 3) = none := by
  refine ⟨⟨_, rfl, rfl⟩, ⟨twoOctets.setRdPtr 0, ?_, by decide⟩, ?_⟩
  · have hwrap : (twoOctets.rdPtr + (-8 : ULongLong).toNat) % 2 ^ 64 = 0 := by decide
    rw [step_eq_some, perform, skipBytes, get_bind_apply, hwrap]
    rfl
  · have hnone : readWcharArray (.plain 0) 3 twoOctets = none :=
      readWcharArray_unsupported twoOctets_inBounds (by decide)
    rw [step, perform, dropValue, bind_apply, hnone]
    rfl

end Example

end InputCDR

end AceTao.Cdr
