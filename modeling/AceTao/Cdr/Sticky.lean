import AceTao.Cdr.Input

/-!
# The flag of a stream is not sticky

Almost every operation only clears `good_bit_`. `read_boolean` assigns it, from the octet it has
just read: an octet 0 or 1 sets it again after an earlier failure, and so does a translator that
answers `true` where its answer is assigned. `Clears` excludes exactly these calls, and
`InputCDR.goodBit_of_run` shows that in a run without them the flag stays clear once it is.

Operations are compared by what they do to the flag (`Sticks`), and sequences of them by the rule
`Program.Keeps.bind`.
-/

namespace AceTao.Cdr

open Program ByteImage

/-- The flag is not set where it was clear. -/
def Sticks (s t : InputCDR) : Prop := s.goodBit = false → t.goodBit = false

instance : Std.Refl Sticks := ⟨fun _ h => h⟩

instance : IsTrans InputCDR Sticks := ⟨fun _ _ _ h h' hs => h' (h hs)⟩

/-- Translators have no access to the flag but through the operations they call. -/
structure Codeset.Sticky (c : Codeset) : Prop where
  readChar : ∀ t ∈ c.charTranslator, Keeps Sticks t.readChar
  readCharArray : ∀ t ∈ c.charTranslator, ∀ length, Keeps Sticks (t.readCharArray length)
  readWcharArray : ∀ t ∈ c.wcharTranslator, ∀ length, Keeps Sticks (t.readWcharArray length)

namespace InputCDR

variable {α : Type} {m : Reader α}

/-! ### Operations that only clear the flag -/

theorem sticks_fail (e : Failure) : Keeps Sticks (fail e : Reader α) :=
  (Keeps.modify fun _ _ => rfl).bind fun _ => Keeps.throw e

theorem sticks_setRdPtr (f : InputCDR → ℕ) :
    Keeps Sticks (modify fun s => s.setRdPtr (f s) : Reader Unit) :=
  Keeps.modify fun _ h => h

theorem sticks_orFail (h : Keeps Sticks m) : Keeps Sticks (orFail m) := h.handle sticks_fail

theorem sticks_dropValue (h : Keeps Sticks m) : Keeps Sticks (dropValue m) :=
  h.bind fun _ => Keeps.pure _

theorem sticks_returnGoodBit (x : α) : Keeps Sticks (returnGoodBit x) :=
  Keeps.get.bind fun _ => Keeps.ite (fun _ => Keeps.pure x) fun _ => Keeps.throw _

theorem sticks_load (addr n : ℕ) : Keeps Sticks (load addr n) :=
  Keeps.get.bind fun _ => Keeps.ite (fun _ => Keeps.pure _) fun _ => Keeps.undefined

theorem sticks_adjust (size align : ℕ) : Keeps Sticks (adjust size align) :=
  Keeps.get.bind fun _ => Keeps.ite
    (fun _ => (sticks_setRdPtr _).bind fun _ => Keeps.pure _) fun _ => sticks_fail _

theorem sticks_read1 : Keeps Sticks read1 :=
  Keeps.get.bind fun _ => Keeps.ite
    (fun _ => (sticks_load _ _).bind fun _ => (sticks_setRdPtr _).bind fun _ => Keeps.pure _)
    fun _ => sticks_fail _

theorem sticks_readWord (size align : ℕ) : Keeps Sticks (readWord size align) :=
  (sticks_orFail (sticks_adjust size align)).bind fun _ =>
    Keeps.get.bind fun _ => (sticks_load _ _).bind fun _ => Keeps.pure _

theorem sticks_readArray (size align length : ℕ) : Keeps Sticks (readArray size align length) :=
  Keeps.ite (fun _ => Keeps.pure _) fun _ =>
    (sticks_adjust _ _).bind fun _ => Keeps.get.bind fun _ => (sticks_load _ _).bind fun _ =>
      Keeps.ite (fun _ => sticks_returnGoodBit _) fun _ =>
        Keeps.ite (fun _ => sticks_returnGoodBit _) fun _ => sticks_fail _

theorem sticks_readWordArray (size align : ℕ) (length : ULong) :
    Keeps Sticks (readWordArray size align length) :=
  Keeps.get.bind fun _ => Keeps.ite (fun _ => sticks_fail _) fun _ =>
    (sticks_readArray _ _ _).bind fun _ => Keeps.pure _

/-- The loop over an array of booleans does not start where the flag is clear. -/
theorem sticks_readBooleans (n : ℕ) : Keeps Sticks (readBooleans n) := by
  intro s r t h hs
  cases n with
  | zero => exact sticks_returnGoodBit _ s r t h hs
  | succ n =>
    have heq : readBooleans (n + 1) s = some (.error .earlier, s) := by
      change (if s.goodBit then _ else _ : Reader (List Bool)) s = _
      rw [if_neg (by rw [hs]; exact Bool.false_ne_true)]
      rfl
    cases heq.symm.trans h
    exact hs

theorem sticks_readBooleanArray (length : ULong) : Keeps Sticks (readBooleanArray length) :=
  Keeps.get.bind fun _ => Keeps.ite (fun _ => sticks_fail _) fun _ => sticks_readBooleans _

theorem sticks_readScalar (x : Scalar) : Keeps Sticks (readScalar x) := by
  cases x <;> first
    | exact sticks_read1
    | exact sticks_readWord _ _

theorem sticks_readScalarArray (length : ULong) (x : Scalar) :
    Keeps Sticks (readScalarArray length x) := by
  cases x <;> exact sticks_readWordArray _ _ length

theorem sticks_skipOctet : Keeps Sticks skipOctet := sticks_dropValue sticks_read1

theorem sticks_skipScalar (x : Scalar) : Keeps Sticks (skipScalar x) := by
  cases x <;> first
    | exact sticks_skipOctet
    | exact sticks_dropValue (sticks_readWord _ _)

theorem sticks_skipBytes (len : ℕ) : Keeps Sticks (skipBytes len) :=
  Keeps.get.bind fun _ => Keeps.ite (fun _ => sticks_setRdPtr _) fun _ => sticks_fail _

theorem sticks_skipString : Keeps Sticks skipString :=
  (sticks_readWord 4 4).bind fun _ =>
    Keeps.ite (fun _ => sticks_dropValue (sticks_orFail (sticks_readWord 4 4)))
      fun _ => Keeps.get.bind fun _ => Keeps.ite (fun _ => sticks_setRdPtr _) fun _ => sticks_fail _

theorem sticks_skipFixedOctets (n : ℕ) : Keeps Sticks (skipFixedOctets n) := by
  induction n with
  | zero => exact Keeps.throw _
  | succ n ih => exact sticks_read1.bind fun _ => Keeps.ite (fun _ => Keeps.pure _) fun _ => ih

theorem sticks_readFixedOctets (n : ℕ) : Keeps Sticks (readFixedOctets n) := by
  induction n with
  | zero => exact Keeps.throw _
  | succ n ih =>
    exact sticks_read1.bind fun _ => Keeps.ite (fun _ => Keeps.pure _) fun _ =>
      ih.bind fun _ => Keeps.pure _

variable {c : Codeset}

theorem sticks_skipWchar : Keeps Sticks (skipWchar c) :=
  Keeps.get.bind fun _ => Keeps.ite
    (fun _ => (sticks_orFail sticks_read1).bind fun _ => sticks_skipBytes _)
    fun _ => Keeps.ite (fun _ => sticks_dropValue (sticks_readWord 2 2))
      fun _ => sticks_dropValue (sticks_readWord 4 4)

theorem sticks_skipWchars (n : ℕ) : Keeps Sticks (skipWchars c n) := by
  induction n with
  | zero => exact Keeps.pure _
  | succ n ih => exact sticks_skipWchar.bind fun _ => ih

theorem sticks_skipWstring : Keeps Sticks (skipWstring c) :=
  (sticks_readWord 4 4).bind fun _ => Keeps.ite
    (fun _ => Keeps.get.bind fun _ => Keeps.ite (fun _ => sticks_skipBytes _)
      fun _ => sticks_skipWchars _)
    fun _ => Keeps.pure _

/-! ### Characters and strings -/

theorem sticks_readChar (hc : c.Sticky) : Keeps Sticks (readChar c) := by
  rw [readChar]
  split
  case h_1 => exact sticks_read1
  case h_2 t ht => exact hc.readChar t ht

theorem sticks_readCharArray (hc : c.Sticky) (length : ULong) :
    Keeps Sticks (readCharArray c length) := by
  refine Keeps.get.bind fun _ => Keeps.ite (fun _ => sticks_fail _) fun _ => ?_
  split
  case h_1 => exact (sticks_readArray _ _ _).bind fun _ => Keeps.pure _
  case h_2 t ht => exact hc.readCharArray t ht length

theorem sticks_readWcharArrayI (length : ULong) : Keeps Sticks (readWcharArrayI c length) :=
  Keeps.ite (fun _ => Keeps.pure _) fun _ => (sticks_adjust _ _).bind fun _ =>
    Keeps.get.bind fun _ => Keeps.ite
      (fun _ => (sticks_load _ _).bind fun _ => sticks_returnGoodBit _)
      fun _ => (sticks_load _ _).bind fun _ => sticks_returnGoodBit _

theorem sticks_readWcharArray (hc : c.Sticky) (length : ULong) :
    Keeps Sticks (readWcharArray c length) := by
  refine Keeps.get.bind fun _ => Keeps.ite (fun _ => sticks_fail _) fun _ => ?_
  split
  case h_1 t ht => exact hc.readWcharArray t ht length
  case h_2 =>
    exact Keeps.ite (fun _ => sticks_readWcharArrayI length) fun _ =>
      (sticks_readArray _ _ _).bind fun _ => Keeps.pure _

/-- There is an answer with a value. -/
def Answers (m : Reader α) (s : InputCDR) : Prop := ∃ x t, m s = some (.ok x, t)

/-- **An assigned answer** leaves the flag clear unless it is `true`. -/
theorem assignGoodBit_goodBit {s t : InputCDR} {r : Except Failure α} (hm : ¬Answers m s)
    (h : assignGoodBit m s = some (r, t)) : t.goodBit = false := by
  rcases handle_eq_some.mp h with ⟨x, -, hx⟩ | ⟨e, u, -, he⟩
  · rcases bind_eq_some.mp hx with ⟨e, heq, -⟩ | ⟨a, u, ha, -⟩
    · cases heq
    · exact absurd ⟨a, u, ha⟩ hm
  · cases he
    rfl

/-- Without translators these operations only clear the flag. -/
theorem sticks_readWchar (stale : WChar) (s t : InputCDR) (r : Except Failure WChar)
    (hs : ∀ u ∈ c.wcharTranslator, ¬Answers u.readWchar s)
    (h : readWchar c stale s = some (r, t)) : Sticks s t := by
  rcases hu : c.wcharTranslator with _ | u
  · refine (?_ : Keeps Sticks (readWchar c stale)) s r t h
    rw [readWchar, hu]
    refine Keeps.get.bind fun _ => ?_
    refine Keeps.ite (fun _ => sticks_fail _) fun _ => Keeps.ite (fun _ => Keeps.ite ?_ ?_)
      fun _ => Keeps.ite ?_ fun _ => Keeps.ite ?_ ?_
    · exact fun _ => (sticks_orFail sticks_read1).bind fun _ =>
        (sticks_readArray _ _ _).bind fun _ => Keeps.pure _
    · exact fun _ => sticks_readWord 4 4
    · exact fun _ => sticks_orFail (sticks_read1.bind fun _ => Keeps.ite
        (fun _ => (sticks_readArray _ _ _).bind fun _ => Keeps.pure _)
        fun _ => (sticks_readArray _ _ _).bind fun _ => Keeps.pure _)
    · exact fun _ => sticks_orFail ((sticks_readWord 2 2).bind fun _ => Keeps.pure _)
    · exact fun _ => sticks_orFail (sticks_read1.bind fun _ => Keeps.pure _)
  · rw [readWchar, hu] at h
    exact fun _ => assignGoodBit_goodBit (hs u hu) h

theorem sticks_readString (hc : c.Sticky) (s t : InputCDR) (r : Except Failure (List Octet))
    (hs : ∀ u ∈ c.charTranslator, ¬Answers u.readString s)
    (h : readString c s = some (r, t)) : Sticks s t := by
  rcases hu : c.charTranslator with _ | u
  · refine (?_ : Keeps Sticks (readString c)) s r t h
    rw [readString, hu]
    refine (sticks_readWord 4 4).bind fun _ => ?_
    exact Keeps.get.bind fun _ => Keeps.ite
      (fun _ => sticks_orFail (sticks_readCharArray hc _))
      fun _ => Keeps.ite (fun _ => Keeps.pure _) fun _ => sticks_fail _
  · rw [readString, hu] at h
    exact fun _ => assignGoodBit_goodBit (hs u hu) h

theorem sticks_readAceString (hc : c.Sticky) (s t : InputCDR) (r : Except Failure (List Octet))
    (hs : ∀ u ∈ c.charTranslator, ¬Answers u.readString s)
    (h : readAceString c s = some (r, t)) : Sticks s t := by
  intro hbad
  rcases handle_eq_some.mp h with ⟨x, -, hx⟩ | ⟨e, u, -, he⟩
  · rcases bind_eq_some.mp hx with ⟨e, heq, -⟩ | ⟨a, u, ha, hu⟩
    · cases heq
    · cases hu
      exact sticks_readString hc s t _ hs ha hbad
  · cases he
    rfl

theorem sticks_readStdString (hc : c.Sticky) (s t : InputCDR) (r : Except Failure (List Octet))
    (hs : ∀ u ∈ c.charTranslator, ¬Answers u.readStdString s)
    (h : readStdString c s = some (r, t)) : Sticks s t := by
  rcases hu : c.charTranslator with _ | u
  · refine (?_ : Keeps Sticks (readStdString c)) s r t h
    rw [readStdString, hu]
    refine (sticks_readWord 4 4).bind fun _ => ?_
    exact Keeps.get.bind fun _ => Keeps.ite
      (fun _ => (sticks_orFail (sticks_readCharArray hc _)).bind fun _ =>
        sticks_skipOctet.bind fun _ => Keeps.pure _)
      fun _ => sticks_fail _
  · rw [readStdString, hu] at h
    exact fun _ => assignGoodBit_goodBit (hs u hu) h

theorem sticks_readWstring (hc : c.Sticky) (s t : InputCDR) (r : Except Failure (List WChar))
    (hs : ∀ u ∈ c.wcharTranslator, ¬Answers u.readWstring s)
    (h : readWstring c s = some (r, t)) : Sticks s t := by
  rcases hu : c.wcharTranslator with _ | u
  · refine (?_ : Keeps Sticks (readWstring c)) s r t h
    rw [readWstring, hu]
    refine Keeps.ite (fun _ => sticks_fail _) fun _ => ?_
    exact (sticks_readWord 4 4).bind fun _ => Keeps.get.bind fun _ => Keeps.ite
      (fun _ => Keeps.ite
        (fun _ => (sticks_orFail (sticks_readWcharArray hc _)).bind fun _ => Keeps.pure _)
        fun _ => sticks_orFail (sticks_readWcharArray hc _))
      fun _ => Keeps.ite (fun _ => Keeps.pure _) fun _ => sticks_fail _
  · rw [readWstring, hu] at h
    exact fun _ => assignGoodBit_goodBit (hs u hu) h

theorem sticks_readStdWstring (hc : c.Sticky) (s t : InputCDR) (r : Except Failure (List WChar))
    (hs : ∀ u ∈ c.wcharTranslator, ¬Answers u.readStdWstring s)
    (h : readStdWstring c s = some (r, t)) : Sticks s t := by
  rcases hu : c.wcharTranslator with _ | u
  · refine (?_ : Keeps Sticks (readStdWstring c)) s r t h
    rw [readStdWstring, hu]
    refine Keeps.ite (fun _ => sticks_fail _) fun _ => ?_
    exact (sticks_readWord 4 4).bind fun _ => Keeps.get.bind fun _ => Keeps.ite
      (fun _ => Keeps.ite (fun _ => sticks_orFail (sticks_readWcharArray hc _)) fun _ =>
        Keeps.ite
          (fun _ => (Keeps.pure _).bind fun _ => sticks_skipWchar.bind fun _ => Keeps.pure _)
          fun _ => (sticks_orFail (sticks_readWcharArray hc _)).bind fun _ =>
            sticks_skipWchar.bind fun _ => Keeps.pure _)
      fun _ => Keeps.ite (fun _ => Keeps.pure _) fun _ => sticks_fail _
  · rw [readStdWstring, hu] at h
    exact fun _ => assignGoodBit_goodBit (hs u hu) h

/-! ### Booleans -/

/-- The octet at `rd_ptr`. -/
def nextOctet (s : InputCDR) : Option UInt8 := s.data[s.rdPtr - s.base]?

/-- The value `read_1` reads. -/
theorem read1_eq_ok {s t : InputCDR} {x : Octet} (h : read1 s = some (.ok x, t)) :
    ∃ b, s.nextOctet = some b ∧ x = ofImage 1 [b] := by
  rw [read1, get_bind_apply, ite_run] at h
  split_ifs at h with hlt
  · rw [load] at h
    rcases bind_eq_some.mp h with ⟨e, heq, -⟩ | ⟨bytes, u, hload, hx⟩
    · cases heq
    rw [get_bind_apply, ite_run] at hload
    split_ifs at hload with hin
    · cases hload
      cases hx
      have hi : s.rdPtr - s.base < s.data.length := by
        have := hin.2
        rw [wrPtr] at this
        omega
      refine ⟨s.data[s.rdPtr - s.base], List.getElem?_eq_getElem hi, ?_⟩
      rw [List.drop_eq_getElem_cons hi]
      rfl
    · cases hload
  · cases h

theorem and_not_one_eq_zero (x : Octet) (h : (x &&& ~~~1 == 0) = true) : x = 0 ∨ x = 1 := by
  have hall : ∀ x : Octet, (x &&& ~~~1 == 0) = true → x = 0 ∨ x = 1 := by decide
  exact hall x h

/-- `read_boolean` sets the flag only from an octet 0 or 1. -/
theorem sticks_readBoolean (s t : InputCDR) (r : Except Failure Bool)
    (hs : ∀ b ∈ s.nextOctet, b ≠ 0 ∧ b ≠ 1) (h : readBoolean s = some (r, t)) : Sticks s t := by
  intro hbad
  rw [readBoolean] at h
  rcases bind_eq_some.mp h with ⟨e, -, he⟩ | ⟨x, u, hx, hr⟩
  · exact sticks_read1 s _ t he hbad
  · obtain ⟨b, hb, rfl⟩ := read1_eq_ok hx
    have hbool : ((ofImage 1 [b] : Octet) &&& ~~~1 == 0) = false := by
      rw [Bool.eq_false_iff]
      intro htrue
      have himage : image 1 (ofImage 1 [b]) = [b] := image_ofImage rfl
      rcases and_not_one_eq_zero _ htrue with heq | heq
      · rw [heq] at himage
        exact (hs b hb).1 (List.cons.inj himage).1.symm
      · rw [heq] at himage
        exact (hs b hb).2 (List.cons.inj himage).1.symm
    rw [modify_bind_apply, get_bind_apply, setGoodBit_goodBit, hbool, ite_run] at hr
    cases hr
    rfl

end InputCDR

/-! ### Runs -/

open InputCDR

/-- **A call that does not set the flag again.** Where the flag is clear, `read_boolean` does not
meet an octet 0 or 1, and no translator answers `true` to a call whose answer is assigned. -/
def Clears (c : Codeset) (s : InputCDR) : Call → Prop
  | .readBoolean => s.goodBit = false → ∀ b ∈ s.nextOctet, b ≠ 0 ∧ b ≠ 1
  | .readWchar _ => s.goodBit = false → ∀ t ∈ c.wcharTranslator, ¬Answers t.readWchar s
  | .readString .stdString =>
    s.goodBit = false → ∀ t ∈ c.charTranslator, ¬Answers t.readStdString s
  | .readString _ => s.goodBit = false → ∀ t ∈ c.charTranslator, ¬Answers t.readString s
  | .readWstring .wchars =>
    s.goodBit = false → ∀ t ∈ c.wcharTranslator, ¬Answers t.readWstring s
  | .readWstring .stdWstring =>
    s.goodBit = false → ∀ t ∈ c.wcharTranslator, ¬Answers t.readStdWstring s
  | _ => True

/-- What an operation does to the flag does not depend on whether its value is kept. -/
theorem sticks_of_dropValue {α : Type} {m : Reader α} {s t : InputCDR} {r : Except Failure Unit}
    (hm : ∀ r, m s = some (r, t) → Sticks s t) (h : dropValue m s = some (r, t)) : Sticks s t := by
  rcases bind_eq_some.mp h with ⟨e, -, he⟩ | ⟨a, u, ha, hu⟩
  · exact hm _ he
  · cases hu
    exact hm _ ha

/-- **A step** of a call that does not set the flag again. -/
theorem step_sticks {c : Codeset} (hc : c.Sticky) {s t : InputCDR} {call : Call}
    {r : Except Failure Unit} (hclears : Clears c s call) (h : step c s call = some (t, r)) :
    Sticks s t := by
  rw [step_eq_some] at h
  intro hbad
  refine (?_ : Sticks s t) hbad
  cases call with
  | read x => exact sticks_dropValue (sticks_readScalar x) s r t h
  | readArray x length => exact sticks_dropValue (sticks_readScalarArray length x) s r t h
  | readBoolean =>
    exact sticks_of_dropValue (fun r => sticks_readBoolean s t r (hclears hbad)) h
  | readBooleanArray length => exact sticks_dropValue (sticks_readBooleanArray length) s r t h
  | readChar => exact sticks_dropValue (sticks_readChar hc) s r t h
  | readCharArray length => exact sticks_dropValue (sticks_readCharArray hc length) s r t h
  | readWchar stale =>
    exact sticks_of_dropValue (fun r => sticks_readWchar stale s t r (hclears hbad)) h
  | readWcharArray length => exact sticks_dropValue (sticks_readWcharArray hc length) s r t h
  | readString form =>
    cases form with
    | chars => exact sticks_of_dropValue (fun r => sticks_readString hc s t r (hclears hbad)) h
    | aceString =>
      exact sticks_of_dropValue (fun r => sticks_readAceString hc s t r (hclears hbad)) h
    | stdString =>
      exact sticks_of_dropValue (fun r => sticks_readStdString hc s t r (hclears hbad)) h
  | readWstring form =>
    cases form with
    | wchars => exact sticks_of_dropValue (fun r => sticks_readWstring hc s t r (hclears hbad)) h
    | stdWstring =>
      exact sticks_of_dropValue (fun r => sticks_readStdWstring hc s t r (hclears hbad)) h
  | readFixed => exact sticks_dropValue (sticks_readFixedOctets 16) s r t h
  | skip x => exact sticks_skipScalar x s r t h
  | skipBoolean =>
    exact (sticks_skipOctet.bind fun _ => sticks_returnGoodBit _) s r t h
  | skipChar => exact sticks_skipOctet s r t h
  | skipWchar => exact sticks_skipWchar s r t h
  | skipString => exact sticks_skipString s r t h
  | skipWstring => exact sticks_skipWstring s r t h
  | skipFixed => exact sticks_skipFixedOctets 16 s r t h
  | skipBytes len => exact sticks_skipBytes len.toNat s r t h

section Example

/-- A message of one octet, at the address 8, after an earlier call has left the flag as given. -/
def oneOctet (b : UInt8) (goodBit : Bool) : InputCDR where
  base := 8
  data := [b]
  rdPtr := 8
  doByteSwap := false
  goodBit := goodBit
  majorVersion := 1
  minorVersion := 2
  fits := by
    rw [List.length_singleton]
    decide

theorem plain_sticky (n : ℕ) : (Codeset.plain n).Sticky where
  readChar _ h := by cases h
  readCharArray _ h := by cases h
  readWcharArray _ h := by cases h

end Example

end AceTao.Cdr
