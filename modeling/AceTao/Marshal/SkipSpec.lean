import AceTao.Cdr.SkipSpec
import AceTao.Marshal.Skip
import Mathlib.Data.Set.Finite.List
import Mathlib.Order.Filter.Finite

/-!
# A value is skipped up to its end

A step `Traverses` a value when, wherever its bytes follow in a stream, the step moves the stream to
their end and lets the traversal continue. Values without parts are traversed by their own
operations (`traverses_leaf`), the others by the steps for their parts, one after the other
(`traverses_traverse`). The elements of an array of primitive values are skipped all at once: they
are put without padding between them (`exists_put_elements`).

`Skippable` collects what is required of the parts of a value.
-/

namespace AceTao.Marshal

open Cdr InputCDR Program ByteImage AlignUp

/-! ### Steps -/

/-- **A step consumes** the bytes up to a position, and has an answer. -/
def Consumes {ε α : Type} (swap : Bool) (m : Program InputCDR ε α) (x : α) (s : InputCDR)
    (w : Wire) : Prop :=
  ∃ t, m s = some (.ok x, t) ∧ SameBuffer s t ∧ At swap t w

section Steps

variable {ε α β : Type} {swap : Bool} {s : InputCDR} {w w' : Wire} {x : α} {y : β}

theorem Consumes.bind {m : Program InputCDR ε α} {f : α → Program InputCDR ε β}
    (hm : Consumes swap m x s w)
    (hf : ∀ t, SameBuffer s t → At swap t w → Consumes swap (f x) y t w') :
    Consumes swap (m >>= f) y s w' := by
  obtain ⟨t, heq, hsame, ht⟩ := hm
  obtain ⟨u, heq', hsame', hu⟩ := hf t hsame ht
  exact ⟨u, (bind_of_ok heq).trans heq', hsame.trans hsame', hu⟩

theorem consumes_pure (h : At swap s w) (x : α) :
    Consumes swap (pure x : Program InputCDR ε α) x s w :=
  ⟨s, rfl, SameBuffer.refl s, h⟩

theorem consumes_attempt {m : Reader α} (h : Reads swap m x s w) :
    Consumes swap (m.attempt : Program InputCDR ε (Option α)) (some x) s w := by
  obtain ⟨t, heq, ht⟩ := h
  exact ⟨t, attempt_of_ok heq, ht⟩

theorem consumes_orMarshal {m : Reader α} (h : Reads swap m x s w) :
    Consumes swap (orMarshal m) x s w := by
  obtain ⟨t, heq, ht⟩ := h
  exact ⟨t, mapError_of_ok heq, ht⟩

theorem consumes_continueBehind {m : Reader α} (h : Reads swap m x s w) :
    Consumes swap (continueBehind m) .traverseContinue s w :=
  (consumes_orMarshal h).bind fun _ _ ht => consumes_pure ht _

theorem Consumes.mustContinue {m : Skipper TraverseStatus}
    (h : Consumes swap m .traverseContinue s w) :
    Consumes swap (mustContinue m) .traverseContinue s w :=
  h.bind fun _ _ ht => consumes_pure ht _

end Steps

variable {R : Type} {G : R → TypeCode R} {e : Encoding R} {extract : Reader R}

/-- **A step traverses a value**, wherever its bytes are in a stream. -/
def Traverses (e : Encoding R) (m : Skipper TraverseStatus) (v : Value R) : Prop :=
  ∀ s w, s.giop12 = e.giop12 → At e.doByteSwap s w → Agrees s (v.put e w) →
    Consumes e.doByteSwap m .traverseContinue s (v.put e w)

/-! ### What was put stays -/

theorem prefix_putUlong (x : ULong) (w : Wire) : w <+: putUlong e x w := prefix_put ..

theorem prefix_putOctets (octets : List Octet) (w : Wire) : w <+: putOctets e octets w :=
  prefix_putArray ..

theorem prefix_putOctetSeq (octets : List Octet) (w : Wire) : w <+: putOctetSeq e octets w :=
  (prefix_putUlong ..).trans (prefix_putOctets ..)

theorem prefix_putString (swap : Bool) (cs : List Octet) (w : Wire) : w <+: putString swap cs w :=
  Datum.prefix_put swap (.string cs) w

theorem prefix_putWchar (swap : Bool) (n : ℕ) (giop12 : Bool) (x : WChar) (w : Wire) :
    w <+: putWchar swap n giop12 x w := by
  rw [putWchar]
  split_ifs
  · exact (prefix_put ..).trans (prefix_put ..)
  · exact prefix_put ..

theorem prefix_putWideString (cs : List WChar) (w : Wire) : w <+: putWideString e cs w := by
  rw [putWideString]
  split_ifs
  · exact (prefix_putUlong ..).trans (prefix_putArray ..)
  · exact (prefix_putUlong ..).trans (prefix_putArray ..)

theorem Parameters.prefix_put (p : Parameters) (w : Wire) : w <+: p.put e w := by
  rcases p with _ | n | ⟨digits, scale⟩ | octets
  · exact List.prefix_rfl
  · exact prefix_putUlong ..
  · exact (InputCDR.prefix_put ..).trans (InputCDR.prefix_put ..)
  · exact prefix_putOctetSeq ..

theorem TypeCodeImage.prefix_put (tc : TypeCodeImage) (w : Wire) : w <+: tc.put e w :=
  (prefix_putUlong ..).trans (tc.parameters.prefix_put _)

theorem prefix_putProfiles (profiles : List (ULong × List Octet)) (w : Wire) :
    w <+: putProfiles e profiles w := by
  induction profiles generalizing w with
  | nil => exact List.prefix_rfl
  | cons p profiles ih => exact ((prefix_putUlong ..).trans (prefix_putOctetSeq ..)).trans (ih _)

theorem Label.prefix_put (d : Label) (w : Wire) : w <+: d.put e w := by
  cases d with
  | wchar x => exact prefix_putWchar ..
  | _ => exact InputCDR.prefix_put ..

mutual

/-- **A value only appends** to the stream. -/
theorem Value.prefix_put : ∀ (v : Value R) (w : Wire), w <+: v.put e w
  | .null, _ => List.prefix_rfl
  | .scalar _ _, _ => InputCDR.prefix_put ..
  | .boolean _, _ => InputCDR.prefix_put ..
  | .char _, _ => InputCDR.prefix_put ..
  | .wchar _, _ => prefix_putWchar ..
  | .enum _, _ => InputCDR.prefix_put ..
  | .fixed _, _ => prefix_putOctets ..
  | .string _, _ => prefix_putString ..
  | .wstring _, _ => prefix_putWideString ..
  | .typeCode tc, w => tc.prefix_put w
  | .any r v, w => ((e.image r).prefix_put w).trans (v.prefix_put _)
  | .principal _, _ => prefix_putOctetSeq ..
  | .objref _ _, _ =>
    ((prefix_putString ..).trans (InputCDR.prefix_put ..)).trans (prefix_putProfiles ..)
  | .struct members, w => Value.prefix_putAll members w
  | .except _ members, _ => (prefix_putString ..).trans (Value.prefix_putAll members _)
  | .union d member, w => (d.prefix_put w).trans (member.prefix_put _)
  | .sequence elements, _ => (InputCDR.prefix_put ..).trans (Value.prefix_putAll elements _)
  | .array elements, w => Value.prefix_putAll elements w

theorem Value.prefix_putAll : ∀ (vs : List (Value R)) (w : Wire), w <+: Value.putAll e vs w
  | [], _ => List.prefix_rfl
  | v :: vs, w => (v.prefix_put w).trans (Value.prefix_putAll vs _)

end

/-! ### Values without parts -/

section Leaves

variable {s : InputCDR} {w : Wire}

theorem toNat_ofNat_of_lt {k : ℕ} (h : k < 2 ^ 32) : (BitVec.ofNat 32 k).toNat = k := by
  rw [BitVec.toNat_ofNat, Nat.mod_eq_of_lt h]

theorem reads_putWord {size align : ℕ} (h : At e.doByteSwap s w) (ha : IsAlign align)
    (hsize : size ≤ 2 ^ 62) (x : BitVec (8 * size)) (hput : Agrees s (putWord e size align x w)) :
    Reads e.doByteSwap (readWord size align) x s (putWord e size align x w) :=
  reads_readWord h ha hsize hput

theorem reads_putUlong (h : At e.doByteSwap s w) {x : ULong} (hput : Agrees s (putUlong e x w)) :
    Reads e.doByteSwap readUlong x s (putUlong e x w) :=
  reads_readUlong h hput

theorem reads_skipOctetSeq (h : At e.doByteSwap s w) {octets : List Octet}
    (hlen : octets.length < 2 ^ 32) (hput : Agrees s (putOctetSeq e octets w)) :
    Reads e.doByteSwap skipOctetSeq () s (putOctetSeq e octets w) := by
  refine (reads_putUlong h (hput.mono (prefix_putOctets ..))).bind fun t hsame ht => ?_
  rw [toNat_ofNat_of_lt hlen]
  exact reads_skipOctets ht (hsame.agrees hput)

theorem reads_skipProfiles (profiles : List (ULong × List Octet)) (h : At e.doByteSwap s w)
    (hps : ∀ p ∈ profiles, p.2.length < 2 ^ 32) (hput : Agrees s (putProfiles e profiles w)) :
    Reads e.doByteSwap (skipProfiles profiles.length) () s (putProfiles e profiles w) := by
  induction profiles generalizing s w with
  | nil => exact reads_pure h ()
  | cons p profiles ih =>
    have htail : Agrees s (putOctetSeq e p.2 (putUlong e p.1 w)) :=
      hput.mono (prefix_putProfiles profiles _)
    have hlen := hps p (List.mem_cons_self ..)
    refine (reads_putUlong h (htail.mono (prefix_putOctetSeq ..))).bind fun t hsame ht => ?_
    refine (reads_skipOctetSeq ht hlen (hsame.agrees htail)).bind fun u hsame' hu => ?_
    exact ih hu (fun q hq => hps q (List.mem_cons_of_mem _ hq))
      (hsame'.agrees (hsame.agrees hput))

/-- **A wide string is skipped**, if its characters do not have one byte in GIOP 1.1. -/
theorem reads_skipWstring (h : At e.doByteSwap s w) (hgiop : s.giop12 = e.giop12)
    (hn : IsWidth e.wcharMaxbytes) (hne : e.giop12 = false → e.wcharMaxbytes ≠ 1)
    {cs : List WChar}
    (hcount : (if e.giop12 then e.wcharMaxbytes * cs.length else cs.length + 1) < 2 ^ 32)
    (hput : Agrees s (putWideString e cs w)) :
    Reads e.doByteSwap (skipWstring (.plain e.wcharMaxbytes)) () s (putWideString e cs w) := by
  rw [putWideString] at hput ⊢
  rcases hversion : e.giop12 with _ | _
  · rw [hversion, if_neg Bool.false_ne_true] at hcount hput
    rw [if_neg Bool.false_ne_true]
    refine (reads_putUlong h (hput.mono (prefix_putArray ..))).bind fun t hsame ht => ?_
    have hzero : BitVec.ofNat 32 (cs.length + 1) ≠ 0 := by
      intro hzero
      have hnat := congrArg BitVec.toNat hzero
      rw [toNat_ofNat_of_lt hcount] at hnat
      exact absurd hnat (Nat.succ_ne_zero _)
    have hsame11 : t.giop12 = false := hsame.giop12.trans (hgiop.trans hversion)
    have hlen : (BitVec.ofNat 32 (cs.length + 1)).toNat = (cs ++ [0]).length := by
      rw [toNat_ofNat_of_lt hcount, List.length_append, List.length_singleton]
    have hskip := reads_skipWchars hn (hne hversion) (cs ++ [0]) ht hsame11 (hsame.agrees hput)
    obtain ⟨u, heq, hu⟩ := hskip
    refine ⟨u, ?_, hu⟩
    rw [if_pos hzero, get_bind_apply, if_neg (by rw [hsame11]; exact Bool.false_ne_true), hlen]
    exact heq
  · rw [hversion, if_pos rfl] at hcount hput
    rw [if_pos rfl]
    refine (reads_putUlong h (hput.mono (prefix_putArray ..))).bind fun t hsame ht => ?_
    have hsame12 : t.giop12 = true := hsame.giop12.trans (hgiop.trans hversion)
    have halign : e.wcharMaxbytes ∣ (putUlong e (BitVec.ofNat 32 (e.wcharMaxbytes * cs.length))
        w).length := by
      have hfour : e.wcharMaxbytes ∣ 4 := by
        rcases hn with hn | hn | hn <;> rw [hn] <;> decide
      refine hfour.trans (dvd_length_put (by norm_num) ?_)
      rw [length_wireImage]
    have hskip := reads_skipArray ht hn.isAlign.pos halign (hsame.agrees hput)
    rw [List.length_map] at hskip
    by_cases hzero : BitVec.ofNat 32 (e.wcharMaxbytes * cs.length) = 0
    · have hnil : cs = [] := by
        have hnat := congrArg BitVec.toNat hzero
        rw [toNat_ofNat_of_lt hcount] at hnat
        have hmul : e.wcharMaxbytes * cs.length = 0 := hnat
        exact List.eq_nil_of_length_eq_zero
          ((Nat.mul_eq_zero.mp hmul).resolve_left hn.isAlign.pos.ne')
      subst hnil
      rw [if_neg (not_not_intro hzero)]
      exact reads_pure ht ()
    · obtain ⟨u, heq, hu⟩ := hskip
      refine ⟨u, ?_, hu⟩
      rw [if_pos hzero, get_bind_apply, if_pos hsame12, toNat_ofNat_of_lt hcount]
      exact heq

theorem skipParameters_of_complex {k : TCKind} (h : k.isComplex = true) :
    MarshalTypeCode.skipParameters k = continueBehind skipOctetSeq := by
  cases k <;> first | rfl | cases h

theorem skipParameters_of_bound {k : TCKind} (h : k = .string ∨ k = .wstring) :
    MarshalTypeCode.skipParameters k = continueBehind skipUlong := by
  rcases h with rfl | rfl
  · rfl
  · rfl

theorem skipParameters_of_empty {k : TCKind} (h : k.isComplex = false) (hs : k ≠ .string)
    (hw : k ≠ .wstring) : MarshalTypeCode.skipParameters k = pure .traverseContinue := by
  cases k <;> first | exact absurd rfl hs | exact absurd rfl hw | rfl | cases h

/-- **The encoding of a TypeCode is skipped**, unless its kind is `fixed`. -/
theorem traverses_typeCode {tc : TypeCodeImage} (hfixed : tc.kind ≠ .fixed) :
    Traverses e MarshalTypeCode.skip (.typeCode tc) := by
  intro s w _ h hput
  obtain ⟨kind, parameters, legal⟩ := tc
  rw [Value.put, TypeCodeImage.put] at hput ⊢
  have hkind : Agrees s (putUlong e kind.toULong w) := hput.mono (parameters.prefix_put _)
  refine (consumes_orMarshal (reads_putUlong h hkind)).bind fun t hsame ht => ?_
  have hparameters := hsame.agrees hput
  rw [TCKind.ofULong_toULong]
  cases parameters with
  | none =>
    change Consumes _ (MarshalTypeCode.skipParameters kind) _ _ _
    rw [skipParameters_of_empty legal.1 legal.2.1 legal.2.2.1]
    exact consumes_pure ht _
  | bound n =>
    change Consumes _ (MarshalTypeCode.skipParameters kind) _ _ _
    rw [skipParameters_of_bound legal]
    exact consumes_continueBehind (reads_discard (reads_putUlong ht hparameters))
  | fixed digits scale => exact absurd legal hfixed
  | encapsulation octets =>
    change Consumes _ (MarshalTypeCode.skipParameters kind) _ _ _
    rw [skipParameters_of_complex legal.1]
    exact consumes_continueBehind (reads_skipOctetSeq ht legal.2 hparameters)

theorem traverses_principal {octets : List Octet} (hlen : octets.length < 2 ^ 32) :
    Traverses e MarshalPrincipal.skip (.principal octets) := by
  intro s w _ h hput
  refine consumes_continueBehind (x := ()) ?_
  refine (reads_putUlong h (hput.mono (prefix_putOctets ..))).bind fun t hsame ht => ?_
  have hskip := reads_skipOctets ht (hsame.agrees hput)
  rw [toNat_ofNat_of_lt hlen]
  split_ifs with hpos
  · exact hskip
  · have hnil : octets = [] := List.eq_nil_of_length_eq_zero (Nat.eq_zero_of_not_pos hpos)
    subst hnil
    exact reads_pure ht ()

theorem traverses_objref {typeId : List Octet} {profiles : List (ULong × List Octet)}
    (hid : typeId.length + 1 < 2 ^ 32 - 1) (hlen : profiles.length < 2 ^ 32)
    (hps : ∀ p ∈ profiles, p.2.length < 2 ^ 32) :
    Traverses e MarshalObjRef.skip (.objref typeId profiles) := by
  intro s w _ h hput
  have hcount := hput.mono (prefix_putProfiles profiles _)
  refine (consumes_attempt (reads_skipString h hid (hcount.mono (prefix_putUlong ..)))).bind
    fun t hsame ht => ?_
  refine (consumes_orMarshal (reads_putUlong ht (hsame.agrees hcount))).bind fun u hsame' hu => ?_
  rw [toNat_ofNat_of_lt hlen]
  exact consumes_continueBehind
    (reads_skipProfiles profiles hu hps (hsame'.agrees (hsame.agrees hput)))

/-- A word or an octet is skipped as it is read. -/
theorem skip_scalar (n : ℕ) {tc : TypeCode R} {x : Scalar} (h : tc.scalar = some x) :
    MarshalPrimitive.skip n tc = continueBehind (readScalar x >>= fun _ => pure ()) := by
  cases tc <;> cases h <;> rfl

theorem traverses_scalar (n : ℕ) {tc : TypeCode R} {x : Scalar} (h : tc.scalar = some x)
    (v : x.Value) : Traverses e (MarshalPrimitive.skip n tc) (.scalar x v) := by
  intro s w _ hat hput
  rw [skip_scalar n h]
  exact consumes_continueBehind (reads_discard (reads_readScalar hat x hput))

/-- A boolean is skipped as an octet. -/
theorem reads_skipBoolean (h : At e.doByteSwap s w) {x : Octet}
    (hput : Agrees s (put 1 (image 1 x) w)) :
    Reads e.doByteSwap skipBoolean () s (put 1 (image 1 x) w) :=
  (reads_discard (reads_read1 h hput)).bind fun t _ ht =>
    ⟨t, returnGoodBit_eq ht.good (), SameBuffer.refl t, ht⟩

end Leaves

/-! ### Unions -/

/-- A discriminator that the interpreter reads: not one of 64 bits, and no character that is
negative as a `Short`. -/
def Label.Readable (e : Encoding R) : Label → Prop
  | .longlong _ | .ulonglong _ => False
  | .wchar x => e.giop12 = true → e.wcharMaxbytes = 2 → x.toNat < 2 ^ 15
  | _ => True

theorem reads_discriminator (hn : IsWidth e.wcharMaxbytes) {tc : TypeCode R} {d : Label}
    (h : tc.Labels e.wcharMaxbytes d) (hd : d.Readable e) :
    ∃ m, readDiscriminator e.wcharMaxbytes tc = some m ∧ ∀ s w, s.giop12 = e.giop12 →
      At e.doByteSwap s w → Agrees s (d.put e w) → Reads e.doByteSwap m d s (d.put e w) := by
  cases h with
  | short x =>
    exact ⟨_, rfl, fun s w _ hat hput =>
      (reads_putWord hat isAlign_two (show 2 ≤ 2 ^ 62 by norm_num) x hput).bind fun t _ ht =>
        reads_pure ht _⟩
  | ushort x =>
    exact ⟨_, rfl, fun s w _ hat hput =>
      (reads_putWord hat isAlign_two (show 2 ≤ 2 ^ 62 by norm_num) x hput).bind fun t _ ht =>
        reads_pure ht _⟩
  | long x =>
    exact ⟨_, rfl, fun s w _ hat hput =>
      (reads_putUlong hat hput).bind fun t _ ht => reads_pure ht _⟩
  | ulong x =>
    exact ⟨_, rfl, fun s w _ hat hput =>
      (reads_putUlong hat hput).bind fun t _ ht => reads_pure ht _⟩
  | enum x =>
    exact ⟨_, rfl, fun s w _ hat hput =>
      (reads_putUlong hat hput).bind fun t _ ht => reads_pure ht _⟩
  | char c =>
    exact ⟨_, rfl, fun s w _ hat hput =>
      (reads_read1 hat hput).bind fun t _ ht => reads_pure ht _⟩
  | wchar x hx =>
    refine ⟨_, rfl, fun s w hgiop hat hput => ?_⟩
    rw [Label.put, ← hgiop] at hput ⊢
    refine (reads_readWchar hat hn 0 hx (fun h12 => hd (hgiop ▸ h12)) hput).bind
      fun t _ ht => reads_pure ht _
  | boolean b =>
    exact ⟨_, rfl, fun s w _ hat hput =>
      (reads_readBoolean hat hput).bind fun t _ ht => reads_pure ht _⟩
  | longlong x => exact hd.elim
  | ulonglong x => exact hd.elim

/-- **The loop finds the first member with the label**, and if there is none it has found the
default member. -/
theorem findMember_eq {defaultIndex : Option ℕ} {d : Label} (cases : List (Label × R)) (i : ℕ)
    (dm : Option R) (h : ∀ c ∈ cases.zipIdx i, defaultIndex ≠ some c.2 → c.1.1 ≠ .octet 0) :
    ∃ dm', findMember defaultIndex d cases i dm = .ok
        (((cases.zipIdx i).find? fun c => c.1.1 = d ∧ defaultIndex ≠ some c.2).map
          fun c => c.1.2, dm') ∧
      (((cases.zipIdx i).find? fun c => c.1.1 = d ∧ defaultIndex ≠ some c.2) = none →
        dm' = (defaultIndex.bind fun j =>
          if i ≤ j then (cases[j - i]?).map Prod.snd else none).or dm) := by
  induction cases generalizing i dm with
  | nil =>
    refine ⟨dm, rfl, fun _ => ?_⟩
    rcases defaultIndex with _ | j
    · rfl
    · rw [Option.bind_some, List.getElem?_nil, Option.map_none, ite_self, Option.none_or]
  | cons c cases ih =>
    rw [List.zipIdx_cons] at h ⊢
    have hrest (p) (hp : p ∈ cases.zipIdx (i + 1)) := h p (List.mem_cons_of_mem _ hp)
    by_cases hdefault : defaultIndex = some i
    · obtain ⟨dm', heq, hnone⟩ := ih (i + 1) (some c.2) hrest
      have hskip : ¬(c.1 = d ∧ defaultIndex ≠ some i) := fun hc => hc.2 hdefault
      refine ⟨dm', ?_, ?_⟩
      · rw [findMember, memberLabel, if_pos hdefault, if_pos rfl, if_neg (not_not_intro hdefault),
          heq, List.find?_cons_of_neg (by simpa using hskip)]
      · rw [List.find?_cons_of_neg (by simpa using hskip)]
        intro hfind
        rw [hnone hfind, hdefault, Option.bind_some, Option.bind_some, if_neg (by omega),
          if_pos le_rfl, Nat.sub_self, Option.none_or]
        rfl
    · have hlabel := h (c, i) (List.mem_cons_self ..) hdefault
      have hfind (hc : c.1 ≠ d) : ((c, i) :: cases.zipIdx (i + 1)).find?
          (fun c => decide (c.1.1 = d ∧ defaultIndex ≠ some c.2)) =
          (cases.zipIdx (i + 1)).find? fun c => decide (c.1.1 = d ∧ defaultIndex ≠ some c.2) :=
        List.find?_cons_of_neg (by simpa using fun hd => absurd hd hc)
      by_cases hc : c.1 = d
      · have hfirst : ((c, i) :: cases.zipIdx (i + 1)).find?
            (fun c => decide (c.1.1 = d ∧ defaultIndex ≠ some c.2)) = some (c, i) :=
          List.find?_cons_of_pos (by simpa using ⟨hc, hdefault⟩)
        refine ⟨dm, ?_, fun hnone => ?_⟩
        · rw [findMember, memberLabel, if_neg hdefault, if_neg hlabel, if_pos hc, hfirst]
          rfl
        · rw [hfirst] at hnone
          cases hnone
      · obtain ⟨dm', heq, hnone⟩ := ih (i + 1) dm hrest
        refine ⟨dm', ?_, fun hn => ?_⟩
        · rw [findMember, memberLabel, if_neg hdefault, if_neg hlabel, if_neg hc, heq, hfind hc]
        · rw [hfind hc] at hn
          rw [hnone hn]
          rcases defaultIndex with _ | j
          · rfl
          · have hne : j ≠ i := fun hji => hdefault (congrArg some hji)
            rw [Option.bind_some, Option.bind_some]
            by_cases hle : i ≤ j
            · obtain ⟨k, rfl⟩ : ∃ k, j = i + 1 + k := ⟨j - (i + 1), by omega⟩
              rw [if_pos (by omega), if_pos hle, show i + 1 + k - i = k + 1 by omega,
                Nat.add_sub_cancel_left, List.getElem?_cons_succ]
            · rw [if_neg (by omega), if_neg hle]

theorem findMember_selected {cases : List (Label × R)} {defaultIndex : Option ℕ} {d : Label}
    (h : ∀ c ∈ cases.zipIdx, defaultIndex ≠ some c.2 → c.1.1 ≠ .octet 0) :
    ∃ m dm, findMember defaultIndex d cases 0 none = .ok (m, dm) ∧
      m.or dm = selected cases defaultIndex d := by
  obtain ⟨dm, heq, hnone⟩ := @findMember_eq _ defaultIndex d cases 0 none h
  refine ⟨_, dm, heq, ?_⟩
  rw [selected]
  rcases hfind : cases.zipIdx.find? fun c => c.1.1 = d ∧ defaultIndex ≠ some c.2 with _ | c
  · rw [hfind, Option.map_none, Option.none_or, hnone hfind, Option.or_none]
    simp only [Nat.zero_le, if_true, Nat.sub_zero]
  · rw [hfind]
    rfl

theorem TypeCode.Labels.ne_octet {n : ℕ} {tc : TypeCode R} {l : Label} (h : tc.Labels n l) :
    l ≠ .octet 0 := by
  rintro rfl
  cases h

theorem Discriminates.ne_octet {r : R} {l : Label} (h : Discriminates G e r l) :
    l ≠ .octet 0 := by
  induction h with
  | label h => exact h.ne_octet
  | aliased _ _ ih => exact ih

/-- **A union is traversed** if its member is. -/
theorem traverses_union (hn : IsWidth e.wcharMaxbytes) {discriminator : TypeCode R}
    {cases : List (Label × R)} {defaultIndex : Option ℕ} {d : Label} {v : Value R}
    {skip : R → Skipper TraverseStatus} (hd : discriminator.Labels e.wcharMaxbytes d)
    (hread : d.Readable e)
    (hlabels : ∀ c ∈ cases.zipIdx, defaultIndex ≠ some c.2 → c.1.1 ≠ .octet 0)
    (hmember : (selected cases defaultIndex d).elim (v = .null) fun r => Traverses e (skip r) v) :
    Traverses e (MarshalUnion.skip e.wcharMaxbytes skip discriminator cases defaultIndex)
      (.union d v) := by
  intro s w hgiop h hput
  obtain ⟨read, hop, hreads⟩ := reads_discriminator hn hd hread
  obtain ⟨m, dm, hfind, hsel⟩ := @findMember_selected _ cases defaultIndex d hlabels
  rw [MarshalUnion.skip, hop]
  have hd' := hreads s w hgiop h (hput.mono (v.prefix_put _))
  refine (consumes_attempt hd').bind fun t hsame ht => ?_
  have hgiop' : t.giop12 = e.giop12 := hsame.giop12.trans hgiop
  have hput' := hsame.agrees hput
  dsimp only
  rw [hfind]
  rw [← hsel] at hmember
  rcases m with _ | m
  · rcases dm with _ | dm
    · rw [Option.none_or, Option.elim_none] at hmember
      subst hmember
      exact consumes_pure ht _
    · exact hmember t _ hgiop' ht hput'
  · exact hmember t _ hgiop' ht hput'

/-! ### Parts one after the other -/

/-- **A loop traverses values** of which each step traverses one. -/
theorem consumes_traverse {ms : List (Skipper TraverseStatus)} {vs : List (Value R)}
    (h : List.Forall₂ (Traverses e) ms vs) {s : InputCDR} {w : Wire} (hgiop : s.giop12 = e.giop12)
    (hat : At e.doByteSwap s w) (hput : Agrees s (Value.putAll e vs w)) :
    Consumes e.doByteSwap (traverse ms) .traverseContinue s (Value.putAll e vs w) := by
  induction h generalizing s w with
  | nil => exact consumes_pure hat _
  | @cons m v ms vs hm _ ih =>
    have hfirst := hm s w hgiop hat (hput.mono (Value.prefix_putAll vs _))
    refine hfirst.bind fun t hsame ht => ?_
    exact ih (hsame.giop12.trans hgiop) ht (hsame.agrees hput)

/-- The values of the elements that are skipped all at once are words or octets. -/
theorem elementSize_of_scalar {tc : TypeCode R} {x : Scalar} (h : tc.scalar = some x) :
    tc.elementSize = some (x.size, x.align) := by
  cases tc <;> cases h <;> rfl

theorem Scalar.align_dvd (x : Scalar) : x.align ∣ x.size := by
  cases x <;> decide

/-- An element that is skipped with the others has bytes behind its padding. -/
theorem exists_put_element {tc : TypeCode R} {v : Value R} {size align : ℕ}
    (h : tc.Describes e v) (hsize : tc.elementSize = some (size, align))
    (hwchar : tc = .wchar → e.giop12 = false ∧ e.wcharMaxbytes = 2) :
    IsAlign align ∧ align ∣ size ∧
      ∃ bytes : List UInt8, bytes.length = size ∧ ∀ w, v.put e w = put align bytes w := by
  cases h with
  | scalar h v =>
    rw [elementSize_of_scalar h] at hsize
    cases hsize
    exact ⟨Scalar.isAlign _, Scalar.align_dvd _, _, length_wireImage .., fun _ => rfl⟩
  | boolean b =>
    cases hsize
    exact ⟨isAlign_one, dvd_rfl, _, length_leBytes 1 _, fun _ => rfl⟩
  | char c =>
    cases hsize
    exact ⟨isAlign_one, dvd_rfl, _, length_leBytes 1 _, fun _ => rfl⟩
  | wchar x hx =>
    cases hsize
    obtain ⟨hgiop, htwo⟩ := hwchar rfl
    refine ⟨isAlign_two, dvd_rfl, wireImage 2 e.doByteSwap (narrow 2 x), length_wireImage ..,
      fun w => ?_⟩
    rw [Value.put, hgiop, htwo, putWchar, if_neg Bool.false_ne_true]
  | _ => cases hsize

/-- **Elements without padding between them** are put as their bytes one after the other. -/
theorem exists_put_elements {size align : ℕ} (ha : IsAlign align) (hdvd : align ∣ size)
    (vs : List (Value R)) (hne : vs ≠ [])
    (h : ∀ v ∈ vs, ∃ bytes : List UInt8, bytes.length = size ∧ ∀ w, v.put e w = put align bytes w)
    (w : Wire) : ∃ bytes : List UInt8, bytes.length = size * vs.length ∧
      Value.putAll e vs w = put align bytes w := by
  induction vs generalizing w with
  | nil => exact absurd rfl hne
  | cons v vs ih =>
    obtain ⟨bytes, hlen, hput⟩ := h v (List.mem_cons_self ..)
    rw [Value.putAll, hput]
    rcases eq_or_ne vs [] with rfl | hrest
    · refine ⟨bytes, ?_, rfl⟩
      rw [List.length_singleton, Nat.mul_one, hlen]
    · obtain ⟨more, hlen', hput'⟩ := ih hrest (fun u hu => h u (List.mem_cons_of_mem _ hu))
        (put align bytes w)
      refine ⟨bytes ++ more, ?_, ?_⟩
      · rw [List.length_append, hlen, hlen', List.length_cons]
        rw [Nat.mul_succ, Nat.add_comm]
      · rw [hput', put_put ha.pos (dvd_length_put ha.pos (hlen ▸ hdvd))]

/-- **The elements of a sequence or an array are traversed.** -/
theorem traverses_elements {content : TypeCode R} {bounds : ULong} {vs : List (Value R)}
    {skip : Skipper TraverseStatus} (hlen : vs.length = bounds.toNat)
    (hne : vs ≠ [] ∨ content.elementSize = none)
    (hwchar : content = .wchar → e.giop12 = false ∧ e.wcharMaxbytes = 2)
    (hvs : content.elementSize ≠ none → ∀ v ∈ vs, content.Describes e v)
    (hskip : ∀ v ∈ vs, Traverses e skip v) :
    Traverses e (skipElements skip content bounds) (.array vs) := by
  intro s w hgiop h hput
  rw [Value.put] at hput ⊢
  rw [skipElements]
  rcases hsize : content.elementSize with _ | ⟨size, align⟩
  · refine Consumes.mustContinue (consumes_traverse ?_ hgiop h hput)
    rw [← hlen, List.forall₂_iff_get]
    refine ⟨List.length_replicate, fun i h₁ h₂ => ?_⟩
    rw [List.get_eq_getElem, List.getElem_replicate]
    exact hskip _ (List.get_mem ..)
  · rw [hsize] at hne hvs
    have hdescribes := hvs (by simp)
    have hne' := hne.resolve_right (by simp)
    obtain ⟨v, hv⟩ := List.exists_mem_of_ne_nil vs hne'
    obtain ⟨ha, hdvd, -⟩ := exists_put_element (hdescribes v hv) hsize hwchar
    obtain ⟨bytes, hbytes, heq⟩ := exists_put_elements ha hdvd vs hne'
      (fun u hu => (exists_put_element (hdescribes u hu) hsize hwchar).2.2) w
    rw [heq] at hput ⊢
    have hpadding : Agrees s (put align [] w) := by
      refine hput.mono ⟨bytes.map some, ?_⟩
      rw [put, put, List.map_nil, List.append_nil]
    refine (consumes_attempt (reads_adjust_zero h ha hpadding)).bind fun t hsame ht => ?_
    have hread := reads_skipPadded ht ha.pos (hsame.agrees hput)
    rw [hbytes, hlen] at hread
    exact consumes_continueBehind hread

/-! ### Values of a type -/

/-- **A part of a value that is skipped.** Wide characters do not have one byte in GIOP 1.1, a
string does not have the length that announces an indirection, no TypeCode is one of a fixed point
type, the type of a discriminator has an operation that reads it, and wide characters that are
skipped all at once have two bytes and no lengths of their own. -/
def Skippable (G : R → TypeCode R) (e : Encoding R) (r : R) : Value R → Prop
  | .wchar _ | .wstring _ => e.giop12 = false → e.wcharMaxbytes ≠ 1
  | .string cs => cs.length + 1 ≠ 2 ^ 32 - 1
  | .typeCode tc => tc.kind ≠ .fixed
  | .objref typeId _ => typeId.length + 1 ≠ 2 ^ 32 - 1
  | .except id _ => id.length + 1 ≠ 2 ^ 32 - 1
  | .union d _ => ∀ discriminator cases defaultIndex,
    G r = .union discriminator cases defaultIndex →
      (G discriminator).Labels e.wcharMaxbytes d ∧ d.Readable e
  | .sequence vs => ∀ content, G r = .sequence content → vs ≠ [] → G content = .wchar →
    e.giop12 = false ∧ e.wcharMaxbytes = 2
  | .array vs => ∀ content length, G r = .array content length →
    (vs ≠ [] ∨ (G content).elementSize = none) ∧
      (G content = .wchar → e.giop12 = false ∧ e.wcharMaxbytes = 2)
  | _ => True

section Typed

variable {r : R} {v : Value R} {Q : R → Value R → Prop}

/-- The elements that are skipped all at once have no parts. -/
theorem HasType.describes (h : HasType G e extract Q r v) (hsize : (G r).elementSize ≠ none) :
    (G r).Describes e v := by
  cases h with
  | leaf h _ => exact h
  | any h | struct h | except h | union h | implicitDefault h | sequence h | array h | aliased h =>
    rw [h] at hsize
    exact absurd rfl hsize

theorem performSkip_scalar (n fuel : ℕ) {tc : TypeCode R} {x : Scalar} (h : tc.scalar = some x)
    (hr : G r = tc) :
    MarshalObject.performSkip G extract n (fuel + 1) r = MarshalPrimitive.skip n tc := by
  rw [MarshalObject.performSkip, hr]
  cases tc <;> first | rfl | cases h

/-- **A value without parts is traversed.** -/
theorem traverses_leaf (hn : IsWidth e.wcharMaxbytes) (h : (G r).Describes e v)
    (q : Skippable G e r v) (fuel : ℕ) :
    Traverses e (MarshalObject.performSkip G extract e.wcharMaxbytes (fuel + 1) r) v := by
  obtain ⟨tc, hr⟩ : ∃ tc, G r = tc := ⟨_, rfl⟩
  rw [hr] at h
  cases h with
  | scalar h v =>
    rw [performSkip_scalar _ fuel h hr]
    exact traverses_scalar _ h v
  | null =>
    rw [MarshalObject.performSkip, hr]
    exact fun s w _ h _ => consumes_pure h _
  | void =>
    rw [MarshalObject.performSkip, hr]
    exact fun s w _ h _ => consumes_pure h _
  | boolean b =>
    rw [MarshalObject.performSkip, hr]
    exact fun s w _ h hput => consumes_continueBehind (reads_skipBoolean h hput)
  | char c =>
    rw [MarshalObject.performSkip, hr]
    exact fun s w _ h hput => consumes_continueBehind (reads_discard (reads_read1 h hput))
  | enum x =>
    rw [MarshalObject.performSkip, hr]
    exact fun s w _ h hput => consumes_continueBehind (reads_discard (reads_putUlong h hput))
  | fixed digits octets hlen =>
    rw [MarshalObject.performSkip, hr]
    intro s w _ h hput
    have hskip := reads_skipOctets h hput
    rw [hlen] at hskip
    exact consumes_continueBehind hskip
  | wchar x hx =>
    rw [MarshalObject.performSkip, hr]
    intro s w hgiop h hput
    rw [Value.put, ← hgiop] at hput ⊢
    exact consumes_continueBehind (reads_skipWchar h hn (fun h11 => q (hgiop ▸ h11)) hput)
  | wstring cs hx hcount =>
    rw [MarshalObject.performSkip, hr]
    exact fun s w hgiop h hput =>
      consumes_continueBehind (reads_skipWstring h hgiop hn q hcount hput)
  | string cs hlen =>
    have hlt : cs.length + 1 < 2 ^ 32 - 1 := lt_of_le_of_ne (Nat.le_pred_of_lt hlen) q
    rw [MarshalObject.performSkip, hr]
    exact fun s w _ h hput => consumes_continueBehind (reads_skipString h hlt hput)
  | typeCode tc =>
    rw [MarshalObject.performSkip, hr]
    exact traverses_typeCode q
  | principal octets hlen =>
    rw [MarshalObject.performSkip, hr]
    exact traverses_principal hlen
  | objref typeId profiles hid hlen hps =>
    rw [MarshalObject.performSkip, hr]
    exact traverses_objref (lt_of_le_of_ne (Nat.le_pred_of_lt hid) q) hlen hps

/-- The steps for the members of a structure. -/
theorem forall₂_traverses {types : List R} {vs : List (Value R)} {skip : R → Skipper TraverseStatus}
    (hlen : types.length = vs.length)
    (h : ∀ i h₁ h₂, Traverses e (skip (types.get ⟨i, h₁⟩)) (vs.get ⟨i, h₂⟩)) :
    List.Forall₂ (Traverses e) (types.map skip) vs := by
  rw [List.forall₂_map_left_iff, List.forall₂_iff_get]
  exact ⟨hlen, h⟩

/-- What holds of every member for all fuel from some amount on holds for all members at once. -/
theorem eventually_members {types : List R} {vs : List (Value R)} {p : ℕ → R → Value R → Prop}
    (h : ∀ i h₁ h₂, ∀ᶠ fuel in Filter.atTop, p fuel (types.get ⟨i, h₁⟩) (vs.get ⟨i, h₂⟩)) :
    ∀ᶠ fuel in Filter.atTop, ∀ i h₁ h₂, p fuel (types.get ⟨i, h₁⟩) (vs.get ⟨i, h₂⟩) := by
  have hall : ∀ᶠ fuel in Filter.atTop, ∀ i : Fin types.length, ∀ h₂,
      p fuel (types.get i) (vs.get ⟨i, h₂⟩) := by
    rw [Filter.eventually_all]
    intro i
    by_cases h₂ : i < vs.length
    · exact (h i i.isLt h₂).mono fun _ hp _ => hp
    · exact Filter.Eventually.of_forall fun _ h₂' => absurd h₂' h₂
  exact hall.mono fun fuel hp i h₁ h₂ => hp ⟨i, h₁⟩ h₂

/-- **Every value of a type is traversed**, if all its parts are skippable. -/
theorem traverses_of_hasType (hn : IsWidth e.wcharMaxbytes)
    (h : HasType G e extract (Skippable G e) r v) : ∀ᶠ fuel in Filter.atTop,
      Traverses e (MarshalObject.performSkip G extract e.wcharMaxbytes fuel r) v := by
  induction h with
  | leaf h q =>
    refine eventually_succ (p := fun _ => True) (Filter.Eventually.of_forall fun _ => trivial) ?_
    exact fun fuel _ => traverses_leaf hn h q fuel
  | any h htc _ _ ih =>
    refine eventually_succ ih fun fuel hskip s w hgiop hat hput => ?_
    rw [MarshalObject.performSkip, h]
    have htc' := htc s w hgiop hat (hput.mono (Value.prefix_put _ _))
    refine (consumes_attempt htc').bind fun t hsame ht => ?_
    exact hskip t _ (hsame.giop12.trans hgiop) ht (hsame.agrees hput)
  | struct h hlen _ _ ih =>
    refine eventually_succ (eventually_members (p := fun fuel r v => Traverses e
      (MarshalObject.performSkip G extract e.wcharMaxbytes fuel r) v) ih) fun fuel hskip => ?_
    rw [MarshalObject.performSkip, h]
    exact fun s w hgiop hat hput =>
      Consumes.mustContinue (consumes_traverse (forall₂_traverses hlen hskip) hgiop hat hput)
  | except h hid hlen _ q ih =>
    refine eventually_succ (eventually_members (p := fun fuel r v => Traverses e
      (MarshalObject.performSkip G extract e.wcharMaxbytes fuel r) v) ih) fun fuel hskip => ?_
    rw [MarshalObject.performSkip, h]
    intro s w hgiop hat hput
    have hid' := reads_skipString hat (lt_of_le_of_ne (Nat.le_pred_of_lt hid) q)
      (hput.mono (Value.prefix_putAll _ _))
    refine (consumes_attempt hid').bind fun t hsame ht => ?_
    exact Consumes.mustContinue (consumes_traverse (forall₂_traverses hlen hskip)
      (hsame.giop12.trans hgiop) ht (hsame.agrees hput))
  | union h hlabels hd hmember _ q ih =>
    refine eventually_succ ih fun fuel hskip => ?_
    rw [MarshalObject.performSkip, h]
    obtain ⟨hlabel, hread⟩ := q _ _ _ h
    refine traverses_union hn hlabel hread (fun c hc hne => (hlabels c hc hne).ne_octet) ?_
    rw [hmember]
    exact hskip
  | implicitDefault h hlabels hd hmember q =>
    refine eventually_succ (p := fun _ => True) (Filter.Eventually.of_forall fun _ => trivial) ?_
    intro fuel _
    rw [MarshalObject.performSkip, h]
    obtain ⟨hlabel, hread⟩ := q _ _ _ h
    refine traverses_union hn hlabel hread (fun c hc hne => (hlabels c hc hne).ne_octet) ?_
    rw [hmember]
    rfl
  | sequence h hlen hvs q ih =>
    have hall := (Filter.eventually_all_finite (List.finite_toSet _)).mpr ih
    refine eventually_succ hall fun fuel hskip => ?_
    rw [MarshalObject.performSkip, h]
    intro s w hgiop hat hput
    have hcount := consumes_orMarshal (reads_putUlong hat (hput.mono (Value.prefix_putAll _ _)))
    refine hcount.bind fun t hsame ht => ?_
    rename_i content vs
    by_cases hnil : vs = []
    · subst hnil
      rw [if_pos (by rfl)]
      exact consumes_pure ht _
    · have hpos : BitVec.ofNat 32 vs.length ≠ 0 := by
        intro hzero
        have hnat := congrArg BitVec.toNat hzero
        rw [toNat_ofNat_of_lt hlen] at hnat
        exact hnil (List.eq_nil_of_length_eq_zero hnat)
      rw [if_neg hpos]
      exact traverses_elements (toNat_ofNat_of_lt hlen).symm (Or.inl hnil)
        (q content h hnil) (fun hsize u hu => (hvs u hu).describes hsize) hskip t _
        (hsame.giop12.trans hgiop) ht (hsame.agrees hput)
  | array h hlen hvs q ih =>
    have hall := (Filter.eventually_all_finite (List.finite_toSet _)).mpr ih
    refine eventually_succ hall fun fuel hskip => ?_
    rw [MarshalObject.performSkip, h]
    obtain ⟨hne, hwchar⟩ := q _ _ h
    exact traverses_elements hlen hne hwchar
      (fun hsize u hu => (hvs u hu).describes hsize) hskip
  | aliased h _ ih =>
    refine eventually_succ ih fun fuel hskip => ?_
    rw [MarshalObject.performSkip, h]
    exact fun s w hgiop hat hput => Consumes.mustContinue (hskip s w hgiop hat hput)

end Typed

end AceTao.Marshal
