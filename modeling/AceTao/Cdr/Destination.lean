import AceTao.Cdr.Bounds
import AceTao.Cdr.WideRoundTrip

/-!
# Where wide characters are stored

`read_wchar` stores into its argument, or first into a `Short` or an `Octet`; `read_wstring` stores
into an array that it allocates. Here every store is checked against the room in its destination,
and has no answer when there is too little. A byte of the argument is assigned or not; a byte that
is computed from one that nothing was assigned to counts as not assigned.

In GIOP 1.2 the number of bytes is an octet from the wire. The operations store in their
destinations, and assign every byte of the argument, exactly when the octet is one that the
destination of the configuration is for (`storesFit_iff`).
-/

namespace AceTao.Cdr

open Program ByteImage AlignUp

namespace InputCDR

variable (c : Codeset)

/-- **A store** to a destination with room for so many elements. -/
def store {α : Type} (room : ℕ) (xs : List α) : Reader (List α) :=
  if xs.length ≤ room then pure xs else Program.undefined

/-- `read_array`, with a destination of so many bytes. -/
def readArrayInto (room size align length : ℕ) : Reader (List UInt8) :=
  if length = 0 then pure []
  else do
    let buf ← adjust (size * length % 2 ^ 64) align
    let s ← Program.get
    let bytes ← load buf (size * length % 2 ^ 64)
    if !s.doByteSwap || size = 1 then do
      let x ← store room bytes
      returnGoodBit x
    else if size = 2 ∨ size = 4 ∨ size = 8 ∨ size = 16 then do
      let x ← store room (swapArray size length bytes)
      returnGoodBit x
    else fail .content

/-- A variable of so many bytes, the first of which have been assigned. -/
def variableBytes (size : ℕ) (bytes : List UInt8) : List (Option UInt8) :=
  bytes.map some ++ List.replicate (size - bytes.length) none

/-- **`read_wchar`**, with the bytes of its argument. -/
def readWcharInto : Reader (List (Option UInt8)) :=
  match c.wcharTranslator with
  | some t => assignGoodBit do
    let x ← t.readWchar
    pure (variableBytes 4 (image 4 x))
  | none => do
    let s ← Program.get
    if c.wcharMaxbytes = 0 then fail .unsupported
    else if c.wcharMaxbytes = 4 then
      if s.giop12 then do
        let len ← orFail read1
        let bytes ← readArrayInto 4 len.toNat 1 1
        pure (variableBytes 4 bytes)
      else do
        let x ← read4
        pure (variableBytes 4 (image 4 x))
    else if s.giop12 then orFail do
      let len ← read1
      if len = 2 then do
        let bytes ← readArrayInto 2 len.toNat 1 1
        let sx : UShort := ofImage 2 bytes
        pure (variableBytes 4 (image 4 (sx.signExtend 32)))
      else do
        let ox ← readArrayInto 1 len.toNat 1 1
        -- the low byte of the argument is that of the octet
        pure (variableBytes 1 ox ++ [some 0, some 0, some 0])
    else if c.wcharMaxbytes = 2 then orFail do
      let sx ← read2
      pure (variableBytes 4 (image 4 (sx.setWidth 32)))
    else orFail do
      let ox ← read1
      pure (variableBytes 4 (image 4 (ox.setWidth 32)))

/-- `read_wchar_array_i`, with an array of so many wide characters. -/
def readWcharArrayIInto (room : ℕ) (length : ULong) : Reader (List WChar) :=
  if length = 0 then pure []
  else do
    let align := if c.wcharMaxbytes = 2 then 2 else 1
    let buf ← adjust (c.wcharMaxbytes * length.toNat % 2 ^ 64) align
    let s ← Program.get
    if c.wcharMaxbytes = 2 then do
      let bytes ← load buf (2 * length.toNat)
      let sb := if s.doByteSwap then swapArray 2 length.toNat bytes else bytes
      let x ← store room ((ofArrayImage 2 length.toNat sb).map fun x => x.setWidth 32)
      returnGoodBit x
    else do
      let bytes ← load buf length.toNat
      let x ← store room ((ofArrayImage 1 length.toNat bytes).map fun x => x.setWidth 32)
      returnGoodBit x

/-- `read_wchar_array`, with an array of so many wide characters. -/
def readWcharArrayInto (room : ℕ) (length : ULong) : Reader (List WChar) := do
  let s ← Program.get
  if length.toNat * c.wcharMaxbytes % 2 ^ 64 > s.length then fail .bounds
  else
    match c.wcharTranslator with
    | some t => do
      let x ← t.readWcharArray length
      store room x
    | none =>
      if c.wcharMaxbytes ≠ 4 then readWcharArrayIInto c room length
      else do
        let bytes ← readArrayInto (4 * room) 4 4 length.toNat
        pure (ofArrayImage 4 length.toNat bytes)

/-- **`read_wstring`**, with the array that it allocates: in GIOP 1.2 one of `len + 1` wide
characters, a number of type `ULong`. -/
def readWstringInto : Reader (List WChar) :=
  match c.wcharTranslator with
  | some t => assignGoodBit t.readWstring
  | none =>
    if c.wcharMaxbytes = 0 then fail .unsupported
    else do
      let len ← readUlong
      let s ← Program.get
      if 0 < len.toNat ∧ len.toNat ≤ s.length then
        if s.giop12 then do
          let len := len / truncateCast c.wcharMaxbytes
          let room := (len + 1).toNat
          let x ← orFail (readWcharArrayInto c room len)
          store room (x ++ [0])
        else orFail (readWcharArrayInto c len.toNat len)
      else if len = 0 then store 1 [0]
      else fail .bounds

/-! ### The operations without checks -/

/-- Whenever the checked operation has an answer, the other one has the same. -/
def Checks {α : Type} (m m' : Reader α) : Prop := ∀ s p, m s = some p → m' s = some p

section Checks

variable {α β : Type} {m m' : Reader α} {f f' : α → Reader β}

theorem Checks.refl (m : Reader α) : Checks m m := fun _ _ h => h

theorem Checks.bind (hm : Checks m m') (hf : ∀ a, Checks (f a) (f' a)) :
    Checks (m >>= f) (m' >>= f') := by
  rintro s ⟨r, t⟩ h
  rcases bind_eq_some.mp h with ⟨e, rfl, he⟩ | ⟨a, u, ha, hr⟩
  · exact bind_eq_some.mpr (Or.inl ⟨e, rfl, hm s _ he⟩)
  · exact bind_eq_some.mpr (Or.inr ⟨a, u, hm s _ ha, hf a u _ hr⟩)

theorem Checks.ite {p : Prop} [Decidable p] {n n' : Reader α} (hm : Checks m m')
    (hn : Checks n n') : Checks (if p then m else n) (if p then m' else n') := by
  split_ifs
  · exact hm
  · exact hn

theorem Checks.orFail (hm : Checks m m') : Checks (orFail m) (orFail m') := by
  rintro s ⟨r, t⟩ h
  rcases handle_eq_some.mp h with ⟨a, rfl, ha⟩ | ⟨e, u, he, hr⟩
  · exact handle_eq_some.mpr (Or.inl ⟨a, rfl, hm s _ ha⟩)
  · exact handle_eq_some.mpr (Or.inr ⟨e, u, hm s _ he, hr⟩)

/-- A store passes on what it stores. -/
theorem checks_store (room : ℕ) (xs : List α) : Checks (store room xs) (pure xs) := by
  intro s p h
  rw [store, ite_run] at h
  split_ifs at h
  · exact h
  · cases h

theorem checks_store_bind (room : ℕ) (xs : List α) (g : List α → Reader β) :
    Checks (store room xs >>= g) (g xs) := by
  rintro s ⟨r, t⟩ h
  rcases bind_eq_some.mp h with ⟨e, -, he⟩ | ⟨a, u, ha, hr⟩
  · cases checks_store room xs s _ he
  · cases checks_store room xs s _ ha
    exact hr

end Checks

theorem checks_readArrayInto (room size align length : ℕ) :
    Checks (readArrayInto room size align length) (readArray size align length) :=
  (Checks.refl _).ite ((Checks.refl _).bind fun _ => (Checks.refl _).bind fun _ =>
    (Checks.refl _).bind fun _ => (checks_store_bind _ _ _).ite
      ((checks_store_bind _ _ _).ite (Checks.refl _)))

theorem checks_readWcharArrayInto (n room : ℕ) (length : ULong) :
    Checks (readWcharArrayInto (.plain n) room length) (readWcharArray (.plain n) length) := by
  have hi : Checks (readWcharArrayIInto (.plain n) room length) (readWcharArrayI (.plain n) length) :=
    (Checks.refl _).ite ((Checks.refl _).bind fun _ => (Checks.refl _).bind fun _ =>
      ((Checks.refl _).bind fun _ => checks_store_bind _ _ _).ite
        ((Checks.refl _).bind fun _ => checks_store_bind _ _ _))
  exact (Checks.refl _).bind fun _ => (Checks.refl _).ite (hi.ite
    ((checks_readArrayInto _ _ _ _).bind fun _ => Checks.refl _))

/-- **The checked `read_wstring`** is `read_wstring`. -/
theorem checks_readWstringInto (n : ℕ) :
    Checks (readWstringInto (.plain n)) (readWstring (.plain n)) :=
  (Checks.refl _).ite ((Checks.refl _).bind fun _ => (Checks.refl _).bind fun _ =>
    (((checks_readWcharArrayInto _ _ _).orFail.bind fun _ => checks_store _ _).ite
      (checks_readWcharArrayInto _ _ _).orFail).ite ((checks_store _ _).ite (Checks.refl _)))

/-! ### Wide characters -/

/-- **`read_wchar` stores in its destinations**, and when it answers `true` it has assigned every byte
of its argument. -/
def StoresWchar (n : ℕ) (s : InputCDR) : Prop :=
  Ends (readWcharInto (.plain n)) (fun r _ => ∀ x, r = .ok x → x.length = 4 ∧ none ∉ x) s

/-- The octet that comes next. -/
def lengthOctet (s : InputCDR) : Octet := ofImage 1 (s.bytesAt s.rdPtr 1)

/-- An element of so many bytes **is copied** from an address: they are there, and a stream whose
bytes are swapped has a swap of that size. -/
def Copies (s : InputCDR) (addr len : ℕ) : Prop :=
  addr + len ≤ s.wrPtr ∧
    (s.doByteSwap = false ∨ len = 1 ∨ len = 2 ∨ len = 4 ∨ len = 8 ∨ len = 16)

instance (addr len : ℕ) (s : InputCDR) : Decidable (s.Copies addr len) :=
  inferInstanceAs (Decidable (_ ∧ _))

/-- **The octet fits the destination**: when so many bytes are copied, they are no more than the
destination has, and, unless the stream has failed before, they assign all of it. A wide character of
another size in the stream goes to a `Short` or to an `Octet`. -/
def OctetFits (n : ℕ) (s : InputCDR) : Prop :=
  n ≠ 0 → s.giop12 = true → s.rdPtr < s.wrPtr → s.Copies (s.rdPtr + 1) s.lengthOctet.toNat →
    if n = 4 then s.lengthOctet.toNat ≤ 4 ∧ (s.goodBit = true → s.lengthOctet.toNat = 4)
    else s.lengthOctet.toNat ≤ 2 ∧ (s.goodBit = true → s.lengthOctet.toNat ≠ 0)

section Ends

variable {α : Type} {m : Reader α} {Q : Except Failure α → InputCDR → Prop} {s t : InputCDR}
  {r : Except Failure α}

theorem ends_of_eq (h : m s = some (r, t)) : Ends m Q s ↔ Q r t := by
  constructor
  · rintro ⟨r', t', heq, hq⟩
    cases h.symm.trans heq
    exact hq
  · exact fun hq => ⟨r, t, h, hq⟩

theorem ends_bind_of_ok {β : Type} {a : β} {f : β → Reader α} {l : Reader β}
    (h : l s = some (.ok a, t)) : Ends (l >>= f) Q s ↔ Ends (f a) Q t := by
  rw [Ends, Ends, bind_of_ok h]

theorem not_ends_of_none (h : m s = none) : ¬Ends m Q s := by
  rintro ⟨r, t, heq, -⟩
  cases h.symm.trans heq

end Ends

variable {s t : InputCDR} {n room len : ℕ}

theorem store_eq {α : Type} (room : ℕ) (xs : List α) (s : InputCDR) :
    store room xs s = if xs.length ≤ room then some (.ok xs, s) else none := ite_run _ _

/-- What follows every copy. -/
theorem store_returnGoodBit_eq {α : Type} (room : ℕ) (xs : List α) (s : InputCDR) :
    (store room xs >>= returnGoodBit) s = if xs.length ≤ room
      then some (if s.goodBit then .ok xs else .error .earlier, s) else none := by
  rw [bind_apply, store_eq]
  split_ifs with hroom hgood
  · exact returnGoodBit_eq hgood xs
  · change returnGoodBit xs s = _
    rw [returnGoodBit, get_bind_apply, if_neg hgood, throw_apply]
  · rfl

/-- **A copy of one element** to a destination. -/
theorem readArrayInto_of_copies (h : InBounds s) (hlen : len ≤ 2 ^ 62) (room : ℕ)
    (hcopies : s.Copies s.rdPtr len) : ∃ bytes : List UInt8, bytes.length = len ∧
      readArrayInto room len 1 1 s =
        (store room bytes >>= returnGoodBit) (s.setRdPtr (s.rdPtr + len)) := by
  obtain ⟨hend, hsizes⟩ := hcopies
  have hmod : len * 1 % 2 ^ 64 = len := by omega
  have hadjust := adjust_eq h isAlign_one hlen
  rw [valueEnd, alignUp_one, if_pos hend] at hadjust
  have hbytes : (s.bytesAt s.rdPtr len).length = len := length_bytesAt h.ge hend
  have hload : load s.rdPtr len (s.setRdPtr (s.rdPtr + len)) =
      some (.ok (s.bytesAt s.rdPtr len), s.setRdPtr (s.rdPtr + len)) := load_eq h.ge hend
  rw [readArrayInto, hmod, if_neg Nat.one_ne_zero, bind_of_ok hadjust, get_bind_apply,
    bind_of_ok hload]
  by_cases hplain : (!s.doByteSwap || decide (len = 1)) = true
  · exact ⟨_, hbytes, congrFun (if_pos hplain) _⟩
  · rw [Bool.or_eq_true, not_or, decide_eq_true_iff] at hplain
    have hswap : (swapArray len 1 (s.bytesAt s.rdPtr len)).length = len := by
      rw [length_swapArray 1 (hbytes.trans (Nat.mul_one len).symm), Nat.mul_one]
    have hsize := (hsizes.resolve_left fun hfalse => hplain.1 (by rw [hfalse]; rfl)).resolve_left
      hplain.2
    refine ⟨_, hswap, ?_⟩
    rw [setRdPtr_doByteSwap, if_neg (by simpa using hplain), if_pos hsize]

/-- Nothing is copied. -/
theorem readArrayInto_of_not_copies (h : InBounds s) (hlen : len ≤ 2 ^ 62) (room : ℕ)
    (hcopies : ¬s.Copies s.rdPtr len) : ∃ e t, readArrayInto room len 1 1 s = some (.error e, t) := by
  have hmod : len * 1 % 2 ^ 64 = len := by omega
  have hadjust := adjust_eq h isAlign_one hlen
  rw [valueEnd, alignUp_one] at hadjust
  rw [readArrayInto, hmod, if_neg Nat.one_ne_zero]
  by_cases hend : s.rdPtr + len ≤ s.wrPtr
  · have hsizes := not_and.mp hcopies hend
    have hload : load s.rdPtr len (s.setRdPtr (s.rdPtr + len)) =
        some (.ok (s.bytesAt s.rdPtr len), s.setRdPtr (s.rdPtr + len)) := load_eq h.ge hend
    rw [not_or, not_or] at hsizes
    rw [if_pos hend] at hadjust
    rw [bind_of_ok hadjust, get_bind_apply, bind_of_ok hload, setRdPtr_doByteSwap,
      if_neg (by simp [hsizes.1, hsizes.2.1]), if_neg hsizes.2.2]
    exact ⟨_, _, rfl⟩
  · rw [if_neg hend] at hadjust
    exact ⟨_, _, bind_of_error hadjust⟩

section Wchar

variable {α : Type} {P : List (Option UInt8) → Prop} {m : Reader (List (Option UInt8))}

theorem ends_orFail_iff : Ends (orFail m) (fun r _ => ∀ x, r = .ok x → P x) s ↔
    Ends m (fun r _ => ∀ x, r = .ok x → P x) s := by
  rcases heq : m s with _ | ⟨e | x, t⟩
  · have hnone : orFail m s = none := by
      rw [orFail, handle, heq]
    exact ⟨fun h => absurd h (not_ends_of_none hnone), fun h => absurd h (not_ends_of_none heq)⟩
  · rw [ends_of_eq heq, ends_of_eq (orFail_of_error heq)]
  · rw [ends_of_eq heq, ends_of_eq (orFail_eq heq)]

/-- **A copy to a variable**: nothing is copied, or the bytes that are copied must fit. -/
theorem ends_copy_iff {p : Prop} (h : InBounds s) (hlen : len ≤ 2 ^ 62)
    {f : List UInt8 → List (Option UInt8)}
    (hP : len ≤ room → ∀ bytes : List UInt8, bytes.length = len → (P (f bytes) ↔ p)) :
    Ends (readArrayInto room len 1 1 >>= fun bytes => pure (f bytes))
      (fun r _ => ∀ x, r = .ok x → P x) s ↔
    (s.Copies s.rdPtr len → len ≤ room ∧ (s.goodBit = true → p)) := by
  by_cases hcopies : s.Copies s.rdPtr len
  · obtain ⟨bytes, hbytes, heq⟩ := readArrayInto_of_copies h hlen room hcopies
    rw [store_returnGoodBit_eq, hbytes, setRdPtr_goodBit] at heq
    by_cases hroom : len ≤ room
    · rw [if_pos hroom] at heq
      have hP := hP hroom bytes hbytes
      by_cases hgood : s.goodBit = true
      · rw [if_pos hgood] at heq
        rw [ends_of_eq (bind_of_ok heq)]
        constructor
        · exact fun hx _ => ⟨hroom, fun _ => hP.mp (hx _ rfl)⟩
        · rintro hp x ⟨⟩
          exact hP.mpr ((hp hcopies).2 hgood)
      · rw [if_neg hgood] at heq
        rw [ends_of_eq (bind_of_error heq)]
        exact iff_of_true (fun _ => nofun) fun _ => ⟨hroom, fun hg => absurd hg hgood⟩
    · rw [if_neg hroom] at heq
      exact iff_of_false (not_ends_of_none (bind_of_none heq)) fun hp => hroom (hp hcopies).1
  · obtain ⟨e, t, heq⟩ := readArrayInto_of_not_copies h hlen room hcopies
    rw [ends_of_eq (bind_of_error heq)]
    exact iff_of_true (fun _ => nofun) fun hc => absurd hc hcopies

theorem length_variableBytes {size : ℕ} {bytes : List UInt8} (h : bytes.length ≤ size) :
    (variableBytes size bytes).length = size := by
  rw [variableBytes, List.length_append, List.length_map, List.length_replicate]
  omega

/-- Every byte is assigned when there are enough. -/
theorem none_notMem_variableBytes {size : ℕ} {bytes : List UInt8} :
    none ∉ variableBytes size bytes ↔ size ≤ bytes.length := by
  rw [variableBytes, List.mem_append, List.mem_replicate, not_or]
  simp
  omega

/-- A variable of the size of a wide character is assigned by as many bytes. -/
theorem assigned_iff {bytes : List UInt8} (h : bytes.length ≤ 4) :
    (variableBytes 4 bytes).length = 4 ∧ none ∉ variableBytes 4 bytes ↔ bytes.length = 4 := by
  rw [none_notMem_variableBytes, length_variableBytes h]
  omega

/-- A wide character that an octet is converted to. -/
theorem widened_iff {bytes : List UInt8} (h : bytes.length ≤ 1) :
    (variableBytes 1 bytes ++ [some 0, some 0, some 0]).length = 4 ∧
      none ∉ variableBytes 1 bytes ++ [some 0, some 0, some 0] ↔ bytes.length = 1 := by
  rw [List.length_append, length_variableBytes h, List.mem_append, not_or, none_notMem_variableBytes]
  simp
  omega

/-- A variable that a word is assigned to. -/
theorem variableBytes_image (x : WChar) :
    (variableBytes 4 (image 4 x)).length = 4 ∧ none ∉ variableBytes 4 (image 4 x) :=
  ⟨length_variableBytes (@length_image 4 x).le, none_notMem_variableBytes.mpr (@length_image 4 x).ge⟩

/-- Words are read into variables of their size. -/
theorem ends_readWord {size align : ℕ} (h : InBounds s) (ha : IsAlign align) (hsize : size ≤ 2 ^ 62)
    (f : BitVec (8 * size) → WChar) :
    Ends (readWord size align >>= fun x => pure (variableBytes 4 (image 4 (f x))))
      (fun r _ => ∀ x, r = .ok x → x.length = 4 ∧ none ∉ x) s := by
  have heq := readWord_eq h ha hsize
  split_ifs at heq
  · rw [ends_of_eq (bind_of_ok heq)]
    rintro x ⟨⟩
    exact variableBytes_image _
  · rw [ends_of_eq (bind_of_error heq)]
    exact fun _ => nofun

/-- In other versions than GIOP 1.2 a word of the destination's size is read. -/
theorem storesWchar_of_not_giop12 (h : InBounds s) (n : ℕ) (hgiop : s.giop12 = false) :
    StoresWchar n s := by
  change Ends (if n = 0 then _ else if n = 4 then if s.giop12 then _ else _ else if s.giop12 then _
    else if n = 2 then _ else _) _ s
  rw [hgiop]
  split_ifs
  · exact (ends_of_eq rfl).mpr fun _ => nofun
  · cases ‹_›
  · exact @ends_readWord s 4 4 h isAlign_four (by norm_num) id
  · cases ‹_›
  · exact ends_orFail_iff.mpr (ends_readWord h isAlign_two (by norm_num) fun x => x.setWidth 32)
  · refine ends_orFail_iff.mpr ?_
    have hread := read1_eq h
    split_ifs at hread
    · rw [ends_of_eq (bind_of_ok hread)]
      rintro x ⟨⟩
      exact variableBytes_image _
    · rw [ends_of_eq (bind_of_error hread)]
      exact fun _ => nofun

/-- Without an octet nothing is stored. -/
theorem storesWchar_of_empty (h : InBounds s) (n : ℕ) (hlt : ¬s.rdPtr < s.wrPtr)
    (hgiop : s.giop12 = true) : StoresWchar n s := by
  have hread := read1_eq h
  rw [if_neg hlt] at hread
  change Ends (if n = 0 then _ else if n = 4 then if s.giop12 then _ else _ else if s.giop12 then _
    else if n = 2 then _ else _) _ s
  rw [hgiop, if_pos rfl, if_pos rfl]
  split_ifs
  · exact (ends_of_eq rfl).mpr fun _ => nofun
  · rw [ends_of_eq (bind_of_error (orFail_of_error hread))]
    exact fun _ => nofun
  · refine ends_orFail_iff.mpr ?_
    rw [ends_of_eq (bind_of_error hread)]
    exact fun _ => nofun

/-- **When `read_wchar` stores in its destinations.** -/
theorem storesWchar_iff (h : InBounds s) (n : ℕ) : StoresWchar n s ↔ OctetFits n s := by
  rcases hgiop : s.giop12 with _ | _
  · refine iff_of_true (storesWchar_of_not_giop12 h n hgiop) fun _ htrue => ?_
    rw [hgiop] at htrue
    cases htrue
  by_cases hlt : s.rdPtr < s.wrPtr
  · have hread : read1 s = some (.ok s.lengthOctet, s.setRdPtr (s.rdPtr + 1)) := by
      rw [read1_eq h, if_pos hlt]
      rfl
    have ht : InBounds (s.setRdPtr (s.rdPtr + 1)) := h.setRdPtr (Nat.le_succ _) hlt
    have hrd : (s.setRdPtr (s.rdPtr + 1)).rdPtr = s.rdPtr + 1 := setRdPtr_rdPtr_of_le hlt
    have hoctet : s.lengthOctet.toNat < 2 ^ 8 := s.lengthOctet.isLt
    have hsize : s.lengthOctet.toNat ≤ 2 ^ 62 := by omega
    have hsame : (s.setRdPtr (s.rdPtr + 1)).Copies (s.rdPtr + 1) s.lengthOctet.toNat ↔
        s.Copies (s.rdPtr + 1) s.lengthOctet.toNat := Iff.rfl
    rw [OctetFits]
    change Ends (if n = 0 then _ else if n = 4 then if s.giop12 then _ else _ else if s.giop12 then _
      else if n = 2 then _ else _) _ s ↔ _
    rw [hgiop, if_pos rfl, if_pos rfl]
    by_cases hzero : n = 0
    · rw [if_pos hzero]
      exact iff_of_true ((ends_of_eq rfl).mpr fun _ => nofun) fun hne => absurd hzero hne
    rw [if_neg hzero]
    by_cases hfour : n = 4
    · have hcopy := fun hle (bytes : List UInt8) (hbytes : bytes.length = s.lengthOctet.toNat) =>
        (assigned_iff (hbytes.trans_le hle)).trans (by rw [hbytes])
      rw [if_pos hfour, ends_bind_of_ok (orFail_eq hread), ends_copy_iff ht hsize hcopy, hrd, hsame,
        setRdPtr_goodBit, if_pos hfour]
      exact ⟨fun hfits _ _ _ => hfits, fun hfits => hfits hzero rfl hlt⟩
    · rw [if_neg hfour, ends_orFail_iff, ends_bind_of_ok hread, if_neg hfour]
      by_cases htwo : s.lengthOctet = 2
      · have hlen : s.lengthOctet.toNat = 2 := by rw [htwo]; rfl
        have hcopy := fun (_ : s.lengthOctet.toNat ≤ 2) (bytes : List UInt8)
            (_ : bytes.length = s.lengthOctet.toNat) =>
          iff_of_true (variableBytes_image ((ofImage 2 bytes).signExtend 32)) trivial
        rw [if_pos htwo, ends_copy_iff ht hsize hcopy]
        exact iff_of_true (fun _ => ⟨hlen.le, fun _ => trivial⟩)
          fun _ _ _ _ => ⟨hlen.le, fun _ h0 => absurd (hlen.symm.trans h0) (by decide)⟩
      · have hne : s.lengthOctet.toNat ≠ 2 := fun heq => htwo (BitVec.eq_of_toNat_eq heq)
        have hcopy := fun hle (bytes : List UInt8) (hbytes : bytes.length = s.lengthOctet.toNat) =>
          (widened_iff (hbytes.trans_le hle)).trans (by rw [hbytes])
        rw [if_neg htwo, ends_copy_iff ht hsize hcopy, hrd, hsame, setRdPtr_goodBit]
        refine ⟨fun hfits _ _ _ hc => ?_, fun hfits hc => ?_⟩
        · obtain ⟨hle, hgood⟩ := hfits hc
          exact ⟨by omega, fun hg => by rw [hgood hg]; exact one_ne_zero⟩
        · obtain ⟨hle, hgood⟩ := hfits hzero rfl hlt hc
          refine ⟨by omega, fun hg => ?_⟩
          have := hgood hg
          omega
  · exact iff_of_true (storesWchar_of_empty h n hlt hgiop) fun _ _ h => absurd h hlt

end Wchar

/-! ### Wide strings -/

/-- **`read_wstring` stores in the array that it allocates.** -/
def StoresWstring (n : ℕ) (s : InputCDR) : Prop := ∃ p, readWstringInto (.plain n) s = some p

/-- The length that comes next, of a wide string. -/
def nextLength (s : InputCDR) : ULong :=
  ofImage 4 (s.native (s.bytesAt (alignUp s.rdPtr 4) 4))

/-- **The length of the array does not wrap around**: a GIOP 1.2 string of `2 ^ 32 - 1` octets that are
wide characters needs one more for its terminator. -/
def LengthFits (n : ℕ) (s : InputCDR) : Prop :=
  n = 1 → s.giop12 = true → s.valueEnd 4 4 ≤ s.wrPtr → s.nextLength.toNat = 2 ^ 32 - 1 →
    s.wrPtr < s.valueEnd 4 4 + (2 ^ 32 - 1)

variable {E : ℕ → Prop}

theorem safeAt_store {α : Type} (h : InBounds s) {xs : List α} (hroom : xs.length ≤ room) :
    SafeAt (store room xs) s E :=
  safeAt_of_eq ((store_eq room xs s).trans (if_pos hroom)) nofun rfl rfl le_rfl h.le

theorem safeAt_store_bind {α : Type} (h : InBounds s) {xs : List α} (hroom : xs.length ≤ room) :
    SafeAt (store room xs >>= returnGoodBit) s E :=
  (safeAt_store h hroom).bind h fun _ _ _ ht => safeAt_returnGoodBit ht _

/-- **An array with room** for what is copied. -/
theorem safeAt_readArrayInto {size align length : ℕ} (h : InBounds s) (ha : IsAlign align)
    (hsize : size * length ≤ 2 ^ 62) (hroom : size * length ≤ room) :
    SafeAt (readArrayInto room size align length) s (· = s.rdPtr) := by
  have hmod : size * length % 2 ^ 64 = size * length := Nat.mod_eq_of_lt (by omega)
  refine safeAt_ite (fun _ => safeAt_pure h _) fun _ => ?_
  rw [hmod]
  refine safeAt_adjust_bind h ha hsize fun t ht hbase _ hend => safeAt_get_bind.mpr ?_
  have hge : t.base ≤ alignUp s.rdPtr align := hbase ▸ h.ge.trans (le_alignUp ha.pos _)
  refine (safeAt_load ht hge hend).bind ht fun bytes u hload hu => ?_
  have hlength : bytes.length = size * length := by
    cases (load_eq hge hend).symm.trans hload
    exact length_bytesAt hge hend
  exact safeAt_ite (fun _ => safeAt_store_bind hu (hlength.trans_le hroom)) fun _ =>
    safeAt_ite (fun _ => safeAt_store_bind hu (by rwa [length_swapArray _ hlength])) fun _ =>
      safeAt_fail hu nofun

/-- Bytes that are left are claimed, whatever their number. -/
theorem adjust_one_eq {size : ℕ} (h : InBounds s) (hsize : size ≤ s.length) :
    adjust size 1 s = some (.ok s.rdPtr, s.setRdPtr (s.rdPtr + size)) := by
  have hwr := s.wrPtr_le
  have hle := h.le
  rw [length_eq h] at hsize
  have hmod : (s.rdPtr + size) % 2 ^ 64 = s.rdPtr + size := Nat.mod_eq_of_lt (by omega)
  rw [adjust, get_bind_apply, alignBinary_eq isAlign_one (by omega), alignUp_one]
  rw [hmod, if_pos (by omega)]
  rfl

theorem adjust_plain_eq (h : InBounds s) {n k : ℕ} (hne : n ≠ 2) (hsize : n * k % 2 ^ 64 ≤ s.length) :
    adjust ((Codeset.plain n).wcharMaxbytes * k % 2 ^ 64)
      (if (Codeset.plain n).wcharMaxbytes = 2 then 2 else 1) s =
        some (.ok s.rdPtr, s.setRdPtr (s.rdPtr + n * k % 2 ^ 64)) := by
  have halign : (if (Codeset.plain n).wcharMaxbytes = 2 then 2 else 1) = 1 := if_neg hne
  rw [halign]
  exact adjust_one_eq h hsize

/-- **An array of shorter wide characters**, of any size in the stream. -/
theorem safeAt_readWcharArrayIInto (h : InBounds s) (n : ℕ) {length : ULong}
    (hcheck : n * length.toNat % 2 ^ 64 ≤ s.length) (hcount : length.toNat ≤ s.length)
    (hroom : length.toNat ≤ room) :
    SafeAt (readWcharArrayIInto (.plain n) room length) s (fun _ => True) := by
  have hlt := length.isLt
  refine safeAt_ite (fun _ => safeAt_pure h _) fun _ => ?_
  rcases eq_or_ne n 2 with rfl | hne
  · have hmod : 2 * length.toNat % 2 ^ 64 = 2 * length.toNat := Nat.mod_eq_of_lt (by omega)
    simp only [Codeset.plain, hmod, if_pos]
    refine (safeAt_adjust_bind h isAlign_two (by omega) fun t ht hbase _ hend =>
      safeAt_get_bind.mpr ?_).mono fun _ _ => trivial
    have hge : t.base ≤ alignUp s.rdPtr 2 := hbase ▸ h.ge.trans (le_alignUp isAlign_two.pos _)
    refine (safeAt_load ht hge hend).bind ht fun _ _ _ hu => safeAt_store_bind hu ?_
    rwa [List.length_map, length_ofArrayImage]
  · have hle := length_eq h
    have hrd := h.le
    have hadd : s.rdPtr + n * length.toNat % 2 ^ 64 ≤ s.wrPtr := by omega
    have hadjust := adjust_plain_eq h hne hcheck
    have hplace := setRdPtr_rdPtr_of_le hadd
    have hclaim : SafeAt (adjust _ _) s (fun _ => True) :=
      safeAt_of_eq hadjust (fun h => by cases h) rfl rfl (by omega) (by omega)
    refine hclaim.bind h fun buf t ht hin => safeAt_get_bind.mpr ?_
    cases hadjust.symm.trans ht
    have hend : s.rdPtr + length.toNat ≤ s.wrPtr := by omega
    refine safeAt_ite (fun htwo => absurd htwo hne) fun _ => ?_
    refine (safeAt_load hin h.ge hend).bind hin fun _ _ _ hu => safeAt_store_bind hu ?_
    rwa [List.length_map, length_ofArrayImage]

/-- **An array of wide characters** that the stream may hold. -/
theorem safeAt_readWcharArrayInto (h : InBounds s) (n : ℕ) {length : ULong}
    (hcount : length.toNat ≤ s.length) (hroom : length.toNat ≤ room) :
    SafeAt (readWcharArrayInto (.plain n) room length) s (fun _ => True) := by
  have hlt := length.isLt
  refine safeAt_get_bind.mpr (safeAt_ite (fun _ => safeAt_fail h fun _ => trivial) fun hcheck => ?_)
  refine safeAt_ite (fun _ => ?_) fun _ => ?_
  · refine safeAt_readWcharArrayIInto h n ?_ hcount hroom
    rw [Nat.mul_comm]
    exact not_lt.mp hcheck
  · exact ((safeAt_readArrayInto h isAlign_four (by omega) (by omega)).mono fun _ _ => trivial).bind h
      fun _ _ _ ht => safeAt_pure ht _

/-- **An array without room** for its wide characters. -/
theorem readWcharArrayIInto_eq_none (h : InBounds s) {n : ℕ} (hne : n ≠ 2) {length : ULong}
    (hcheck : n * length.toNat % 2 ^ 64 ≤ s.length) (hcount : length.toNat ≤ s.length)
    (hroom : room < length.toNat) : readWcharArrayIInto (.plain n) room length s = none := by
  have hle := length_eq h
  have hrd := h.le
  have hpos : length ≠ 0 := by
    rintro rfl
    exact absurd hroom (Nat.not_lt_zero room)
  have hload : load s.rdPtr length.toNat (s.setRdPtr (s.rdPtr + n * length.toNat % 2 ^ 64)) =
      some (.ok (s.bytesAt s.rdPtr length.toNat), _) :=
    load_eq h.ge (show s.rdPtr + length.toNat ≤ s.wrPtr by omega)
  rw [readWcharArrayIInto, if_neg hpos]
  dsimp only
  rw [bind_of_ok (adjust_plain_eq h hne hcheck), get_bind_apply, if_neg (by exact hne),
    bind_of_ok hload, store_returnGoodBit_eq, if_neg]
  rw [List.length_map, length_ofArrayImage]
  omega

theorem readUlong_eq (h : InBounds s) : readUlong s = if s.valueEnd 4 4 ≤ s.wrPtr
    then some (.ok s.nextLength, s.setRdPtr (s.valueEnd 4 4))
    else some (.error .bounds, s.setGoodBit false) :=
  readWord_eq h isAlign_four (by norm_num)

/-- One more wide character, unless there are `2 ^ 32 - 1`. -/
theorem toNat_add_one {count : ULong} (h : count.toNat ≠ 2 ^ 32 - 1) :
    (count + 1).toNat = count.toNat + 1 := by
  have hlt := count.isLt
  have hone : (1 : ULong).toNat = 1 := rfl
  rw [BitVec.toNat_add, hone]
  omega

/-- A quotient is as large as that only when nothing is divided. -/
theorem eq_one_of_div {n : ℕ} (hn : n ≠ 0) {len : ULong}
    (h : (len / truncateCast n).toNat = 2 ^ 32 - 1) : n = 1 ∧ len.toNat = 2 ^ 32 - 1 := by
  have hlt := len.isLt
  have hcast : (truncateCast n).toNat = min n (2 ^ 32 - 1) := by
    rw [truncateCast, BitVec.toNat_ofNat]
    exact Nat.mod_eq_of_lt (by omega)
  rw [BitVec.toNat_udiv, hcast] at h
  rcases Nat.lt_or_ge 1 n with hgt | hle
  · have hdiv : len.toNat / min n (2 ^ 32 - 1) ≤ len.toNat / 2 :=
      Nat.div_le_div_left (by omega) (by norm_num)
    omega
  · obtain rfl : n = 1 := by omega
    refine ⟨rfl, ?_⟩
    rwa [Nat.min_eq_left (by norm_num), Nat.div_one] at h

theorem readWcharArrayInto_eq_none (h : InBounds s) {length : ULong} (hcount : length.toNat ≤ s.length)
    (hroom : room < length.toNat) : readWcharArrayInto (.plain 1) room length s = none := by
  have hcheck : length.toNat * 1 % 2 ^ 64 ≤ s.length := (Nat.mod_le _ _).trans (by omega)
  rw [readWcharArrayInto, get_bind_apply, if_neg (by exact not_lt.mpr hcheck)]
  exact readWcharArrayIInto_eq_none h (by norm_num) (by rwa [Nat.mul_comm]) hcount hroom

/-- A string that is there, in an array of so many wide characters. -/
theorem exists_orFail_readWcharArrayInto (h : InBounds s) (n : ℕ) {length : ULong}
    (hcount : length.toNat ≤ s.length) (hroom : length.toNat ≤ room) :
    ∃ r t, orFail (readWcharArrayInto (.plain n) room length) s = some (r, t) ∧
      ∀ x, r = .ok x → x.length = length.toNat := by
  obtain ⟨r, t, heq, -⟩ := (safeAt_readWcharArrayInto h n hcount hroom).orFail
  refine ⟨r, t, heq, ?_⟩
  rintro x rfl
  exact length_of_readWcharArray (checks_readWcharArrayInto n room length _ _ (eq_of_orFail heq))

/-- **A string with its terminator** is stored. -/
theorem exists_readTerminated (h : InBounds s) (n : ℕ) {count : ULong}
    (hmax : count.toNat ≠ 2 ^ 32 - 1) (hcount : count.toNat ≤ s.length) :
    ∃ p, (orFail (readWcharArrayInto (.plain n) (count + 1).toNat count) >>= fun x =>
      store (count + 1).toNat (x ++ [0])) s = some p := by
  have hroom := toNat_add_one hmax
  have hle : count.toNat ≤ (count + 1).toNat := by
    rw [hroom]
    exact Nat.le_succ _
  obtain ⟨r, t, heq, hx⟩ := exists_orFail_readWcharArrayInto h n hcount hle
  rcases r with e | x
  · exact ⟨_, bind_of_error heq⟩
  · have hstore : store (count + 1).toNat (x ++ [0]) t = some (.ok (x ++ [0]), t) := by
      rw [store_eq, if_pos]
      rw [hroom, List.length_append, hx x rfl, List.length_singleton]
    exact ⟨_, (bind_of_ok heq).trans hstore⟩

/-- **The room wraps around** with the longest string, of which nothing can be stored. -/
theorem readTerminated_eq_none (h : InBounds s) {count : ULong} (hmax : count.toNat = 2 ^ 32 - 1)
    (hcount : count.toNat ≤ s.length) :
    (orFail (readWcharArrayInto (.plain 1) (count + 1).toNat count) >>= fun x =>
      store (count + 1).toNat (x ++ [0])) s = none := by
  have hone : (1 : ULong).toNat = 1 := rfl
  have hroom : (count + 1).toNat < count.toNat := by
    rw [BitVec.toNat_add, hmax, hone]
    norm_num
  exact bind_of_none (handle_of_none (readWcharArrayInto_eq_none h hcount hroom))

/-- What `read_wstring` does with the length that it has read. -/
theorem readWstringInto_eq (hzero : n ≠ 0) {len : ULong} (h : readUlong s = some (.ok len, t)) :
    readWstringInto (.plain n) s =
      if 0 < len.toNat ∧ len.toNat ≤ t.length then
        if t.giop12 then
          (orFail (readWcharArrayInto (.plain n) (len / truncateCast n + 1).toNat
            (len / truncateCast n)) >>= fun x =>
              store (len / truncateCast n + 1).toNat (x ++ [0])) t
        else orFail (readWcharArrayInto (.plain n) len.toNat len) t
      else if len = 0 then store 1 [0] t
      else fail .bounds t := by
  have hplain : readWstringInto (.plain n) s = (readUlong >>= fun len => Program.get >>= fun s =>
      if 0 < len.toNat ∧ len.toNat ≤ s.length then
        if s.giop12 then
          orFail (readWcharArrayInto (.plain n) (len / truncateCast n + 1).toNat
            (len / truncateCast n)) >>= fun x =>
              store (len / truncateCast n + 1).toNat (x ++ [0])
        else orFail (readWcharArrayInto (.plain n) len.toNat len)
      else if len = 0 then store 1 [0]
      else fail .bounds) s := congrFun (if_neg hzero) s
  rw [hplain, bind_of_ok h, get_bind_apply, ite_run, ite_run, ite_run]

/-- **When `read_wstring` stores in its array.** -/
theorem storesWstring_iff (h : InBounds s) (n : ℕ) : StoresWstring n s ↔ LengthFits n s := by
  by_cases hzero : n = 0
  · have hfail : readWstringInto (.plain n) s = fail .unsupported s := congrFun (if_pos hzero) s
    exact iff_of_true ⟨_, hfail⟩ fun hone => absurd (hzero.symm.trans hone) (by decide)
  have hread := readUlong_eq h
  by_cases hend : s.valueEnd 4 4 ≤ s.wrPtr
  · rw [if_pos hend] at hread
    have ht : InBounds (s.setRdPtr (s.valueEnd 4 4)) :=
      h.setRdPtr (rdPtr_le_valueEnd isAlign_four) hend
    have hlength : (s.setRdPtr (s.valueEnd 4 4)).length = s.wrPtr - s.valueEnd 4 4 := by
      rw [length_eq ht, setRdPtr_wrPtr, setRdPtr_rdPtr_of_le hend]
    have heq := readWstringInto_eq hzero hread
    by_cases hthere : 0 < s.nextLength.toNat ∧
        s.nextLength.toNat ≤ (s.setRdPtr (s.valueEnd 4 4)).length
    · rw [if_pos hthere, setRdPtr_giop12] at heq
      rcases hgiop : s.giop12 with _ | _
      · rw [hgiop, if_neg Bool.false_ne_true] at heq
        obtain ⟨r, t, hr, -⟩ := exists_orFail_readWcharArrayInto ht n hthere.2 le_rfl
        refine iff_of_true ⟨_, heq.trans hr⟩ fun _ htrue => ?_
        rw [hgiop] at htrue
        cases htrue
      · rw [hgiop, if_pos rfl] at heq
        have hcount : (s.nextLength / truncateCast n).toNat ≤
            (s.setRdPtr (s.valueEnd 4 4)).length := by
          rw [BitVec.toNat_udiv]
          exact (Nat.div_le_self _ _).trans hthere.2
        by_cases hmax : (s.nextLength / truncateCast n).toNat = 2 ^ 32 - 1
        · obtain ⟨rfl, hlen⟩ := eq_one_of_div hzero hmax
          refine iff_of_false ?_ fun hfits => ?_
          · rintro ⟨p, hp⟩
            cases hp.symm.trans (heq.trans (readTerminated_eq_none ht hmax hcount))
          · have hlt := hfits rfl hgiop hend hlen
            rw [hlength, hlen] at hthere
            omega
        · obtain ⟨p, hp⟩ := exists_readTerminated ht n hmax hcount
          refine iff_of_true ⟨p, heq.trans hp⟩ fun hone _ _ hlen => absurd ?_ hmax
          subst hone
          have hcast : (truncateCast 1).toNat = 1 := rfl
          rw [BitVec.toNat_udiv, hlen, hcast, Nat.div_one]
    · rw [if_neg hthere] at heq
      refine iff_of_true ?_ fun _ _ _ hmax => ?_
      · by_cases hempty : s.nextLength = 0
        · rw [if_pos hempty] at heq
          exact ⟨_, heq⟩
        · rw [if_neg hempty] at heq
          exact ⟨_, heq⟩
      · rw [hlength] at hthere
        omega
  · rw [if_neg hend] at hread
    have herror : readWstringInto (.plain n) s = _ :=
      (congrFun (if_neg hzero) s).trans (bind_of_error hread)
    exact iff_of_true ⟨_, herror⟩ fun _ _ hle => absurd hle hend

/-! ### Both operations -/

/-- **Both operations store in their destinations**, and `read_wchar` assigns every byte of its
argument, exactly when the octet or the length that comes next fits. -/
theorem storesFit_iff (h : InBounds s) (n : ℕ) :
    StoresWchar n s ∧ StoresWstring n s ↔ OctetFits n s ∧ LengthFits n s :=
  and_congr (storesWchar_iff h n) (storesWstring_iff h n)

section Example

theorem fits_octetMessage (len : UInt8) (bytes : List UInt8) (h : bytes.length < 2 ^ 16) :
    8 + (len :: bytes).length ≤ addressLimit := by
  rw [List.length_cons, addressLimit]
  omega

/-- A GIOP 1.2 message of an octet and the bytes behind it. -/
def octetMessage (len : UInt8) (bytes : List UInt8) (h : bytes.length < 2 ^ 16) : InputCDR :=
  ⟨8, len :: bytes, 8, false, true, 1, 2, fits_octetMessage len bytes h⟩

/-- A wide character of four bytes. -/
theorem storesFit_iff_four :
    StoresWchar 4 (octetMessage 4 [1, 2, 3, 4] (by decide)) ∧
      StoresWstring 4 (octetMessage 4 [1, 2, 3, 4] (by decide)) ↔
    OctetFits 4 (octetMessage 4 [1, 2, 3, 4] (by decide)) ∧
      LengthFits 4 (octetMessage 4 [1, 2, 3, 4] (by decide)) :=
  storesFit_iff ⟨by decide, by decide⟩ 4

/-- **Eight bytes are copied to a wide character of four.** -/
theorem not_storesFit_eight : ¬∀ s n, InBounds s → StoresWchar n s ∧ StoresWstring n s := by
  intro h
  have hin : InBounds (octetMessage 8 [1, 2, 3, 4, 5, 6, 7, 8] (by decide)) :=
    ⟨by decide, by decide⟩
  have hfits := (storesWchar_iff hin 4).mp (h _ 4 hin).1
  have hcopy := hfits (by decide) (by decide) (by decide) (by decide)
  revert hcopy
  decide

end Example

end InputCDR

end AceTao.Cdr
