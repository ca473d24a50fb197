import AceTao.Cdr.Decoders
import AceTao.Codeset.Utf8Latin1

/-!
# The two forms of a Latin-1 string in UTF-8

The translator reads a string to an array of characters or to a `std::string`, and both forms were
written one by one. The length counts octets. The array ends where a character ends that reaches the
last of them; the standard string has been resized to one character for each octet but the last,
and that one is read as a character of its own, wherever the others ended.

The forms agree (`FormsAgree`) on a string of characters of one octet, and where a character cannot
be read. On any other string they do not, nor on the length 0: that is all there is
(`formsAgree_iff`). Every store is checked against the room that was announced.
-/

namespace AceTao.Utf8Latin1

open Program ByteImage Cdr InputCDR

/-! ### Stores -/

/-- **The loop of `readChars`** with a destination for `size` characters, from the position `pos`
on. A store at a position that is not there has no answer. -/
def readCharsInto (size : ℕ) (len : ULong) : ℕ → ℕ → ULong → Reader (List Octet)
  | 0, _, _ => Program.undefined
  | fuel + 1, pos, i =>
    if i < len then do
      let (x, incr) ← readCharI
      if pos < size then do
        let xs ← readCharsInto size len fuel (pos + 1) (i + incr)
        pure (x :: xs)
      else Program.undefined
    else pure []

/-- `readString`, with an array of as many characters as are announced. -/
def readStringInto : Reader (List Octet) := do
  let len ← InputCDR.readUlong
  let s ← Program.get
  if 0 < len.toNat ∧ len.toNat ≤ s.length then readCharsInto len.toNat len (s.length + 1) 0 0
  else if len = 0 then pure [0]
  else Program.throw .bounds

/-- `readStdString`, with a string of one character less. -/
def readStdStringInto : Reader (List Octet) := do
  let len ← InputCDR.readUlong
  let s ← Program.get
  if 0 < len.toNat ∧ len.toNat ≤ s.length then do
    let x ← readCharsInto (len - 1).toNat (len - 1) (s.length + 1) 0 0
    let _ ← readCharI
    pure (x ++ List.replicate ((len - 1).toNat - x.length) 0)
  else Program.throw (if len = 0 then .content else .bounds)

section Stores

variable {s t : InputCDR} {size fuel pos : ℕ} {len i : ULong}

/-- The checks change no answer. -/
theorem readChars_of_into {r : Except Failure (List Octet)}
    (h : readCharsInto size len fuel pos i s = some (r, t)) :
    readChars len fuel i s = some (r, t) := by
  induction fuel generalizing pos i s r t with
  | zero => cases h
  | succ fuel ih =>
    rw [readCharsInto] at h
    rw [readChars]
    by_cases hi : i < len
    · rw [if_pos hi] at h ⊢
      rcases bind_eq_some.mp h with ⟨e, rfl, hchar⟩ | ⟨⟨x, incr⟩, u, hchar, hrest⟩
      · exact bind_of_error hchar
      · refine (bind_of_ok hchar).trans ?_
        dsimp only at hrest ⊢
        split_ifs at hrest with hpos
        · rcases bind_eq_some.mp hrest with ⟨e, rfl, hxs⟩ | ⟨xs, v, hxs, hpure⟩
          · exact bind_of_error (ih hxs)
          · exact (bind_of_ok (ih hxs)).trans hpure
        · cases hrest
    · rw [if_neg hi] at h ⊢
      exact h

theorem readString_of_into {r : Except Failure (List Octet)}
    (h : readStringInto s = some (r, t)) : readString s = some (r, t) := by
  rcases bind_eq_some.mp h with ⟨e, rfl, hlen⟩ | ⟨len, u, hlen, hrest⟩
  · exact bind_of_error hlen
  · refine (bind_of_ok hlen).trans ?_
    rw [get_bind_apply, ite_run] at hrest ⊢
    split_ifs at hrest ⊢ with hfits hzero
    · exact readChars_of_into hrest
    · exact hrest
    · exact hrest

theorem readStdString_of_into {r : Except Failure (List Octet)}
    (h : readStdStringInto s = some (r, t)) : readStdString s = some (r, t) := by
  rcases bind_eq_some.mp h with ⟨e, rfl, hlen⟩ | ⟨len, u, hlen, hrest⟩
  · exact bind_of_error hlen
  · refine (bind_of_ok hlen).trans ?_
    rw [get_bind_apply, ite_run] at hrest ⊢
    split_ifs at hrest ⊢ with hfits
    · rcases bind_eq_some.mp hrest with ⟨e, rfl, hxs⟩ | ⟨xs, v, hxs, hend⟩
      · exact bind_of_error (readChars_of_into hxs)
      · exact (bind_of_ok (readChars_of_into hxs)).trans hend
    · exact hrest
    · exact hrest

end Stores

/-! ### Characters -/

/-- The character at the head of some octets, with the number of its octets. -/
def charAt : List Octet → Option (Octet × ℕ)
  | [] => none
  | upper :: os =>
    if 0xC4 ≤ upper then none
    else if upper < 0xC0 then some (upper, 1)
    else match os with
      | [] => none
      | lower :: _ => some ((upper &&& 0xBF) <<< 6 + (lower &&& 0xC0), 2)

/-- **The characters that begin in the first `n` octets** can be read. -/
inductive Decodable : ℕ → List Octet → Prop
  | done (os : List Octet) : Decodable 0 os
  | char {n : ℕ} {os : List Octet} {c : Octet} {k : ℕ} (hchar : charAt os = some (c, k))
      (hrest : Decodable (n + 1 - k) (os.drop k)) : Decodable (n + 1) os

section Characters

variable {os : List Octet} {c : Octet} {k n : ℕ}

theorem charAt_of_lt (h : c < 0xC0) : charAt (c :: os) = some (c, 1) := by
  have hle : ¬(0xC4 : Octet) ≤ c := by
    rw [BitVec.lt_def] at h
    rw [BitVec.le_def]
    change c.toNat < 192 at h
    change ¬196 ≤ c.toNat
    omega
  rw [charAt.eq_def]
  dsimp only
  rw [if_neg hle, if_pos h]

/-- A character has one octet, which is the character, or two. -/
theorem charAt_eq_some (h : charAt os = some (c, k)) :
    (k = 1 ∧ c < 0xC0 ∧ os = c :: os.drop 1) ∨ k = 2 := by
  rcases os with _ | ⟨upper, os⟩
  · cases h
  · rw [charAt.eq_def] at h
    dsimp only at h
    split_ifs at h with hhigh hlow
    · cases h
      exact Or.inl ⟨rfl, hlow, rfl⟩
    · rcases os with _ | ⟨lower, os⟩
      · cases h
      · cases h
        exact Or.inr rfl

theorem decodable_succ_iff :
    Decodable (n + 1) os ↔ ∃ c k, charAt os = some (c, k) ∧ Decodable (n + 1 - k) (os.drop k) := by
  constructor
  · rintro (_ | ⟨hchar, hrest⟩)
    exact ⟨_, _, hchar, hrest⟩
  · rintro ⟨c, k, hchar, hrest⟩
    exact .char hchar hrest

end Characters

/-! ### Octets of a stream -/

/-- The octets that are left. -/
def octets (s : InputCDR) : List Octet :=
  (s.data.drop (s.rdPtr - s.base)).map fun b => ofImage 1 [b]

/-- **A stream behind `k` octets of another.** -/
structure Ahead (s t : InputCDR) (k : ℕ) : Prop where
  inBounds : InBounds t
  rdPtr : t.rdPtr = s.rdPtr + k
  octets : octets t = (octets s).drop k

section Octets

variable {s t u : InputCDR} {k l : ℕ}

theorem Ahead.refl (h : InBounds s) : Ahead s s 0 := ⟨h, rfl, rfl⟩

theorem Ahead.trans (h : Ahead s t k) (h' : Ahead t u l) : Ahead s u (k + l) := by
  refine ⟨h'.inBounds, ?_, ?_⟩
  · rw [h'.rdPtr, h.rdPtr, Nat.add_assoc]
  · rw [h'.octets, h.octets, List.drop_drop]

theorem length_octets (h : InBounds s) : (octets s).length = s.length := by
  have hge := h.ge
  rw [octets, List.length_map, List.length_drop, length_eq h, wrPtr]
  omega

/-- **An octet** is read while there is one. -/
theorem read1_cases (h : InBounds s) :
    (octets s = [] ∧ ∃ t, read1 s = some (.error .bounds, t)) ∨
      ∃ o t, octets s = o :: octets t ∧ read1 s = some (.ok o, t) ∧ Ahead s t 1 := by
  have hread := read1_eq h
  have hlength := length_octets h
  rw [length_eq h] at hlength
  split_ifs at hread with hlt
  · have hdrop : s.rdPtr + 1 - s.base = s.rdPtr - s.base + 1 := by
      have hge := h.ge
      omega
    have hnext : (s.setRdPtr (s.rdPtr + 1)).rdPtr = s.rdPtr + 1 := setRdPtr_rdPtr_of_le hlt
    have hoctets : octets (s.setRdPtr (s.rdPtr + 1)) = (octets s).drop 1 := by
      rw [octets, octets, hnext, setRdPtr_base, setRdPtr_data, hdrop, ← List.drop_drop,
        List.map_drop]
    refine Or.inr ⟨_, _, ?_, hread, h.setRdPtr (Nat.le_succ _) hlt, hnext, hoctets⟩
    have hpos : 0 < (s.data.drop (s.rdPtr - s.base)).length := by
      rw [octets, List.length_map] at hlength
      omega
    obtain ⟨b, bs, hbytes⟩ := List.exists_cons_of_length_pos hpos
    rw [hoctets, octets, bytesAt, hbytes]
    rfl
  · exact Or.inl ⟨List.eq_nil_of_length_eq_zero (by omega), _, hread⟩

/-- **A character** is read while there is one. -/
theorem readCharI_cases (h : InBounds s) :
    (charAt (octets s) = none ∧ ∃ e t, readCharI s = some (.error e, t)) ∨
      ∃ c k t, charAt (octets s) = some (c, k) ∧
        readCharI s = some (.ok (c, BitVec.ofNat 32 k), t) ∧ Ahead s t k := by
  rcases read1_cases h with ⟨hnil, t, hread⟩ | ⟨upper, t, hcons, hread, ht⟩
  · rw [hnil]
    exact Or.inl ⟨rfl, _, _, bind_of_error hread⟩
  · rw [hcons, charAt.eq_def, readCharI, bind_of_ok hread]
    dsimp only
    split_ifs with hhigh hlow
    · exact Or.inl ⟨rfl, _, _, rfl⟩
    · exact Or.inr ⟨_, _, _, rfl, rfl, ht⟩
    · rcases read1_cases ht.inBounds with ⟨hnil, u, hread'⟩ | ⟨lower, u, hcons', hread', hu⟩
      · rw [hnil]
        exact Or.inl ⟨rfl, _, _, bind_of_error hread'⟩
      · rw [hcons']
        exact Or.inr ⟨_, _, _, rfl, bind_of_ok hread', ht.trans hu⟩

end Octets

/-! ### The loop -/

section Loop

variable {s t : InputCDR} {size size' fuel pos n k : ℕ} {len len' i : ULong} {c : Octet}
  {e : Failure}

theorem readCharsInto_end (hi : ¬i < len) :
    readCharsInto size len (fuel + 1) pos i s = some (.ok [], s) := by
  rw [readCharsInto, if_neg hi]
  rfl

theorem readCharsInto_of_error (hi : i < len) (h : readCharI s = some (.error e, t)) :
    readCharsInto size len (fuel + 1) pos i s = some (.error e, t) := by
  rw [readCharsInto, if_pos hi]
  exact bind_of_error h

theorem readCharsInto_of_ok (hi : i < len) (hpos : pos < size)
    (h : readCharI s = some (.ok (c, BitVec.ofNat 32 k), t)) :
    readCharsInto size len (fuel + 1) pos i s =
      (readCharsInto size len fuel (pos + 1) (i + BitVec.ofNat 32 k) >>= fun xs =>
        pure (c :: xs)) t := by
  rw [readCharsInto, if_pos hi]
  refine (bind_of_ok h).trans ?_
  dsimp only
  rw [if_pos hpos]

/-- The counter behind a character that does not take it around. -/
theorem toNat_add_octets (h : i.toNat + k < 2 ^ 32) :
    (i + BitVec.ofNat 32 k).toNat = i.toNat + k := by
  rw [BitVec.toNat_add, BitVec.toNat_ofNat, Nat.mod_eq_of_lt (show k < 2 ^ 32 by omega),
    Nat.mod_eq_of_lt h]

/-- **Characters of one octet** are stored one for one. -/
theorem readCharsInto_of_plain (h : InBounds s) (hn : i.toNat + n = len.toNat)
    (hroom : pos + n ≤ size) (hfuel : n < fuel) (hle : n ≤ (octets s).length)
    (hplain : ∀ o ∈ (octets s).take n, o < 0xC0) :
    ∃ t, readCharsInto size len fuel pos i s = some (.ok ((octets s).take n), t) ∧
      Ahead s t n := by
  induction n generalizing fuel pos i s with
  | zero =>
    obtain ⟨fuel, rfl⟩ := Nat.exists_eq_add_of_lt hfuel
    exact ⟨s, readCharsInto_end (by rw [BitVec.lt_def]; omega), Ahead.refl h⟩
  | succ n ih =>
    obtain ⟨fuel, rfl⟩ : ∃ m, fuel = m + 1 := ⟨fuel - 1, by omega⟩
    have hlt := len.isLt
    obtain ⟨o, os, hcons⟩ := List.exists_cons_of_length_pos (show 0 < (octets s).length by omega)
    rw [hcons, List.take_succ_cons] at hplain ⊢
    have hchar := @charAt_of_lt os o (hplain o (List.mem_cons_self ..))
    rcases readCharI_cases h with ⟨hnone, -⟩ | ⟨c, k, t, hsome, hread, ht⟩
    · rw [hcons, hchar] at hnone
      cases hnone
    · rw [hcons, hchar] at hsome
      cases hsome
      have hoctets : octets t = os := by
        rw [ht.octets, hcons]
        rfl
      have hnext := @toNat_add_octets 1 i (by omega)
      have hleft : n ≤ (octets t).length := by
        rw [hcons, List.length_cons] at hle
        rw [hoctets]
        exact Nat.le_of_succ_le_succ hle
      obtain ⟨u, hrest, hu⟩ := ih ht.inBounds
        (show (i + BitVec.ofNat 32 1).toNat + n = len.toNat by rw [hnext]; omega)
        (show pos + 1 + n ≤ size by omega) (show n < fuel by omega) hleft
        (fun o ho => hplain o (List.mem_cons_of_mem _ (hoctets ▸ ho)))
      rw [hoctets] at hrest
      refine ⟨u, ?_, Nat.add_comm n 1 ▸ ht.trans hu⟩
      rw [readCharsInto_of_ok (by rw [BitVec.lt_def]; omega) (by omega) hread, bind_of_ok hrest]
      rfl

/-- **Where a character cannot be read**, the loop fails, and so does the shorter loop with the
character behind it. -/
theorem readCharsInto_of_not_decodable (h : InBounds s) (hn : i.toNat + (n + 1) = len.toNat)
    (hn' : i.toNat + n = len'.toNat) (hroom : pos + (n + 1) ≤ size) (hroom' : pos + n ≤ size')
    (hfuel : n < fuel) (hbad : ¬Decodable (n + 1) (octets s)) :
    (∃ e t, readCharsInto size len fuel pos i s = some (.error e, t)) ∧
      ((∃ e t, readCharsInto size' len' fuel pos i s = some (.error e, t)) ∨
        ∃ xs u e t, readCharsInto size' len' fuel pos i s = some (.ok xs, u) ∧
          readCharI u = some (.error e, t)) := by
  induction fuel generalizing n pos i s with
  | zero => omega
  | succ fuel ih =>
    have hlt := len.isLt
    have hi : i < len := by
      rw [BitVec.lt_def]
      omega
    rcases readCharI_cases h with ⟨-, e, t, hread⟩ | ⟨c, k, t, hchar, hread, ht⟩
    · refine ⟨⟨e, t, readCharsInto_of_error hi hread⟩, ?_⟩
      by_cases hi' : i < len'
      · exact Or.inl ⟨e, t, readCharsInto_of_error hi' hread⟩
      · exact Or.inr ⟨[], s, e, t, readCharsInto_end hi', hread⟩
    · have hk : k = 1 ∨ k = 2 := (charAt_eq_some hchar).imp And.left id
      have hrest : ¬Decodable (n + 1 - k) (octets t) := by
        rw [ht.octets]
        exact fun hdec => hbad (.char hchar hdec)
      obtain ⟨m, hm⟩ : ∃ m, n + 1 - k = m + 1 := by
        refine Nat.exists_eq_succ_of_ne_zero fun hzero => hrest ?_
        rw [hzero]
        exact .done _
      rw [hm] at hrest
      have hi' : i < len' := by
        rw [BitVec.lt_def]
        omega
      have hnext := toNat_add_octets (i := i) (k := k) (by omega)
      obtain ⟨⟨e, u, hfail⟩, hstd⟩ := ih ht.inBounds
        (show (i + BitVec.ofNat 32 k).toNat + (m + 1) = len.toNat by rw [hnext]; omega)
        (by rw [hnext]; omega) (show pos + 1 + (m + 1) ≤ size by omega) (by omega) (by omega) hrest
      rw [readCharsInto_of_ok hi (by omega) hread, readCharsInto_of_ok hi' (by omega) hread]
      refine ⟨⟨e, u, bind_of_error hfail⟩, ?_⟩
      rcases hstd with ⟨e, u, hfail⟩ | ⟨xs, u, e, v, hok, hfail⟩
      · exact Or.inl ⟨e, u, bind_of_error hfail⟩
      · exact Or.inr ⟨c :: xs, u, e, v, bind_of_ok hok, hfail⟩

/-- **Where the characters can be read**, the shorter loop ends, and either the character behind it
can be read or the loop ends as well. -/
theorem readCharsInto_of_decodable (h : InBounds s) (hn : i.toNat + (n + 1) = len.toNat)
    (hn' : i.toNat + n = len'.toNat) (hroom : pos + (n + 1) ≤ size) (hroom' : pos + n ≤ size')
    (hfuel : n < fuel) (hdec : Decodable (n + 1) (octets s)) :
    ∃ xs u, readCharsInto size' len' fuel pos i s = some (.ok xs, u) ∧
      ((∃ x v, readCharI u = some (.ok x, v)) ∨
        ∃ ys v, readCharsInto size len fuel pos i s = some (.ok ys, v)) := by
  induction fuel generalizing n pos i s with
  | zero => omega
  | succ fuel ih =>
    have hlt := len.isLt
    have hi : i < len := by
      rw [BitVec.lt_def]
      omega
    obtain ⟨c, k, hchar, hrest⟩ := decodable_succ_iff.mp hdec
    rcases readCharI_cases h with ⟨hnone, -⟩ | ⟨c', k', t, hchar', hread, ht⟩
    · cases hnone.symm.trans hchar
    · cases hchar'.symm.trans hchar
      by_cases hi' : i < len'
      · have hk : k = 1 ∨ k = 2 := (charAt_eq_some hchar).imp And.left id
        rw [← ht.octets] at hrest
        rw [BitVec.lt_def] at hi'
        have hnext := toNat_add_octets (i := i) (k := k) (by omega)
        rw [readCharsInto_of_ok hi (by omega) hread,
          readCharsInto_of_ok (by rw [BitVec.lt_def]; exact hi') (by omega) hread]
        rcases hm : n + 1 - k with _ | m
        · -- a character of two octets, the second of which is the last one
          obtain ⟨fuel, rfl⟩ : ∃ m, fuel = m + 1 := ⟨fuel - 1, by omega⟩
          exact ⟨[c], t, bind_of_ok (readCharsInto_end (by rw [BitVec.lt_def]; omega)),
            Or.inr ⟨[c], t, bind_of_ok (readCharsInto_end (by rw [BitVec.lt_def]; omega))⟩⟩
        · rw [hm] at hrest
          obtain ⟨xs, u, hok, hor⟩ := ih ht.inBounds
            (show (i + BitVec.ofNat 32 k).toNat + (m + 1) = len.toNat by rw [hnext]; omega)
            (by rw [hnext]; omega) (show pos + 1 + (m + 1) ≤ size by omega) (by omega) (by omega)
            hrest
          refine ⟨c :: xs, u, bind_of_ok hok, hor.imp id ?_⟩
          rintro ⟨ys, v, hok'⟩
          exact ⟨c :: ys, v, bind_of_ok hok'⟩
      · exact ⟨[], s, readCharsInto_end hi', Or.inl ⟨_, _, hread⟩⟩

/-- **Every character takes an octet at least**, and where each takes only one, none has two. -/
theorem rdPtr_of_readCharsInto (h : InBounds s) {xs : List Octet}
    (hread : readCharsInto size len fuel pos i s = some (.ok xs, t)) :
    s.rdPtr + xs.length ≤ t.rdPtr ∧
      (t.rdPtr = s.rdPtr + xs.length → ∀ o ∈ (octets s).take xs.length, o < 0xC0) := by
  induction fuel generalizing pos i s xs with
  | zero => cases hread
  | succ fuel ih =>
    by_cases hi : i < len
    · rcases readCharI_cases h with ⟨-, e, u, hfail⟩ | ⟨c, k, u, hchar, hok, hu⟩
      · cases (readCharsInto_of_error hi hfail).symm.trans hread
      · by_cases hpos : pos < size
        · rw [readCharsInto_of_ok hi hpos hok] at hread
          obtain ⟨ys, v, hys, hpure⟩ := bind_eq_ok.mp hread
          cases hpure
          obtain ⟨hle, hplain⟩ := ih hu.inBounds hys
          have hrd := hu.rdPtr
          rw [List.length_cons]
          rcases charAt_eq_some hchar with ⟨rfl, hlow, hcons⟩ | rfl
          · refine ⟨by omega, fun heq => ?_⟩
            rw [hcons, List.take_succ_cons, List.forall_mem_cons]
            refine ⟨hlow, ?_⟩
            rw [← hu.octets]
            exact hplain (by omega)
          · exact ⟨by omega, fun heq => absurd heq (by omega)⟩
        · rw [readCharsInto, if_pos hi, bind_of_ok hok] at hread
          dsimp only at hread
          rw [if_neg hpos] at hread
          cases hread
    · cases (readCharsInto_end hi).symm.trans hread
      refine ⟨le_rfl, fun _ => ?_⟩
      rw [List.length_nil, List.take_zero]
      exact List.forall_mem_nil _

/-- An array of at least one octet has a character. -/
theorem ne_nil_of_readCharsInto (hi : i < len) {xs : List Octet}
    (hread : readCharsInto size len fuel pos i s = some (.ok xs, t)) : xs ≠ [] := by
  rcases fuel with _ | fuel
  · cases hread
  · rw [readCharsInto, if_pos hi] at hread
    obtain ⟨⟨c, k⟩, u, -, hrest⟩ := bind_eq_ok.mp hread
    dsimp only at hrest
    split_ifs at hrest
    · obtain ⟨ys, v, -, hpure⟩ := bind_eq_ok.mp hrest
      cases hpure
      exact List.cons_ne_nil _ _
    · cases hrest

end Loop

/-! ### The two forms -/

/-- **The forms agree** at a place in a stream: both succeed, the array without its last character
is the standard string, and both end behind the announced octets; or both fail. -/
def FormsAgree (s : InputCDR) : Prop :=
  ∃ r t r' t', readStringInto s = some (r, t) ∧ readStdStringInto s = some (r', t') ∧
    Corresponds (fun x y => x.dropLast = y) r r' ∧
    (r.isOk → t.rdPtr = s.valueEnd 4 4 + s.nextLength.toNat) ∧
    (r'.isOk → t'.rdPtr = s.valueEnd 4 4 + s.nextLength.toNat)

/-- **The strings on which they do**: when there is a length and the stream is as long, it is not
0, and no octet of the string begins a longer character, unless one of its characters cannot be
read. -/
def FormsFit (s : InputCDR) : Prop :=
  s.valueEnd 4 4 ≤ s.wrPtr → s.nextLength.toNat ≤ s.afterLength.length → s.nextLength ≠ 0 ∧
    (Decodable s.nextLength.toNat (octets s.afterLength) →
      ∀ o ∈ (octets s.afterLength).take s.nextLength.toNat, o < 0xC0)

section Forms

variable {s t : InputCDR}

theorem readStringInto_eq (h : InBounds s) (hend : s.valueEnd 4 4 ≤ s.wrPtr) :
    readStringInto s =
      if 0 < s.nextLength.toNat ∧ s.nextLength.toNat ≤ s.afterLength.length then
        readCharsInto s.nextLength.toNat s.nextLength (s.afterLength.length + 1) 0 0 s.afterLength
      else if s.nextLength = 0 then some (.ok [0], s.afterLength)
      else some (.error .bounds, s.afterLength) := by
  refine (bind_of_ok (readUlong_of_fits h hend)).trans ?_
  rw [get_bind_apply, ite_run, ite_run]
  rfl

theorem readStdStringInto_eq (h : InBounds s) (hend : s.valueEnd 4 4 ≤ s.wrPtr) :
    readStdStringInto s =
      if 0 < s.nextLength.toNat ∧ s.nextLength.toNat ≤ s.afterLength.length then
        (readCharsInto (s.nextLength - 1).toNat (s.nextLength - 1) (s.afterLength.length + 1) 0 0
          >>= fun x => readCharI >>= fun _ =>
            pure (x ++ List.replicate ((s.nextLength - 1).toNat - x.length) 0)) s.afterLength
      else some (.error (if s.nextLength = 0 then .content else .bounds), s.afterLength) := by
  refine (bind_of_ok (readUlong_of_fits h hend)).trans ?_
  rw [get_bind_apply, ite_run]
  rfl

/-- Two failures. -/
theorem formsAgree_of_error {t' : InputCDR} {e e' : Failure}
    (h : readStringInto s = some (.error e, t)) (h' : readStdStringInto s = some (.error e', t')) :
    FormsAgree s := ⟨_, _, _, _, h, h', trivial, nofun, nofun⟩

/-- **A string that is there**, of some length. -/
theorem formsAgree_iff_of_fits (h : InBounds s) (hend : s.valueEnd 4 4 ≤ s.wrPtr)
    (hpos : s.nextLength ≠ 0) (hle : s.nextLength.toNat ≤ s.afterLength.length) :
    FormsAgree s ↔ (Decodable s.nextLength.toNat (octets s.afterLength) →
      ∀ o ∈ (octets s.afterLength).take s.nextLength.toNat, o < 0xC0) := by
  have ht := h.afterLength hend
  have hone := toNat_sub_one hpos
  have hplace := afterLength_rdPtr hend
  have hlength := length_octets ht
  have harray := readStringInto_eq h hend
  have hstd := readStdStringInto_eq h hend
  rw [if_pos ⟨by omega, hle⟩] at harray hstd
  have hsum : (0 : ULong).toNat + ((s.nextLength - 1).toNat + 1) = s.nextLength.toNat :=
    (Nat.zero_add _).trans hone
  have hsum' : (0 : ULong).toNat + (s.nextLength - 1).toNat = (s.nextLength - 1).toNat :=
    Nat.zero_add _
  have hroom : 0 + ((s.nextLength - 1).toNat + 1) ≤ s.nextLength.toNat := by omega
  have hfuel : (s.nextLength - 1).toNat < s.afterLength.length + 1 := by omega
  constructor
  · rintro ⟨r, t, r', t', hr, hr', hcor, hlast, hlast'⟩ hdec
    rw [← hone] at hdec
    obtain ⟨xs, u, hxs, hor⟩ :=
      readCharsInto_of_decodable ht hsum hsum' hroom (Nat.zero_add _).le hfuel hdec
    rw [hstd] at hr'
    rw [harray] at hr
    rcases r with e | x
    · rcases r' with e' | y
      · -- the character behind the shorter loop is read, or the array is
        rcases hor with ⟨x, v, hx⟩ | ⟨ys, v, hys⟩
        · cases ((bind_of_ok hxs).trans (bind_of_ok hx)).symm.trans hr'
        · cases hys.symm.trans hr
      · exact absurd hcor id
    · rcases r' with e' | y
      · exact absurd hcor id
      · -- the standard string is as long as was announced, so the array is
        have hlen : s.nextLength.toNat - 1 ≤ y.length := by
          obtain ⟨z, v, -, hpure⟩ := bind_eq_ok.mp ((bind_of_ok hxs).symm.trans hr')
          cases hpure
          rw [List.length_append, List.length_replicate]
          omega
        have hdrop : x.length - 1 = y.length := by
          rw [← hcor, List.length_dropLast]
        obtain ⟨hge, hplain⟩ := rdPtr_of_readCharsInto ht hr
        have hend' := hlast rfl
        have hne : x ≠ [] := by
          refine ne_nil_of_readCharsInto ?_ hr
          rw [BitVec.lt_def]
          omega
        have hnat : x.length = s.nextLength.toNat := by
          have hx := List.length_pos_iff.mpr hne
          omega
        rw [hnat] at hplain
        exact hplain (by omega)
  · intro hplain
    by_cases hdec : Decodable s.nextLength.toNat (octets s.afterLength)
    · have hall := hplain hdec
      have hsum'' : (0 : ULong).toNat + s.nextLength.toNat = s.nextLength.toNat := Nat.zero_add _
      obtain ⟨t, hread, hahead⟩ := readCharsInto_of_plain ht hsum''
        (show 0 + s.nextLength.toNat ≤ s.nextLength.toNat from (Nat.zero_add _).le)
        (show s.nextLength.toNat < s.afterLength.length + 1 by omega) (by omega) hall
      have hsub : ∀ o ∈ (octets s.afterLength).take (s.nextLength - 1).toNat, o < 0xC0 :=
        fun o ho => hall o (List.take_subset_take_left _ (by omega) ho)
      obtain ⟨u, hshort, hu⟩ := readCharsInto_of_plain ht hsum'
        (show 0 + (s.nextLength - 1).toNat ≤ (s.nextLength - 1).toNat from (Nat.zero_add _).le)
        hfuel (by omega) hsub
      have hleft : 0 < (octets u).length := by
        rw [hu.octets, List.length_drop]
        omega
      obtain ⟨o, os, hcons⟩ := List.exists_cons_of_length_pos hleft
      have htake : (octets s.afterLength).take s.nextLength.toNat =
          (octets s.afterLength).take (s.nextLength - 1).toNat ++ [o] := by
        rw [← hone, List.take_add, ← hu.octets, hcons]
        rfl
      have ho : o < 0xC0 := hall o (htake ▸ List.mem_append_right _ (List.mem_singleton_self o))
      rcases readCharI_cases hu.inBounds with ⟨hnone, -⟩ | ⟨c, k, v, hsome, hlast, hv⟩
      · rw [hcons, charAt_of_lt ho] at hnone
        cases hnone
      · rw [hcons, charAt_of_lt ho] at hsome
        cases hsome
        have hlen : ((octets s.afterLength).take (s.nextLength - 1).toNat).length =
            (s.nextLength - 1).toNat := List.length_take_of_le (by omega)
        refine ⟨_, _, _, _, harray.trans hread,
          hstd.trans ((bind_of_ok hshort).trans ((bind_of_ok hlast).trans rfl)), ?_, fun _ => ?_,
          fun _ => ?_⟩
        · change List.dropLast _ = _
          rw [htake, List.dropLast_concat, hlen, Nat.sub_self, List.replicate_zero, List.append_nil]
        · rw [hahead.rdPtr, hplace]
        · rw [hv.rdPtr, hu.rdPtr, hplace]
          omega
    · rw [← hone] at hdec
      obtain ⟨⟨e, t, hfail⟩, hor⟩ :=
        readCharsInto_of_not_decodable ht hsum hsum' hroom (Nat.zero_add _).le hfuel hdec
      rcases hor with ⟨e', t', hfail'⟩ | ⟨xs, u, e', t', hok, hfail'⟩
      · exact formsAgree_of_error (harray.trans hfail) (hstd.trans (bind_of_error hfail'))
      · exact formsAgree_of_error (harray.trans hfail)
          (hstd.trans ((bind_of_ok hok).trans (bind_of_error hfail')))

/-- **When the forms agree.** -/
theorem formsAgree_iff (h : InBounds s) : FormsAgree s ↔ FormsFit s := by
  by_cases hend : s.valueEnd 4 4 ≤ s.wrPtr
  · by_cases hle : s.nextLength.toNat ≤ s.afterLength.length
    · by_cases hzero : s.nextLength = 0
      · refine iff_of_false ?_ fun hfit => (hfit hend hle).1 hzero
        have hnot : ¬(0 < s.nextLength.toNat ∧ s.nextLength.toNat ≤ s.afterLength.length) := by
          rw [hzero]
          exact fun hpos => absurd hpos.1 (lt_irrefl 0)
        rintro ⟨r, t, r', t', hr, hr', hcor, -⟩
        rw [readStringInto_eq h hend, if_neg hnot, if_pos hzero] at hr
        rw [readStdStringInto_eq h hend, if_neg hnot] at hr'
        cases hr
        cases hr'
        exact hcor
      · rw [formsAgree_iff_of_fits h hend hzero hle]
        exact ⟨fun hplain _ _ => ⟨hzero, hplain⟩, fun hfit => (hfit hend hle).2⟩
    · have hzero : s.nextLength ≠ 0 := by
        intro hzero
        rw [hzero] at hle
        exact hle (Nat.zero_le _)
      have harray := readStringInto_eq h hend
      have hstd := readStdStringInto_eq h hend
      rw [if_neg fun hthere => hle hthere.2] at harray hstd
      rw [if_neg hzero] at harray
      exact iff_of_true (formsAgree_of_error harray hstd) fun _ hthere => absurd hthere hle
  · have hread := readUlong_of_not_fits h hend
    have harray : readStringInto s = _ := bind_of_error hread
    have hstd : readStdStringInto s = _ := bind_of_error hread
    exact iff_of_true (formsAgree_of_error harray hstd) fun hfits => absurd hfits hend

end Forms

section Example

/-- A message of a string of three octets. -/
def threeOctets (a b c : UInt8) : InputCDR :=
  ⟨8, [3, 0, 0, 0, a, b, c], 8, false, true, 1, 2, Nat.le_of_ble_eq_true rfl⟩

theorem threeOctets_inBounds (a b c : UInt8) : InBounds (threeOctets a b c) :=
  ⟨le_rfl, Nat.le_add_right _ _⟩

/-- Two letters and the terminator. -/
theorem formsAgree_iff_letters :
    FormsAgree (threeOctets 0x48 0x69 0) ↔ FormsFit (threeOctets 0x48 0x69 0) :=
  formsAgree_iff (threeOctets_inBounds 0x48 0x69 0)

/-- **A letter with an accent**, of two octets, makes the standard string too long. -/
theorem not_formsAgree_accent : ¬∀ s, InBounds s → FormsAgree s := by
  intro h
  have hin := threeOctets_inBounds 0xC3 0xA9 0
  have hend : (threeOctets 0xC3 0xA9 0).valueEnd 4 4 ≤ (threeOctets 0xC3 0xA9 0).wrPtr := by decide
  have hlen : (threeOctets 0xC3 0xA9 0).nextLength = 3 := by decide
  have hoctets : octets (threeOctets 0xC3 0xA9 0).afterLength = [0xC3, 0xA9, 0] := by decide
  have hle : (threeOctets 0xC3 0xA9 0).nextLength.toNat ≤
      (threeOctets 0xC3 0xA9 0).afterLength.length := by decide
  have hplain := (formsAgree_iff_of_fits hin hend (hlen ▸ by decide) hle).mp (h _ hin)
  rw [hlen, hoctets] at hplain
  have hdec : Decodable 3 [0xC3, 0xA9, 0] :=
    .char (c := 0x40) (k := 2) rfl (.char (c := 0) (k := 1) rfl (.done _))
  exact absurd (hplain hdec 0xC3 (List.mem_cons_self ..)) (by decide)

end Example

end AceTao.Utf8Latin1
