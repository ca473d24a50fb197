import AceTao.HandleSet.Handles
import AceTao.HandleSet.Runs

/-!
# `ACE_Handle_Set_Iterator`: the code

The iterator keeps the index of the next handle, the number of its word, and the bits of this word
from the handle on. An iterator that has come to the end holds `max_handle_ + 1`; the bits of a word
are then not read, and those the constructor leaves uninitialised are zero here.
-/

namespace AceTao

open HandleSet

/-- **`ACE_Handle_Set_Iterator`**; the set is an argument of its functions. -/
structure HandleSetIterator where
  handleIndex : ℤ
  wordNum : ℤ
  wordVal : BitVec 64

namespace HandleSetIterator

variable {c : FdConfig}

/-- `while (handle_index_ < maxhandlep1 && maskp[++word_num_] == 0) handle_index_ += WORDSIZE`. -/
def firstWord (m : FdSet c) (maxHandleP1 handleIndex wordNum : ℤ) : Option (ℤ × ℤ) :=
  if _h : handleIndex < maxHandleP1 then
    match maskp m (wordNum + 1) with
    | none => none
    | some val =>
      if val = 0 then firstWord m maxHandleP1 (handleIndex + 64) (wordNum + 1)
      else some (handleIndex, wordNum + 1)
  else some (handleIndex, wordNum)
termination_by (maxHandleP1 - handleIndex).toNat
decreasing_by omega

/-- `for (; ACE_BIT_DISABLED (word_val_, 1) && handle_index_ < maxhandlep1; handle_index_++)`. -/
def firstBit (maxHandleP1 handleIndex : ℤ) (wordVal : BitVec 64) : ℤ × BitVec 64 :=
  if _h : wordVal &&& 1 = 0 ∧ handleIndex < maxHandleP1 then
    firstBit maxHandleP1 (handleIndex + 1) (shiftRight wordVal)
  else (handleIndex, wordVal)
termination_by (maxHandleP1 - handleIndex).toNat
decreasing_by omega

/-- **The constructor**. -/
def init (hs : HandleSet c) : Option HandleSetIterator :=
  let maxHandleP1 := hs.maxHandle + 1
  match firstWord hs.mask maxHandleP1 0 (-1) with
  | none => none
  | some (handleIndex, wordNum) =>
    if handleIndex ≥ maxHandleP1 then some ⟨maxHandleP1, wordNum, 0⟩
    else
      (maskp hs.mask wordNum).map fun val =>
        let (handleIndex, wordVal) := firstBit maxHandleP1 handleIndex val
        ⟨handleIndex, wordNum, wordVal⟩

/-- `for (; handle_index_ < maxhandlep1 && maskp[word_num_] == 0; word_num_++)
handle_index_ += WORDSIZE`. -/
def nextWord (m : FdSet c) (maxHandleP1 handleIndex wordNum : ℤ) : Option (ℤ × ℤ) :=
  if _h : handleIndex < maxHandleP1 then
    match maskp m wordNum with
    | none => none
    | some val =>
      if val = 0 then nextWord m maxHandleP1 (handleIndex + 64) (wordNum + 1)
      else some (handleIndex, wordNum)
  else some (handleIndex, wordNum)
termination_by (maxHandleP1 - handleIndex).toNat
decreasing_by omega

/-- `for (; ACE_BIT_DISABLED (word_val_, 1); handle_index_++)`, which does not end on zero. -/
def nextBit (handleIndex : ℤ) (wordVal : BitVec 64) : Option (ℤ × BitVec 64) :=
  if _h0 : wordVal = 0 then none
  else if wordVal &&& 1 = 0 then nextBit (handleIndex + 1) (shiftRight wordVal)
  else some (handleIndex, wordVal)
termination_by wordVal.toNat
decreasing_by
  have hpos : wordVal.toNat ≠ 0 := fun h0 => _h0 (BitVec.eq_of_toNat_eq h0)
  rw [toNat_shiftRight]
  exact Nat.div_lt_self (Nat.pos_of_ne_zero hpos) Nat.one_lt_two

/-- **`operator()`**: the next handle, or `ACE_INVALID_HANDLE`. -/
def next (hs : HandleSet c) (it : HandleSetIterator) : Option (HandleSetIterator × ℤ) :=
  let maxHandleP1 := hs.maxHandle + 1
  if it.handleIndex ≥ maxHandleP1 then some (it, invalidHandle)
  else
    let result := it.handleIndex
    let it : HandleSetIterator :=
      { it with handleIndex := it.handleIndex + 1, wordVal := shiftRight it.wordVal }
    if it.wordVal = 0 then
      match nextWord hs.mask maxHandleP1 ((it.wordNum + 1) * 64) (it.wordNum + 1) with
      | none => none
      | some (handleIndex, wordNum) =>
        if handleIndex ≥ maxHandleP1 then
          some ({ it with handleIndex := maxHandleP1, wordNum := wordNum }, result)
        else
          match maskp hs.mask wordNum with
          | none => none
          | some val =>
            (nextBit handleIndex val).map fun (handleIndex, wordVal) =>
              (⟨handleIndex, wordNum, wordVal⟩, result)
    else
      (nextBit it.handleIndex it.wordVal).map fun (handleIndex, wordVal) =>
        ({ it with handleIndex := handleIndex, wordVal := wordVal }, result)

/-- The answers of a number of calls. -/
def calls (hs : HandleSet c) : ℕ → HandleSetIterator → Option (List ℤ)
  | 0, _ => some []
  | n + 1, it =>
    match next hs it with
    | none => none
    | some (it, handle) => (calls hs n it).map (handle :: ·)

end HandleSetIterator

end AceTao

/-!
## Iterating over a handle set

The iterator stands at a handle, with the bits of its word from this handle on, or at the end
(`Pending`). A call returns the handle and moves to the next one: over the bits of the word that
are not set (`nextBit_spec`), or over the words that are zero (`nextWord_spec`). No loop runs past
the largest handle.
-/

namespace AceTao

namespace HandleSetIterator

open HandleSet

variable {c : FdConfig} {m : FdSet c} {hs : HandleSet c}

/-! ### The handles from a position on -/

/-- The handles from `p` on. -/
def rest (m : FdSet c) (p : ℕ) : List ℕ :=
  (List.range' p (64 * c.numWords - p)).filter (isSet m)

theorem rest_zero : rest m 0 = handles m := by
  rw [rest, handles, List.range_eq_range', Nat.sub_zero]

theorem rest_of_set {p : ℕ} (h : isSet m p = true) : rest m p = p :: rest m (p + 1) := by
  have hlt := lt_of_isSet h
  have hlen : 64 * c.numWords - p = (64 * c.numWords - (p + 1)) + 1 := by omega
  rw [rest, hlen, List.range'_succ, List.filter_cons_of_pos h]
  rfl

theorem rest_of_not_set {p : ℕ} (h : isSet m p = false) : rest m p = rest m (p + 1) := by
  rcases Nat.lt_or_ge p (64 * c.numWords) with hlt | hge
  · have hlen : 64 * c.numWords - p = (64 * c.numWords - (p + 1)) + 1 := by omega
    rw [rest, hlen, List.range'_succ, List.filter_cons_of_neg (by simp [h])]
    rfl
  · have h₁ : 64 * c.numWords - p = 0 := by omega
    have h₂ : 64 * c.numWords - (p + 1) = 0 := by omega
    rw [rest, rest, h₁, h₂]
    rfl

/-- Handles that are not set are skipped. -/
theorem rest_skip {p q : ℕ} (hle : p ≤ q) (h : ∀ x, p ≤ x → x < q → isSet m x = false) :
    rest m p = rest m q := by
  induction q, hle using Nat.le_induction with
  | base => rfl
  | succ q hle ih =>
    rw [ih fun x hx hxq => h x hx (by omega), rest_of_not_set (h q hle (by omega))]

theorem rest_eq_nil {p : ℕ} (h : ∀ x, p ≤ x → isSet m x = false) : rest m p = [] := by
  rw [rest, List.filter_eq_nil_iff]
  intro x hx
  rw [h x (List.mem_range'_1.mp hx).1]
  decide

/-! ### The loops -/

/-- The bits of the word of `p`, from `p` on. -/
def Bits (m : FdSet c) (p : ℕ) (val : BitVec 64) : Prop :=
  ∃ h : p / 64 < c.numWords, val.toNat = (m ⟨p / 64, h⟩).toNat / 2 ^ (p % 64)

theorem Bits.isSet {p : ℕ} {val : BitVec 64} (h : Bits m p val) :
    isSet m p = decide (val.toNat % 2 = 1) := by
  obtain ⟨hlt, hval⟩ := h
  rw [isSet_of_lt hlt, hval, Nat.testBit_eq_decide_div_mod_eq]

theorem Bits.shiftRight {p : ℕ} {val : BitVec 64} (h : Bits m p val)
    (hp : p % 64 + 1 < 64) : Bits m (p + 1) (shiftRight val) := by
  obtain ⟨hlt, hval⟩ := h
  have hdiv : (p + 1) / 64 = p / 64 := by omega
  have hmod : (p + 1) % 64 = p % 64 + 1 := by omega
  refine ⟨by rwa [hdiv], ?_⟩
  rw [toNat_shiftRight, hval, hmod, Nat.pow_succ, Nat.div_div_eq_div_mul]
  simp only [hdiv]

/-- There is a next bit in the word while its bits are not zero. -/
theorem Bits.lt {p : ℕ} {val : BitVec 64} (h : Bits m p val) (hne : HandleSet.shiftRight val ≠ 0) :
    p % 64 + 1 < 64 := by
  obtain ⟨hlt, hval⟩ := h
  by_contra hge
  have h63 : p % 64 = 63 := by omega
  refine hne (BitVec.eq_of_toNat_eq ?_)
  have hw := (m ⟨p / 64, hlt⟩).isLt
  rw [toNat_shiftRight, hval, h63, Nat.div_div_eq_div_mul]
  exact Nat.div_eq_of_lt (by omega)

theorem and_one_eq_zero (val : BitVec 64) : val &&& 1 = 0 ↔ val.toNat % 2 = 0 := by
  have htoNat : (val &&& 1).toNat = val.toNat % 2 := by
    rw [BitVec.toNat_and]
    exact Nat.and_two_pow_sub_one_eq_mod _ 1
  rw [← htoNat]
  exact ⟨fun h => by rw [h]; rfl, fun h => BitVec.eq_of_toNat_eq h⟩

/-- **The loops over the bits of a word** stop at its next handle. -/
theorem nextBit_spec {p : ℕ} {val : BitVec 64} (h : Bits m p val) (hne : val ≠ 0) :
    ∃ (q : ℕ) (val' : BitVec 64), nextBit p val = some ((q : ℤ), val') ∧ Bits m q val' ∧ p ≤ q ∧
      q / 64 = p / 64 ∧ HandleSet.isSet m q = true ∧
      (∀ x, p ≤ x → x < q → HandleSet.isSet m x = false) ∧
      ∀ max : ℤ, (q : ℤ) < max → firstBit max p val = ((q : ℤ), val') := by
  induction hn : val.toNat using Nat.strong_induction_on generalizing p val with
  | _ n ih =>
    have hpos : val.toNat ≠ 0 := fun h0 => hne (BitVec.eq_of_toNat_eq h0)
    by_cases hbit : val &&& 1 = 0
    · have heven := (and_one_eq_zero val).mp hbit
      have hshift : HandleSet.shiftRight val ≠ 0 := by
        intro h0
        have := toNat_shiftRight val
        rw [h0] at this
        have hz : (0 : BitVec 64).toNat = 0 := rfl
        omega
      have hlt := h.lt hshift
      have hp : HandleSet.isSet m p = false := by
        rw [h.isSet, heven]
        rfl
      obtain ⟨q, val', hnext, hbits, hle, hdiv, hset, hskip, hfirst⟩ :=
        ih _ (by rw [toNat_shiftRight]; omega) (h.shiftRight hlt) hshift rfl
      refine ⟨q, val', ?_, hbits, by omega, by omega, hset, fun x hx hxq => ?_, fun max hmax => ?_⟩
      · rw [nextBit, dif_neg hne, if_pos hbit]
        exact_mod_cast hnext
      · rcases eq_or_ne x p with rfl | hxp
        · exact hp
        · exact hskip x (by omega) hxq
      · rw [firstBit, dif_pos ⟨hbit, by omega⟩]
        exact_mod_cast hfirst max hmax
    · have hodd : val.toNat % 2 = 1 := by
        have := mt (and_one_eq_zero val).mpr hbit
        omega
      refine ⟨p, val, ?_, h, le_refl p, rfl, by rw [h.isSet, hodd]; rfl, fun x hx hxp => by omega,
        fun max _ => ?_⟩
      · rw [nextBit, dif_neg hne, if_neg hbit]
      · rw [firstBit, dif_neg fun hc => hbit hc.1]

/-- A word that is zero has no handles. -/
theorem isSet_of_word_eq_zero {k : ℕ} (hk : k < c.numWords) (h0 : m ⟨k, hk⟩ = 0) (x : ℕ)
    (hx : x / 64 = k) : HandleSet.isSet m x = false := by
  by_contra hset
  exact word_ne_zero (i := ⟨k, hk⟩) hx (by simpa using hset) h0

/-- **The loop over the words** stops at the next one that is not zero, or past the largest
handle. -/
theorem nextWord_spec {max : ℤ} (hmax : max ≤ 64 * c.numWords) (k : ℕ) :
    ∃ j : ℕ, nextWord m max (64 * k : ℕ) k = some (((64 * j : ℕ) : ℤ), (j : ℤ)) ∧ k ≤ j ∧
      (∀ x, 64 * k ≤ x → x < 64 * j → HandleSet.isSet m x = false) ∧
      (((64 * j : ℕ) : ℤ) < max → ∃ h : j < c.numWords, m ⟨j, h⟩ ≠ 0) := by
  induction hn : (max - (64 * k : ℕ)).toNat using Nat.strong_induction_on generalizing k with
  | _ n ih =>
    by_cases hlt : ((64 * k : ℕ) : ℤ) < max
    · have hk : k < c.numWords := by omega
      by_cases h0 : m ⟨k, hk⟩ = 0
      · obtain ⟨j, hnext, hle, hskip, hword⟩ := ih _ (by omega) (k + 1) rfl
        refine ⟨j, ?_, by omega, fun x hx hxj => ?_, hword⟩
        · rw [nextWord, dif_pos hlt, maskp_of_lt hk]
          simp only [if_pos h0]
          exact_mod_cast hnext
        · rcases Nat.lt_or_ge x (64 * (k + 1)) with hxk | hxk
          · exact isSet_of_word_eq_zero hk h0 x (by omega)
          · exact hskip x hxk hxj
      · refine ⟨k, ?_, le_refl k, fun x hx hxk => by omega, fun _ => ⟨hk, h0⟩⟩
        rw [nextWord, dif_pos hlt, maskp_of_lt hk]
        simp only [if_neg h0]
    · refine ⟨k, ?_, le_refl k, fun x hx hxk => by omega, fun h => (hlt h).elim⟩
      rw [nextWord, dif_neg hlt]

/-- The loop of the constructor over the words is the one of `operator()`, which reads the word
after its number. -/
theorem firstWord_eq {max : ℤ} (hmax : max ≤ 64 * c.numWords) (k : ℕ) {i n : ℤ}
    (h : nextWord m max (64 * k : ℕ) k = some (i, n)) :
    firstWord m max (64 * k : ℕ) (k - 1) = some (i, if i < max then n else n - 1) := by
  induction hn : (max - (64 * k : ℕ)).toNat using Nat.strong_induction_on generalizing k with
  | _ l ih =>
    rw [nextWord] at h
    rw [firstWord]
    by_cases hlt : ((64 * k : ℕ) : ℤ) < max
    · have hk : k < c.numWords := by omega
      rw [dif_pos hlt, maskp_of_lt hk] at h
      rw [dif_pos hlt, Int.sub_add_cancel, maskp_of_lt hk]
      by_cases h0 : m ⟨k, hk⟩ = 0
      · simp only [if_pos h0] at h ⊢
        have hstep := ih _ (by omega) (k + 1) (by exact_mod_cast h) rfl
        push_cast at hstep ⊢
        simpa [Int.mul_add] using hstep
      · simp only [if_neg h0, Option.some.injEq, Prod.mk.injEq] at h ⊢
        obtain ⟨rfl, rfl⟩ := h
        exact ⟨rfl, by rw [if_pos hlt]⟩
    · rw [dif_neg hlt, Option.some.injEq, Prod.mk.injEq] at h
      obtain ⟨rfl, rfl⟩ := h
      rw [dif_neg hlt, if_neg hlt]

/-! ### The calls -/

/-- **What an iterator has yet to return**: it stands at the first handle of the list, and the
others are those behind it. -/
def Pending (hs : HandleSet c) (it : HandleSetIterator) : List ℕ → Prop
  | [] => it.handleIndex = hs.maxHandle + 1
  | p :: l =>
    it.handleIndex = p ∧ it.wordNum = (p / 64 : ℕ) ∧ Bits hs.mask p it.wordVal ∧
      isSet hs.mask p = true ∧ l = rest hs.mask (p + 1)

theorem le_of_isMax {x : ℤ} (hx : IsMax m x) {h : ℕ} (hs : isSet m h = true) : (h : ℤ) ≤ x := by
  rcases hx with ⟨hnone, -⟩ | ⟨a, -, hmax, rfl⟩
  · rw [hnone h] at hs
    cases hs
  · exact_mod_cast hmax h hs

theorem lt_of_isMax {x : ℤ} (hx : IsMax m x) : x + 1 ≤ 64 * c.numWords := by
  rcases hx with ⟨-, rfl⟩ | ⟨a, ha, -, rfl⟩
  · rw [invalidHandle]
    omega
  · have := lt_of_isSet ha
    omega

/-- From the beginning of a word, the loops find the end or the next handle. -/
theorem scan_spec (hmax : IsMax hs.mask hs.maxHandle) (k : ℕ) :
    ∃ j : ℕ, nextWord hs.mask (hs.maxHandle + 1) (64 * k : ℕ) k =
        some (((64 * j : ℕ) : ℤ), (j : ℤ)) ∧
      (hs.maxHandle + 1 ≤ (64 * j : ℕ) ∧ rest hs.mask (64 * k) = [] ∨
        ((64 * j : ℕ) : ℤ) < hs.maxHandle + 1 ∧ ∃ (h : j < c.numWords) (q : ℕ) (val : BitVec 64),
          nextBit (64 * j : ℕ) (hs.mask ⟨j, h⟩) = some ((q : ℤ), val) ∧
          firstBit (hs.maxHandle + 1) (64 * j : ℕ) (hs.mask ⟨j, h⟩) = ((q : ℤ), val) ∧
          Pending hs ⟨q, j, val⟩ (rest hs.mask (64 * k))) := by
  obtain ⟨j, hnext, hle, hskip, hword⟩ := nextWord_spec (lt_of_isMax hmax) k
  refine ⟨j, hnext, ?_⟩
  have hrest := rest_skip (Nat.mul_le_mul_left 64 hle) hskip
  rcases lt_or_ge ((64 * j : ℕ) : ℤ) (hs.maxHandle + 1) with hlt | hge
  · obtain ⟨hj, hne⟩ := hword hlt
    have hmod : 64 * j % 64 = 0 := Nat.mul_mod_right 64 j
    have hdiv : 64 * j / 64 = j := by omega
    have hbits : Bits hs.mask (64 * j) (hs.mask ⟨j, hj⟩) := by
      refine ⟨by rwa [hdiv], ?_⟩
      rw [hmod, pow_zero, Nat.div_one]
      simp only [hdiv]
    obtain ⟨q, val, hbit, hbits, hle, hqdiv, hset, hskip, hfirst⟩ := nextBit_spec hbits hne
    refine Or.inr ⟨hlt, hj, q, val, hbit, hfirst _ ?_, ?_⟩
    · have := le_of_isMax hmax hset
      omega
    · rw [hrest, rest_skip hle hskip, rest_of_set hset]
      exact ⟨rfl, by rw [hqdiv, hdiv], hbits, hset, rfl⟩
  · refine Or.inl ⟨hge, ?_⟩
    rw [hrest]
    refine rest_eq_nil fun x hx => ?_
    by_contra hset
    have := le_of_isMax hmax (eq_true_of_ne_false hset)
    omega

/-- **The constructor** makes an iterator over all handles. -/
theorem init_spec (hmax : IsMax hs.mask hs.maxHandle) :
    ∃ it, init hs = some it ∧ Pending hs it (handles hs.mask) := by
  obtain ⟨j, hnext, hend | ⟨hlt, hj, q, val, -, hfirst, hp⟩⟩ := scan_spec hmax 0
  · have hword : firstWord hs.mask (hs.maxHandle + 1) 0 (-1) = _ :=
      firstWord_eq (lt_of_isMax hmax) 0 hnext
    rw [if_neg (by omega)] at hword
    rw [Nat.mul_zero, rest_zero] at hend
    refine ⟨⟨hs.maxHandle + 1, j - 1, 0⟩, ?_, by rw [hend.2]; rfl⟩
    rw [init, hword]
    exact if_pos hend.1
  · have hword : firstWord hs.mask (hs.maxHandle + 1) 0 (-1) = _ :=
      firstWord_eq (lt_of_isMax hmax) 0 hnext
    rw [if_pos hlt] at hword
    rw [Nat.mul_zero, rest_zero] at hp
    refine ⟨⟨q, j, val⟩, ?_, hp⟩
    rw [init, hword]
    simp only [if_neg (not_le_of_gt hlt), maskp_of_lt hj, hfirst, Option.map_some]

/-- The bits behind a handle are zero: there is no handle behind it in its word. -/
theorem rest_word_end {p : ℕ} {val : BitVec 64} (h : Bits m p val)
    (h0 : HandleSet.shiftRight val = 0) : rest m (p + 1) = rest m (64 * (p / 64 + 1)) := by
  obtain ⟨hlt, hval⟩ := h
  refine rest_skip (by omega) fun x hx hxk => ?_
  have hdiv : x / 64 = p / 64 := by omega
  obtain ⟨d, hd⟩ : ∃ d, x % 64 = p % 64 + 1 + d := ⟨x % 64 - (p % 64 + 1), by omega⟩
  have hz : (m ⟨p / 64, hlt⟩).toNat / 2 ^ (p % 64 + 1) = 0 := by
    rw [Nat.pow_succ, ← Nat.div_div_eq_div_mul, ← hval, ← toNat_shiftRight, h0]
    rfl
  rw [isSet_of_div_eq (i := ⟨p / 64, hlt⟩) hdiv, hd, Nat.add_comm, ← Nat.testBit_div_two_pow, hz,
    Nat.zero_testBit]

/-- **A call** returns the next handle. -/
theorem next_spec (hmax : IsMax hs.mask hs.maxHandle) {it : HandleSetIterator} {l : List ℕ}
    (h : Pending hs it l) :
    ∃ it', next hs it = some (it', l.head?.elim invalidHandle (↑)) ∧ Pending hs it' l.tail := by
  rcases l with _ | ⟨p, l⟩
  · refine ⟨it, ?_, h⟩
    rw [next]
    exact if_pos (le_of_eq (Eq.symm h))
  · obtain ⟨hindex, hword, hbits, hset, rfl⟩ := h
    have hlt : ¬it.handleIndex ≥ hs.maxHandle + 1 := by
      have := le_of_isMax hmax hset
      omega
    rw [next]
    simp only [if_neg hlt]
    by_cases h0 : HandleSet.shiftRight it.wordVal = 0
    · obtain ⟨j, hnext, hscan⟩ := scan_spec hmax (p / 64 + 1)
      have hcall : nextWord hs.mask (hs.maxHandle + 1) ((it.wordNum + 1) * 64) (it.wordNum + 1) =
          some (((64 * j : ℕ) : ℤ), (j : ℤ)) := by
        rw [← hnext, hword]
        push_cast
        rw [Int.mul_comm]
      rw [List.tail_cons, rest_word_end hbits h0]
      rcases hscan with hend | ⟨hlt, hj, q, val, hbit, -, hp⟩
      · refine ⟨⟨hs.maxHandle + 1, j, HandleSet.shiftRight it.wordVal⟩, ?_, by rw [hend.2]; rfl⟩
        simp only [if_pos h0, hcall, if_pos hend.1, hindex]
        rfl
      · refine ⟨⟨q, j, val⟩, ?_, hp⟩
        simp only [if_pos h0, hcall, if_neg (not_le_of_gt hlt), maskp_of_lt hj, hbit,
          Option.map_some, hindex]
        rfl
    · obtain ⟨q, val, hbit, hbits', hle, hdiv, hqset, hskip, -⟩ :=
        nextBit_spec (hbits.shiftRight (hbits.lt h0)) h0
      have hlt64 := hbits.lt h0
      refine ⟨⟨q, it.wordNum, val⟩, ?_, ?_⟩
      · have hcall : nextBit (it.handleIndex + 1) (HandleSet.shiftRight it.wordVal) =
            some ((q : ℤ), val) := by
          rw [hindex]
          exact hbit
        simp only [if_neg h0, hcall, Option.map_some]
        rw [hindex]
        rfl
      · rw [List.tail_cons, rest_skip hle hskip, rest_of_set hqset]
        refine ⟨rfl, ?_, hbits', hqset, rfl⟩
        rw [hword]
        omega

/-- **The calls** return the handles, and then `ACE_INVALID_HANDLE`. -/
theorem calls_spec (hmax : IsMax hs.mask hs.maxHandle) (n : ℕ) {it : HandleSetIterator}
    {l : List ℕ} (h : Pending hs it l) :
    calls hs n it =
      some ((l.take n).map (↑) ++ List.replicate (n - l.length) invalidHandle) := by
  induction n generalizing it l with
  | zero => simp [calls]
  | succ n ih =>
    obtain ⟨it', hnext, hp⟩ := next_spec hmax h
    rw [calls, hnext]
    simp only [ih hp]
    rcases l with _ | ⟨p, l⟩
    · simp [List.replicate_succ]
    · simp

end HandleSetIterator

namespace HandleSet

variable {c : FdConfig}

/-- **A handle set that works**: `num_set` and `max_set` answer the number of handles and the
largest one, and an iterator returns the handles in ascending order and then
`ACE_INVALID_HANDLE`. -/
structure Correct (hs : HandleSet c) : Prop where
  numSet : hs.size = (handles hs.mask).length
  maxSet : IsMax hs.mask hs.maxHandle
  iterates : ∃ it, HandleSetIterator.init hs = some it ∧ ∀ n, HandleSetIterator.calls hs n it =
    some (((handles hs.mask).take n).map (↑) ++
      List.replicate (n - (handles hs.mask).length) invalidHandle)

theorem Cached.correct {hs : HandleSet c} (h : Cached hs) : Correct hs := by
  obtain ⟨it, hinit, hp⟩ := HandleSetIterator.init_spec h.maxHandle
  exact ⟨h.size, h.maxHandle, it, hinit, fun n => HandleSetIterator.calls_spec h.maxHandle n hp⟩

/-- After `sync` of a mask, the set is correct only when `sync` is right about it. -/
theorem synced_of_correct {v : CountVariant} {s t : HandleSet c} {m : FdSet c}
    (h : step v s (.sync m) = some (t, ())) (ht : Correct t) : Synced v m := by
  obtain ⟨t', hsync, heq⟩ := Option.map_eq_some_iff.mp h
  obtain ⟨rfl, -⟩ := Prod.mk.inj heq
  have hmask := mask_sync hsync
  have hsize := ht.numSet
  have hmax := ht.maxSet
  rw [hmask] at hsize hmax
  exact synced_of_sync hsync hsize hmax

/-- **A run of operations is correct** when each mask that is synchronised has no handle out of
range and no handle at which `count_bits` does not look; and after `sync` of any other mask, the
set is not correct. -/
theorem correct_iff (c : FdConfig) (v : CountVariant) :
    (∀ cmds, Machine.Guarded (step v) (SyncOk v) (reset c) cmds →
      ∃ t os, Machine.run (step v) (reset c) cmds = some (t, os) ∧ Correct t) ∧
    ∀ (s : HandleSet c) (m : FdSet c),
      (∃ t, step v s (.sync m) = some (t, ()) ∧ Correct t) ↔ Synced v m := by
  refine ⟨fun cmds hok => ?_, fun s m => ⟨?_, fun hm => ?_⟩⟩
  · obtain ⟨t, os, hrun, ht⟩ := cached_reset.run cmds hok
    exact ⟨t, os, hrun, ht.correct⟩
  · rintro ⟨t, hstep, ht⟩
    exact synced_of_correct hstep ht
  · obtain ⟨t, hsync, -, ht⟩ := sync_spec s hm
    exact ⟨t, by rw [step, hsync]; rfl, ht.correct⟩

theorem correct_run : ∃ t os,
    Machine.run (step .table) (reset ⟨1024, 16, by decide, by decide⟩)
      [.setBit ⟨40, by decide⟩, .setBit ⟨1023, by decide⟩, .clrBit ⟨40, by decide⟩,
        .sync fun _ => 0] = some (t, os) ∧ Correct t := by
  refine (correct_iff ⟨1024, 16, by decide, by decide⟩ .table).1 _ ?_
  refine ⟨trivial, fun _ _ _ => ⟨trivial, fun _ _ _ => ⟨trivial, fun _ _ _ => ⟨?_, ?_⟩⟩⟩⟩
  · intro h hs
    rw [isSet_zero] at hs
    cases hs
  · intros
    trivial

/-- The table does not count the handle 32. -/
theorem not_correct_table : ¬∀ (c : FdConfig) (v : CountVariant) (s : HandleSet c) (m : FdSet c),
    ∃ t, step v s (.sync m) = some (t, ()) ∧ Correct t := by
  intro h
  obtain ⟨t, hstep, ht⟩ := h ⟨1024, 16, by decide, by decide⟩ .table (reset _)
    (fdSet (reset _).mask ⟨32, by decide⟩)
  have hset : isSet (fdSet (reset ⟨1024, 16, by decide, by decide⟩).mask ⟨32, by decide⟩) 32 =
      true :=
    (isSet_fdSet _ _ _).mpr (Or.inl rfl)
  rcases (synced_of_correct hstep ht 32 hset).1 with hv | hlt
  · cases hv
  · exact absurd hlt (by decide)

end HandleSet

end AceTao
