import Mathlib.Data.List.Basic
import Mathlib.Tactic.SplitIfs
import AceTao.Base64.Codec

/-!
# Base64 texts

A text is a sequence of groups of four characters (`groups`), which stand for three bytes each, laid
out in lines (`layout`). The last group is padded when the bytes are not a multiple of three.
-/

namespace AceTao.Base64

/-! ### Characters -/

/-- The character of the alphabet with an index. -/
def symbol (i : ℕ) : UInt8 := alphabet.getD i 0

theorem getElem?_alphabet {i : ℕ} (h : i < 64) : alphabet[i]? = some (symbol i) := by
  have hlen : i < alphabet.length := Nat.lt_trans h (by decide)
  rw [symbol, List.getD_eq_getElem?_getD, List.getElem?_eq_getElem hlen]
  rfl

/-- **The tables invert the alphabet**, and nothing else of a text is in it. -/
theorem tables {i : ℕ} (h : i < 64) :
    decoder (symbol i) = i ∧ member (symbol i) = 1 ∧ symbol i ≠ 0 ∧ symbol i ≠ pad ∧
      symbol i ≠ newline := by
  have hall : ∀ i : Fin 64, decoder (symbol i) = i ∧ member (symbol i) = 1 ∧ symbol i ≠ 0 ∧
      symbol i ≠ pad ∧ symbol i ≠ newline := by
    decide
  exact hall ⟨i, h⟩

theorem member_newline : member newline = 0 := by decide

/-! ### Groups -/

/-- Three bytes as a number. -/
def word (b₀ b₁ b₂ : UInt8) : ℕ := (b₀.toNat * 256 + b₁.toNat) * 256 + b₂.toNat

theorem word_lt (b₀ b₁ b₂ : UInt8) : word b₀ b₁ b₂ < 2 ^ 24 := by
  have h₀ := b₀.toNat_lt
  have h₁ := b₁.toNat_lt
  have h₂ := b₂.toNat_lt
  rw [word]
  omega

/-- The four characters of a number below `2 ^ 24`. -/
def group (n : ℕ) : List UInt8 :=
  [symbol (n / 2 ^ 18), symbol (n / 2 ^ 12 % 64), symbol (n / 2 ^ 6 % 64), symbol (n % 64)]

/-- **The groups** of a sequence of bytes. -/
def groups : List UInt8 → List (List UInt8)
  | b₀ :: b₁ :: b₂ :: input => group (word b₀ b₁ b₂) :: groups input
  | [b₀, b₁] => [(group (word b₀ b₁ 0)).take 3 ++ [pad]]
  | [b₀] => [(group (word b₀ 0 0)).take 2 ++ [pad, pad]]
  | [] => []

theorem length_groups (input : List UInt8) : (groups input).length = (input.length + 2) / 3 := by
  induction input using groups.induct with
  | case1 b₀ b₁ b₂ input ih =>
    simp only [groups, List.length_cons, ih]
    omega
  | case2 b₀ b₁ => simp [groups]
  | case3 b₀ => simp [groups]
  | case4 => simp [groups]

theorem length_group (n : ℕ) : (group n).length = 4 := rfl

theorem length_of_mem_groups {input : List UInt8} : ∀ g ∈ groups input, g.length = 4 := by
  induction input using groups.induct with
  | case1 b₀ b₁ b₂ input ih =>
    rw [groups]
    exact List.forall_mem_cons.mpr ⟨rfl, ih⟩
  | case2 b₀ b₁ => simp [groups, group]
  | case3 b₀ => simp [groups, group]
  | case4 => simp [groups]

/-- A character of a group: one of the alphabet or a padding character. -/
def IsGroupChar (c : UInt8) : Prop := (∃ i < 64, c = symbol i) ∨ c = pad

theorem isGroupChar_of_mem_group {n : ℕ} (h : n < 2 ^ 24) : ∀ c ∈ group n, IsGroupChar c := by
  rw [group]
  simp only [List.forall_mem_cons, List.not_mem_nil, false_implies, implies_true, and_true]
  exact ⟨Or.inl ⟨_, by omega, rfl⟩, Or.inl ⟨_, by omega, rfl⟩, Or.inl ⟨_, by omega, rfl⟩,
    Or.inl ⟨_, by omega, rfl⟩⟩

theorem isGroupChar_of_mem_groups {input : List UInt8} :
    ∀ g ∈ groups input, ∀ c ∈ g, IsGroupChar c := by
  induction input using groups.induct with
  | case1 b₀ b₁ b₂ input ih =>
    rw [groups]
    exact List.forall_mem_cons.mpr ⟨isGroupChar_of_mem_group (word_lt b₀ b₁ b₂), ih⟩
  | case2 b₀ b₁ =>
    simp only [groups, List.mem_singleton, forall_eq, List.forall_mem_append]
    exact ⟨fun c hc => isGroupChar_of_mem_group (word_lt b₀ b₁ 0) c (List.mem_of_mem_take hc),
      Or.inr rfl⟩
  | case3 b₀ =>
    simp only [groups, List.mem_singleton, forall_eq, List.forall_mem_append]
    refine ⟨fun c hc => isGroupChar_of_mem_group (word_lt b₀ 0 0) c (List.mem_of_mem_take hc), ?_⟩
    simp [IsGroupChar]
  | case4 => simp [groups]

theorem IsGroupChar.ne_newline {c : UInt8} (h : IsGroupChar c) : c ≠ newline := by
  rcases h with ⟨i, hi, rfl⟩ | rfl
  · exact (tables hi).2.2.2.2
  · decide

/-! ### Lines -/

/-- **The layout** of groups: with `isChunked`, a line ends after 72 columns and at the end. -/
def layout (isChunked : Bool) : ℕ → List (List UInt8) → List UInt8
  | cols, [] => if cols > 0 ∧ isChunked then [newline] else []
  | cols, g :: gs =>
    if cols + 4 = maxColumns then
      g ++ ((if isChunked then [newline] else []) ++ layout isChunked 0 gs)
    else g ++ layout isChunked (cols + 4) gs

/-- **The text** of a sequence of bytes. -/
def text (isChunked : Bool) (input : List UInt8) : List UInt8 := layout isChunked 0 (groups input)

/-- A group, the newline behind it when it ends a line, and the rest. -/
theorem layout_cons (isChunked : Bool) (cols : ℕ) (g : List UInt8) (gs : List (List UInt8)) :
    layout isChunked cols (g :: gs) =
      (g ++ if cols + 4 = maxColumns ∧ isChunked then [newline] else []) ++
        layout isChunked (if cols + 4 = maxColumns then 0 else cols + 4) gs := by
  rw [layout]
  by_cases hcols : cols + 4 = maxColumns
  · simp only [hcols, ↓reduceIte, true_and, List.append_assoc]
  · simp only [hcols, ↓reduceIte, false_and, List.append_nil]

/-- A last group ends its line. -/
theorem layout_singleton (isChunked : Bool) (cols : ℕ) (g : List UInt8) :
    layout isChunked cols [g] = g ++ if isChunked then [newline] else [] := by
  rw [layout_cons, layout]
  by_cases hcols : cols + 4 = maxColumns
  · simp only [hcols, ↓reduceIte, true_and, gt_iff_lt, lt_irrefl, false_and, List.append_nil]
  · simp only [hcols, ↓reduceIte, false_and, List.append_nil, gt_iff_lt, Nat.zero_lt_succ, true_and]

section Layout

variable {isChunked : Bool} {cols : ℕ} {gs : List (List UInt8)}

/-- The bound on the size of a text. -/
theorem length_layout_le (h : ∀ g ∈ gs, g.length = 4) (hcols : cols < 72) (h4 : cols % 4 = 0) :
    (layout isChunked cols gs).length ≤ 4 * gs.length + (cols + 4 * gs.length) / 72 + 1 := by
  induction gs generalizing cols with
  | nil =>
    rw [layout]
    split_ifs <;> simp
  | cons g gs ih =>
    have hg := h g (by simp)
    have hgs := fun g hg => h g (List.mem_cons_of_mem _ hg)
    rw [layout, maxColumns]
    split_ifs with hc hchunked
    · have hle := ih hgs (Nat.zero_lt_succ 71) rfl
      simp only [List.length_append, List.length_cons, List.length_nil]
      omega
    · have hle := ih hgs (Nat.zero_lt_succ 71) rfl
      simp only [List.length_append, List.length_cons, List.length_nil]
      omega
    · have hle := ih hgs (by omega : cols + 4 < 72) (by omega)
      simp only [List.length_append, List.length_cons]
      omega

theorem le_length_layout (h : ∀ g ∈ gs, g.length = 4) :
    4 * gs.length ≤ (layout isChunked cols gs).length := by
  induction gs generalizing cols with
  | nil => exact Nat.zero_le _
  | cons g gs ih =>
    have hg := h g (by simp)
    have hle := @ih (if cols + 4 = maxColumns then 0 else cols + 4)
      fun g hg => h g (List.mem_cons_of_mem _ hg)
    rw [layout_cons, List.length_append, List.length_append, List.length_cons, hg]
    omega

/-- The characters of a text are those of its groups, and newlines where it is chunked. -/
theorem forall_mem_layout {P : UInt8 → Prop} (h : ∀ g ∈ gs, ∀ c ∈ g, P c)
    (hnl : isChunked = true → P newline) : ∀ c ∈ layout isChunked cols gs, P c := by
  have hend : ∀ q : Prop, [Decidable q] → ∀ c ∈ if q ∧ isChunked = true then [newline] else [],
      P c := by
    intro q _
    split_ifs with hq
    · simpa using hnl hq.2
    · simp
  induction gs generalizing cols with
  | nil =>
    rw [layout]
    exact hend _
  | cons g gs ih =>
    have hgs := fun g hg => h g (List.mem_cons_of_mem _ hg)
    rw [layout]
    split_ifs with hc hchunked
    · simp only [List.forall_mem_append, List.mem_singleton, forall_eq]
      exact ⟨h g (by simp), hnl hchunked, ih hgs⟩
    · simp only [List.forall_mem_append, List.not_mem_nil, false_implies, implies_true, true_and]
      exact ⟨h g (by simp), ih hgs⟩
    · exact List.forall_mem_append.mpr ⟨h g (by simp), ih hgs⟩

/-- A text whose lines have at most 72 characters, when the first one comes after `cols` others. -/
def Narrow : ℕ → List UInt8 → Prop
  | _, [] => True
  | cols, c :: t => if c = newline then Narrow 0 t else cols + 1 ≤ 72 ∧ Narrow (cols + 1) t

theorem narrow_append {g t : List UInt8} (h : ∀ c ∈ g, c ≠ newline) :
    Narrow cols (g ++ t) ↔ (g ≠ [] → cols + g.length ≤ 72) ∧ Narrow (cols + g.length) t := by
  induction g generalizing cols with
  | nil => simp
  | cons c g ih =>
    have hc := h c (by simp)
    rw [List.cons_append, Narrow, if_neg hc, ih fun d hd => h d (List.mem_cons_of_mem _ hd),
      List.length_cons, Nat.add_right_comm, Nat.add_assoc cols g.length 1]
    rcases g with _ | ⟨d, g⟩
    · simp
    · simp only [ne_eq, reduceCtorEq, not_false_eq_true, true_implies, List.length_cons]
      constructor
      · rintro ⟨-, h⟩
        exact h
      · rintro h
        exact ⟨by omega, h⟩

theorem narrow_layout (h : ∀ g ∈ gs, g.length = 4) (hnl : ∀ g ∈ gs, ∀ c ∈ g, c ≠ newline)
    (hcols : cols < 72) (h4 : cols % 4 = 0) : Narrow cols (layout true cols gs) := by
  induction gs generalizing cols with
  | nil =>
    rw [layout]
    split_ifs <;> simp [Narrow]
  | cons g gs ih =>
    have hg := h g (by simp)
    have hgs := fun g hg => h g (List.mem_cons_of_mem _ hg)
    have hnls := fun g hg => hnl g (List.mem_cons_of_mem _ hg)
    rw [layout, maxColumns]
    split_ifs with hc hchunked
    · rw [narrow_append (hnl g (by simp)), List.singleton_append, Narrow, if_pos rfl]
      exact ⟨fun _ => by omega, ih hgs hnls (Nat.zero_lt_succ 71) rfl⟩
    · exact absurd rfl hchunked
    · rw [narrow_append (hnl g (by simp)), hg]
      exact ⟨fun _ => by omega, ih hgs hnls (by omega) (by omega)⟩

/-- The lines of a narrow text: the first has room behind the columns in use. -/
theorem Narrow.lines {t : List UInt8} (h : Narrow cols t) (hcols : cols ≤ 72) :
    ∃ l ls, t.splitOn newline = l :: ls ∧ cols + l.length ≤ 72 ∧ ∀ m ∈ ls, m.length ≤ 72 := by
  induction t generalizing cols with
  | nil => exact ⟨[], [], rfl, hcols, by simp⟩
  | cons c t ih =>
    rw [List.splitOn, List.splitOnP_cons_eq_if_modifyHead]
    rw [Narrow] at h
    by_cases hc : c = newline
    · rw [if_pos hc] at h
      obtain ⟨l, ls, heq, hl, hls⟩ := ih h (Nat.zero_le 72)
      refine ⟨[], l :: ls, by rw [if_pos (by simp [hc]), ← heq, List.splitOn], hcols, ?_⟩
      exact List.forall_mem_cons.mpr ⟨by omega, hls⟩
    · rw [if_neg hc] at h
      obtain ⟨l, ls, heq, hl, hls⟩ := ih h.2 h.1
      rw [List.splitOn] at heq
      exact ⟨c :: l, ls, by rw [if_neg (by simp [hc]), heq]; rfl, by rw [List.length_cons]; omega,
        hls⟩

end Layout

/-- **The lines of a chunked text** have at most 72 characters. -/
theorem length_line_text (input : List UInt8) :
    ∀ l ∈ (text true input).splitOn newline, l.length ≤ 72 := by
  have hnarrow : Narrow 0 (text true input) := narrow_layout length_of_mem_groups
    (fun g hg c hc => (isGroupChar_of_mem_groups g hg c hc).ne_newline) (Nat.zero_lt_succ 71) rfl
  obtain ⟨l, ls, heq, hl, hls⟩ := hnarrow.lines (Nat.zero_le 72)
  rw [heq]
  exact List.forall_mem_cons.mpr ⟨by omega, hls⟩

/-- **The size of a text** leaves room for the null byte. -/
theorem length_text_lt (isChunked : Bool) (input : List UInt8) :
    (text isChunked input).length < encodeLength input.length := by
  have hle : (text isChunked input).length ≤ _ :=
    length_layout_le length_of_mem_groups (Nat.zero_lt_succ 71) rfl
  rw [length_groups] at hle
  simp only [encodeLength, maxColumns]
  omega

theorem le_length_text (isChunked : Bool) (input : List UInt8) :
    4 * ((input.length + 2) / 3) ≤ (text isChunked input).length := by
  rw [← length_groups]
  exact le_length_layout length_of_mem_groups

/-- **The characters of a text**. -/
theorem forall_mem_text {isChunked : Bool} {input : List UInt8} :
    ∀ c ∈ text isChunked input, IsGroupChar c ∨ c = newline ∧ isChunked = true :=
  forall_mem_layout (fun g hg c hc => Or.inl (isGroupChar_of_mem_groups g hg c hc))
    fun h => Or.inr ⟨rfl, h⟩

end AceTao.Base64

/-!
## What `encode` writes

`encode` writes the text of its input and a null byte, inside the buffer that it allocates
(`encode_spec`). The loop is followed three bytes at a time: `Writing` says that the buffer holds a
prefix of the text.
-/

namespace AceTao.Base64

/-- The buffer, of `cap` bytes, holds the characters `out`, and the next goes behind them. -/
structure Writing (cap : ℕ) (out : List UInt8) (s : Encoding) : Prop where
  filled : out <+: s.result
  pos : s.pos = out.length
  length : s.result.length = cap

namespace Writing

variable {cap : ℕ} {out : List UInt8} {s : Encoding}

/-- The state differs in the fields that `put` does not touch. -/
theorem congr (h : Writing cap out s) (bits charCount cols : ℕ) :
    Writing cap out { s with bits := bits, charCount := charCount, cols := cols } :=
  ⟨h.filled, h.pos, h.length⟩

/-- **A character is written** where there is room for it. -/
theorem put (h : Writing cap out s) (c : UInt8) (hcap : out.length < cap) :
    ∃ s', s.put c = some s' ∧ Writing cap (out ++ [c]) s' ∧ s'.bits = s.bits ∧
      s'.charCount = s.charCount ∧ s'.cols = s.cols := by
  obtain ⟨buf, hs, hp, hl⟩ := Buffer.store_append h.filled (by rwa [h.length]) c
  refine ⟨{ s with result := buf, pos := s.pos + 1 }, ?_, ⟨hp, ?_, hl.trans h.length⟩, rfl, rfl,
    rfl⟩
  · rw [Encoding.put, h.pos, hs]
  · simp [h.pos]

theorem putSymbol (h : Writing cap out s) {i : ℕ} (hi : i < 64) (hcap : out.length < cap) :
    ∃ s', s.putSymbol i = some s' ∧ Writing cap (out ++ [symbol i]) s' ∧ s'.bits = s.bits ∧
      s'.charCount = s.charCount ∧ s'.cols = s.cols := by
  obtain ⟨s', hs, h'⟩ := h.put (symbol i) hcap
  exact ⟨s', by rw [Encoding.putSymbol, getElem?_alphabet hi]; exact hs, h'⟩

/-- A newline is written when the text is chunked. -/
theorem newline (h : Writing cap out s) {q : Prop} [Decidable q] (hcap : q → out.length < cap) :
    ∃ s', (if q then s.put newline else some s) = some s' ∧
      Writing cap (out ++ if q then [Base64.newline] else []) s' ∧ s'.bits = s.bits ∧
      s'.charCount = s.charCount ∧ s'.cols = s.cols := by
  split_ifs with hq
  · exact h.put _ (hcap hq)
  · exact ⟨s, rfl, by rwa [List.append_nil], rfl, rfl, rfl⟩

end Writing

/-- The mask of the six bits of a character. -/
theorem and_63 (n : ℕ) : n &&& 0x3f = n % 64 := Nat.and_two_pow_sub_one_eq_mod n 6

/-! ### The loop -/

section Loop

variable {cap : ℕ} {out : List UInt8} {s : Encoding} {isChunked : Bool}

/-- The first two bytes of three are collected. -/
theorem encodeByte_collect (isChunked : Bool) (h : s.charCount + 1 ≠ 3) (b : UInt8) :
    encodeByte isChunked s b = some { s with
      bits := (s.bits + b.toNat) * 256, charCount := s.charCount + 1 } := by
  rw [encodeByte]
  simp only [if_neg h, Nat.shiftLeft_eq]

/-- Four characters are written. -/
theorem put_group (h : Writing cap out s) {n : ℕ} (hn : n < 2 ^ 24) (hcap : out.length + 4 ≤ cap) :
    ∃ s', s.putGroup n = some s' ∧ Writing cap (out ++ group n) s' ∧ s'.cols = s.cols := by
  simp only [Encoding.putGroup, Nat.shiftRight_eq_div_pow, and_63]
  obtain ⟨s₁, h₁, hw₁, -, -, hc₁⟩ := h.putSymbol (i := n / 2 ^ 18) (by omega) (by omega)
  obtain ⟨s₂, h₂, hw₂, -, -, hc₂⟩ :=
    hw₁.putSymbol (i := n / 2 ^ 12 % 64) (by omega) (by simp; omega)
  obtain ⟨s₃, h₃, hw₃, -, -, hc₃⟩ :=
    hw₂.putSymbol (i := n / 2 ^ 6 % 64) (by omega) (by simp; omega)
  obtain ⟨s₄, h₄, hw₄, -, -, hc₄⟩ := hw₃.putSymbol (i := n % 64) (by omega) (by simp; omega)
  refine ⟨s₄, ?_, ?_, by rw [hc₄, hc₃, hc₂, hc₁]⟩
  · simp only [h₁, h₂, h₃, h₄, Option.bind_eq_bind, Option.bind_some]
  · simpa [group] using hw₄

/-- **The third byte** writes a group, and a newline at the end of a line. -/
theorem encodeByte_group (isChunked : Bool) (h : Writing cap out s) (hcount : s.charCount = 2)
    {n : ℕ} {b : UInt8} (hbits : s.bits + b.toNat = n) (hn : n < 2 ^ 24)
    (hcap : (out ++ (group n ++
      if s.cols + 4 = maxColumns ∧ isChunked then [newline] else [])).length ≤ cap) :
    ∃ s', encodeByte isChunked s b = some s' ∧
      Writing cap (out ++ (group n ++
        if s.cols + 4 = maxColumns ∧ isChunked then [newline] else [])) s' ∧
      s'.bits = 0 ∧ s'.charCount = 0 ∧
      s'.cols = if s.cols + 4 = maxColumns then 0 else s.cols + 4 := by
  rw [← List.append_assoc, List.length_append] at hcap
  rw [← List.append_assoc]
  obtain ⟨s₁, h₁, hw₁, hc₁⟩ := put_group h hn (by
    rw [List.length_append, length_group] at hcap
    omega)
  obtain ⟨s₂, h₂, hw₂, -, -, hc₂⟩ := hw₁.newline
    (q := s.cols + 4 = maxColumns ∧ isChunked) (fun hq => by
      rw [if_pos hq, List.length_singleton] at hcap
      omega)
  have hrun : encodeByte isChunked s b = some { s₂ with
      cols := if s.cols + 4 = maxColumns then 0 else s.cols + 4, bits := 0, charCount := 0 } := by
    rw [encodeByte, hbits, hcount]
    simp only [↓reduceIte, h₁, Option.bind_eq_bind, Option.bind_some, hc₁]
    by_cases hcols : s.cols + 4 = maxColumns
    · simp only [hcols, true_and] at h₂
      simp only [hcols, ↓reduceIte]
      split_ifs at h₂ ⊢ with hchunked
      · rw [h₂, Option.bind_some]
      · rw [Option.some.inj h₂]
    · simp only [hcols, false_and, ↓reduceIte, Option.some.injEq] at h₂
      simp only [hcols, ↓reduceIte, h₂]
  exact ⟨_, hrun, hw₂.congr 0 0 _, rfl, rfl, rfl⟩

/-- **The bytes left over** write a padded group. -/
theorem encodeLeftover_spec (h : Writing cap out s) (hcount : s.charCount = 1 ∨ s.charCount = 2)
    {n : ℕ} (hbits : s.bits * 2 ^ (16 - 8 * s.charCount) = n) (hn : n < 2 ^ 24)
    (hcap : out.length + 4 ≤ cap) :
    ∃ s', encodeLeftover s = some s' ∧
      Writing cap (out ++ ((group n).take (s.charCount + 1) ++
        List.replicate (3 - s.charCount) pad)) s' ∧ s'.cols = s.cols + 4 := by
  have hne : s.charCount ≠ 0 := by omega
  obtain ⟨s₁, h₁, hw₁, -, hk₁, hc₁⟩ := h.putSymbol (i := n / 2 ^ 18) (by omega) (by omega)
  obtain ⟨s₂, h₂, hw₂, -, hk₂, hc₂⟩ :=
    hw₁.putSymbol (i := n / 2 ^ 12 % 64) (by omega) (by simp; omega)
  rw [encodeLeftover, if_pos hne, Nat.shiftLeft_eq, hbits]
  simp only [Nat.shiftRight_eq_div_pow, and_63, h₁, h₂, Option.bind_eq_bind, Option.bind_some, hk₂,
    hk₁]
  rcases hcount with hcount | hcount
  · obtain ⟨s₃, h₃, hw₃, -, -, hc₃⟩ := hw₂.put pad (by simp; omega)
    obtain ⟨s₄, h₄, hw₄, -, -, hc₄⟩ := hw₃.put pad (by simp; omega)
    refine ⟨{ s₄ with cols := s₄.cols + 4 }, ?_, ?_, ?_⟩
    · rw [if_pos hcount, h₃, Option.bind_some, h₄, Option.bind_some]
    · rw [hcount]
      simpa [group] using hw₄.congr s₄.bits s₄.charCount (s₄.cols + 4)
    · exact congrArg (· + 4) (by rw [hc₄, hc₃, hc₂, hc₁])
  · obtain ⟨s₃, h₃, hw₃, -, -, hc₃⟩ :=
      hw₂.putSymbol (i := n / 2 ^ 6 % 64) (by omega) (by simp; omega)
    obtain ⟨s₄, h₄, hw₄, -, -, hc₄⟩ := hw₃.put pad (by simp; omega)
    refine ⟨{ s₄ with cols := s₄.cols + 4 }, ?_, ?_, ?_⟩
    · rw [if_neg (by omega), h₃, Option.bind_some, h₄, Option.bind_some]
    · rw [hcount]
      simpa [group] using hw₄.congr s₄.bits s₄.charCount (s₄.cols + 4)
    · exact congrArg (· + 4) (by rw [hc₄, hc₃, hc₂, hc₁])

/-- The states after one byte and after two of the three. -/
theorem encodeByte_two (h : s.charCount = 0) (hbits : s.bits = 0) (isChunked : Bool)
    (b₀ b₁ : UInt8) :
    encodeByte isChunked s b₀ = some { s with bits := b₀.toNat * 256, charCount := 1 } ∧
      encodeByte isChunked { s with bits := b₀.toNat * 256, charCount := 1 } b₁ =
        some { s with bits := (b₀.toNat * 256 + b₁.toNat) * 256, charCount := 2 } := by
  constructor
  · rw [encodeByte_collect isChunked (by omega) b₀, hbits, h, Nat.zero_add]
  · exact encodeByte_collect isChunked (by simp) b₁

/-- What is left to do for the rest of the input: the loop, the bytes left over and the last
newline. -/
def encodeRest (isChunked : Bool) (input : List UInt8) (s : Encoding) : Option Encoding := do
  let s ← input.foldlM (encodeByte isChunked) s
  let s ← encodeLeftover s
  if s.cols > 0 ∧ isChunked then s.put newline else some s

theorem encodeRest_cons {b : UInt8} {s' : Encoding} (h : encodeByte isChunked s b = some s')
    (input : List UInt8) : encodeRest isChunked (b :: input) s = encodeRest isChunked input s' := by
  rw [encodeRest, List.foldlM_cons, h]
  rfl

/-- The end of the text: a padded group and a newline. -/
theorem encodeRest_nil (h : Writing cap out s) (hcount : s.charCount = 1 ∨ s.charCount = 2)
    {n : ℕ} (hbits : s.bits * 2 ^ (16 - 8 * s.charCount) = n) (hn : n < 2 ^ 24)
    {g : List UInt8}
    (hg : (group n).take (s.charCount + 1) ++ List.replicate (3 - s.charCount) pad = g)
    (hcap : (out ++ (g ++ if isChunked then [newline] else [])).length ≤ cap) :
    ∃ s', encodeRest isChunked [] s = some s' ∧
      Writing cap (out ++ (g ++ if isChunked then [newline] else [])) s' := by
  have hlen : g.length = 4 := by
    rw [← hg]
    rcases hcount with hcount | hcount <;> simp [hcount, group]
  simp only [List.length_append, hlen] at hcap
  obtain ⟨s₁, h₁, hw₁, hc₁⟩ := encodeLeftover_spec h hcount hbits hn (by omega)
  rw [hg] at hw₁
  obtain ⟨s₂, h₂, hw₂, -⟩ := hw₁.newline (q := s₁.cols > 0 ∧ isChunked) (fun hq => by
    rw [if_pos hq.2, List.length_singleton] at hcap
    rw [List.length_append, hlen]
    omega)
  have hpos : s₁.cols > 0 := by omega
  rw [List.append_assoc] at hw₂
  simp only [hpos, true_and] at h₂ hw₂
  refine ⟨s₂, ?_, hw₂⟩
  rw [encodeRest, List.foldlM_nil]
  simp only [Option.pure_def, Option.bind_eq_bind, Option.bind_some, h₁, hpos, true_and, h₂]

/-- **The rest of the input** writes the rest of the text. -/
theorem encodeRest_spec {input : List UInt8} (h : Writing cap out s) (hcount : s.charCount = 0)
    (hbits : s.bits = 0)
    (hcap : (out ++ layout isChunked s.cols (groups input)).length ≤ cap) :
    ∃ s', encodeRest isChunked input s = some s' ∧
      Writing cap (out ++ layout isChunked s.cols (groups input)) s' := by
  induction input using groups.induct generalizing out s with
  | case1 b₀ b₁ b₂ input ih =>
    rw [groups, layout_cons, ← List.append_assoc] at hcap ⊢
    obtain ⟨h₁, h₂⟩ := encodeByte_two hcount hbits isChunked b₀ b₁
    have h' := h.congr ((b₀.toNat * 256 + b₁.toNat) * 256) 2 s.cols
    obtain ⟨s₃, h₃, hw₃, hb₃, hk₃, hc₃⟩ := encodeByte_group isChunked h' rfl
      (n := word b₀ b₁ b₂) (b := b₂) rfl (word_lt b₀ b₁ b₂)
      (by rw [List.length_append] at hcap; exact Nat.le_of_add_right_le hcap)
    rw [encodeRest_cons h₁, encodeRest_cons h₂, encodeRest_cons h₃, ← hc₃]
    rw [← hc₃] at hcap
    exact ih hw₃ hk₃ hb₃ hcap
  | case2 b₀ b₁ =>
    rw [groups, layout_singleton] at hcap ⊢
    obtain ⟨h₁, h₂⟩ := encodeByte_two hcount hbits isChunked b₀ b₁
    rw [encodeRest_cons h₁, encodeRest_cons h₂]
    exact encodeRest_nil (h.congr _ 2 _) (Or.inr rfl) (by simp [word]) (word_lt b₀ b₁ 0) rfl hcap
  | case3 b₀ =>
    rw [groups, layout_singleton] at hcap ⊢
    obtain ⟨h₁, -⟩ := encodeByte_two hcount hbits isChunked b₀ 0
    rw [encodeRest_cons h₁]
    exact encodeRest_nil (h.congr _ 1 _) (Or.inl rfl) (by simp [word]) (word_lt b₀ 0 0) rfl hcap
  | case4 =>
    rw [groups, layout] at hcap ⊢
    obtain ⟨s', hs', hw', -⟩ := h.newline (q := s.cols > 0 ∧ isChunked) fun hq => by
      rw [if_pos hq, List.length_append, List.length_singleton] at hcap
      omega
    refine ⟨s', ?_, hw'⟩
    rw [encodeRest, List.foldlM_nil]
    simp only [Option.pure_def, Option.bind_eq_bind, Option.bind_some, encodeLeftover, hcount, hs',
      ne_eq, not_true_eq_false, ↓reduceIte]

end Loop

/-- `encode` does what is left to do at the start, and stores a null byte. -/
theorem encode_eq (env : Environment) (input : List UInt8) (isChunked : Bool) :
    encode env input isChunked =
      (encodeRest isChunked input ⟨env.new (encodeLength input.length), 0, 0, 0, 0⟩).bind fun s =>
        (Buffer.store s.result s.pos 0).bind fun result => some (result, s.pos) := by
  simp only [encode, encodeRest, Option.bind_eq_bind, Option.bind_assoc]
  refine congrArg _ (funext fun s => congrArg _ (funext fun t => ?_))
  split_ifs <;> rfl

/-- **What `encode` writes**: the text of its input and a null byte. -/
theorem encode_spec (env : Environment) (input : List UInt8) (isChunked : Bool) :
    ∃ result, encode env input isChunked = some (result, (text isChunked input).length) ∧
      text isChunked input ++ [0] <+: result := by
  have h₀ : Writing (encodeLength input.length) []
      ⟨env.new (encodeLength input.length), 0, 0, 0, 0⟩ :=
    ⟨List.nil_prefix, rfl, env.length_new _⟩
  have hlt := length_text_lt isChunked input
  obtain ⟨s, hs, hw⟩ : ∃ s', encodeRest isChunked input _ = some s' ∧
      Writing _ (text isChunked input) s' := encodeRest_spec h₀ rfl rfl (Nat.le_of_lt hlt)
  obtain ⟨result, hstore, hp, -⟩ := Buffer.store_append hw.filled (by rw [hw.length]; exact hlt) 0
  refine ⟨result, ?_, hp⟩
  rw [encode_eq, hs, Option.bind_some, hw.pos, hstore]
  rfl

end AceTao.Base64
