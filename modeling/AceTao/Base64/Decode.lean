import AceTao.Base64.Encode

/-!
# Decoding a text

`decode` stays inside the buffer that it allocates, whatever its input (`decode_ne_none`): three
bytes are written for four characters. It gives the bytes back whose text it reads
(`decode_text`); it skips the newlines, and stops at the padding.
-/

namespace AceTao.Base64

/-! ### The buffer is large enough -/

section Safe

variable {s : Decoding} {cap : ℕ}

/-- The scan ends at the null byte at the latest. -/
theorem scan_ne_none (env : Environment) {input : List UInt8} (h : 0 ∈ input) :
    ∃ n, scan env input = some n ∧ n ≤ input.length := by
  induction input with
  | nil => simp at h
  | cons c input ih =>
    rw [scan]
    split_ifs with hc
    · have hmem : 0 ∈ input := by
        rcases List.mem_cons.mp h with h0 | hmem
        · exact absurd h0.symm hc.1
        · exact hmem
      obtain ⟨n, hn, hle⟩ := ih hmem
      exact ⟨n + 1, by rw [hn]; rfl, by rw [List.length_cons]; omega⟩
    · exact ⟨0, rfl, Nat.zero_le _⟩

/-- A byte is written inside the buffer. -/
theorem put_of_lt (hcap : s.result.length = cap) (hlt : s.pos < cap) (i : ℕ) :
    ∃ buf, s.put i = some { s with result := buf, pos := s.pos + 1 } ∧ buf.length = cap := by
  refine ⟨s.result.set s.pos (UInt8.ofNat i), ?_, by rw [List.length_set, hcap]⟩
  rw [Decoding.put, Buffer.store, if_pos (by rwa [hcap])]

/-- **The budget of the loop**: four characters for three bytes. -/
structure Within (cap len left : ℕ) (s : Decoding) : Prop where
  length : s.result.length = cap
  charCount : s.charCount ≤ 3
  budget : 4 * s.pos + 3 * (s.charCount + left) ≤ 3 * len

theorem decodeLoop_within {len : ℕ} {input : List UInt8} (h : Within cap len input.length s)
    (hcap : cap = (len + 3) / 4 * 3 + 1) :
    ∃ p s', decodeLoop input s = some (p, s') ∧ Within cap len (if p then 1 else 0) s' := by
  induction input generalizing s with
  | nil => exact ⟨false, s, rfl, h⟩
  | cons c input ih =>
    have hb := h.budget
    have hk := h.charCount
    rw [List.length_cons] at hb
    rw [decodeLoop]
    split_ifs with hpad hmem
    · exact ⟨true, s, rfl, h.length, hk, by simp only [if_true]; omega⟩
    · exact ih ⟨h.length, hk, by omega⟩
    · dsimp only
      split_ifs with h4
      · obtain ⟨b₁, h₁, hl₁⟩ := put_of_lt h.length (by omega) ((s.bits + decoder c) >>> 16)
        obtain ⟨b₂, h₂, hl₂⟩ := put_of_lt (s := { s with result := b₁, pos := s.pos + 1 }) hl₁
          (by dsimp only; omega) (((s.bits + decoder c) >>> 8) &&& 0xff)
        obtain ⟨b₃, h₃, hl₃⟩ := put_of_lt (s := { s with result := b₂, pos := s.pos + 1 + 1 }) hl₂
          (by dsimp only; omega) ((s.bits + decoder c) &&& 0xff)
        simp only [h₁, h₂, h₃, Option.bind_eq_bind, Option.bind_some]
        exact ih ⟨hl₃, by dsimp only; omega, by dsimp only; omega⟩
      · exact ih ⟨h.length, by dsimp only; omega, by dsimp only; omega⟩

/-- The bytes left over, and the null byte behind them, have room. -/
theorem decodeLeftover_within {len : ℕ} (h : Within cap len 1 s)
    (hcap : cap = (len + 3) / 4 * 3 + 1) :
    ∃ r, decodeLeftover s = some r ∧ ∀ t, r = some t → t.result.length = cap ∧ t.pos < cap := by
  have hb := h.budget
  rw [decodeLeftover]
  split_ifs with h1 h2 h3
  · exact ⟨none, rfl, by simp⟩
  · obtain ⟨b₁, h₁, hl₁⟩ := put_of_lt h.length (by omega) (s.bits >>> 10)
    refine ⟨some { s with result := b₁, pos := s.pos + 1 }, by rw [h₁]; rfl, ?_⟩
    rintro t ⟨⟩
    exact ⟨hl₁, by dsimp only; omega⟩
  · obtain ⟨b₁, h₁, hl₁⟩ := put_of_lt h.length (by omega) (s.bits >>> 16)
    obtain ⟨b₂, h₂, hl₂⟩ := put_of_lt (s := { s with result := b₁, pos := s.pos + 1 }) hl₁
      (by dsimp only; omega) ((s.bits >>> 8) &&& 0xff)
    refine ⟨some { s with result := b₂, pos := s.pos + 1 + 1 }, ?_, ?_⟩
    · simp only [h₁, h₂, Option.bind_eq_bind, Option.bind_some]
    · rintro t ⟨⟩
      exact ⟨hl₂, by dsimp only; omega⟩
  · refine ⟨some s, rfl, ?_⟩
    rintro t ⟨⟩
    exact ⟨h.length, by omega⟩

/-- What follows the loop leaves room for the null byte. -/
theorem decodeEnd_within {len : ℕ} {padded : Bool} (h : Within cap len (if padded then 1 else 0) s)
    (hcap : cap = (len + 3) / 4 * 3 + 1) :
    ∃ r, decodeEnd padded s = some r ∧ ∀ t, r = some t → t.result.length = cap ∧ t.pos < cap := by
  rw [decodeEnd]
  rcases padded with _ | _
  · rw [if_neg (by decide)]
    split_ifs with hk
    · exact ⟨none, rfl, by simp⟩
    · have hb := h.budget
      refine ⟨some s, rfl, ?_⟩
      rintro t ⟨⟩
      exact ⟨h.length, by omega⟩
  · rw [if_pos rfl]
    exact decodeLeftover_within h hcap

end Safe

/-- **`decode` stays inside its buffer**, whatever the input, if a null byte ends it. -/
theorem decode_ne_none (env : Environment) {input : List UInt8} (h : 0 ∈ input) :
    decode env input ≠ none := by
  obtain ⟨len, hscan, hle⟩ := scan_ne_none env h
  have hlen : (input.take len).length = len := by rw [List.length_take, Nat.min_eq_left hle]
  have h₀ : Within ((len + 3) / 4 * 3 + 1) len (input.take len).length
      ⟨env.new ((len + 3) / 4 * 3 + 1), 0, 0, 0⟩ :=
    ⟨env.length_new _, Nat.zero_le 3, by rw [hlen, Nat.mul_zero, Nat.zero_add, Nat.zero_add]⟩
  obtain ⟨p, s, hloop, hs⟩ := decodeLoop_within h₀ rfl
  obtain ⟨r, hr, ht⟩ := decodeEnd_within hs rfl
  rw [decode, length, hscan]
  simp only [Option.map_some, Option.bind_eq_bind, Option.bind_some, hloop, hr]
  rcases r with _ | t
  · simp
  · obtain ⟨hl, hlt⟩ := ht t rfl
    simp only [Buffer.store, hl, if_pos hlt]
    simp

/-! ### The text -/

/-- The buffer, of `cap` bytes, holds the bytes `out`, and no character is left over. -/
structure Decoded (cap : ℕ) (out : List UInt8) (s : Decoding) : Prop where
  filled : out <+: s.result
  pos : s.pos = out.length
  length : s.result.length = cap

section Text

variable {cap : ℕ} {out : List UInt8} {s : Decoding}

theorem Decoded.congr (h : Decoded cap out s) (bits charCount : ℕ) :
    Decoded cap out { s with bits := bits, charCount := charCount } :=
  ⟨h.filled, h.pos, h.length⟩

/-- A byte is written behind those the buffer holds. -/
theorem Decoded.put (h : Decoded cap out s) (hcap : out.length < cap) (i : ℕ) {b : UInt8}
    (hb : UInt8.ofNat i = b) :
    ∃ s', s.put i = some s' ∧ Decoded cap (out ++ [b]) s' ∧ s'.bits = s.bits ∧
      s'.charCount = s.charCount := by
  obtain ⟨buf, hs, hp, hl⟩ := Buffer.store_append h.filled (by rwa [h.length]) b
  refine ⟨{ s with result := buf, pos := s.pos + 1 }, ?_, ⟨hp, by simp [h.pos], hl.trans h.length⟩,
    rfl, rfl⟩
  rw [Decoding.put, h.pos, hb, hs]

theorem decodeLoop_newline (t : List UInt8) : decodeLoop (newline :: t) s = decodeLoop t s := by
  rw [decodeLoop, if_neg (by decide), if_pos member_newline]

theorem decodeLoop_pad (t : List UInt8) : decodeLoop (pad :: t) s = some (true, s) := by
  rw [decodeLoop, if_pos rfl]

/-- One of the first three characters of a group is collected. -/
theorem decodeLoop_symbol {i : ℕ} (hi : i < 64) (h4 : s.charCount + 1 ≠ 4) (t : List UInt8) :
    decodeLoop (symbol i :: t) s = decodeLoop t { s with
      bits := (s.bits + i) * 2 ^ 6, charCount := s.charCount + 1 } := by
  obtain ⟨hd, hm, -, hp, -⟩ := tables hi
  rw [decodeLoop, if_neg hp, if_neg (by rw [hm]; decide), hd]
  simp only [if_neg h4, Nat.shiftLeft_eq]

/-- The first three characters of a group. -/
theorem decodeLoop_three {n : ℕ} (hn : n < 2 ^ 24) (hb : s.bits = 0) (hk : s.charCount = 0)
    (t : List UInt8) :
    decodeLoop (symbol (n / 2 ^ 18) :: symbol (n / 2 ^ 12 % 64) :: t) s = decodeLoop t { s with
        bits := n / 2 ^ 12 * 2 ^ 6, charCount := 2 } ∧
      decodeLoop (symbol (n / 2 ^ 6 % 64) :: t) { s with
        bits := n / 2 ^ 12 * 2 ^ 6, charCount := 2 } = decodeLoop t { s with
        bits := n / 2 ^ 6 * 2 ^ 6, charCount := 3 } := by
  constructor
  · rw [decodeLoop_symbol (by omega) (by omega), decodeLoop_symbol (by omega) (by simp [hk])]
    congr 2
    · simp only [hb]
      omega
    · simp only [hk]
  · rw [decodeLoop_symbol (by omega) (by simp)]
    congr 2
    simp only
    omega

/-- The bytes of a word. -/
theorem bytes_word (b₀ b₁ b₂ : UInt8) :
    UInt8.ofNat (word b₀ b₁ b₂ >>> 16) = b₀ ∧
      UInt8.ofNat ((word b₀ b₁ b₂ >>> 8) &&& 0xff) = b₁ ∧
      UInt8.ofNat (word b₀ b₁ b₂ &&& 0xff) = b₂ := by
  have h₀ := b₀.toNat_lt
  have h₁ := b₁.toNat_lt
  have h₂ := b₂.toNat_lt
  have hand : ∀ n : ℕ, n &&& 0xff = n % 256 := fun n => Nat.and_two_pow_sub_one_eq_mod n 8
  simp only [hand, Nat.shiftRight_eq_div_pow, word]
  refine ⟨?_, ?_, ?_⟩
  · rw [show ((b₀.toNat * 256 + b₁.toNat) * 256 + b₂.toNat) / 2 ^ 16 = b₀.toNat by omega,
      UInt8.ofNat_toNat]
  · rw [show ((b₀.toNat * 256 + b₁.toNat) * 256 + b₂.toNat) / 2 ^ 8 % 256 = b₁.toNat by omega,
      UInt8.ofNat_toNat]
  · rw [show ((b₀.toNat * 256 + b₁.toNat) * 256 + b₂.toNat) % 256 = b₂.toNat by omega,
      UInt8.ofNat_toNat]

/-- **A group is decoded** to its three bytes. -/
theorem decodeLoop_group (h : Decoded cap out s) (hb : s.bits = 0) (hk : s.charCount = 0)
    (b₀ b₁ b₂ : UInt8) (hcap : out.length + 3 ≤ cap) (t : List UInt8) :
    ∃ s', decodeLoop (group (word b₀ b₁ b₂) ++ t) s = decodeLoop t s' ∧
      Decoded cap (out ++ [b₀, b₁, b₂]) s' ∧ s'.bits = 0 ∧ s'.charCount = 0 := by
  obtain ⟨hbyte₀, hbyte₁, hbyte₂⟩ := bytes_word b₀ b₁ b₂
  have hn := word_lt b₀ b₁ b₂
  generalize word b₀ b₁ b₂ = n at *
  have hfirst :=
    (decodeLoop_three hn hb hk (symbol (n / 2 ^ 6 % 64) :: symbol (n % 64) :: t)).1
  obtain ⟨-, hthird⟩ := decodeLoop_three hn hb hk (symbol (n % 64) :: t)
  obtain ⟨hd, hm, -, hp, -⟩ := tables (Nat.mod_lt n (Nat.zero_lt_succ 63))
  have hbits : n / 2 ^ 6 * 2 ^ 6 + n % 64 = n := by omega
  obtain ⟨s₁, h₁, hw₁, -, -⟩ := (h.congr (n / 2 ^ 6 * 2 ^ 6) 3).put (by omega) _ hbyte₀
  obtain ⟨s₂, h₂, hw₂, -, -⟩ := hw₁.put (by simp; omega) _ hbyte₁
  obtain ⟨s₃, h₃, hw₃, -, -⟩ := hw₂.put (by simp; omega) _ hbyte₂
  refine ⟨{ s₃ with bits := 0, charCount := 0 }, ?_, by simpa using hw₃.congr 0 0, rfl, rfl⟩
  simp only [group, List.cons_append, List.nil_append]
  rw [hfirst, hthird, decodeLoop, if_neg hp, if_neg (by rw [hm]; decide), hd]
  simp only [hbits, ↓reduceIte, h₁, h₂, h₃, Option.bind_eq_bind, Option.bind_some]

/-- A newline between two groups is skipped. -/
theorem decodeLoop_newline_ite (q : Prop) [Decidable q] (t : List UInt8) :
    decodeLoop ((if q then [newline] else []) ++ t) s = decodeLoop t s := by
  split_ifs
  · exact decodeLoop_newline t
  · rfl

/-- A group with one padding character holds two bytes. -/
theorem decode_two (h : Decoded cap out s) (hb : s.bits = 0) (hk : s.charCount = 0)
    (b₀ b₁ : UInt8) (hcap : out.length + 2 ≤ cap) (t : List UInt8) :
    ∃ p s' s'', decodeLoop ((group (word b₀ b₁ 0)).take 3 ++ [pad] ++ t) s = some (p, s') ∧
      decodeEnd p s' = some (some s'') ∧ Decoded cap (out ++ [b₀, b₁]) s'' := by
  obtain ⟨hbyte₀, hbyte₁, -⟩ := bytes_word b₀ b₁ 0
  have hn := word_lt b₀ b₁ 0
  have hmod : word b₀ b₁ 0 / 2 ^ 6 * 2 ^ 6 = word b₀ b₁ 0 := by
    simp only [word, UInt8.toNat_zero]
    omega
  generalize word b₀ b₁ 0 = n at *
  have hfirst := (decodeLoop_three hn hb hk (symbol (n / 2 ^ 6 % 64) :: pad :: t)).1
  obtain ⟨-, hthird⟩ := decodeLoop_three hn hb hk (pad :: t)
  obtain ⟨s₁, h₁, hw₁, hb₁, -⟩ := (h.congr (n / 2 ^ 6 * 2 ^ 6) 3).put (by omega) _ hbyte₀
  obtain ⟨s₂, h₂, hw₂, -, -⟩ := hw₁.put (by simp; omega) _ hbyte₁
  refine ⟨true, { s with bits := n / 2 ^ 6 * 2 ^ 6, charCount := 3 }, s₂, ?_, ?_,
    by simpa using hw₂⟩
  · simp only [group, List.take_succ_cons, List.take_zero, List.cons_append, List.nil_append]
    rw [hfirst, hthird, decodeLoop_pad]
  · rw [decodeEnd, if_pos rfl, decodeLeftover]
    simp only [hmod] at h₁ hb₁ ⊢
    simp only [Nat.reduceEqDiff, ↓reduceIte, h₁, hb₁, h₂, Option.bind_eq_bind, Option.bind_some,
      Nat.succ_ne_self]

/-- A group with two padding characters holds one byte. -/
theorem decode_one (h : Decoded cap out s) (hb : s.bits = 0) (hk : s.charCount = 0)
    (b₀ : UInt8) (hcap : out.length + 1 ≤ cap) (t : List UInt8) :
    ∃ p s' s'', decodeLoop ((group (word b₀ 0 0)).take 2 ++ [pad, pad] ++ t) s = some (p, s') ∧
      decodeEnd p s' = some (some s'') ∧ Decoded cap (out ++ [b₀]) s'' := by
  have hn := word_lt b₀ 0 0
  have hbyte : UInt8.ofNat ((word b₀ 0 0 / 2 ^ 12 * 2 ^ 6) >>> 10) = b₀ := by
    have h₀ := b₀.toNat_lt
    rw [Nat.shiftRight_eq_div_pow, word, UInt8.toNat_zero,
      show ((b₀.toNat * 256 + 0) * 256 + 0) / 2 ^ 12 * 2 ^ 6 / 2 ^ 10 = b₀.toNat by omega,
      UInt8.ofNat_toNat]
  generalize word b₀ 0 0 = n at *
  have hfirst := (decodeLoop_three hn hb hk (pad :: pad :: t)).1
  obtain ⟨s₁, h₁, hw₁, -, -⟩ := (h.congr (n / 2 ^ 12 * 2 ^ 6) 2).put (by omega) _ hbyte
  refine ⟨true, { s with bits := n / 2 ^ 12 * 2 ^ 6, charCount := 2 }, s₁, ?_, ?_, hw₁⟩
  · simp only [group, List.take_succ_cons, List.take_zero, List.cons_append, List.nil_append]
    rw [hfirst, decodeLoop_pad]
  · rw [decodeEnd, if_pos rfl, decodeLeftover, if_neg (by simp), if_pos rfl, h₁]
    rfl

/-- **The rest of a text is decoded.** -/
theorem decode_layout {isChunked : Bool} {input : List UInt8} {cols : ℕ} (h : Decoded cap out s)
    (hb : s.bits = 0) (hk : s.charCount = 0) (hcap : out.length + input.length ≤ cap) :
    ∃ p s' s'', decodeLoop (layout isChunked cols (groups input)) s = some (p, s') ∧
      decodeEnd p s' = some (some s'') ∧ Decoded cap (out ++ input) s'' := by
  induction input using groups.induct generalizing out s cols with
  | case1 b₀ b₁ b₂ input ih =>
    simp only [List.length_cons] at hcap
    rw [groups, layout_cons, List.append_assoc]
    obtain ⟨s₁, h₁, hw₁, hb₁, hk₁⟩ := decodeLoop_group h hb hk b₀ b₁ b₂ (by omega)
      ((if cols + 4 = maxColumns ∧ isChunked then [newline] else []) ++
        layout isChunked (if cols + 4 = maxColumns then 0 else cols + 4) (groups input))
    rw [h₁, decodeLoop_newline_ite]
    obtain ⟨p, s', s'', hloop, hend, hw⟩ := ih hw₁ hb₁ hk₁ (by simp; omega)
    exact ⟨p, s', s'', hloop, hend, by simpa using hw⟩
  | case2 b₀ b₁ =>
    rw [groups, layout_singleton]
    exact decode_two h hb hk b₀ b₁ hcap _
  | case3 b₀ =>
    rw [groups, layout_singleton]
    exact decode_one h hb hk b₀ hcap _
  | case4 =>
    rw [groups, layout]
    have hend : decodeLoop (if cols > 0 ∧ isChunked then [newline] else []) s =
        some (false, s) := by
      have hskip := decodeLoop_newline_ite (s := s) (cols > 0 ∧ isChunked) []
      rw [List.append_nil] at hskip
      rw [hskip, decodeLoop]
    refine ⟨false, s, s, hend, ?_, by rwa [List.append_nil]⟩
    rw [decodeEnd, if_neg (by decide), if_neg (by rw [hk]; decide)]

end Text

/-- A text is scanned up to the null byte behind it. -/
theorem scan_append {env : Environment} {t rest : List UInt8} (h : ∀ c ∈ t, accepts env c) :
    scan env (t ++ 0 :: rest) = some t.length := by
  induction t with
  | nil => rw [List.nil_append, scan, if_neg (fun hc => hc.1 rfl)]; rfl
  | cons c t ih =>
    rw [List.cons_append, scan, if_pos (h c (by simp)),
      ih fun d hd => h d (List.mem_cons_of_mem _ hd)]
    rfl

/-- The characters of a text are accepted. -/
theorem accepts_of_mem_text (env : Environment) {isChunked : Bool} {input : List UInt8} :
    ∀ c ∈ text isChunked input, accepts env c := by
  intro c hc
  rcases forall_mem_text c hc with (⟨i, hi, rfl⟩ | rfl) | ⟨rfl, -⟩
  · exact ⟨(tables hi).2.2.1, Or.inl (tables hi).2.1⟩
  · exact ⟨by decide, Or.inr (Or.inl rfl)⟩
  · exact ⟨by decide, Or.inr (Or.inr env.isspace_newline)⟩

/-- **`decode` inverts `encode`**: it gives back the bytes whose text it reads. -/
theorem decode_text (env : Environment) (isChunked : Bool) (input rest : List UInt8) :
    ∃ result, decode env (text isChunked input ++ 0 :: rest) =
        some (some (result, input.length)) ∧ result.take input.length = input := by
  have hlen := le_length_text isChunked input
  have h₀ : Decoded (((text isChunked input).length + 3) / 4 * 3 + 1) []
      ⟨env.new (((text isChunked input).length + 3) / 4 * 3 + 1), 0, 0, 0⟩ :=
    ⟨List.nil_prefix, rfl, env.length_new _⟩
  obtain ⟨p, s, t, hloop, hend, hw⟩ : ∃ p s' s'', decodeLoop (text isChunked input) _ =
      some (p, s') ∧ decodeEnd p s' = some (some s'') ∧ Decoded _ ([] ++ input) s'' :=
    decode_layout h₀ rfl rfl (by rw [List.length_nil]; omega)
  rw [List.nil_append] at hw
  obtain ⟨result, hstore, hp, -⟩ := Buffer.store_append hw.filled (by rw [hw.length]; omega) 0
  have hscan : scan env (text isChunked input ++ 0 :: rest) = some (text isChunked input).length :=
    scan_append (accepts_of_mem_text env)
  refine ⟨result, ?_, (List.prefix_iff_eq_take.mp ((List.prefix_append _ _).trans hp)).symm⟩
  rw [decode, length, hscan]
  simp only [Option.map_some, Option.bind_eq_bind, Option.bind_some, List.take_left', hloop, hend,
    hw.pos, hstore]

/-! ### The contract -/

/-- The characters that `encode` may write. -/
def IsTextChar (c : UInt8) : Prop := c ∈ alphabet.take 64 ∨ c = pad ∨ c = newline

theorem isTextChar_of_mem_text {isChunked : Bool} {input : List UInt8} :
    ∀ c ∈ text isChunked input, IsTextChar c := by
  intro c hc
  rcases forall_mem_text c hc with (⟨i, hi, rfl⟩ | rfl) | ⟨rfl, -⟩
  · have hget : (alphabet.take 64)[i]? = some (symbol i) := by
      rw [List.getElem?_take, if_pos hi, getElem?_alphabet hi]
    exact Or.inl (List.mem_of_getElem? hget)
  · exact Or.inr (Or.inl rfl)
  · exact Or.inr (Or.inr rfl)

theorem newline_not_mem_text {input : List UInt8} : newline ∉ text false input := by
  intro h
  rcases forall_mem_text _ h with hc | ⟨-, hc⟩
  · exact hc.ne_newline rfl
  · cases hc

/-- **The round trip**: `encode` writes a text inside its buffer, with a null byte behind it; the
lines of a chunked text have at most 72 characters, and any other text is one line; `decode` gives
the bytes back, and stays inside its buffer whatever it reads. -/
theorem encode_decode (env : Environment) (input : List UInt8) (isChunked : Bool) :
    (∃ result n, encode env input isChunked = some (result, n) ∧ result[n]? = some 0 ∧
      (∀ c ∈ result.take n, IsTextChar c) ∧
      (isChunked = true → ∀ l ∈ (result.take n).splitOn newline, l.length ≤ maxColumns) ∧
      (isChunked = false → newline ∉ result.take n) ∧
      ∃ out, decode env result = some (some (out, input.length)) ∧
        out.take input.length = input) ∧
    ∀ data : List UInt8, 0 ∈ data → decode env data ≠ none := by
  refine ⟨?_, fun data hdata => decode_ne_none env hdata⟩
  obtain ⟨result, henc, rest, hrest⟩ := encode_spec env input isChunked
  rw [List.append_assoc, List.singleton_append] at hrest
  have htake : result.take (text isChunked input).length = text isChunked input := by
    rw [← hrest, List.take_left']
    rfl
  refine ⟨result, _, henc, by simp [← hrest], ?_, ?_, ?_, ?_⟩
  · rw [htake]
    exact isTextChar_of_mem_text
  · rintro rfl
    rw [htake]
    exact length_line_text input
  · rintro rfl
    rw [htake]
    exact newline_not_mem_text
  · rw [← hrest]
    exact decode_text env isChunked input rest

/-- The locale `"C"`, and memory that is cleared. -/
def cLocale : Environment where
  new n := List.replicate n 0
  length_new _ := List.length_replicate
  isspace c := c = 32 ∨ 9 ≤ c ∧ c ≤ 13
  isspace_newline := by decide

/-- **Without chunks a line may be longer** than 72 characters. -/
theorem long_line : ¬∀ (env : Environment) (input : List UInt8) (isChunked : Bool) result n,
    encode env input isChunked = some (result, n) →
      ∀ l ∈ (result.take n).splitOn newline, l.length ≤ maxColumns := by
  intro h
  obtain ⟨result, henc, rest, hrest⟩ := encode_spec cLocale (List.replicate 55 0) false
  have hlines := h _ _ _ _ _ henc
  rw [← hrest, List.append_assoc, List.take_left' rfl, List.splitOn,
    List.splitOnP_eq_singleton fun c hc => ?_] at hlines
  · have hle := hlines _ (List.mem_singleton.mpr rfl)
    have hge := le_length_text false (List.replicate 55 0)
    rw [List.length_replicate] at hge
    simp only [maxColumns] at hle
    omega
  · have hne : c ≠ newline := fun heq => newline_not_mem_text (heq ▸ hc)
    simpa using hne

end AceTao.Base64
