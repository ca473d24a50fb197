import AceTao.Rle.Blocks

/-!
# What `compress` writes

The loop of `compress` cuts its input into the blocks of `blocks` and writes their encoding
(`compress_spec`). The state of the loop stands for the blocks that are closed and the open block:
`Ready` says where their encoding is in the output buffer.
-/

namespace AceTao.Rle

open Program

/-! ### The open block -/

/-- The number of bytes of the open block. -/
def openCount : Option Block → ℕ
  | none => 0
  | some (.literal bs _) => bs.length
  | some (.run _ n _) => n

/-- Whether the open block is a run. -/
def openIsRun : Option Block → Bool
  | some (.run _ _ _) => true
  | _ => false

/-- The bytes of the output that the open block takes; `y` is a header that is not yet written. -/
def openEncode (y : UInt8) : Option Block → List UInt8
  | none => [y]
  | some blk => blk.encode

/-- The number of these bytes. -/
def openSize (o : Option Block) : ℕ := (openEncode 0 o).length

theorem length_openEncode (y : UInt8) (o : Option Block) :
    (openEncode y o).length = openSize o := by
  rcases o with _ | blk <;> rfl

/-- The output holds the closed blocks, and the header of the open block is reserved. -/
structure Ready (max : ℕ) (done : List Block) (o : Option Block) (v : Compressing) : Prop where
  runCode : v.runCode = openIsRun o
  runCount : v.runCount = openCount o
  outBase : v.outBase = (encode done).length
  outIndex : v.outIndex = (encode done).length + openSize o
  filled : ∃ y, encode done ++ openEncode y o <+: v.outP
  length : v.outP.length = max

/-- The state at the top of the loop: before the first byte no header is reserved. -/
def AtTop (max : ℕ) (done : List Block) (o : Option Block) (v : Compressing) : Prop :=
  Ready max done o v ∨ done = [] ∧ o = none ∧ v.outIndex = 0 ∧ v.outP.length = max

/-- **The end of a part of `compress`** that needs `size` bytes of output: it ends with `Q` when
they are there, and is exhausted otherwise. -/
def Needs (max size : ℕ) (Q : Compressing → Prop) : Except Exhausted Unit → Compressing → Prop :=
  fun r v => (size ≤ max ∧ r = .ok () ∧ Q v) ∨ (max < size ∧ r = .error .exhausted)

theorem Needs.mono {max size : ℕ} {Q Q' : Compressing → Prop} {r : Except Exhausted Unit}
    {v : Compressing} (h : Needs max size Q r v) (hQ : Q v → Q' v) : Needs max size Q' r v := by
  rcases h with ⟨hle, hr, hq⟩ | h
  · exact Or.inl ⟨hle, hr, hQ hq⟩
  · exact Or.inr h

/-! ### The parts of a turn -/

section Parts

variable {max : ℕ} {v : Compressing} {done : List Block} {o : Option Block}

theorem reserve_of_lt (h : v.outIndex < max) :
    reserve max v = some (.ok (),
      { v with outBase := v.outIndex, outIndex := v.outIndex + 1 }) := by
  rw [reserve, get_bind_apply, modify_bind_apply, if_neg (by omega)]
  rfl

theorem reserve_of_ge (h : max ≤ v.outIndex) :
    reserve max v = some (.error .exhausted,
      { v with outBase := v.outIndex, outIndex := v.outIndex + 1 }) := by
  rw [reserve, get_bind_apply, modify_bind_apply, if_pos h]
  rfl

theorem storeOut_of_store {i : ℕ} {x : UInt8} {buf : List UInt8}
    (h : Buffer.store v.outP i x = some buf) :
    storeOut i x v = some (.ok (), { v with outP := buf }) := by
  rw [storeOut, h]

/-- A store into the header of the open block. -/
theorem storeOut_header {pre ys : List UInt8} {y : UInt8} (hbase : v.outBase = pre.length)
    (h : pre ++ y :: ys <+: v.outP) (x : UInt8) :
    ∃ buf, storeOut v.outBase x v = some (.ok (), { v with outP := buf }) ∧
      pre ++ x :: ys <+: buf ∧ buf.length = v.outP.length := by
  obtain ⟨buf, hs, hp, hl⟩ := Buffer.store_inside h x
  exact ⟨buf, storeOut_of_store (by rw [hbase]; exact hs), hp, hl⟩

/-- `emit` writes the header and appends the byte. -/
theorem emit_of_lt {pre ys : List UInt8} {y : UInt8} (hbase : v.outBase = pre.length)
    (hindex : v.outIndex = pre.length + 1 + ys.length) (h : pre ++ y :: ys <+: v.outP)
    (hmax : v.outP.length = max) (hlt : v.outIndex < max) (b : UInt8) :
    ∃ buf, emit max b v = some (.ok (), { v with
        outP := buf, runCount := v.runCount + 1, outIndex := v.outIndex + 1 }) ∧
      pre ++ UInt8.ofNat (v.runCount ||| if v.runCode then 0x80 else 0) :: (ys ++ [b]) <+: buf ∧
      buf.length = max := by
  obtain ⟨buf, hs, hp, hl⟩ := storeOut_header hbase h
    (UInt8.ofNat (v.runCount ||| if v.runCode then 0x80 else 0))
  have hlen : v.outIndex = (pre ++ UInt8.ofNat (v.runCount ||| if v.runCode then 0x80 else 0) ::
      ys).length := by
    rw [hindex, List.length_append, List.length_cons]
    omega
  obtain ⟨buf', hs', hp', hl'⟩ := Buffer.store_append hp (by omega) b
  refine ⟨buf', ?_, by simpa using hp', by omega⟩
  have hs₂ : storeOut v.outIndex b { v with outP := buf, runCount := v.runCount + 1 } =
      some (.ok (), { v with outP := buf', runCount := v.runCount + 1 }) :=
    storeOut_of_store (by rw [hlen]; exact hs')
  rw [emit, get_bind_apply, bind_of_ok hs, modify_bind_apply, if_neg (by omega)]
  exact bind_of_ok hs₂

/-- `emit` is exhausted where the byte does not fit. -/
theorem emit_of_ge {pre ys : List UInt8} {y : UInt8} (hbase : v.outBase = pre.length)
    (h : pre ++ y :: ys <+: v.outP) (hge : max ≤ v.outIndex) (b : UInt8) :
    ∃ t, emit max b v = some (.error .exhausted, t) := by
  obtain ⟨buf, hs, -, -⟩ := storeOut_header hbase h
    (UInt8.ofNat (v.runCount ||| if v.runCode then 0x80 else 0))
  refine ⟨{ v with outP := buf, runCount := v.runCount + 1 }, ?_⟩
  rw [emit, get_bind_apply, bind_of_ok hs, modify_bind_apply, if_pos hge]
  rfl

/-- `case 128` leaves an open block alone that is not full. -/
theorem openBlock_of_ne (h : ¬(if v.outIndex = 0 then 128 else v.runCount) = 128) :
    openBlock max v = some (.ok (), v) := by
  rw [openBlock, get_bind_apply, if_neg h]
  rfl

/-- **A header is reserved** behind the closed blocks. -/
theorem reserve_spec (hindex : v.outIndex = (encode done).length) (h : encode done <+: v.outP)
    (hmax : v.outP.length = max) :
    Ends (reserve max) (Needs max ((encode done).length + 1) fun w =>
      w = { v with outBase := v.outIndex, outIndex := v.outIndex + 1 } ∧
        ∃ y, encode done ++ [y] <+: v.outP) v := by
  rcases Nat.lt_or_ge v.outIndex max with hlt | hge
  · exact ⟨_, _, reserve_of_lt hlt,
      Or.inl ⟨by omega, rfl, rfl, Buffer.exists_prefix_append h (by omega)⟩⟩
  · exact ⟨_, _, reserve_of_ge hge, Or.inr ⟨by omega, rfl⟩⟩

/-- `case 128` **opens a block** behind the closed ones. -/
theorem openBlock_spec (h128 : (if v.outIndex = 0 then 128 else v.runCount) = 128)
    (hindex : v.outIndex = (encode done).length) (h : encode done <+: v.outP)
    (hmax : v.outP.length = max) :
    Ends (openBlock max) (Needs max ((encode done).length + 1) fun w =>
      w.inP = v.inP ∧ Ready max done none w) v := by
  obtain ⟨r, w, hr, ⟨hle, rfl, rfl, y, hy⟩ | ⟨hlt, rfl⟩⟩ := reserve_spec hindex h hmax
  · refine ⟨_, { v with
      outBase := v.outIndex, outIndex := v.outIndex + 1, runCode := false, runCount := 0 }, ?_,
      Or.inl ⟨hle, rfl, rfl, rfl, rfl, hindex, congrArg (· + 1) hindex, ⟨y, hy⟩, hmax⟩⟩
    rw [openBlock, get_bind_apply, if_pos h128, bind_of_ok hr]
    rfl
  · refine ⟨_, w, ?_, Or.inr ⟨hlt, rfl⟩⟩
    rw [openBlock, get_bind_apply, if_pos h128, bind_apply, hr]

/-- The state after `emit`: the header is written and the byte `b` appended. -/
structure Emitted (max : ℕ) (pre ys : List UInt8) (b : UInt8) (v w : Compressing) : Prop where
  inP : w.inP = v.inP
  runCode : w.runCode = v.runCode
  runCount : w.runCount = v.runCount + 1
  outBase : w.outBase = v.outBase
  outIndex : w.outIndex = v.outIndex + 1
  filled : pre ++ UInt8.ofNat (v.runCount ||| if v.runCode then 0x80 else 0) :: (ys ++ [b]) <+:
    w.outP
  length : w.outP.length = max

theorem emit_spec {pre : List UInt8} (ys : List UInt8) {y : UInt8} (hbase : v.outBase = pre.length)
    (hindex : v.outIndex = pre.length + 1 + ys.length) (h : pre ++ y :: ys <+: v.outP)
    (hmax : v.outP.length = max) (b : UInt8) :
    Ends (emit max b) (Needs max (v.outIndex + 1) (Emitted max pre ys b v)) v := by
  rcases Nat.lt_or_ge v.outIndex max with hlt | hge
  · obtain ⟨buf, hs, hp, hl⟩ := emit_of_lt hbase hindex h hmax hlt b
    exact ⟨_, _, hs, Or.inl ⟨by omega, rfl, rfl, rfl, rfl, rfl, rfl, hp, hl⟩⟩
  · obtain ⟨t, ht⟩ := emit_of_ge hbase h hge b
    exact ⟨_, t, ht, Or.inr ⟨by omega, rfl⟩⟩

end Parts

/-! ### A byte is added -/

section AddByte

variable {max inLen : ℕ} {v : Compressing} {done : List Block} {b : UInt8} {next : Option UInt8}

/-- A byte that opens a block. -/
theorem emit_start (hv : v.runCount = 0) (hbase : v.outBase = (encode done).length)
    (hindex : v.outIndex = (encode done).length + 1) (h : ∃ y, encode done ++ [y] <+: v.outP)
    (hmax : v.outP.length = max) (hcode : v.runCode = decide (next = some b)) :
    Ends (emit max b) (Needs max ((encode done).length + 2) fun w =>
      w.inP = v.inP ∧ Ready max done (some (start b next)) w) v := by
  obtain ⟨y, hy⟩ := h
  refine (emit_spec [] hbase hindex hy hmax b).mono fun r w hw => ?_
  rw [hindex] at hw
  refine hw.mono fun he => ⟨he.inP, ?_⟩
  have hcount : w.runCount = 1 := by rw [he.runCount, hv]
  have hind : w.outIndex = (encode done).length + 2 := by rw [he.outIndex, hindex]
  have hp := he.filled
  rw [hv, hcode] at hp
  have hc := he.runCode.trans hcode
  rw [start]
  by_cases hb : next = some b
  · rw [if_pos hb]
    rw [decide_eq_true hb] at hc hp
    exact ⟨hc, hcount, he.outBase.trans hbase, hind, ⟨0, hp⟩, he.length⟩
  · rw [if_neg hb]
    rw [decide_eq_false hb] at hc hp
    exact ⟨hc, hcount, he.outBase.trans hbase, hind, ⟨0, hp⟩, he.length⟩

/-- **A byte opens a block** whose header is reserved. -/
theorem addByte_none (h : Ready max done none v) :
    Ends (addByte max inLen b (decide (next = some b)))
      (Needs max ((encode done).length + 2) fun w =>
        w.inP = v.inP ∧ Ready max done (some (start b next)) w) v := by
  have hcode : v.runCode = false := h.runCode
  rw [Ends, addByte, get_bind_apply]
  by_cases hb : next = some b
  · have hcount : ¬v.runCount ≠ 0 := by
      rw [h.runCount]
      decide
    rw [decide_eq_true hb, if_pos rfl, hcode, if_neg (by decide), if_neg hcount]
    exact emit_start (v := { v with runCode := true }) h.runCount h.outBase h.outIndex h.filled
      h.length (decide_eq_true hb).symm
  · rw [decide_eq_false hb, if_neg (by decide), hcode, if_neg (by decide)]
    exact emit_start h.runCount h.outBase h.outIndex h.filled h.length
      (hcode.trans (decide_eq_false hb).symm)

/-- A byte that is added to a literal block. -/
theorem addByte_literal {bs : List UInt8} {h₁ : 0 < bs.length ∧ bs.length ≤ 128}
    (h : Ready max done (some (.literal bs h₁)) v)
    (h₂ : 0 < (bs ++ [b]).length ∧ (bs ++ [b]).length ≤ 128) :
    Ends (addByte max inLen b false) (Needs max ((encode done).length + bs.length + 2) fun w =>
      w.inP = v.inP ∧ Ready max done (some (.literal (bs ++ [b]) h₂)) w) v := by
  have hcode : v.runCode = false := h.runCode
  obtain ⟨y, hy⟩ := h.filled
  have hindex : v.outIndex = (encode done).length + 1 + bs.length := by
    rw [h.outIndex, openSize, openEncode, Block.encode, List.length_cons]
    omega
  rw [Ends, addByte, get_bind_apply, if_neg (by decide), hcode, if_neg (by decide)]
  refine (emit_spec bs h.outBase hindex hy h.length b).mono fun r w hw => ?_
  rw [hindex, show (encode done).length + 1 + bs.length + 1 = (encode done).length + bs.length + 2
    by omega] at hw
  refine hw.mono fun he => ⟨he.inP, ?_⟩
  have hp := he.filled
  rw [hcode, h.runCount] at hp
  refine ⟨he.runCode.trans hcode, ?_, he.outBase.trans h.outBase, ?_, ⟨0, ?_⟩, he.length⟩
  · rw [he.runCount, h.runCount, openCount, openCount, List.length_append]
    rfl
  · rw [he.outIndex, hindex, openSize, openEncode, Block.encode]
    simp
    omega
  · simpa [openEncode, Block.encode, openCount] using hp

/-- **The header of a run is written again** when the run gets a byte. -/
theorem store_run {c : UInt8} {n : ℕ} {h₁ : 0 < n ∧ n ≤ 128}
    (h : Ready max done (some (.run c n h₁)) v) (h₂ : 0 < n + 1 ∧ n + 1 ≤ 128) :
    ∃ buf, storeOut v.outBase (UInt8.ofNat (v.runCount ||| 0x80)) v =
        some (.ok (), { v with outP := buf }) ∧
      encode (done ++ [.run c (n + 1) h₂]) <+: buf ∧ buf.length = max := by
  obtain ⟨y, hy⟩ := h.filled
  obtain ⟨buf, hs, hp, hl⟩ := storeOut_header h.outBase hy (UInt8.ofNat (v.runCount ||| 0x80))
  refine ⟨buf, hs, ?_, hl.trans h.length⟩
  rw [h.runCount] at hp
  simpa [Block.encode, openCount] using hp

/-- A byte that is added to a run. -/
theorem addByte_run_same {c : UInt8} {n : ℕ} {h₁ : 0 < n ∧ n ≤ 128}
    (h : Ready max done (some (.run c n h₁)) v) (h₂ : 0 < n + 1 ∧ n + 1 ≤ 128) (inLen : ℕ)
    (b : UInt8) :
    ∃ w, addByte max inLen b true v = some (.ok (), w) ∧ w.inP = v.inP ∧
      Ready max done (some (.run c (n + 1) h₂)) w := by
  have hcode : v.runCode = true := h.runCode
  obtain ⟨buf, hs, hp, hl⟩ := store_run h h₂
  refine ⟨{ v with outP := buf, runCount := v.runCount + 1 }, ?_, rfl, hcode,
    congrArg (· + 1) h.runCount, h.outBase, h.outIndex, ⟨0, ?_⟩, hl⟩
  · rw [addByte, get_bind_apply, if_pos rfl, if_pos hcode, bind_of_ok hs]
    rfl
  · simpa [openEncode] using hp

/-- **The last byte of a run closes it**, and a header is reserved for the bytes that follow. -/
theorem addByte_run_last {c : UInt8} {n : ℕ} {h₁ : 0 < n ∧ n ≤ 128}
    (h : Ready max done (some (.run c n h₁)) v) (h₂ : 0 < n + 1 ∧ n + 1 ≤ 128) (hlen : inLen ≠ 0) :
    Ends (addByte max inLen b false)
      (Needs max ((encode (done ++ [.run c (n + 1) h₂])).length + 1) fun w =>
        w.inP = v.inP ∧ Ready max (done ++ [.run c (n + 1) h₂]) none w) v := by
  have hcode : v.runCode = true := h.runCode
  obtain ⟨buf, hs, hp, hl⟩ := store_run h h₂
  have hindex : v.outIndex = (encode (done ++ [.run c (n + 1) h₂])).length := by
    rw [h.outIndex, encode_append, List.length_append]
    rfl
  have hrun : addByte max inLen b false v = (do
      reserve max
      Program.modify fun v => { v with runCode := false, runCount := 0 })
        { v with outP := buf } := by
    rw [addByte, get_bind_apply, if_neg (by decide), if_pos hcode, bind_of_ok hs, if_pos hlen]
  rw [Ends, hrun]
  obtain ⟨r, w, hr, ⟨hle, rfl, rfl, y, hy⟩ | ⟨hlt, rfl⟩⟩ :=
    reserve_spec (v := { v with outP := buf }) hindex hp hl
  · rw [bind_of_ok hr]
    exact ⟨_, _, rfl, Or.inl
      ⟨hle, rfl, rfl, rfl, rfl, hindex, congrArg (· + 1) hindex, ⟨y, hy⟩, hl⟩⟩
  · exact ⟨_, w, by rw [bind_apply, hr], Or.inr ⟨hlt, rfl⟩⟩

/-- **A run closes the literal block** before it. -/
theorem addByte_literal_last {bs : List UInt8} {h₁ : 0 < bs.length ∧ bs.length ≤ 128}
    (h : Ready max done (some (.literal bs h₁)) v) (hb : next = some b) :
    Ends (addByte max inLen b true)
      (Needs max ((encode (done ++ [.literal bs h₁])).length + 2) fun w =>
        w.inP = v.inP ∧ Ready max (done ++ [.literal bs h₁]) (some (start b next)) w) v := by
  have hcode : v.runCode = false := h.runCode
  obtain ⟨y, hy⟩ := h.filled
  have hindex : v.outIndex = (encode (done ++ [.literal bs h₁])).length := by
    rw [h.outIndex, encode_append, List.length_append]
    simp [openSize, openEncode]
  have hp : encode (done ++ [.literal bs h₁]) <+: v.outP := by simpa [openEncode] using hy
  have hcount : v.runCount ≠ 0 := by
    rw [h.runCount, openCount]
    omega
  have hrun : addByte max inLen b true v = (do
      reserve max
      Program.modify fun v => { v with runCount := 0 }
      Program.modify fun v => { v with runCode := true }
      emit max b) v := by
    rw [addByte, get_bind_apply, if_pos rfl, if_neg (by rw [hcode]; decide), if_pos hcount]
  rw [Ends, hrun]
  obtain ⟨r, w, hr, ⟨hle, rfl, rfl, y, hy⟩ | ⟨hlt, rfl⟩⟩ := reserve_spec hindex hp h.length
  · rw [bind_of_ok hr, modify_bind_apply, modify_bind_apply]
    exact emit_start (v := { v with
      outBase := v.outIndex, outIndex := v.outIndex + 1, runCount := 0, runCode := true })
      rfl hindex (congrArg (· + 1) hindex) ⟨y, hy⟩ h.length (decide_eq_true hb).symm
  · exact ⟨_, w, by rw [bind_apply, hr], Or.inr ⟨by omega, rfl⟩⟩

/-- The bytes of output in use when a byte has been added. -/
def sizeAfter (done : List Block) (p : List Block × Option Block) : ℕ :=
  (encode (done ++ p.1)).length + openSize p.2

theorem openSize_start (b : UInt8) (next : Option UInt8) : openSize (some (start b next)) = 2 := by
  rw [start]
  split_ifs <;> rfl

theorem Ready.fits {o : Option Block} (h : Ready max done o v) :
    (encode done).length + openSize o ≤ max := by
  obtain ⟨y, hy⟩ := h.filled
  have hle := hy.length_le
  rwa [List.length_append, length_openEncode, h.length] at hle

/-- What `sameAsNext` answers when the open block is `o`. -/
def same (o : Option Block) (b : UInt8) (rest : List UInt8) : Bool :=
  if rest = [] then openIsRun o else decide (rest.head? = some b)

theorem same_of_not_run {o : Option Block} (h : openIsRun o = false) (b : UInt8)
    (rest : List UInt8) : same o b rest = decide (rest.head? = some b) := by
  rw [same]
  split_ifs with hr
  · simp [h, hr]
  · rfl

theorem same_of_run {o : Option Block} (h : openIsRun o = true) (b : UInt8) (rest : List UInt8) :
    same o b rest = decide (rest.head? = none ∨ rest.head? = some b) := by
  rw [same]
  split_ifs with hr
  · simp [h, hr]
  · simp [hr]

/-- **`addByte` adds a byte** to an open block that is not full. -/
theorem addByte_spec {o : Option Block} {rest : List UInt8} (h : Ready max done o v)
    (hfull : openCount o < 128) :
    Ends (addByte max rest.length b (same o b rest))
      (Needs max (sizeAfter done (grow o b rest.head?)) fun w =>
        w.inP = v.inP ∧
          Ready max (done ++ (grow o b rest.head?).1) (grow o b rest.head?).2 w) v := by
  rcases o with _ | ⟨bs, h₁⟩ | ⟨c, n, h₁⟩
  · rw [same_of_not_run rfl, grow, sizeAfter, openSize_start, List.append_nil]
    exact addByte_none h
  · have hlt : bs.length < 128 := hfull
    rw [same_of_not_run rfl]
    by_cases hb : rest.head? = some b
    · have hgrow : grow (some (.literal bs h₁)) b rest.head? =
          ([.literal bs h₁], some (start b rest.head?)) := by
        rw [grow, dif_pos hlt, if_pos hb, start, if_pos hb]
      rw [hgrow, sizeAfter, openSize_start, decide_eq_true hb]
      exact addByte_literal_last h hb
    · have hgrow : grow (some (.literal bs h₁)) b rest.head? =
          ([], some (.literal (bs ++ [b]) (by simp; omega))) := by
        rw [grow, dif_pos hlt, if_neg hb]
      have hsize : sizeAfter done ([], some (.literal (bs ++ [b]) (by simp; omega))) =
          (encode done).length + bs.length + 2 := by
        simp [sizeAfter, openSize, openEncode, Block.encode]
        omega
      rw [hgrow, hsize, decide_eq_false hb, List.append_nil]
      exact addByte_literal h _
  · have hlt : n < 128 := hfull
    rw [same_of_run rfl]
    by_cases hb : rest.head? = none ∨ rest.head? = some b
    · rw [grow, dif_pos hlt, if_pos hb, decide_eq_true hb, List.append_nil]
      obtain ⟨w, hw, hin, hready⟩ := addByte_run_same h (by omega) rest.length b
      exact ⟨_, w, hw, Or.inl ⟨by simpa [sizeAfter] using hready.fits, rfl, hin, hready⟩⟩
    · rw [grow, dif_pos hlt, if_neg hb, decide_eq_false hb]
      refine addByte_run_last h (by omega) fun hlen => hb (Or.inl ?_)
      rw [List.length_eq_zero_iff.mp hlen]
      rfl

end AddByte

/-! ### The loop -/

section Loop

variable {max : ℕ} {input rest : List UInt8} {v : Compressing} {done : List Block}
  {o : Option Block} {b : UInt8}

theorem load_of_drop {σ : Type} (h : input.drop v.inP = b :: rest) (s : σ) :
    load input v.inP s = some (.ok b, s) := by
  have hget : input[v.inP]? = some b := by
    rw [← List.head?_drop, h]
    rfl
  rw [load, hget]
  rfl

theorem drop_succ (h : input.drop v.inP = b :: rest) : input.drop (v.inP + 1) = rest := by
  rw [← List.drop_drop, h]
  rfl

/-- `sameAsNext` compares with the next byte, when there is one. -/
theorem sameAsNext_spec (h : Ready max done o v) (hin : input.drop v.inP = rest) (b : UInt8) :
    sameAsNext input rest.length b v = some (.ok (same o b rest), v) := by
  rw [sameAsNext, get_bind_apply, same]
  rcases rest with _ | ⟨c, rest⟩
  · rw [List.length_nil, if_pos rfl, if_pos rfl, h.runCode]
    rfl
  · rw [if_neg (by simp), if_neg (by simp), bind_of_ok (load_of_drop hin v)]
    simp [eq_comm]

/-- A full block is closed before a byte is added. -/
theorem grow_of_full (hfull : openCount o = 128) (b : UInt8) (next : Option UInt8) :
    grow o b next = (o.toList, (grow none b next).2) := by
  rcases o with _ | ⟨bs, h₁⟩ | ⟨c, n, h₁⟩
  · rfl
  · have hlt : ¬bs.length < 128 := by rw [show bs.length = 128 from hfull]; decide
    simp only [grow, dif_neg hlt, Option.toList_some]
  · have hlt : ¬n < 128 := by rw [show n = 128 from hfull]; decide
    simp only [grow, dif_neg hlt, Option.toList_some]

theorem openCount_le (o : Option Block) : openCount o ≤ 128 := by
  rcases o with _ | ⟨bs, h₁⟩ | ⟨c, n, h₁⟩
  · exact Nat.zero_le _
  · exact h₁.2
  · exact h₁.2

/-- What is taken of the output **grows** with every byte. -/
theorem openSize_le_grow (o : Option Block) (b : UInt8) (next : Option UInt8) :
    openSize o ≤ sizeAfter [] (grow o b next) := by
  rcases o with _ | ⟨bs, h₁⟩ | ⟨c, n, h₁⟩
  · rw [grow, sizeAfter, openSize_start]
    exact Nat.le_add_left 1 _
  · rw [grow]
    split_ifs with hlt hb <;> simp [sizeAfter, openSize, openEncode, Block.encode]
  · rw [grow]
    split_ifs with hlt hb <;> simp [sizeAfter, openSize, openEncode, Block.encode]

/-- The last byte leaves a block open. -/
theorem grow_ne_none (o : Option Block) (b : UInt8) : (grow o b none).2 ≠ none := by
  rcases o with _ | ⟨bs, h₁⟩ | ⟨c, n, h₁⟩
  · simp [grow]
  · rw [grow]
    split_ifs <;> simp
  · rw [grow]
    split_ifs with hlt hb
    · simp
    · simp at hb
    · simp

theorem openSize_le_encode (hend : rest = [] → o ≠ none) :
    openSize o ≤ (encode (blocksFrom o rest)).length := by
  induction rest generalizing o with
  | nil =>
    rcases o with _ | blk
    · exact absurd rfl (hend rfl)
    · simp [blocksFrom, openSize, openEncode]
  | cons b rest ih =>
    have hle := openSize_le_grow o b rest.head?
    have hrest := ih (o := (grow o b rest.head?).2) fun hnil => by
      rw [hnil]
      exact grow_ne_none o b
    rw [blocksFrom, encode_append, List.length_append]
    rw [sizeAfter, List.nil_append] at hle
    omega

theorem encode_openEncode {y : UInt8} (ho : o ≠ none) (done : List Block) :
    encode done ++ openEncode y o = encode (done ++ o.toList) := by
  rcases o with _ | blk
  · exact absurd rfl ho
  · simp [openEncode]

theorem Ready.outIndex_ne (h : Ready max done o v) : v.outIndex ≠ 0 := by
  rw [h.outIndex]
  rcases o with _ | ⟨bs, h₁⟩ | ⟨c, n, h₁⟩ <;> simp [openSize, openEncode, Block.encode]

/-- Where `case 128` is taken, every block is closed. -/
theorem AtTop.closed (h : AtTop max done o v)
    (hopen : (if v.outIndex = 0 then 128 else v.runCount) = 128) (b : UInt8) (next : Option UInt8) :
    grow o b next = (o.toList, (grow none b next).2) ∧
      v.outIndex = (encode (done ++ o.toList)).length ∧ encode (done ++ o.toList) <+: v.outP ∧
      v.outP.length = max := by
  rcases h with h | ⟨rfl, rfl, hindex, hmax⟩
  · rw [if_neg h.outIndex_ne, h.runCount] at hopen
    have ho : o ≠ none := by
      rintro rfl
      exact absurd hopen (by decide)
    obtain ⟨y, hy⟩ := h.filled
    rw [encode_openEncode ho] at hy
    refine ⟨grow_of_full hopen b next, ?_, hy, h.length⟩
    rw [h.outIndex, ← encode_openEncode (y := 0) ho, List.length_append, length_openEncode]
  · exact ⟨rfl, hindex, List.nil_prefix, hmax⟩

theorem AtTop.ready (h : AtTop max done o v)
    (hopen : ¬(if v.outIndex = 0 then 128 else v.runCount) = 128) :
    Ready max done o v ∧ openCount o < 128 := by
  rcases h with h | ⟨-, -, hindex, -⟩
  · rw [if_neg h.outIndex_ne, h.runCount] at hopen
    exact ⟨h, lt_of_le_of_ne (openCount_le o) hopen⟩
  · rw [if_pos hindex] at hopen
    exact absurd rfl hopen

theorem Ready.congr_inP (h : Ready max done o v) (p : ℕ) : Ready max done o { v with inP := p } :=
  ⟨h.runCode, h.runCount, h.outBase, h.outIndex, h.filled, h.length⟩

/-- `sameAsNext` and `addByte`, once a header is reserved. -/
theorem same_addByte_spec (h : Ready max done o v) (hfull : openCount o < 128)
    (hin : input.drop v.inP = rest) (b : UInt8) :
    Ends (do
        let same ← sameAsNext input rest.length b
        addByte max rest.length b same)
      (Needs max (sizeAfter done (grow o b rest.head?)) fun w => input.drop w.inP = rest ∧
        Ready max (done ++ (grow o b rest.head?).1) (grow o b rest.head?).2 w) v := by
  rw [Ends, bind_of_ok (sameAsNext_spec h hin b)]
  refine (addByte_spec h hfull).mono fun r w hw => hw.mono ?_
  rintro ⟨hp, hw⟩
  exact ⟨by rw [hp, hin], hw⟩

/-- **A turn of the loop** adds a byte to the open block. -/
theorem compressStep_spec (h : AtTop max done o v) (hin : input.drop v.inP = b :: rest) :
    Ends (compressStep input max rest.length)
      (Needs max (sizeAfter done (grow o b rest.head?)) fun w => input.drop w.inP = rest ∧
        Ready max (done ++ (grow o b rest.head?).1) (grow o b rest.head?).2 w) v := by
  have hnext : nextByte input v = some (.ok b, { v with inP := v.inP + 1 }) := by
    rw [nextByte, get_bind_apply, bind_of_ok (load_of_drop hin v)]
    rfl
  have hin' := drop_succ hin
  rw [Ends, compressStep, bind_of_ok hnext]
  -- a header is reserved first where no block is open yet or the open block is full
  by_cases hopen : (if v.outIndex = 0 then 128 else v.runCount) = 128
  · obtain ⟨hgrow, hindex, hfill, hmax⟩ := h.closed hopen b rest.head?
    have hsize : sizeAfter done (grow o b rest.head?) =
        sizeAfter (done ++ o.toList) (grow none b rest.head?) := by
      rw [hgrow, sizeAfter, sizeAfter, grow, List.append_nil]
    obtain ⟨r, w, hw, ⟨-, rfl, hp, hready⟩ | ⟨hlt, rfl⟩⟩ :=
      openBlock_spec (v := { v with inP := v.inP + 1 }) hopen hindex hfill hmax
    · have hin'' : input.drop w.inP = rest := by rw [hp]; exact hin'
      rw [bind_of_ok hw, hsize, hgrow]
      have hend := same_addByte_spec hready (by decide) hin'' b
      rwa [show (grow none b rest.head?).1 = [] from rfl, List.append_nil] at hend
    · refine ⟨_, w, by rw [bind_apply, hw], Or.inr ⟨?_, rfl⟩⟩
      rw [hsize, sizeAfter, grow, openSize_start, List.append_nil]
      omega
  · obtain ⟨hready, hfull⟩ := h.ready hopen
    rw [bind_of_ok (openBlock_of_ne (v := { v with inP := v.inP + 1 }) hopen)]
    exact same_addByte_spec (hready.congr_inP _) hfull hin' b

/-- **The loop** writes the encoding of the blocks that the rest of the input is cut into. -/
theorem compressLoop_spec (h : AtTop max done o v) (hin : input.drop v.inP = rest)
    (hend : rest = [] → o ≠ none) :
    Ends (compressLoop input max rest.length)
      (Needs max (encode (done ++ blocksFrom o rest)).length fun w =>
        w.outIndex = (encode (done ++ blocksFrom o rest)).length ∧
          encode (done ++ blocksFrom o rest) <+: w.outP) v := by
  induction rest generalizing done o v with
  | nil =>
    have ho := hend rfl
    rcases h with h | ⟨-, hnone, -, -⟩
    · obtain ⟨y, hy⟩ := h.filled
      rw [encode_openEncode ho] at hy
      have hlen : v.outIndex = (encode (done ++ o.toList)).length := by
        rw [h.outIndex, ← encode_openEncode (y := 0) ho, List.length_append, length_openEncode]
      exact ⟨_, v, rfl, Or.inl ⟨h.length ▸ hy.length_le, rfl, hlen, hy⟩⟩
    · exact absurd hnone ho
  | cons b rest ih =>
    have hnone : rest = [] → (grow o b rest.head?).2 ≠ none := by
      rintro rfl
      exact grow_ne_none o b
    have hle := openSize_le_encode hnone
    obtain ⟨r, w, hw, ⟨-, rfl, hp, hready⟩ | ⟨hlt, rfl⟩⟩ := compressStep_spec h hin
    · rw [Ends, List.length_cons, compressLoop, bind_of_ok hw, blocksFrom, ← List.append_assoc]
      exact ih (Or.inl hready) hp hnone
    · refine ⟨_, w, by rw [List.length_cons, compressLoop, bind_apply, hw], Or.inr ⟨?_, rfl⟩⟩
      rw [blocksFrom, ← List.append_assoc, encode_append, List.length_append]
      rw [sizeAfter] at hlt
      omega

end Loop

/-- **What `compress` writes**: the encoding of the blocks of its input, when it fits. -/
theorem compress_spec {input : List UInt8} (h : input ≠ []) (outP : List UInt8) :
    ∃ buf, (encode (blocks input)).length ≤ outP.length ∧ encode (blocks input) <+: buf ∧
        compress input outP outP.length = some (.ok (encode (blocks input)).length, buf) ∨
      outP.length < (encode (blocks input)).length ∧
        compress input outP outP.length = some (.error .exhausted, buf) := by
  have htop : AtTop outP.length [] none ⟨0, outP, 0, 0, 0, false⟩ := Or.inr ⟨rfl, rfl, rfl, rfl⟩
  have hin : input.drop (⟨0, outP, 0, 0, 0, false⟩ : Compressing).inP = input := rfl
  obtain ⟨r, w, hw, ⟨hle, rfl, hlen, hp⟩ | ⟨hlt, rfl⟩⟩ :=
    compressLoop_spec htop hin fun hnil => absurd hnil h
  · refine ⟨w.outP, Or.inl ⟨hle, hp, ?_⟩⟩
    rw [compress, hw]
    exact congrArg (fun n => some (Except.ok n, w.outP)) hlen
  · exact ⟨w.outP, Or.inr ⟨hlt, by rw [compress, hw]⟩⟩

end AceTao.Rle
