import AceTao.Rle.CompressSpec
import Mathlib.Tactic.IntervalCases

/-!
# The round trip of the run-length encoding

`decompress` touches nothing outside its buffers (`decompress_ne_none`) and turns an encoding of
blocks back into their bytes (`decompress_encode`). With `compress_spec` this gives the round trip.

How large the output of `compress` can be depends on the cut of the input. The documented algorithm
encodes runs of three bytes and more; `compress` encodes runs of two, and each may end a literal
block. `contract_iff` says for which inputs the customary bound on the output is enough.
-/

namespace AceTao.Rle

open Program

/-! ### Headers -/

/-- The header of a literal block. -/
theorem literal_header {n : ℕ} (h : 0 < n ∧ n ≤ 128) :
    (UInt8.ofNat (n - 1) &&& 0x7f).toNat + 1 = n ∧ UInt8.ofNat (n - 1) &&& 0x80 = 0 := by
  have hall : ∀ k : Fin 128, (UInt8.ofNat k &&& 0x7f).toNat = k ∧ UInt8.ofNat k &&& 0x80 = 0 := by
    decide
  have hk := hall ⟨n - 1, by omega⟩
  dsimp only at hk
  exact ⟨by omega, hk.2⟩

/-- The header of a run. -/
theorem run_header {n : ℕ} (h : 0 < n ∧ n ≤ 128) :
    (UInt8.ofNat ((n - 1) ||| 0x80) &&& 0x7f).toNat + 1 = n ∧
      UInt8.ofNat ((n - 1) ||| 0x80) &&& 0x80 ≠ 0 := by
  have hall : ∀ k : Fin 128, (UInt8.ofNat (k ||| 0x80) &&& 0x7f).toNat = k ∧
      UInt8.ofNat (k ||| 0x80) &&& 0x80 ≠ 0 := by
    decide
  have hk := hall ⟨n - 1, by omega⟩
  dsimp only at hk
  exact ⟨by omega, hk.2⟩

/-! ### `decompress` -/

section Decompress

variable {input buf : List UInt8}

theorem load_of_lt {σ : Type} {i : ℕ} (h : i < input.length) (s : σ) :
    load input i s = some (.ok input[i], s) := by
  rw [load, List.getElem?_eq_getElem h]
  rfl

theorem memset_ne_none {i n : ℕ} (h : i + n ≤ buf.length) (b : UInt8) :
    ∃ buf', memset i b n buf = some (.ok (), buf') ∧ buf'.length = buf.length := by
  refine ⟨buf.take i ++ List.replicate n b ++ buf.drop (i + n), ?_, ?_⟩
  · rw [memset, Buffer.storeAll, List.length_replicate, if_pos h]
    rfl
  · simp
    omega

theorem memcpy_ne_none {i p n : ℕ} (h : i + n ≤ buf.length) (hp : p + n ≤ input.length) :
    ∃ buf', memcpy input i p n buf = some (.ok (), buf') ∧ buf'.length = buf.length := by
  have hlen : ((input.drop p).take n).length = n := by
    rw [List.length_take, List.length_drop]
    omega
  refine ⟨buf.take i ++ (input.drop p).take n ++ buf.drop (i + n), ?_, ?_⟩
  · rw [memcpy, if_pos hp, Buffer.storeAll, hlen, if_pos h]
    rfl
  · simp
    omega

/-- The loop of `decompress` **stays inside its buffers**, whatever the input. -/
theorem decompressLoop_ne_none (inP inLen outP maxOutLen outLen : ℕ) (buf : List UInt8)
    (hin : inP + inLen = input.length) (hout : outP + maxOutLen = buf.length) :
    decompressLoop input inP inLen outP maxOutLen outLen buf ≠ none := by
  induction inLen using Nat.strong_induction_on generalizing inP outP maxOutLen outLen buf with
  | _ inLen ih =>
    rw [decompressLoop]
    by_cases hpos : 0 < inLen
    · rw [if_pos hpos, bind_of_ok (load_of_lt (by omega) buf)]
      split_ifs with hmax htop hrun hlit
      · simp
      · rw [bind_of_ok (load_of_lt (by omega) buf)]
        have hfit : outP + ((input[inP] &&& 0x7f).toNat + 1) ≤ buf.length := by omega
        obtain ⟨buf', hset, hlen⟩ := memset_ne_none hfit input[inP + 1]
        rw [bind_of_ok hset]
        exact ih _ (by omega) _ _ _ _ _ (by omega) (by omega)
      · simp
      · have hfit : outP + ((input[inP] &&& 0x7f).toNat + 1) ≤ buf.length := by omega
        have hread : inP + 1 + ((input[inP] &&& 0x7f).toNat + 1) ≤ input.length := by omega
        obtain ⟨buf', hcpy, hlen⟩ := memcpy_ne_none hfit hread
        rw [bind_of_ok hcpy]
        exact ih _ (by omega) _ _ _ _ _ (by omega) (by omega)
      · simp
    · rw [if_neg hpos]
      simp

/-- **`decompress` stays inside its buffers**, whatever the input. -/
theorem decompress_ne_none (input outP : List UInt8) :
    decompress input outP outP.length ≠ none :=
  decompressLoop_ne_none 0 _ 0 _ 0 outP (Nat.zero_add _) (Nat.zero_add _)

theorem load_append {σ : Type} {pre post : List UInt8} {b : UInt8} (h : input = pre ++ b :: post)
    (s : σ) : load input pre.length s = some (.ok b, s) := by
  have hget : input[pre.length]? = some b := by simp [h]
  rw [load, hget]
  rfl

/-- `memset` behind what the output holds. -/
theorem memset_append {out : List UInt8} {n : ℕ} (hout : out <+: buf)
    (hfit : out.length + n ≤ buf.length) (b : UInt8) :
    ∃ buf', memset out.length b n buf = some (.ok (), buf') ∧
      out ++ List.replicate n b <+: buf' ∧ buf'.length = buf.length := by
  have hfit' : out.length + (List.replicate n b).length ≤ buf.length := by
    rwa [List.length_replicate]
  obtain ⟨buf', hs, hp, hl⟩ := Buffer.storeAll_append hout hfit'
  exact ⟨buf', by rw [memset, hs]; rfl, hp, hl⟩

/-- `memcpy` behind what the output holds. -/
theorem memcpy_append {out pre bs post : List UInt8} (hin : input = pre ++ (bs ++ post))
    (hout : out <+: buf) (hfit : out.length + bs.length ≤ buf.length) :
    ∃ buf', memcpy input out.length pre.length bs.length buf = some (.ok (), buf') ∧
      out ++ bs <+: buf' ∧ buf'.length = buf.length := by
  obtain ⟨buf', hs, hp, hl⟩ := Buffer.storeAll_append hout hfit
  have hbs : (input.drop pre.length).take bs.length = bs := by simp [hin]
  refine ⟨buf', ?_, hp, hl⟩
  rw [memcpy, if_pos (by simp [hin]), hbs, hs]
  rfl

/-- **One block is decoded**: the output gets its bytes, and the loop goes on behind it. -/
theorem decompressLoop_block {pre post out : List UInt8} (b : Block)
    (hin : input = pre ++ (b.encode ++ post)) (hout : out <+: buf) {maxOutLen : ℕ}
    (hmax : out.length + maxOutLen = buf.length) (hfit : b.expand.length ≤ maxOutLen)
    (outLen : ℕ) :
    ∃ buf', decompressLoop input pre.length (b.encode ++ post).length out.length maxOutLen outLen
        buf = decompressLoop input (pre ++ b.encode).length post.length (out ++ b.expand).length
          (maxOutLen - b.expand.length) (outLen + b.expand.length) buf' ∧
      out ++ b.expand <+: buf' ∧ buf'.length = buf.length := by
  rcases b with ⟨bs, h₁⟩ | ⟨c, n, h₁⟩
  · obtain ⟨hlen, htop⟩ := literal_header h₁
    have hin₂ : input = (pre ++ [UInt8.ofNat (bs.length - 1)]) ++ (bs ++ post) := by
      simpa [Block.encode] using hin
    rw [Block.expand_literal] at hfit ⊢
    obtain ⟨buf', hcpy, hp, hl⟩ := memcpy_append hin₂ hout (by omega)
    rw [List.length_append, List.length_singleton] at hcpy
    refine ⟨buf', ?_, hp, hl⟩
    rw [decompressLoop, if_pos (by simp [Block.encode]), bind_of_ok (load_append hin buf), hlen,
      htop, if_neg (by omega), if_neg (by simp), if_pos (by simp [Block.encode]), bind_of_ok hcpy]
    simp [Block.encode, Nat.add_comm, Nat.add_left_comm]
  · obtain ⟨hlen, htop⟩ := run_header h₁
    have hin₂ : input = (pre ++ [UInt8.ofNat ((n - 1) ||| 0x80)]) ++ c :: post := by
      simpa [Block.encode] using hin
    rw [Block.expand_run, List.length_replicate] at hfit
    have hload := load_append hin₂ buf
    rw [List.length_append, List.length_singleton] at hload
    obtain ⟨buf', hset, hp, hl⟩ := memset_append hout (by omega : out.length + n ≤ buf.length) c
    refine ⟨buf', ?_, hp, hl⟩
    rw [decompressLoop, if_pos (by simp [Block.encode]), bind_of_ok (load_append hin buf), hlen,
      if_neg (by omega), if_pos htop, if_pos (by simp [Block.encode]), bind_of_ok hload,
      bind_of_ok hset]
    simp [Block.encode]

/-- The loop of `decompress` **decodes** an encoding of blocks. -/
theorem decompressLoop_encode (bs : List Block) {pre out : List UInt8}
    (hin : input = pre ++ encode bs) (hout : out <+: buf) {maxOutLen : ℕ}
    (hmax : out.length + maxOutLen = buf.length) (hfit : (expand bs).length ≤ maxOutLen)
    (outLen : ℕ) :
    ∃ buf', decompressLoop input pre.length (encode bs).length out.length maxOutLen outLen buf =
        some (.ok (outLen + (expand bs).length), buf') ∧ out ++ expand bs <+: buf' := by
  induction bs generalizing pre out buf maxOutLen outLen with
  | nil =>
    refine ⟨buf, ?_, by simpa using hout⟩
    rw [decompressLoop, if_neg (by simp)]
    rfl
  | cons b bs ih =>
    rw [encode_cons] at hin
    rw [expand_cons, List.length_append] at hfit
    obtain ⟨buf₁, hblock, hp₁, hl₁⟩ := decompressLoop_block b hin hout hmax (by omega) outLen
    rw [← List.append_assoc] at hin
    have hmax₁ : (out ++ b.expand).length + (maxOutLen - b.expand.length) = buf₁.length := by
      rw [List.length_append]
      omega
    obtain ⟨buf₂, hrest, hp₂⟩ := ih hin hp₁ hmax₁ (by omega) (outLen + b.expand.length)
    refine ⟨buf₂, ?_, by rwa [expand_cons, ← List.append_assoc]⟩
    rw [encode_cons, hblock, hrest, expand_cons, List.length_append, Nat.add_assoc]

end Decompress

/-- **`decompress` inverts the encoding**, into any output that is large enough. -/
theorem decompress_encode (bs : List Block) (outP : List UInt8)
    (h : (expand bs).length ≤ outP.length) :
    ∃ buf, decompress (encode bs) outP outP.length = some (.ok (expand bs).length, buf) ∧
      expand bs <+: buf := by
  obtain ⟨buf, hrun, hp⟩ := decompressLoop_encode bs (List.nil_append _).symm
    (List.nil_prefix (l := outP)) (Nat.zero_add _) h 0
  exact ⟨buf, by rw [decompress, ← Nat.zero_add (expand bs).length]; exact hrun, hp⟩

/-! ### The contract -/

/-- **What is expected of the compressor** at an input: its output fits or it is exhausted, and
then decompresses to the input; it is not exhausted when it is given a byte more for every 128 bytes,
and one; and `decompress` stays inside its buffers. That `compress` stays inside its own is part of
its having an answer. -/
structure Contract (input : List UInt8) : Prop where
  roundTrip : ∀ outP : List UInt8, ∃ buf,
    compress input outP outP.length = some (.error .exhausted, buf) ∨
      ∃ n ≤ outP.length, compress input outP outP.length = some (.ok n, buf) ∧
        ∀ dest : List UInt8, input.length ≤ dest.length →
          ∃ res, decompress (buf.take n) dest dest.length = some (.ok input.length, res) ∧
            res.take input.length = input
  fits : ∀ outP : List UInt8, input.length + input.length / 128 + 1 ≤ outP.length →
    ∀ buf, compress input outP outP.length ≠ some (.error .exhausted, buf)
  safe : ∀ data outP : List UInt8, decompress data outP outP.length ≠ none

/-- The round trip, for every input and every output. -/
theorem compress_roundTrip {input : List UInt8} (h : input ≠ []) (outP : List UInt8) : ∃ buf,
    compress input outP outP.length = some (.error .exhausted, buf) ∨
      ∃ n ≤ outP.length, compress input outP outP.length = some (.ok n, buf) ∧
        ∀ dest : List UInt8, input.length ≤ dest.length →
          ∃ res, decompress (buf.take n) dest dest.length = some (.ok input.length, res) ∧
            res.take input.length = input := by
  obtain ⟨buf, ⟨hle, hp, hok⟩ | ⟨-, hex⟩⟩ := compress_spec h outP
  · refine ⟨buf, Or.inr ⟨_, hle, hok, fun dest hdest => ?_⟩⟩
    rw [← List.prefix_iff_eq_take.mp hp]
    obtain ⟨res, hdec, hres⟩ := decompress_encode (blocks input) dest
      (by rwa [expand_blocks])
    rw [expand_blocks] at hdec hres
    exact ⟨res, hdec, (List.prefix_iff_eq_take.mp hres).symm⟩
  · exact ⟨buf, Or.inl hex⟩

/-- **When the customary bound is enough**: the literal blocks, each of which costs a byte, are at
most what the runs save with the byte for every 128 and the one. -/
theorem contract_iff {input : List UInt8} (h : input ≠ []) :
    Contract input ↔
      literals (blocks input) ≤ savings (blocks input) + input.length / 128 + 1 := by
  have hsize := length_encode_blocks input
  constructor
  · intro hc
    by_contra hlt
    obtain ⟨buf, ⟨hle, -⟩ | ⟨-, hex⟩⟩ := compress_spec h
      (List.replicate (input.length + input.length / 128 + 1) 0)
    · rw [List.length_replicate] at hle
      omega
    · exact hc.fits _ (by rw [List.length_replicate]) buf hex
  · intro hle
    refine ⟨compress_roundTrip h, fun outP hout buf hex => ?_, decompress_ne_none⟩
    obtain ⟨buf', ⟨-, -, hok⟩ | ⟨hlt, -⟩⟩ := compress_spec h outP
    · rw [hok] at hex
      cases hex
    · omega

theorem contract_run : Contract [7, 7, 7, 9] :=
  (contract_iff (by decide)).mpr (by decide)

/-- **Two literal bytes and two runs of two** need a byte more than the bound. -/
theorem not_contract_short_runs : ¬Contract [1, 2, 2, 3, 4, 4] := by
  have hsize : (encode (blocks [1, 2, 2, 3, 4, 4])).length = 8 := by decide
  have hne : ([1, 2, 2, 3, 4, 4] : List UInt8) ≠ [] := by decide
  intro h
  obtain ⟨buf, ⟨hle, -⟩ | ⟨-, hex⟩⟩ := compress_spec hne (List.replicate 7 0)
  · rw [hsize] at hle
    exact absurd hle (by decide)
  · exact h.fits _ (by decide) buf hex

end AceTao.Rle
