import Mathlib.Data.Nat.ModEq
import Mathlib.Data.List.Basic
import Mathlib.Data.Int.GCD
import Mathlib.Logic.Function.Iterate
import Mathlib.Logic.Equiv.Basic
import Mathlib.Tactic.Ring

/-!
# Exchanging two neighbouring blocks along cycles

A list can be rearranged in place by following the cycles of a permutation of its places: from the
first place of a cycle the entry there is exchanged with the entry at the next place, and so on,
until the cycle comes back (`followCycle`). Every entry of the cycle has then moved one place along
it, and no other entry has moved (`followCycle_spec`).

Two neighbouring blocks of lengths `a` and `b` change places when every place of the two moves by
`b`, modulo `a + b` (`blockMove`). The cycles of this permutation are the residue classes modulo
`gcd a b`, and each has `(a + b) / gcd a b` places (`blockMove_cycle`); following one cycle for each
residue exchanges the blocks (`followCycles_blocks`).
-/

namespace CycleRotation

variable {α : Type*} {l : List α} {move : ℕ → ℕ} {first n i j k a b start : ℕ}

/-! ### Exchanging two entries -/

/-- The list with the entries at two of its places exchanged. -/
def exchange (l : List α) (i j : ℕ) : List α :=
  match l[i]?, l[j]? with
  | some x, some y => (l.set i y).set j x
  | _, _ => l

/-- **An exchange** moves two entries and no other. -/
theorem getElem?_exchange (hi : i < l.length) (hj : j < l.length) :
    (exchange l i j)[k]? = l[Equiv.swap i j k]? := by
  have hset : exchange l i j = (l.set i l[j]).set j l[i] := by
    rw [exchange, List.getElem?_eq_getElem hi, List.getElem?_eq_getElem hj]
  rw [hset, List.getElem?_set, List.length_set]
  by_cases hk : j = k
  · rw [if_pos hk, if_pos hj, ← hk, Equiv.swap_apply_right, List.getElem?_eq_getElem hi]
  · rw [if_neg hk, List.getElem?_set]
    by_cases hk' : i = k
    · rw [if_pos hk', if_pos hi, ← hk', Equiv.swap_apply_left, List.getElem?_eq_getElem hj]
    · rw [if_neg hk', Equiv.swap_apply_of_ne_of_ne (Ne.symm hk') (Ne.symm hk)]

@[simp] theorem length_exchange : (exchange l i j).length = l.length := by
  rw [exchange]
  split
  · rw [List.length_set, List.length_set]
  · rfl

/-! ### Following one cycle -/

/-- One step along a cycle: on to the next place, whose entry is exchanged with the entry at the
first place of the cycle. -/
def cycleStep (move : ℕ → ℕ) (first : ℕ) (s : ℕ × List α) : ℕ × List α :=
  (move s.1, exchange s.2 (move s.1) first)

/-- **A cycle**, followed for `n` steps from its first place. -/
def followCycle (move : ℕ → ℕ) (first n : ℕ) (l : List α) : List α :=
  ((cycleStep move first)^[n] (first, l)).2

theorem cycleStep_iterate_fst :
    ((cycleStep move first)^[n] (k, l)).1 = move^[n] k := by
  induction n with
  | zero => rfl
  | succ n ih =>
    rw [Function.iterate_succ_apply', Function.iterate_succ_apply', ← ih]
    rfl

theorem followCycle_succ :
    followCycle move first (n + 1) l =
      exchange (followCycle move first n l) (move^[n + 1] first) first := by
  rw [followCycle, Function.iterate_succ_apply', Function.iterate_succ_apply' move,
    ← cycleStep_iterate_fst (l := l) (n := n) (k := first)]
  rfl

@[simp] theorem length_followCycle : (followCycle move first n l).length = l.length := by
  induction n with
  | zero => rfl
  | succ n ih => rw [followCycle_succ, length_exchange, ih]

/-- What has moved after `n` steps, before the cycle has come back: the entry of the last place
reached waits at the first one. -/
theorem followCycle_prefix (hlt : ∀ k ≤ n, move^[k] first < l.length)
    (hinj : ∀ i ≤ n, ∀ j ≤ n, move^[i] first = move^[j] first → i = j) :
    (followCycle move first n l)[first]? = l[move^[n] first]? ∧
      (∀ k < n, (followCycle move first n l)[move^[k + 1] first]? = l[move^[k] first]?) ∧
      ∀ x, (∀ k ≤ n, x ≠ move^[k] first) → (followCycle move first n l)[x]? = l[x]? := by
  induction n with
  | zero => exact ⟨rfl, nofun, fun _ _ => rfl⟩
  | succ n ih =>
    obtain ⟨hfirst, hmoved, hrest⟩ := ih (fun k hk => hlt k (by omega))
      fun i hi j hj => hinj i (by omega) j (by omega)
    have hget : ∀ x, (followCycle move first (n + 1) l)[x]? =
        (followCycle move first n l)[Equiv.swap (move^[n + 1] first) first x]? := by
      intro x
      rw [followCycle_succ]
      exact getElem?_exchange (length_followCycle.symm ▸ hlt (n + 1) le_rfl)
        (length_followCycle.symm ▸ hlt 0 (by omega))
    have hnew : ∀ k ≤ n, move^[n + 1] first ≠ move^[k] first := by
      intro k hk h
      have := hinj (n + 1) le_rfl k (by omega) h
      omega
    refine ⟨?_, ?_, ?_⟩
    · rw [hget, Equiv.swap_apply_right]
      exact hrest _ hnew
    · intro k hk
      rw [hget]
      rcases Nat.lt_succ_iff_lt_or_eq.mp hk with hk | rfl
      · have hne : move^[k + 1] first ≠ first := by
          intro h
          have := hinj (k + 1) (by omega) 0 (by omega) h
          omega
        rw [Equiv.swap_apply_of_ne_of_ne (hnew (k + 1) (by omega)).symm hne]
        exact hmoved k hk
      · rw [Equiv.swap_apply_left]
        exact hfirst
    · intro x hx
      have hne : x ≠ first := hx 0 (by omega)
      rw [hget, Equiv.swap_apply_of_ne_of_ne (hx (n + 1) le_rfl) hne]
      exact hrest x fun k hk => hx k (by omega)

/-- **A cycle that is followed until it comes back** moves each of its entries one place along it,
and no other entry. -/
theorem followCycle_spec (hn : 0 < n) (hback : move^[n] first = first)
    (hlt : ∀ k < n, move^[k] first < l.length)
    (hinj : ∀ i < n, ∀ j < n, move^[i] first = move^[j] first → i = j) :
    (∀ k < n, (followCycle move first n l)[move^[k + 1] first]? = l[move^[k] first]?) ∧
      ∀ x, (∀ k < n, x ≠ move^[k] first) → (followCycle move first n l)[x]? = l[x]? := by
  obtain ⟨m, rfl⟩ : ∃ m, n = m + 1 := ⟨n - 1, by omega⟩
  obtain ⟨hfirst, hmoved, hrest⟩ := followCycle_prefix (l := l) (n := m)
    (fun k hk => hlt k (Nat.lt_succ_of_le hk))
    fun i hi j hj => hinj i (Nat.lt_succ_of_le hi) j (Nat.lt_succ_of_le hj)
  -- the last step exchanges the entry at the first place with itself
  have hget : ∀ x : ℕ,
      (followCycle move first (m + 1) l)[x]? = (followCycle move first m l)[x]? := by
    intro x
    have hlen : first < (followCycle move first m l).length :=
      length_followCycle.symm ▸ hlt 0 (by omega)
    rw [followCycle_succ, hback, getElem?_exchange hlen hlen, Equiv.swap_self]
    rfl
  refine ⟨fun k hk => ?_, fun x hx => ?_⟩
  · rw [hget]
    rcases Nat.lt_succ_iff_lt_or_eq.mp hk with hk | rfl
    · exact hmoved k hk
    · rw [hback]
      exact hfirst
  · rw [hget]
    exact hrest x fun k hk => hx k (by omega)

/-! ### The move of two blocks -/

/-- Where the entry of a place comes to when the block of `a` places from `start` on and the block
of `b` places behind it change places. -/
def blockMove (start a b pos : ℕ) : ℕ := if start + a ≤ pos then pos - a else pos + b

theorem blockMove_add {q : ℕ} (hq : q < a + b) :
    blockMove start a b (start + q) = start + (q + b) % (a + b) := by
  rw [blockMove]
  by_cases ha : a ≤ q
  · have hmod : (q + b) % (a + b) = q - a := by
      rw [show q + b = q - a + (a + b) by omega, Nat.add_mod_right]
      exact Nat.mod_eq_of_lt (by omega)
    rw [if_pos (by omega), hmod]
    omega
  · rw [if_neg (by omega), Nat.mod_eq_of_lt (by omega)]
    omega

theorem blockMove_iterate {q : ℕ} (hq : q < a + b) :
    (blockMove start a b)^[k] (start + q) = start + (q + k * b) % (a + b) := by
  induction k with
  | zero => rw [Nat.zero_mul, Nat.add_zero, Nat.mod_eq_of_lt hq, Function.iterate_zero_apply]
  | succ k ih =>
    have hlt : (q + k * b) % (a + b) < a + b := Nat.mod_lt _ (by omega)
    rw [Function.iterate_succ_apply', ih, blockMove_add hlt, Nat.mod_add_mod, Nat.succ_mul,
      ← Nat.add_assoc]

/-- The number of places on a cycle of the move. -/
abbrev cycleLength (a b : ℕ) : ℕ := (a + b) / a.gcd b

theorem cycleLength_mul_gcd : cycleLength a b * a.gcd b = a + b :=
  Nat.div_mul_cancel ((Nat.dvd_add_right (Nat.gcd_dvd_left a b)).mpr (Nat.gcd_dvd_right a b))

theorem cycleLength_pos (ha : 0 < a) : 0 < cycleLength a b :=
  Nat.pos_of_ne_zero fun h => by
    have hmul := cycleLength_mul_gcd (a := a) (b := b)
    rw [h, Nat.zero_mul] at hmul
    omega

/-- After its length a cycle has come back. -/
theorem cycleLength_mul_mod : cycleLength a b * b % (a + b) = 0 := by
  obtain ⟨c, hc⟩ := Nat.gcd_dvd_right a b
  have hmul : cycleLength a b * b = (a + b) * c := by
    calc cycleLength a b * b = cycleLength a b * (a.gcd b * c) := by rw [← hc]
      _ = (a + b) * c := by rw [← Nat.mul_assoc, cycleLength_mul_gcd]
  rw [hmul, Nat.mul_mod_right]

theorem cycle_injective {q : ℕ} (hab : 0 < a + b) (hi : i < cycleLength a b)
    (hj : j < cycleLength a b) (h : (q + i * b) % (a + b) = (q + j * b) % (a + b)) : i = j := by
  have hmul : i * b ≡ j * b [MOD a + b] := Nat.ModEq.add_left_cancel' q h
  have hcancel := Nat.ModEq.cancel_right_div_gcd hab hmul
  rw [Nat.gcd_add_self_left] at hcancel
  exact Nat.ModEq.eq_of_lt_of_lt hcancel hi hj

/-- The places of one residue modulo the greatest common divisor are on one cycle. -/
theorem cycle_surjective {q p : ℕ} (ha : 0 < a) (hb : 0 < b) (hq : q < a + b) (hp : p < a + b)
    (h : p % a.gcd b = q % a.gcd b) : ∃ k < cycleLength a b, (q + k * b) % (a + b) = p := by
  have hgcd : b.gcd (a + b) = a.gcd b := by
    rw [Nat.gcd_comm, Nat.gcd_add_self_left]
  have hlt : b.gcd (a + b) < a + b := by
    have := Nat.gcd_le_left (a + b) hb
    omega
  obtain ⟨m, -, hm⟩ := Nat.exists_mul_mod_eq_gcd hlt
  rw [hgcd] at hm
  have hdvd : a.gcd b ∣ p + (a + b) - q := by
    have hsum : p + (a + b) ≡ q [MOD a.gcd b] := by
      have hzero : a + b ≡ 0 [MOD a.gcd b] := (Nat.modEq_zero_iff_dvd).mpr
        ((Nat.dvd_add_right (Nat.gcd_dvd_left a b)).mpr (Nat.gcd_dvd_right a b))
      exact Nat.ModEq.add h hzero
    exact (Nat.modEq_iff_dvd' (by omega)).mp hsum.symm
  obtain ⟨t, ht⟩ := hdvd
  refine ⟨m * t % cycleLength a b, Nat.mod_lt _ (cycleLength_pos ha), ?_⟩
  have hfold : m * t % cycleLength a b * b ≡ m * t * b [MOD a + b] := by
    have hsplit := Nat.mod_add_div (m * t) (cycleLength a b)
    have hzero : cycleLength a b * (m * t / cycleLength a b) * b ≡ 0 [MOD a + b] := by
      rw [Nat.mul_right_comm]
      exact Nat.modEq_zero_iff_dvd.mpr ((Nat.dvd_of_mod_eq_zero cycleLength_mul_mod).mul_right _)
    calc m * t % cycleLength a b * b
        ≡ m * t % cycleLength a b * b + cycleLength a b * (m * t / cycleLength a b) * b
          [MOD a + b] := (Nat.ModEq.add_left (m * t % cycleLength a b * b) hzero).symm
      _ = m * t * b := by rw [← Nat.add_mul, hsplit]
  have hstep : b * m * t ≡ a.gcd b * t [MOD a + b] :=
    Nat.ModEq.mul_right t (hm.trans (Nat.mod_eq_of_lt (hgcd ▸ hlt)).symm)
  have hsum : q + m * t % cycleLength a b * b ≡ p [MOD a + b] := by
    calc q + m * t % cycleLength a b * b
        ≡ q + m * t * b [MOD a + b] := Nat.ModEq.add_left q hfold
      _ = q + b * m * t := by ring
      _ ≡ q + a.gcd b * t [MOD a + b] := Nat.ModEq.add_left q hstep
      _ = p + (a + b) := by rw [← ht]; omega
      _ ≡ p [MOD a + b] := Nat.add_mod_right ..
  exact Eq.trans hsum (Nat.mod_eq_of_lt hp)

/-- A cycle stays in its residue modulo the greatest common divisor. -/
theorem cycle_residue {q : ℕ} : (q + k * b) % (a + b) % a.gcd b = q % a.gcd b := by
  have hdvd : a.gcd b ∣ a + b :=
    (Nat.dvd_add_right (Nat.gcd_dvd_left a b)).mpr (Nat.gcd_dvd_right a b)
  rw [Nat.mod_mod_of_dvd _ hdvd]
  have hzero : k * b ≡ 0 [MOD a.gcd b] :=
    Nat.modEq_zero_iff_dvd.mpr (Dvd.dvd.mul_left (Nat.gcd_dvd_right a b) k)
  exact Nat.ModEq.add_left q hzero

/-! ### Following every cycle -/

/-- **The cycles** that begin at `count` consecutive places, each followed for `n` steps. -/
def followCycles (move : ℕ → ℕ) (base count n : ℕ) (l : List α) : List α :=
  (List.range count).foldl (fun l i => followCycle move (base + i) n l) l

theorem followCycles_succ {base count : ℕ} :
    followCycles move base (count + 1) n l =
      followCycle move (base + count) n (followCycles move base count n l) := by
  rw [followCycles, List.range_succ, List.foldl_append]
  rfl

@[simp] theorem length_followCycles {base count : ℕ} :
    (followCycles move base count n l).length = l.length := by
  induction count with
  | zero => rfl
  | succ count ih => rw [followCycles_succ, length_followCycle, ih]

/-- One cycle of the move of two blocks, from the place `i` of the second block on. -/
theorem blockMove_cycle (ha : 0 < a) (hb : 0 < b) (hi : i < a.gcd b)
    (hl : start + (a + b) ≤ l.length) :
    (∀ q < a + b, q % a.gcd b = i →
      (followCycle (blockMove start a b) (start + a + i) (cycleLength a b) l)[
        start + (q + b) % (a + b)]? = l[start + q]?) ∧
      ∀ x, (∀ q < a + b, q % a.gcd b = i → x ≠ start + q) →
        (followCycle (blockMove start a b) (start + a + i) (cycleLength a b) l)[x]? = l[x]? := by
  have hib : i < b := lt_of_lt_of_le hi (Nat.gcd_le_right a hb)
  have hq : a + i < a + b := by omega
  have hres : (a + i) % a.gcd b = i := by
    obtain ⟨c, hc⟩ := Nat.gcd_dvd_left a b
    calc (a + i) % a.gcd b = (i + a.gcd b * c) % a.gcd b := by rw [← hc, Nat.add_comm]
      _ = i := by rw [Nat.add_mul_mod_self_left, Nat.mod_eq_of_lt hi]
  have hplace : ∀ k, (blockMove start a b)^[k] (start + a + i) =
      start + (a + i + k * b) % (a + b) := by
    intro k
    rw [Nat.add_assoc]
    exact blockMove_iterate hq
  have hback : (blockMove start a b)^[cycleLength a b] (start + a + i) = start + a + i := by
    rw [hplace, Nat.add_mod, cycleLength_mul_mod, Nat.add_zero, Nat.mod_mod,
      Nat.mod_eq_of_lt hq, Nat.add_assoc]
  have hlt : ∀ k < cycleLength a b, (blockMove start a b)^[k] (start + a + i) < l.length := by
    intro k _
    have := Nat.mod_lt (a + i + k * b) (show 0 < a + b by omega)
    rw [hplace]
    omega
  have hinj : ∀ k < cycleLength a b, ∀ m < cycleLength a b,
      (blockMove start a b)^[k] (start + a + i) = (blockMove start a b)^[m] (start + a + i) →
        k = m := by
    intro k hk m hm h
    rw [hplace, hplace] at h
    exact cycle_injective (by omega) hk hm (Nat.add_left_cancel h)
  obtain ⟨hmoved, hrest⟩ := followCycle_spec (cycleLength_pos ha) hback hlt hinj
  refine ⟨fun q hqlt hqi => ?_, fun x hx => hrest x fun k hk h => ?_⟩
  · obtain ⟨k, hk, hkq⟩ := cycle_surjective ha hb hq hqlt (hqi.trans hres.symm)
    have := hmoved k hk
    rw [hplace, hplace, hkq, Nat.succ_mul, ← Nat.add_assoc, ← Nat.mod_add_mod, hkq] at this
    exact this
  · rw [hplace] at h
    exact hx _ (Nat.mod_lt _ (by omega)) (cycle_residue.trans hres) h

/-- After the cycles of the residues below `count`, the entries of these residues have moved. -/
theorem followCycles_prefix {count : ℕ} (ha : 0 < a) (hb : 0 < b) (hcount : count ≤ a.gcd b)
    (hl : start + (a + b) ≤ l.length) :
    (∀ q < a + b, (followCycles (blockMove start a b) (start + a) count (cycleLength a b) l)[
        start + (q + b) % (a + b)]? =
          if q % a.gcd b < count then l[start + q]? else l[start + (q + b) % (a + b)]?) ∧
      ∀ x, x < start ∨ start + (a + b) ≤ x →
        (followCycles (blockMove start a b) (start + a) count (cycleLength a b) l)[x]? = l[x]? := by
  induction count with
  | zero => exact ⟨fun q _ => (if_neg (Nat.not_lt_zero _)).symm, fun _ _ => rfl⟩
  | succ count ih =>
    obtain ⟨hin, hout⟩ := ih (by omega)
    have hl' : start + (a + b) ≤
        (followCycles (blockMove start a b) (start + a) count (cycleLength a b) l).length := by
      rw [length_followCycles]
      exact hl
    obtain ⟨hmoved, hrest⟩ := blockMove_cycle ha hb (show count < a.gcd b by omega) hl'
    -- the residue of a place that moves is the residue it had
    have hresidue : ∀ q, (q + b) % (a + b) % a.gcd b = q % a.gcd b := by
      intro q
      have := cycle_residue (a := a) (b := b) (k := 1) (q := q)
      rwa [Nat.one_mul] at this
    have hback : ∀ q < a + b, ∃ p < a + b, (p + b) % (a + b) = q := by
      intro q hq
      refine ⟨(q + a) % (a + b), Nat.mod_lt _ (by omega), ?_⟩
      rw [Nat.mod_add_mod, Nat.add_assoc, Nat.add_mod_right, Nat.mod_eq_of_lt hq]
    refine ⟨fun q hq => ?_, fun x hx => ?_⟩
    · rw [followCycles_succ]
      by_cases hqc : q % a.gcd b = count
      · obtain ⟨p, hp, hpq⟩ := hback q hq
        have hpc : p % a.gcd b = count := by rw [← hresidue p, hpq, hqc]
        have hold := hin p hp
        rw [hpc, if_neg (lt_irrefl _), hpq] at hold
        rw [if_pos (by omega), hmoved q hq hqc, hold]
      · rw [hrest _ fun p _ hp h => hqc ?_, hin q hq]
        · by_cases hlt : q % a.gcd b < count
          · rw [if_pos hlt, if_pos (by omega)]
          · rw [if_neg hlt, if_neg (by omega)]
        · rw [← hresidue q, Nat.add_left_cancel h, hp]
    · rw [followCycles_succ, hrest x fun q hq _ h => by omega]
      exact hout x hx

/-- **Two neighbouring blocks change places** when the cycles of all residues have been
followed. -/
theorem followCycles_blocks {pre xs ys post : List α} (hx : xs ≠ []) (hy : ys ≠ []) :
    followCycles (blockMove pre.length xs.length ys.length) (pre.length + xs.length)
        (xs.length.gcd ys.length) (cycleLength xs.length ys.length) (pre ++ xs ++ ys ++ post) =
      pre ++ ys ++ xs ++ post := by
  have ha : 0 < xs.length := List.length_pos_iff.mpr hx
  have hb : 0 < ys.length := List.length_pos_iff.mpr hy
  have hlen : pre.length + (xs.length + ys.length) ≤ (pre ++ xs ++ ys ++ post).length := by
    simp only [List.length_append]
    omega
  obtain ⟨hin, hout⟩ := followCycles_prefix ha hb le_rfl hlen
  refine List.ext_getElem? fun x => ?_
  by_cases hxin : x < pre.length ∨ pre.length + (xs.length + ys.length) ≤ x
  · rw [hout x hxin]
    rcases hxin with hlt | hge
    · simp only [List.append_assoc, List.getElem?_append_left hlt]
    · rw [List.getElem?_append_right (by simp only [List.length_append]; omega),
        List.getElem?_append_right (by simp only [List.length_append]; omega)]
      simp only [List.length_append, Nat.add_assoc, Nat.add_comm ys.length]
  · obtain ⟨r, rfl⟩ : ∃ r, x = pre.length + r := ⟨x - pre.length, by omega⟩
    by_cases hr : r < ys.length
    · have hplace : (r + xs.length + ys.length) % (xs.length + ys.length) = r := by
        rw [Nat.add_assoc, Nat.add_mod_right, Nat.mod_eq_of_lt (by omega)]
      have := hin (r + xs.length) (by omega)
      rw [hplace, if_pos (Nat.mod_lt _ (Nat.gcd_pos_of_pos_left _ ha))] at this
      rw [this]
      simp only [List.append_assoc, List.getElem?_append, Nat.add_sub_cancel_left]
      grind
    · have hplace : (r - ys.length + ys.length) % (xs.length + ys.length) = r := by
        rw [Nat.sub_add_cancel (by omega), Nat.mod_eq_of_lt (by omega)]
      have := hin (r - ys.length) (by omega)
      rw [hplace, if_pos (Nat.mod_lt _ (Nat.gcd_pos_of_pos_left _ ha))] at this
      rw [this]
      simp only [List.append_assoc, List.getElem?_append, Nat.add_sub_cancel_left]
      grind

end CycleRotation
