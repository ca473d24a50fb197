import Mathlib.Algebra.BigOperators.Ring.List
import Mathlib.Algebra.Order.BigOperators.Group.List
import Mathlib.Data.BitVec
import Mathlib.Tactic.Linarith
import AceTao.Malloc.FreeList

/-!
# How many chunks are available

`malloc` of one size takes the same number of headers each time, its own included, from one block.
So the free blocks have room for as many calls as the quotients of their sizes add up to
(`serves_iff`). `avail_chunks` divides the bytes behind the first header of a block by the size
instead, without the headers of the other chunks and without rounding up. It is right exactly if in
no block this makes a difference (`availRight_iff`).
-/

namespace AceTao.Malloc

variable {headerSize n : ℕ}

/-! ### Searching the ring -/

theorem firstFit_eq_some {l passed rest : List Block} {currp : Block}
    (h : firstFit n l = some (passed, currp, rest)) :
    l = passed ++ currp :: rest ∧ n ≤ currp.size ∧ ∀ b ∈ passed, b.size < n := by
  induction l generalizing passed with
  | nil => cases h
  | cons b l ih =>
    rw [firstFit] at h
    split_ifs at h with hsize
    · cases h
      exact ⟨rfl, hsize, nofun⟩
    · obtain ⟨⟨passed', b', rest'⟩, hfit, heq⟩ := Option.map_eq_some_iff.mp h
      cases heq
      obtain ⟨rfl, hle, hpassed⟩ := ih hfit
      exact ⟨rfl, hle, List.forall_mem_cons.mpr ⟨not_le.mp hsize, hpassed⟩⟩

theorem firstFit_eq_none {l : FreeList} : firstFit n l = none ↔ ∀ b ∈ l, b.size < n := by
  induction l with
  | nil => exact iff_of_true rfl nofun
  | cons b l ih =>
    rw [firstFit, List.forall_mem_cons]
    split_ifs with hsize
    · exact iff_of_false nofun fun h => absurd h.1 (not_lt.mpr hsize)
    · rw [Option.map_eq_none_iff, ih, and_iff_right (not_le.mp hsize)]

theorem fromFreep_perm (l : FreeList) : (fromFreep l).Perm l := by
  rw [fromFreep]
  rcases hlast : l.getLast? with _ | freep
  · rw [List.getLast?_eq_none_iff.mp hlast]
  · have happend : l.dropLast ++ [freep] = l := List.dropLast_append_getLast? freep hlast
    have hperm : (freep :: l.dropLast).Perm (l.dropLast ++ [freep]) :=
      (List.perm_append_singleton freep l.dropLast).symm
    rwa [happend] at hperm

/-! ### Serving requests -/

variable (headerSize n)

/-- **A number of calls of `malloc`** with which the pool is not asked. -/
def Serves : ℕ → FreeList → Prop
  | 0, _ => True
  | k + 1, l => ∃ l' b, sharedMalloc headerSize n l [] = some (l', some b) ∧ Serves k l'

/-- The calls that the blocks have room for. -/
def room (l : FreeList) : ℕ := (l.map fun b => b.size / n).sum

variable {headerSize n}

/-- **A call takes one from the room**, if there is some. -/
theorem room_malloc {l : FreeList} (hn : 0 < n) (hbase : ∃ b ∈ l, b.size = 0) :
    (0 < room n l → ∃ l' b, sharedMalloc headerSize n l [] = some (l', some b)) ∧
    ∀ l' b, sharedMalloc headerSize n l [] = some (l', some b) →
      room n l = room n l' + 1 ∧ ∃ b ∈ l', b.size = 0 := by
  rw [sharedMalloc]
  rcases hfit : firstFit n l with _ | ⟨passed, currp, rest⟩
  · have hall := firstFit_eq_none.mp hfit
    refine ⟨fun hroom => ?_, nofun⟩
    have hzero : room n l = 0 := by
      refine List.sum_eq_zero fun x hx => ?_
      obtain ⟨b, hb, rfl⟩ := List.mem_map.mp hx
      exact Nat.div_eq_of_lt (hall b hb)
    omega
  · obtain ⟨rfl, hle, -⟩ := firstFit_eq_some hfit
    refine ⟨fun _ => ⟨_, _, rfl⟩, ?_⟩
    obtain ⟨b, hb, hsize⟩ := hbase
    have hother : b ∈ rest ++ passed := by
      rcases List.mem_append.mp hb with hpassed | hrest
      · exact List.mem_append_right _ hpassed
      · rcases List.mem_cons.mp hrest with rfl | hrest
        · omega
        · exact List.mem_append_left _ hrest
    have hsum : room n (passed ++ currp :: rest) = room n (rest ++ passed) + currp.size / n := by
      simp only [room, List.map_append, List.map_cons, List.sum_append, List.sum_cons]
      omega
    intro l' b' h
    dsimp only [Option.map_some] at h
    rw [takeFrom] at h
    by_cases hexact : currp.size = n
    · have hne : ¬rest ++ passed = [] := List.ne_nil_of_mem hother
      rw [if_pos hexact, if_neg hne] at h
      cases h
      rw [hsum, hexact, Nat.div_self hn]
      exact ⟨rfl, b, hother, hsize⟩
    · rw [if_neg hexact] at h
      cases h
      have hdiv : currp.size / n = (currp.size - n) / n + 1 := Nat.div_eq_sub_div hn hle
      refine ⟨?_, b, List.mem_cons_of_mem _ hother, hsize⟩
      rw [hsum, hdiv]
      simp only [room, List.map_cons, List.sum_cons]
      omega

/-- **How many calls the blocks serve.** -/
theorem serves_iff {l : FreeList} (hn : 0 < n) (hbase : ∃ b ∈ l, b.size = 0) (k : ℕ) :
    Serves headerSize n k l ↔ k ≤ room n l := by
  induction k generalizing l with
  | zero => exact iff_of_true trivial (Nat.zero_le _)
  | succ k ih =>
    obtain ⟨hserved, hleft⟩ := @room_malloc headerSize n l hn hbase
    constructor
    · rintro ⟨l', b, hmalloc, hserves⟩
      obtain ⟨hroom, hbase'⟩ := hleft l' b hmalloc
      rw [hroom]
      exact Nat.succ_le_succ ((ih hbase').mp hserves)
    · intro hle
      obtain ⟨l', b, hmalloc⟩ := hserved (by omega)
      obtain ⟨hroom, hbase'⟩ := hleft l' b hmalloc
      exact ⟨l', b, hmalloc, (ih hbase').mpr (by omega)⟩

/-! ### What is reached -/

variable (headerSize) in
/-- **A block without `base_`**, not even at its end. -/
def Block.Avoids (base : ℕ) (b : Block) : Prop := b.ends headerSize < base ∨ base < b.addr

variable (headerSize) in
/-- **The ring is anchored** in `base_`, and its other blocks are elsewhere. -/
structure Anchored (base : ℕ) (l : FreeList) : Prop where
  anchor : ⟨base, 0⟩ ∈ l
  avoids : ∀ b ∈ l, b = ⟨base, 0⟩ ∨ b.Avoids headerSize base

/-- The headers of all blocks together. -/
def units (l : List Block) : ℕ := (l.map Block.size).sum

variable {base : ℕ} {l l' : FreeList} {a b currp : Block}

@[simp] theorem units_cons (b : Block) (l : List Block) : units (b :: l) = b.size + units l := by
  rw [units, List.map_cons, List.sum_cons, units]

@[simp] theorem units_append (l l' : List Block) : units (l ++ l') = units l + units l' := by
  rw [units, List.map_append, List.sum_append, units, units]

theorem units_perm (h : l.Perm l') : units l = units l' := (h.map _).sum_eq

theorem Anchored.perm (h : Anchored headerSize base l) (hperm : l.Perm l') :
    Anchored headerSize base l' :=
  ⟨hperm.mem_iff.mp h.anchor, fun b hb => h.avoids b (hperm.mem_iff.mpr hb)⟩

theorem Block.addr_le_ends (b : Block) : b.addr ≤ b.ends headerSize := Nat.le_add_right _ _

theorem Block.Avoids.ends_ne (h : b.Avoids headerSize base) : b.ends headerSize ≠ base := by
  have hle := @Block.addr_le_ends headerSize b
  rcases h with h | h <;> omega

theorem Block.Avoids.addr_ne (h : b.Avoids headerSize base) : b.addr ≠ base := by
  have hle := @Block.addr_le_ends headerSize b
  rcases h with h | h <;> omega

/-- Two blocks that are joined. -/
theorem Block.Avoids.join (ha : a.Avoids headerSize base) (hb : b.Avoids headerSize base)
    (h : a.ends headerSize = b.addr) : Block.Avoids headerSize base ⟨a.addr, a.size + b.size⟩ := by
  have hends : Block.ends headerSize ⟨a.addr, a.size + b.size⟩ = b.ends headerSize := by
    rw [Block.ends, Block.ends, ← h, Block.ends, Nat.add_mul, Nat.add_assoc]
  rw [Block.Avoids, hends]
  rcases ha with ha | ha
  · rcases hb with hb | hb
    · exact .inl hb
    · omega
  · exact .inr ha

/-- **A block is put into the ring.** -/
theorem insertBehind_spec {others : List Block} (hl : Anchored headerSize base (currp :: others))
    (hb : b.Avoids headerSize base) :
    Anchored headerSize base (insertBehind headerSize b currp others) ∧
      units (insertBehind headerSize b currp others) = units (currp :: others) + b.size := by
  -- what has become of the block and its upper neighbor
  obtain ⟨b', others', hb', hl', hunits, heq⟩ : ∃ b' others', b'.Avoids headerSize base ∧
      Anchored headerSize base (currp :: others') ∧
      b'.size + units others' = b.size + units others ∧
      insertBehind headerSize b currp others =
        if currp.ends headerSize = b'.addr then
          others' ++ [{ currp with size := currp.size + b'.size }]
        else b' :: others' ++ [currp] := by
    by_cases hjoins : b.ends headerSize = (others.head?.getD currp).addr
    · rcases others with _ | ⟨next, others⟩
      · -- the ring is `base_` alone
        have hcurrp : ⟨base, 0⟩ = currp := List.mem_singleton.mp hl.anchor
        refine absurd hjoins ?_
        rw [List.head?_nil, Option.getD_none, ← hcurrp]
        exact hb.ends_ne
      · rw [List.head?_cons, Option.getD_some] at hjoins
        have hnext : next.Avoids headerSize base := by
          rcases hl.avoids next (List.mem_cons_of_mem _ List.mem_cons_self) with rfl | h
          · exact absurd hjoins hb.ends_ne
          · exact h
        refine ⟨_, others, hb.join hnext hjoins, ⟨?_, fun x hx => hl.avoids x ?_⟩, ?_, ?_⟩
        · rcases List.mem_cons.mp hl.anchor with h | h
          · exact h ▸ List.mem_cons_self
          · rcases List.mem_cons.mp h with rfl | h
            · exact absurd rfl hnext.addr_ne
            · exact List.mem_cons_of_mem _ h
        · rcases List.mem_cons.mp hx with rfl | hx
          · exact List.mem_cons_self
          · exact List.mem_cons_of_mem _ (List.mem_cons_of_mem _ hx)
        · rw [units_cons]
          exact Nat.add_assoc _ _ _
        · simp only [insertBehind, List.head?_cons, Option.getD_some, hjoins, if_true,
            List.tail_cons]
    · refine ⟨b, others, hb, hl, rfl, ?_⟩
      simp only [insertBehind, if_neg hjoins]
  rw [heq]
  by_cases hjoins : currp.ends headerSize = b'.addr
  · rw [if_pos hjoins]
    have hcurrp : currp.Avoids headerSize base := by
      rcases hl'.avoids currp List.mem_cons_self with rfl | h
      · refine absurd hjoins.symm ?_
        rw [Block.ends, Nat.zero_mul]
        exact hb'.addr_ne
      · exact h
    refine ⟨⟨?_, fun x hx => ?_⟩, ?_⟩
    · rcases List.mem_cons.mp hl'.anchor with rfl | h
      · exact absurd rfl hcurrp.addr_ne
      · exact List.mem_append_left _ h
    · rcases List.mem_append.mp hx with hx | hx
      · exact hl'.avoids x (List.mem_cons_of_mem _ hx)
      · rw [List.mem_singleton.mp hx]
        exact .inr (hcurrp.join hb' hjoins)
    · simp only [units_append, units_cons]
      have hnil : units [] = 0 := rfl
      omega
  · rw [if_neg hjoins]
    refine ⟨⟨?_, fun x hx => ?_⟩, ?_⟩
    · rcases List.mem_cons.mp hl'.anchor with h | h
      · exact h ▸ List.mem_append_right _ List.mem_cons_self
      · exact List.mem_append_left _ (List.mem_cons_of_mem _ h)
    · rcases List.mem_append.mp hx with hx | hx
      · rcases List.mem_cons.mp hx with rfl | hx
        · exact .inr hb'
        · exact hl'.avoids x (List.mem_cons_of_mem _ hx)
      · rw [List.mem_singleton.mp hx]
        exact hl'.avoids currp List.mem_cons_self
    · simp only [units_append, units_cons]
      have hnil : units [] = 0 := rfl
      omega

theorem locate_eq_some {blockp first : ℕ} {rest passed passed' rest' : List Block}
    (h : locate blockp first passed rest = some (passed', currp, rest')) :
    passed ++ rest = passed' ++ currp :: rest' := by
  induction rest generalizing passed with
  | nil => cases h
  | cons b rest ih =>
    rw [locate] at h
    split_ifs at h
    · cases h
      rfl
    · rw [← ih h, List.append_assoc, List.singleton_append]

theorem sharedFree_spec (hl : Anchored headerSize base l) (hb : b.Avoids headerSize base)
    (h : sharedFree headerSize l b = some l') :
    Anchored headerSize base l' ∧ units l' = units l + b.size := by
  have hperm := fromFreep_perm l
  rw [sharedFree] at h
  split at h
  · cases h
  · rename_i freep rest heq
    obtain ⟨⟨passed, currp, rest'⟩, hlocate, rfl⟩ := Option.map_eq_some_iff.mp h
    have happend : freep :: rest = passed ++ currp :: rest' := locate_eq_some hlocate
    have hring : (currp :: (rest' ++ passed)).Perm l := by
      have hrotate : (currp :: rest' ++ passed).Perm (passed ++ currp :: rest') :=
        List.perm_append_comm
      rw [← happend, ← heq] at hrotate
      exact hrotate.trans hperm
    obtain ⟨hanchored, hunits⟩ := insertBehind_spec (hl.perm hring.symm) hb
    exact ⟨hanchored, hunits.trans (by rw [units_perm hring])⟩

theorem takeFrom_spec (hn : 0 < n) {passed rest : List Block}
    (hl : Anchored headerSize base (passed ++ currp :: rest)) (hle : n ≤ currp.size) :
    Anchored headerSize base (takeFrom headerSize n passed currp rest).1 ∧
      (takeFrom headerSize n passed currp rest).2.Avoids headerSize base ∧
      units (takeFrom headerSize n passed currp rest).1 +
        (takeFrom headerSize n passed currp rest).2.size = units (passed ++ currp :: rest) := by
  have hring : (passed ++ currp :: rest).Perm (currp :: (rest ++ passed)) :=
    (List.perm_middle).trans (List.perm_append_comm.cons currp)
  have hl' := hl.perm hring
  have hcurrp : currp.Avoids headerSize base := by
    rcases hl'.avoids currp List.mem_cons_self with rfl | h
    · exact absurd hle (not_le.mpr hn)
    · exact h
  have hanchor : ⟨base, 0⟩ ∈ rest ++ passed := by
    rcases List.mem_cons.mp hl'.anchor with rfl | h
    · exact absurd rfl hcurrp.addr_ne
    · exact h
  rw [units_perm hring, units_cons, takeFrom]
  by_cases hexact : currp.size = n
  · rw [if_pos hexact, if_neg (List.ne_nil_of_mem hanchor)]
    exact ⟨⟨hanchor, fun x hx => hl'.avoids x (List.mem_cons_of_mem _ hx)⟩, hcurrp,
      Nat.add_comm _ _⟩
  · rw [if_neg hexact]
    have hsum : (currp.size - n) * headerSize + n * headerSize = currp.size * headerSize := by
      rw [← Nat.add_mul, Nat.sub_add_cancel hle]
    have hhead : Block.Avoids headerSize base { currp with size := currp.size - n } := by
      rw [Block.Avoids, Block.ends] at hcurrp ⊢
      dsimp only
      omega
    have htail : Block.Avoids headerSize base
        ⟨currp.addr + (currp.size - n) * headerSize, n⟩ := by
      rw [Block.Avoids, Block.ends] at hcurrp ⊢
      dsimp only
      omega
    refine ⟨⟨List.mem_cons_of_mem _ hanchor, fun x hx => ?_⟩, htail, ?_⟩
    · rcases List.mem_cons.mp hx with rfl | hx
      · exact .inr hhead
      · exact hl'.avoids x (List.mem_cons_of_mem _ hx)
    · rw [units_cons]
      dsimp only
      omega

theorem sharedMalloc_spec (hn : 0 < n) {answers : List (Option Chunk)} {result : Option Block}
    (hl : Anchored headerSize base l) (hpool : ∀ c ∈ chunks answers, c.Avoids base)
    (h : sharedMalloc headerSize n l answers = some (l', result)) :
    Anchored headerSize base l' ∧ (∀ b ∈ result, b.Avoids headerSize base) ∧
      (units l' + units result.toList) * headerSize ≤
        units l * headerSize + ((chunks answers).map Chunk.bytes).sum := by
  induction answers generalizing l with
  | nil =>
    rw [sharedMalloc] at h
    obtain ⟨⟨passed, currp, rest⟩, hfit, heq⟩ := Option.map_eq_some_iff.mp h
    cases heq
    obtain ⟨rfl, hle, -⟩ := firstFit_eq_some hfit
    obtain ⟨hanchored, havoids, hunits⟩ := takeFrom_spec hn hl hle
    refine ⟨hanchored, fun b hb => ?_, ?_⟩
    · cases hb
      exact havoids
    · rw [Option.toList_some, units_cons, ← hunits]
      exact Nat.le_add_right _ _
  | cons answer answers ih =>
    rw [sharedMalloc.eq_def] at h
    dsimp only at h
    by_cases hfits : (firstFit n l).isSome
    · rw [if_pos hfits] at h
      cases h
    rw [if_neg hfits] at h
    rcases answer with _ | chunk
    · dsimp only at h
      split_ifs at h
      cases h
      exact ⟨hl, nofun, Nat.le_add_right _ _⟩
    · obtain ⟨l₁, hfree, hrest⟩ := Option.bind_eq_some_iff.mp h
      have hchunks : chunks (some chunk :: answers) = chunk :: chunks answers := rfl
      rw [hchunks] at hpool ⊢
      obtain ⟨hchunk, hanswers⟩ := List.forall_mem_cons.mp hpool
      have hbytes : chunk.bytes / headerSize * headerSize ≤ chunk.bytes := Nat.div_mul_le_self _ _
      have hblock : Block.Avoids headerSize base ⟨chunk.addr, chunk.bytes / headerSize⟩ := by
        rw [Chunk.Avoids] at hchunk
        rw [Block.Avoids, Block.ends]
        dsimp only
        omega
      obtain ⟨hanchored, hunits⟩ := sharedFree_spec hl hblock hfree
      obtain ⟨hanchored', havoids, hsum⟩ := ih hanchored hanswers hrest
      refine ⟨hanchored', havoids, hsum.trans ?_⟩
      rw [hunits, Nat.add_mul, List.map_cons, List.sum_cons]
      dsimp only
      omega

/-- **What is reached**: the ring is anchored, no block contains `base_`, and the blocks lie in what
has been acquired. -/
structure Sound (headerSize base : ℕ) (s : Heap) (acquired : ℕ) : Prop where
  anchored : Anchored headerSize base s.free
  avoids : ∀ b ∈ s.allocated, b.Avoids headerSize base
  total : (units s.free + units s.allocated) * headerSize ≤ acquired

theorem Reaches.sound (hheader : 0 < headerSize) {s : Heap} {acquired : ℕ}
    (h : Reaches headerSize base s acquired) : Sound headerSize base s acquired := by
  induction h with
  | @opened extra l hopen =>
    have hbase : Anchored headerSize base [⟨base, 0⟩] :=
      ⟨List.mem_cons_self, fun b hb => .inl (List.mem_singleton.mp hb)⟩
    rw [openPool] at hopen
    split_ifs at hopen
    · have hblock : Block.Avoids headerSize base ⟨base + headerSize, extra / headerSize⟩ :=
        .inr (Nat.lt_add_of_pos_right hheader)
      obtain ⟨hanchored, hunits⟩ := sharedFree_spec hbase hblock hopen
      refine ⟨hanchored, nofun, ?_⟩
      have hnil : units [] = 0 := rfl
      rw [hunits, units_cons, hnil, Nat.add_zero, Nat.add_zero]
      dsimp only
      rw [Nat.zero_add]
      exact Nat.div_mul_le_self _ _
    · cases hopen
      exact ⟨hbase, nofun, by simp [units]⟩
  | @malloc s acquired _ nbytes answers hpool l result hmalloc ih =>
    obtain ⟨hanchored, havoids, hsum⟩ :=
      sharedMalloc_spec (Nat.succ_pos _) ih.anchored hpool hmalloc
    refine ⟨hanchored, fun b hb => ?_, ?_⟩
    · rcases List.mem_append.mp hb with hb | hb
      · exact havoids b (Option.mem_toList.mp hb)
      · exact ih.avoids b hb
    · have htotal := ih.total
      rw [Nat.add_mul] at htotal hsum ⊢
      rw [units_append, Nat.add_mul]
      dsimp only
      omega
  | @free s acquired _ b hb l hfree ih =>
    obtain ⟨hanchored, hunits⟩ := sharedFree_spec ih.anchored (ih.avoids b hb) hfree
    refine ⟨hanchored, fun x hx => ih.avoids x (List.mem_of_mem_erase hx), ?_⟩
    have hallocated : units s.allocated = b.size + units (s.allocated.erase b) :=
      (units_perm (List.perm_cons_erase hb)).trans (units_cons _ _)
    have htotal := ih.total
    rw [hallocated] at htotal
    dsimp only
    rwa [hunits, Nat.add_assoc]

/-! ### Counting chunks -/

theorem foldl_mod (f : Block → ℕ) {c : ℕ} (hc : c < 2 ^ 64) (l : List Block) :
    l.foldl (fun count b => (count + f b) % 2 ^ 64) c = (c + (l.map f).sum) % 2 ^ 64 := by
  induction l generalizing c with
  | nil => exact (Nat.mod_eq_of_lt hc).symm
  | cons b l ih =>
    rw [List.foldl_cons, ih (Nat.mod_lt _ (by decide)), Nat.mod_add_mod, List.map_cons,
      List.sum_cons, Nat.add_assoc]

/-- The chunks that are counted in a block. -/
theorem chunksIn_eq {size : ℕ} (hb : b.size * headerSize < 2 ^ 64) :
    chunksIn headerSize size b = (b.size - 1) * headerSize / size := by
  have havail : (if b.size = 0 then 0 else b.size - 1) = b.size - 1 := by
    split_ifs with hzero
    · rw [hzero]
    · rfl
  have hle : (b.size - 1) * headerSize ≤ b.size * headerSize :=
    Nat.mul_le_mul_right _ (Nat.sub_le _ _)
  simp only [chunksIn, havail, Nat.mod_eq_of_lt (hle.trans_lt hb)]
  split_ifs with hlt
  · rfl
  · exact (Nat.div_eq_of_lt (not_le.mp hlt)).symm

theorem size_le_units (hb : b ∈ l) : b.size ≤ units l :=
  List.single_le_sum (fun _ _ => Nat.zero_le _) _ (List.mem_map_of_mem hb)

/-- **What `avail_chunks` returns.** -/
theorem availChunks_eq {size : ℕ} (hsize : 1 ≤ size) (hunits : units l * headerSize < 2 ^ 64) :
    availChunks headerSize l size = (l.map fun b => (b.size - 1) * headerSize / size).sum := by
  have hone : (if size = 0 then 1 else size) = size := if_neg (by omega)
  have hmap : l.map (chunksIn headerSize size) =
      l.map fun b => (b.size - 1) * headerSize / size :=
    List.map_congr_left fun b hb => chunksIn_eq
      ((Nat.mul_le_mul_right _ (size_le_units hb)).trans_lt hunits)
  have hle : (l.map fun b => (b.size - 1) * headerSize / size).sum ≤ units l * headerSize := by
    rw [units, ← List.sum_map_mul_right]
    refine List.sum_le_sum fun b _ => ?_
    exact (Nat.div_le_self _ _).trans (Nat.mul_le_mul_right _ (Nat.sub_le _ _))
  rw [availChunks, hone, foldl_mod _ (by decide), Nat.zero_add, ((fromFreep_perm l).map _).sum_eq, hmap]
  exact Nat.mod_eq_of_lt (hle.trans_lt hunits)

/-! ### When the count is right -/

variable (headerSize) in
/-- **The chunks that are counted are available**: so many calls of `malloc` succeed without a
request to the pool. -/
def AvailRight (l : FreeList) (size : ℕ) : Prop :=
  Serves headerSize (nunits headerSize size) (availChunks headerSize l size) l

/-- A block is never counted for less than it has room for. -/
theorem div_nunits_le {size s : ℕ} (hsize : 1 ≤ size)
    (hnunits : size ≤ (n - 1) * headerSize) : s / n ≤ (s - 1) * headerSize / size := by
  rw [Nat.le_div_iff_mul_le hsize]
  generalize hq : s / n = q
  have hle : q * n ≤ s := hq ▸ Nat.div_mul_le_self s n
  rcases Nat.eq_zero_or_pos q with rfl | hpos
  · rw [Nat.zero_mul]
    exact Nat.zero_le _
  calc q * size ≤ q * ((n - 1) * headerSize) := Nat.mul_le_mul_left q hnunits
    _ = (q * n - q) * headerSize := by rw [← Nat.mul_assoc, Nat.mul_sub_one]
    _ ≤ (s - 1) * headerSize := Nat.mul_le_mul_right _ (by omega)

/-- The headers that are handed out have room for the bytes, if the rounding does not overflow. -/
theorem le_nunits {nbytes : ℕ} (hheader : 0 < headerSize)
    (h : nbytes + headerSize - 1 < 2 ^ 64) :
    nbytes ≤ (nunits headerSize nbytes - 1) * headerSize := by
  rw [nunits, Nat.mod_eq_of_lt h, Nat.add_sub_cancel]
  have hdiv := Nat.div_add_mod (nbytes + headerSize - 1) headerSize
  have hmod := Nat.mod_lt (nbytes + headerSize - 1) hheader
  rw [Nat.mul_comm] at hdiv
  omega

/-- **When the count is right**: in no free block the bytes behind its header are enough for one
chunk more than the requests that it has room for. -/
theorem availRight_iff (hheader : 0 < headerSize) {s : Heap} {acquired : ℕ}
    (hs : Reaches headerSize base s acquired) (hspace : acquired < 2 ^ 63) {size : ℕ}
    (hsize : 1 ≤ size) :
    AvailRight headerSize s.free size ↔ ∀ b ∈ s.free,
      (b.size - 1) * headerSize < (b.size / nunits headerSize size + 1) * size := by
  have hsound := hs.sound hheader
  have hn : 0 < nunits headerSize size := Nat.succ_pos _
  have htotal : units s.free * headerSize ≤ acquired :=
    (Nat.mul_le_mul_right _ (Nat.le_add_right _ _)).trans hsound.total
  have hblock : ∀ b ∈ s.free, b.size * headerSize ≤ acquired := fun b hb =>
    (Nat.mul_le_mul_right _ (size_le_units hb)).trans htotal
  have hcond : (∀ b ∈ s.free,
      (b.size - 1) * headerSize < (b.size / nunits headerSize size + 1) * size) ↔
      ∀ b ∈ s.free, (b.size - 1) * headerSize / size ≤ b.size / nunits headerSize size := by
    refine forall₂_congr fun b _ => ?_
    rw [← Nat.lt_succ_iff, Nat.div_lt_iff_lt_mul hsize]
  rw [AvailRight, serves_iff hn ⟨_, hsound.anchored.anchor, rfl⟩,
    availChunks_eq hsize (htotal.trans_lt (hspace.trans (by decide))), room, hcond]
  by_cases hwrap : size + headerSize - 1 < 2 ^ 64
  · have hle : ∀ b ∈ s.free, b.size / nunits headerSize size ≤
        (b.size - 1) * headerSize / size := fun b _ =>
      div_nunits_le hsize (le_nunits hheader hwrap)
    constructor
    · intro hsum b hb
      by_contra hlt
      exact absurd hsum (not_le.mpr (List.sum_lt_sum _ _ hle ⟨b, hb, not_le.mp hlt⟩))
    · exact List.sum_le_sum
  · -- no block has room for so many bytes
    have hzero : ∀ b ∈ s.free, (b.size - 1) * headerSize / size = 0 := by
      intro b hb
      refine Nat.div_eq_of_lt ?_
      have hb' := hblock b hb
      rcases Nat.eq_zero_or_pos b.size with h0 | hpos
      · rw [h0, Nat.zero_sub, Nat.zero_mul]
        exact hsize
      · rw [Nat.sub_one_mul]
        have hone : headerSize ≤ b.size * headerSize := Nat.le_mul_of_pos_left _ hpos
        omega
    refine iff_of_true ?_ fun b hb => (hzero b hb).le.trans (Nat.zero_le _)
    have hsum : (s.free.map fun b => (b.size - 1) * headerSize / size).sum = 0 := by
      refine List.sum_eq_zero fun x hx => ?_
      obtain ⟨b, hb, rfl⟩ := List.mem_map.mp hx
      exact hzero b hb
    rw [hsum]
    exact Nat.zero_le _

section Example

/-- **A block of ten headers** of 16 bytes, behind the control block. -/
def tenHeaders : Heap := ⟨[⟨1016, 10⟩, ⟨1000, 0⟩], []⟩

theorem reaches_tenHeaders : Reaches 16 1000 tenHeaders 160 := .opened (by decide)

theorem availRight_iff_tenHeaders :
    AvailRight 16 tenHeaders.free 100 ↔ ∀ b ∈ tenHeaders.free,
      (b.size - 1) * 16 < (b.size / nunits 16 100 + 1) * 100 :=
  availRight_iff (by decide) reaches_tenHeaders (by decide) (by decide)

/-- **Nine chunks of 16 bytes are counted**, and there are five: each takes a header of its own. -/
theorem not_availRight_tenHeaders : Reaches 16 1000 tenHeaders 160 ∧
    availChunks 16 tenHeaders.free 16 = 9 ∧ ¬AvailRight 16 tenHeaders.free 16 := by
  have hcount : availChunks 16 tenHeaders.free 16 = 9 := by decide
  refine ⟨reaches_tenHeaders, hcount, ?_⟩
  rw [AvailRight, hcount, serves_iff (by decide) ⟨⟨1000, 0⟩, by decide, rfl⟩]
  decide

end Example

end AceTao.Malloc

/-!
## The bytes behind a pointer

A pointer that `malloc` or `calloc` returns is to a block that has room for the bytes asked for, and
`calloc` fills no others. The bytes are rounded up to headers, and the size of an array is computed,
in `size_t`. The block is large enough exactly when neither overflows (`covers_iff`).
-/

namespace AceTao.Malloc

/-- **A call** that returns memory. -/
inductive Call
  | malloc (nbytes : BitVec 64)
  | calloc (nbytes : BitVec 64)
  | callocArray (nElem elemSize : BitVec 64)

namespace Call

/-- The bytes that are to be there. -/
def wanted : Call → ℕ
  | malloc nbytes => nbytes.toNat
  | calloc nbytes => nbytes.toNat
  | callocArray nElem elemSize => nElem.toNat * elemSize.toNat

/-- The argument of `malloc`. -/
def requested : Call → BitVec 64
  | malloc nbytes => nbytes
  | calloc nbytes => nbytes
  | callocArray nElem elemSize => nElem * elemSize

/-- The bytes that are filled. -/
def filled : Call → ℕ
  | malloc _ => 0
  | calloc nbytes => nbytes.toNat
  | callocArray nElem elemSize => (nElem * elemSize).toNat

/-- **`malloc` and `calloc`**. -/
def run (headerSize : ℕ) (call : Call) : FreeList → List (Option Chunk) →
    Option (FreeList × Option Block) :=
  sharedMalloc headerSize (nunits headerSize call.requested.toNat)

/-- **A block covers a call**: the bytes behind its header are enough, and no others are filled. -/
def Covers (headerSize : ℕ) (call : Call) (b : Block) : Prop :=
  call.wanted ≤ (b.size - 1) * headerSize ∧ call.filled ≤ (b.size - 1) * headerSize

variable {headerSize n : ℕ} {call : Call}

theorem filled_le (call : Call) : call.filled ≤ call.wanted := by
  cases call with
  | malloc nbytes => exact Nat.zero_le _
  | calloc nbytes => exact le_rfl
  | callocArray nElem elemSize =>
    rw [filled, BitVec.toNat_mul]
    exact Nat.mod_le _ _

theorem requested_toNat (call : Call) : call.requested.toNat = call.wanted % 2 ^ 64 := by
  cases call with
  | malloc nbytes => exact (Nat.mod_eq_of_lt nbytes.isLt).symm
  | calloc nbytes => exact (Nat.mod_eq_of_lt nbytes.isLt).symm
  | callocArray nElem elemSize => exact BitVec.toNat_mul _ _

end Call

variable {headerSize n : ℕ} {l l' : FreeList} {b : Block}

/-- **The header of a block** that is handed out has the size that was asked for. -/
theorem size_of_sharedMalloc {answers : List (Option Chunk)}
    (h : sharedMalloc headerSize n l answers = some (l', some b)) : b.size = n := by
  induction answers generalizing l with
  | nil =>
    rw [sharedMalloc] at h
    obtain ⟨⟨passed, currp, rest⟩, -, heq⟩ := Option.map_eq_some_iff.mp h
    cases heq
    rw [takeFrom]
    by_cases hexact : currp.size = n
    · rw [if_pos hexact]
      exact hexact
    · rw [if_neg hexact]
  | cons answer answers ih =>
    rw [sharedMalloc.eq_def] at h
    dsimp only at h
    by_cases hfits : (firstFit n l).isSome
    · rw [if_pos hfits] at h
      cases h
    rw [if_neg hfits] at h
    rcases answer with _ | chunk
    · dsimp only at h
      split_ifs at h
      cases h
    · obtain ⟨l₁, -, hrest⟩ := Option.bind_eq_some_iff.mp h
      exact ih hrest

/-- **When a block covers a call**: neither the size nor its rounding overflows. -/
theorem covers_iff (hheader : 0 < headerSize) (hword : headerSize < 2 ^ 64) {call : Call}
    {answers : List (Option Chunk)} (h : call.run headerSize l answers = some (l', some b)) :
    call.Covers headerSize b ↔ call.wanted + headerSize - 1 < 2 ^ 64 := by
  have hsize : b.size = nunits headerSize call.requested.toNat := size_of_sharedMalloc h
  rw [Call.Covers, hsize, call.requested_toNat]
  have hfilled := call.filled_le
  generalize call.wanted = wanted at hfilled
  constructor
  · rintro ⟨hle, -⟩
    rw [nunits, Nat.add_sub_cancel] at hle
    by_contra hge
    have hlt : wanted < 2 ^ 64 := by
      have hdiv := Nat.div_mul_le_self ((wanted % 2 ^ 64 + headerSize - 1) % 2 ^ 64) headerSize
      have hmod := Nat.mod_lt (wanted % 2 ^ 64 + headerSize - 1) (Nat.two_pow_pos 64)
      omega
    rw [Nat.mod_eq_of_lt hlt] at hle
    have hsmall : (wanted + headerSize - 1) % 2 ^ 64 < headerSize := by omega
    rw [Nat.div_eq_of_lt hsmall, Nat.zero_mul] at hle
    omega
  · intro hlt
    have hmod : wanted % 2 ^ 64 = wanted := Nat.mod_eq_of_lt (by omega)
    rw [hmod]
    have hle := le_nunits hheader hlt
    exact ⟨hle, hfilled.trans hle⟩

section Example

theorem covers_iff_hundred :
    Call.Covers 16 (.callocArray 10 10) ⟨1048, 8⟩ ↔
      Call.wanted (.callocArray 10 10) + 16 - 1 < 2 ^ 64 :=
  @covers_iff 16 tenHeaders.free [⟨1016, 2⟩, ⟨1000, 0⟩] ⟨1048, 8⟩ (by decide) (by decide)
    (.callocArray 10 10) [] (by decide)

/-- **An array of `2^64` bytes** gets a header with nothing behind it. -/
theorem not_covers_huge : ∃ l b, Call.run 16 (.callocArray (2 ^ 32) (2 ^ 32)) tenHeaders.free [] =
    some (l, some b) ∧ b.size = 1 ∧ ¬Call.Covers 16 (.callocArray (2 ^ 32) (2 ^ 32)) b := by
  refine ⟨[⟨1016, 9⟩, ⟨1000, 0⟩], ⟨1160, 1⟩, by decide, rfl, ?_⟩
  rintro ⟨h, -⟩
  revert h
  decide

end Example

end AceTao.Malloc
