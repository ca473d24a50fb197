import AceTao.Library.Tiling
import Mathlib.Algebra.GroupWithZero.Nat

/-!
# Cutting a message into fragments

`send_message` walks over the blocks of a message, collects them in an array of `iovec`s, and
sends a fragment whenever the payload is full or the array is. A block that does not fit is cut,
and may go into several fragments (`fill`). How many fragments there will be is in the header of
each, so that `compute_fragment_count` has to come to the same number in a loop of its own, over
the lengths alone.

Both loops keep in step (`computeFragmentCount_eq`). The fragments are numbered from 0 on, each
begins where those before it end, and together they are the message (`fragmentsOf_numbered`).

The sizes are natural numbers here. None of them exceeds the length of the message, so that they
are those of the source for every message of less than 2³² bytes.
-/

namespace AceTao.EventGateway

/-- The bytes of a block, or of a part of one. -/
abbrev Block := List UInt8

/-- **What is passed to `send_fragment`**, of what differs from fragment to fragment. The entry for
the header is left out of the array. -/
structure Fragment where
  size : ℕ
  offset : ℕ
  id : ℕ
  iov : List Block

/-- The bytes behind the header. -/
def Fragment.data (f : Fragment) : List UInt8 := f.iov.flatten

/-- **The variables of `send_message`**, and what it has sent. `iovcnt` is one more than the entries
of the array, as the first one is for the header. -/
structure Sending where
  iov : List Block := []
  size : ℕ := 0
  offset : ℕ := 0
  id : ℕ := 0
  sent : List Fragment := []

namespace Sending

/-- The next entry of the array. -/
def push (s : Sending) (b : Block) : Sending :=
  { s with iov := s.iov ++ [b], size := s.size + b.length }

/-- A call of `send_fragment`, after which a new fragment begins. -/
def flush (s : Sending) (size : ℕ) : Sending where
  iov := []
  size := 0
  offset := s.offset + size
  id := s.id + 1
  sent := s.sent ++ [⟨size, s.offset, s.id, s.iov⟩]

/-- **The loop over what is left of a block**, which is the last entry of the array. -/
def fill (maxPayload : ℕ) : ℕ → Block → Sending → Option Sending
  | 0, _, _ => none
  | tests + 1, rest, s =>
    if maxPayload < s.size then
      fill maxPayload tests (rest.drop (maxPayload - (s.size - rest.length)))
        { flush { s with
            iov := s.iov.dropLast ++ [rest.take (maxPayload - (s.size - rest.length))] }
            maxPayload with
          iov := [rest.drop (maxPayload - (s.size - rest.length))]
          size := rest.length - (maxPayload - (s.size - rest.length)) }
    else some s

/-- A fragment that is filled exactly, and one for which the array is full. -/
def flushFull (maxPayload iovMax : ℕ) (s : Sending) : Sending :=
  let s := if s.size = maxPayload then s.flush maxPayload else s
  if s.iov.length + 1 = iovMax then s.flush s.size else s

/-- One block. -/
def addBlock (maxPayload iovMax : ℕ) (s : Sending) (b : Block) : Option Sending :=
  (fill maxPayload (b.length + 1) b (s.push b)).map (flushFull maxPayload iovMax)

/-- What is left at the end. -/
def finish (s : Sending) : Sending := if s.iov.length + 1 ≠ 1 then s.flush s.size else s

end Sending

/-- **The loop of `send_message`**: the fragments. -/
def fragmentsOf (maxPayload iovMax : ℕ) (blocks : List Block) : Option (List Fragment) :=
  (blocks.foldlM (Sending.addBlock maxPayload iovMax) {}).map fun s => s.finish.sent

/-- The variables of `compute_fragment_count`. -/
structure Counting where
  fragmentCount : ℕ := 0
  totalLength : ℕ := 0
  size : ℕ := 0
  iovcnt : ℕ := 1

namespace Counting

/-- A fragment more. -/
def flush (c : Counting) : Counting :=
  { c with fragmentCount := c.fragmentCount + 1, iovcnt := 1, size := 0 }

def fill (maxPayload : ℕ) : ℕ → ℕ → Counting → Option Counting
  | 0, _, _ => none
  | tests + 1, l, c =>
    if maxPayload < c.size then
      fill maxPayload tests (l - (maxPayload - (c.size - l)))
        { c with
          fragmentCount := c.fragmentCount + 1
          iovcnt := 2
          size := l - (maxPayload - (c.size - l)) }
    else some c

def flushFull (maxPayload iovMax : ℕ) (c : Counting) : Counting :=
  let c := if c.size = maxPayload then c.flush else c
  if iovMax ≤ c.iovcnt then c.flush else c

def addBlock (maxPayload iovMax : ℕ) (c : Counting) (b : Block) : Option Counting :=
  (fill maxPayload (b.length + 1) b.length
    { c with
      totalLength := c.totalLength + b.length
      size := c.size + b.length
      iovcnt := c.iovcnt + 1 }).map (flushFull maxPayload iovMax)

end Counting

/-- **`compute_fragment_count`**, with `total_length`. -/
def computeFragmentCount (maxPayload iovMax : ℕ) (blocks : List Block) : Option (ℕ × ℕ) :=
  (blocks.foldlM (Counting.addBlock maxPayload iovMax) {}).map fun c =>
    (if c.iovcnt ≠ 1 then c.fragmentCount + 1 else c.fragmentCount, c.totalLength)

/-! ### What has been sent -/

/-- **Fragments of a message**, from the first one on: each has its number and its place. -/
structure Numbered (fragments : List Fragment) : Prop where
  id_eq : ∀ (i : ℕ) (f : Fragment), fragments[i]? = some f → f.id = i
  offset_eq : ∀ (i : ℕ) (f : Fragment), fragments[i]? = some f →
    f.offset = Tiling.start (fragments.map Fragment.data) i
  size_eq : ∀ f ∈ fragments, f.size = f.data.length

theorem numbered_nil : Numbered [] := ⟨nofun, nofun, nofun⟩

/-- One fragment more. -/
theorem Numbered.concat {fragments : List Fragment} {f : Fragment} (h : Numbered fragments)
    (hid : f.id = fragments.length)
    (hoffset : f.offset = (fragments.map Fragment.data).flatten.length)
    (hsize : f.size = f.data.length) : Numbered (fragments ++ [f]) := by
  have hcases (i : ℕ) (g : Fragment) (hg : (fragments ++ [f])[i]? = some g) :
      fragments[i]? = some g ∧ i < fragments.length ∨ i = fragments.length ∧ g = f := by
    rcases Nat.lt_trichotomy i fragments.length with hlt | rfl | hgt
    · rw [List.getElem?_append_left hlt] at hg
      exact Or.inl ⟨hg, hlt⟩
    · rw [List.getElem?_concat_length, Option.some.injEq] at hg
      exact Or.inr ⟨rfl, hg.symm⟩
    · rw [List.getElem?_eq_none (by rw [List.length_append, List.length_singleton]; omega)] at hg
      cases hg
  refine ⟨fun i g hg => ?_, fun i g hg => ?_, ?_⟩
  · rcases hcases i g hg with ⟨hg, -⟩ | ⟨rfl, rfl⟩
    · exact h.id_eq i g hg
    · exact hid
  · rw [List.map_append]
    rcases hcases i g hg with ⟨hg, hlt⟩ | ⟨rfl, rfl⟩
    · rw [Tiling.start_append (by rw [List.length_map]; exact Nat.le_of_lt hlt)]
      exact h.offset_eq i g hg
    · have hlen : fragments.length = (fragments.map Fragment.data).length :=
        (List.length_map _).symm
      rw [hoffset, hlen, Tiling.start_append (Nat.le_refl _), Tiling.start_length]
  · rw [List.forall_mem_append]
    exact ⟨h.size_eq, List.forall_mem_singleton.mpr hsize⟩

/-- **A fragment fits** into a datagram and into the array. -/
def Fragment.Fits (maxPayload iovMax : ℕ) (f : Fragment) : Prop :=
  f.size ≤ maxPayload ∧ f.iov ≠ [] ∧ f.iov.length + 1 ≤ iovMax

namespace Sending

variable {maxPayload iovMax : ℕ} {s s' : Sending} {done : List UInt8} {b rest : Block}

/-- **The invariant**: what was sent and what is in the array are the bytes so far. -/
structure Right (maxPayload iovMax : ℕ) (done : List UInt8) (s : Sending) : Prop where
  size_eq : s.size = s.iov.flatten.length
  offset_eq : s.offset = (s.sent.map Fragment.data).flatten.length
  id_eq : s.id = s.sent.length
  bytes : (s.sent.map Fragment.data).flatten ++ s.iov.flatten = done
  numbered : Numbered s.sent
  fits : ∀ f ∈ s.sent, f.Fits maxPayload iovMax

theorem right_new (maxPayload iovMax : ℕ) : Right maxPayload iovMax [] {} :=
  ⟨rfl, rfl, rfl, rfl, numbered_nil, nofun⟩

theorem Right.push (h : Right maxPayload iovMax done s) (b : Block) :
    Right maxPayload iovMax (done ++ b) (s.push b) := by
  refine ⟨?_, h.offset_eq, h.id_eq, ?_, h.numbered, h.fits⟩
  · change s.size + b.length = (s.iov ++ [b]).flatten.length
    rw [List.flatten_append, List.length_append, List.flatten_singleton, h.size_eq]
  · change (s.sent.map Fragment.data).flatten ++ (s.iov ++ [b]).flatten = _
    rw [List.flatten_append, List.flatten_singleton, ← List.append_assoc, h.bytes]

/-- **Sending what is in the array.** -/
theorem Right.flush (h : Right maxPayload iovMax done s) (hle : s.size ≤ maxPayload)
    (hne : s.iov ≠ []) (hroom : s.iov.length + 1 ≤ iovMax) :
    Right maxPayload iovMax done (s.flush s.size) := by
  have hmap : ((s.flush s.size).sent.map Fragment.data).flatten =
      (s.sent.map Fragment.data).flatten ++ s.iov.flatten := by
    rw [Sending.flush, List.map_append, List.flatten_append, List.map_singleton,
      List.flatten_singleton]
    rfl
  refine ⟨rfl, ?_, ?_, ?_, h.numbered.concat h.id_eq h.offset_eq h.size_eq, ?_⟩
  · rw [hmap, List.length_append, ← h.offset_eq, ← h.size_eq]
    rfl
  · change s.id + 1 = (s.sent ++ [_]).length
    rw [List.length_append, h.id_eq]
    rfl
  · rw [hmap]
    exact (List.append_nil _).trans h.bytes
  · change ∀ f ∈ s.sent ++ [_], _
    rw [List.forall_mem_append]
    exact ⟨h.fits, List.forall_mem_singleton.mpr ⟨hle, hne, hroom⟩⟩

/-- Taking back the last bytes of the last entry. -/
theorem Right.cut {front : List Block} (h : Right maxPayload iovMax done s)
    (hiov : s.iov = front ++ [rest]) (n : ℕ) : ∃ done',
      Right maxPayload iovMax done'
        { s with iov := front ++ [rest.take n], size := (front ++ [rest.take n]).flatten.length } ∧
      done' ++ rest.drop n = done := by
  refine ⟨_, ⟨rfl, h.offset_eq, h.id_eq, rfl, h.numbered, h.fits⟩, ?_⟩
  rw [← h.bytes, hiov, List.flatten_append, List.flatten_append, List.flatten_singleton,
    List.flatten_singleton, List.append_assoc, List.append_assoc, List.take_append_drop]

/-- **Filling**: what is left in the array fits into a fragment. -/
theorem fill_spec (hpos : 0 < maxPayload) (tests : ℕ) {front : List Block}
    (h : Right maxPayload iovMax done s) (hiov : s.iov = front ++ [rest])
    (hfront : front.flatten.length < maxPayload) (hroom : s.iov.length + 1 ≤ iovMax)
    (htests : rest.length < tests) :
    ∃ s', fill maxPayload tests rest s = some s' ∧ Right maxPayload iovMax done s' ∧
      s'.size ≤ maxPayload ∧ s'.iov ≠ [] ∧ s'.iov.length + 1 ≤ iovMax ∧
      (0 < s.size → 0 < s'.size) := by
  induction tests generalizing rest s front with
  | zero => exact absurd htests (Nat.not_lt_zero _)
  | succ tests ih =>
    rw [fill]
    by_cases hgt : maxPayload < s.size
    · rw [if_pos hgt]
      have hsize : s.size = front.flatten.length + rest.length := by
        rw [h.size_eq, hiov, List.flatten_append, List.length_append, List.flatten_singleton]
      generalize hn : maxPayload - (s.size - rest.length) = n
      have hlast : (front ++ [rest.take n]).flatten.length = maxPayload := by
        rw [List.flatten_append, List.length_append, List.flatten_singleton, List.length_take]
        omega
      obtain ⟨done', hcut, hdone⟩ := h.cut hiov n
      rw [hlast] at hcut
      have hlength : (front ++ [rest.take n]).length = s.iov.length := by
        rw [hiov, List.length_append, List.length_append]
        rfl
      have hsent := (hcut.flush (Nat.le_refl _) (List.append_ne_nil_of_right_ne_nil _
        (List.cons_ne_nil _ _)) (hlength ▸ hroom)).push (rest.drop n)
      have hdrop : s.iov.dropLast = front := by rw [hiov, List.dropLast_concat]
      have hlen : (rest.drop n).length = rest.length - n := List.length_drop
      rw [hdrop, ← hlen]
      rw [hdone] at hsent
      obtain ⟨s', hrun, hright, hle, hne, hmax, hkeep⟩ := @ih _ (rest.drop n) []
        (by
          rw [Sending.push, Sending.flush, Nat.zero_add] at hsent
          exact hsent) rfl hpos
        (by
          change 1 + 1 ≤ iovMax
          rw [hiov, List.length_append, List.length_singleton] at hroom
          omega)
        (by omega)
      refine ⟨s', hrun, hright, hle, hne, hmax, fun _ => hkeep ?_⟩
      change 0 < (rest.drop n).length
      omega
    · rw [if_neg hgt]
      refine ⟨s, rfl, h, Nat.not_lt.mp hgt, ?_, hroom, fun hs => hs⟩
      rw [hiov]
      exact List.append_ne_nil_of_right_ne_nil _ (List.cons_ne_nil _ _)

/-- **A state between two blocks**: neither the payload nor the array is full. -/
structure Open (maxPayload iovMax : ℕ) (done : List UInt8) (s : Sending) : Prop where
  right : Right maxPayload iovMax done s
  size_lt : s.size < maxPayload
  room : s.iov.length + 1 < iovMax

/-- **The last byte goes out**, with the last fragment or with what is left. -/
def Ends (s : Sending) : Prop :=
  0 < s.size ∨ ∃ front f, s.iov = [] ∧ s.sent = front ++ [f] ∧ 0 < f.size

theorem ends_flush {size : ℕ} (h : 0 < size) : Ends (s.flush size) :=
  Or.inr ⟨s.sent, _, rfl, rfl, h⟩

/-- A fragment that is filled exactly. -/
theorem flushFull_of_eq (hiov : 1 < iovMax) (h : s.size = maxPayload) :
    flushFull maxPayload iovMax s = s.flush maxPayload := by
  have hempty : ¬(s.flush maxPayload).iov.length + 1 = iovMax := Nat.ne_of_lt hiov
  rw [flushFull, if_pos h]
  exact if_neg hempty

/-- A fragment for which only the array may be full. -/
theorem flushFull_of_ne (h : s.size ≠ maxPayload) :
    flushFull maxPayload iovMax s = if s.iov.length + 1 = iovMax then s.flush s.size else s := by
  rw [flushFull, if_neg h]

theorem flushFull_spec (hpos : 0 < maxPayload) (hiov : 1 < iovMax)
    (h : Right maxPayload iovMax done s) (hle : s.size ≤ maxPayload) (hne : s.iov ≠ [])
    (hroom : s.iov.length + 1 ≤ iovMax) :
    Open maxPayload iovMax done (flushFull maxPayload iovMax s) ∧
      (0 < s.size → Ends (flushFull maxPayload iovMax s)) := by
  by_cases hfull : s.size = maxPayload
  · have hsent := h.flush hle hne hroom
    rw [hfull] at hsent
    rw [flushFull_of_eq hiov hfull]
    exact ⟨⟨hsent, hpos, hiov⟩, fun _ => ends_flush hpos⟩
  · rw [flushFull_of_ne hfull]
    by_cases hmax : s.iov.length + 1 = iovMax
    · rw [if_pos hmax]
      exact ⟨⟨h.flush hle hne hroom, hpos, hiov⟩, fun hs => ends_flush hs⟩
    · rw [if_neg hmax]
      exact ⟨⟨h, by omega, by omega⟩, fun hs => Or.inl hs⟩

/-- **One block.** -/
theorem addBlock_spec (hiov : 1 < iovMax) (h : Open maxPayload iovMax done s) (b : Block) :
    ∃ s', addBlock maxPayload iovMax s b = some s' ∧ Open maxPayload iovMax (done ++ b) s' ∧
      (b ≠ [] → Ends s') := by
  have hpos : 0 < maxPayload := Nat.lt_of_le_of_lt (Nat.zero_le _) h.size_lt
  have hlength : (s.push b).iov.length = s.iov.length + 1 := by
    rw [push, List.length_append, List.length_singleton]
  have hroom := h.room
  obtain ⟨s₁, hfill, hright, hle, hne, hmax, hkeep⟩ := fill_spec hpos (b.length + 1)
    (h.right.push b) rfl (h.right.size_eq ▸ h.size_lt) (by omega) (Nat.lt_succ_self _)
  obtain ⟨hopen, hends⟩ := flushFull_spec hpos hiov hright hle hne hmax
  refine ⟨_, by rw [addBlock, hfill, Option.map_some], hopen, fun hb => hends (hkeep ?_)⟩
  have hlen := List.length_pos_of_ne_nil hb
  change 0 < s.size + b.length
  omega

/-- **All blocks.** -/
theorem addBlocks_spec (hiov : 1 < iovMax) (blocks : List Block)
    (h : Open maxPayload iovMax done s) :
    ∃ s', blocks.foldlM (addBlock maxPayload iovMax) s = some s' ∧
      Open maxPayload iovMax (done ++ blocks.flatten) s' ∧
      (∀ front b, blocks = front ++ [b] → b ≠ [] → Ends s') := by
  induction blocks generalizing s done with
  | nil =>
    refine ⟨s, rfl, ?_, fun front b hb _ => ?_⟩
    · rw [List.flatten_nil, List.append_nil]
      exact h
    · exact absurd hb.symm (List.append_ne_nil_of_right_ne_nil _ (List.cons_ne_nil _ _))
  | cons b blocks ih =>
    obtain ⟨s₁, hadd, hopen, hends⟩ := addBlock_spec hiov h b
    obtain ⟨s', hrun, hright, hlast⟩ := ih hopen
    refine ⟨s', ?_, ?_, fun front c hc hne => ?_⟩
    · rw [List.foldlM_cons, hadd]
      exact hrun
    · rw [List.flatten_cons, ← List.append_assoc]
      exact hright
    · cases front with
      | nil =>
        obtain ⟨rfl, rfl⟩ := List.cons.inj hc
        cases hrun
        exact hends hne
      | cons d front => exact hlast front c (List.cons.inj hc).2 hne

/-- **The end of the message.** -/
theorem Open.finish (h : Open maxPayload iovMax done s) :
    Right maxPayload iovMax done s.finish ∧ s.finish.iov = [] ∧ (Ends s → Ends s.finish) := by
  have hroom := h.room
  rw [Sending.finish]
  by_cases hnil : s.iov = []
  · rw [if_neg (by rw [hnil]; exact fun hne => hne rfl)]
    exact ⟨h.right, hnil, fun hs => hs⟩
  · have hlen := List.length_pos_of_ne_nil hnil
    rw [if_pos (by omega)]
    refine ⟨h.right.flush (Nat.le_of_lt h.size_lt) hnil (Nat.le_of_lt hroom), rfl, ?_⟩
    rintro (hs | ⟨_, _, heq, _⟩)
    · exact ends_flush hs
    · exact absurd heq hnil

end Sending

/-! ### The two loops keep in step -/

/-- **What the counter says** of the sender. -/
structure Counting.Counts (c : Counting) (s : Sending) : Prop where
  fragmentCount : c.fragmentCount = s.id
  size : c.size = s.size
  iovcnt : c.iovcnt = s.iov.length + 1

namespace Counting

variable {maxPayload iovMax : ℕ} {c : Counting} {s s' : Sending} {rest : Block}

theorem Counts.flush (h : c.Counts s) (size : ℕ) : c.flush.Counts (s.flush size) :=
  ⟨congrArg (· + 1) h.fragmentCount, rfl, rfl⟩

theorem Counts.fill (tests : ℕ) (h : c.Counts s)
    (hrun : Sending.fill maxPayload tests rest s = some s') :
    ∃ c', fill maxPayload tests rest.length c = some c' ∧ c'.Counts s' ∧
      c'.totalLength = c.totalLength := by
  induction tests generalizing rest s c with
  | zero => cases hrun
  | succ tests ih =>
    rw [Sending.fill] at hrun
    rw [Counting.fill, h.size]
    by_cases hgt : maxPayload < s.size
    · rw [if_pos hgt] at hrun
      rw [if_pos hgt, ← List.length_drop]
      refine ih ⟨congrArg (· + 1) h.fragmentCount, ?_, rfl⟩ hrun
      exact List.length_drop
    · rw [if_neg hgt] at hrun
      cases hrun
      rw [if_neg hgt]
      exact ⟨c, rfl, h, rfl⟩

theorem Counts.flushFull (h : c.Counts s) (hroom : s.iov.length + 1 ≤ iovMax) (hiov : 1 < iovMax) :
    (c.flushFull maxPayload iovMax).Counts (s.flushFull maxPayload iovMax) ∧
      (c.flushFull maxPayload iovMax).totalLength = c.totalLength := by
  rw [Counting.flushFull, h.size]
  by_cases hfull : s.size = maxPayload
  · have hempty : ¬iovMax ≤ c.flush.iovcnt := Nat.not_le.mpr hiov
    rw [Sending.flushFull_of_eq hiov hfull, if_pos hfull]
    rw [if_neg hempty]
    exact ⟨h.flush maxPayload, rfl⟩
  · rw [Sending.flushFull_of_ne hfull, if_neg hfull]
    rw [h.iovcnt]
    by_cases hmax : s.iov.length + 1 = iovMax
    · rw [if_pos hmax, if_pos (by omega)]
      exact ⟨h.flush s.size, rfl⟩
    · rw [if_neg hmax, if_neg (by omega)]
      exact ⟨h, rfl⟩

/-- **One block.** -/
theorem Counts.addBlock {done : List UInt8} (hiov : 1 < iovMax) (h : c.Counts s)
    (hs : s.Open maxPayload iovMax done) (b : Block) :
    ∃ c' s', c.addBlock maxPayload iovMax b = some c' ∧
      s.addBlock maxPayload iovMax b = some s' ∧ c'.Counts s' ∧
      c'.totalLength = c.totalLength + b.length := by
  have hpos : 0 < maxPayload := Nat.lt_of_le_of_lt (Nat.zero_le _) hs.size_lt
  have hlength : (s.push b).iov.length = s.iov.length + 1 := by
    rw [Sending.push, List.length_append, List.length_singleton]
  have hroom := hs.room
  obtain ⟨s₁, hfill, -, -, -, hmax, -⟩ := Sending.fill_spec hpos (b.length + 1)
    (hs.right.push b) rfl (hs.right.size_eq ▸ hs.size_lt) (by omega) (Nat.lt_succ_self _)
  have hpush : Counts ⟨c.fragmentCount, c.totalLength + b.length, c.size + b.length, c.iovcnt + 1⟩
      (s.push b) := by
    refine ⟨h.fragmentCount, ?_, ?_⟩
    · change c.size + b.length = s.size + b.length
      rw [h.size]
    · rw [hlength, h.iovcnt]
  obtain ⟨c₁, hcount, hcounts, htotal⟩ := hpush.fill (b.length + 1) hfill
  obtain ⟨hfull, hsame⟩ := @Counts.flushFull maxPayload iovMax c₁ s₁ hcounts hmax hiov
  exact ⟨_, _, by rw [Counting.addBlock, hcount, Option.map_some],
    by rw [Sending.addBlock, hfill, Option.map_some], hfull, hsame.trans htotal⟩

/-- **All blocks.** -/
theorem Counts.addBlocks (hiov : 1 < iovMax) (blocks : List Block) {done : List UInt8}
    (h : c.Counts s) (hs : s.Open maxPayload iovMax done) :
    ∃ c' s', blocks.foldlM (Counting.addBlock maxPayload iovMax) c = some c' ∧
      blocks.foldlM (Sending.addBlock maxPayload iovMax) s = some s' ∧ c'.Counts s' ∧
      c'.totalLength = c.totalLength + blocks.flatten.length := by
  induction blocks generalizing c s done with
  | nil => exact ⟨c, s, rfl, rfl, h, rfl⟩
  | cons b blocks ih =>
    obtain ⟨c₁, s₁, hcount, hadd, h₁, htotal⟩ := h.addBlock hiov hs b
    obtain ⟨s₂, hadd', hopen, -⟩ := Sending.addBlock_spec hiov hs b
    cases hadd.symm.trans hadd'
    obtain ⟨c', s', hrun, hrun', hcounts, hsum⟩ := ih h₁ hopen
    refine ⟨c', s', ?_, ?_, hcounts, ?_⟩
    · rw [List.foldlM_cons, hcount]
      exact hrun
    · rw [List.foldlM_cons, hadd]
      exact hrun'
    · rw [hsum, htotal, List.flatten_cons, List.length_append, Nat.add_assoc]

end Counting

variable {maxPayload iovMax : ℕ} {blocks : List Block}

/-- **The number of fragments** is right. -/
theorem computeFragmentCount_eq (hpos : 0 < maxPayload) (hiov : 1 < iovMax)
    {fragments : List Fragment} (hcut : fragmentsOf maxPayload iovMax blocks = some fragments) :
    computeFragmentCount maxPayload iovMax blocks =
      some (fragments.length, blocks.flatten.length) := by
  have hnew : Sending.Open maxPayload iovMax [] {} := ⟨Sending.right_new _ _, hpos, hiov⟩
  obtain ⟨c, s, hcount, hrun, hcounts, htotal⟩ := @Counting.Counts.addBlocks maxPayload iovMax {} {}
    hiov blocks [] ⟨rfl, rfl, rfl⟩ hnew
  obtain ⟨s', hrun', hopen, -⟩ := Sending.addBlocks_spec hiov blocks hnew
  cases hrun.symm.trans hrun'
  obtain ⟨hright, -⟩ := hopen.finish
  rw [fragmentsOf, hrun, Option.map_some] at hcut
  cases hcut
  rw [computeFragmentCount, hcount, Option.map_some, htotal, hcounts.iovcnt,
    hcounts.fragmentCount, ← hright.id_eq, Sending.finish]
  congr 2
  · by_cases h : s.iov.length + 1 ≠ 1
    · rw [if_pos h, if_pos h]
      rfl
    · rw [if_neg h, if_neg h]
  · exact Nat.zero_add _

/-- The last fragment is not empty, and the others begin before it. -/
theorem Sending.Right.offset_lt {s : Sending} {done : List UInt8}
    (h : s.Right maxPayload iovMax done) (hnil : s.iov = []) (hends : s.Ends) {f : Fragment}
    (hf : f ∈ s.sent) : f.offset < done.length := by
  rw [Sending.Ends, h.size_eq, hnil] at hends
  obtain ⟨before, g, -, hsent, hg⟩ := hends.resolve_left (Nat.lt_irrefl 0)
  have hbytes := h.bytes
  rw [hnil, List.flatten_nil, List.append_nil] at hbytes
  obtain ⟨i, hi⟩ := List.getElem?_of_mem hf
  have hle : i ≤ before.length := by
    have hlt := (List.getElem?_eq_some_iff.mp hi).1
    rw [hsent, List.length_append, List.length_singleton] at hlt
    exact Nat.le_of_lt_succ hlt
  have hpiece : (s.sent.map Fragment.data)[before.length]? = some g.data := by
    rw [List.getElem?_map, hsent, List.getElem?_concat_length]
    rfl
  have hsize := h.numbered.size_eq g
    (hsent ▸ List.mem_append_right _ (List.mem_singleton_self g))
  have hend := Tiling.start_add_length_le hpiece
  have hbefore := Tiling.start_mono (s.sent.map Fragment.data) hle
  rw [h.numbered.offset_eq i f hi, ← hbytes]
  omega

/-- **The fragments** are numbered, each is at its place, and together they are the message. If the
last block is not empty, each begins inside. -/
theorem fragmentsOf_numbered (hpos : 0 < maxPayload) (hiov : 1 < iovMax) (blocks : List Block) :
    ∃ fragments, fragmentsOf maxPayload iovMax blocks = some fragments ∧
      Numbered fragments ∧ (∀ f ∈ fragments, f.Fits maxPayload iovMax) ∧
      (fragments.map Fragment.data).flatten = blocks.flatten ∧
      ∀ front b, blocks = front ++ [b] → b ≠ [] →
        ∀ f ∈ fragments, f.offset < blocks.flatten.length := by
  obtain ⟨s, hrun, hopen, hends⟩ := Sending.addBlocks_spec hiov blocks
    ⟨Sending.right_new maxPayload iovMax, hpos, hiov⟩
  obtain ⟨hright, hnil, hlast⟩ := hopen.finish
  have hbytes := hright.bytes
  rw [List.nil_append] at hright hbytes
  rw [hnil, List.flatten_nil, List.append_nil] at hbytes
  exact ⟨s.finish.sent, by rw [fragmentsOf, hrun, Option.map_some], hright.numbered, hright.fits,
    hbytes, fun front b hb hne f hf => hright.offset_lt hnil (hlast (hends front b hb hne)) hf⟩

/-- Ten bytes in two blocks. -/
def twoBlocks : List Block := [[1, 2, 3], [4, 5, 6, 7, 8, 9, 10]]

end AceTao.EventGateway
