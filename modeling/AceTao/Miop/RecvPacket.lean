import AceTao.Library.Keyed
import AceTao.Library.Machine
import Mathlib.Algebra.BigOperators.Group.List.Basic
import Mathlib.Algebra.GroupWithZero.Nat
import Mathlib.Data.List.Nodup
import Mathlib.Data.List.Perm.Subperm

/-!
# A packet of MIOP that is received in fragments

A `UIPMC_Recv_Packet` collects the fragments of a message by their numbers. `add_fragment` notes the
number of the last one and adds up the lengths, and it answers 1 when all fragments up to the last
are there. The buffer for the message is made from the length that was added up, and `copy_data`
fills it.

`add_fragment` notes the number and adds the length before it tries to bind the fragment. When this
fails, because there is one of the same number or no memory, both are left wrong. So a packet is as
it should be throughout a run (`RecvPacket.Right`) exactly if no fragment is refused that has any
bytes or another last number, and the lengths together stay below 2³² (`RecvPacket.Admissible`).
-/

namespace AceTao.Miop

abbrev UShort := BitVec 16
abbrev ULong := BitVec 32

/-- **A fragment**: its bytes, whose number is a `UShort`. -/
structure Fragment where
  buf : List UInt8
  length_lt : buf.length < 2 ^ 16
  deriving DecidableEq

namespace Fragment

def len (f : Fragment) : UShort := BitVec.ofNat 16 f.buf.length

theorem toNat_len (f : Fragment) : f.len.toNat = f.buf.length := by
  rw [len, BitVec.toNat_ofNat, Nat.mod_eq_of_lt f.length_lt]

end Fragment

/-- **A packet**. The time 0 marks it as expired. The fragments are in the order in which they were
bound. -/
structure RecvPacket where
  lastFragmentId : ULong
  dataLength : ULong
  started : ℕ
  fragments : List (ULong × Fragment)

/-- What `add_fragment` is called with, and whether there is memory for the copy of the bytes and for
the node of the map. -/
structure Addition where
  data : Fragment
  id : ULong
  isLast : Bool
  copyMemory : Bool
  nodeMemory : Bool

namespace RecvPacket

/-- The constructor, at a time. -/
def new (now : ℕ) : RecvPacket := ⟨0, 0, now, []⟩

def find (s : RecvPacket) (id : ULong) : Option Fragment :=
  (s.fragments.find? fun f => f.1 = id).map (·.2)

/-- A number is bound once. -/
def bind (s : RecvPacket) (id : ULong) (data : Fragment) (nodeMemory : Bool) : Option RecvPacket :=
  if (s.find id).isNone ∧ nodeMemory then some { s with fragments := s.fragments ++ [(id, data)] }
  else none

/-- The loop that looks for all fragments, with a bound on its tests. -/
def allThere (s : RecvPacket) : ℕ → ULong → Option Bool
  | 0, _ => none
  | tests + 1, id2 =>
    if id2 ≤ s.lastFragmentId then
      if (s.find id2).isNone then some false else allThere s tests (id2 + 1)
    else some true

/-- What `add_fragment` notes before it binds the fragment. -/
def noted (s : RecvPacket) (c : Addition) : RecvPacket :=
  { s with
    lastFragmentId := if c.isLast then c.id else s.lastFragmentId
    dataLength := s.dataLength + c.data.len.setWidth 32 }

/-- What follows when the fragment is bound. -/
def checkComplete (s : RecvPacket) (c : Addition) : Option (RecvPacket × ℤ) :=
  if !c.isLast ∧ s.lastFragmentId = 0 then some (s, 0)
  else if (s.lastFragmentId + 1).toNat ≠ s.fragments.length then some (s, 0)
  else
    match s.allThere (2 ^ 32) 0 with
    | none => none
    | some true => some (s, 1)
    | some false => some ({ s with started := 0 }, 0)

/-- **`add_fragment`** -/
def addFragment (s : RecvPacket) (c : Addition) : Option (RecvPacket × ℤ) :=
  if !c.copyMemory then some (s, -1)
  else
    match (s.noted c).bind c.id c.data c.nodeMemory with
    | none => some ({ s.noted c with started := 0 }, -1)
    | some s' => s'.checkComplete c

/-- The bytes of a fragment; none if it is not there. -/
def bytesOf (s : RecvPacket) (id : ULong) : List UInt8 := ((s.find id).map Fragment.buf).getD []

/-- The loop of `copy_data`, with a bound on its tests: what it writes from the number `id` on. -/
def copyLoop (s : RecvPacket) : ℕ → ULong → Option (List UInt8)
  | 0, _ => none
  | tests + 1, id =>
    if id ≤ s.lastFragmentId then (copyLoop s tests (id + 1)).map (s.bytesOf id ++ ·) else some []

/-- **`copy_data`**: what it writes. -/
def copyData (s : RecvPacket) : Option (List UInt8) := s.copyLoop (2 ^ 32) 0

/-! ### What is required of a call -/

/-- How many bytes are stored. -/
def stored (s : RecvPacket) : ℕ := (s.fragments.map fun f => f.2.buf.length).sum

/-- The bytes of the fragments up to the last, in the order of their numbers. -/
def message (s : RecvPacket) : List UInt8 :=
  (List.range (s.lastFragmentId.toNat + 1)).flatMap fun n => s.bytesOf (BitVec.ofNat 32 n)

/-- **A call has done right**: the length is that of what is stored, a call that fails changes
nothing, and when the packet is complete the fragments are those up to the last, and as many bytes
are written as were counted. -/
structure AddsRight (s s' : RecvPacket) (r : ℤ) : Prop where
  length_eq : s'.dataLength.toNat = s'.stored
  unchanged : r = -1 → s'.fragments = s.fragments ∧ s'.dataLength = s.dataLength ∧
    s'.lastFragmentId = s.lastFragmentId
  complete : r = 1 → (∀ id, (s'.find id).isSome ↔ id ≤ s'.lastFragmentId) ∧
    s'.copyData = some s'.message ∧ s'.message.length = s'.dataLength.toNat

/-- A call returns and has done right. -/
def Right (s : RecvPacket) (c : Addition) : Prop :=
  ∃ s' r, s.addFragment c = some (s', r) ∧ AddsRight s s' r

/-- **A fragment that can be added**: it is bound and the lengths stay below 2³², or it makes no
difference that it is not. -/
def Admissible (s : RecvPacket) (c : Addition) : Prop :=
  c.copyMemory → if (s.find c.id).isNone ∧ c.nodeMemory then s.stored + c.data.buf.length < 2 ^ 32
    else c.data.buf = [] ∧ (c.isLast → c.id = s.lastFragmentId)

/-- **The invariant**: no number twice, and the length is that of what is stored. -/
structure Inv (s : RecvPacket) : Prop where
  nodup : (s.fragments.map Prod.fst).Nodup
  length_eq : s.dataLength.toNat = s.stored

variable {s s' : RecvPacket} {c : Addition} {r : ℤ}

theorem inv_new (now : ℕ) : (new now).Inv := ⟨List.nodup_nil, rfl⟩

/-! ### Looking for fragments -/

theorem find_eq_none {id : ULong} : s.find id = none ↔ ∀ f ∈ s.fragments, f.1 ≠ id := by
  rw [find, Option.map_eq_none_iff, List.find?_eq_none]
  exact forall₂_congr fun f _ => by rw [decide_eq_true_eq]

theorem isSome_find_iff {id : ULong} : (s.find id).isSome ↔ id ∈ s.fragments.map Prod.fst := by
  rw [Option.isSome_iff_ne_none, ne_eq, find_eq_none, List.mem_map]
  constructor
  · intro h
    obtain ⟨f, hf⟩ := not_forall.mp h
    obtain ⟨hmem, heq⟩ := Classical.not_imp.mp hf
    exact ⟨f, hmem, not_not.mp heq⟩
  · rintro ⟨f, hmem, heq⟩ h
    exact h f hmem heq

/-- The bytes of a fragment that is there. -/
theorem bytesOf_eq (hnodup : (s.fragments.map Prod.fst).Nodup) {f : ULong × Fragment}
    (hf : f ∈ s.fragments) : s.bytesOf f.1 = f.2.buf := by
  rw [bytesOf, find, Keyed.find?_eq_some hnodup hf rfl]
  rfl

/-- The number after one that is not the largest. -/
theorem toNat_succ {id last : ULong} (h : id ≤ last) (hlast : last.toNat + 1 < 2 ^ 32) :
    (id + 1).toNat = id.toNat + 1 := by
  have hle := BitVec.le_def.mp h
  rw [BitVec.toNat_add]
  exact Nat.mod_eq_of_lt (show id.toNat + 1 < 2 ^ 32 by omega)

/-- **The search for all fragments** ends, and finds out whether they are there. -/
theorem allThere_spec (hlast : s.lastFragmentId.toNat + 1 < 2 ^ 32) (tests : ℕ) (id : ULong)
    (hid : id.toNat ≤ s.lastFragmentId.toNat + 1)
    (htests : s.lastFragmentId.toNat + 1 < id.toNat + tests) :
    ∃ b, s.allThere tests id = some b ∧
      (b = true ↔ ∀ k, id ≤ k → k ≤ s.lastFragmentId → (s.find k).isSome) := by
  induction tests generalizing id with
  | zero => omega
  | succ tests ih =>
    rw [allThere]
    by_cases hle : id ≤ s.lastFragmentId
    · have hnext := toNat_succ hle hlast
      have hle' := BitVec.le_def.mp hle
      rw [if_pos hle]
      by_cases hnone : (s.find id).isNone
      · rw [if_pos hnone]
        refine ⟨false, rfl, iff_of_false Bool.false_ne_true fun h => ?_⟩
        have hsome := h id (BitVec.le_refl id) hle
        rw [Option.isNone_iff_eq_none.mp hnone] at hsome
        cases hsome
      · rw [if_neg hnone]
        obtain ⟨b, hb, hiff⟩ := ih (id + 1) (by omega) (by omega)
        refine ⟨b, hb, hiff.trans ⟨fun h k hk hk' => ?_, fun h k hk hk' => ?_⟩⟩
        · rcases eq_or_ne k id with rfl | hne
          · exact Option.isSome_iff_ne_none.mpr fun h0 => hnone (by rw [h0]; rfl)
          · refine h k (BitVec.le_def.mpr ?_) hk'
            have hne' : k.toNat ≠ id.toNat := mt BitVec.eq_of_toNat_eq hne
            have hk'' := BitVec.le_def.mp hk
            omega
        · refine h k (BitVec.le_def.mpr ?_) hk'
          have hk'' := BitVec.le_def.mp hk
          omega
    · rw [if_neg hle]
      refine ⟨true, rfl, iff_of_true rfl fun k hk hk' => ?_⟩
      exact absurd (BitVec.le_trans hk hk') hle

/-! ### Copying the fragments -/

/-- **The loop of `copy_data`** writes the fragments in the order of their numbers. -/
theorem copyLoop_spec (hlast : s.lastFragmentId.toNat + 1 < 2 ^ 32) (tests : ℕ) (id : ULong)
    (hid : id.toNat ≤ s.lastFragmentId.toNat + 1)
    (htests : s.lastFragmentId.toNat + 1 < id.toNat + tests) :
    s.copyLoop tests id = some
      ((List.range' id.toNat (s.lastFragmentId.toNat + 1 - id.toNat)).flatMap fun n =>
        s.bytesOf (BitVec.ofNat 32 n)) := by
  induction tests generalizing id with
  | zero => omega
  | succ tests ih =>
    rw [copyLoop]
    by_cases hle : id ≤ s.lastFragmentId
    · have hnext := toNat_succ hle hlast
      have hle' := BitVec.le_def.mp hle
      have hcount : s.lastFragmentId.toNat + 1 - id.toNat =
          s.lastFragmentId.toNat + 1 - (id + 1).toNat + 1 := by omega
      rw [if_pos hle, ih (id + 1) (by omega) (by omega), hcount, List.range'_succ, List.flatMap_cons,
        BitVec.ofNat_toNat, BitVec.setWidth_eq, hnext]
      rfl
    · have hlt := mt BitVec.le_def.mpr hle
      have hcount : s.lastFragmentId.toNat + 1 - id.toNat = 0 := by omega
      rw [if_neg hle, hcount]
      rfl

theorem copyData_eq (hlast : s.lastFragmentId.toNat + 1 < 2 ^ 32) :
    s.copyData = some s.message := by
  refine (copyLoop_spec hlast _ _ (Nat.zero_le _)
    (Nat.lt_of_lt_of_le hlast (Nat.le_add_left _ _))).trans ?_
  rw [message, List.range_eq_range']
  rfl

/-- **A packet with all fragments**: their numbers are those up to the last one. -/
structure Complete (s : RecvPacket) : Prop where
  length_eq : s.fragments.length = s.lastFragmentId.toNat + 1
  there : ∀ id, id ≤ s.lastFragmentId → (s.find id).isSome

namespace Complete

/-- The numbers, in some order. -/
theorem perm (h : s.Complete) (hlast : s.lastFragmentId.toNat + 1 < 2 ^ 32) :
    ((List.range (s.lastFragmentId.toNat + 1)).map (BitVec.ofNat 32)).Perm
      (s.fragments.map Prod.fst) := by
  have hnodup : ((List.range (s.lastFragmentId.toNat + 1)).map (BitVec.ofNat 32)).Nodup := by
    refine (List.nodup_map_iff_inj_on List.nodup_range).mpr fun a ha b hb heq => ?_
    have hnat := congrArg BitVec.toNat heq
    rw [List.mem_range] at ha hb
    rwa [BitVec.toNat_ofNat, BitVec.toNat_ofNat, Nat.mod_eq_of_lt (Nat.lt_trans ha hlast),
      Nat.mod_eq_of_lt (Nat.lt_trans hb hlast)] at hnat
  refine (hnodup.subperm fun id hid => ?_).perm_of_length_le ?_
  · obtain ⟨n, hn, rfl⟩ := List.mem_map.mp hid
    rw [List.mem_range] at hn
    refine isSome_find_iff.mp (h.there _ (BitVec.le_def.mpr ?_))
    rw [BitVec.toNat_ofNat, Nat.mod_eq_of_lt (Nat.lt_trans hn hlast)]
    omega
  · refine Nat.le_of_eq ?_
    rw [List.length_map, List.length_map, List.length_range, h.length_eq]

theorem isSome_find_iff (h : s.Complete) (hlast : s.lastFragmentId.toNat + 1 < 2 ^ 32)
    (id : ULong) : (s.find id).isSome ↔ id ≤ s.lastFragmentId := by
  refine ⟨fun hid => ?_, h.there id⟩
  obtain ⟨n, hn, rfl⟩ := List.mem_map.mp
    ((h.perm hlast).mem_iff.mpr (RecvPacket.isSome_find_iff.mp hid))
  rw [List.mem_range] at hn
  rw [BitVec.le_def, BitVec.toNat_ofNat, Nat.mod_eq_of_lt (Nat.lt_trans hn hlast)]
  omega

/-- **The message is as long as what is stored.** -/
theorem length_message (h : s.Complete) (hlast : s.lastFragmentId.toNat + 1 < 2 ^ 32)
    (hnodup : (s.fragments.map Prod.fst).Nodup) : s.message.length = s.stored := by
  have hlengths : s.message.length =
      (((List.range (s.lastFragmentId.toNat + 1)).map (BitVec.ofNat 32)).map fun id =>
        (s.bytesOf id).length).sum := by
    rw [message, List.length_flatMap, List.map_map]
    rfl
  rw [hlengths, ((h.perm hlast).map _).sum_eq, List.map_map, stored]
  refine congrArg List.sum (List.map_congr_left fun f hf => ?_)
  exact congrArg List.length (bytesOf_eq hnodup hf)

end Complete

/-! ### One call -/

/-- A new fragment. -/
theorem nodup_concat {id : ULong} (data : Fragment) (hnodup : (s.fragments.map Prod.fst).Nodup)
    (h : (s.find id).isNone) : ((s.fragments ++ [(id, data)]).map Prod.fst).Nodup := by
  rw [List.map_append, List.nodup_append']
  refine ⟨hnodup, List.nodup_singleton id, ?_⟩
  rw [List.map_singleton, List.disjoint_singleton, ← RecvPacket.isSome_find_iff,
    Option.isNone_iff_eq_none.mp h]
  exact Bool.false_ne_true

theorem stored_concat (fragments : List (ULong × Fragment)) (id : ULong) (data : Fragment) :
    ((fragments ++ [(id, data)]).map fun f => f.2.buf.length).sum =
      (fragments.map fun f => f.2.buf.length).sum + data.buf.length := by
  rw [List.map_append, List.sum_append, List.map_singleton, List.sum_singleton]

/-- **The check for completeness** ends. It changes nothing but the time, and it answers 1 only for a
packet with all fragments, whose last number is not the largest there is. -/
theorem checkComplete_spec (hpos : s.fragments ≠ []) (c : Addition) :
    ∃ started r, s.checkComplete c = some ({ s with started := started }, r) ∧ r ≠ -1 ∧
      (r = 1 → s.Complete ∧ s.lastFragmentId.toNat + 1 < 2 ^ 32) := by
  rw [checkComplete]
  split_ifs with hopen hlen
  · exact ⟨s.started, 0, rfl, by decide, fun h => absurd h (by decide)⟩
  · exact ⟨s.started, 0, rfl, by decide, fun h => absurd h (by decide)⟩
  · have hlength := not_not.mp hlen
    have hisLt := s.lastFragmentId.isLt
    have hpos' := List.length_pos_iff.mpr hpos
    -- the sum has not wrapped around, for there is a fragment
    have hlast : s.lastFragmentId.toNat + 1 < 2 ^ 32 := by
      rw [BitVec.toNat_add] at hlength
      change (s.lastFragmentId.toNat + 1) % 2 ^ 32 = _ at hlength
      by_contra hnot
      have hmax : s.lastFragmentId.toNat + 1 = 2 ^ 32 := by omega
      rw [hmax, Nat.mod_self] at hlength
      omega
    have hsum : (s.lastFragmentId + 1).toNat = s.lastFragmentId.toNat + 1 :=
      toNat_succ (BitVec.le_refl _) hlast
    obtain ⟨b, hb, hiff⟩ := allThere_spec hlast (2 ^ 32) 0 (Nat.zero_le _)
      (Nat.lt_of_lt_of_le hlast (Nat.le_add_left _ _))
    simp only [hb]
    cases b with
    | false => exact ⟨0, 0, rfl, by decide, fun h => absurd h (by decide)⟩
    | true =>
      refine ⟨s.started, 1, rfl, by decide, fun _ => ⟨⟨by omega, fun id hid => ?_⟩, hlast⟩⟩
      exact hiff.mp rfl id (BitVec.le_def.mpr (Nat.zero_le _)) hid

/-- The length after a call has added it. -/
theorem toNat_noted (s : RecvPacket) (c : Addition) :
    (s.noted c).dataLength.toNat = (s.dataLength.toNat + c.data.buf.length) % 2 ^ 32 := by
  have hlt := c.data.length_lt
  rw [noted, BitVec.toNat_add, BitVec.toNat_setWidth, c.data.toNat_len,
    Nat.mod_eq_of_lt (show c.data.buf.length < 2 ^ 32 by omega)]

theorem addFragment_of_bind (hcopy : c.copyMemory) (h : (s.find c.id).isNone ∧ c.nodeMemory) :
    s.addFragment c = checkComplete
      { s.noted c with fragments := s.fragments ++ [(c.id, c.data)] } c := by
  have hbind : (s.noted c).bind c.id c.data c.nodeMemory =
      some { s.noted c with fragments := s.fragments ++ [(c.id, c.data)] } := if_pos h
  rw [addFragment, hcopy, hbind]
  rfl

theorem addFragment_of_refused (hcopy : c.copyMemory)
    (h : ¬((s.find c.id).isNone ∧ c.nodeMemory)) :
    s.addFragment c = some ({ s.noted c with started := 0 }, -1) := by
  have hbind : (s.noted c).bind c.id c.data c.nodeMemory = none := if_neg h
  rw [addFragment, hcopy, hbind]
  rfl

theorem addFragment_of_no_memory (hcopy : ¬c.copyMemory) : s.addFragment c = some (s, -1) := by
  rw [addFragment, eq_false_of_ne_true hcopy]
  rfl

/-- **A call does right** exactly if its fragment can be added. -/
theorem right_iff (h : s.Inv) (c : Addition) : s.Right c ↔ s.Admissible c := by
  have hlt := c.data.length_lt
  by_cases hcopy : c.copyMemory
  · rw [Admissible]
    by_cases hfree : (s.find c.id).isNone ∧ c.nodeMemory
    · -- the fragment is bound
      obtain ⟨started, r, hcheck, hr, hcomplete⟩ := checkComplete_spec
        (s := { s.noted c with fragments := s.fragments ++ [(c.id, c.data)] })
        (List.append_ne_nil_of_right_ne_nil _ (List.cons_ne_nil _ _)) c
      rw [Right, addFragment_of_bind hcopy hfree, hcheck, if_pos hfree]
      have hstored : stored { s.noted c with fragments := s.fragments ++ [(c.id, c.data)] } =
          s.stored + c.data.buf.length := stored_concat ..
      have hsum := toNat_noted s c
      rw [h.length_eq] at hsum
      constructor
      · rintro ⟨s', r', hs', hright⟩ -
        cases hs'
        have hlen := hright.length_eq
        change (s.noted c).dataLength.toNat = stored { s.noted c with
          fragments := s.fragments ++ [(c.id, c.data)] } at hlen
        rw [hsum, hstored] at hlen
        exact hlen ▸ Nat.mod_lt _ (Nat.two_pow_pos 32)
      · intro hfits
        have hlen : (s.noted c).dataLength.toNat = s.stored + c.data.buf.length :=
          hsum.trans (Nat.mod_eq_of_lt (hfits hcopy))
        refine ⟨_, _, rfl, hlen.trans hstored.symm, fun hneg => absurd hneg hr, fun hone => ?_⟩
        obtain ⟨hall, hlast⟩ := hcomplete hone
        refine ⟨hall.isSome_find_iff hlast, copyData_eq hlast, ?_⟩
        refine (hall.length_message hlast (nodup_concat c.data h.nodup hfree.1)).trans ?_
        exact hstored.trans hlen.symm
    · -- it is refused
      rw [Right, addFragment_of_refused hcopy hfree, if_neg hfree]
      constructor
      · rintro ⟨s', r', hs', hright⟩ -
        cases hs'
        obtain ⟨-, hlen, hlast⟩ := hright.unchanged rfl
        have hsum := toNat_noted s c
        change (s.noted c).dataLength = s.dataLength at hlen
        rw [hlen] at hsum
        have hisLt := s.dataLength.isLt
        refine ⟨List.eq_nil_of_length_eq_zero (by omega), fun hc => ?_⟩
        exact (if_pos hc).symm.trans hlast
      · intro hadm
        obtain ⟨hnil, hid⟩ := hadm hcopy
        have hlen : (s.noted c).dataLength = s.dataLength := by
          refine BitVec.eq_of_toNat_eq ((toNat_noted s c).trans ?_)
          rw [hnil, List.length_nil, Nat.add_zero, Nat.mod_eq_of_lt s.dataLength.isLt]
        have hlast : (s.noted c).lastFragmentId = s.lastFragmentId := by
          rw [noted]
          split_ifs with hc
          · exact hid hc
          · rfl
        refine ⟨_, _, rfl, ?_, fun _ => ⟨rfl, hlen, hlast⟩, fun hone => absurd hone (by decide)⟩
        exact (congrArg BitVec.toNat hlen).trans h.length_eq
  · rw [Right, addFragment_of_no_memory hcopy]
    refine iff_of_true ⟨_, _, rfl, h.length_eq, fun _ => ⟨rfl, rfl, rfl⟩, fun hone => ?_⟩
      fun hc => absurd hc hcopy
    exact absurd hone (by decide)

/-! ### Every run -/

/-- A call that does right keeps the invariant. -/
theorem Inv.addFragment (h : s.Inv) (hright : s.Right c)
    (hstep : s.addFragment c = some (s', r)) : s'.Inv := by
  obtain ⟨s₁, r₁, hs₁, hadds⟩ := hright
  cases hstep.symm.trans hs₁
  refine ⟨?_, hadds.length_eq⟩
  by_cases hcopy : c.copyMemory
  · by_cases hfree : (s.find c.id).isNone ∧ c.nodeMemory
    · obtain ⟨started, r, hcheck, -⟩ := checkComplete_spec
        (s := { s.noted c with fragments := s.fragments ++ [(c.id, c.data)] })
        (List.append_ne_nil_of_right_ne_nil _ (List.cons_ne_nil _ _)) c
      rw [addFragment_of_bind hcopy hfree, hcheck] at hstep
      cases hstep
      exact nodup_concat c.data h.nodup hfree.1
    · rw [addFragment_of_refused hcopy hfree] at hstep
      cases hstep
      exact h.nodup
  · rw [addFragment_of_no_memory hcopy] at hstep
    cases hstep
    exact h.nodup

/-- **A packet is right throughout a run** exactly if its fragments can be added. -/
theorem guarded_right_iff_admissible (now : ℕ) (calls : List Addition) :
    Machine.Guarded addFragment Right (new now) calls ↔
      Machine.Guarded addFragment Admissible (new now) calls :=
  Machine.guarded_congr (fun _ _ _ _ h hright hstep => h.addFragment hright hstep)
    (fun _ c h => right_iff h c) (inv_new now)

/-- A fragment that arrives twice is counted twice. -/
theorem not_right_duplicate :
    ¬Machine.Guarded addFragment Right (new 1)
      [⟨⟨[65], by decide⟩, 0, false, true, true⟩, ⟨⟨[65], by decide⟩, 0, false, true, true⟩] := by
  intro h
  obtain ⟨s', r, hs', hright⟩ := (h.2 _ _ rfl).1
  cases hs'
  exact absurd hright.length_eq (by decide)

end RecvPacket

end AceTao.Miop
