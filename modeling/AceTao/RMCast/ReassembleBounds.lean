import AceTao.Library.Machine
import AceTao.RMCast.Fragment

/-!
# The buffer of a message that is put together

`Reassemble.recv` has no answer when a call goes wrong. Here the calls that go wrong are told apart:
`recvChecked` says whether bytes were copied outside of a buffer, the program was aborted, or a
profile is missing (`recv_eq_toOption`).

The first part of a message fixes how much memory there is, and a later one is copied behind the
bytes that are there before anything is compared. What is left of the memory depends on the messages
alone: `ledger` adds it up. No copy leaves its buffer exactly where each later part that is reached
fits in what is left (`copiesInside_iff`). After an empty first part nothing is left, whatever size it
announces: no memory was asked for.
-/

namespace AceTao.RMCast

theorem Data.size_le_allocated (buf : List UInt8) (capacity : ℕ) :
    (Data.new buf capacity).size ≤ (Data.new buf capacity).allocated := by
  dsimp only [Data.new, Data.size]
  split_ifs <;> omega

namespace Reassemble

/-- How a call goes wrong. -/
inductive Fault
  | outside
  | abort
  | null
  deriving DecidableEq

/-- The bytes are copied before the size is set, and only the latter compares. -/
def appendChecked (d : Data) (bytes : List UInt8) : Except Fault Data :=
  if d.allocated < d.size + bytes.length then .error .outside
  else if d.capacity < d.size + bytes.length then .error .abort
  else .ok { d with buf := d.buf ++ bytes }

/-- What follows the copy of a later part. -/
def finish (map : Map) (m : Message) (source : Address) (part : Part) (newData : Data) :
    Except Fault (Map × List Message) :=
  if part.num = part.of then
    if part.totalSize.toNat ≠ newData.size then .error .abort
    else
      match m.findTo with
      | none => .error .null
      | some target => .ok (Function.update map source none, [whole target source newData])
  else .ok (Function.update map source (some newData), [])

def recvPartChecked (map : Map) (m : Message) (source : Address) (data : Data) (part : Part) :
    Except Fault (Map × List Message) :=
  match map source with
  | none =>
    if part.num ≠ 1 then .ok (map, [])
    else .ok (Function.update map source (some (Data.new data.buf part.totalSize.toNat)), [])
  | some newData =>
    if part.num = 1 then .error .abort
    else (appendChecked newData data.buf).bind (finish map m source part)

/-- **Receiving a message**, with the reason why a call has no answer. -/
def recvChecked (map : Map) (m : Message) : Except Fault (Map × List Message) :=
  match m.findFrom with
  | none => .error .null
  | some source =>
    match m.findData with
    | some data =>
      match m.findPart with
      | some part => recvPartChecked map m source data part
      | none => if (map source).isSome then .error .abort else .ok (map, [m])
    | none =>
      if m.findNoData then .ok (Function.update map source none, [m]) else .ok (map, [])

/-- **The same function** apart from the reasons. -/
theorem recv_eq_toOption (map : Map) (m : Message) : recv map m = (recvChecked map m).toOption := by
  rw [recv, recvChecked]
  rcases m.findFrom with _ | source
  · rfl
  rcases m.findData with _ | data
  · dsimp only
    split_ifs <;> rfl
  rcases m.findPart with _ | part
  · dsimp only
    split_ifs <;> rfl
  dsimp only
  rw [recvPart, recvPartChecked]
  rcases map source with _ | newData
  · dsimp only
    split_ifs <;> rfl
  dsimp only
  by_cases hnum : part.num = 1
  · rw [if_pos hnum, if_pos hnum]
    rfl
  rw [if_neg hnum, if_neg hnum, append, appendChecked]
  by_cases hout : newData.allocated < newData.size + data.buf.length
  · rw [if_pos hout, if_pos hout]
    rfl
  rw [if_neg hout, if_neg hout]
  by_cases hcap : newData.capacity < newData.size + data.buf.length
  · rw [if_pos hcap, if_pos hcap]
    rfl
  rw [if_neg hcap, if_neg hcap]
  dsimp only [Except.bind]
  rw [finish]
  by_cases hlast : part.num = part.of
  · rw [if_pos hlast, if_pos hlast]
    by_cases htotal : part.totalSize.toNat ≠
        Data.size { newData with buf := newData.buf ++ data.buf }
    · rw [if_pos htotal, if_pos htotal]
      rfl
    · rw [if_neg htotal, if_neg htotal]
      rcases m.findTo with _ | target <;> rfl
  · rw [if_neg hlast, if_neg hlast]
    rfl

/-! ### What is left of the memory -/

/-- How many bytes can still be copied for the message from an address. -/
abbrev Room := Address → Option ℕ

/-- What a message does to the room. The first part takes the memory for the whole, unless it is
empty; the last one gives it back. -/
def Room.next (room : Room) (m : Message) : Room :=
  match m.findFrom with
  | none => room
  | some source =>
    match m.findData with
    | some data =>
      match m.findPart with
      | none => room
      | some part =>
        match room source with
        | none =>
          if part.num ≠ 1 then room
          else Function.update room source (some (if data.size = 0 then 0
            else max data.size part.totalSize.toNat - data.size))
        | some left =>
          if part.num = part.of then Function.update room source none
          else Function.update room source (some (left - data.size))
    | none => if m.findNoData then Function.update room source none else room

/-- The room after some messages. -/
def ledger (ms : List Message) : Room := ms.foldl Room.next fun _ => none

/-- A part behind a first one fits in the room there is. -/
def Fits (room : Room) (m : Message) : Prop :=
  ∀ source ∈ m.findFrom, ∀ data ∈ m.findData, ∀ part ∈ m.findPart, part.num ≠ 1 →
    ∀ left ∈ room source, data.size ≤ left

/-- The room is what the buffers have left. -/
structure Accounts (room : Room) (map : Map) : Prop where
  room_eq : ∀ a, room a = (map a).map fun d => d.allocated - d.size
  size_le : ∀ a, ∀ d ∈ map a, d.size ≤ d.allocated

namespace Accounts

variable {room : Room} {map : Map}

theorem start : Accounts (fun _ => none) fun _ => none :=
  ⟨fun _ => rfl, fun _ _ hd => by cases hd⟩

theorem update (h : Accounts room map) (a : Address) (left : ℕ) (d : Data)
    (hleft : left = d.allocated - d.size) (hle : d.size ≤ d.allocated) :
    Accounts (Function.update room a (some left)) (Function.update map a (some d)) := by
  subst hleft
  refine ⟨fun b => ?_, fun b d' hd' => ?_⟩
  · rcases eq_or_ne b a with rfl | hb
    · rw [Function.update_self, Function.update_self]
      rfl
    · rw [Function.update_of_ne hb, Function.update_of_ne hb, h.room_eq]
  · rcases eq_or_ne b a with rfl | hb
    · rw [Function.update_self] at hd'
      cases hd'
      exact hle
    · rw [Function.update_of_ne hb] at hd'
      exact h.size_le b d' hd'

theorem clear (h : Accounts room map) (a : Address) :
    Accounts (Function.update room a none) (Function.update map a none) := by
  refine ⟨fun b => ?_, fun b d hd => ?_⟩
  · rcases eq_or_ne b a with rfl | hb
    · rw [Function.update_self, Function.update_self]
      rfl
    · rw [Function.update_of_ne hb, Function.update_of_ne hb, h.room_eq]
  · rcases eq_or_ne b a with rfl | hb
    · rw [Function.update_self] at hd
      cases hd
    · rw [Function.update_of_ne hb] at hd
      exact h.size_le b d hd

end Accounts

/-! ### One message and the room -/

variable {room : Room} {map map' : Map} {m : Message} {out : List Message}

/-- The first part gets the room that its announcement leaves. -/
theorem room_first (data : Data) (total : ℕ) :
    (if data.size = 0 then 0 else max data.size total - data.size) =
      (Data.new data.buf total).allocated - (Data.new data.buf total).size := by
  by_cases hempty : data.size = 0
  · have hzero : (Data.new data.buf total).allocated = 0 := if_pos hempty
    rw [if_pos hempty, hzero, Nat.zero_sub]
  · rw [if_neg hempty, Data.new]
    dsimp only [Data.size] at hempty ⊢
    rw [if_neg hempty]
    split_ifs <;> omega

/-- **A copy** leaves its buffer exactly if there is no room for it. -/
theorem appendChecked_eq_outside_iff {d : Data} (hle : d.size ≤ d.allocated) (bytes : List UInt8) :
    appendChecked d bytes = .error .outside ↔ d.allocated - d.size < bytes.length := by
  rw [appendChecked]
  by_cases hout : d.allocated < d.size + bytes.length
  · rw [if_pos hout]
    exact iff_of_true rfl (by omega)
  · rw [if_neg hout]
    refine iff_of_false (fun h => ?_) (by omega)
    split_ifs at h
    cases h

theorem appendChecked_eq_ok {d d' : Data} {bytes : List UInt8} (h : appendChecked d bytes = .ok d') :
    d'.allocated = d.allocated ∧ d'.size = d.size + bytes.length ∧ d'.size ≤ d'.allocated := by
  rw [appendChecked] at h
  split_ifs at h with hout hcap
  cases h
  have hsize : Data.size { d with buf := d.buf ++ bytes } = d.size + bytes.length :=
    List.length_append
  exact ⟨rfl, hsize, by rw [hsize]; exact Nat.le_of_not_lt hout⟩

/-- Nothing is copied behind the end of a part. -/
theorem finish_ne_outside (source : Address) (part : Part) (d : Data) :
    finish map m source part d ≠ .error .outside := by
  rw [finish]
  rcases m.findTo with _ | target <;> split_ifs <;> intro h <;> cases h

theorem finish_eq_ok {source : Address} {part : Part} {d : Data}
    (h : finish map m source part d = .ok (map', out)) :
    map' = Function.update map source (if part.num = part.of then none else some d) := by
  rw [finish] at h
  split_ifs at h with hlast htotal
  · rcases hto : m.findTo with _ | target <;> rw [hto] at h <;> cases h
    rw [if_pos hlast]
  · cases h
    rw [if_neg hlast]

/-- **What a message does to the room**, it does to the buffers. -/
theorem Accounts.recvChecked (h : Accounts room map)
    (hr : recvChecked map m = .ok (map', out)) : Accounts (room.next m) map' := by
  rw [Reassemble.recvChecked] at hr
  rw [Room.next]
  rcases hfrom : m.findFrom with _ | source
  · rw [hfrom] at hr
    cases hr
  rw [hfrom] at hr
  rcases hdata : m.findData with _ | data
  · rw [hdata] at hr
    dsimp only at hr ⊢
    split_ifs at hr ⊢ with hno
    · cases hr
      exact h.clear source
    · cases hr
      exact h
  rw [hdata] at hr
  rcases hpart : m.findPart with _ | part
  · rw [hpart] at hr
    dsimp only at hr ⊢
    split_ifs at hr
    cases hr
    exact h
  rw [hpart] at hr
  dsimp only at hr ⊢
  rw [recvPartChecked] at hr
  have hroom := h.room_eq source
  rcases hmap : map source with _ | newData
  · rw [hmap] at hr hroom
    rw [hroom]
    dsimp only [Option.map] at hr ⊢
    by_cases hfirst : part.num ≠ 1
    · rw [if_pos hfirst] at hr ⊢
      cases hr
      exact h
    · rw [if_neg hfirst] at hr ⊢
      cases hr
      exact h.update source _ _ (room_first data _) (Data.size_le_allocated ..)
  · rw [hmap] at hr hroom
    rw [hroom]
    dsimp only [Option.map] at hr ⊢
    split_ifs at hr with hfirst
    rcases happend : appendChecked newData data.buf with e | d
    · rw [happend] at hr
      cases hr
    · rw [happend] at hr
      obtain ⟨halloc, hsize, hle⟩ := appendChecked_eq_ok happend
      rw [finish_eq_ok hr]
      by_cases hlast : part.num = part.of
      · rw [if_pos hlast, if_pos hlast]
        exact h.clear source
      · rw [if_neg hlast, if_neg hlast]
        refine h.update source _ d ?_ hle
        rw [halloc, hsize, Data.size, Data.size]
        omega

/-- **A call copies outside of a buffer** exactly if its part does not fit in the room. -/
theorem Accounts.ne_outside_iff (h : Accounts room map) :
    Reassemble.recvChecked map m ≠ .error .outside ↔ Fits room m := by
  rw [Reassemble.recvChecked, Fits]
  rcases m.findFrom with _ | source
  · exact iff_of_true (fun he => by cases he) fun _ hs => by cases hs
  rcases m.findData with _ | data
  · refine iff_of_true (fun he => ?_) fun _ _ _ hd => by cases hd
    dsimp only at he
    split_ifs at he
  rcases m.findPart with _ | part
  · refine iff_of_true (fun he => ?_) fun _ _ _ _ _ hp => by cases hp
    dsimp only at he
    split_ifs at he
    cases he
  have hroom := h.room_eq source
  simp only [Option.mem_def, Option.some.injEq, forall_eq']
  rw [recvPartChecked, hroom]
  rcases hmap : map source with _ | newData
  · refine iff_of_true (fun he => ?_) fun _ _ hl => by cases hl
    dsimp only at he
    split_ifs at he
  · dsimp only
    by_cases hfirst : part.num = 1
    · rw [if_pos hfirst]
      exact iff_of_true (fun he => by cases he) fun hne => absurd hfirst hne
    · rw [if_neg hfirst, Option.map_some]
      simp only [Option.some.injEq, forall_eq']
      have hcopy := appendChecked_eq_outside_iff (h.size_le source newData hmap) data.buf
      rcases happend : appendChecked newData data.buf with e | d
      · rw [happend] at hcopy
        change Except.error e ≠ _ ↔ _
        rw [Ne, Except.error.injEq, ← Except.error.injEq (α := Data), hcopy, Data.size]
        exact ⟨fun hnot _ => Nat.le_of_not_lt hnot, fun hfit => Nat.not_lt.mpr (hfit hfirst)⟩
      · rw [happend] at hcopy
        refine iff_of_true (finish_ne_outside source part d) fun _ => Nat.le_of_not_lt fun hlt => ?_
        cases hcopy.mpr hlt

/-! ### Every order of messages -/

/-- **No copy leaves its buffer**, whatever messages arrive one after the other. -/
def CopiesInside (ms : List Message) : Prop :=
  FaultRun.run Reassemble.recvChecked (fun _ => none) ms ≠ .error .outside

/-- **The room decides.** -/
theorem copiesInside_iff (ms : List Message) : CopiesInside ms ↔
    ∀ pre m post map, ms = pre ++ m :: post →
      FaultRun.run Reassemble.recvChecked (fun _ => none) pre = .ok map → Fits (ledger pre) m :=
  FaultRun.run_ne_error_iff (fun _ _ _ _ _ h hr => h.recvChecked hr)
    (fun _ _ _ h => h.ne_outside_iff) Accounts.start

/-- A part of a message of `total` bytes, as it arrives. -/
def partMessage (num of : U32) (total : U64) (bytes : List UInt8) : Message :=
  ((Message.empty.add (.part ⟨num, of, total⟩)).add (.data (Data.new bytes 0))).linked ⟨1, 1⟩ ⟨2, 2⟩

/-- A second part behind a first one that is the whole message, and a second part behind an empty
one. -/
theorem not_copiesInside :
    ¬CopiesInside [partMessage 1 2 1 [65], partMessage 2 2 1 [66]] ∧
      ¬CopiesInside [partMessage 1 2 8 [], partMessage 2 2 8 [66]] :=
  ⟨not_not.mpr rfl, not_not.mpr rfl⟩

end Reassemble

end AceTao.RMCast
