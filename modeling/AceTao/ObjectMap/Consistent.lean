import AceTao.Library.Machine
import AceTao.Library.Keyed
import AceTao.ObjectMap.Basic
import Mathlib.Data.Nat.Notation
import Mathlib.Order.Nat

/-!
# The maps of an active object map agree

The maps are indexes of the entries that exist (`ActiveObjectMap.Consistent`): `user_id_map_` by
their user ids, `servant_map_` by their servants, where they have one and servants are unique, and
`system_id_map_` by the hints in their system ids, where there are hints.
-/

namespace AceTao

open StoreIndex

theorem ActiveKey.decode_append (key : ActiveKey) (id : ObjectId) :
    ActiveKey.decode (key.bytes ++ id) = some key := by
  obtain ⟨bytes, hlen⟩ := key
  have hle : Poa.activeKeySize ≤ (bytes ++ id).length := by
    rw [List.length_append, hlen]
    exact Nat.le_add_right _ _
  rw [decode, dif_pos hle]
  refine congrArg some ?_
  rw [ActiveKey.mk.injEq, ← hlen, List.take_left]

namespace ObjectEntry

variable {S : Type}

/-- The key of an entry in `servant_map_`. -/
def servantKey (c : MapPolicies) (e : ObjectEntry S) : Option S :=
  if c.uniqueId then e.servant else none

/-- The key of an entry in `system_id_map_`. -/
def hintKey (c : MapPolicies) (e : ObjectEntry S) : Option ActiveKey :=
  if c.activeHints then ActiveKey.decode e.systemId else none

/-- **An entry as the maps have it**: it has not been deactivated, its user id is one that
`user_id_map_` can have, and its system id is its user id behind a hint. -/
structure WellFormed (c : MapPolicies) (e : ObjectEntry S) : Prop where
  active : e.deactivated = false
  userId : ActiveObjectMap.userIdKey c e.userId = some e.userId
  systemId : c.activeHints → ∃ key : ActiveKey, e.systemId = key.bytes ++ e.userId

end ObjectEntry

namespace ActiveObjectMap

variable {S : Type} {c : MapPolicies} {m m' : ActiveObjectMap S} {p : ℕ} {e : ObjectEntry S}

/-- **The maps agree.** -/
structure Consistent (c : MapPolicies) (m : ActiveObjectMap S) : Prop where
  userIds : Indexes m.userIdMap m.entries fun e => some e.userId
  servants : Indexes m.servantMap m.entries (ObjectEntry.servantKey c)
  hints : Indexes m.systemIdMap m.entries (ObjectEntry.hintKey c)
  fresh : ∀ p, m.nextEntry ≤ p → m.entries p = none
  wellFormed : ∀ p e, m.entries p = some e → e.WellFormed c

/-- The same maps and entries. -/
structure SameMaps (m m' : ActiveObjectMap S) : Prop where
  entries : m'.entries = m.entries
  userIdMap : m'.userIdMap = m.userIdMap
  servantMap : m'.servantMap = m.servantMap
  systemIdMap : m'.systemIdMap = m.systemIdMap
  nextEntry : m.nextEntry ≤ m'.nextEntry

theorem SameMaps.refl (m : ActiveObjectMap S) : SameMaps m m := ⟨rfl, rfl, rfl, rfl, le_rfl⟩

theorem consistent_empty : Consistent c (empty : ActiveObjectMap S) where
  userIds := indexes_empty _
  servants := indexes_empty _
  hints := indexes_empty _
  fresh := fun _ _ => rfl
  wellFormed := nofun

theorem Consistent.of_sameMaps (h : Consistent c m) (hs : SameMaps m m') : Consistent c m' := by
  refine ⟨?_, ?_, ?_, fun p hp => ?_, ?_⟩
  · rw [hs.userIdMap, hs.entries]
    exact h.userIds
  · rw [hs.servantMap, hs.entries]
    exact h.servants
  · rw [hs.systemIdMap, hs.entries]
    exact h.hints
  · rw [hs.entries]
    exact h.fresh p (hs.nextEntry.trans hp)
  · rw [hs.entries]
    exact h.wellFormed

/-! ### Binding and unbinding in a map -/

section Maps

variable {K : Type} [DecidableEq K]

theorem bind_cases (map : K → Option ℕ) (key : K) (p : ℕ) (memory : Bool) :
    (map key = none ∧ bind map key p memory = (Function.update map key (some p), 0)) ∨
      ∃ r, r ≠ 0 ∧ bind map key p memory = (map, r) := by
  rw [bind]
  split_ifs with hkey
  · exact .inr ⟨1, by decide, rfl⟩
  · exact .inl ⟨Option.not_isSome_iff_eq_none.mp hkey, rfl⟩
  · exact .inr ⟨-1, by decide, rfl⟩

theorem bind_eq {map : K → Option ℕ} {key : K} (hkey : map key = none) (p : ℕ) :
    bind map key p true = (Function.update map key (some p), 0) := by
  rw [bind, hkey]
  rfl

theorem unbind_eq {map : K → Option ℕ} {key : K} (hkey : map key = some p) :
    unbind map key = (Function.update map key none, 0) := by
  rw [unbind, hkey]
  rfl

end Maps

/-- A pointer that a map has is to an entry. -/
theorem Consistent.exists_entry (h : Consistent c m) {id : ObjectId} (hp : m.userIdMap id = some p) :
    ∃ e, m.entries p = some e ∧ e.userId = id := by
  obtain ⟨e, he, hid⟩ := (h.userIds id p).mp hp
  exact ⟨e, he, Option.some.inj hid⟩

theorem modify_eq (he : m.entries p = some e) (f : ObjectEntry S → ObjectEntry S) :
    m.modify p f = some { m with entries := Function.update m.entries p (some (f e)) } := by
  rw [modify, he]
  rfl

/-- **`bind`** of a hint strategy gives the entry a system id, or changes at most the system id of
the entry. -/
theorem hintBind_cases (he : m.entries p = some e) (supply : Supply) :
    (∃ systemId, (c.activeHints → ∃ key : ActiveKey, systemId = key.bytes ++ e.userId) ∧
      (∀ key, ObjectEntry.hintKey c { e with systemId } = some key → m.systemIdMap key = none) ∧
      m.hintBind c p supply = some ({ m with
        entries := Function.update m.entries p (some { e with systemId })
        systemIdMap :=
          setKey m.systemIdMap (ObjectEntry.hintKey c { e with systemId }) (some p) }, 0)) ∨
    ∃ e' r, r ≠ 0 ∧ m.hintBind c p supply =
      some ({ m with entries := Function.update m.entries p (some e') }, r) := by
  rw [hintBind]
  by_cases hc : c.activeHints
  · rw [if_pos hc, modify_eq he]
    rcases supply.hintKey with _ | key
    · exact .inr ⟨_, -1, by decide, rfl⟩
    · rcases bind_cases m.systemIdMap key p true with ⟨hfree, hbind⟩ | ⟨r, hr, hbind⟩
      · have hkey : ObjectEntry.hintKey c { e with systemId := key.bytes ++ e.userId } = some key := by
          rw [ObjectEntry.hintKey, if_pos hc]
          exact key.decode_append _
        refine .inl ⟨key.bytes ++ e.userId, fun _ => ⟨key, rfl⟩, fun k hk => ?_, ?_⟩
        · rw [hkey] at hk
          cases hk
          exact hfree
        · rw [hkey, setKey_some]
          dsimp only [Option.bind_some]
          rw [hbind]
          dsimp only
          rw [if_pos rfl, modify_eq (Function.update_self p _ _), Option.map_some]
          dsimp only
          rw [Function.update_idem]
      · refine .inr ⟨{ e with systemId := e.userId }, r, hr, ?_⟩
        dsimp only [Option.bind_some]
        rw [hbind]
        exact if_neg hr
  · rw [if_neg hc]
    refine .inl ⟨e.systemId, fun h => absurd h hc, fun key hkey => ?_, ?_⟩
    · rw [ObjectEntry.hintKey, if_neg hc] at hkey
      cases hkey
    · rw [ObjectEntry.hintKey, if_neg hc, setKey_none, ← he, Function.update_eq_self]

/-- **`unbind`** of a hint strategy. -/
theorem hintUnbind_eq (he : m.entries p = some e)
    (hsystem : c.activeHints → ∃ key : ActiveKey, e.systemId = key.bytes ++ e.userId)
    (hbound : ∀ key, e.hintKey c = some key → m.systemIdMap key = some p) :
    m.hintUnbind c p =
      some ({ m with systemIdMap := setKey m.systemIdMap (e.hintKey c) none }, 0) := by
  rw [hintUnbind, ObjectEntry.hintKey]
  rw [ObjectEntry.hintKey] at hbound
  by_cases hc : c.activeHints
  · obtain ⟨key, hkey⟩ := hsystem hc
    have hdecode : ActiveKey.decode e.systemId = some key := by rw [hkey, key.decode_append]
    rw [if_pos hc, hdecode] at hbound ⊢
    rw [if_pos hc, he]
    dsimp only [Option.bind_some]
    rw [hdecode]
    dsimp only [Option.map_some]
    rw [unbind_eq (hbound key rfl), setKey_some]
  · rw [if_neg hc, if_neg hc, setKey_none]

/-- `user_id_map_->unbind`. -/
theorem unbindUserId_eq {id key : ObjectId} (hkey : userIdKey c id = some key)
    (hbound : m.userIdMap key = some p) :
    m.unbindUserId c id =
      some ({ m with userIdMap := Function.update m.userIdMap key none }, 0) := by
  rw [unbindUserId, hkey]
  dsimp only [Option.map_some]
  rw [unbind_eq hbound]

/-- `user_id_map_->bind`. -/
theorem bindUserId_cases (id : ObjectId) (p : ℕ) (memory : Bool) (m : ActiveObjectMap S) :
    (userIdKey c id = some id ∧ m.userIdMap id = none ∧ m.bindUserId c id p memory =
      ({ m with userIdMap := Function.update m.userIdMap id (some p) }, 0)) ∨
    ∃ r, r ≠ 0 ∧ m.bindUserId c id p memory = (m, r) := by
  rw [bindUserId]
  by_cases hc : c.activeUserIds
  · rw [if_pos hc]
    exact .inr ⟨-1, by decide, rfl⟩
  · rw [if_neg hc]
    rcases bind_cases m.userIdMap id p memory with ⟨hfree, hbind⟩ | ⟨r, hr, hbind⟩
    · rw [hbind]
      exact .inl ⟨by rw [userIdKey, if_neg hc], hfree, rfl⟩
    · rw [hbind]
      exact .inr ⟨r, hr, rfl⟩

/-- `user_id_map_->bind_create_key`. -/
theorem bindCreateKey_cases (p : ℕ) (supply : Supply) (m : ActiveObjectMap S) :
    (∃ id counter, userIdKey c id = some id ∧ m.userIdMap id = none ∧ m.bindCreateKey c p supply =
      ({ m with userIdMap := Function.update m.userIdMap id (some p), counter }, id, 0)) ∨
    ∃ id counter r, r ≠ 0 ∧ m.bindCreateKey c p supply = ({ m with counter }, id, r) := by
  rw [bindCreateKey]
  by_cases hc : c.activeUserIds
  · rw [if_pos hc]
    rcases supply.userIdKey with _ | key
    · exact .inr ⟨[], m.counter, -1, by decide, rfl⟩
    · dsimp only
      rcases bind_cases m.userIdMap key.bytes p true with ⟨hfree, hbind⟩ | ⟨r, hr, hbind⟩
      · rw [hbind]
        refine .inl ⟨key.bytes, m.counter, ?_, hfree, rfl⟩
        have hdecode := key.decode_append []
        rw [List.append_nil] at hdecode
        rw [userIdKey, if_pos hc, hdecode]
        rfl
      · rw [hbind]
        exact .inr ⟨_, m.counter, r, hr, rfl⟩
  · rw [if_neg hc]
    dsimp only [generateKey]
    rcases bind_cases m.userIdMap (ByteImage.leBytes Poa.counterSize ((m.counter + 1) % 2 ^ 32)) p
      supply.userIdMemory with ⟨hfree, hbind⟩ | ⟨r, hr, hbind⟩
    · rw [hbind]
      exact .inl ⟨_, _, by rw [userIdKey, if_neg hc], hfree, rfl⟩
    · rw [hbind]
      exact .inr ⟨_, _, r, hr, rfl⟩

section Servants

variable [DecidableEq S]

/-- `servant_map_->bind`. -/
theorem bindServant_cases (servant : Option S) (p : ℕ) (supply : Supply) (m : ActiveObjectMap S) :
    ((∀ s, (if c.uniqueId then servant else none) = some s → m.servantMap s = none) ∧
      m.bindServant c servant p supply = ({ m with
        servantMap := setKey m.servantMap (if c.uniqueId then servant else none) (some p) }, 0)) ∨
    ∃ r, r ≠ 0 ∧ m.bindServant c servant p supply = (m, r) := by
  rw [bindServant.eq_def]
  by_cases hc : c.uniqueId
  · rw [if_pos hc, if_pos hc]
    rcases servant with _ | s
    · exact .inl ⟨nofun, rfl⟩
    · dsimp only
      rcases bind_cases m.servantMap s p supply.servantMemory with ⟨hfree, hbind⟩ | ⟨r, hr, hbind⟩
      · rw [hbind]
        refine .inl ⟨fun s' hs => ?_, rfl⟩
        cases hs
        exact hfree
      · rw [hbind]
        exact .inr ⟨r, hr, rfl⟩
  · rw [if_neg hc, if_neg hc]
    exact .inl ⟨nofun, rfl⟩

/-- A servant that is free is bound. -/
theorem bindServant_eq {servant : Option S} {supply : Supply}
    (hfree : ∀ s ∈ servant, c.uniqueId → m.servantMap s = none ∧ supply.servantMemory = true) :
    m.bindServant c servant p supply = ({ m with
      servantMap := setKey m.servantMap (if c.uniqueId then servant else none) (some p) }, 0) := by
  rw [bindServant.eq_def]
  by_cases hc : c.uniqueId
  · rw [if_pos hc, if_pos hc]
    rcases servant with _ | s
    · rfl
    · obtain ⟨hnone, hmemory⟩ := hfree s rfl hc
      dsimp only
      rw [hmemory, bind_eq hnone, setKey_some]
  · rw [if_neg hc, if_neg hc, setKey_none]

/-- `servant_map_->unbind`. -/
theorem unbindServant_eq (hbound : ∀ s, e.servantKey c = some s → m.servantMap s = some p) :
    m.unbindServant c e.servant =
      ({ m with servantMap := setKey m.servantMap (e.servantKey c) none }, 0) := by
  rw [unbindServant.eq_def, ObjectEntry.servantKey]
  rw [ObjectEntry.servantKey] at hbound
  by_cases hc : c.uniqueId
  · rw [if_pos hc] at hbound ⊢
    rw [if_pos hc]
    rcases hs : e.servant with _ | s
    · rfl
    · dsimp only
      rw [unbind_eq (hbound s hs), setKey_some]
  · rw [if_neg hc, if_neg hc, setKey_none]

end Servants

end ActiveObjectMap

end AceTao
