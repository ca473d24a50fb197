import AceTao.ObjectMap.Runs

/-!
# References, activations and deactivations

The calls of `ServantRetentionStrategyRetain` that make references, activate objects and deactivate
them, one after the other, over the active object map of every configuration. Where the map has
active maps, `create_reference` and `create_reference_with_id` bind an entry without a servant, so
that there are hints or keys for its ids; `activate_object_with_id` gives it a servant later.

`deactivate_object` looks for the entry only. An object is active when its entry has a servant:
`find_servant_using_user_id` tests that, and `find_entry_using_user_id` does not. Which objects are
active is kept beside the maps, by what the calls have answered (`served`).
-/

namespace AceTao

/-- **The maps of a POA**, with the counts of references of the entries. -/
structure Retention (S : Type) where
  map : ActiveObjectMap S
  referenceCount : ℕ → BitVec 16

/-- How a call ends. -/
inductive RetentionAnswer
  | returned (id : Option ObjectId)
  | wrongPolicy
  | servantAlreadyActive
  | objectAlreadyActive
  | objectNotActive
  | badInvOrder
  | objAdapter
  /-- The thread waits for a servant that is deactivated. -/
  | waits
  deriving DecidableEq

/-- The calls. -/
inductive RetentionCall (S : Type)
  | createReference (priority : ℤ)
  | createReferenceWithId (id : ObjectId) (priority : ℤ)
  | activateObject (servant : S) (priority : ℤ)
  | activateObjectWithId (id : ObjectId) (servant : S) (priority : ℤ)
  | deactivateObject (id : ObjectId)

namespace Retention

open ActiveObjectMap

variable {S : Type} (c : MapPolicies)

/-- A new POA. -/
def empty : Retention S := ⟨ActiveObjectMap.empty, fun _ => 1⟩

def withMap (s : Retention S) (map : ActiveObjectMap S) : Retention S := { s with map }

/-! ### Lookups -/

/-- **`find_entry_using_user_id`**: the entry, if it returns 0. -/
def findEntryUsingUserId (id : ObjectId) (m : ActiveObjectMap S) : Option (Option ℕ) :=
  (m.findUserId c id).bind fun
    | none => some none
    | some p => (m.entries p).map fun e => if e.deactivated then none else some p

/-- **`is_user_id_in_map`**: why an object cannot be activated, if it cannot. -/
def isUserIdInMap (id : ObjectId) (priority : ℤ) (m : ActiveObjectMap S) :
    Option (Option RetentionAnswer) :=
  (m.findUserId c id).bind fun
    | none => some none
    | some p => (m.entries p).map fun e =>
      match e.servant with
      | none => if e.priority ≠ priority then some .badInvOrder else none
      | some _ => if e.deactivated then some .waits else some .objectAlreadyActive

variable [DecidableEq S]

/-- **`is_servant_activation_allowed`**: why a servant cannot be activated, if it cannot. -/
def isServantActivationAllowed (servant : S) (m : ActiveObjectMap S) :
    Option (Option RetentionAnswer) :=
  if c.uniqueId then
    match m.servantMap servant with
    | none => some none
    | some p => (m.entries p).map fun e =>
      if e.deactivated then some .waits else some .servantAlreadyActive
  else some none

/-! ### Calls -/

/-- The end of a call that has bound an entry or has made an id. -/
def answered (s : Retention S) :
    ActiveObjectMap S × ℤ × Option ObjectId → Retention S × RetentionAnswer
  | (m, r, id) => (s.withMap m, if r = 0 then .returned id else .objAdapter)

def createReference (priority : ℤ) (supply : Supply) (s : Retention S) :
    Option (Retention S × RetentionAnswer) :=
  if c.userId then some (s, .wrongPolicy)
  else (s.map.bindUsingSystemIdReturningSystemId c none priority supply).map (answered s)

def createReferenceWithId (id : ObjectId) (priority : ℤ) (supply : Supply) (s : Retention S) :
    Option (Retention S × RetentionAnswer) :=
  (s.map.findSystemIdUsingUserId c id priority supply).map (answered s)

def activateObject (servant : S) (priority : ℤ) (supply : Supply) (s : Retention S) :
    Option (Retention S × RetentionAnswer) :=
  if c.userId then some (s, .wrongPolicy)
  else
    (isServantActivationAllowed c servant s.map).bind fun
      | some a => some (s, a)
      | none =>
        (s.map.bindUsingSystemIdReturningUserId c (some servant) priority supply).map (answered s)

def activateObjectWithId (id : ObjectId) (servant : S) (priority : ℤ) (supply : Supply)
    (s : Retention S) : Option (Retention S × RetentionAnswer) :=
  (isUserIdInMap c id priority s.map).bind fun
    | some a => some (s, a)
    | none =>
      (isServantActivationAllowed c servant s.map).bind fun
        | some a => some (s, a)
        | none => (s.map.bindUsingUserId c (some servant) id priority supply).map (answered s)

/-- **`cleanup_servant`** of a request processing strategy, behind its call of the servant or the
servant activator. -/
def cleanupServant (id : ObjectId) (s : Retention S) : Option (Retention S × RetentionAnswer) :=
  (s.map.unbindUsingUserId c id).map fun (m, r, _) =>
    (s.withMap m, if r = 0 then .returned none else .objAdapter)

/-- **`deactivate_map_entry`.** -/
def deactivateMapEntry (p : ℕ) (s : Retention S) : Option (Retention S × RetentionAnswer) :=
  (s.map.entries p).bind fun e =>
    let newCount := s.referenceCount p - 1
    let s := { s with referenceCount := Function.update s.referenceCount p newCount }
    if newCount = 0 then s.cleanupServant c e.userId
    else
      (s.map.modify p fun e => { e with deactivated := true }).map fun m =>
        (s.withMap m, .returned none)

/-- **`deactivate_object`.** -/
def deactivateObject (id : ObjectId) (s : Retention S) : Option (Retention S × RetentionAnswer) :=
  (findEntryUsingUserId c id s.map).bind fun
    | none => some (s, .objectNotActive)
    | some p => s.deactivateMapEntry c p

/-- **One call**, with what it is given. -/
def call (s : Retention S) : RetentionCall S × Supply → Option (Retention S × RetentionAnswer)
  | (.createReference priority, supply) => s.createReference c priority supply
  | (.createReferenceWithId id priority, supply) => s.createReferenceWithId c id priority supply
  | (.activateObject servant priority, supply) => s.activateObject c servant priority supply
  | (.activateObjectWithId id servant priority, supply) =>
    s.activateObjectWithId c id servant priority supply
  | (.deactivateObject id, _) => s.deactivateObject c id

/-! ### What is active -/

/-- **The servants of the active objects**, behind a call that has been answered. -/
def served (active : ObjectId → Option S) : RetentionCall S → RetentionAnswer → ObjectId → Option S
  | .activateObject servant _, .returned (some id) => Function.update active id (some servant)
  | .activateObjectWithId id servant _, .returned _ => Function.update active id (some servant)
  | .deactivateObject id, .returned _ => Function.update active id none
  | _, _ => active

/-- A call, with the active objects beside the maps. -/
def step (s : Retention S × (ObjectId → Option S)) (op : RetentionCall S × Supply) :
    Option ((Retention S × (ObjectId → Option S)) × RetentionAnswer) :=
  (s.1.call c op).map fun (s', a) => ((s', served s.2 op.1 a), a)

/-- **`deactivate_object` is right** about an id: it raises `ObjectNotActive`, and changes nothing,
exactly when no servant is active under the id. -/
def DeactivatesRight (s : Retention S) (active : ObjectId → Option S) (id : ObjectId) : Prop :=
  s.deactivateObject c id = some (s, .objectNotActive) ↔ active id = none

omit [DecidableEq S] in
/-- **An id whose entry has a servant**, if there is an entry: `user_id_map_` can look the id up, and
has it for no other. -/
def EntryServed (s : Retention S) (id : ObjectId) : Prop :=
  ∃ key, userIdKey c id = some key ∧ ∀ p ∈ s.map.userIdMap key, ∀ e ∈ s.map.entries p,
    e.servant.isSome ∧ e.userId = id

/-- **What a call is given**: ids that the POA could have made, and memory for the servant and the
id of an object that is activated. -/
def Granted : RetentionCall S × Supply → Prop
  | (.createReference _, _) => True
  | (.createReferenceWithId id _, _) => userIdKey c id = some id
  | (.activateObject .., supply) => supply.answerMemory
  | (.activateObjectWithId id .., supply) => userIdKey c id = some id ∧ supply.servantMemory
  | (.deactivateObject id, _) => userIdKey c id = some id

omit [DecidableEq S] in
instance : (op : RetentionCall S × Supply) → Decidable (Granted c op)
  | (.createReference _, _) => inferInstanceAs (Decidable True)
  | (.createReferenceWithId .., _) => inferInstanceAs (Decidable (_ = _))
  | (.activateObject .., _) => inferInstanceAs (Decidable (_ = _))
  | (.activateObjectWithId .., _) => inferInstanceAs (Decidable (_ ∧ _))
  | (.deactivateObject _, _) => inferInstanceAs (Decidable (_ = _))

/-! ### The maps and the active objects -/

/-- **The maps have the servants of the active objects**, and no entry has been deactivated. -/
structure Agrees (s : Retention S × (ObjectId → Option S)) : Prop where
  consistent : Consistent c s.1.map
  count : ∀ p, (s.1.map.entries p).isSome ∨ s.1.map.nextEntry ≤ p → s.1.referenceCount p = 1
  served : ∀ p e, s.1.map.entries p = some e → s.2 e.userId = e.servant
  unserved : ∀ id, s.1.map.userIdMap id = none → s.2 id = none

variable {c} {s : Retention S} {active : ObjectId → Option S} {m : ActiveObjectMap S} {p : ℕ}
  {e : ObjectEntry S} {supply : Supply} {priority : ℤ}

omit [DecidableEq S] in
theorem agrees_empty : Agrees c ((empty : Retention S), fun _ => none) :=
  ⟨consistent_empty, fun _ _ => rfl, nofun, fun _ _ => rfl⟩

omit [DecidableEq S] in
theorem Agrees.of_sameMaps (h : Agrees c (s, active)) (hs : SameMaps s.map m) :
    Agrees c (s.withMap m, active) := by
  refine ⟨h.consistent.of_sameMaps hs, fun p hp => h.count p ?_, fun p e he => ?_, fun id hid => ?_⟩
  · refine hp.imp (fun hsome => ?_) hs.nextEntry.trans
    rw [← hs.entries]
    exact hsome
  · refine h.served p e ?_
    rw [← hs.entries]
    exact he
  · refine h.unserved id ?_
    rw [← hs.userIdMap]
    exact hid

omit [DecidableEq S] in
/-- Two entries have two ids. -/
theorem userId_ne (h : Consistent c m) {q : ℕ} {e' : ObjectEntry S} (he' : m.entries q = some e')
    (he : m.entries p = some e) (hqp : q ≠ p) : e'.userId ≠ e.userId := by
  intro heq
  have hbound := h.userIds.eq_some he' rfl
  rw [heq, h.userIds.eq_some he rfl] at hbound
  exact hqp (Option.some.inj hbound).symm

/-- **A new entry**, whose servant is that of an active object, or which has none. -/
theorem Agrees.inserted (h : Agrees c (s, active)) (hwf : e.WellFormed c)
    (hfree : KeysFree c e s.map) (counter : ℕ) :
    Agrees c (s.withMap (s.map.inserted c e counter),
      Function.update active e.userId e.servant) := by
  refine ⟨h.consistent.inserted hfree hwf counter, fun p hp => ?_, fun p e' he' => ?_,
    fun id hid => ?_⟩
  · by_cases hpn : p = s.map.nextEntry
    · exact h.count p (.inr hpn.ge)
    · refine h.count p (hp.imp (fun hsome => ?_) (Nat.le_succ _).trans)
      have hentry : (s.map.inserted c e counter).entries p = s.map.entries p :=
        Function.update_of_ne hpn _ _
      rw [← hentry]
      exact hsome
  · have hupdate : Function.update s.map.entries s.map.nextEntry (some e) p = some e' := he'
    rw [Function.update_apply] at hupdate
    split_ifs at hupdate with hpn
    · cases hupdate
      exact Function.update_self _ _ _
    · have hne : e'.userId ≠ e.userId := fun heq => by
        have hbound := h.consistent.userIds.eq_some hupdate rfl
        rw [heq, hfree.userId] at hbound
        cases hbound
      exact (Function.update_of_ne hne _ _).trans (h.served p e' hupdate)
  · have hupdate : Function.update s.map.userIdMap e.userId (some s.map.nextEntry) id = none := hid
    rw [Function.update_apply] at hupdate
    split_ifs at hupdate with hne
    exact (Function.update_of_ne hne _ _).trans (h.unserved id hupdate)

/-- An entry that has no servant changes no active object. -/
theorem Agrees.inserted_none (h : Agrees c (s, active)) (hwf : e.WellFormed c)
    (hfree : KeysFree c e s.map) (hnone : e.servant = none) (counter : ℕ) :
    Agrees c (s.withMap (s.map.inserted c e counter), active) := by
  have hins := h.inserted hwf hfree counter
  have hsame : Function.update active e.userId e.servant = active := by
    rw [hnone, ← h.unserved e.userId hfree.userId, Function.update_eq_self]
  rwa [hsame] at hins

/-- **An entry is given a servant.** -/
theorem Agrees.given (h : Agrees c (s, active)) (he : s.map.entries p = some e) {v : S}
    (hfree : c.uniqueId → s.map.servantMap v = none ∧ e.servant = none) :
    Agrees c (s.withMap (s.map.given c p e v), Function.update active e.userId (some v)) := by
  refine ⟨h.consistent.given he hfree, fun q hq => h.count q (hq.imp_left fun hsome => ?_),
    fun q e' he' => ?_, fun id hid => ?_⟩
  · by_cases hqp : q = p
    · rw [hqp]
      exact he ▸ rfl
    · have hentry : (s.map.given c p e v).entries q = s.map.entries q :=
        Function.update_of_ne hqp _ _
      rw [← hentry]
      exact hsome
  · have hupdate : Function.update s.map.entries p (some { e with servant := some v }) q =
        some e' := he'
    rw [Function.update_apply] at hupdate
    split_ifs at hupdate with hqp
    · cases hupdate
      exact Function.update_self _ _ _
    · have hne := userId_ne h.consistent hupdate he hqp
      exact (Function.update_of_ne hne _ _).trans (h.served q e' hupdate)
  · have hne : id ≠ e.userId := fun heq => by
      have hbound := h.consistent.userIds.eq_some he rfl
      have hnone : s.map.userIdMap id = none := hid
      rw [← heq, hnone] at hbound
      cases hbound
    exact (Function.update_of_ne hne _ _).trans (h.unserved id hid)

/-- **An entry is removed**, with the active object of its id. -/
theorem Agrees.erased (h : Agrees c (s, active)) (he : s.map.entries p = some e) (n : BitVec 16) :
    Agrees c (⟨s.map.erased c p e, Function.update s.referenceCount p n⟩,
      Function.update active e.userId none) := by
  have hlt : p < s.map.nextEntry := by
    by_contra hle
    rw [h.consistent.fresh p (not_lt.mp hle)] at he
    cases he
  have hentries : (s.map.erased c p e).entries = Function.update s.map.entries p none := rfl
  refine ⟨h.consistent.erased he, fun q hq => ?_, fun q e' he' => ?_, fun id hid => ?_⟩
  · have hne : q ≠ p := by
      rintro rfl
      rcases hq with hsome | hle
      · rw [hentries, Function.update_self] at hsome
        cases hsome
      · exact absurd hlt (not_lt.mpr hle)
    refine (Function.update_of_ne hne _ _).trans (h.count q (hq.imp_left fun hsome => ?_))
    rwa [hentries, Function.update_of_ne hne] at hsome
  · have hupdate : Function.update s.map.entries p none q = some e' := he'
    rw [Function.update_apply] at hupdate
    split_ifs at hupdate with hqp
    have hne := userId_ne h.consistent hupdate he hqp
    exact (Function.update_of_ne hne _ _).trans (h.served q e' hupdate)
  · change Function.update active e.userId none id = none
    rw [Function.update_apply]
    split_ifs with heq
    · rfl
    · refine h.unserved id ?_
      have hupdate : Function.update s.map.userIdMap e.userId none id = none := hid
      rwa [Function.update_of_ne heq] at hupdate

/-! ### One call -/

omit [DecidableEq S] in
/-- The answer of an id is one of the entry, or none. -/
theorem answerId_cases (id : ObjectEntry S → ObjectId) (he : m.entries p = some e) (supply : Supply) :
    answerId id supply (m, p, 0) =
      some (m, if supply.answerMemory then (0, some (id e)) else (-1, none)) := by
  rw [answerId, if_pos rfl, he, Option.map_some]
  split_ifs
  · rfl
  · rfl

omit [DecidableEq S] in
theorem answerId_of_ne (id : ObjectEntry S → ObjectId) {r : ℤ} (hr : r ≠ 0) (supply : Supply) :
    answerId id supply (m, p, r) = some (m, r, none) := if_neg hr

/-- **`bind_using_system_id`** makes a new entry, or changes nothing. -/
theorem assignmentBind_cases (h : Consistent c m) (servant : Option S) (priority : ℤ)
    (supply : Supply) :
    (∃ e counter, e.WellFormed c ∧ KeysFree c e m ∧ e.servant = servant ∧
      m.assignmentBind c servant priority supply =
        some (m.inserted c e counter, m.nextEntry, 0)) ∨
    ∃ m' r, r ≠ 0 ∧ SameMaps m m' ∧
      m.assignmentBind c servant priority supply = some (m', m.nextEntry, r) := by
  rw [assignmentBind]
  split_ifs
  · exact .inr ⟨m, -1, by decide, .refl m, rfl⟩
  · exact h.bindCreated_cases servant priority supply
  · exact .inr ⟨m, -1, by decide, .refl m, rfl⟩

/-- **`create_reference`** makes an entry without a servant at most. -/
theorem Agrees.createReference (h : Agrees c (s, active)) (priority : ℤ) (supply : Supply) :
    ∃ s' a, s.createReference c priority supply = some (s', a) ∧ Agrees c (s', active) := by
  have hc : Consistent c s.map := h.consistent
  rw [Retention.createReference]
  by_cases huser : c.userId
  · rw [if_pos huser]
    exact ⟨s, _, rfl, h⟩
  · rw [if_neg huser, bindUsingSystemIdReturningSystemId]
    by_cases hcreate : (none : Option S).isNone && !c.usingActiveMaps
    · have hsame : SameMaps s.map s.map.generateKey.1 := ⟨rfl, rfl, rfl, rfl, le_rfl⟩
      rw [if_pos hcreate]
      dsimp only
      split_ifs
      · exact ⟨_, _, rfl, h.of_sameMaps hsame⟩
      · exact ⟨_, _, rfl, h.of_sameMaps hsame⟩
    · rw [if_neg hcreate]
      rcases assignmentBind_cases hc none priority supply with
        ⟨e, counter, hwf, hfree, hnone, heq⟩ | ⟨m, r, hr, hsame, heq⟩
      · rw [heq, Option.bind_some, answerId_cases _ (Function.update_self _ _ _)]
        exact ⟨_, _, rfl, h.inserted_none hwf hfree hnone counter⟩
      · rw [heq, Option.bind_some, answerId_of_ne _ hr]
        exact ⟨_, _, rfl, h.of_sameMaps hsame⟩

/-- **`create_reference_with_id`.** -/
theorem Agrees.createReferenceWithId (h : Agrees c (s, active)) {id : ObjectId}
    (hid : userIdKey c id = some id) (priority : ℤ) (supply : Supply) :
    ∃ s' a, s.createReferenceWithId c id priority supply = some (s', a) ∧ Agrees c (s', active) := by
  have hc : Consistent c s.map := h.consistent
  rw [Retention.createReferenceWithId, findSystemIdUsingUserId]
  split_ifs with hmaps hmemory
  · exact ⟨s, _, rfl, h⟩
  · exact ⟨s, _, rfl, h⟩
  · rw [strategyBind, findUserId, hid, Option.map_some, Option.bind_some]
    rcases hp : s.map.userIdMap id with _ | p
    · dsimp only
      split_ifs with hentry
      · rcases hc.bindNew_cases none id priority supply with
          ⟨e, hwf, hfree, -, hnone, heq⟩ | ⟨m, r, hr, hsame, heq⟩
        · rw [heq, Option.map_some, Option.bind_some, answerId_cases _ (Function.update_self _ _ _)]
          exact ⟨_, _, rfl, h.inserted_none hwf hfree hnone _⟩
        · rw [heq, Option.map_some, Option.bind_some, answerId_of_ne _ hr]
          exact ⟨_, _, rfl, h.of_sameMaps hsame⟩
      · rw [Option.bind_some, answerId_of_ne _ (by decide)]
        exact ⟨_, _, rfl, h⟩
    · obtain ⟨e, he, -⟩ := hc.exists_entry hp
      dsimp only
      rw [ActiveObjectMap.bindAgain, Option.map_some, Option.bind_some, answerId_cases _ he]
      exact ⟨_, _, rfl, h⟩

omit [DecidableEq S] in
/-- A servant that is allowed is not in `servant_map_`. -/
theorem isServantActivationAllowed_cases (h : Consistent c m) (v : S) :
    (∃ a, isServantActivationAllowed c v m = some (some a) ∧ ∀ id, a ≠ .returned id) ∨
      isServantActivationAllowed c v m = some none ∧ (c.uniqueId → m.servantMap v = none) := by
  rw [isServantActivationAllowed]
  split_ifs with hunique
  · rcases hp : m.servantMap v with _ | p
    · exact .inr ⟨rfl, fun _ => rfl⟩
    · obtain ⟨e, he, -⟩ := (h.servants v p).mp hp
      dsimp only
      rw [he, Option.map_some]
      split_ifs
      · exact .inl ⟨.waits, rfl, nofun⟩
      · exact .inl ⟨.servantAlreadyActive, rfl, nofun⟩
  · exact .inr ⟨rfl, fun hc => absurd hc hunique⟩

omit [DecidableEq S] in
/-- An answer that is no success changes no active object. -/
theorem served_of_ne (active : ObjectId → Option S) (op : RetentionCall S) {a : RetentionAnswer}
    (ha : ∀ id, a ≠ .returned id) : served active op a = active := by
  rcases op with _ | _ | _ | _ | _ <;> rcases a with id | _ | _ | _ | _ | _ | _ | _ <;>
    first
    | rfl
    | exact absurd rfl (ha id)

/-- **`activate_object`.** -/
theorem Agrees.activateObject (h : Agrees c (s, active)) (v : S) (priority : ℤ) {supply : Supply}
    (hmemory : supply.answerMemory) :
    ∃ s' a, s.activateObject c v priority supply = some (s', a) ∧
      Agrees c (s', Retention.served active (.activateObject v priority) a) := by
  have hc : Consistent c s.map := h.consistent
  rw [Retention.activateObject]
  by_cases huser : c.userId
  · rw [if_pos huser]
    exact ⟨s, _, rfl, h⟩
  · rw [if_neg huser]
    rcases isServantActivationAllowed_cases hc v with ⟨a, heq, ha⟩ | ⟨heq, hfree⟩
    · rw [heq, Option.bind_some]
      refine ⟨s, a, rfl, ?_⟩
      rwa [served_of_ne _ _ ha]
    · rw [heq, Option.bind_some, bindUsingSystemIdReturningUserId]
      rcases assignmentBind_cases hc (some v) priority supply with
        ⟨e, counter, hwf, hkeys, hservant, heq⟩ | ⟨m, r, hr, hsame, heq⟩
      · rw [heq, Option.bind_some, answerId_cases _ (Function.update_self _ _ _), if_pos hmemory]
        refine ⟨_, _, rfl, ?_⟩
        have hins := h.inserted hwf hkeys counter
        rwa [hservant] at hins
      · rw [heq, Option.bind_some, answerId_of_ne _ hr]
        refine ⟨_, _, rfl, ?_⟩
        rw [if_neg hr]
        exact h.of_sameMaps hsame

/-- **`activate_object_with_id`.** -/
theorem Agrees.activateObjectWithId (h : Agrees c (s, active)) {id : ObjectId}
    (hid : userIdKey c id = some id) (v : S) (priority : ℤ) {supply : Supply}
    (hmemory : supply.servantMemory) :
    ∃ s' a, s.activateObjectWithId c id v priority supply = some (s', a) ∧
      Agrees c (s', Retention.served active (.activateObjectWithId id v priority) a) := by
  have hc : Consistent c s.map := h.consistent
  have hfind : s.map.findUserId c id = some (s.map.userIdMap id) := by
    rw [findUserId, hid]
    rfl
  rw [Retention.activateObjectWithId, isUserIdInMap, hfind, Option.bind_some]
  rcases hp : s.map.userIdMap id with _ | p
  · rw [Option.bind_some]
    rcases isServantActivationAllowed_cases hc v with ⟨a, heq, ha⟩ | ⟨heq, hfree⟩
    · rw [heq, Option.bind_some]
      refine ⟨s, a, rfl, ?_⟩
      rwa [served_of_ne _ _ ha]
    · rw [heq, Option.bind_some, bindUsingUserId, strategyBind, hfind, Option.bind_some, hp]
      dsimp only
      split_ifs with hentry
      · rcases hc.bindNew_cases (some v) id priority supply with
          ⟨e, hwf, hkeys, huser, hservant, heq⟩ | ⟨m, r, hr, hsame, heq⟩
        · rw [heq]
          refine ⟨_, _, rfl, ?_⟩
          have hins := h.inserted hwf hkeys s.map.counter
          rwa [huser, hservant] at hins
        · rw [heq]
          refine ⟨_, _, rfl, ?_⟩
          rw [if_neg hr]
          exact h.of_sameMaps hsame
      · exact ⟨_, _, rfl, h⟩
  · obtain ⟨e, he, huser⟩ := hc.exists_entry hp
    dsimp only
    rw [he, Option.map_some]
    rcases hservant : e.servant with _ | w
    · dsimp only
      split_ifs with hpriority
      · exact ⟨s, _, rfl, h⟩
      · rw [Option.bind_some]
        rcases isServantActivationAllowed_cases hc v with ⟨a, heq, ha⟩ | ⟨heq, hfree⟩
        · rw [heq, Option.bind_some]
          refine ⟨s, a, rfl, ?_⟩
          rwa [served_of_ne _ _ ha]
        · rw [heq, Option.bind_some, bindUsingUserId, strategyBind, hfind, Option.bind_some, hp]
          dsimp only
          rw [bindAgain_eq he fun hunique => ⟨hfree hunique, hmemory⟩]
          refine ⟨_, _, rfl, ?_⟩
          have hgiven := h.given he fun hunique => ⟨hfree hunique, hservant⟩
          rwa [huser] at hgiven
    · dsimp only
      rw [(hc.wellFormed p e he).active]
      exact ⟨s, _, rfl, h⟩

/-- **`deactivate_object`** of an id with an entry removes the entry. -/
theorem Agrees.deactivateObject_eq (h : Agrees c (s, active)) {id : ObjectId}
    (hid : userIdKey c id = some e.userId) (he : s.map.entries p = some e) :
    s.deactivateObject c id =
      some (⟨s.map.erased c p e, Function.update s.referenceCount p 0⟩, .returned none) := by
  have hc : Consistent c s.map := h.consistent
  have hwf := hc.wellFormed p e he
  have hentry : findEntryUsingUserId c id s.map = some (some p) := by
    rw [findEntryUsingUserId, findUserId, hid, Option.map_some, hc.userIds.eq_some he rfl,
      Option.bind_some]
    dsimp only
    rw [he, Option.map_some, hwf.active]
    rfl
  have hcount : s.referenceCount p = 1 := h.count p (.inl (he ▸ rfl))
  have hunbind := hc.strategyUnbind_eq hwf.userId he
  rw [deactivateObject, hentry, Option.bind_some]
  dsimp only
  rw [deactivateMapEntry, he, Option.bind_some, hcount]
  dsimp only
  rw [if_pos (by decide), cleanupServant, unbindUsingUserId]
  dsimp only
  rw [hunbind]
  rfl

omit [DecidableEq S] in
/-- An id that has no entry. -/
theorem findEntryUsingUserId_of_none {id key : ObjectId} (hid : userIdKey c id = some key)
    (hp : m.userIdMap key = none) : findEntryUsingUserId c id m = some none := by
  rw [findEntryUsingUserId, findUserId, hid, Option.map_some, hp]
  rfl

theorem Agrees.deactivateObject (h : Agrees c (s, active)) {id : ObjectId}
    (hid : userIdKey c id = some id) :
    ∃ s' a, s.deactivateObject c id = some (s', a) ∧
      Agrees c (s', Retention.served active (.deactivateObject id) a) := by
  rcases hp : s.map.userIdMap id with _ | p
  · rw [Retention.deactivateObject, findEntryUsingUserId_of_none hid hp]
    exact ⟨s, _, rfl, h⟩
  · have hc : Consistent c s.map := h.consistent
    obtain ⟨e, he, rfl⟩ := hc.exists_entry hp
    exact ⟨_, _, h.deactivateObject_eq hid he, h.erased he 0⟩

/-- **Every call** that is given what it needs. -/
theorem Agrees.step {s : Retention S × (ObjectId → Option S)} (h : Agrees c s)
    {op : RetentionCall S × Supply} (hop : Granted c op) :
    ∃ s' a, Retention.step c s op = some (s', a) ∧ Agrees c s' := by
  obtain ⟨s, active⟩ := s
  have hcall : ∃ s' a, s.call c op = some (s', a) ∧
      Agrees c (s', Retention.served active op.1 a) := by
    rcases op with ⟨_ | _ | _ | _ | _, supply⟩
    · obtain ⟨s', a, heq, hs'⟩ := h.createReference _ supply
      exact ⟨s', a, heq, hs'⟩
    · obtain ⟨s', a, heq, hs'⟩ := h.createReferenceWithId hop _ supply
      exact ⟨s', a, heq, hs'⟩
    · exact h.activateObject _ _ hop
    · exact h.activateObjectWithId hop.1 _ _ hop.2
    · exact h.deactivateObject hop
  obtain ⟨s', a, heq, hs'⟩ := hcall
  refine ⟨_, a, ?_, hs'⟩
  rw [Retention.step, heq]
  rfl

/-! ### Runs -/

omit [DecidableEq S] in
/-- The ids that are told apart from others. -/
theorem Agrees.active_eq_none (h : Agrees c (s, active)) {id : ObjectId}
    (hid : userIdKey c id ≠ some id) : active id = none := by
  have hc : Consistent c s.map := h.consistent
  refine h.unserved id ?_
  by_contra hp
  obtain ⟨p, hp⟩ := Option.ne_none_iff_exists'.mp hp
  obtain ⟨e, he, rfl⟩ := hc.exists_entry hp
  exact hid (hc.wellFormed p e he).userId

/-- **When `deactivate_object` is right.** -/
theorem Agrees.deactivatesRight_iff (h : Agrees c (s, active)) (id : ObjectId) :
    DeactivatesRight c s active id ↔ EntryServed c s id := by
  have hc : Consistent c s.map := h.consistent
  rw [DeactivatesRight, EntryServed]
  rcases hid : userIdKey c id with _ | key
  · have hnone : active id = none := h.active_eq_none (by rw [hid]; intro h; cases h)
    rw [Retention.deactivateObject, findEntryUsingUserId, findUserId, hid]
    refine iff_of_false (fun hiff => ?_) (by rintro ⟨key, hkey, -⟩; cases hkey)
    cases hiff.mpr hnone
  · rcases hp : s.map.userIdMap key with _ | p
    · have hnone : active id = none := by
        by_cases hkey : userIdKey c id = some id
        · rw [hid] at hkey
          cases hkey
          exact h.unserved _ hp
        · exact h.active_eq_none hkey
      rw [Retention.deactivateObject, findEntryUsingUserId_of_none hid hp]
      refine iff_of_true (iff_of_true rfl hnone) ⟨key, rfl, fun p hp' => ?_⟩
      rw [hp] at hp'
      cases hp'
    · obtain ⟨e, he, rfl⟩ := hc.exists_entry hp
      have hserved : active e.userId = e.servant := h.served p e he
      have hne : s.deactivateObject c id ≠ some (s, .objectNotActive) := by
        rw [h.deactivateObject_eq hid he]
        intro heq
        cases (Prod.ext_iff.mp (Option.some.inj heq)).2
      constructor
      · intro hiff
        refine ⟨_, rfl, fun q hq e' he' => ?_⟩
        rw [hp] at hq
        cases hq
        rw [he] at he'
        cases he'
        have hsome : active id ≠ none := fun hnone => hne (hiff.mpr hnone)
        have hkey : userIdKey c id = some id := by
          by_contra hkey
          exact hsome (h.active_eq_none hkey)
        rw [hid] at hkey
        rw [← Option.some.inj hkey, hserved] at hsome
        exact ⟨Option.isSome_iff_ne_none.mpr hsome, Option.some.inj hkey⟩
      · rintro ⟨key, hkey, hall⟩
        cases hkey
        obtain ⟨hsome, huser⟩ := hall p hp e he
        have hactive : active id = e.servant := huser ▸ hserved
        rw [hactive]
        refine iff_of_false hne fun hnone => ?_
        rw [hnone] at hsome
        cases hsome

section Example

/-- A reference is made for an id, and an object is activated under another. -/
def referenceAndObject : List (RetentionCall ℕ × Supply) :=
  [(.createReferenceWithId [1] 0, supplyKey 1), (.activateObjectWithId [2] 7 0, supplyKey 2)]

end Example

end Retention

end AceTao
