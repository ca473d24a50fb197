import Mathlib.Data.Nat.Notation
import AceTao.Library.Buffer
import AceTao.Library.ByteImage

/-!
# The object keys of a POA: the code

A POA puts its own identification in front of an object id: the prefix of all keys, three flags, the
creation time if it is transient, its name if it is not the root, and in one case the length of the
name. `parse_key` takes a key apart again. The name it finds is not copied, and neither is the
creation time: they stay in the key.

A `CORBA::ULong` is a number, and its arithmetic is modulo 2³². A read outside a buffer and a write
outside a buffer have no answer. The sizes of the names and the ids that the maps make up depend on
the lookup strategies (`PoaConfig`).
-/

namespace AceTao.Poa

/-! ### Sizes -/

/-- The strategies for looking up a POA, or an object. -/
inductive Lookup
  | linear | dynamicHash | activeDemux
  deriving DecidableEq

/-- `ACE_Active_Map_Manager_Key::size`. -/
def activeKeySize : ℕ := 8

/-- The size of the counter that the other maps make their keys of. -/
def counterSize : ℕ := 4

/-- **`Active_Object_Map_Creation_Parameters`.** -/
structure PoaConfig where
  transientPoas : Lookup
  activeHintInPoaNames : Bool
  systemIds : Lookup
  allowReactivationOfSystemIds : Bool
  activeHintInIds : Bool

/-- **`transient_poa_name_size`.** -/
def PoaConfig.transientPoaNameSize (c : PoaConfig) : ℕ :=
  match c.transientPoas with
  | .linear => counterSize
  | .dynamicHash => counterSize
  | .activeDemux => activeKeySize

/-- **`system_id_size`.** -/
def PoaConfig.systemIdSize (c : PoaConfig) : ℕ :=
  if c.allowReactivationOfSystemIds then
    counterSize + if c.activeHintInIds then activeKeySize else 0
  else
    match c.systemIds with
    | .linear => counterSize
    | .dynamicHash => counterSize
    | .activeDemux => activeKeySize

/-! ### Making a key -/

/-- What a POA puts into its keys. The root POA is the one that has no parent. -/
structure PoaId where
  isRoot : Bool
  isPersistent : Bool
  isSystemId : Bool
  creationTime : List UInt8
  systemName : List UInt8

def objectKeyPrefix : List UInt8 := [20, 1, 15, 0]

/-- `'R'`, `'N'`. -/
def rootKeyType (isRoot : Bool) : UInt8 := if isRoot then 82 else 78

/-- `'S'`, `'U'`. -/
def systemIdKeyType (isSystemId : Bool) : UInt8 := if isSystemId then 83 else 85

/-- `'P'`, `'T'`. -/
def persistentKeyType (isPersistent : Bool) : UInt8 := if isPersistent then 80 else 84

def creationTimeLength : ℕ := 8

/-- `ACE_HTONL`: the bytes of a number in the order of the network. -/
def htonl (n : ℕ) : List UInt8 := (ByteImage.leBytes 4 n).reverse

/-- `ACE_NTOHL`. -/
def ntohl (bs : List UInt8) : ℕ := ByteImage.ofLeBytes bs.reverse

/-- One copy after the other into a buffer. -/
def copyAll (buffer : List UInt8) : ℕ → List (List UInt8) → Option (List UInt8)
  | _, [] => some buffer
  | startingAt, part :: parts =>
    match Buffer.storeAll buffer startingAt part with
    | none => none
    | some buffer => copyAll buffer (startingAt + part.length) parts

namespace PoaId

/-- `add_poa_name_length`. -/
def addPoaNameLength (poa : PoaId) : Bool := poa.isPersistent && !poa.isSystemId

/-- What `set_id` copies. -/
def parts (poa : PoaId) : List (List UInt8) :=
  [objectKeyPrefix, [rootKeyType poa.isRoot], [systemIdKeyType poa.isSystemId],
    [persistentKeyType poa.isPersistent], if poa.isPersistent then [] else poa.creationTime,
    if poa.addPoaNameLength then htonl poa.systemName.length else [],
    if poa.isRoot then [] else poa.systemName]

/-- The `key_length` of a lifespan strategy. -/
def keyLength (poa : PoaId) : ℕ := if poa.isPersistent then 1 else 1 + creationTimeLength

/-- The size of the buffer that `set_id` allocates. -/
def bufferSize (poa : PoaId) : ℕ :=
  (4 + 1 + 1 + poa.keyLength + ((if poa.isRoot then 0 else poa.systemName.length) +
    if poa.addPoaNameLength then 4 else 0)) % 2 ^ 32

/-- **`set_id`.** -/
def setId (poa : PoaId) : Option (List UInt8) :=
  copyAll (List.replicate poa.bufferSize 0) 0 poa.parts

/-- **`create_object_key`.** -/
def createObjectKey (poa : PoaId) (id : List UInt8) : Option (List UInt8) :=
  poa.setId.bind fun poaId =>
    copyAll (List.replicate ((poaId.length + id.length) % 2 ^ 32) 0) 0 [poaId, id]

end PoaId

/-! ### Parsing a key -/

/-- What `parse_key` returns by reference: of the creation time and the name, the places in the key
where they start. -/
structure ParsedKey where
  isRoot : Bool
  isPersistent : Bool
  isSystemId : Bool
  creationTimeAt : Option ℕ
  poaNameAt : ℕ
  poaNameSize : ℕ
  systemIdAt : ℕ
  systemId : List UInt8

/-- A `CORBA::ULong` minus another. -/
def subULong (a b : ℕ) : ℕ := (a + (2 ^ 32 - b % 2 ^ 32)) % 2 ^ 32

/-- Octets read from a buffer. -/
def readOctets (buffer : List UInt8) (startingAt n : ℕ) : Option (List UInt8) :=
  if n = 0 ∨ startingAt + n ≤ buffer.length then some ((buffer.drop startingAt).take n) else none

/-- Whether a flag of a key is set, if the octet is one of the flag's two. -/
def flag (char : Bool → UInt8) (octet : UInt8) : Option Bool :=
  if octet = char true then some true
  else if octet = char false then some false
  else none

/-- The octets of a key, 4 of which are the prefix. -/
def flagsAt : ℕ := 4

/-- The place behind the flags and, if the key has one, the creation time. -/
def behindLifespan (isPersistent : Bool) : ℕ :=
  flagsAt + 3 + if isPersistent then 0 else creationTimeLength

/-- The size of the name, as `parse_key` computes it. -/
def poaNameSize (c : PoaConfig) (key : List UInt8) (isPersistent isSystemId : Bool) : Option ℕ :=
  if !isPersistent then some c.transientPoaNameSize
  else if isSystemId then
    some (subULong (subULong key.length (behindLifespan isPersistent)) c.systemIdSize)
  else (readOctets key (behindLifespan isPersistent) 4).map ntohl

/-- The part of **`parse_key`** behind the flags. -/
def parseParts (c : PoaConfig) (key : List UInt8) (isRoot isSystemId isPersistent : Bool) :
    Option ParsedKey :=
  match poaNameSize c key isPersistent isSystemId with
  | none => none
  | some poaNameSize =>
    let poaNameAt := behindLifespan isPersistent + if isPersistent && !isSystemId then 4 else 0
    let systemIdAt := if isRoot then poaNameAt else (poaNameAt + poaNameSize) % 2 ^ 32
    (readOctets key systemIdAt (subULong key.length systemIdAt)).map fun systemId =>
      { isRoot := isRoot
        isPersistent := isPersistent
        isSystemId := isSystemId
        creationTimeAt := if isPersistent then none else some (flagsAt + 3)
        poaNameAt := poaNameAt
        poaNameSize := poaNameSize
        systemIdAt := systemIdAt
        systemId := systemId }

/-- A flag is checked: another octet than its two makes the key incorrect. -/
def checkFlag (key : List UInt8) (startingAt : ℕ) (char : Bool → UInt8)
    (rest : Bool → Option (Option ParsedKey)) : Option (Option ParsedKey) :=
  match key[startingAt]? with
  | none => none
  | some octet =>
    match flag char octet with
    | none => some none
    | some b => rest b

/-- **`parse_key`**, which returns `none` where the code returns `-1`. -/
def parseKey (c : PoaConfig) (key : List UInt8) : Option (Option ParsedKey) :=
  checkFlag key flagsAt rootKeyType fun isRoot =>
    checkFlag key (flagsAt + 1) systemIdKeyType fun isSystemId =>
      checkFlag key (flagsAt + 2) persistentKeyType fun isPersistent =>
        (parseParts c key isRoot isSystemId isPersistent).map some

end AceTao.Poa

/-!
## Object keys are taken apart as they were put together

A key is the parts of the identification of the POA and the object id, one after the other
(`Poa.PoaId.createObjectKey_eq_some`), unless it is too long for its length to be a `CORBA::ULong`
(`Poa.PoaId.createObjectKey_eq_none`). `parse_key` finds the same places at which one part ends and
the next one begins (`Poa.PoaId.keyRoundTrip_iff`).
-/

namespace AceTao.Poa

/-! ### Copying -/

variable {buffer done : List UInt8} {parts : List (List UInt8)}

theorem copyAll_of_fits (h : done <+: buffer)
    (hlen : done.length + parts.flatten.length = buffer.length) :
    copyAll buffer done.length parts = some (done ++ parts.flatten) := by
  induction parts generalizing buffer done with
  | nil =>
    rw [List.flatten_nil, List.length_nil, Nat.add_zero] at hlen
    rw [copyAll, List.flatten_nil, List.append_nil, h.eq_of_length hlen]
  | cons part parts ih =>
    rw [List.flatten_cons, List.length_append] at hlen
    obtain ⟨buffer', hstore, hdone, hlen'⟩ :=
      @Buffer.storeAll_append _ _ _ part h (by omega)
    have hrest := ih hdone (by rw [List.length_append]; omega)
    rw [List.length_append] at hrest
    rw [copyAll, hstore, List.flatten_cons, ← List.append_assoc]
    exact hrest

theorem copyAll_of_not_fits (h : done <+: buffer)
    (hlen : buffer.length < done.length + parts.flatten.length) :
    copyAll buffer done.length parts = none := by
  induction parts generalizing buffer done with
  | nil =>
    rw [List.flatten_nil, List.length_nil, Nat.add_zero] at hlen
    exact absurd h.length_le (Nat.not_le.mpr hlen)
  | cons part parts ih =>
    rw [List.flatten_cons, List.length_append] at hlen
    rw [copyAll]
    rcases Nat.lt_or_ge buffer.length (done.length + part.length) with hlt | hge
    · rw [Buffer.storeAll, if_neg (Nat.not_le.mpr hlt)]
    · obtain ⟨buffer', hstore, hdone, hlen'⟩ := @Buffer.storeAll_append _ _ _ part h hge
      have hrest := ih hdone (by rw [List.length_append]; omega)
      rw [List.length_append] at hrest
      rw [hstore]
      exact hrest


namespace PoaId

variable {poa : PoaId} {c : PoaConfig} {id key : List UInt8}

/-- **The sizes of the parts**, which are those of the maps. -/
structure Sized (c : PoaConfig) (poa : PoaId) (id : List UInt8) : Prop where
  creationTime : poa.creationTime.length = creationTimeLength
  transientName : poa.isPersistent = false → poa.systemName.length = c.transientPoaNameSize
  systemId : poa.isPersistent = true → poa.isSystemId = true → id.length = c.systemIdSize

theorem length_htonl (n : ℕ) : (htonl n).length = 4 := by
  rw [htonl, List.length_reverse, ByteImage.length_leBytes]

/-- The length of the identification. -/
theorem length_parts (h : poa.creationTime.length = creationTimeLength) :
    poa.parts.flatten.length = 4 + 1 + 1 + poa.keyLength +
      ((if poa.isRoot then 0 else poa.systemName.length) + if poa.addPoaNameLength then 4 else 0) := by
  have hname : (if poa.isRoot then ([] : List UInt8) else poa.systemName).length =
      if poa.isRoot then 0 else poa.systemName.length := by
    split_ifs <;> rfl
  have hlen : (if poa.addPoaNameLength then htonl poa.systemName.length else []).length =
      if poa.addPoaNameLength then 4 else 0 := by
    split_ifs
    · exact length_htonl _
    · rfl
  have htime : 1 + (if poa.isPersistent then ([] : List UInt8) else poa.creationTime).length =
      poa.keyLength := by
    rw [keyLength]
    split_ifs
    · rfl
    · rw [h]
  rw [parts]
  simp only [List.flatten_cons, List.flatten_nil, List.length_append, List.length_cons,
    List.length_nil, hname, hlen, ← htime, objectKeyPrefix]
  omega

/-- The length of the key. -/
def keySize (poa : PoaId) (id : List UInt8) : ℕ := poa.parts.flatten.length + id.length

theorem createObjectKey_eq_some (htime : poa.creationTime.length = creationTimeLength)
    (h : poa.keySize id < 2 ^ 32) : poa.createObjectKey id = some (poa.parts.flatten ++ id) := by
  rw [keySize] at h
  have hsize : poa.bufferSize = poa.parts.flatten.length := by
    rw [bufferSize, ← length_parts htime]
    exact Nat.mod_eq_of_lt (by omega)
  have hset : poa.setId = some poa.parts.flatten := by
    refine @copyAll_of_fits _ [] poa.parts (List.nil_prefix) ?_
    rw [List.length_nil, Nat.zero_add, List.length_replicate, hsize]
  have hcopy : [poa.parts.flatten, id].flatten = poa.parts.flatten ++ id := by simp
  rw [createObjectKey, hset, Option.bind_some, ← hcopy]
  refine @copyAll_of_fits _ [] _ (List.nil_prefix) ?_
  rw [hcopy, List.length_nil, Nat.zero_add, List.length_replicate, List.length_append,
    Nat.mod_eq_of_lt h]

/-- **A key that is too long** is written behind the end of its buffer. -/
theorem createObjectKey_eq_none (htime : poa.creationTime.length = creationTimeLength)
    (h : 2 ^ 32 ≤ poa.keySize id) : poa.createObjectKey id = none := by
  have hmod (n : ℕ) : n % 2 ^ 32 < 2 ^ 32 := Nat.mod_lt _ (Nat.two_pow_pos 32)
  rw [createObjectKey]
  rcases Nat.lt_or_ge poa.parts.flatten.length (2 ^ 32) with hlt | hge
  · have hsize : poa.bufferSize = poa.parts.flatten.length := by
      rw [bufferSize, ← length_parts htime]
      exact Nat.mod_eq_of_lt hlt
    have hset : poa.setId = some poa.parts.flatten := by
      refine @copyAll_of_fits _ [] poa.parts (List.nil_prefix) ?_
      rw [List.length_nil, Nat.zero_add, List.length_replicate, hsize]
    rw [hset, Option.bind_some]
    refine @copyAll_of_not_fits _ [] _ (List.nil_prefix) ?_
    have hlen : [poa.parts.flatten, id].flatten.length = poa.keySize id := by
      rw [keySize]
      simp
    rw [List.length_nil, Nat.zero_add, List.length_replicate, hlen]
    exact (hmod _).trans_le h
  · have hset : poa.setId = none := by
      refine @copyAll_of_not_fits _ [] poa.parts (List.nil_prefix) ?_
      rw [List.length_nil, Nat.zero_add, List.length_replicate]
      exact (hmod _).trans_le hge
    rw [hset]
    rfl

end PoaId

/-! ### Parsing -/

theorem readOctets_append {before octets behind : List UInt8} {startingAt n : ℕ}
    (hat : startingAt = before.length) (hn : n = octets.length) :
    readOctets (before ++ octets ++ behind) startingAt n = some octets := by
  subst hat hn
  rw [readOctets, if_pos (Or.inr (by simp)), List.append_assoc, List.drop_left, List.take_left]

theorem subULong_eq {a b : ℕ} (h : b ≤ a) (ha : a < 2 ^ 32) : subULong a b = a - b := by
  rw [subULong]
  omega

theorem ntohl_htonl {n : ℕ} (h : n < 2 ^ 32) : ntohl (htonl n) = n := by
  rw [ntohl, htonl, List.reverse_reverse]
  exact ByteImage.ofLeBytes_leBytes h

theorem flag_rootKeyType (b : Bool) : flag rootKeyType (rootKeyType b) = some b := by
  cases b <;> rfl

theorem flag_systemIdKeyType (b : Bool) : flag systemIdKeyType (systemIdKeyType b) = some b := by
  cases b <;> rfl

theorem flag_persistentKeyType (b : Bool) :
    flag persistentKeyType (persistentKeyType b) = some b := by
  cases b <;> rfl

theorem checkFlag_eq {key : List UInt8} {startingAt : ℕ} {char : Bool → UInt8} {octet : UInt8}
    {b : Bool} (hkey : key[startingAt]? = some octet) (hflag : flag char octet = some b)
    (rest : Bool → Option (Option ParsedKey)) : checkFlag key startingAt char rest = rest b := by
  rw [checkFlag, hkey]
  dsimp only
  rw [hflag]

namespace PoaId

variable {poa : PoaId} {c : PoaConfig} {id : List UInt8}

/-- The flags with the prefix in front of them. -/
def head (poa : PoaId) : List UInt8 :=
  objectKeyPrefix ++ [rootKeyType poa.isRoot, systemIdKeyType poa.isSystemId,
    persistentKeyType poa.isPersistent]

/-- The creation time of a key, the field with the length of the name, and the name. -/
def time (poa : PoaId) : List UInt8 := if poa.isPersistent then [] else poa.creationTime

def lengthField (poa : PoaId) : List UInt8 :=
  if poa.addPoaNameLength then htonl poa.systemName.length else []

def name (poa : PoaId) : List UInt8 := if poa.isRoot then [] else poa.systemName

theorem flatten_parts (poa : PoaId) :
    poa.parts.flatten = poa.head ++ poa.time ++ poa.lengthField ++ poa.name := by
  rw [parts, head, time, lengthField, name]
  simp

/-- The flags of a key. -/
theorem parseKey_head (rest : List UInt8) : parseKey c (poa.head ++ rest) =
    (parseParts c (poa.head ++ rest) poa.isRoot poa.isSystemId poa.isPersistent).map some := by
  have hroot : (poa.head ++ rest)[flagsAt]? = some (rootKeyType poa.isRoot) := rfl
  have hsystem : (poa.head ++ rest)[flagsAt + 1]? = some (systemIdKeyType poa.isSystemId) := rfl
  have hpersistent : (poa.head ++ rest)[flagsAt + 2]? = some (persistentKeyType poa.isPersistent) :=
    rfl
  rw [parseKey, checkFlag_eq hroot (flag_rootKeyType _),
    checkFlag_eq hsystem (flag_systemIdKeyType _),
    checkFlag_eq hpersistent (flag_persistentKeyType _)]

theorem length_head_time (h : poa.creationTime.length = creationTimeLength) :
    (poa.head ++ poa.time).length = behindLifespan poa.isPersistent := by
  rw [List.length_append, behindLifespan, time]
  split_ifs
  · rfl
  · rw [h]
    rfl

/-- **The size of the name** is found. -/
theorem poaNameSize_eq (hsized : Sized c poa id) (h : poa.keySize id < 2 ^ 32) :
    ∃ n, poaNameSize c (poa.parts.flatten ++ id) poa.isPersistent poa.isSystemId = some n ∧
      (poa.isRoot = false → n = poa.systemName.length) := by
  have htime := length_head_time hsized.creationTime
  have hsize := length_parts hsized.creationTime
  rw [poaNameSize]
  cases hp : poa.isPersistent with
  | false => exact ⟨c.transientPoaNameSize, rfl, fun _ => (hsized.transientName hp).symm⟩
  | true =>
    rw [hp] at htime
    cases hs : poa.isSystemId with
    | true =>
      refine ⟨_, rfl, fun hroot => ?_⟩
      have hname : poa.name = poa.systemName := if_neg (by rw [hroot]; exact Bool.false_ne_true)
      have hfield : poa.lengthField = [] := if_neg (by rw [addPoaNameLength, hp, hs]; decide)
      have hid := hsized.systemId hp hs
      rw [keySize, flatten_parts, hname, hfield, List.append_nil, List.length_append, htime] at h
      rw [flatten_parts, hname, hfield, List.append_nil, List.length_append, List.length_append,
        htime, subULong_eq (by omega) h, subULong_eq (by omega) (by omega), hid]
      omega
    | false =>
      have hfield : poa.lengthField = htonl poa.systemName.length :=
        if_pos (by rw [addPoaNameLength, hp, hs]; rfl)
      have hread : readOctets (poa.parts.flatten ++ id) (behindLifespan true) 4 =
          some (htonl poa.systemName.length) := by
        rw [flatten_parts, hfield, List.append_assoc _ poa.name id]
        exact readOctets_append htime.symm (length_htonl _).symm
      refine ⟨_, congrArg (Option.map ntohl) hread, fun hroot => ?_⟩
      have hname : poa.name = poa.systemName := if_neg (by rw [hroot]; exact Bool.false_ne_true)
      refine ntohl_htonl ?_
      rw [keySize, flatten_parts, hname, List.length_append] at h
      omega

/-- **What a round trip is.** -/
def RoundTrips (c : PoaConfig) (poa : PoaId) (id : List UInt8) : Prop :=
  ∃ key p, poa.createObjectKey id = some key ∧ parseKey c key = some (some p) ∧
    p.isRoot = poa.isRoot ∧ p.isPersistent = poa.isPersistent ∧ p.isSystemId = poa.isSystemId ∧
    (poa.isPersistent = false → ∃ startingAt, p.creationTimeAt = some startingAt ∧
      readOctets key startingAt creationTimeLength = some poa.creationTime) ∧
    (poa.isRoot = false → readOctets key p.poaNameAt p.poaNameSize = some poa.systemName) ∧
    p.systemId = id

theorem roundTrips_of_lt (hsized : Sized c poa id) (h : poa.keySize id < 2 ^ 32) :
    RoundTrips c poa id := by
  obtain ⟨n, hn, hname⟩ := poaNameSize_eq hsized h
  have htime := length_head_time hsized.creationTime
  have hkey : poa.parts.flatten ++ id =
      poa.head ++ (poa.time ++ (poa.lengthField ++ (poa.name ++ id))) := by
    rw [flatten_parts]
    simp only [List.append_assoc]
  have hfield : poa.lengthField.length = if poa.isPersistent && !poa.isSystemId then 4 else 0 := by
    rw [lengthField, addPoaNameLength]
    split_ifs
    · exact length_htonl _
    · rfl
  have hnameAt : (poa.head ++ poa.time ++ poa.lengthField).length =
      behindLifespan poa.isPersistent + if poa.isPersistent && !poa.isSystemId then 4 else 0 := by
    rw [List.length_append, htime, hfield]
  have hidAt : poa.parts.flatten.length = if poa.isRoot then
      behindLifespan poa.isPersistent + if poa.isPersistent && !poa.isSystemId then 4 else 0
      else (behindLifespan poa.isPersistent +
        (if poa.isPersistent && !poa.isSystemId then 4 else 0) + n) % 2 ^ 32 := by
    rw [keySize] at h
    rw [flatten_parts, List.length_append, hnameAt] at h ⊢
    cases hroot : poa.isRoot with
    | true =>
      have hnil : poa.name = [] := if_pos hroot
      rw [hnil]
      rfl
    | false =>
      have hsys : poa.name = poa.systemName := if_neg (by rw [hroot]; exact Bool.false_ne_true)
      rw [hsys] at h ⊢
      rw [if_neg Bool.false_ne_true, hname hroot]
      exact (Nat.mod_eq_of_lt (by omega)).symm
  have hread : readOctets (poa.parts.flatten ++ id) poa.parts.flatten.length
      (subULong (poa.parts.flatten ++ id).length poa.parts.flatten.length) = some id := by
    rw [keySize] at h
    rw [List.length_append, subULong_eq (Nat.le_add_right _ _) h, Nat.add_sub_cancel_left,
      ← List.append_nil (poa.parts.flatten ++ id)]
    exact readOctets_append rfl rfl
  have hparse := (congrArg (parseKey c) hkey).trans (parseKey_head _)
  rw [← hkey, parseParts, hn] at hparse
  dsimp only at hparse
  rw [← hidAt, hread] at hparse
  refine ⟨_, _, createObjectKey_eq_some hsized.creationTime h, hparse, rfl, rfl, rfl, fun hp => ?_,
    fun hroot => ?_, rfl⟩
  · have htimes : poa.time = poa.creationTime := if_neg (by rw [hp]; exact Bool.false_ne_true)
    refine ⟨_, if_neg (by rw [hp]; exact Bool.false_ne_true), ?_⟩
    rw [hkey, ← List.append_assoc, htimes]
    exact readOctets_append rfl hsized.creationTime.symm
  · have hsys : poa.name = poa.systemName := if_neg (by rw [hroot]; exact Bool.false_ne_true)
    rw [flatten_parts, hsys]
    exact readOctets_append hnameAt.symm (hname hroot)

/-- **Object keys round trip** if and only if their length is a `CORBA::ULong`. -/
theorem keyRoundTrip_iff (hsized : Sized c poa id) :
    RoundTrips c poa id ↔ poa.keySize id < 2 ^ 32 := by
  refine ⟨fun ⟨key, p, hkey, _⟩ => ?_, roundTrips_of_lt hsized⟩
  by_contra hle
  rw [createObjectKey_eq_none hsized.creationTime (Nat.not_lt.mp hle)] at hkey
  cases hkey

section Example

/-- The maps for active demultiplexing, with hints. -/
def activeDemux : PoaConfig := ⟨.activeDemux, true, .activeDemux, true, true⟩

/-- A child POA with persistent user ids, and a transient root POA. -/
def persistentUser : PoaId := ⟨false, true, false, List.replicate 8 7, [112, 111, 97]⟩

def transientRoot : PoaId := ⟨true, false, true, List.replicate 8 7, List.replicate 8 0⟩

theorem keyRoundTrip_persistentUser :
    RoundTrips activeDemux persistentUser [0, 37, 255] ↔
      persistentUser.keySize [0, 37, 255] < 2 ^ 32 :=
  keyRoundTrip_iff ⟨rfl, fun h => absurd h (by decide), fun _ h => absurd h (by decide)⟩

/-- **The longest object id there is.** -/
theorem not_keyRoundTrip_longest :
    ¬RoundTrips activeDemux transientRoot (List.replicate (2 ^ 32 - 1) 0) := by
  rintro ⟨key, p, hkey, -⟩
  have hlen : 2 ^ 32 ≤ transientRoot.keySize (List.replicate (2 ^ 32 - 1) 0) := by
    rw [keySize, List.length_replicate]
    exact Nat.le_of_ble_eq_true rfl
  rw [createObjectKey_eq_none rfl hlen] at hkey
  cases hkey

end Example

end PoaId

end AceTao.Poa
