import AceTao.Poa.Key
import Mathlib.Order.Basic
import Mathlib.Order.Nat

/-!
# Object keys from the network

`parse_key` never asks whether a key is as long as its parts, and neither do the adapters that find
the place of an entry in a map at the beginning of the name of a POA or of an object id. A key is
safe (`Poa.SafeKey`) if and only if it is long enough for the parts that its flags announce
(`Poa.safeKey_iff`).
-/

namespace AceTao.Poa

/-! ### The key adapters -/

/-- `TAO_Ignore_Original_Key_Adapter` and `TAO_Preserve_Original_Key_Adapter`. -/
inductive KeyAdapter
  | ignoreOriginal | preserveOriginal
  deriving DecidableEq

/-- **`decode`**: the active key, and the size of the original key as it is computed. -/
def KeyAdapter.decode (a : KeyAdapter) (buffer : List UInt8) (startingAt size : ℕ) :
    Option (List UInt8 × ℕ) :=
  (readOctets buffer startingAt activeKeySize).map fun activeKey =>
    (activeKey, match a with
      | .ignoreOriginal => size
      | .preserveOriginal => subULong size activeKeySize)

/-- The adapter of the map in which `find_poa` looks for a POA, if it has one. -/
def poaNameAdapter (c : PoaConfig) (isRoot isPersistent : Bool) : Option KeyAdapter :=
  if isPersistent then if c.activeHintInPoaNames then some .preserveOriginal else none
  else if isRoot then none
  else if c.transientPoas = .activeDemux then some .ignoreOriginal
  else none

/-- The adapter of the map in which the POA looks for an object, if it has one. Whether it has
user ids is for the POA to say, not for the key. -/
def objectIdAdapter (c : PoaConfig) (userIdPolicy : Bool) : Option KeyAdapter :=
  if userIdPolicy || c.allowReactivationOfSystemIds then
    if c.activeHintInIds then some .preserveOriginal else none
  else if c.systemIds = .activeDemux then some .ignoreOriginal
  else none

/-- The name of the POA is recovered. That of the root is an empty sequence. -/
def recoverPoaName (c : PoaConfig) (key : List UInt8) (p : ParsedKey) :
    Option (Option (List UInt8 × ℕ)) :=
  match poaNameAdapter c p.isRoot p.isPersistent with
  | none => some none
  | some a =>
    if p.isRoot then (a.decode [] 0 0).map some
    else (a.decode key p.poaNameAt p.poaNameSize).map some

/-- The user id is recovered. -/
def recoverUserId (c : PoaConfig) (userIdPolicy : Bool) (p : ParsedKey) :
    Option (Option (List UInt8 × ℕ)) :=
  match objectIdAdapter c userIdPolicy with
  | none => some none
  | some a => (a.decode p.systemId 0 p.systemId.length).map some

/-! ### Safe keys -/

/-- **The parts of a key are where they should be**: inside it, one behind the other, and none of
their sizes has wrapped around. -/
structure Inside (c : PoaConfig) (key : List UInt8) (p : ParsedKey) : Prop where
  creationTime : ∀ startingAt ∈ p.creationTimeAt, startingAt + creationTimeLength ≤ key.length
  name : p.isRoot = false → p.poaNameAt + p.poaNameSize = p.systemIdAt
  nameSize : p.isPersistent = true → p.isSystemId = true →
    p.poaNameAt + p.poaNameSize + c.systemIdSize = key.length
  systemId : p.systemIdAt + p.systemId.length = key.length

/-- What is recovered is no longer than what it is recovered from. -/
def Recovers (r : Option (Option (List UInt8 × ℕ))) (size : ℕ) : Prop :=
  ∃ d, r = some d ∧ ∀ x ∈ d, x.2 ≤ size

/-- The parts that are accepted, and what is recovered from them. -/
def SafeParts (c : PoaConfig) (userIdPolicy : Bool) (key : List UInt8) (p : ParsedKey) : Prop :=
  Inside c key p ∧ Recovers (recoverPoaName c key p) p.poaNameSize ∧
    Recovers (recoverUserId c userIdPolicy p) p.systemId.length

/-- **A safe key**: no read is outside a buffer, and the key is rejected unless its parts are inside
it. -/
def SafeKey (c : PoaConfig) (userIdPolicy : Bool) (key : List UInt8) : Prop :=
  ∃ r, parseKey c key = some r ∧ ∀ p ∈ r, SafeParts c userIdPolicy key p

/-! ### Keys that are long enough -/

/-- The length that the lookup of an object needs. -/
def objectIdMin (c : PoaConfig) (userIdPolicy : Bool) : ℕ :=
  if objectIdAdapter c userIdPolicy = none then 0 else activeKeySize

/-- The length of the name in a key that has a field for it. -/
def announced (key : List UInt8) : ℕ := ntohl ((key.drop 7).take 4)

/-- **Long enough for the parts** that the flags announce. -/
def PartsFit (c : PoaConfig) (userIdPolicy : Bool) (key : List UInt8) (isRoot isSystemId : Bool) :
    Bool → Prop
  | false => 15 + (if isRoot then 0 else c.transientPoaNameSize) + objectIdMin c userIdPolicy ≤
      key.length
  | true =>
    if isSystemId then
      7 + c.systemIdSize ≤ key.length ∧
        (c.activeHintInPoaNames = true → isRoot = false ∧
          7 + activeKeySize + c.systemIdSize ≤ key.length) ∧
        objectIdMin c userIdPolicy ≤ if isRoot then key.length - 7 else c.systemIdSize
    else
      11 + (if isRoot then 0 else announced key) + objectIdMin c userIdPolicy ≤ key.length ∧
        (c.activeHintInPoaNames = true → isRoot = false ∧ activeKeySize ≤ announced key)

/-- **Long enough**: each flag is there if the flags in front of it are ones, and then the parts. -/
def LongEnough (c : PoaConfig) (userIdPolicy : Bool) (key : List UInt8) : Prop :=
  4 < key.length ∧ ∀ isRoot, key[4]?.bind (flag rootKeyType) = some isRoot →
    5 < key.length ∧ ∀ isSystemId, key[5]?.bind (flag systemIdKeyType) = some isSystemId →
      6 < key.length ∧ ∀ isPersistent, key[6]?.bind (flag persistentKeyType) = some isPersistent →
        PartsFit c userIdPolicy key isRoot isSystemId isPersistent

variable {c : PoaConfig} {userIdPolicy : Bool} {key buffer octets : List UInt8} {p : ParsedKey}
  {startingAt n : ℕ}

theorem readOctets_eq_some : readOctets buffer startingAt n = some octets ↔
    (n = 0 ∨ startingAt + n ≤ buffer.length) ∧ octets = (buffer.drop startingAt).take n := by
  rw [readOctets]
  split_ifs with h
  · rw [Option.some.injEq, eq_comm]
    exact ⟨fun heq => ⟨h, heq⟩, fun hand => hand.2⟩
  · exact iff_of_false (fun heq => by cases heq) fun hand => h hand.1

theorem length_of_readOctets (h : readOctets buffer startingAt n = some octets) :
    octets.length = n := by
  obtain ⟨hle, rfl⟩ := readOctets_eq_some.mp h
  rw [List.length_take, List.length_drop]
  omega

theorem exists_readOctets (h : startingAt + n ≤ buffer.length) :
    ∃ octets, readOctets buffer startingAt n = some octets ∧ octets.length = n := by
  have hread := readOctets_eq_some.mpr ⟨Or.inr h, rfl⟩
  exact ⟨_, hread, length_of_readOctets hread⟩

/-! ### What is recovered -/

/-- **An adapter is safe** if and only if an active key fits into what it is given. -/
theorem recovers_decode_iff {a : KeyAdapter} {size : ℕ} (hfits : startingAt + size ≤ buffer.length)
    (hsize : size < 2 ^ 32) (ha : a = .ignoreOriginal → startingAt = 0 ∧ size = buffer.length ∨
      activeKeySize ≤ size) :
    Recovers ((a.decode buffer startingAt size).map some) size ↔ activeKeySize ≤ size := by
  have hactive : activeKeySize = 8 := rfl
  constructor
  · rintro ⟨d, hd, hle⟩
    obtain ⟨x, hx, rfl⟩ := Option.map_eq_some_iff.mp hd
    obtain ⟨activeKey, hread, rfl⟩ := Option.map_eq_some_iff.mp hx
    have hle' := hle _ rfl
    cases a with
    | ignoreOriginal =>
      rcases ha rfl with ⟨rfl, rfl⟩ | hsize'
      · rcases (readOctets_eq_some.mp hread).1 with h0 | hlen
        · cases h0
        · omega
      · exact hsize'
    | preserveOriginal =>
      have hwrap : subULong size activeKeySize ≤ size := hle'
      rw [subULong] at hwrap
      omega
  · intro hle
    obtain ⟨octets, hread, -⟩ := @exists_readOctets buffer startingAt activeKeySize (by omega)
    refine ⟨some (octets, _),
      congrArg (fun o => Option.map some (Option.map _ o)) hread, fun x hx => ?_⟩
    cases hx
    cases a with
    | ignoreOriginal => exact le_rfl
    | preserveOriginal =>
      change subULong size activeKeySize ≤ size
      rw [subULong_eq hle hsize]
      exact Nat.sub_le ..

theorem recovers_none (size : ℕ) : Recovers (some none) size :=
  ⟨none, rfl, fun x hx => by cases hx⟩

theorem recoverUserId_iff (h : p.systemId.length < 2 ^ 32) :
    Recovers (recoverUserId c userIdPolicy p) p.systemId.length ↔
      objectIdMin c userIdPolicy ≤ p.systemId.length := by
  rw [recoverUserId, objectIdMin]
  rcases objectIdAdapter c userIdPolicy with _ | a
  · exact iff_of_true (recovers_none _) (Nat.zero_le _)
  · rw [if_neg (Option.some_ne_none a)]
    exact recovers_decode_iff (Nat.zero_add _).le h fun _ => Or.inl ⟨rfl, rfl⟩

/-- **The name of a POA** is recovered safely if it is inside the key. -/
theorem recoverPoaName_iff (hfits : p.isRoot = false → p.poaNameAt + p.poaNameSize ≤ key.length)
    (hsize : p.poaNameSize < 2 ^ 32)
    (htransient : p.isPersistent = false → p.poaNameSize = c.transientPoaNameSize) :
    Recovers (recoverPoaName c key p) p.poaNameSize ↔
      (p.isPersistent = true → c.activeHintInPoaNames = true →
        p.isRoot = false ∧ activeKeySize ≤ p.poaNameSize) := by
  rw [recoverPoaName, poaNameAdapter]
  cases hp : p.isPersistent with
  | true =>
    cases hhint : c.activeHintInPoaNames with
    | true =>
      rw [if_pos rfl, if_pos rfl]
      cases hroot : p.isRoot with
      | true =>
        refine iff_of_false ?_ fun h => ?_
        · rintro ⟨d, hd, -⟩
          cases hd
        · cases (h rfl rfl).1
      | false =>
        have hdecode := @recovers_decode_iff _ _ .preserveOriginal _ (hfits hroot) hsize
          fun h => by cases h
        exact hdecode.trans ⟨fun h _ _ => ⟨rfl, h⟩, fun h => (h rfl rfl).2⟩
    | false => exact iff_of_true (recovers_none _) fun _ h => by cases h
  | false =>
    refine iff_of_true ?_ fun h => by cases h
    rw [if_neg Bool.false_ne_true]
    cases hroot : p.isRoot with
    | true => exact recovers_none _
    | false =>
      by_cases hactive : c.transientPoas = .activeDemux
      · rw [if_neg Bool.false_ne_true, if_pos hactive]
        have hname : p.poaNameSize = activeKeySize := by
          rw [htransient hp, PoaConfig.transientPoaNameSize, hactive]
        exact (@recovers_decode_iff _ _ .ignoreOriginal _ (hfits hroot) hsize
          fun _ => Or.inr hname.ge).mpr hname.ge
      · rw [if_neg Bool.false_ne_true, if_neg hactive]
        exact recovers_none _

/-! ### What is parsed -/

/-- The place of the name. -/
def poaNameAt (isPersistent isSystemId : Bool) : ℕ :=
  behindLifespan isPersistent + if isPersistent && !isSystemId then 4 else 0

/-- **The parts that `parse_key` finds.** -/
structure Parsed (c : PoaConfig) (key : List UInt8) (isRoot isSystemId isPersistent : Bool)
    (p : ParsedKey) : Prop where
  root : p.isRoot = isRoot
  system : p.isSystemId = isSystemId
  persistent : p.isPersistent = isPersistent
  time : p.creationTimeAt = if isPersistent then none else some 7
  nameAt : p.poaNameAt = poaNameAt isPersistent isSystemId
  nameSize : poaNameSize c key isPersistent isSystemId = some p.poaNameSize
  idAt : p.systemIdAt = if isRoot then p.poaNameAt else (p.poaNameAt + p.poaNameSize) % 2 ^ 32
  octets : readOctets key p.systemIdAt (subULong key.length p.systemIdAt) = some p.systemId

theorem parseParts_eq_some {isRoot isSystemId isPersistent : Bool} :
    parseParts c key isRoot isSystemId isPersistent = some p ↔
      Parsed c key isRoot isSystemId isPersistent p := by
  rw [parseParts]
  constructor
  · intro h
    split at h
    · cases h
    · rename_i size hsize
      obtain ⟨systemId, hread, rfl⟩ := Option.map_eq_some_iff.mp h
      exact ⟨rfl, rfl, rfl, rfl, rfl, hsize, rfl, hread⟩
  · rintro ⟨hroot, hsystem, hpersistent, htime, hnameAt, hsize, hidAt, hread⟩
    rw [hsize]
    rw [hidAt, hnameAt] at hread
    rw [hnameAt] at hidAt
    refine Option.map_eq_some_iff.mpr ⟨p.systemId, hread, ?_⟩
    rw [ParsedKey.mk.injEq]
    exact ⟨hroot.symm, hpersistent.symm, hsystem.symm, htime.symm, hnameAt.symm, rfl, hidAt.symm,
      rfl⟩

theorem poaNameSize_lt {isPersistent isSystemId : Bool}
    (h : poaNameSize c key isPersistent isSystemId = some n) : n < 2 ^ 32 := by
  have hsub (a b : ℕ) : subULong a b < 2 ^ 32 := Nat.mod_lt _ (Nat.two_pow_pos 32)
  rw [poaNameSize] at h
  split_ifs at h
  · cases h
    rw [PoaConfig.transientPoaNameSize]
    split <;> decide
  · cases h
    exact hsub _ _
  · obtain ⟨bs, hbs, rfl⟩ := Option.map_eq_some_iff.mp h
    have hlt := ByteImage.ofLeBytes_lt bs.reverse
    rw [List.length_reverse, length_of_readOctets hbs] at hlt
    exact hlt

/-- **The parts are inside the key** if and only if the sizes add up. -/
theorem safeParts_iff {isRoot isSystemId isPersistent : Bool} (hkey : key.length < 2 ^ 32)
    (hp : Parsed c key isRoot isSystemId isPersistent p) :
    SafeParts c userIdPolicy key p ↔ p.systemIdAt ≤ key.length ∧
      (isPersistent = false → 15 ≤ key.length) ∧
      (isRoot = false → p.poaNameAt + p.poaNameSize = p.systemIdAt) ∧
      (isPersistent = true → isSystemId = true →
        p.poaNameAt + p.poaNameSize + c.systemIdSize = key.length) ∧
      (isPersistent = true → c.activeHintInPoaNames = true →
        isRoot = false ∧ activeKeySize ≤ p.poaNameSize) ∧
      objectIdMin c userIdPolicy ≤ key.length - p.systemIdAt := by
  have hlen := length_of_readOctets hp.octets
  have hidlt : p.systemId.length < 2 ^ 32 := hlen.trans_lt (Nat.mod_lt _ (Nat.two_pow_pos 32))
  have hsub : p.systemIdAt ≤ key.length → p.systemId.length = key.length - p.systemIdAt := fun h =>
    hlen.trans (subULong_eq h hkey)
  have htransient : p.isPersistent = false → p.poaNameSize = c.transientPoaNameSize := by
    intro h
    have hsize := hp.nameSize
    rw [hp.persistent] at h
    rw [h] at hsize
    exact (Option.some.inj hsize).symm
  constructor
  · rintro ⟨⟨htime, hname, hsize, hid⟩, hpoa, huser⟩
    have hle : p.systemIdAt ≤ key.length := Nat.le.intro hid
    rw [hp.root] at hname
    rw [hp.persistent, hp.system] at hsize
    have hfits : p.isRoot = false → p.poaNameAt + p.poaNameSize ≤ key.length := fun h => by
      rw [hname (hp.root ▸ h)]
      exact hle
    have hpoa' := (recoverPoaName_iff hfits (poaNameSize_lt hp.nameSize) htransient).mp hpoa
    rw [hp.persistent, hp.root] at hpoa'
    rw [recoverUserId_iff hidlt, hsub hle] at huser
    refine ⟨hle, fun h => ?_, hname, hsize, hpoa', huser⟩
    have hat := hp.time
    rw [h, if_neg Bool.false_ne_true] at hat
    exact htime 7 hat
  · rintro ⟨hle, htime, hname, hsize, hpoa, huser⟩
    have hfits : p.isRoot = false → p.poaNameAt + p.poaNameSize ≤ key.length := fun h => by
      rw [hname (hp.root ▸ h)]
      exact hle
    refine ⟨⟨fun startingAt hat => ?_, ?_, ?_, ?_⟩, ?_, ?_⟩
    · rw [hp.time] at hat
      cases isPersistent with
      | true => cases hat
      | false =>
        cases hat
        exact htime rfl
    · rwa [hp.root]
    · rwa [hp.persistent, hp.system]
    · rw [hsub hle, Nat.add_sub_cancel' hle]
    · refine (recoverPoaName_iff hfits (poaNameSize_lt hp.nameSize) htransient).mpr ?_
      rwa [hp.persistent, hp.root]
    · rwa [recoverUserId_iff hidlt, hsub hle]

/-- **Whether the parts are safe** is a question of sizes. -/
theorem exists_safeParts_iff {isRoot isSystemId isPersistent : Bool} (hkey : key.length < 2 ^ 32) :
    (∃ p, parseParts c key isRoot isSystemId isPersistent = some p ∧
        SafeParts c userIdPolicy key p) ↔
      ∃ size idAt, poaNameSize c key isPersistent isSystemId = some size ∧
        idAt = (poaNameAt isPersistent isSystemId + if isRoot then 0 else size) ∧
        idAt ≤ key.length ∧ (isPersistent = false → 15 ≤ key.length) ∧
        (isPersistent = true → isSystemId = true →
          poaNameAt isPersistent isSystemId + size + c.systemIdSize = key.length) ∧
        (isPersistent = true → c.activeHintInPoaNames = true →
          isRoot = false ∧ activeKeySize ≤ size) ∧
        objectIdMin c userIdPolicy ≤ key.length - idAt := by
  constructor
  · rintro ⟨p, hparse, hsafe⟩
    have hp := parseParts_eq_some.mp hparse
    obtain ⟨hle, htime, hname, hsize, hpoa, huser⟩ := (safeParts_iff hkey hp).mp hsafe
    rw [hp.nameAt] at hname hsize
    refine ⟨p.poaNameSize, p.systemIdAt, hp.nameSize, ?_, hle, htime, hsize, hpoa, huser⟩
    cases isRoot with
    | true => exact hp.idAt.trans hp.nameAt
    | false => exact (hname rfl).symm
  · rintro ⟨size, idAt, hsize, hid, hle, htime, hsum, hpoa, huser⟩
    have hidAt : idAt = if isRoot then poaNameAt isPersistent isSystemId
        else (poaNameAt isPersistent isSystemId + size) % 2 ^ 32 := by
      cases isRoot with
      | true => exact hid
      | false =>
        rw [if_neg Bool.false_ne_true] at hid ⊢
        rw [← hid]
        exact (Nat.mod_eq_of_lt (hle.trans_lt hkey)).symm
    obtain ⟨octets, hread, -⟩ := exists_readOctets (Nat.add_sub_cancel' hle).le
    rw [← subULong_eq hle hkey] at hread
    have hp : Parsed c key isRoot isSystemId isPersistent
        ⟨isRoot, isPersistent, isSystemId, if isPersistent then none else some 7,
          poaNameAt isPersistent isSystemId, size, idAt, octets⟩ :=
      ⟨rfl, rfl, rfl, rfl, rfl, hsize, hidAt, hread⟩
    refine ⟨_, parseParts_eq_some.mpr hp, (safeParts_iff hkey hp).mpr
      ⟨hle, htime, fun hroot => ?_, hsum, hpoa, huser⟩⟩
    rw [hid, hroot]
    rfl

/-- **The parts are safe** if and only if the key is long enough for them. -/
theorem partsFit_iff {isRoot isSystemId isPersistent : Bool} (hkey : key.length < 2 ^ 32) :
    (∃ p, parseParts c key isRoot isSystemId isPersistent = some p ∧
        SafeParts c userIdPolicy key p) ↔
      PartsFit c userIdPolicy key isRoot isSystemId isPersistent := by
  have hactive : activeKeySize = 8 := rfl
  rw [exists_safeParts_iff hkey]
  cases isPersistent with
  | false =>
    have hat : poaNameAt false isSystemId = 15 := by cases isSystemId <;> rfl
    rw [PartsFit, hat]
    constructor
    · rintro ⟨size, idAt, hsize, rfl, hle, htime, -, -, huser⟩
      cases Option.some.inj hsize
      have htime' := htime rfl
      omega
    · intro hfit
      exact ⟨c.transientPoaNameSize, _, rfl, rfl, by omega, fun _ => by omega, nofun, nofun,
        by omega⟩
  | true =>
    cases isSystemId with
    | true =>
      have hat : poaNameAt true true = 7 := rfl
      rw [PartsFit, hat, if_pos rfl]
      constructor
      · rintro ⟨size, idAt, -, rfl, hle, -, hsum, hpoa, huser⟩
        have hsum' := hsum rfl rfl
        refine ⟨by omega, fun hhint => ⟨(hpoa rfl hhint).1, ?_⟩, ?_⟩
        · have hmin := (hpoa rfl hhint).2
          omega
        · cases isRoot with
          | true => exact huser
          | false =>
            rw [if_neg Bool.false_ne_true] at huser ⊢
            omega
      · rintro ⟨hlen, hhint, hid⟩
        have hsub : subULong (subULong key.length 7) c.systemIdSize =
            key.length - 7 - c.systemIdSize := by
          rw [subULong_eq (by omega) hkey, subULong_eq (by omega) (by omega)]
        refine ⟨key.length - 7 - c.systemIdSize, _, congrArg some hsub, rfl, ?_, nofun,
          fun _ _ => by omega, fun _ h => ⟨(hhint h).1, ?_⟩, ?_⟩
        · split_ifs <;> omega
        · have hmin := (hhint h).2
          omega
        · cases isRoot with
          | true => exact hid
          | false =>
            rw [if_neg Bool.false_ne_true] at hid ⊢
            omega
    | false =>
      have hat : poaNameAt true false = 11 := rfl
      rw [PartsFit, hat, if_neg Bool.false_ne_true]
      constructor
      · rintro ⟨size, idAt, hsize, rfl, hle, -, -, hpoa, huser⟩
        obtain ⟨bs, hbs, hann⟩ := Option.map_eq_some_iff.mp hsize
        obtain ⟨-, rfl⟩ := readOctets_eq_some.mp hbs
        have hann' : announced key = size := hann
        rw [hann']
        exact ⟨by omega, fun hhint => hpoa rfl hhint⟩
      · rintro ⟨hlen, hhint⟩
        have hread : readOctets key 7 4 = some ((key.drop 7).take 4) :=
          readOctets_eq_some.mpr ⟨Or.inr (by omega), rfl⟩
        exact ⟨announced key, _, congrArg (Option.map ntohl) hread, rfl, by omega, nofun, nofun,
          fun _ h => hhint h, by omega⟩

/-! ### Every key -/

/-- **One flag.** -/
theorem checkFlag_iff {i : ℕ} {char : Bool → UInt8} {rest : Bool → Option (Option ParsedKey)}
    {P : ParsedKey → Prop} :
    (∃ r, checkFlag key i char rest = some r ∧ ∀ p ∈ r, P p) ↔
      i < key.length ∧ ∀ b, key[i]?.bind (flag char) = some b →
        ∃ r, rest b = some r ∧ ∀ p ∈ r, P p := by
  rw [checkFlag]
  rcases Nat.lt_or_ge i key.length with hlt | hge
  · rw [List.getElem?_eq_getElem hlt]
    dsimp only [Option.bind_some]
    rcases flag char key[i] with _ | b
    · exact iff_of_true ⟨none, rfl, fun _ h => by cases h⟩ ⟨hlt, fun _ h => by cases h⟩
    · exact ⟨fun h => ⟨hlt, fun b' hb' => Option.some.inj hb' ▸ h⟩, fun h => h.2 b rfl⟩
  · rw [List.getElem?_eq_none hge]
    refine iff_of_false ?_ fun h => absurd h.1 (Nat.not_lt.mpr hge)
    rintro ⟨r, hr, -⟩
    cases hr

/-- **A key is safe** if and only if it is long enough. -/
theorem safeKey_iff (hkey : key.length < 2 ^ 32) :
    SafeKey c userIdPolicy key ↔ LongEnough c userIdPolicy key := by
  have hparts (isRoot isSystemId isPersistent : Bool) :
      (∃ r, (parseParts c key isRoot isSystemId isPersistent).map some = some r ∧
        ∀ p ∈ r, SafeParts c userIdPolicy key p) ↔
      PartsFit c userIdPolicy key isRoot isSystemId isPersistent := by
    rw [← partsFit_iff hkey]
    constructor
    · rintro ⟨r, hr, hall⟩
      obtain ⟨p, hp, rfl⟩ := Option.map_eq_some_iff.mp hr
      exact ⟨p, hp, hall p rfl⟩
    · rintro ⟨p, hp, hsafe⟩
      refine ⟨some p, congrArg (Option.map some) hp, fun q hq => ?_⟩
      cases hq
      exact hsafe
  rw [SafeKey, LongEnough, parseKey, checkFlag_iff]
  refine and_congr_right fun _ => forall_congr' fun isRoot => imp_congr_right fun _ => ?_
  rw [checkFlag_iff]
  refine and_congr_right fun _ => forall_congr' fun isSystemId => imp_congr_right fun _ => ?_
  rw [checkFlag_iff]
  exact and_congr_right fun _ => forall_congr' fun isPersistent => imp_congr_right fun _ =>
    hparts isRoot isSystemId isPersistent

section Example

/-- A key of a persistent POA with user ids and the name `abc`, and the id `x`. -/
def hintedKey : List UInt8 :=
  objectKeyPrefix ++ [78, 85, 80, 0, 0, 0, 11, 1, 0, 0, 0, 1, 0, 0, 0, 97, 98, 99] ++
    [1, 0, 0, 0, 1, 0, 0, 0, 120]

theorem safeKey_hintedKey : SafeKey PoaId.activeDemux true hintedKey ↔
    LongEnough PoaId.activeDemux true hintedKey :=
  safeKey_iff (by decide)

/-- **A key that is nothing but the prefix.** -/
theorem not_safeKey_prefix : ¬SafeKey PoaId.activeDemux true objectKeyPrefix := by
  rintro ⟨r, hr, -⟩
  cases hr

end Example

end AceTao.Poa
