import Mathlib.Data.Fintype.Basic
import AceTao.Library.Machine
import AceTao.Library.MarkedSearch
import AceTao.Tokens.MutexToken
import AceTao.Tokens.RWLine

/-!
# The token manager

`ACE_Token_Manager` keeps the tokens under their names. A proxy gets its token when it is opened,
which creates the token if there is none of that name, and releases it when it is destroyed; the
last one to do so deletes the token. A proxy has an entry for each thread that uses it, and a client
is known by its id.

`check_deadlock` follows the tokens from the one a client asks for: to the owners of a token, and
from each of them to the token that it waits for. It marks the tokens it comes to
(`TokenManager.check`), and in the end it takes all marks away (`TokenManager.checkDeadlock`).

What a command has no answer for here is a loop without end or a pointer that leads nowhere.
-/

namespace AceTao.Tokens

open MarkedSearch

/-- The classes of the proxies. -/
inductive ProxyClass
  | localMutex
  | localRLock
  | localWLock
  deriving DecidableEq

/-- `type ()` of a proxy, which is `0` for an `ACE_Local_Mutex`. -/
def ProxyClass.type : ProxyClass → ProxyType
  | localMutex => .reader
  | localRLock => .reader
  | localWLock => .writer

/-- The entries: each belongs to a proxy of some class, and to a client. -/
structure Clients (E P C : Type) where
  proxy : E → P
  clientId : E → C
  proxyClass : P → ProxyClass

variable {E P C N T : Type}

/-- What a token sees of an entry. -/
def Clients.proxies (k : Clients E P C) : Proxies E C :=
  ⟨k.clientId, fun e => (k.proxyClass (k.proxy e)).type⟩

/-! ### The two kinds of tokens -/

/-- A token of either kind. -/
inductive Token (E : Type)
  | mutex (t : MutexToken E)
  | rw (t : RWToken E)

namespace Token

/-- `create_token` of a proxy. -/
def create : ProxyClass → Token E
  | .localMutex => .mutex .init
  | _ => .rw .init

def waiters : Token E → ProxyQueue E
  | mutex t => t.waiters
  | rw t => t.waiters

variable [Fintype E] [DecidableEq C]

def owners (p : Proxies E C) (t : Token E) (id : C) : Option (List E × Bool) :=
  match t with
  | mutex t => some (t.owners p id)
  | rw t => t.owners p id

def isWaitingFor (p : Proxies E C) (t : Token E) (id : C) : Option Bool :=
  match t with
  | mutex t => t.isWaitingFor p id
  | rw t => t.isWaitingFor p id

variable [DecidableEq E]

def acquire (p : Proxies E C) (t : Token E) (caller : E) (ignoreDeadlock : Bool)
    (checkDeadlock : Option Bool) (notify : Bool) : Option (Token E × Outcome E) :=
  match t with
  | mutex t => (t.acquire p caller ignoreDeadlock checkDeadlock notify).map (Prod.map mutex id)
  | rw t => (t.acquire p caller ignoreDeadlock checkDeadlock notify).map (Prod.map rw id)

def tryacquire (p : Proxies E C) (t : Token E) (caller : E) : Option (Token E × Outcome E) :=
  match t with
  | mutex t => (t.tryacquire p caller).map (Prod.map mutex id)
  | rw t => (t.tryacquire p caller).map (Prod.map rw id)

def renew (p : Proxies E C) (t : Token E) (caller : E) (requeuePosition : ℤ) :
    Option (Token E × Outcome E) :=
  match t with
  | mutex t => (t.renew p caller requeuePosition).map (Prod.map mutex id)
  | rw t => (t.renew p caller requeuePosition).map (Prod.map rw id)

/-- `ACE_Token_Proxy::release`, on a token of either kind. -/
def proxyRelease (p : Proxies E C) (t : Token E) (caller : E) : Option (Token E × Outcome E) :=
  match t with
  | mutex t => do
    let (t, outcome) ← t.release p caller
    if outcome.answer ≠ .success then
      let t ← t.remove caller
      return (mutex t, outcome)
    else
      return (mutex t, outcome)
  | rw t => (t.proxyRelease p caller).map (Prod.map rw id)

end Token

/-! ### The manager -/

/-- An object of a class derived from `ACE_Tokens`; `visited_` is kept apart. -/
structure TokenObject (N E : Type) where
  name : N
  token : Token E
  referenceCount : ℕ

/-- A proxy that has not been opened, one with its `token_`, and one that has been destroyed. -/
inductive ProxyState (T : Type)
  | unopened
  | opened (token : T)
  | destroyed
  deriving DecidableEq

/-- `ACE_Token_Manager`: the collection of the tokens, the last one that was bound first. With it
go the tokens in memory, their marks, and what the proxies hold. -/
structure TokenManager (E P N T : Type) where
  collection : List (N × T)
  object : T → Option (TokenObject N E)
  visited : T → Bool
  proxyState : P → ProxyState T

/-- The commands: a proxy is constructed, where `address` is memory for a new token, or destroyed;
or one of its methods is called. -/
inductive Command (E P N T : Type)
  | getToken (proxy : P) (name : N) (address : T)
  | releaseToken (proxy : P)
  | acquire (e : E) (ignoreDeadlock notify : Bool)
  | tryacquire (e : E)
  | renew (e : E) (position : ℤ)
  | release (e : E)
  | remove (e : E)

namespace TokenManager

def empty : TokenManager E P N T := ⟨[], fun _ => none, fun _ => false, fun _ => .unopened⟩

section Deadlock

variable [Fintype E] [DecidableEq C] [DecidableEq T] (k : Clients E P C) (m : TokenManager E P N T)

/-- `token_waiting_for`: the first token of the collection that the client waits for. -/
def tokenWaitingFor (id : C) : List (N × T) → Option (Option T)
  | [] => some none
  | (_, a) :: rest =>
    match m.object a with
    | none => none
    | some o =>
      match o.token.isWaitingFor k.proxies id with
      | none => none
      | some true => some (some a)
      | some false => tokenWaitingFor id rest

/-- The loop of `check_deadlock` over the owners, from the top of the stack. -/
def checkOwners (rec : T → (T → Bool) → Option (Result T)) :
    List E → (T → Bool) → Option (Result T)
  | [], visited => some ⟨false, visited, []⟩
  | e :: stack, visited =>
    match m.tokenWaitingFor k (k.clientId e) m.collection with
    | none => none
    | some none => checkOwners rec stack visited
    | some (some twf) =>
      match rec twf visited with
      | none => none
      | some r =>
        if r.found then some r
        else (checkOwners rec stack r.marks).map fun r' =>
          { r' with visits := r.visits ++ r'.visits }

/-- **The recursive `check_deadlock`**, at most `n` calls deep, with the tokens that it visits. -/
def check (id : C) : ℕ → T → (T → Bool) → Option (Result T)
  | 0, _, _ => none
  | n + 1, token, visited =>
    if visited token then some ⟨false, visited, []⟩
    else
      match m.object token with
      | none => none
      | some o =>
        let visited' := Function.update visited token true
        match o.token.owners k.proxies id with
        | none => none
        | some (stack, isOwner) =>
          if isOwner then some ⟨true, visited', [token]⟩
          else (m.checkOwners k (check id n) stack.reverse visited').map fun r =>
            { r with visits := token :: r.visits }

/-- The marks of the tokens in the collection are taken away. -/
def unmark (visited : T → Bool) (a : T) : Bool :=
  if a ∈ m.collection.map Prod.snd then false else visited a

/-- **`check_deadlock`** for the proxy of an entry, by its client: the marks in the end, whether
there is a deadlock, and the tokens visited. A call below all the tokens comes to a marked one. -/
def checkDeadlock (e : E) : Option (TokenManager E P N T × Bool × List T) :=
  match m.proxyState (k.proxy e) with
  | .opened token =>
    (m.check k (k.clientId e) (m.collection.length + 2) token m.visited).map fun r =>
      ({ m with visited := m.unmark r.marks }, r.found, r.visits)
  | _ => none

end Deadlock

/-! ### The commands -/

section Commands

variable [DecidableEq N] [DecidableEq T] [DecidableEq P]

/-- `inc_reference`. -/
def incReference (o : TokenObject N E) : TokenObject N E :=
  { o with referenceCount := o.referenceCount + 1 }

/-- `get_token`, by the constructor of the proxy. -/
def getToken (m : TokenManager E P N T) (proxyClass : P → ProxyClass) (proxy : P) (name : N)
    (address : T) : Option (TokenManager E P N T) :=
  match m.collection.lookup name with
  | some a =>
    match m.object a with
    | none => none
    | some o =>
      some { m with
        object := Function.update m.object a (some (incReference o))
        proxyState := Function.update m.proxyState proxy (.opened a) }
  | none =>
    match m.object address with
    | some _ => none
    | none =>
      some { m with
        collection := (name, address) :: m.collection
        object := Function.update m.object address
          (some (incReference ⟨name, .create (proxyClass proxy), 0⟩))
        visited := Function.update m.visited address false
        proxyState := Function.update m.proxyState proxy (.opened address) }

/-- `release_token`, by the destructor of the proxy. -/
def releaseToken (m : TokenManager E P N T) (proxy : P) : Option (TokenManager E P N T) :=
  let proxyState := Function.update m.proxyState proxy .destroyed
  match m.proxyState proxy with
  | .opened a =>
    match m.object a with
    | none => none
    | some o =>
      let o := { o with referenceCount := o.referenceCount - 1 }
      if o.referenceCount = 0 then
        match m.collection.lookup o.name with
        | none =>
          -- no token of this name is found, which is an error, and the token stays
          some { m with object := Function.update m.object a (some o), proxyState := proxyState }
        | some a' =>
          if a = a' then
            some { m with
              collection := m.collection.filter fun b => b.1 ≠ o.name
              object := Function.update m.object a none
              proxyState := proxyState }
          else none
      else some { m with object := Function.update m.object a (some o), proxyState := proxyState }
  | _ => some { m with proxyState := proxyState }

variable [Fintype E] [DecidableEq E] [DecidableEq C]

/-- A method is called on the token of the proxy; there is none if the proxy is not open. -/
def onToken (k : Clients E P C) (m : TokenManager E P N T) (e : E)
    (f : Token E → Option (Token E × Outcome E)) :
    Option (TokenManager E P N T × Option (Outcome E)) :=
  match m.proxyState (k.proxy e) with
  | .opened a =>
    match m.object a with
    | none => none
    | some o => (f o.token).map fun (t, outcome) =>
      ({ m with object := Function.update m.object a (some { o with token := t }) }, some outcome)
  | _ => some (m, none)

/-- `ACE_Token_Proxy::acquire`. The token calls `check_deadlock` unless it ignores deadlocks or the
acquisition succeeds. -/
def acquire (k : Clients E P C) (m : TokenManager E P N T) (e : E) (ignoreDeadlock notify : Bool) :
    Option (TokenManager E P N T × Option (Outcome E)) := do
  let check := m.checkDeadlock k e
  let (m', outcome) ← m.onToken k e fun t =>
    t.acquire k.proxies e ignoreDeadlock (check.map fun r => r.2.1) notify
  match check, outcome with
  | some (checked, _), some o =>
    if ignoreDeadlock = false ∧ o.answer ≠ .success then
      return ({ m' with visited := checked.visited }, outcome)
    else
      return (m', outcome)
  | _, _ => return (m', outcome)

/-- **A step of the manager.** A proxy is opened when it is constructed, once. -/
def step (k : Clients E P C) (m : TokenManager E P N T) :
    Command E P N T → Option (TokenManager E P N T × Option (Outcome E))
  | .getToken proxy name address =>
    if m.proxyState proxy = .unopened then
      (m.getToken k.proxyClass proxy name address).map fun m => (m, none)
    else none
  | .releaseToken proxy => (m.releaseToken proxy).map fun m => (m, none)
  | .acquire e ignoreDeadlock notify => m.acquire k e ignoreDeadlock notify
  | .tryacquire e => m.onToken k e fun t => t.tryacquire k.proxies e
  | .renew e position => m.onToken k e fun t => t.renew k.proxies e position
  | .release e => m.onToken k e fun t => t.proxyRelease k.proxies e
  | .remove _ => some (m, some { answer := .success })

end Commands

end TokenManager

end AceTao.Tokens

/-!
## What the token manager keeps

A manager is well formed (`TokenManager.WellFormed`) when its collection and the tokens in memory
are the same, each token is referenced by the proxies that have it, every queue represents a list,
and no mark is left. Every command keeps this, unless it uses a queue wrongly
(`TokenManager.Admitted`).

For a token whose queue represents a list, `Token.ownersOf`, `Token.Owns` and `Token.WaitsFor` say
who owns it and who waits.
-/

namespace AceTao.Tokens

open ProxyQueue

variable {E P C N T : Type}

namespace Token

variable [Fintype E] {p : Proxies E C} {t : Token E} {l : List E} {e : E} {c : C}

/-- The entries that own the token: the first one, or the owning prefix. -/
def ownersOf (p : Proxies E C) : Token E → List E
  | mutex t => t.waiters.entries.head?.toList
  | rw t => p.owners t.waiters.entries

/-- **The client owns the token.** -/
def Owns (p : Proxies E C) (t : Token E) (c : C) : Prop := ∃ e ∈ t.ownersOf p, p.clientId e = c

/-- **The client waits for the token**: it is queued, but does not own it. -/
def WaitsFor (p : Proxies E C) (t : Token E) (c : C) : Prop :=
  ¬t.Owns p c ∧ ∃ e ∈ t.waiters.entries, p.clientId e = c

section Decide

variable [DecidableEq C]

instance (p : Proxies E C) (t : Token E) (c : C) : Decidable (t.Owns p c) :=
  inferInstanceAs (Decidable (∃ e ∈ t.ownersOf p, p.clientId e = c))

instance (p : Proxies E C) (t : Token E) (c : C) : Decidable (t.WaitsFor p c) :=
  inferInstanceAs (Decidable (_ ∧ ∃ e ∈ t.waiters.entries, p.clientId e = c))

theorem owners_eq (h : t.waiters.Represents l) :
    t.owners p c = some (t.ownersOf p, decide (t.Owns p c)) := by
  rcases t with t | t
  · have hl : t.waiters.entries = l := Represents.entries_eq h
    rw [owners, MutexToken.owners_eq h, ← hl]
    simp [Owns, ownersOf]
  · have hl : t.waiters.entries = l := Represents.entries_eq h
    rw [owners, RWToken.owners_eq h, ← hl]
    rfl

theorem isWaitingFor_eq (h : t.waiters.Represents l) :
    t.isWaitingFor p c = some (decide (t.WaitsFor p c)) := by
  rcases t with t | t
  · have hl : t.waiters.entries = l := Represents.entries_eq h
    rw [isWaitingFor, MutexToken.isWaitingFor_eq h, ← hl]
    simp [WaitsFor, Owns, ownersOf, waiters]
  · have hl : t.waiters.entries = l := Represents.entries_eq h
    rw [isWaitingFor, RWToken.isWaitingFor_eq h, ← hl]
    rfl

end Decide

/-- A reader is admitted without a look at the queue. -/
def Admits (p : Proxies E C) (t : Token E) (e : E) : Prop :=
  match t with
  | mutex _ => False
  | rw t => p.type e = .reader ∧ t.numWriters = 0

/-- **A renewal that goes right**: the entry does not wait behind another one of its client, which
owns a mutex token, and the position is one that `enqueue` gets right. -/
def Renews [DecidableEq E] (p : Proxies E C) (t : Token E) (e : E) (position : ℤ) : Prop :=
  t.Owns p (p.clientId e) → t.waiters.entries.length ≠ 1 → position ≠ 0 →
    match t with
    | mutex t => e ∉ t.waiters.entries.tail ∧ Between t.waiters.entries.tail position
    | rw t => Between (t.waiters.entries.erase e) position

/-! ### The queues -/

section Queues

variable [DecidableEq E] [DecidableEq C]

omit [DecidableEq E] in
theorem mutex_owns {t : MutexToken E} (h : t.waiters.Represents l) :
    Owns p (mutex t) c ↔ t.isOwner p c = true := by
  rw [MutexToken.isOwner_eq h]
  simp [Owns, ownersOf, Represents.entries_eq h]

omit [DecidableEq E] [DecidableEq C] in
theorem rw_owns {t : RWToken E} (h : t.waiters.Represents l) :
    Owns p (rw t) c ↔ p.Owns l c := by
  rw [Owns, ownersOf, h.entries_eq]
  rfl

/-- **`acquire` keeps the queue**, unless the entry is queued and would be queued again. -/
theorem acquire_represents (h : t.waiters.Represents l) {ignoreDeadlock deadlock notify : Bool}
    (hfresh : e ∈ l → t.Owns p (p.clientId e) ∨
      (ignoreDeadlock = false ∧ deadlock = true) ∧ ¬t.Admits p e) :
    ∃ t' o l', t.acquire p e ignoreDeadlock (some deadlock) notify = some (t', o) ∧
      t'.waiters.Represents l' := by
  rcases t with t | t
  · obtain ⟨t', o, l', heq, hrep⟩ := MutexToken.acquire_represents (p := p) h
      fun he => (hfresh he).imp (mutex_owns h).mp And.left
    exact ⟨mutex t', o, l', by rw [acquire, heq]; rfl, hrep⟩
  · have href : t.Refines ⟨l, t.numWriters, t.nestingLevel⟩ := ⟨h, rfl, rfl⟩
    obtain ⟨t', heq, href'⟩ := href.acquire p (RWLine.acquire_fresh fun he =>
      (hfresh he).imp_left (rw_owns h).mp)
    exact ⟨rw t', _, _, by rw [acquire, heq]; rfl, href'.waiters⟩

/-- **`tryacquire` keeps the queue**, unless a queued entry would be admitted. -/
theorem tryacquire_represents (h : t.waiters.Represents l)
    (hfresh : e ∈ l → t.Owns p (p.clientId e) ∨ ¬t.Admits p e) :
    ∃ t' o l', t.tryacquire p e = some (t', o) ∧ t'.waiters.Represents l' := by
  rcases t with t | t
  · obtain ⟨t', o, l', heq, hrep⟩ := MutexToken.tryacquire_represents h p e
    exact ⟨mutex t', o, l', by rw [tryacquire, heq]; rfl, hrep⟩
  · have href : t.Refines ⟨l, t.numWriters, t.nestingLevel⟩ := ⟨h, rfl, rfl⟩
    obtain ⟨t', heq, href'⟩ := href.tryacquire p (RWLine.tryacquire_fresh fun he =>
      (hfresh he).imp_left (rw_owns h).mp)
    exact ⟨rw t', _, _, by rw [tryacquire, heq]; rfl, href'.waiters⟩

/-- **`renew` keeps the queue** if it goes right. -/
theorem renew_represents (h : t.waiters.Represents l) {position : ℤ}
    (hrenews : t.Renews p e position) :
    ∃ t' o l', t.renew p e position = some (t', o) ∧ t'.waiters.Represents l' := by
  have hl : t.waiters.entries = l := h.entries_eq
  rcases t with t | t
  · have hl' : t.waiters.entries = l := hl
    obtain ⟨t', o, l', heq, hrep⟩ := MutexToken.renew_represents h fun howner hlen h0 => by
      have hgood := hrenews ((mutex_owns h).mpr howner) (by rwa [hl]) h0
      simpa only [hl'] using hgood
    exact ⟨mutex t', o, l', by rw [renew, heq]; rfl, hrep⟩
  · have hl' : t.waiters.entries = l := hl
    have href : t.Refines ⟨l, t.numWriters, t.nestingLevel⟩ := ⟨h, rfl, rfl⟩
    obtain ⟨t', heq, href'⟩ := href.renew p fun howns hlen h0 => by
      have hgood := hrenews ((rw_owns h).mpr howns) (by rwa [hl]) h0
      simpa only [hl'] using hgood
    exact ⟨rw t', _, _, by rw [renew, heq]; rfl, href'.waiters⟩

/-- **`release` keeps the queue.** -/
theorem proxyRelease_represents (h : t.waiters.Represents l) (p : Proxies E C) (e : E) :
    ∃ t' o l', t.proxyRelease p e = some (t', o) ∧ t'.waiters.Represents l' := by
  rcases t with t | t
  · obtain ⟨t', o, l', heq, hrep⟩ := MutexToken.release_represents h p e
    obtain ⟨t'', heq', hrep'⟩ := MutexToken.remove_represents hrep e
    simp only [proxyRelease, heq, heq', Option.bind_eq_bind, Option.bind_some, Option.pure_def]
    split_ifs
    · exact ⟨_, _, _, rfl, hrep'⟩
    · exact ⟨_, _, _, rfl, hrep⟩
  · have href : t.Refines ⟨l, t.numWriters, t.nestingLevel⟩ := ⟨h, rfl, rfl⟩
    obtain ⟨t', heq, href'⟩ := href.proxyRelease p e
    exact ⟨rw t', _, _, by rw [proxyRelease, heq]; rfl, href'.waiters⟩

end Queues

end Token

/-! ### The manager -/

namespace TokenManager

/-- **What the manager keeps.** -/
structure WellFormed [Fintype P] [DecidableEq T] (m : TokenManager E P N T) : Prop where
  names : (m.collection.map Prod.fst).Nodup
  bound : ∀ b ∈ m.collection, ∃ o, m.object b.2 = some o ∧ o.name = b.1
  collected : ∀ a o, m.object a = some o → (o.name, a) ∈ m.collection
  opened : ∀ x a, m.proxyState x = .opened a → ∃ o, m.object a = some o
  references : ∀ a o, m.object a = some o →
    o.referenceCount = (Finset.univ.filter fun x => m.proxyState x = .opened a).card
  represents : ∀ a o, m.object a = some o → ∃ l, o.token.waiters.Represents l
  clean : ∀ a, m.visited a = false

section Graph

variable [Fintype E] (k : Clients E P C) (m : TokenManager E P N T)

/-- **The client waits for this token** of the collection. -/
def Waits (c : C) (a : T) : Prop :=
  a ∈ m.collection.map Prod.snd ∧ ∃ o, m.object a = some o ∧ o.token.WaitsFor k.proxies c

/-- The client owns this token. -/
def OwnsAt (c : C) (a : T) : Prop := ∃ o, m.object a = some o ∧ o.token.Owns k.proxies c

/-- **The wait-for graph**: from a token to those that its owners wait for. -/
def LeadsTo (a a' : T) : Prop :=
  ∃ o, m.object a = some o ∧ ∃ e ∈ o.token.ownersOf k.proxies, m.Waits k (k.clientId e) a'

/-- **A deadlock**: a chain from the token to one that the client owns. -/
def Deadlock (c : C) (a : T) : Prop :=
  ∃ a', Relation.ReflTransGen (m.LeadsTo k) a a' ∧ m.OwnsAt k c a'

/-- **Each client waits for at most one token.** -/
def SingleWait : Prop := ∀ c a a', m.Waits k c a → m.Waits k c a' → a = a'

end Graph

end TokenManager

end AceTao.Tokens
