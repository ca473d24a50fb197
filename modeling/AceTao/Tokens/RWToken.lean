import AceTao.Tokens.ProxyQueue

/-!
# The readers/writer token

`ACE_RW_Token`: one queue of entries, the number of writers, and the nesting levels of the entries.
Who owns the token follows from the queue alone: the writer at its head, or all the readers before
the first writer. The token knows of a client by its id only, so a client that owns it acquires it
again through whatever proxy it uses (`RWToken.acquire`).

A function of the token returns an answer, and it calls the proxies back: `token_acquired` of those
that have become owners, and the sleep hooks of the owners when somebody has to wait. Where a loop
along the queue has no end a function has no answer at all.

`ACE_Token_Proxy::release` removes the entry of its caller when the token has no release for it
(`RWToken.proxyRelease`); `ACE_Token_Proxy::remove` does nothing.
-/

namespace AceTao.Tokens

/-- `ACE_RW_Token::PROXY_TYPE`: the proxies are an `ACE_Local_RLock` or an `ACE_Local_WLock`. -/
inductive ProxyType
  | reader
  | writer
  deriving DecidableEq

/-- What an entry is made with: the id of its client, and its proxy, of which a token looks at the
`type ()`. -/
structure Proxies (E C : Type) where
  clientId : E → C
  type : E → ProxyType

/-- What the operations of a token return: `0`, or `-1` with this `errno`. -/
inductive Answer
  | success
  | eDeadlk
  | eWouldBlock
  | eAcces
  deriving DecidableEq

/-- The answer of an operation, the entries it calls `token_acquired` for, and those whose sleep
hook it calls. -/
structure Outcome (E : Type) where
  answer : Answer
  acquired : List E := []
  slept : List E := []
  deriving DecidableEq

/-- `ACE_RW_Token`, with the nesting levels of its entries. They are lowered only where they are
positive. -/
structure RWToken (E : Type) where
  waiters : ProxyQueue E
  numWriters : ℤ
  nestingLevel : E → ℕ

namespace RWToken

variable {E C : Type}

/-- The constructor; the entries are new as well. -/
def init : RWToken E := ⟨.empty, 0, fun _ => 0⟩

def owner (t : RWToken E) : Option E := t.waiters.head

variable [DecidableEq E]

/-- A change of `num_writers_` that is made for the proxies of writers. -/
def countWriter (p : Proxies E C) (t : RWToken E) (caller : E) (delta : ℤ) : RWToken E :=
  if p.type caller = .writer then { t with numWriters := t.numWriters + delta } else t

/-- `enqueue` on the waiters. -/
def enqueue (t : RWToken E) (caller : E) (position : ℤ) : Option (RWToken E) :=
  (t.waiters.enqueue caller position).map fun q => { t with waiters := q }

/-- A recursive acquisition. -/
def nest (t : RWToken E) (caller : E) : RWToken E :=
  { t with nestingLevel := Function.update t.nestingLevel caller (t.nestingLevel caller + 1) }

/-- A recursive release. -/
def unnest (t : RWToken E) (caller : E) : RWToken E :=
  { t with nestingLevel := Function.update t.nestingLevel caller (t.nestingLevel caller - 1) }

variable [Fintype E]

/-- `ACE_Tokens::remove`. -/
def remove (t : RWToken E) (caller : E) : Option (RWToken E) :=
  (t.waiters.remove caller).map fun q => { t with waiters := q }

/-! ### The owners -/

/-- The body of the loop that goes through the readers up to the first writer. -/
def readerBody (p : Proxies E C) (readers : List E) (temp : E) : List E ⊕ List E :=
  if p.type temp = .writer then .inr readers else .inl (readers ++ [temp])

/-- The readers from `current` up to the first writer. -/
def readersFrom (p : Proxies E C) (t : RWToken E) (current : Option E) : Option (List E) :=
  (t.waiters.walk (readerBody p) current []).map fun r => r.elim id id

section Client

variable [DecidableEq C]

/-- The body of the loop of `is_owner`. -/
def isOwnerBody (p : Proxies E C) (id : C) (_ : Unit) (temp : E) : Unit ⊕ Bool :=
  if p.type temp ≠ .reader then .inr false
  else if p.clientId temp = id then .inr true
  else .inl ()

/-- `is_owner`. -/
def isOwner (p : Proxies E C) (t : RWToken E) (id : C) : Option Bool :=
  match t.owner with
  | none => some false
  | some owner =>
    if p.type owner = .writer then some (p.clientId owner = id)
    else (t.waiters.walk (isOwnerBody p id) t.waiters.head ()).map fun r =>
      r.elim (fun _ => false) fun b => b

/-- `owners`: the stack of the owners, in the order in which they are pushed, and whether the client
is among them. -/
def owners (p : Proxies E C) (t : RWToken E) (id : C) : Option (List E × Bool) :=
  match t.owner with
  | none => some ([], false)
  | some owner =>
    if p.type owner = .writer then some ([owner], p.clientId owner = id)
    else (t.readersFrom p t.waiters.head).map fun readers =>
      (readers, readers.any fun temp => p.clientId temp = id)

/-- The body of the loop of `is_waiting_for`. -/
def isWaitingForBody (p : Proxies E C) (id : C) (_ : Unit) (temp : E) : Unit ⊕ Bool :=
  if p.clientId temp = id then .inr true else .inl ()

/-- `is_waiting_for`. -/
def isWaitingFor (p : Proxies E C) (t : RWToken E) (id : C) : Option Bool :=
  match t.owner with
  | none => some false
  | some owner => do
    if ← t.isOwner p id then
      return false
    else
      let r ← t.waiters.walk (isWaitingForBody p id) (t.waiters.next owner) ()
      return r.elim (fun _ => false) fun b => b

end Client

/-- `notify_new_owner`: the entries it calls `token_acquired` for. -/
def notifyNewOwner (p : Proxies E C) (t : RWToken E) (oldOwner : E) : Option (List E) :=
  match t.owner with
  | none => some []
  | some owner =>
    if p.type owner = .reader then
      -- behind a reader the owners already know that they are owners
      if p.type oldOwner = .reader then some [] else t.readersFrom p t.waiters.head
    else some [owner]

/-- The sleep hooks that `acquire` calls: that of the owner if it is a writer, otherwise those of
the readers that own the token. -/
def callSleepHooks (p : Proxies E C) (t : RWToken E) : Option (List E) :=
  match t.owner with
  | none => none
  | some owner =>
    if p.type owner = .writer then some [owner]
    else (t.readersFrom p (t.waiters.next owner)).map fun readers => owner :: readers

/-! ### The operations -/

variable [DecidableEq C]

/-- `acquire`. `checkDeadlock` is what `ACE_Token_Manager::check_deadlock` returns when it is
called, if it returns. -/
def acquire (p : Proxies E C) (t : RWToken E) (caller : E) (ignoreDeadlock : Bool)
    (checkDeadlock : Option Bool) (notify : Bool) : Option (RWToken E × Outcome E) := do
  let t := t.countWriter p caller 1
  if t.owner = none then
    let t ← t.enqueue caller (-1)
    return (t, { answer := .success })
  else if ← t.isOwner p (p.clientId caller) then
    return (t.nest caller, { answer := .success })
  else if p.type caller = .reader ∧ t.numWriters = 0 then
    let t ← t.enqueue caller (-1)
    return (t, { answer := .success })
  else if ← if ignoreDeadlock then some false else checkDeadlock then
    return (t.countWriter p caller (-1), { answer := .eDeadlk })
  else
    let t ← t.enqueue caller (-1)
    let slept ← if notify then t.callSleepHooks p else some []
    return (t, { answer := .eWouldBlock, slept := slept })

/-- `tryacquire`. -/
def tryacquire (p : Proxies E C) (t : RWToken E) (caller : E) :
    Option (RWToken E × Outcome E) := do
  let t := t.countWriter p caller 1
  if t.owner = none then
    let t ← t.enqueue caller (-1)
    return (t, { answer := .success })
  else if ← t.isOwner p (p.clientId caller) then
    return (t.nest caller, { answer := .success })
  else if p.type caller = .reader ∧ t.numWriters = 0 then
    let t ← t.enqueue caller (-1)
    return (t, { answer := .success })
  else
    return (t.countWriter p caller (-1), { answer := .eWouldBlock })

/-- `renew`. -/
def renew (p : Proxies E C) (t : RWToken E) (caller : E) (requeuePosition : ℤ) :
    Option (RWToken E × Outcome E) := do
  if !(← t.isOwner p (p.clientId caller)) then
    return (t, { answer := .eAcces })
  else if t.waiters.size = 1 ∨ requeuePosition = 0 then
    return (t, { answer := .success })
  else
    let t ← t.remove caller
    let t ← t.enqueue caller requeuePosition
    -- a reader that got queued before any writer is still an owner
    if ← if p.type caller = .reader then t.isOwner p (p.clientId caller) else some false then
      return (t, { answer := .success })
    else
      let acquired ← t.notifyNewOwner p caller
      return (t, { answer := .eWouldBlock, acquired := acquired })

/-- `release`. -/
def release (p : Proxies E C) (t : RWToken E) (caller : E) : Option (RWToken E × Outcome E) := do
  if t.owner = none ∨ !(← t.isOwner p (p.clientId caller)) then
    return (t, { answer := .eAcces })
  else
    let t := t.countWriter p caller (-1)
    if 0 < t.nestingLevel caller then
      return (t.unnest caller, { answer := .success })
    else
      let t ← t.remove caller
      let acquired ← t.notifyNewOwner p caller
      return (t, { answer := .success, acquired := acquired })

/-- `ACE_Token_Proxy::release`: the caller is removed from the waiters when it has nothing to
release. The entry may still count as a writer then. -/
def proxyRelease (p : Proxies E C) (t : RWToken E) (caller : E) :
    Option (RWToken E × Outcome E) := do
  let (t, outcome) ← t.release p caller
  if outcome.answer ≠ .success then
    let t ← t.remove caller
    return (t, outcome)
  else
    return (t, outcome)

end RWToken

end AceTao.Tokens
