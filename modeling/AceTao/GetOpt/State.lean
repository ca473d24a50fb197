import AceTao.Library.CycleRotation

/-!
# Parsing the command line

`ACE_Get_Opt` hands out the options of a command line one by one: every call of its `operator()`
(`call`) reports the next one, and the last call returns `EOF`. Between the calls it remembers in
`optind` the element of `argv` that is scanned next and in `nextchar` what is left of the element
that is being read, since short options may be strung together in one element.

An element that begins with `-` and goes on is an option (`optionLike`); what the other elements are
for depends on the ordering. `REQUIRE_ORDER` stops at the first one, `RETURN_IN_ORDER` reports each,
and `PERMUTE_ARGS` gathers them behind the options: `permute` remembers the block of them that it
has passed (from `nonoptStart` to `nonoptEnd`) and `permuteArgs` exchanges this block with the
options behind it. The element `--` ends the options.

`longOptionI` and `shortOptionI` read one option. They look at `argv` from `optind` on only, which
is the list `rest` here, so that `++optind` takes the head off it. `none` is a read that the
language does not define. A null `argv` is not modelled.
-/

namespace GetOpt

open CycleRotation

/-- `EOF`. -/
abbrev eof : ℤ := -1

/-- A character as an `int`. -/
abbrev code (c : Char) : ℤ := c.toNat

/-- The modes of `ACE_Get_Opt`. -/
inductive ArgOrdering
  | requireOrder
  | permuteArgs
  | returnInOrder
  deriving DecidableEq, Repr

/-- The argument modes of a long option. -/
inductive ArgMode
  | noArg
  | argRequired
  | argOptional
  deriving DecidableEq, Repr

/-- An element of `argv`: a string, and the place it came at, which tells elements of equal texts
apart. -/
structure Arg where
  text : List Char
  place : ℕ
  deriving DecidableEq, Repr

/-- A long option. What is reported for it is not `EOF`. -/
structure LongOption where
  name : List Char
  hasArg : ArgMode
  val : ℤ
  val_ne_eof : val ≠ eof
  deriving DecidableEq

/-- What does not change while the command line is parsed. -/
structure Config where
  optstring : List Char
  longOpts : List LongOption
  longOnly : Bool
  hasColon : Bool
  ordering : ArgOrdering
  deriving DecidableEq

/-- The leading characters of `optstring` that set the ordering and the report of a missing
argument. -/
def Config.readFlags (cfg : Config) : List Char → Config
  | '+' :: rest => { cfg with ordering := .requireOrder }.readFlags rest
  | '-' :: rest => { cfg with ordering := .returnInOrder }.readFlags rest
  | ':' :: rest => { cfg with hasColon := true }.readFlags rest
  | _ => cfg

/-- The configuration that the constructor leaves; `posixlyCorrect` says that the environment has
`POSIXLY_CORRECT`. -/
def Config.init (posixlyCorrect : Bool) (optstring : List Char) (ordering : ArgOrdering)
    (longOnly : Bool) : Config :=
  { optstring := optstring, longOpts := [], longOnly := longOnly, hasColon := false,
    ordering := if posixlyCorrect then .requireOrder else ordering : Config }.readFlags optstring

/-- `ACE_Get_Opt`, with `argc` the length of `argv`. -/
structure State where
  argv : List Arg
  optind : ℕ
  optarg : Option (List Char)
  nextchar : Option (List Char)
  optopt : ℤ
  nonoptStart : ℕ
  nonoptEnd : ℕ
  longOption : Option LongOption
  lastOption : List Char
  deriving DecidableEq

/-- The elements of `argv`. -/
def argvOf (texts : List (List Char)) : List Arg :=
  texts.zipIdx.map fun e => ⟨e.1, e.2⟩

/-- The state that the constructor leaves. -/
def start (argv : List Arg) (skip : ℕ) : State :=
  { argv := argv, optind := skip, optarg := none, nextchar := none, optopt := 0,
    nonoptStart := skip, nonoptEnd := skip, longOption := none, lastOption := [] }

/-- The element that ends the options. -/
abbrev marker : List Char := ['-', '-']

/-- Whether a text begins with `-` and goes on. -/
def optionLike : List Char → Bool
  | '-' :: _ :: _ => true
  | _ => false

/-! ### Permuting the arguments -/

/-- `ACE::gcd`. -/
def gcd (x y : ℕ) : ℕ :=
  if _h : y = 0 then x else gcd y (x % y)
termination_by y
decreasing_by exact Nat.mod_lt x (Nat.pos_of_ne_zero _h)

/-- `permute_args`: the block of non-options changes places with the options behind it. -/
def permuteArgs (g : State) : State :=
  let nnonopts := g.nonoptEnd - g.nonoptStart
  let nopts := g.optind - g.nonoptEnd
  let ncycle := gcd nnonopts nopts
  let cyclelen := (g.optind - g.nonoptStart) / ncycle
  let move := fun pos => if g.nonoptEnd ≤ pos then pos - nnonopts else pos + nopts
  { g with
    optind := g.optind - nnonopts
    argv := followCycles move g.nonoptEnd ncycle cyclelen g.argv }

/-- The non-options that come first. -/
def countNonoptions : List Arg → ℕ
  | [] => 0
  | e :: rest => if optionLike e.text then 0 else countNonoptions rest + 1

/-- The first part of `permute`: the options that were read since the last call go before the
non-options passed there, and then the non-options up to the next option are passed. -/
def passNonoptions (g : State) : State :=
  let g := if g.nonoptStart ≠ g.nonoptEnd ∧ g.nonoptStart ≠ g.optind then permuteArgs g else g
  let next := g.optind + countNonoptions (g.argv.drop g.optind)
  { g with nonoptStart := g.optind, optind := next, nonoptEnd := next }

/-- The second part of `permute`: if the end of the options is found, it goes before the
non-options too. -/
def passMarker (g : State) : State :=
  if (g.argv[g.optind]?).map Arg.text = some marker then
    let g := { g with optind := g.optind + 1 }
    if g.nonoptStart ≠ g.nonoptEnd ∧ g.nonoptEnd ≠ g.optind then permuteArgs g else g
  else g

/-- `permute`. -/
def permute (g : State) : Option (ℤ × State) :=
  let g := passNonoptions g
  if g.argv.length < g.optind then none
  else
    let g := passMarker g
    if g.optind = g.argv.length then
      some (eof, if g.nonoptStart ≠ g.nonoptEnd then { g with optind := g.nonoptStart } else g)
    else some (0, g)

/-! ### The next element -/

/-- `nextchar_i` without the permutation. -/
def scanElement (cfg : Config) (g : State) : ℤ × State :=
  match g.argv[g.optind]? with
  | none => (eof, { g with nextchar := none })
  | some e =>
    if optionLike e.text = false then
      if cfg.ordering = .requireOrder ∨ cfg.ordering = .permuteArgs then
        (eof, { g with nextchar := some e.text })
      else
        (1, { g with optarg := some e.text, optind := g.optind + 1, nextchar := none })
    else if e.text = marker then
      (eof, { g with optind := g.optind + 1, nextchar := none })
    else
      let rest := e.text.tail
      -- of a long option, both hyphens are passed
      (0, { g with
        nextchar := some (if rest.head? = some '-' ∧ cfg.longOpts ≠ [] then rest.tail else rest) })

/-- `nextchar_i`. -/
def nextcharI (cfg : Config) (g : State) : Option (ℤ × State) :=
  if cfg.ordering = .permuteArgs then
    (permute g).map fun p => if p.1 = eof then p else scanElement cfg p.2
  else some (scanElement cfg g)

/-! ### One option -/

/-- What the reading of an option leaves: the value returned, the rest of `argv`, and the fields
that are set. -/
structure Reply where
  code : ℤ
  rest : List Arg
  nextchar : Option (List Char)
  optarg : Option (List Char)
  optopt : Option ℤ
  longOption : Option LongOption
  lastOption : List Char
  deriving DecidableEq

/-- An option that is refused. -/
def refused (rest : List Arg) (nextchar : Option (List Char)) (lastOption : List Char) : Reply :=
  { code := code '?', rest := rest, nextchar := nextchar, optarg := none, optopt := none,
    longOption := none, lastOption := lastOption }

/-- What is returned for an option whose argument is missing. -/
def Config.missing (cfg : Config) : ℤ := if cfg.hasColon then code ':' else code '?'

/-- The search for a long option: how many names begin with the one given, whether one is it, and
the last one found. -/
def findLong (name : List Char) :
    List LongOption → ℕ → Option LongOption → ℕ × Bool × Option LongOption
  | [], hits, pfound => (hits, false, pfound)
  | p :: ps, hits, pfound =>
    if name.isPrefixOf p.name then
      if name.length = p.name.length then (hits + 1, true, some p)
      else findLong name ps (hits + 1) (some p)
    else findLong name ps hits pfound

/-- A long option that is found, `s` being what follows its name in the element: nothing, or `=`
and the argument. -/
def longFound (cfg : Config) (p : LongOption) (name s : List Char) (rest : List Arg) : Reply :=
  let reply := fun (rest : List Arg) (optarg : Option (List Char)) =>
    { code := p.val, rest := rest, nextchar := none, optarg := optarg, optopt := some p.val,
      longOption := some p, lastOption := name : Reply }
  match s with
  | _ :: arg => reply rest.tail (if p.hasArg ≠ .noArg then some arg else none)
  | [] =>
    if p.hasArg = .argRequired then
      match rest.tail with
      | arg :: rest => reply rest (some arg.text)
      | [] => { refused [] none name with code := cfg.missing, optopt := some p.val }
    else reply rest.tail none

/-- A short option that is found, `oli` being `optstring` from its character on and `more` the
characters that follow in the element. -/
def shortFound (cfg : Config) (opt : Char) (oli more : List Char) (rest : List Arg) : Reply :=
  let reply := fun (rest : List Arg) (nextchar optarg : Option (List Char)) =>
    { code := code opt, rest := rest, nextchar := nextchar, optarg := optarg,
      optopt := some (code opt), longOption := none, lastOption := [opt] : Reply }
  if oli[1]? = some ':' then
    if more ≠ [] then reply rest.tail none (some more)
    else if oli[2]? = some ':' then reply rest none none
    else
      match rest with
      | arg :: rest => reply rest none (some arg.text)
      | [] => { reply [] none none with code := cfg.missing }
  else reply rest (some more) none

mutual

/-- `long_option_i`. -/
def longOptionI (cfg : Config) (rest : List Arg) (nextchar : List Char) : Option Reply :=
  let name := nextchar.takeWhile (· ≠ '=')
  let s := nextchar.dropWhile (· ≠ '=')
  match findLong name cfg.longOpts 0 none with
  | (hits, exact, pfound) =>
    if 1 < hits ∧ exact = false then some (refused rest.tail none name)
    else
      match pfound with
      | some p => some (longFound cfg p name s rest)
      | none =>
        if cfg.longOnly = false then some (refused rest.tail none name)
        else
          match rest, nextchar with
          | [], _ => none
          | _, [] => none
          | e :: rest, opt :: more =>
            -- the second character of an empty element lies beyond it
            if e.text = [] then none
            else if e.text[1]? = some '-' ∨ opt ∉ cfg.optstring then some (refused rest none name)
            else shortOptionI cfg (e :: rest) (opt :: more)
termination_by (rest.length, nextchar.length, 1)

/-- `short_option_i`. -/
def shortOptionI (cfg : Config) (rest : List Arg) (nextchar : List Char) : Option Reply :=
  match nextchar with
  | [] => none
  | opt :: more =>
    let oli := cfg.optstring.dropWhile (· ≠ opt)
    if oli = [] ∨ opt = ':' then
      some (refused (if more = [] then rest.tail else rest) (some more) [opt])
    else if opt = 'W' ∧ oli[1]? = some ';' then
      match more with
      | [] =>
        match rest with
        | [] => none
        | _ :: [] => none
        | _ :: e :: rest => longOptionI cfg (e :: rest) e.text
      | c :: more => longOptionI cfg rest (c :: more)
    else some (shortFound cfg opt oli more (if more = [] then rest.tail else rest))
termination_by (rest.length, nextchar.length, 0)

end

/-- The second half of `operator()`: the option at the head of the rest. -/
def optionI (cfg : Config) (rest : List Arg) (nextchar : List Char) : Option Reply :=
  match rest with
  | [] => none
  | e :: _ =>
    if marker.isPrefixOf e.text ∨ cfg.longOnly then longOptionI cfg rest nextchar
    else shortOptionI cfg rest nextchar

/-! ### A call -/

/-- Whether `nextchar` has no character left. -/
def usedUp (nextchar : Option (List Char)) : Bool := nextchar.getD [] = []

/-- The first half of `operator()`: the next element, unless one is being read. -/
def advance (cfg : Config) (g : State) : Option (ℤ × State) :=
  let g := { g with optarg := none, longOption := none }
  if usedUp g.nextchar then nextcharI cfg g else some (0, g)

/-- The state with what the reading of an option has set. -/
def record (g : State) (reply : Reply) : State :=
  { g with
    optind := g.argv.length - reply.rest.length
    nextchar := reply.nextchar
    optarg := reply.optarg
    optopt := reply.optopt.getD g.optopt
    longOption := reply.longOption
    lastOption := reply.lastOption }

/-- `operator()`. -/
def call (cfg : Config) (g : State) : Option (ℤ × State) :=
  (advance cfg g).bind fun (r, g) =>
    if r ≠ 0 then some (r, g)
    else
      (optionI cfg (g.argv.drop g.optind) (g.nextchar.getD [])).map fun reply =>
        (reply.code, record g reply)

end GetOpt

/-!
## Reading one option

Whatever an option is, reading it goes forward in `argv`: what is left is a suffix of what was
there, a shorter one once the characters of the element are used up, and what is reported is not
`EOF` (`Reads`). `reads_of_optionI` says so of `optionI`; it is proved along the calls of
`longOptionI` and `shortOptionI` to one another.
-/

namespace GetOpt

variable {cfg : Config} {rest : List Arg} {nextchar : List Char} {r : Reply}

/-- **The reading of an option** goes forward. -/
structure Reads (rest : List Arg) (r : Reply) : Prop where
  suffix : r.rest <:+ rest
  shorter : usedUp r.nextchar = true → r.rest.length < rest.length
  code_ne_eof : r.code ≠ eof

theorem code_ne_eof (c : Char) : code c ≠ eof := by
  rw [code, eof]
  omega

theorem missing_ne_eof : cfg.missing ≠ eof := by
  rw [Config.missing]
  split <;> exact code_ne_eof _

theorem usedUp_some {cs : List Char} : usedUp (some cs) = true ↔ cs = [] := by
  rw [usedUp, Option.getD_some, decide_eq_true_iff]

/-- What is left when an element has been passed. -/
theorem reads_of_tail (hrest : rest ≠ []) (hsuffix : r.rest <:+ rest.tail) (hcode : r.code ≠ eof) :
    Reads rest r := by
  refine ⟨hsuffix.trans (List.tail_suffix rest), fun _ => ?_, hcode⟩
  have hle := hsuffix.length_le
  have hpos := List.length_pos_iff.mpr hrest
  rw [List.length_tail] at hle
  omega

theorem Reads.cons {e : Arg} (h : Reads rest r) : Reads (e :: rest) r := by
  refine ⟨h.suffix.trans (List.suffix_cons e rest), fun hused => ?_, h.code_ne_eof⟩
  exact Nat.lt_succ_of_lt (h.shorter hused)

theorem longFound_reads {p : LongOption} {name s : List Char} (hrest : rest ≠ []) :
    Reads rest (longFound cfg p name s rest) := by
  rw [longFound.eq_def]
  cases s with
  | cons c arg => exact reads_of_tail hrest List.suffix_rfl p.val_ne_eof
  | nil =>
    by_cases harg : p.hasArg = .argRequired
    · dsimp only
      rw [if_pos harg]
      cases htail : rest.tail with
      | nil =>
        refine reads_of_tail hrest ?_ missing_ne_eof
        rw [htail]
        exact List.nil_suffix
      | cons arg rest' =>
        refine reads_of_tail hrest ?_ p.val_ne_eof
        rw [htail]
        exact List.suffix_cons arg rest'
    · dsimp only
      rw [if_neg harg]
      exact reads_of_tail hrest List.suffix_rfl p.val_ne_eof

/-- A short option that is found is the last of its element if no character follows it, or if it
takes those that follow as its argument. -/
theorem shortFound_reads {opt : Char} {oli more : List Char} (hrest : rest ≠ []) :
    Reads rest (shortFound cfg opt oli more (if more = [] then rest.tail else rest)) := by
  rw [shortFound.eq_def]
  dsimp only
  by_cases hmore : more = []
  · simp only [hmore, if_true, ne_eq, not_true_eq_false, if_false]
    by_cases harg : oli[1]? = some ':'
    · rw [if_pos harg]
      by_cases hopt : oli[2]? = some ':'
      · rw [if_pos hopt]
        exact reads_of_tail hrest List.suffix_rfl (code_ne_eof opt)
      · rw [if_neg hopt]
        cases htail : rest.tail with
        | nil =>
          refine reads_of_tail hrest ?_ missing_ne_eof
          simp only [htail, List.nil_suffix]
        | cons arg rest' =>
          refine reads_of_tail hrest ?_ (code_ne_eof opt)
          rw [htail]
          exact List.suffix_cons arg rest'
    · rw [if_neg harg]
      exact reads_of_tail hrest List.suffix_rfl (code_ne_eof opt)
  · simp only [hmore, if_false, ne_eq, not_false_eq_true, if_true]
    by_cases harg : oli[1]? = some ':'
    · rw [if_pos harg]
      exact reads_of_tail hrest List.suffix_rfl (code_ne_eof opt)
    · rw [if_neg harg]
      exact ⟨List.suffix_rfl, fun h => absurd (usedUp_some.mp h) hmore, code_ne_eof opt⟩

theorem refused_reads {nc : Option (List Char)} {name : List Char} (hrest : rest ≠ []) :
    Reads rest (refused rest.tail nc name) :=
  reads_of_tail hrest List.suffix_rfl (code_ne_eof '?')

/-- What `longOptionI` reads itself goes forward; the rest is what `shortOptionI` reads. -/
theorem longOptionI_reads (hrest : rest ≠ [])
    (hshort : shortOptionI cfg rest nextchar = some r → Reads rest r)
    (h : longOptionI cfg rest nextchar = some r) : Reads rest r := by
  rw [longOptionI.eq_def] at h
  dsimp only at h
  obtain ⟨⟨hits, exact, pfound⟩, hfind⟩ :
      ∃ found, findLong (nextchar.takeWhile (· ≠ '=')) cfg.longOpts 0 none = found := ⟨_, rfl⟩
  rw [hfind] at h
  dsimp only at h
  by_cases hhits : 1 < hits ∧ exact = false
  · rw [if_pos hhits] at h
    exact Option.some.inj h ▸ refused_reads hrest
  · rw [if_neg hhits] at h
    cases pfound with
    | some p => exact Option.some.inj h ▸ longFound_reads hrest
    | none =>
      dsimp only at h
      by_cases honly : cfg.longOnly = false
      · rw [if_pos honly] at h
        exact Option.some.inj h ▸ refused_reads hrest
      · rw [if_neg honly] at h
        match rest, nextchar, h with
        | e :: rest, opt :: more, h =>
          dsimp only at h
          by_cases htext : e.text = []
          · rw [if_pos htext] at h
            exact nomatch h
          · rw [if_neg htext] at h
            by_cases hbad : e.text[1]? = some '-' ∨ opt ∉ cfg.optstring
            · rw [if_pos hbad] at h
              exact Option.some.inj h ▸ refused_reads hrest
            · rw [if_neg hbad] at h
              exact hshort h

/-- The two functions call one another on fewer elements, or on fewer characters of one. -/
theorem shortOptionI_reads (hrest : rest ≠ []) (h : shortOptionI cfg rest nextchar = some r) :
    Reads rest r := by
  induction rest generalizing nextchar with
  | nil => exact absurd rfl hrest
  | cons x rest ihrest =>
    induction nextchar with
    | nil =>
      rw [shortOptionI.eq_def] at h
      exact nomatch h
    | cons opt more ihmore =>
      rw [shortOptionI.eq_def] at h
      dsimp only at h
      by_cases hbad : cfg.optstring.dropWhile (· ≠ opt) = [] ∨ opt = ':'
      · rw [if_pos hbad] at h
        rw [← Option.some.inj h]
        by_cases hmore : more = []
        · rw [if_pos hmore]
          exact refused_reads hrest
        · rw [if_neg hmore]
          exact ⟨List.suffix_rfl, fun hused => absurd (usedUp_some.mp hused) hmore,
            code_ne_eof '?'⟩
      · rw [if_neg hbad] at h
        by_cases hW : opt = 'W' ∧ (cfg.optstring.dropWhile (· ≠ opt))[1]? = some ';'
        · rw [if_pos hW] at h
          cases more with
          | cons c more => exact longOptionI_reads hrest ihmore h
          | nil =>
            cases rest with
            | nil => exact nomatch h
            | cons e rest =>
              have hne : e :: rest ≠ [] := List.cons_ne_nil e rest
              exact (longOptionI_reads hne (ihrest hne) h).cons
        · rw [if_neg hW] at h
          exact Option.some.inj h ▸ shortFound_reads hrest

/-- **An option that is read goes forward.** -/
theorem reads_of_optionI (h : optionI cfg rest nextchar = some r) : Reads rest r := by
  rw [optionI.eq_def] at h
  match rest, h with
  | e :: rest, h =>
    dsimp only at h
    by_cases hlong : marker.isPrefixOf e.text ∨ cfg.longOnly
    · rw [if_pos hlong] at h
      exact longOptionI_reads (List.cons_ne_nil _ _) (shortOptionI_reads (List.cons_ne_nil _ _)) h
    · rw [if_neg hlong] at h
      exact shortOptionI_reads (List.cons_ne_nil _ _) h

end GetOpt
