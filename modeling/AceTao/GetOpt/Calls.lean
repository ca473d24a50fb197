import AceTao.GetOpt.Permute
import Mathlib.Logic.Relation

/-!
# The calls of `operator()`

The program calls `operator()` until it returns `EOF`. `Steps` is one call that does not, and
`Interprets` says that a call takes an element of `argv` for an option, or goes on with one that it
has taken for an option before.

The calls that read an option to the end of its characters depend on nothing but `argv` from there
on: `ReadsTo` says what they leave of it. `Steps.reads` follows them from any state.
-/

namespace GetOpt

open Relation

variable {cfg : Config} {g g' g₁ g₂ : State} {rest rest' : List Arg} {nextchar : List Char}
  {e x : Arg} {r : ℤ}

/-! ### The next element -/

/-- The characters of an option, without the hyphens that are passed. -/
def optionChars (cfg : Config) (text : List Char) : List Char :=
  if text.tail.head? = some '-' ∧ cfg.longOpts ≠ [] then text.tail.tail else text.tail

/-- At a non-option, `REQUIRE_ORDER` and `PERMUTE_ARGS` end. -/
theorem scanElement_nonoption (hget : g.argv[g.optind]? = some e) (he : optionLike e.text = false)
    (hord : cfg.ordering ≠ .returnInOrder) :
    scanElement cfg g = (eof, { g with nextchar := some e.text }) := by
  have hord' : cfg.ordering = .requireOrder ∨ cfg.ordering = .permuteArgs := by
    cases h : cfg.ordering with
    | requireOrder => exact Or.inl rfl
    | permuteArgs => exact Or.inr rfl
    | returnInOrder => exact absurd h hord
  rw [scanElement, hget]
  dsimp only
  rw [if_pos he, if_pos hord']

/-- `RETURN_IN_ORDER` returns a non-option. -/
theorem scanElement_inOrder (hget : g.argv[g.optind]? = some e) (he : optionLike e.text = false)
    (hord : cfg.ordering = .returnInOrder) :
    scanElement cfg g =
      (1, { g with optarg := some e.text, optind := g.optind + 1, nextchar := none }) := by
  rw [scanElement, hget]
  dsimp only
  rw [if_pos he, hord, if_neg (by decide)]

theorem scanElement_marker (hget : g.argv[g.optind]? = some e) (he : e.text = marker) :
    scanElement cfg g = (eof, { g with optind := g.optind + 1, nextchar := none }) := by
  rw [scanElement, hget]
  dsimp only
  rw [he, if_neg (by decide), if_pos rfl]

theorem scanElement_option (hget : g.argv[g.optind]? = some e) (he : optionLike e.text = true)
    (hm : e.text ≠ marker) :
    scanElement cfg g = (0, { g with nextchar := some (optionChars cfg e.text) }) := by
  have he' : ¬optionLike e.text = false := by
    rw [he]
    exact Bool.noConfusion
  rw [scanElement, hget]
  dsimp only
  rw [if_neg he', if_neg hm]
  rfl

/-! ### One call -/

/-- A call that does not return `EOF`. -/
def Steps (cfg : Config) (g g' : State) : Prop := ∃ r, call cfg g = some (r, g') ∧ r ≠ eof

/-- The call from this state takes the element for an option. -/
def Interprets (cfg : Config) (g : State) (e : Arg) : Prop :=
  ∃ g', advance cfg g = some (0, g') ∧ g'.argv[g'.optind]? = some e

theorem Steps.unique (h₁ : Steps cfg g g₁) (h₂ : Steps cfg g g₂) : g₁ = g₂ := by
  obtain ⟨r₁, hcall₁, -⟩ := h₁
  obtain ⟨r₂, hcall₂, -⟩ := h₂
  exact congrArg Prod.snd (Option.some.inj (hcall₁.symm.trans hcall₂))

theorem call_of_advance_ne (h : advance cfg g = some (r, g')) (hr : r ≠ 0) :
    call cfg g = some (r, g') := by
  rw [call, h, Option.bind_some]
  exact if_pos hr

theorem call_of_advance (h : advance cfg g = some (0, g')) :
    call cfg g = (optionI cfg (g'.argv.drop g'.optind) (g'.nextchar.getD [])).map
      fun reply => (reply.code, record g' reply) := by
  rw [call, h, Option.bind_some]
  exact if_neg (not_not_intro rfl)

theorem not_interprets_of_advance (h : advance cfg g = some (r, g')) (hr : r ≠ 0) :
    ¬Interprets cfg g e := by
  rintro ⟨g₀, h₀, -⟩
  exact hr (congrArg Prod.fst (Option.some.inj (h.symm.trans h₀)))

theorem interprets_iff (h : advance cfg g = some (0, g')) :
    Interprets cfg g e ↔ g'.argv[g'.optind]? = some e := by
  refine ⟨?_, fun hget => ⟨g', h, hget⟩⟩
  rintro ⟨g₀, h₀, hget⟩
  have hg : g' = g₀ := congrArg Prod.snd (Option.some.inj (h.symm.trans h₀))
  exact hg ▸ hget

/-- The state in which a call looks for the next element. -/
def fresh (g : State) : State := { g with optarg := none, longOption := none }

theorem advance_usedUp (h : usedUp g.nextchar = true) :
    advance cfg g = nextcharI cfg (fresh g) := by
  rw [advance]
  exact if_pos h

theorem advance_more (h : g.nextchar = some nextchar) (hne : nextchar ≠ []) :
    advance cfg g = some (0, fresh g) := by
  rw [advance]
  refine if_neg fun hused => hne ?_
  exact usedUp_some.mp (h ▸ hused)

/-! ### Reading an option to its end -/

/-- **The calls that read an option**, until its characters are used up. -/
inductive ReadsTo (cfg : Config) : List Arg → List Char → List Arg → Prop
  | last {rest : List Arg} {nextchar : List Char} {r : Reply}
      (hread : optionI cfg rest nextchar = some r) (hused : usedUp r.nextchar = true) :
      ReadsTo cfg rest nextchar r.rest
  | more {rest rest' : List Arg} {nextchar nextchar' : List Char} {r : Reply}
      (hread : optionI cfg rest nextchar = some r) (hmore : r.nextchar = some nextchar')
      (hne : nextchar' ≠ []) (hrest : ReadsTo cfg r.rest nextchar' rest') :
      ReadsTo cfg rest nextchar rest'

theorem ReadsTo.suffix (h : ReadsTo cfg rest nextchar rest') : rest' <:+ rest := by
  induction h with
  | last hread _ => exact (reads_of_optionI hread).suffix
  | more hread _ _ _ ih => exact ih.trans (reads_of_optionI hread).suffix

theorem ReadsTo.shorter (h : ReadsTo cfg rest nextchar rest') : rest'.length < rest.length := by
  induction h with
  | last hread hused => exact (reads_of_optionI hread).shorter hused
  | more hread _ _ _ ih => exact lt_of_lt_of_le ih (reads_of_optionI hread).suffix.length_le

/-- In a list without repetitions, the head is not in a proper suffix. -/
theorem not_mem_of_suffix {l s : List Arg} (hnodup : (x :: l).Nodup) (hs : s <:+ x :: l)
    (hlt : s.length < (x :: l).length) : x ∉ s := by
  intro hx
  rcases List.suffix_cons_iff.mp hs with rfl | hs
  · exact absurd hlt (lt_irrefl _)
  · exact (List.nodup_cons.mp hnodup).1 (hs.mem hx)

theorem drop_record {reply : Reply} (hsuffix : reply.rest <:+ g.argv) :
    (record g reply).argv.drop (record g reply).optind = reply.rest := by
  change g.argv.drop (g.argv.length - reply.rest.length) = reply.rest
  exact (List.suffix_iff_eq_drop.mp hsuffix).symm

/-- A call that goes on and takes none of the elements `after` for an option. -/
def Passes (cfg : Config) (after : List Arg) (g g' : State) : Prop :=
  Steps cfg g g' ∧ ∀ e ∈ after, ¬Interprets cfg g e

/-- What the calls that read an option leave of a state: only `optind` has moved in `argv`. -/
structure HasRead (rest : List Arg) (g g' : State) : Prop where
  argv_eq : g'.argv = g.argv
  start_eq : g'.nonoptStart = g.nonoptStart
  end_eq : g'.nonoptEnd = g.nonoptEnd
  optind_eq : g'.optind = g.argv.length - rest.length
  usedUp : usedUp g'.nextchar = true

/-- One of the calls that read an option. -/
theorem passes_record {after : List Arg} {reply : Reply} (hadvance : advance cfg g = some (0, g₁))
    (hdrop : g₁.argv.drop g₁.optind = rest) (hnext : g₁.nextchar.getD [] = nextchar)
    (hread : optionI cfg rest nextchar = some reply) (hnodup : rest.Nodup)
    (hafter : after <:+ rest) (hlt : after.length < rest.length) :
    Passes cfg after g (record g₁ reply) := by
  refine ⟨⟨reply.code, ?_, (reads_of_optionI hread).code_ne_eof⟩, fun e he hint => ?_⟩
  · rw [call_of_advance hadvance, hdrop, hnext, hread, Option.map_some]
  · rw [interprets_iff hadvance, ← List.head?_drop, hdrop] at hint
    obtain ⟨l, rfl⟩ := List.head?_eq_some_iff.mp hint
    exact not_mem_of_suffix hnodup hafter hlt he

/-- **An option is read to its end** from any state that is at it. -/
theorem ReadsTo.run {after : List Arg} (h : ReadsTo cfg rest nextchar rest')
    (hadvance : advance cfg g = some (0, g₁)) (hdrop : g₁.argv.drop g₁.optind = rest)
    (hnext : g₁.nextchar.getD [] = nextchar) (hnodup : rest.Nodup) (hafter : after <:+ rest') :
    ∃ g₂, ReflTransGen (Passes cfg after) g g₂ ∧ HasRead rest' g₁ g₂ := by
  induction h generalizing g g₁ with
  | @last rest nextchar r hread hused =>
    have hreads := reads_of_optionI hread
    have hlt := lt_of_le_of_lt hafter.length_le (hreads.shorter hused)
    have hpass := passes_record hadvance hdrop hnext hread hnodup (hafter.trans hreads.suffix) hlt
    exact ⟨record g₁ r, ReflTransGen.single hpass, rfl, rfl, rfl, rfl, hused⟩
  | @more rest rest' nextchar nextchar' r hread hmore hne hrest ih =>
    have hreads := reads_of_optionI hread
    have hsuffix := hafter.trans hrest.suffix
    have hlt : after.length < rest.length :=
      lt_of_le_of_lt hafter.length_le (lt_of_lt_of_le hrest.shorter hreads.suffix.length_le)
    have hpass := passes_record hadvance hdrop hnext hread hnodup (hsuffix.trans hreads.suffix) hlt
    have hargv : r.rest <:+ g₁.argv := hreads.suffix.trans (hdrop ▸ List.drop_suffix _ _)
    obtain ⟨g₂, hrun, hhas⟩ := ih (g := record g₁ r) (advance_more hmore hne)
      (drop_record hargv) (by rw [fresh, record, hmore]; rfl)
      (hnodup.sublist hreads.suffix.sublist) hafter
    exact ⟨g₂, hrun.head hpass, hhas.argv_eq, hhas.start_eq, hhas.end_eq, hhas.optind_eq,
      hhas.usedUp⟩

end GetOpt
