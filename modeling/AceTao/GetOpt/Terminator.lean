import AceTao.GetOpt.Calls
import Mathlib.Data.List.Sigma

/-!
# The end of the options

An element `--` that is not the argument of an option ends the options: no element behind it is to
be taken for one, and when the parsing ends, `optind` is to designate the first non-option that is
left (`StopsRight`). `Scans` finds this element: it goes through `argv` element by element, over
non-options and over options with their arguments.

In the modes `REQUIRE_ORDER` and `RETURN_IN_ORDER` the parsing stops there. In `PERMUTE_ARGS` the
element is found by `permute`, which passes it; if there are non-options to be put behind it, the
parsing stops at the first of them, but if there are none, `nextcharI` goes on with the element
behind it, as if it had not been there. So the parsing stops right unless that element begins with
`-` and goes on (`stopsRight_iff`).
-/

namespace GetOpt

open Relation

variable {cfg : Config} {g g' g₁ : State} {rest ns after pre nons opts ms : List Arg} {e m : Arg}
  {first : Option Arg}

/-! ### The statement -/

/-- **The first end of the options**: `ns` are the non-options before it and `after` is what comes
behind it. Once `REQUIRE_ORDER` has met a non-option there are no more options. -/
inductive Scans (cfg : Config) : List Arg → List Arg → List Arg → Prop
  | marker {m : Arg} {after : List Arg} (hm : m.text = marker) : Scans cfg (m :: after) [] after
  | nonoption {e : Arg} {rest ns after : List Arg} (he : optionLike e.text = false)
      (hord : cfg.ordering ≠ .requireOrder) (hrest : Scans cfg rest ns after) :
      Scans cfg (e :: rest) (e :: ns) after
  | nonoptions {e m : Arg} {ns after : List Arg} (he : optionLike e.text = false)
      (hord : cfg.ordering = .requireOrder) (hm : m.text = GetOpt.marker)
      (hns : ∀ x ∈ ns, x.text ≠ GetOpt.marker) :
      Scans cfg (e :: (ns ++ m :: after)) (e :: ns) after
  | option {e : Arg} {rest rest' ns after : List Arg} (he : optionLike e.text = true)
      (hm : e.text ≠ GetOpt.marker)
      (hread : ReadsTo cfg (e :: rest) (optionChars cfg e.text) rest')
      (hrest : Scans cfg rest' ns after) : Scans cfg (e :: rest) ns after

/-- The first non-option that is left at the end: `RETURN_IN_ORDER` has returned those before the
end of the options. -/
def firstRemaining (cfg : Config) (ns after : List Arg) : Option Arg :=
  if cfg.ordering = .returnInOrder then after.head? else (ns ++ after).head?

/-- **The parsing stops right**: it ends, no call takes one of the elements `after` for an option,
and at `EOF` `optind` designates the element `first`. -/
structure StopsRight (cfg : Config) (after : List Arg) (first : Option Arg) (g : State) :
    Prop where
  not_interpreted : ∀ g', ReflTransGen (Steps cfg) g g' → ∀ e ∈ after, ¬Interprets cfg g' e
  designates : ∀ g', ReflTransGen (Steps cfg) g g' →
    ∀ g'', call cfg g' = some (eof, g'') → g''.argv[g''.optind]? = first
  ends : ∃ g' g'', ReflTransGen (Steps cfg) g g' ∧ call cfg g' = some (eof, g'')

/-! ### Runs -/

/-- Since the calls are determined, what comes after a call that passes decides. -/
theorem stopsRight_of_passes (h : Passes cfg after g g₁) :
    StopsRight cfg after first g ↔ StopsRight cfg after first g₁ := by
  obtain ⟨hstep, hout⟩ := h
  have hcases : ∀ g', ReflTransGen (Steps cfg) g g' → g' = g ∨ ReflTransGen (Steps cfg) g₁ g' := by
    intro g' hg'
    rcases ReflTransGen.cases_head hg' with rfl | ⟨c, hc, hrun⟩
    · exact Or.inl rfl
    · exact Or.inr (hstep.unique hc ▸ hrun)
  have hne : ∀ g'', call cfg g ≠ some (eof, g'') := by
    intro g'' hcall
    obtain ⟨r, hr, hreof⟩ := hstep
    exact hreof (congrArg Prod.fst (Option.some.inj (hr.symm.trans hcall)))
  constructor
  · rintro ⟨hin, hfirst, g', g'', hrun, hcall⟩
    refine ⟨fun g' h => hin g' (h.head hstep), fun g' h => hfirst g' (h.head hstep), g', g'', ?_,
      hcall⟩
    rcases hcases g' hrun with rfl | hrun
    · exact absurd hcall (hne g'')
    · exact hrun
  · rintro ⟨hin, hfirst, g', g'', hrun, hcall⟩
    refine ⟨fun g' h => ?_, fun g' h g'' hcall => ?_, g', g'', hrun.head hstep, hcall⟩
    · rcases hcases g' h with rfl | h
      · exact hout
      · exact hin g' h
    · rcases hcases g' h with rfl | h
      · exact absurd hcall (hne g'')
      · exact hfirst g' h g'' hcall

theorem stopsRight_of_run (h : ReflTransGen (Passes cfg after) g g₁) :
    StopsRight cfg after first g ↔ StopsRight cfg after first g₁ := by
  induction h with
  | refl => exact Iff.rfl
  | tail _ hpass ih => exact ih.trans (stopsRight_of_passes hpass)

/-- At the last call, `optind` decides. -/
theorem stopsRight_of_eof (h : advance cfg g = some (eof, g₁)) :
    StopsRight cfg after first g ↔ g₁.argv[g₁.optind]? = first := by
  have hcall := call_of_advance_ne h (by decide)
  have hlast : ∀ g', ReflTransGen (Steps cfg) g g' → g' = g := by
    intro g' hg'
    rcases ReflTransGen.cases_head hg' with rfl | ⟨c, ⟨r, hr, hreof⟩, -⟩
    · rfl
    · exact absurd (congrArg Prod.fst (Option.some.inj (hr.symm.trans hcall))) hreof
  constructor
  · exact fun hright => hright.designates g ReflTransGen.refl g₁ hcall
  · intro hfirst
    refine ⟨fun g' hg' e _ => ?_, fun g' hg' g'' hcall' => ?_, g, g₁, ReflTransGen.refl, hcall⟩
    · exact hlast g' hg' ▸ not_interprets_of_advance h (by decide)
    · rw [hlast g' hg'] at hcall'
      have hg : g₁ = g'' := congrArg Prod.snd (Option.some.inj (hcall.symm.trans hcall'))
      exact hg ▸ hfirst

/-- A call that takes one of the elements for an option is wrong. -/
theorem not_stopsRight (h : Interprets cfg g e) (he : e ∈ after) :
    ¬StopsRight cfg after first g :=
  fun hright => hright.not_interpreted g ReflTransGen.refl e he h

theorem Scans.suffix (h : Scans cfg rest ns after) : after <:+ rest := by
  induction h with
  | marker _ => exact List.suffix_cons _ _
  | nonoption _ _ _ ih => exact ih.trans (List.suffix_cons _ _)
  | @nonoptions e m ns after _ _ _ _ =>
    exact ⟨e :: (ns ++ [m]), by rw [List.cons_append, List.append_assoc]; rfl⟩
  | option _ _ hread _ ih => exact ih.trans hread.suffix

theorem Scans.ne_nil (h : Scans cfg rest ns after) : rest ≠ [] := by
  cases h <;> exact List.cons_ne_nil _ _

theorem get_of_drop {l : List Arg} (hdrop : g.argv.drop g.optind = e :: l) :
    g.argv[g.optind]? = some e := by
  rw [← List.head?_drop, hdrop]
  rfl

theorem drop_succ {l : List Arg} (hdrop : g.argv.drop g.optind = e :: l) :
    g.argv.drop (g.optind + 1) = l := by
  rw [← List.drop_drop, hdrop]
  rfl

theorem HasRead.drop_optind (h : HasRead rest g g₁) (hsuffix : rest <:+ g.argv) :
    g₁.argv.drop g₁.optind = rest := by
  rw [h.argv_eq, h.optind_eq]
  exact (List.suffix_iff_eq_drop.mp hsuffix).symm

theorem firstRemaining_nil : firstRemaining cfg [] after = after.head? := by
  rw [firstRemaining, List.nil_append]
  exact ite_self _

/-! ### Without permutation -/

theorem advance_inOrder (hord : cfg.ordering ≠ .permuteArgs) (h : usedUp g.nextchar = true) :
    advance cfg g = some (scanElement cfg (fresh g)) := by
  rw [advance_usedUp h, nextcharI, if_neg hord]

/-- **In order, the parsing stops right.** -/
theorem stopsRight_inOrder (hord : cfg.ordering ≠ .permuteArgs) (h : Scans cfg rest ns after)
    (hdrop : g.argv.drop g.optind = rest) (hused : usedUp g.nextchar = true)
    (hnodup : rest.Nodup) : StopsRight cfg after (firstRemaining cfg ns after) g := by
  induction h generalizing g with
  | @marker m after hm =>
    have hadvance := advance_inOrder hord hused
    rw [scanElement_marker (g := fresh g) (get_of_drop hdrop) hm] at hadvance
    refine (stopsRight_of_eof hadvance).mpr ?_
    change g.argv[g.optind + 1]? = _
    rw [firstRemaining_nil, ← List.head?_drop, drop_succ hdrop]
  | @nonoption e rest ns after he hreq hrest ih =>
    have hreturn : cfg.ordering = .returnInOrder := by
      cases hcfg : cfg.ordering with
      | requireOrder => exact absurd hcfg hreq
      | permuteArgs => exact absurd hcfg hord
      | returnInOrder => rfl
    have hadvance := advance_inOrder hord hused
    rw [scanElement_inOrder (g := fresh g) (get_of_drop hdrop) he hreturn] at hadvance
    have hpass : Passes cfg after g _ := ⟨⟨1, call_of_advance_ne hadvance (by decide), by decide⟩,
      fun _ _ => not_interprets_of_advance hadvance (by decide)⟩
    have hfirst : firstRemaining cfg (e :: ns) after = firstRemaining cfg ns after := by
      rw [firstRemaining, firstRemaining, if_pos hreturn, if_pos hreturn]
    rw [stopsRight_of_passes hpass, hfirst]
    exact ih (drop_succ hdrop) rfl (List.nodup_cons.mp hnodup).2
  | @nonoptions e m ns after he hreq hm hns =>
    have hadvance := advance_inOrder hord hused
    have hget := get_of_drop hdrop
    have hret : cfg.ordering ≠ .returnInOrder := by
      rw [hreq]
      decide
    rw [scanElement_nonoption (g := fresh g) hget he hret] at hadvance
    refine (stopsRight_of_eof hadvance).mpr ?_
    rw [firstRemaining, if_neg hret]
    exact hget
  | @option e rest rest' ns after he hm hread hrest ih =>
    have hadvance := advance_inOrder hord hused
    rw [scanElement_option (g := fresh g) (get_of_drop hdrop) he hm] at hadvance
    obtain ⟨g₂, hrun, hhas⟩ := hread.run hadvance hdrop rfl hnodup hrest.suffix
    have hargv : rest' <:+ g.argv := hread.suffix.trans (hdrop ▸ List.drop_suffix _ _)
    rw [stopsRight_of_run hrun]
    exact ih (hhas.drop_optind hargv) hhas.usedUp (hnodup.sublist hread.suffix.sublist)

/-! ### With permutation -/

theorem advance_permute (hord : cfg.ordering = .permuteArgs) (h : usedUp g.nextchar = true) :
    advance cfg g =
      (permute (fresh g)).map fun p => if p.1 = eof then p else scanElement cfg p.2 := by
  rw [advance_usedUp h, nextcharI, if_pos hord]

theorem Blocks.fresh (h : Blocks g pre nons opts rest) : Blocks (fresh g) pre nons opts rest :=
  ⟨h.argv_eq, h.start_eq, h.end_eq, h.optind_eq, h.opts_ne⟩

/-- **Permuting, the last call decides by the element behind the end of the options**, unless there
are non-options to be put before it. -/
theorem stopsRight_marker (hord : cfg.ordering = .permuteArgs)
    (hblocks : Blocks g pre nons opts (ms ++ m :: after)) (hm : m.text = marker)
    (hnons : ∀ x ∈ nons ++ ms, optionLike x.text = false) (hused : usedUp g.nextchar = true)
    (hnodup : after.Nodup) :
    StopsRight cfg after (nons ++ ms ++ after).head? g ↔
      ¬(nons ++ ms = [] ∧ ∃ e, after.head? = some e ∧ optionLike e.text = true) := by
  have hret : cfg.ordering ≠ .returnInOrder := by
    rw [hord]
    decide
  have hadvance := advance_permute hord hused
  rw [permute_marker hblocks.fresh hnons hm, Option.map_some] at hadvance
  obtain ⟨g₁, hg₁⟩ : ∃ g₁, passedMarker (fresh g) (pre ++ opts) (nons ++ ms) m after = g₁ :=
    ⟨_, rfl⟩
  have hdrop : g₁.argv.drop g₁.optind = nons ++ ms ++ after := hg₁ ▸ passedMarker_drop_optind
  rw [hg₁] at hadvance
  cases hleft : nons ++ ms ++ after with
  | nil =>
    rw [if_pos hleft] at hadvance
    have hafter : after = [] := (List.append_eq_nil_iff.mp hleft).2
    refine iff_of_true ((stopsRight_of_eof hadvance).mpr ?_) ?_
    · rw [← List.head?_drop, hdrop, hleft]
    · rintro ⟨-, e, he, -⟩
      rw [hafter] at he
      exact nomatch he
  | cons x l =>
    have hne : ¬nons ++ ms ++ after = [] := by
      rw [hleft]
      exact List.cons_ne_nil x l
    rw [hleft] at hdrop
    have hget := get_of_drop hdrop
    rw [if_neg hne] at hadvance
    cases hx : optionLike x.text with
    | false =>
      have hlast := hadvance.trans (congrArg some (scanElement_nonoption hget hx hret))
      refine iff_of_true ((stopsRight_of_eof hlast).mpr hget) ?_
      rintro ⟨hnil, e, he, hlike⟩
      rw [hnil, List.nil_append] at hleft
      rw [hleft] at he
      rw [Option.some.inj he, hlike] at hx
      exact nomatch hx
    | true =>
      -- the element is one behind the end of the options
      have hnil : nons ++ ms = [] := by
        refine List.eq_nil_iff_forall_not_mem.mpr fun y hy => ?_
        obtain ⟨z, zs, hzs⟩ := List.exists_cons_of_ne_nil (List.ne_nil_of_mem hy)
        rw [hzs, List.cons_append] at hleft
        have hz := hnons z (hzs ▸ List.mem_cons_self)
        rw [(List.cons.inj hleft).1, hx] at hz
        exact nomatch hz
      rw [hnil, List.nil_append] at hleft
      refine iff_of_false ?_ (not_not_intro ⟨hnil, x, by rw [hleft]; rfl, hx⟩)
      by_cases hm' : x.text = marker
      · have hlast := hadvance.trans (congrArg some (scanElement_marker hget hm'))
        rw [stopsRight_of_eof hlast]
        change g₁.argv[g₁.optind + 1]? ≠ some x
        rw [← List.head?_drop, drop_succ hdrop]
        rw [hleft] at hnodup
        intro hl
        exact (List.nodup_cons.mp hnodup).1 (List.mem_of_head? hl)
      · have hnext := hadvance.trans (congrArg some (scanElement_option hget hx hm'))
        exact not_stopsRight ((interprets_iff hnext).mpr hget) (hleft ▸ List.mem_cons_self)

/-- **Permuting, the parsing stops right** unless it goes on behind the end of the options. -/
theorem stopsRight_permute (hord : cfg.ordering = .permuteArgs) (h : Scans cfg rest ns after)
    (hblocks : Blocks g pre nons opts (ms ++ rest))
    (hnons : ∀ x ∈ nons ++ ms, optionLike x.text = false) (hused : usedUp g.nextchar = true)
    (hnodup : rest.Nodup) :
    StopsRight cfg after (nons ++ ms ++ ns ++ after).head? g ↔
      ¬(nons ++ ms ++ ns = [] ∧ ∃ e, after.head? = some e ∧ optionLike e.text = true) := by
  induction h generalizing g pre nons opts ms with
  | @marker m after hm =>
    rw [List.append_nil]
    exact stopsRight_marker hord hblocks hm hnons hused (List.nodup_cons.mp hnodup).2
  | @nonoption e rest ns after he hreq hrest ih =>
    rw [List.append_cons ms e rest] at hblocks
    have hmore : ∀ x ∈ nons ++ (ms ++ [e]), optionLike x.text = false := by
      intro x hx
      rw [← List.append_assoc, List.mem_append, List.mem_singleton] at hx
      rcases hx with hx | rfl
      · exact hnons x hx
      · exact he
    have := ih hblocks hmore hused (List.nodup_cons.mp hnodup).2
    simpa only [List.append_assoc, List.singleton_append] using this
  | @nonoptions e m ns after he hreq hm hns =>
    rw [hord] at hreq
    exact nomatch hreq
  | @option e rest rest' ns after he hm hread hrest ih =>
    have hadvance := advance_permute hord hused
    rw [permute_option hblocks.fresh hnons he hm, Option.map_some] at hadvance
    obtain ⟨g₁, hg₁⟩ : ∃ g₁, passed (fresh g) (pre ++ opts) (nons ++ ms) (e :: rest) = g₁ :=
      ⟨_, rfl⟩
    rw [hg₁] at hadvance
    have hget : g₁.argv[g₁.optind]? = some e := hg₁ ▸ passed_get
    have hdrop : g₁.argv.drop g₁.optind = e :: rest := hg₁ ▸ passed_drop_optind
    have hnext := hadvance.trans (congrArg some (scanElement_option hget he hm))
    obtain ⟨g₂, hrun, hhas⟩ := hread.run hnext hdrop rfl hnodup hrest.suffix
    obtain ⟨opts', hopts⟩ := hread.suffix
    have hargv : g₁.argv = pre ++ opts ++ (nons ++ ms) ++ (opts' ++ rest') := by
      rw [hopts, ← hg₁]
      rfl
    have hblocks₂ : Blocks g₂ (pre ++ opts) (nons ++ ms) opts' ([] ++ rest') := by
      refine ⟨?_, ?_, ?_, ?_, fun _ hnil => ?_⟩
      · rw [hhas.argv_eq, List.nil_append, List.append_assoc]
        exact hargv
      · exact hhas.start_eq.trans (hg₁ ▸ rfl)
      · exact hhas.end_eq.trans (hg₁ ▸ rfl)
      · rw [hhas.optind_eq]
        change g₁.argv.length - rest'.length = _
        rw [hargv]
        simp only [List.length_append]
        omega
      · rw [hnil, List.nil_append] at hopts
        have hlt := hread.shorter
        rw [hopts] at hlt
        exact lt_irrefl _ hlt
    rw [stopsRight_of_run hrun]
    have := ih hblocks₂ (by rw [List.append_nil]; exact hnons) hhas.usedUp
      (hnodup.sublist hread.suffix.sublist)
    simpa only [List.append_nil] using this

/-! ### From the start -/

theorem nodup_argvOf (texts : List (List Char)) : (argvOf texts).Nodup := by
  have hplaces : ((argvOf texts).map Arg.place).Nodup := by
    rw [argvOf, List.map_map]
    exact List.nodup_zipIdx_map_snd texts
  exact List.Nodup.of_map Arg.place hplaces

/-- **When the parsing stops right**: always, but that in the mode `PERMUTE_ARGS`, with no
non-option before the end of the options, the element behind it must not begin with `-` and go
on. -/
theorem stopsRight_iff (cfg : Config) (texts : List (List Char)) (skip : ℕ) {ns after : List Arg}
    (h : Scans cfg ((argvOf texts).drop skip) ns after) :
    StopsRight cfg after (firstRemaining cfg ns after) (start (argvOf texts) skip) ↔
      ¬(cfg.ordering = .permuteArgs ∧ ns = [] ∧
        ∃ e, after.head? = some e ∧ optionLike e.text = true) := by
  have hnodup : ((argvOf texts).drop skip).Nodup :=
    (nodup_argvOf texts).sublist (List.drop_sublist _ _)
  by_cases hord : cfg.ordering = .permuteArgs
  · have hlt : skip < (argvOf texts).length := List.drop_eq_nil_iff.not.mp h.ne_nil |> not_le.mp
    have htake : ((argvOf texts).take skip).length = skip := List.length_take_of_le hlt.le
    have hblocks : Blocks (start (argvOf texts) skip) ((argvOf texts).take skip) [] []
        ([] ++ (argvOf texts).drop skip) := by
      refine ⟨?_, htake.symm, htake.symm, htake.symm, fun hne => absurd rfl hne⟩
      rw [List.append_nil, List.append_nil, List.nil_append]
      exact (List.take_append_drop skip (argvOf texts)).symm
    have := stopsRight_permute hord h hblocks (by nofun) rfl hnodup
    rw [firstRemaining, if_neg (by rw [hord]; decide)]
    simpa only [List.nil_append, hord, true_and] using this
  · refine iff_of_true (stopsRight_inOrder hord h rfl rfl hnodup) fun hbad => hord hbad.1

/-- The configuration that the constructor leaves for the only option `-x`. -/
abbrev onlyX : Config := Config.init false ['x'] .permuteArgs false

/-- An option, a non-option, the end of the options and an element that looks like an option: the
non-option is what `optind` designates at the end. -/
theorem stopsRight_onlyX :
    StopsRight onlyX [⟨['-', 'x'], 4⟩] (some ⟨['f'], 2⟩)
      (start (argvOf [['p'], ['-', 'x'], ['f'], marker, ['-', 'x']]) 1) := by
  have hread : ReadsTo onlyX
      ((argvOf [['p'], ['-', 'x'], ['f'], marker, ['-', 'x']]).drop 1) ['x']
      [⟨['f'], 2⟩, ⟨marker, 3⟩, ⟨['-', 'x'], 4⟩] := by
    refine ReadsTo.last (r := shortFound onlyX 'x' ['x'] []
      [⟨['f'], 2⟩, ⟨marker, 3⟩, ⟨['-', 'x'], 4⟩]) ?_ (by decide)
    change shortOptionI onlyX _ ['x'] = _
    rw [shortOptionI.eq_def]
    rfl
  have hscans : Scans onlyX
      ((argvOf [['p'], ['-', 'x'], ['f'], marker, ['-', 'x']]).drop 1) [⟨['f'], 2⟩]
      [⟨['-', 'x'], 4⟩] :=
    .option (by decide) (by decide) hread (.nonoption (by decide) (by decide) (.marker rfl))
  exact (stopsRight_iff onlyX _ 1 hscans).mpr fun h => List.cons_ne_nil _ _ h.2.1

/-- Without the non-option, what looks like an option is taken for one. -/
theorem not_stopsRight_onlyX : ∃ ns after,
    Scans onlyX ((argvOf [['p'], marker, ['-', 'x']]).drop 1) ns after ∧
      ¬StopsRight onlyX after (firstRemaining onlyX ns after)
        (start (argvOf [['p'], marker, ['-', 'x']]) 1) := by
  refine ⟨[], [⟨['-', 'x'], 2⟩], .marker rfl, fun hright => ?_⟩
  exact hright.not_interpreted _ ReflTransGen.refl _ List.mem_cons_self ⟨_, rfl, rfl⟩

end GetOpt
