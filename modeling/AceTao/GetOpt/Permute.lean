import AceTao.GetOpt.State

/-!
# What `permute` leaves

Between the calls in the mode `PERMUTE_ARGS`, `argv` consists of four blocks (`Blocks`): what has
been settled, the non-options that were passed, the options that were read since, and the rest. The
next `permute` settles the options before the non-options and passes the non-options that come next
(`passNonoptions_eq`); an end of the options that it finds there goes before them as well
(`passMarker_eq`).
-/

namespace GetOpt

open CycleRotation

variable {g : State} {pre nons opts ms rest post xs ys : List Arg} {m : Arg}

theorem gcd_eq (x y : ℕ) : gcd x y = x.gcd y := by
  induction y using Nat.strong_induction_on generalizing x with
  | _ y ih =>
    rw [gcd]
    by_cases hy : y = 0
    · rw [dif_pos hy, hy, Nat.gcd_zero_right]
    · rw [dif_neg hy, ih _ (Nat.mod_lt x (Nat.pos_of_ne_zero hy)), Nat.gcd_comm y,
        Nat.gcd_comm x, Nat.gcd_rec y x]

/-- **`permute_args`** makes two neighbouring blocks change places. -/
theorem permuteArgs_eq (hargv : g.argv = pre ++ xs ++ ys ++ post)
    (hstart : g.nonoptStart = pre.length) (hend : g.nonoptEnd = pre.length + xs.length)
    (hind : g.optind = pre.length + xs.length + ys.length) (hx : xs ≠ []) (hy : ys ≠ []) :
    permuteArgs g = { g with
      argv := pre ++ ys ++ xs ++ post
      optind := pre.length + ys.length } := by
  have hnon : g.nonoptEnd - g.nonoptStart = xs.length := by omega
  have hopt : g.optind - g.nonoptEnd = ys.length := by omega
  have hboth : g.optind - g.nonoptStart = xs.length + ys.length := by omega
  have hcycles : followCycles
      (fun pos => if g.nonoptEnd ≤ pos then pos - xs.length else pos + ys.length) g.nonoptEnd
      (xs.length.gcd ys.length) (cycleLength xs.length ys.length) (pre ++ xs ++ ys ++ post) =
        pre ++ ys ++ xs ++ post := by
    rw [hend]
    exact followCycles_blocks hx hy
  have hback : g.optind - xs.length = pre.length + ys.length := by omega
  rw [permuteArgs, hnon, hopt, hboth, gcd_eq, hargv, hcycles, hback]

/-- **The blocks of `argv`** between two calls. -/
structure Blocks (g : State) (pre nons opts rest : List Arg) : Prop where
  argv_eq : g.argv = pre ++ nons ++ opts ++ rest
  start_eq : g.nonoptStart = pre.length
  end_eq : g.nonoptEnd = pre.length + nons.length
  optind_eq : g.optind = pre.length + nons.length + opts.length
  opts_ne : nons ≠ [] → opts ≠ []

/-- The non-options that come first are counted up to the next option. -/
theorem countNonoptions_append (hms : ∀ e ∈ ms, optionLike e.text = false)
    (hrest : countNonoptions rest = 0) : countNonoptions (ms ++ rest) = ms.length := by
  induction ms with
  | nil => exact hrest
  | cons e ms ih =>
    have he : ¬optionLike e.text = true := by
      rw [hms e List.mem_cons_self]
      exact Bool.false_ne_true
    rw [List.cons_append, countNonoptions, if_neg he,
      ih fun e' he' => hms e' (List.mem_cons_of_mem e he'), List.length_cons]

/-- The state in which the non-options have been passed. -/
def passed (g : State) (pre nons rest : List Arg) : State :=
  { g with
    argv := pre ++ nons ++ rest
    nonoptStart := pre.length
    nonoptEnd := pre.length + nons.length
    optind := pre.length + nons.length }

theorem passed_drop_optind : (passed g pre nons rest).argv.drop (passed g pre nons rest).optind =
    rest := by
  change (pre ++ nons ++ rest).drop (pre.length + nons.length) = rest
  rw [← List.length_append, List.drop_left]

theorem passed_get {e : Arg} : (passed g pre nons (e :: rest)).argv[
    (passed g pre nons (e :: rest)).optind]? = some e := by
  rw [← List.head?_drop, passed_drop_optind]
  rfl

/-- **The options are settled** before the non-options, and the next non-options are passed. -/
theorem passNonoptions_eq (h : Blocks g pre nons opts (ms ++ rest))
    (hnons : ∀ e ∈ nons ++ ms, optionLike e.text = false) (hrest : countNonoptions rest = 0) :
    passNonoptions g = passed g (pre ++ opts) (nons ++ ms) rest := by
  -- whether there are non-options to exchange or not, the state is the same now
  have hsettle : (if g.nonoptStart ≠ g.nonoptEnd ∧ g.nonoptStart ≠ g.optind then permuteArgs g
      else g) = { g with
        argv := pre ++ opts ++ (nons ++ ms) ++ rest, optind := pre.length + opts.length } := by
    have hargv := h.argv_eq
    have hstart := h.start_eq
    have hend := h.end_eq
    have hind := h.optind_eq
    by_cases hne : nons = []
    · subst hne
      rw [List.length_nil, Nat.add_zero] at hend hind
      rw [List.append_nil] at hargv
      rw [if_neg (by omega), List.nil_append, ← hind, List.append_assoc, ← hargv]
    · have hpos := List.length_pos_iff.mpr hne
      rw [if_pos (by omega), permuteArgs_eq hargv hstart hend hind hne (h.opts_ne hne)]
      simp only [List.append_assoc]
  rw [passNonoptions]
  simp only [hsettle]
  have hcount : countNonoptions ((pre ++ opts ++ (nons ++ ms) ++ rest).drop
      (pre.length + opts.length)) = (nons ++ ms).length := by
    rw [List.append_assoc, ← List.length_append, List.drop_left]
    exact countNonoptions_append hnons hrest
  rw [hcount, ← @List.length_append _ pre]
  rfl

/-- The state in which the end of the options has gone before the non-options. -/
def passedMarker (g : State) (pre nons : List Arg) (m : Arg) (rest : List Arg) : State :=
  { g with
    argv := pre ++ [m] ++ nons ++ rest
    nonoptStart := pre.length
    nonoptEnd := pre.length + nons.length
    optind := pre.length + 1 }

theorem passedMarker_drop_optind :
    (passedMarker g pre nons m rest).argv.drop (passedMarker g pre nons m rest).optind =
      nons ++ rest := by
  change (pre ++ [m] ++ nons ++ rest).drop (pre.length + 1) = nons ++ rest
  have hlen : pre.length + 1 = (pre ++ [m]).length := by
    rw [List.length_append]
    rfl
  rw [List.append_assoc, hlen, List.drop_left]

/-- **The end of the options** goes before the non-options. -/
theorem passMarker_eq (hm : m.text = marker) :
    passMarker (passed g pre nons (m :: rest)) = passedMarker g pre nons m rest := by
  rw [passMarker, passed_get, Option.map_some, if_pos (congrArg some hm)]
  by_cases hne : nons = []
  · subst hne
    refine (if_neg fun h => h.1 rfl).trans ?_
    rw [passedMarker, passed, List.append_nil, List.append_nil, List.append_assoc]
    rfl
  · have hpos := List.length_pos_iff.mpr hne
    have hargv : pre ++ nons ++ m :: rest = pre ++ nons ++ [m] ++ rest := by
      rw [List.append_assoc _ [m]]
      rfl
    have hcond : pre.length ≠ pre.length + nons.length ∧
        pre.length + nons.length ≠ pre.length + nons.length + 1 := by omega
    refine (if_pos hcond).trans ?_
    exact permuteArgs_eq hargv rfl rfl rfl hne (List.cons_ne_nil m [])

/-- An option that is not the end of the options stays where it is. -/
theorem passMarker_of_ne {e : Arg} (he : e.text ≠ marker) :
    passMarker (passed g pre nons (e :: rest)) = passed g pre nons (e :: rest) := by
  rw [passMarker, passed_get, Option.map_some, if_neg fun h => he (Option.some.inj h)]

/-! ### A whole `permute` -/

theorem permute_option {e : Arg} (h : Blocks g pre nons opts (ms ++ e :: rest))
    (hnons : ∀ x ∈ nons ++ ms, optionLike x.text = false) (he : optionLike e.text = true)
    (hm : e.text ≠ marker) :
    permute g = some (0, passed g (pre ++ opts) (nons ++ ms) (e :: rest)) := by
  have hrest : countNonoptions (e :: rest) = 0 := by
    rw [countNonoptions, if_pos he]
  have hlen : (passed g (pre ++ opts) (nons ++ ms) (e :: rest)).argv.length =
      (pre ++ opts).length + (nons ++ ms).length + (rest.length + 1) := by
    change (pre ++ opts ++ (nons ++ ms) ++ e :: rest).length = _
    rw [List.length_append, List.length_append, List.length_cons]
  have hind : (passed g (pre ++ opts) (nons ++ ms) (e :: rest)).optind =
      (pre ++ opts).length + (nons ++ ms).length := rfl
  rw [permute, passNonoptions_eq h hnons hrest]
  dsimp only
  rw [if_neg (by omega), passMarker_of_ne hm, if_neg (by omega)]

/-- **`permute` at the end of the options** returns `EOF` only if nothing is left at all. -/
theorem permute_marker (h : Blocks g pre nons opts (ms ++ m :: rest))
    (hnons : ∀ x ∈ nons ++ ms, optionLike x.text = false) (hm : m.text = marker) :
    permute g = some (if nons ++ ms ++ rest = [] then eof else 0,
      passedMarker g (pre ++ opts) (nons ++ ms) m rest) := by
  have hrest : countNonoptions (m :: rest) = 0 := by
    rw [countNonoptions, hm]
    rfl
  have hlen : (passedMarker g (pre ++ opts) (nons ++ ms) m rest).argv.length =
      (pre ++ opts).length + 1 + (nons ++ ms ++ rest).length := by
    change (pre ++ opts ++ [m] ++ (nons ++ ms) ++ rest).length = _
    simp only [List.length_append, List.length_cons, List.length_nil]
    omega
  have hind : (passedMarker g (pre ++ opts) (nons ++ ms) m rest).optind =
      (pre ++ opts).length + 1 := rfl
  have hle : ¬(passed g (pre ++ opts) (nons ++ ms) (m :: rest)).argv.length <
      (passed g (pre ++ opts) (nons ++ ms) (m :: rest)).optind := by
    change ¬(pre ++ opts ++ (nons ++ ms) ++ m :: rest).length <
      (pre ++ opts).length + (nons ++ ms).length
    simp only [List.length_append]
    omega
  rw [permute, passNonoptions_eq h hnons hrest]
  dsimp only
  rw [if_neg hle, passMarker_eq hm]
  by_cases hnil : nons ++ ms ++ rest = []
  · have hboth : (passedMarker g (pre ++ opts) (nons ++ ms) m rest).nonoptStart =
        (passedMarker g (pre ++ opts) (nons ++ ms) m rest).nonoptEnd := by
      change (pre ++ opts).length = (pre ++ opts).length + (nons ++ ms).length
      rw [(List.append_eq_nil_iff.mp hnil).1]
      rfl
    rw [if_pos hnil, if_pos (by rw [hind, hlen, hnil]; rfl), if_neg (not_not_intro hboth)]
  · have hpos := List.length_pos_iff.mpr hnil
    rw [if_neg hnil, if_neg (by omega)]

end GetOpt
