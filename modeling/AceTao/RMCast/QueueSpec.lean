import AceTao.RMCast.Acknowledge
import AceTao.Library.Keyed
import AceTao.Library.ReorderBuffer
import Mathlib.Data.List.Perm.Subperm
import Mathlib.Data.List.Nodup

/-!
# What the queue of a sender holds

The queue of a sender is a reorder buffer (`Queue.window`): its entries that are messages are kept
for later, and entries that are lost do not count. Everything behind the last number handed up has
its entry between this number and `max_sn_` (`Queue.Ready`), so taking out the first message starts
the search for a new maximum only if nothing is left, and this search ends unless `sn_` is 0
(`Queue.collapseLoop_spec`, `Queue.collapseLoop_eq_none`).
-/

namespace AceTao.RMCast

open ReorderBuffer

/-- The message of a descriptor. -/
def Descr.message : Descr → Option Message
  | .msg m => some m
  | .lost _ _ => none

namespace Queue

/-! ### Looking for a number -/

/-- The messages of a list of entries by their numbers. -/
def heldIn (entries : List (U64 × Descr)) (n : ℕ) : Option Message :=
  (entries.find? fun e => e.1.toNat = n).bind fun e => e.2.message

/-- **The messages that wait**, by their numbers. -/
def held (q : Queue) : ℕ → Option Message := heldIn q.entries

/-- **The queue as a reorder buffer.** -/
def window (q : Queue) : Window Message := ⟨q.sn.toNat + 1, q.held⟩

variable {q q' : Queue} {sn : U64} {d : Descr} {m : Message} {n : ℕ}

theorem find_eq_none : q.find sn = none ↔ ∀ e ∈ q.entries, e.1 ≠ sn := by
  rw [find, Option.map_eq_none_iff, List.find?_eq_none]
  exact forall₂_congr fun e _ => by rw [decide_eq_true_eq]

theorem exists_of_find (h : q.find sn = some d) : (sn, d) ∈ q.entries := by
  obtain ⟨e, he, rfl⟩ := Option.map_eq_some_iff.mp h
  have hkey : e.1 = sn := by simpa using List.find?_some he
  exact hkey ▸ List.mem_of_find?_eq_some he

theorem held_toNat (q : Queue) (sn : U64) : q.held sn.toNat = (q.find sn).bind Descr.message := by
  rw [held, heldIn, find]
  have hkey : (fun e : U64 × Descr => decide (e.1.toNat = sn.toNat)) =
      fun e => decide (e.1 = sn) := by
    funext e
    exact decide_eq_decide.mpr BitVec.toNat_inj
  rw [hkey]
  cases q.entries.find? fun e => decide (e.1 = sn) <;> rfl

theorem heldIn_eq_none {entries : List (U64 × Descr)} (h : ∀ e ∈ entries, e.1.toNat ≠ n) :
    heldIn entries n = none := by
  rw [heldIn, List.find?_eq_none.mpr fun e he => by simpa using h e he]
  rfl

theorem heldIn_append (es es' : List (U64 × Descr)) (h : ∀ e ∈ es, e.1.toNat ≠ n) :
    heldIn (es ++ es') n = heldIn es' n := by
  rw [heldIn, heldIn, List.find?_append, List.find?_eq_none.mpr fun e he => by simpa using h e he,
    Option.none_or]

theorem heldIn_append_of_ne (es : List (U64 × Descr)) (h : n ≠ sn.toNat) :
    heldIn (es ++ [(sn, d)]) n = heldIn es n := by
  rw [heldIn, heldIn, List.find?_append, List.find?_cons_of_neg (by simpa using h.symm),
    List.find?_nil, Option.or_none]

/-- A new entry behind the others. -/
theorem heldIn_concat {es : List (U64 × Descr)} (h : ∀ e ∈ es, e.1 ≠ sn) :
    heldIn (es ++ [(sn, d)]) = Function.update (heldIn es) sn.toNat d.message := by
  funext n
  rcases eq_or_ne n sn.toNat with rfl | hn
  · rw [Function.update_self, heldIn_append _ _ fun e he => mt BitVec.eq_of_toNat_eq (h e he)]
    simp [heldIn]
  · rw [Function.update_of_ne hn, heldIn_append_of_ne es hn]

/-- An entry in place of the one with its number. -/
theorem heldIn_replace {es : List (U64 × Descr)} (h : ∃ e ∈ es, e.1 = sn) :
    heldIn (es.map fun e => if e.1 = sn then (sn, d) else e) =
      Function.update (heldIn es) sn.toNat d.message := by
  have hkey : ∀ e : U64 × Descr, (if e.1 = sn then (sn, d) else e).1 = e.1 := by
    intro e
    split_ifs with he
    · exact he.symm
    · rfl
  have hfind : ∀ n, (es.map fun e => if e.1 = sn then (sn, d) else e).find?
      (fun e => e.1.toNat = n) = (es.find? fun e => e.1.toNat = n).map
        fun e => if e.1 = sn then (sn, d) else e := by
    intro n
    rw [List.find?_map]
    congr 2
    funext e
    rw [Function.comp_apply, hkey]
  funext n
  rw [heldIn, hfind]
  rcases eq_or_ne n sn.toNat with rfl | hn
  · obtain ⟨e, he, hsn⟩ := h
    cases hf : es.find? fun e => e.1.toNat = sn.toNat with
    | none => exact absurd (congrArg BitVec.toNat hsn) (by simpa using List.find?_eq_none.mp hf e he)
    | some e' =>
      have he' : e'.1 = sn := BitVec.eq_of_toNat_eq (by simpa using List.find?_some hf)
      rw [Function.update_self, Option.map_some, if_pos he']
      rfl
  · rw [Function.update_of_ne hn, heldIn]
    cases hf : es.find? fun e => e.1.toNat = n with
    | none => rfl
    | some e' =>
      have he' : e'.1.toNat = n := by simpa using List.find?_some hf
      rw [Option.map_some, if_neg fun h => hn (by rw [← he', h])]

/-- The entries without one number. -/
theorem heldIn_filter (es : List (U64 × Descr)) :
    heldIn (es.filter fun e => e.1 ≠ sn) n = if n = sn.toNat then none else heldIn es n := by
  split_ifs with hn
  · refine heldIn_eq_none fun e he heq => ?_
    exact of_decide_eq_true (List.mem_filter.mp he).2 (BitVec.eq_of_toNat_eq (heq.trans hn))
  · rw [heldIn, heldIn, List.find?_filter]
    congr 2
    funext e
    rcases eq_or_ne e.1.toNat n with he | he
    · have hne : e.1 ≠ sn := fun h => hn (by rw [← he, h])
      simp [he, hne]
    · simp [he]

theorem held_rebind : (q.rebind sn (.msg m)).held = Function.update q.held sn.toNat (some m) := by
  rw [rebind]
  by_cases h : (q.find sn).isSome
  · rw [if_pos h]
    obtain ⟨d, hd⟩ := Option.isSome_iff_exists.mp h
    exact heldIn_replace ⟨_, exists_of_find hd, rfl⟩
  · rw [if_neg h]
    exact heldIn_concat (find_eq_none.mp (Option.not_isSome_iff_eq_none.mp h))

/-- A number that is entered as lost changes nothing for the messages. -/
theorem held_bind_newLoss : (q.bind sn .newLoss).held = q.held := by
  rw [bind]
  by_cases h : (q.find sn).isSome
  · rw [if_pos h]
  · rw [if_neg h]
    have hkeys := find_eq_none.mp (Option.not_isSome_iff_eq_none.mp h)
    have hnone : q.held sn.toNat = none :=
      heldIn_eq_none fun e he => mt BitVec.eq_of_toNat_eq (hkeys e he)
    refine (heldIn_concat hkeys).trans ?_
    exact Function.update_eq_self_iff.mpr hnone.symm

@[simp] theorem bind_sn : (q.bind sn d).sn = q.sn := by
  rw [bind]
  split_ifs <;> rfl

@[simp] theorem rebind_sn : (q.rebind sn d).sn = q.sn := by
  rw [rebind]
  split_ifs <;> rfl

/-! ### The numbers in the queue -/

/-- **The numbers in the queue** are from `n` on, and `max_sn_` is the largest of them. It says
nothing if it is smaller than `n`. -/
structure Ready (q : Queue) (n : ℕ) : Prop where
  nodup : (q.entries.map Prod.fst).Nodup
  le : ∀ e ∈ q.entries, n ≤ e.1.toNat
  le_max : ∀ e ∈ q.entries, e.1 ≤ q.maxSn
  max_mem : n ≤ q.maxSn.toNat → ∃ e ∈ q.entries, e.1 = q.maxSn

theorem ready_new (sn : U64) : (new sn).Ready (sn.toNat + 1) :=
  ⟨List.nodup_nil, nofun, nofun, fun h => absurd h (Nat.not_succ_le_self _)⟩

/-- A new entry behind the others. -/
theorem Ready.concat (h : q.Ready n) (hsn : n ≤ sn.toNat) (hnew : ∀ e ∈ q.entries, e.1 ≠ sn)
    (d : Descr) : Ready ⟨q.entries ++ [(sn, d)], q.sn, if q.maxSn < sn then sn else q.maxSn⟩ n := by
  have hle : q.maxSn ≤ if q.maxSn < sn then sn else q.maxSn := by
    split_ifs with hlt
    · exact BitVec.le_of_lt hlt
    · exact BitVec.le_refl _
  refine ⟨?_, fun e he => ?_, fun e he => ?_, fun hmax => ?_⟩
  · rw [List.map_append, List.nodup_append']
    refine ⟨h.nodup, List.nodup_singleton sn, ?_⟩
    rw [List.map_singleton, List.disjoint_singleton, List.mem_map]
    exact fun ⟨e, he, heq⟩ => hnew e he heq
  · rcases List.mem_append.mp he with he | he
    · exact h.le e he
    · rw [List.mem_singleton.mp he]
      exact hsn
  · rcases List.mem_append.mp he with he | he
    · exact BitVec.le_trans (h.le_max e he) hle
    · rw [List.mem_singleton.mp he]
      show sn ≤ if q.maxSn < sn then sn else q.maxSn
      split_ifs with hlt
      · exact BitVec.le_refl _
      · exact BitVec.not_lt.mp hlt
  · show ∃ e ∈ q.entries ++ [(sn, d)], e.1 = if q.maxSn < sn then sn else q.maxSn
    split_ifs with hlt
    · exact ⟨(sn, d), List.mem_append_right _ (List.mem_singleton_self _), rfl⟩
    · have hn : n ≤ q.maxSn.toNat := hsn.trans (BitVec.le_def.mp (BitVec.not_lt.mp hlt))
      obtain ⟨e, he, heq⟩ := h.max_mem hn
      exact ⟨e, List.mem_append_left _ he, heq⟩

theorem Ready.bind (h : q.Ready n) (hsn : n ≤ sn.toNat) (d : Descr) : (q.bind sn d).Ready n := by
  rw [Queue.bind]
  by_cases hf : (q.find sn).isSome
  · rw [if_pos hf]
    exact h
  · rw [if_neg hf]
    exact h.concat hsn (find_eq_none.mp (Option.not_isSome_iff_eq_none.mp hf)) d

/-- Other descriptors for the same numbers. -/
theorem Ready.congr {entries : List (U64 × Descr)} (h : q.Ready n)
    (hkeys : entries.map Prod.fst = q.entries.map Prod.fst) :
    Ready { q with entries := entries } n := by
  have hmem : ∀ k, (∃ e ∈ entries, e.1 = k) ↔ ∃ e ∈ q.entries, e.1 = k := by
    intro k
    rw [← List.mem_map, ← List.mem_map, hkeys]
  refine ⟨hkeys ▸ h.nodup, fun e he => ?_, fun e he => ?_, fun hn => (hmem _).mpr (h.max_mem hn)⟩
  · obtain ⟨e', he', heq⟩ := (hmem e.1).mp ⟨e, he, rfl⟩
    exact heq ▸ h.le e' he'
  · obtain ⟨e', he', heq⟩ := (hmem e.1).mp ⟨e, he, rfl⟩
    exact heq ▸ h.le_max e' he'

theorem Ready.rebind (h : q.Ready n) (hsn : n ≤ sn.toNat) (d : Descr) :
    (q.rebind sn d).Ready n := by
  rw [Queue.rebind]
  by_cases hf : (q.find sn).isSome
  · rw [if_pos hf]
    refine h.congr ?_
    rw [List.map_map]
    refine List.map_congr_left fun e _ => ?_
    rw [Function.comp_apply]
    split_ifs with he
    · exact he.symm
    · rfl
  · rw [if_neg hf]
    exact h.concat hsn (find_eq_none.mp (Option.not_isSome_iff_eq_none.mp hf)) d

/-! ### Taking out the first message -/

/-- The search ends below `sn_` when nothing is left. -/
theorem searchMax_of_nil (hnil : q.entries = []) (hsn : q.sn ≠ 0) (tests : ℕ) {k : U64}
    (hle : q.sn.toNat ≤ k.toNat + 1) (htests : k.toNat + 1 < q.sn.toNat + tests) :
    q.searchMax tests k = some (q.sn - 1) := by
  have hpos : 0 < q.sn.toNat := Nat.pos_of_ne_zero fun h0 => hsn (BitVec.eq_of_toNat_eq h0)
  induction tests generalizing k with
  | zero => omega
  | succ tests ih =>
    have hfind : q.find k = none := find_eq_none.mpr (by rw [hnil]; exact nofun)
    rw [searchMax, hfind, Option.isSome_none]
    by_cases hk : q.sn ≤ k
    · rw [if_pos hk, if_neg Bool.false_ne_true]
      have hk' := BitVec.le_def.mp hk
      refine ih ?_ ?_ <;> rw [BitVec.toNat_sub_of_le (BitVec.le_def.mpr (by simp; omega))] <;>
        simp <;> omega
    · rw [if_neg hk]
      have hk' := mt BitVec.le_def.mpr hk
      refine congrArg some (BitVec.eq_of_toNat_eq ?_)
      rw [BitVec.toNat_sub_of_le (BitVec.le_def.mpr (by simp; omega))]
      simp
      omega

/-- For `sn_ = 0` the search does not end when nothing is left. -/
theorem searchMax_zero (hnil : q.entries = []) (hsn : q.sn = 0) (tests : ℕ) (k : U64) :
    q.searchMax tests k = none := by
  induction tests generalizing k with
  | zero => rfl
  | succ tests ih =>
    have hfind : q.find k = none := find_eq_none.mpr (by rw [hnil]; exact nofun)
    have hle : q.sn ≤ k := by
      rw [hsn]
      exact BitVec.le_def.mpr (Nat.zero_le _)
    rw [searchMax, if_pos hle, hfind, Option.isSome_none, if_neg Bool.false_ne_true]
    exact ih _

theorem mem_filter_ne {es : List (U64 × Descr)} {e : U64 × Descr} :
    e ∈ es.filter (fun e => e.1 ≠ sn) ↔ e ∈ es ∧ e.1 ≠ sn := by
  rw [List.mem_filter, decide_eq_true_eq]

/-- Without the first number, the numbers are from the next one on. -/
theorem Ready.filter (h : q.Ready n) (hsn : sn.toNat = n) :
    Ready { q with entries := q.entries.filter fun e => e.1 ≠ sn } (n + 1) := by
  refine ⟨h.nodup.sublist (List.filter_sublist.map _), fun e he => ?_, fun e he => ?_,
    fun hmax => ?_⟩
  · obtain ⟨he, hne⟩ := mem_filter_ne.mp he
    have hle := h.le e he
    have hne' : e.1.toNat ≠ sn.toNat := mt BitVec.eq_of_toNat_eq hne
    omega
  · exact h.le_max e (mem_filter_ne.mp he).1
  · obtain ⟨e, he, heq⟩ := h.max_mem (Nat.le_of_succ_le hmax)
    refine ⟨e, mem_filter_ne.mpr ⟨he, fun hk => ?_⟩, heq⟩
    have hn : q.maxSn.toNat = n := by rw [← heq, hk, hsn]
    have hmax' : n + 1 ≤ q.maxSn.toNat := hmax
    omega

/-- When the first number is the only one, it is `max_sn_`. -/
theorem Ready.max_eq (h : q.Ready n) (hsn : sn.toNat = n) (hf : (q.find sn).isSome)
    (hnil : q.entries.filter (fun e => e.1 ≠ sn) = []) : q.maxSn = sn := by
  obtain ⟨d, hd⟩ := Option.isSome_iff_exists.mp hf
  have hle : n ≤ q.maxSn.toNat := hsn ▸ BitVec.le_def.mp (h.le_max _ (exists_of_find hd))
  obtain ⟨e, he, heq⟩ := h.max_mem hle
  by_contra hne
  have hmem : e ∈ q.entries.filter fun e => e.1 ≠ sn := mem_filter_ne.mpr ⟨he, heq ▸ hne⟩
  rw [hnil] at hmem
  exact absurd hmem List.not_mem_nil

/-- **`unbind` of the first number**, which ends if something is left or `sn_` is not 0. -/
theorem unbind_spec (h : q.Ready n) (hsn : sn.toNat = n) (hq : q.sn.toNat < n)
    (hf : (q.find sn).isSome)
    (hends : q.sn ≠ 0 ∨ q.entries.filter (fun e => e.1 ≠ sn) ≠ []) :
    ∃ q', q.unbind sn = some q' ∧ q'.entries = q.entries.filter (fun e => e.1 ≠ sn) ∧
      q'.sn = q.sn ∧ q'.Ready (n + 1) := by
  rw [unbind, if_pos hf]
  by_cases hnil : q.entries.filter (fun e => e.1 ≠ sn) = []
  · have hmax := h.max_eq hsn hf hnil
    have hq0 : q.sn ≠ 0 := hends.resolve_right fun hne => hne hnil
    have hpred : (sn - 1).toNat + 1 = n := by
      rw [BitVec.toNat_sub_of_le (BitVec.le_def.mpr (by simp; omega))]
      simp
      omega
    have hpos : 0 < q.sn.toNat := Nat.pos_of_ne_zero fun h0 => hq0 (BitVec.eq_of_toNat_eq h0)
    have hlt := sn.isLt
    rw [hmax]
    have hsearch := searchMax_of_nil (q := { q with
      entries := q.entries.filter fun e => e.1 ≠ sn }) hnil hq0 (2 ^ 64) (k := sn - 1)
      (by show q.sn.toNat ≤ _; omega) (by show _ < q.sn.toNat + _; omega)
    rw [hmax] at hsearch
    simp only [if_true, hsearch]
    refine ⟨_, rfl, rfl, rfl, (h.filter hsn).nodup, (h.filter hsn).le, ?_, fun hle => ?_⟩
    · rw [hnil]
      exact nofun
    · have hle' : n + 1 ≤ (q.sn - 1).toNat := hle
      rw [BitVec.toNat_sub_of_le (BitVec.le_def.mpr (by simp; omega))] at hle'
      simp at hle'
      omega
  · obtain ⟨e, he⟩ := List.exists_mem_of_ne_nil _ hnil
    have hne : sn ≠ q.maxSn := by
      intro heq
      have hle := BitVec.le_def.mp ((h.filter hsn).le_max e he)
      have hge := (h.filter hsn).le e he
      rw [← heq] at hle
      omega
    exact ⟨_, if_neg hne, rfl, rfl, h.filter hsn⟩

/-- For `sn_ = 0` the only number is not taken out. -/
theorem unbind_eq_none (h : q.Ready n) (hsn : sn.toNat = n) (hf : (q.find sn).isSome)
    (hq : q.sn = 0) (hnil : q.entries.filter (fun e => e.1 ≠ sn) = []) : q.unbind sn = none := by
  have hsearch := searchMax_zero (q := { q with
    entries := q.entries.filter fun e => e.1 ≠ sn }) hnil hq (2 ^ 64) (q.maxSn - 1)
  rw [unbind, if_pos hf, if_pos (h.max_eq hsn hf hnil).symm]
  simp only [hsearch]

/-! ### Handing up -/

/-- **Something stays behind** when the messages from the number `n` on are handed up: an entry that
is lost, or one that is too far away for the numbers before it to be there. -/
def Blocked (q : Queue) (n : ℕ) : Prop :=
  ∃ e ∈ q.entries, e.2.isLost ∨ n + q.entries.length ≤ e.1.toNat

theorem length_filter_lt (hf : (q.find sn).isSome) :
    (q.entries.filter fun e => e.1 ≠ sn).length < q.entries.length := by
  obtain ⟨d, hd⟩ := Option.isSome_iff_exists.mp hf
  exact List.length_filter_lt_length_iff_exists.mpr ⟨_, exists_of_find hd, by simp⟩

theorem length_le_filter {es : List (U64 × Descr)} (h : (es.map Prod.fst).Nodup) (sn : U64) :
    es.length ≤ (es.filter fun e => e.1 ≠ sn).length + 1 := by
  have hlen := List.le_length_eraseP (p := fun e : U64 × Descr => e.1 = sn) (l := es)
  rw [Keyed.eraseP_eq_filter h] at hlen
  omega

/-- What stays behind is not the first message. -/
theorem Blocked.filter (h : q.Blocked n) (hready : q.Ready n) (hsn : sn.toNat = n)
    (hf : q.find sn = some (.msg m)) (hq : q'.entries = q.entries.filter fun e => e.1 ≠ sn) :
    q'.Blocked (n + 1) := by
  obtain ⟨e, he, hcases⟩ := h
  have hlen := length_filter_lt (hf ▸ rfl : (q.find sn).isSome)
  have hne : e.1 ≠ sn := by
    rintro heq
    rcases hcases with hlost | hfar
    · have hd : e = (sn, .msg m) :=
        List.inj_on_of_nodup_map hready.nodup he (exists_of_find hf) heq
      rw [hd] at hlost
      cases hlost
    · rw [heq, hsn] at hfar
      have := List.length_pos_of_mem he
      omega
  refine ⟨e, hq ▸ mem_filter_ne.mpr ⟨he, hne⟩, hcases.imp_right fun hfar => ?_⟩
  rw [hq]
  omega

theorem Blocked.ne_nil (h : q.Blocked n) : q.entries ≠ [] := by
  obtain ⟨e, he, -⟩ := h
  exact List.ne_nil_of_mem he

/-- No message has a number below the first. -/
theorem Ready.held_eq_none (h : q.Ready n) {k : ℕ} (hk : k < n) : q.held k = none :=
  heldIn_eq_none fun e he heq => by
    have := h.le e he
    omega

theorem Ready.drop_zero (h : q.Ready n) :
    (⟨n, q.held⟩ : Window Message).drop 0 = ⟨n, q.held⟩ := by
  rw [Window.drop, Window.mk.injEq]
  refine ⟨rfl, funext fun k => ?_⟩
  split_ifs with hk
  · exact (h.held_eq_none hk).symm
  · rfl

/-- Where the loop of `collapse` ends. -/
theorem front_nil (hn : n ≤ 2 ^ 64) (hsn : sn = BitVec.ofNat 64 n)
    (hf : (q.find sn).bind Descr.message = none) : (⟨n, q.held⟩ : Window Message).Front 0 [] := by
  refine ⟨rfl, ?_⟩
  show q.held n = none
  rcases Nat.lt_or_ge n (2 ^ 64) with hlt | hge
  · have hto : sn.toNat = n := by
      rw [hsn, BitVec.toNat_ofNat, Nat.mod_eq_of_lt hlt]
    rw [← hto, held_toNat, hf]
  · exact heldIn_eq_none fun e _ heq => by
      have := e.1.isLt
      omega

/-- **The loop of `collapse`** hands up the messages to the first gap. -/
theorem collapseLoop_spec (h : q.Ready n) (hn : n ≤ 2 ^ 64) (hsn : sn = BitVec.ofNat 64 n)
    (hq : q.sn.toNat < n) (hends : q.sn ≠ 0 ∨ q.Blocked n) {tests : ℕ}
    (htests : q.entries.length < tests) :
    ∃ q' out count, collapseLoop tests q sn = some (q', out) ∧
      (⟨n, q.held⟩ : Window Message).Front count out ∧
      q'.window = (⟨n, q.held⟩ : Window Message).drop count ∧ q'.Ready (n + count) := by
  induction tests generalizing q n sn with
  | zero => exact absurd htests (Nat.not_lt_zero _)
  | succ tests ih =>
    -- the loop ends where no message has the number `sn`
    have hstop (hf : (q.find sn).bind Descr.message = none)
        (hloop : collapseLoop (tests + 1) q sn = some ({ q with sn := sn - 1 }, [])) :
        ∃ q' out count, collapseLoop (tests + 1) q sn = some (q', out) ∧
          (⟨n, q.held⟩ : Window Message).Front count out ∧
          q'.window = (⟨n, q.held⟩ : Window Message).drop count ∧ q'.Ready (n + count) := by
      refine ⟨_, [], 0, hloop, front_nil hn hsn hf, ?_, h.nodup, h.le, h.le_max, h.max_mem⟩
      have hnext : (sn - 1).toNat + 1 = n := by
        rw [hsn, BitVec.toNat_sub, BitVec.toNat_ofNat]
        simp
        omega
      rw [h.drop_zero, window, hnext]
      rfl
    cases hf : q.find sn with
    | none => exact hstop (by rw [hf]; rfl) (by rw [collapseLoop, hf])
    | some d =>
      cases d with
      | lost nakCount timer => exact hstop (by rw [hf]; rfl) (by rw [collapseLoop, hf])
      | msg m =>
        have hsome : (q.find sn).isSome := hf ▸ rfl
        have hto : sn.toNat = n := by
          have hle := h.le _ (exists_of_find hf)
          have hlt := sn.isLt
          have hmod : sn.toNat = n % 2 ^ 64 := by rw [hsn, BitVec.toNat_ofNat]
          rw [Nat.mod_eq_of_lt (by omega)] at hmod
          exact hmod
        have hlt := sn.isLt
        have hblocked (hb : q.Blocked n) :
            Blocked { q with entries := q.entries.filter fun e => e.1 ≠ sn } (n + 1) :=
          hb.filter h hto hf rfl
        obtain ⟨q₁, hunbind, hentries, hqsn, hready⟩ :=
          unbind_spec h hto hq hsome (hends.imp_right fun hb => (hblocked hb).ne_nil)
        have hnext : sn + 1 = BitVec.ofNat 64 (n + 1) := by
          rw [hsn, BitVec.ofNat_add]
          rfl
        have hheld : ∀ k, q₁.held k = if k = n then none else q.held k := by
          intro k
          rw [held, hentries, heldIn_filter, hto]
          rfl
        obtain ⟨q', out, count, hloop, hfront, hwindow, hready'⟩ :=
          ih hready (by omega) hnext (by rw [hqsn]; omega)
            (by rw [hqsn]; exact hends.imp_right fun hb => hb.filter h hto hf hentries)
            (by rw [hentries]; have := length_filter_lt hsome; omega)
        refine ⟨q', m :: out, count + 1, by rw [collapseLoop, hf, hunbind]; simp only [hloop],
          ⟨?_, ?_⟩, ?_, ?_⟩
        · rw [List.range'_succ, List.map_cons, List.map_cons, hfront.1]
          have hm : q.held n = some m := by rw [← hto, held_toNat, hf]; rfl
          refine congrArg₂ List.cons hm.symm (List.map_congr_left fun k hk => ?_)
          have hk' : n + 1 ≤ k := (List.mem_range'_1.mp hk).1
          exact (hheld k).trans (if_neg (by omega))
        · have hlast : q₁.held (n + 1 + count) = none := hfront.2
          rw [hheld, if_neg (by omega)] at hlast
          rw [← hlast]
          exact congrArg q.held (by show n + (count + 1) = _; omega)
        · rw [hwindow, Window.drop, Window.drop, Window.mk.injEq]
          refine ⟨by show n + 1 + count = n + (count + 1); omega, funext fun k => ?_⟩
          show (if k < n + 1 + count then none else q₁.held k) =
            if k < n + (count + 1) then none else q.held k
          rw [show n + 1 + count = n + (count + 1) by omega]
          split_ifs with hk
          · rfl
          · rw [hheld, if_neg (by omega)]
        · rw [show n + (count + 1) = n + 1 + count by omega]
          exact hready'

/-- When no number is missing, the first one is there. -/
theorem Ready.exists_first (h : q.Ready n) (hne : q.entries ≠ [])
    (hall : ∀ e ∈ q.entries, e.1.toNat < n + q.entries.length) : ∃ e ∈ q.entries, e.1.toNat = n := by
  by_contra hnone
  have hsub : q.entries.map (fun e => e.1.toNat) ⊆
      List.range' (n + 1) (q.entries.length - 1) := by
    intro k hk
    obtain ⟨e, he, rfl⟩ := List.mem_map.mp hk
    have hle := h.le e he
    have hlt := hall e he
    have hn : e.1.toNat ≠ n := fun heq => hnone ⟨e, he, heq⟩
    exact List.mem_range'_1.mpr ⟨by omega, by omega⟩
  have hnodup : (q.entries.map fun e => e.1.toNat).Nodup := by
    have hinj : Function.Injective (BitVec.toNat : U64 → ℕ) := fun _ _ => BitVec.eq_of_toNat_eq
    have := h.nodup.map hinj
    rwa [List.map_map] at this
  have hlen := (hnodup.subperm hsub).length_le
  rw [List.length_map, List.length_range'] at hlen
  have := List.length_pos_iff.mpr hne
  omega

/-- **For `sn_ = 0` the loop of `collapse` does not end** when nothing stays behind. -/
theorem collapseLoop_eq_none (h : q.Ready n) (hne : q.entries ≠ []) (hsn : sn = BitVec.ofNat 64 n)
    (hq : q.sn = 0) (hn : 0 < n) (hb : ¬q.Blocked n) (tests : ℕ) :
    collapseLoop tests q sn = none := by
  induction tests generalizing q n sn with
  | zero => rfl
  | succ tests ih =>
    have hall : ∀ e ∈ q.entries, e.2.isLost = false ∧ e.1.toNat < n + q.entries.length := by
      intro e he
      rw [← Bool.not_eq_true, ← Nat.not_le, ← not_or]
      exact fun hcases => hb ⟨e, he, hcases⟩
    obtain ⟨e, he, hkey⟩ := h.exists_first hne fun e he => (hall e he).2
    have hsn' : e.1 = sn := by
      rw [hsn, ← hkey, BitVec.ofNat_toNat, BitVec.setWidth_eq]
    have hto : sn.toNat = n := hsn' ▸ hkey
    have hsome : (q.find sn).isSome := by
      rw [Option.isSome_iff_ne_none, ne_eq, find_eq_none]
      exact fun hnone => hnone e he hsn'
    obtain ⟨d, hf⟩ := Option.isSome_iff_exists.mp hsome
    cases d with
    | lost nakCount timer => exact absurd (hall _ (exists_of_find hf)).1 nofun
    | msg m =>
      by_cases hnil : q.entries.filter (fun e => e.1 ≠ sn) = []
      · rw [collapseLoop, hf, unbind_eq_none h hto hsome hq hnil]
      · obtain ⟨q₁, hunbind, hentries, hqsn, hready⟩ :=
          unbind_spec h hto (by rw [hq]; exact hn) hsome (Or.inr hnil)
        have hlen := length_filter_lt hsome
        have hnb : ¬q₁.Blocked (n + 1) := by
          rintro ⟨e, he, hcases⟩
          rw [hentries] at he hcases
          obtain ⟨hlost, hlt⟩ := hall e (mem_filter_ne.mp he).1
          rcases hcases with hl | hfar
          · rw [hlost] at hl
            cases hl
          · have hone := length_le_filter h.nodup sn
            omega
        have hloop := ih hready (hentries ▸ hnil)
          (show sn + 1 = BitVec.ofNat 64 (n + 1) by rw [hsn, BitVec.ofNat_add]; rfl)
          (hqsn.trans hq) (Nat.succ_pos n) hnb
        rw [collapseLoop, hf, hunbind]
        simp only [hloop]

end Queue

end AceTao.RMCast
