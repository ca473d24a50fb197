import AceTao.Retain.Life

/-!
# The sections under the lock

What each section does to the stages of the entries. A section changes one entry
(`RetainPoa.Inv.change`), but for `deactivate_all_objects`, which goes on along its list of entries
until there is a servant to be called. The entries of such a list are *ready* to be deactivated
(`RetainPoa.Ready`), and stay so while the others are.
-/

namespace AceTao.RetainPoa

variable {I S T : Type} {c : RetainPolicies} {s s' : RetainPoa I S T} {p : ℕ}
  {e : RetainedEntry I S}

/-! ### Counting -/

theorem upcallsOn_cons (s : RetainPoa I S T) (t : T) (p q : ℕ) :
    upcallsOn { s with upcalls := (t, p) :: s.upcalls } q =
      s.upcallsOn q + if p = q then 1 else 0 := by
  rw [upcallsOn, List.map_cons, List.count_cons, upcallsOn]
  simp

theorem upcallsOn_erase [DecidableEq T] {t : T} (h : (t, p) ∈ s.upcalls) (q : ℕ) :
    s.upcallsOn q = upcallsOn { s with upcalls := s.upcalls.erase (t, p) } q +
      if p = q then 1 else 0 := by
  rw [upcallsOn, ((List.perm_cons_erase h).map Prod.snd).count_eq, List.map_cons,
    List.count_cons, upcallsOn]
  simp

theorem toNat_pred {x : BitVec 16} {n : ℕ} (h : x.toNat = n + 1) : (x - 1).toNat = n := by
  have hlt := x.isLt
  rw [BitVec.toNat_sub, show (1 : BitVec 16).toNat = 1 from rfl]
  omega

theorem pred_eq_zero {x : BitVec 16} {n : ℕ} (h : x.toNat = n + 1) : x - 1 = 0 ↔ n = 0 := by
  rw [← toNat_pred h]
  exact ⟨fun hx => by rw [hx]; rfl, fun hx => BitVec.eq_of_toNat_eq hx⟩

theorem toNat_succ {x : BitVec 16} {n : ℕ} (h : x.toNat = n) (hlt : n + 1 < 2 ^ 16) :
    (x + 1).toNat = n + 1 := by
  rw [BitVec.toNat_add, show (1 : BitVec 16).toNat = 1 from rfl]
  omega

/-! ### One entry changes -/

/-- **A section that changes one entry.** -/
theorem Inv.change (h : Inv c s) (p : ℕ)
    (hother : ∀ q, q ≠ p → s'.entries q = s.entries q ∧ s'.upcallsOn q = s.upcallsOn q ∧
      s'.history q = s.history q ∧ (q ∈ s'.cleaning ↔ q ∈ s.cleaning))
    (hstage : InStage (s'.entries p) (s'.upcallsOn p) (s'.history p) (p ∈ s'.cleaning))
    (hnext : s.nextEntry ≤ s'.nextEntry) (hp : p < s'.nextEntry)
    (hids : StoreIndex.Indexes s'.userIdMap s'.entries fun e => some e.userId)
    (hservants : StoreIndex.Indexes s'.servantMap s'.entries (servantKey c))
    (hcleaning : s'.cleaning.Nodup) (hpending : s'.pending.Nodup)
    (hactive : ∀ q ∈ s'.pending, q ∉ s'.cleaning ∧ ∃ e, s'.entries q = some e ∧
      e.deactivated = false) : Inv c s' where
  stage q := by
    by_cases hq : q = p
    · rwa [hq]
    · obtain ⟨he, hn, hh, hc⟩ := hother q hq
      rw [he, hn, hh]
      have hs := h.stage q
      rcases he : s.entries q with _ | e
      · rw [he] at hs
        exact ⟨hs.1, hs.2.1, fun hc' => hs.2.2 (hc.mp hc')⟩
      · rw [he] at hs
        exact hs.imp (And.imp_right fun hn hc' => hn (hc.mp hc'))
          (Or.imp (And.imp_right fun hn hc' => hn (hc.mp hc')) (And.imp_right hc.mpr))
  fresh q hq := by
    obtain ⟨he, -, hh, -⟩ := hother q (hp.trans_le hq).ne'
    rw [he, hh]
    exact h.fresh q (hnext.trans hq)
  ids := hids
  servants := hservants
  cleaningNodup := hcleaning
  pendingNodup := hpending
  pendingActive := hactive

/-- An entry that exists has been made. -/
theorem Inv.lt_nextEntry (h : Inv c s) (he : s.entries p = some e) : p < s.nextEntry := by
  by_contra hp
  rw [(h.fresh p (not_lt.mp hp)).1] at he
  cases he

/-- The entry that the map has for an id. -/
theorem Inv.exists_entry (h : Inv c s) {id : I} (hp : s.userIdMap id = some p) :
    ∃ e, s.entries p = some e ∧ e.userId = id := by
  obtain ⟨e, he, hid⟩ := (h.ids id p).mp hp
  exact ⟨e, he, Option.some.inj hid⟩

/-- **An entry is replaced** by one with the same id and servant. -/
theorem Inv.replace [DecidableEq I] [DecidableEq S] (h : Inv c s) (he : s.entries p = some e)
    {e' : RetainedEntry I S} (hid : e'.userId = e.userId) (hservant : e'.servant = e.servant)
    (hentries : s'.entries = Function.update s.entries p (some e'))
    (hids : s'.userIdMap = s.userIdMap) (hservants : s'.servantMap = s.servantMap)
    (hnext : s'.nextEntry = s.nextEntry)
    (hother : ∀ q, q ≠ p → s'.upcallsOn q = s.upcallsOn q ∧ s'.history q = s.history q ∧
      (q ∈ s'.cleaning ↔ q ∈ s.cleaning))
    (hstage : InStage (some e') (s'.upcallsOn p) (s'.history p) (p ∈ s'.cleaning))
    (hcleaning : s'.cleaning.Nodup) (hpending : s'.pending.Nodup)
    (hactive : ∀ q ∈ s'.pending, q ∉ s'.cleaning ∧ (q = p ∧ e'.deactivated = false ∨
      q ≠ p ∧ ∃ e, s.entries q = some e ∧ e.deactivated = false)) : Inv c s' := by
  refine h.change p (fun q hq => ⟨by rw [hentries, Function.update_of_ne hq], hother q hq⟩) ?_
    hnext.ge (hnext ▸ h.lt_nextEntry he) ?_ ?_ hcleaning hpending fun q hq => ?_
  · rwa [hentries, Function.update_self]
  · rw [hids, hentries]
    exact h.ids.replace_same he (congrArg some hid)
  · rw [hservants, hentries]
    exact h.servants.replace_same he (by rw [servantKey, servantKey, hservant])
  · obtain ⟨hq, hcase⟩ := hactive q hq
    refine ⟨hq, ?_⟩
    rw [hentries]
    rcases hcase with ⟨rfl, hflag⟩ | ⟨hne, hq⟩
    · exact ⟨e', Function.update_self .., hflag⟩
    · rwa [Function.update_of_ne hne]

/-- An entry is replaced while the non-servant upcalls stay the same. -/
theorem Inv.replace_sameStack [DecidableEq I] [DecidableEq S] (h : Inv c s)
    (he : s.entries p = some e) {e' : RetainedEntry I S} (hid : e'.userId = e.userId)
    (hservant : e'.servant = e.servant)
    (hentries : s'.entries = Function.update s.entries p (some e'))
    (hids : s'.userIdMap = s.userIdMap) (hservants : s'.servantMap = s.servantMap)
    (hnext : s'.nextEntry = s.nextEntry) (hstack : s'.nonServantUpcalls = s.nonServantUpcalls)
    (hother : ∀ q, q ≠ p → s'.upcallsOn q = s.upcallsOn q ∧ s'.history q = s.history q)
    (hstage : InStage (some e') (s'.upcallsOn p) (s'.history p) (p ∈ s.cleaning))
    (hflag : e'.deactivated = false ∨ p ∉ s.pending) : Inv c s' := by
  have hcleaning : s'.cleaning = s.cleaning := by rw [cleaning, hstack, cleaning]
  have hpending : s'.pending = s.pending := by rw [pending, hstack, pending]
  refine h.replace he hid hservant hentries hids hservants hnext
    (fun q hq => ⟨(hother q hq).1, (hother q hq).2, by rw [hcleaning]⟩) (by rwa [hcleaning])
    (hcleaning ▸ h.cleaningNodup) (hpending ▸ h.pendingNodup) fun q hq => ?_
  rw [hpending] at hq
  obtain ⟨hnot, hq'⟩ := h.pendingActive q hq
  rw [hcleaning]
  refine ⟨hnot, ?_⟩
  by_cases hqp : q = p
  · exact .inl ⟨hqp, hflag.resolve_right fun hp => hp (hqp ▸ hq)⟩
  · exact .inr ⟨hqp, hq'⟩

/-! ### `increment_servant_refcount` -/

variable [DecidableEq I] [DecidableEq S]

/-- **An upcall begins** on an active entry that has a servant. -/
theorem Inv.increment (h : Inv c s) {t : T} (he : s.entries p = some e)
    (hflag : e.deactivated = false) (hp : p ∉ s.cleaning) (hservant : e.servant.isSome)
    (hlt : e.referenceCount.toNat + 1 < 2 ^ 16) :
    ∃ s', s.incrementServantRefcount t p = some (s', .upcall p) ∧ Inv c s' := by
  have hactive := h.active he hflag hp
  have hn (q : ℕ) := upcallsOn_cons (s.setEntry p (some { e with
    referenceCount := e.referenceCount + 1 })) t p q
  have hcount : (e.referenceCount + 1).toNat = s.upcallsOn p + 1 + 1 := by
    rw [toNat_succ rfl hlt, hactive.count]
  rw [incrementServantRefcount, he, Option.map_some]
  refine ⟨_, rfl, h.replace_sameStack he ?_ ?_ rfl rfl rfl rfl rfl (fun q hq => ⟨?_, rfl⟩) ?_
    (.inl hflag)⟩
  · rfl
  · rfl
  · rw [hn, if_neg (Ne.symm hq)]
    rfl
  · rw [hn, if_pos rfl]
    refine .inl ⟨⟨hflag, hcount, hactive.history, fun hnone => ?_⟩, hp⟩
    rw [hnone] at hservant
    cases hservant

/-! ### Non-servant upcalls that are not about an entry -/

omit [DecidableEq I] [DecidableEq S] in
/-- The non-servant upcalls change, but for those of clean-ups. -/
theorem Inv.restack (h : Inv c s) (b : Bool) (thread : Option T) {us : List (NonServantUpcall I)}
    (hcleaning : us.filterMap NonServantUpcall.entry = s.cleaning)
    (hpending : us.flatMap NonServantUpcall.rest = s.pending) :
    Inv c { s with
      etherealizeObjects := b
      thread := thread
      nonServantUpcalls := us } where
  stage p := by
    rw [RetainPoa.cleaning, hcleaning]
    exact h.stage p
  fresh := h.fresh
  ids := h.ids
  servants := h.servants
  cleaningNodup := by
    rw [RetainPoa.cleaning, hcleaning]
    exact h.cleaningNodup
  pendingNodup := by
    rw [RetainPoa.pending, hpending]
    exact h.pendingNodup
  pendingActive p hp := by
    rw [RetainPoa.pending, hpending] at hp
    rw [RetainPoa.cleaning, hcleaning]
    exact h.pendingActive p hp

/-! ### `unbind_using_user_id` -/

/-- **An entry is unbound** in the maps, and deleted. -/
theorem unbindEntry_eq (hids : StoreIndex.Indexes s.userIdMap s.entries fun e => some e.userId)
    (hservants : StoreIndex.Indexes s.servantMap s.entries (servantKey c))
    (he : s.entries p = some e) :
    s.unbindEntry c p = some ({ s with
      userIdMap := Function.update s.userIdMap e.userId none
      servantMap := StoreIndex.setKey s.servantMap (servantKey c e) none
      entries := Function.update s.entries p none
      history := Function.update s.history p (s.history p ++ [.unbound]) }, .returned) := by
  have hbound : ((servantKey c e).any fun v => (s.servantMap v).isNone) = false := by
    rcases hkey : servantKey c e with _ | v
    · rfl
    · rw [Option.any_some, hservants.eq_some he hkey]
      rfl
  rw [unbindEntry, he, Option.bind_some, unbindUsingUserId, hids.eq_some he rfl]
  simp only [he, Option.map_some]
  rw [← servantKey, hbound]
  rfl

/-- **The end of a clean-up**, in a state that differs at its entry. -/
theorem Inv.unbindEntry (h : Inv c s) (he : s.entries p = some e) {s₁ : RetainPoa I S T}
    {e' : RetainedEntry I S} (hentries : s₁.entries = Function.update s.entries p (some e'))
    (hid : e'.userId = e.userId) (hservant : e'.servant = e.servant)
    (hids : s₁.userIdMap = s.userIdMap) (hservants : s₁.servantMap = s.servantMap)
    (hnext : s₁.nextEntry = s.nextEntry)
    (hother : ∀ q, q ≠ p → s₁.upcallsOn q = s.upcallsOn q ∧ s₁.history q = s.history q ∧
      (q ∈ s₁.cleaning ↔ q ∈ s.cleaning))
    (hn : s₁.upcallsOn p = 0) (hgone : Gone (s₁.history p ++ [.unbound])) (hp : p ∉ s₁.cleaning)
    (hcleaning : s₁.cleaning.Nodup) (hpending : s₁.pending.Nodup)
    (hsub : ∀ q ∈ s₁.pending, q ≠ p ∧ q ∈ s.pending) :
    ∃ s', s₁.unbindEntry c p = some (s', .returned) ∧ Inv c s' ∧
      (∀ q, q ≠ p → s'.entries q = s.entries q) ∧
      s'.nonServantUpcalls = s₁.nonServantUpcalls := by
  have he₁ : s₁.entries p = some e' := by rw [hentries, Function.update_self]
  have hids₁ : StoreIndex.Indexes s₁.userIdMap s₁.entries fun e => some e.userId := by
    rw [hids, hentries]
    exact h.ids.replace_same he (congrArg some hid)
  have hservants₁ : StoreIndex.Indexes s₁.servantMap s₁.entries (servantKey c) := by
    rw [hservants, hentries]
    exact h.servants.replace_same he (by rw [servantKey, servantKey, hservant])
  have hsame : ∀ q, q ≠ p → Function.update s₁.entries p none q = s.entries q := fun q hq => by
    rw [Function.update_of_ne hq, hentries, Function.update_of_ne hq]
  refine ⟨_, unbindEntry_eq hids₁ hservants₁ he₁, h.change p (fun q hq => ⟨hsame q hq,
    (hother q hq).1, ?_, (hother q hq).2.2⟩) ?_ hnext.ge (hnext ▸ h.lt_nextEntry he)
    (hids₁.erase he₁) (hservants₁.erase he₁) hcleaning hpending fun q hq => ?_, hsame, rfl⟩
  · exact (Function.update_of_ne hq ..).trans (hother q hq).2.1
  · dsimp only
    rw [Function.update_self, Function.update_self]
    exact ⟨hn, hgone, hp⟩
  · obtain ⟨hqp, hq⟩ := hsub q hq
    obtain ⟨hnot, hq⟩ := h.pendingActive q hq
    refine ⟨fun hc => hnot ((hother q hqp).2.2.mp hc), ?_⟩
    dsimp only
    rwa [hsame q hqp]

/-! ### `deactivate_map_entry` -/

/-- **Entries that are ready to be deactivated**, one after the other. -/
def Ready (s : RetainPoa I S T) (l : List ℕ) : Prop :=
  l.Nodup ∧ ∀ q ∈ l, q ∉ s.cleaning ∧ q ∉ s.pending ∧ ∃ e, s.entries q = some e ∧
    e.deactivated = false

omit [DecidableEq I] [DecidableEq S] in
/-- Entries stay ready while others change. -/
theorem Ready.tail {rest : List ℕ} (h : Ready s (p :: rest))
    (hentries : ∀ q, q ≠ p → s'.entries q = s.entries q)
    (hstack : s'.nonServantUpcalls = s.nonServantUpcalls) : Ready s' rest := by
  obtain ⟨hnotMem, hnodup⟩ := List.nodup_cons.mp h.1
  refine ⟨hnodup, fun q hq => ?_⟩
  rw [cleaning, pending, hstack, hentries q fun hqp => hnotMem (hqp ▸ hq)]
  exact h.2 q (List.mem_cons_of_mem p hq)

/-- **`deactivate_map_entry`** for an entry that is ready. -/
theorem Inv.deactivateMapEntry (h : Inv c s) (t : T) {rest : List ℕ} (hready : Ready s (p :: rest)) :
    ∃ s' a, s.deactivateMapEntry c t p rest = some (s', a) ∧ Inv c s' ∧
      (a = .returned → Ready s' rest) := by
  obtain ⟨hnotClean, hnotPending, e, he, hflag⟩ := hready.2 p (List.mem_cons_self ..)
  have hactive := h.active he hflag hnotClean
  rw [RetainPoa.deactivateMapEntry, he, Option.bind_some]
  dsimp only
  by_cases hn : s.upcallsOn p = 0
  · have hzero := (pred_eq_zero hactive.count).mpr hn
    have hentry : (((s.record p .deactivated).setEntry p (some { e with
        referenceCount := e.referenceCount - 1 })).entries p) = some { e with
          referenceCount := e.referenceCount - 1 } := Function.update_self ..
    rw [if_pos hzero, RetainPoa.cleanupServant, hentry, Option.bind_some]
    dsimp only
    have hhistory : Function.update (Function.update s.history p (s.history p ++ [.deactivated])) p
        (Function.update s.history p (s.history p ++ [.deactivated]) p ++ [.cleanup]) p =
          activation e ++ [.deactivated, .cleanup] := by
      rw [Function.update_self, Function.update_self, hactive.history, List.append_assoc]
      rfl
    by_cases hservant : e.servant.isSome
    · rw [if_pos hservant]
      refine ⟨_, _, rfl, h.replace he ?_ ?_ rfl rfl rfl rfl (fun q hq => ⟨rfl, ?_, ?_⟩) ?_
        (List.nodup_cons.mpr ⟨hnotClean, h.cleaningNodup⟩) (List.nodup_append'.mpr
          ⟨(List.nodup_cons.mp hready.1).2, h.pendingNodup, fun q hq => ?_⟩) fun q hq => ?_, nofun⟩
      · rfl
      · rfl
      · exact (Function.update_of_ne hq ..).trans (Function.update_of_ne hq ..)
      · exact List.mem_cons.trans (or_iff_right hq)
      · refine .inr (.inr ⟨⟨hzero, hn, ?_, hservant⟩, List.mem_cons_self ..⟩)
        exact hhistory.trans (by rw [activation, if_pos hservant]; rfl)
      · exact (hready.2 q (List.mem_cons_of_mem p hq)).2.1
      · have hne : q ≠ p := fun hqp => by
          rcases List.mem_append.mp hq with hq | hq
          · exact (List.nodup_cons.mp hready.1).1 (hqp ▸ hq)
          · exact hnotPending (hqp ▸ hq)
        have hq' : q ∉ s.cleaning ∧ ∃ e, s.entries q = some e ∧ e.deactivated = false := by
          rcases List.mem_append.mp hq with hq | hq
          · obtain ⟨hnot, -, hq⟩ := hready.2 q (List.mem_cons_of_mem p hq)
            exact ⟨hnot, hq⟩
          · exact h.pendingActive q hq
        exact ⟨fun hc => hq'.1 ((List.mem_cons.mp hc).resolve_left hne), .inr ⟨hne, hq'.2⟩⟩
    · rw [if_neg hservant]
      have hentries : (((s.record p .deactivated).setEntry p (some { e with
          referenceCount := e.referenceCount - 1 })).record p .cleanup).entries =
            Function.update s.entries p (some { e with
              referenceCount := e.referenceCount - 1 }) := rfl
      have hgone : Gone (activation e ++ [.deactivated, .cleanup] ++ [.unbound]) := by
        rw [activation, if_neg hservant]
        exact .inr (.inr rfl)
      rw [← hhistory] at hgone
      obtain ⟨s', heq, hinv, hentries', hstack⟩ := h.unbindEntry he hentries rfl rfl rfl rfl rfl
        (fun q hq => ⟨rfl, (Function.update_of_ne hq ..).trans (Function.update_of_ne hq ..),
          Iff.rfl⟩) hn hgone hnotClean h.cleaningNodup h.pendingNodup fun q hq =>
            ⟨fun hqp => hnotPending (hqp ▸ hq), hq⟩
      exact ⟨s', _, heq, hinv, fun _ => hready.tail hentries' hstack⟩
  · have hservant : e.servant.isSome := by
      by_contra hnone
      exact hn (hactive.servantless (Option.not_isSome_iff_eq_none.mp hnone))
    rw [if_neg fun hzero => hn ((pred_eq_zero hactive.count).mp hzero)]
    refine ⟨_, _, rfl, h.replace_sameStack he ?_ ?_ rfl rfl rfl rfl rfl (fun q hq => ⟨rfl, ?_⟩) ?_
      (.inr hnotPending), fun _ => hready.tail (fun q hq => ?_) rfl⟩
    · rfl
    · rfl
    · exact Function.update_of_ne hq ..
    · refine .inr (.inl ⟨⟨rfl, toNat_pred hactive.count, Nat.pos_of_ne_zero hn, ?_, hservant⟩,
        hnotClean⟩)
      refine (Function.update_self ..).trans ?_
      rw [hactive.history, activation, if_pos hservant]
      rfl
    · exact Function.update_of_ne hq ..

/-- **The loop of `deactivate_all_objects`.** -/
theorem Inv.deactivateEntries (h : Inv c s) (t : T) {l : List ℕ} (hready : Ready s l) :
    ∃ s' a, s.deactivateEntries c t l = some (s', a) ∧ Inv c s' := by
  induction l generalizing s with
  | nil => exact ⟨s, .returned, rfl, h⟩
  | cons p rest ih =>
    obtain ⟨s₁, a, heq, hinv, hrest⟩ := h.deactivateMapEntry t hready
    rw [RetainPoa.deactivateEntries, heq, Option.bind_some]
    dsimp only
    split_ifs with ha
    · exact ih hinv (hrest ha)
    · exact ⟨s₁, a, rfl, hinv⟩

/-! ### `deactivate_object` and `deactivate_all_objects` -/

/-- **`deactivate_object`** at a safe id. -/
theorem Inv.deactivateObject (h : Inv c s) (t : T) {id : I}
    (hsafe : ∀ p ∈ s.userIdMap id, ∀ e ∈ s.entries p, e.deactivated = false →
      p ∉ s.cleaning ∧ p ∉ s.pending) :
    ∃ s' a, s.deactivateObject c t id = some (s', a) ∧ Inv c s' := by
  rw [RetainPoa.deactivateObject]
  rcases hp : s.userIdMap id with _ | p
  · exact ⟨s, .raised, rfl, h⟩
  · obtain ⟨e, he, -⟩ := h.exists_entry hp
    dsimp only
    rw [he, Option.bind_some]
    split_ifs with hflag
    · exact ⟨s, .raised, rfl, h⟩
    · have hflag' := Bool.eq_false_iff.mpr hflag
      obtain ⟨hclean, hpend⟩ := hsafe p hp e he hflag'
      have hready : Ready s [p] := ⟨List.nodup_singleton p,
        fun q hq => List.mem_singleton.mp hq ▸ ⟨hclean, hpend, e, he, hflag'⟩⟩
      obtain ⟨s', a, heq, hinv, -⟩ := h.deactivateMapEntry t hready
      exact ⟨s', a, heq, hinv⟩

/-- **`deactivate_all_objects`** where none of the entries is about to be deactivated already. -/
theorem Inv.deactivateAllObjects (h : Inv c s) (t : T) (b : Bool) {order : List ℕ}
    (hsafe : ∀ p ∈ order, ∀ e ∈ s.entries p, e.deactivated = false →
      p ∉ s.cleaning ∧ p ∉ s.pending) :
    ∃ s' a, s.deactivateAllObjects c t b order = some (s', a) ∧ Inv c s' := by
  rw [RetainPoa.deactivateAllObjects]
  split_ifs with horder
  · refine (h.restack b s.thread rfl rfl).deactivateEntries t ⟨horder.1.filter _, fun q hq => ?_⟩
    obtain ⟨hq, hactive⟩ := List.mem_filter.mp hq
    rcases he : s.entries q with _ | e
    · rw [he] at hactive
      cases hactive
    · rw [he] at hactive
      have hflag : e.deactivated = false := by simpa using hactive
      obtain ⟨hclean, hpend⟩ := hsafe q hq e he hflag
      exact ⟨hclean, hpend, e, rfl, hflag⟩
  · exact ⟨s, .impossible, rfl, h⟩

/-! ### `servant_cleanup` -/

/-- **An upcall ends**, and the entry is cleaned up if it was the last one of an entry that is
closing. -/
theorem Inv.endUpcall [DecidableEq T] (h : Inv c s) (t : T) (p : ℕ) :
    ∃ s' a, s.endUpcall c t p = some (s', a) ∧ Inv c s' := by
  rw [RetainPoa.endUpcall]
  split_ifs with hmem
  · obtain ⟨m, hm⟩ : ∃ m, upcallsOn { s with upcalls := s.upcalls.erase (t, p) } p = m := ⟨_, rfl⟩
    have hn : s.upcallsOn p = m + 1 := by rw [upcallsOn_erase hmem, if_pos rfl, hm]
    have hother : ∀ q, q ≠ p →
        upcallsOn { s with upcalls := s.upcalls.erase (t, p) } q = s.upcallsOn q := fun q hq => by
      rw [upcallsOn_erase hmem, if_neg (Ne.symm hq), Nat.add_zero]
    rcases he : s.entries p with _ | e
    · rw [(h.stage_none he).1] at hn
      cases hn
    · rw [Option.bind_some]
      dsimp only
      rcases h.stage_some he with ⟨hs, hnot⟩ | ⟨hs, hnot⟩ | ⟨hs, -⟩
      · have hcount := hs.count
        rw [hn] at hcount
        rw [if_neg fun hzero => Nat.succ_ne_zero m ((pred_eq_zero hcount).mp hzero)]
        refine ⟨_, _, rfl, h.replace_sameStack he ?_ ?_ rfl rfl rfl rfl rfl
          (fun q hq => ⟨hother q hq, rfl⟩) ?_ (.inl hs.flag)⟩
        · rfl
        · rfl
        · refine .inl ⟨⟨hs.flag, (toNat_pred hcount).trans (congrArg Nat.succ hm.symm), hs.history,
            fun hnone => ?_⟩, hnot⟩
          have hzero := hs.servantless hnone
          rw [hn] at hzero
          cases hzero
      · have hcount := hs.count
        rw [hn] at hcount
        have hnotPending : p ∉ s.pending := fun hp => by
          obtain ⟨-, e', he', hflag⟩ := h.pendingActive p hp
          rw [he] at he'
          cases he'
          rw [hs.flag] at hflag
          cases hflag
        split_ifs with hzero
        · rw [RetainPoa.cleanupServant, show ((s.setEntry p (some { e with
            referenceCount := e.referenceCount - 1 })).entries p) = _ from Function.update_self ..,
            Option.bind_some]
          dsimp only
          rw [if_pos hs.servant]
          refine ⟨_, _, rfl, h.replace he ?_ ?_ rfl rfl rfl rfl
            (fun q hq => ⟨hother q hq, Function.update_of_ne hq .., ?_⟩) ?_
            (List.nodup_cons.mpr ⟨hnot, h.cleaningNodup⟩) h.pendingNodup fun q hq => ?_⟩
          · rfl
          · rfl
          · exact List.mem_cons.trans (or_iff_right hq)
          · refine .inr (.inr ⟨⟨hzero, hm.trans ((pred_eq_zero hcount).mp hzero), ?_, hs.servant⟩,
              List.mem_cons_self ..⟩)
            refine (Function.update_self ..).trans ?_
            rw [show (s.setEntry p _).history p = s.history p from rfl, hs.history]
            rfl
          · have hne : q ≠ p := fun hqp => hnotPending (hqp ▸ hq)
            obtain ⟨hc, hq⟩ := h.pendingActive q hq
            exact ⟨fun hc' => hc ((List.mem_cons.mp hc').resolve_left hne), .inr ⟨hne, hq⟩⟩
        · refine ⟨_, _, rfl, h.replace_sameStack he ?_ ?_ rfl rfl rfl rfl rfl
            (fun q hq => ⟨hother q hq, rfl⟩) ?_ (.inr hnotPending)⟩
          · rfl
          · rfl
          · exact .inr (.inl ⟨⟨hs.flag, (toNat_pred hcount).trans hm.symm, hm ▸ Nat.pos_of_ne_zero
              fun hz => hzero ((pred_eq_zero hcount).mpr hz), hs.history, hs.servant⟩, hnot⟩)
      · have hzero := hs.upcalls
        rw [hn] at hzero
        cases hzero
  · exact ⟨s, .impossible, rfl, h⟩

/-! ### `bind_using_user_id` -/

omit [DecidableEq I] [DecidableEq S] in
theorem servantKey_eq_none (hnone : e.servant = none) : servantKey c e = none := by
  rw [servantKey, hnone, ite_self]

/-- **A new entry.** -/
theorem Inv.newEntry (h : Inv c s) {id : I} (hid : s.userIdMap id = none) (servant : Option S)
    (hkey : ∀ v, servantKey c (⟨id, servant, false, 1⟩ : RetainedEntry I S) = some v →
      s.servantMap v = none) :
    Inv c { s with
      entries := Function.update s.entries s.nextEntry (some ⟨id, servant, false, 1⟩)
      nextEntry := s.nextEntry + 1
      userIdMap := Function.update s.userIdMap id (some s.nextEntry)
      servantMap := StoreIndex.setKey s.servantMap
        (servantKey c (⟨id, servant, false, 1⟩ : RetainedEntry I S)) (some s.nextEntry)
      history := Function.update s.history s.nextEntry
        (activation (⟨id, servant, false, 1⟩ : RetainedEntry I S)) } := by
  obtain ⟨hnone, hhistory⟩ := h.fresh s.nextEntry le_rfl
  obtain ⟨hn, -, hclean⟩ := h.stage_none hnone
  refine h.change s.nextEntry (fun q hq => ⟨Function.update_of_ne hq .., rfl,
    Function.update_of_ne hq .., Iff.rfl⟩) ?_ (Nat.le_succ _) (Nat.lt_succ_self _) ?_ ?_
    h.cleaningNodup h.pendingNodup fun q hq => ?_
  · dsimp only
    rw [Function.update_self, Function.update_self]
    exact .inl ⟨⟨rfl, congrArg Nat.succ hn.symm, rfl, fun _ => hn⟩, hclean⟩
  · refine h.ids.insert (v := ⟨id, servant, false, 1⟩) hnone fun k hk => ?_
    rwa [← Option.some.inj hk]
  · exact h.servants.insert hnone hkey
  · obtain ⟨hc, e, he, hflag⟩ := h.pendingActive q hq
    exact ⟨hc, e, (Function.update_of_ne (h.lt_nextEntry he).ne ..).trans he, hflag⟩

/-- **An entry is given a servant.** -/
theorem Inv.giveServant (h : Inv c s) (he : s.entries p = some e) (hnone : e.servant = none) (v : S)
    (hkey : ∀ k, servantKey c { e with servant := some v } = some k → s.servantMap k = none) :
    Inv c { s with
      entries := Function.update s.entries p (some { e with servant := some v })
      servantMap := StoreIndex.setKey s.servantMap (servantKey c { e with servant := some v })
        (some p)
      history := Function.update s.history p (s.history p ++ [.activated]) } := by
  have hservants := h.servants.replace he (w := { e with servant := some v })
  rw [servantKey_eq_none hnone, StoreIndex.setKey_none] at hservants
  rcases h.stage_some he with ⟨hs, hclean⟩ | ⟨hs, -⟩ | ⟨hs, -⟩
  · refine h.change p (fun q hq => ⟨Function.update_of_ne hq .., rfl, Function.update_of_ne hq ..,
      Iff.rfl⟩) ?_ le_rfl (h.lt_nextEntry he) (h.ids.replace_same he rfl) (hservants hkey)
      h.cleaningNodup h.pendingNodup fun q hq => ?_
    · dsimp only
      rw [Function.update_self, Function.update_self, hs.history, activation, hnone]
      exact .inl ⟨⟨hs.flag, hs.count, rfl, (fun h => by cases h)⟩, hclean⟩
    · obtain ⟨hc, e', he', hflag⟩ := h.pendingActive q hq
      refine ⟨hc, ?_⟩
      dsimp only
      by_cases hqp : q = p
      · rw [hqp, Function.update_self]
        exact ⟨_, rfl, hs.flag⟩
      · rw [Function.update_of_ne hqp]
        exact ⟨e', he', hflag⟩
  · exact absurd hs.servant (by rw [hnone]; intro h; cases h)
  · exact absurd hs.servant (by rw [hnone]; intro h; cases h)

/-- **`create_reference`** makes an entry without a servant, if there is none. -/
theorem Inv.createReference (h : Inv c s) (id : I) :
    ∃ s' a, s.createReference c id = some (s', a) ∧ Inv c s' := by
  have hkey : (if c.uniqueId then (none : Option S) else none) = none := ite_self _
  rw [RetainPoa.createReference, bindUsingUserId, hkey]
  rcases hid : s.userIdMap id with _ | p
  · refine ⟨_, _, rfl, ?_⟩
    have hnew := h.newEntry hid none fun v hv => by
      rw [servantKey_eq_none rfl] at hv
      cases hv
    rw [servantKey_eq_none rfl, show activation (⟨id, none, false, 1⟩ : RetainedEntry I S) =
      s.history s.nextEntry from (h.fresh s.nextEntry le_rfl).2.symm, Function.update_eq_self] at hnew
    exact hnew
  · obtain ⟨e, he, -⟩ := h.exists_entry hid
    dsimp only
    rw [he]
    exact ⟨s, .returned, rfl, h⟩

/-- **The servant is bound** under an id that has none. -/
theorem Inv.bindUsingUserId (h : Inv c s) {v : S} {id : I}
    (hfree : c.uniqueId → s.servantMap v = none)
    (hid : ∀ p ∈ s.userIdMap id, ∀ e ∈ s.entries p, e.servant = none) :
    ∃ s' p e, s.bindUsingUserId c (some v) id = some (s', p, true) ∧
      Inv c (s'.record p .activated) ∧ s'.entries p = some e ∧ e.servant.isSome ∧
        e.deactivated = false ∧ e.referenceCount.toNat = 1 ∧ p ∉ s'.cleaning := by
  have hkey : ∀ k, (if c.uniqueId then some v else none) = some k → s.servantMap k = none := by
    intro k hk
    split_ifs at hk with hunique
    exact Option.some.inj hk ▸ hfree hunique
  have htaken : ((if c.uniqueId then some v else none).any fun v => (s.servantMap v).isSome) =
      false := by
    rcases hk : (if c.uniqueId then some v else none) with _ | k
    · rfl
    · rw [Option.any_some, hkey k hk]
      rfl
  rw [RetainPoa.bindUsingUserId]
  dsimp only
  rw [htaken]
  rcases hp : s.userIdMap id with _ | p
  · obtain ⟨hnone, hhistory⟩ := h.fresh s.nextEntry le_rfl
    have hinv := h.newEntry hp (some v) hkey
    rw [show activation (⟨id, some v, false, 1⟩ : RetainedEntry I S) =
      s.history s.nextEntry ++ [.activated] by rw [hhistory]; rfl] at hinv
    exact ⟨_, _, ⟨id, some v, false, 1⟩, rfl, hinv, Function.update_self .., rfl, rfl, rfl,
      (h.stage_none hnone).2.2⟩
  · obtain ⟨e, he, -⟩ := h.exists_entry hp
    have hnone := hid p hp e he
    have hinv := h.giveServant he hnone v hkey
    dsimp only
    rw [he, Option.map_some]
    rcases h.stage_some he with ⟨hs, hclean⟩ | ⟨hs, -⟩ | ⟨hs, -⟩
    · refine ⟨_, _, { e with servant := some v }, rfl, hinv, Function.update_self .., rfl, hs.flag,
        ?_, hclean⟩
      rw [hs.count, hs.servantless hnone]
    · exact absurd hs.servant (by rw [hnone]; nofun)
    · exact absurd hs.servant (by rw [hnone]; nofun)

/-! ### Activation -/

omit [DecidableEq I] [DecidableEq S] in
/-- **`is_servant_activation_allowed`** has an answer, and allows only a servant that is not bound. -/
theorem Inv.servantActivationAllowed (h : Inv c s) (v : S) :
    (∃ a, s.servantActivationAllowed c v = some (some a)) ∨
      s.servantActivationAllowed c v = some none ∧ (c.uniqueId → s.servantMap v = none) := by
  rw [RetainPoa.servantActivationAllowed]
  split_ifs with hunique
  · rcases hp : s.servantMap v with _ | p
    · exact .inr ⟨rfl, fun _ => rfl⟩
    · obtain ⟨e, he, -⟩ := (h.servants v p).mp hp
      exact .inl ⟨refuse e, by dsimp only; rw [he]; rfl⟩
  · exact .inr ⟨rfl, fun hc => absurd hc hunique⟩

theorem Inv.activate (h : Inv c s) (t : T) {v : S} {id : I}
    (hfree : c.uniqueId → s.servantMap v = none)
    (hid : ∀ p ∈ s.userIdMap id, ∀ e ∈ s.entries p, e.servant = none) :
    ∃ s' a, s.activate c t id v = some (s', a) ∧ Inv c s' := by
  obtain ⟨s₁, p, e, heq, hinv, -⟩ := h.bindUsingUserId hfree hid
  rw [RetainPoa.activate, heq]
  exact ⟨_, _, rfl, hinv.restack _ _ rfl rfl⟩

/-- **`activate_object`.** -/
theorem Inv.activateObject (h : Inv c s) (t : T) (id : I) (v : S) :
    ∃ s' a, s.activateObject c t id v = some (s', a) ∧ Inv c s' := by
  rw [RetainPoa.activateObject]
  rcases h.servantActivationAllowed v with ⟨a, heq⟩ | ⟨heq, hfree⟩
  · rw [heq]
    exact ⟨s, a, rfl, h⟩
  · rw [heq, Option.bind_some]
    dsimp only
    split_ifs with hid
    · exact ⟨s, .raised, rfl, h⟩
    · refine h.activate t hfree fun p hp => ?_
      rw [Option.mem_def.mp hp] at hid
      exact absurd rfl hid

/-- **`activate_object_with_id`.** -/
theorem Inv.activateObjectWithId (h : Inv c s) (t : T) (id : I) (v : S) :
    ∃ s' a, s.activateObjectWithId c t id v = some (s', a) ∧ Inv c s' := by
  have hactivate {free : Option (RetainPoa I S T × RetainAnswer)}
      (hrefused : ∀ a, s.servantActivationAllowed c v = some (some a) → free = some (s, a))
      (hallowed : s.servantActivationAllowed c v = some none → free = s.activate c t id v)
      (hid : ∀ p ∈ s.userIdMap id, ∀ e ∈ s.entries p, e.servant = none) :
      ∃ s' a, free = some (s', a) ∧ Inv c s' := by
    rcases h.servantActivationAllowed v with ⟨a, heq⟩ | ⟨heq, hfree⟩
    · exact ⟨s, a, hrefused a heq, h⟩
    · rw [hallowed heq]
      exact h.activate t hfree hid
  rw [RetainPoa.activateObjectWithId]
  rcases hp : s.userIdMap id with _ | p
  · refine hactivate (fun a heq => by rw [heq]; rfl) (fun heq => by rw [heq]; rfl) fun p hp' => ?_
    rw [hp] at hp'
    cases hp'
  · obtain ⟨e, he, -⟩ := h.exists_entry hp
    dsimp only
    rw [he, Option.bind_some]
    split_ifs with hservant
    · exact ⟨s, refuse e, rfl, h⟩
    · refine hactivate (fun a heq => by rw [heq]; rfl) (fun heq => by rw [heq]; rfl)
        fun q hq e' he' => ?_
      rw [Option.mem_def, hp] at hq
      cases hq
      rw [Option.mem_def, he] at he'
      cases he'
      exact Option.not_isSome_iff_eq_none.mp hservant

/-! ### `prepare_for_upcall` -/

omit [DecidableEq I] [DecidableEq S] in
theorem Inv.locateServant (h : Inv c s) (t : T) (id : I) : Inv c (s.locateServant c t id).1 := by
  rw [RetainPoa.locateServant]
  split_ifs
  · exact h.restack _ _ rfl rfl
  · exact h

/-- **An upcall begins** at a safe id. -/
theorem Inv.beginUpcall (h : Inv c s) (t : T) {id : I}
    (hsafe : ∀ p ∈ s.userIdMap id, ∀ e ∈ s.entries p, e.deactivated = false →
      p ∉ s.cleaning ∧ e.referenceCount.toNat + 1 < 2 ^ 16) :
    ∃ s' a, s.beginUpcall c t id = some (s', a) ∧ Inv c s' := by
  rw [RetainPoa.beginUpcall]
  rcases hp : s.userIdMap id with _ | p
  · exact ⟨_, _, rfl, h.locateServant t id⟩
  · obtain ⟨e, he, -⟩ := h.exists_entry hp
    dsimp only
    rw [he, Option.bind_some]
    split_ifs with hfound
    · exact ⟨_, _, rfl, h.locateServant t id⟩
    · rw [Bool.or_eq_true, not_or, Bool.not_eq_true, Option.isNone_iff_eq_none,
        ← ne_eq, ← Option.isSome_iff_ne_none] at hfound
      obtain ⟨hclean, hlt⟩ := hsafe p hp e he hfound.1
      obtain ⟨s', heq, hinv⟩ := h.increment he hfound.1 hclean hfound.2 hlt
      exact ⟨s', _, heq, hinv⟩

/-- **An incarnated servant is bound**, and the upcall on it begins. -/
theorem Inv.rebind (h : Inv c s) (t : T) {id : I} {v : S}
    (hsafe : (c.uniqueId ∧ (s.servantMap v).isSome) ∨
      ∀ p ∈ s.userIdMap id, ∀ e ∈ s.entries p, e.servant = none) :
    ∃ s' a, s.rebind c t id v = some (s', a) ∧ Inv c s' := by
  rw [RetainPoa.rebind]
  rcases h.servantActivationAllowed v with ⟨a, heq⟩ | ⟨heq, hfree⟩
  · rw [heq]
    exact ⟨s, .raised, rfl, h⟩
  · have hid := hsafe.resolve_left fun ⟨hc, hbound⟩ => by
      rw [hfree hc] at hbound
      cases hbound
    obtain ⟨s₁, p, e, hbind, hinv, he, hservant, hflag, hcount, hclean⟩ :=
      h.bindUsingUserId hfree hid
    rw [heq, Option.bind_some]
    dsimp only
    rw [hbind]
    obtain ⟨s', heq', hinv'⟩ := hinv.increment he hflag hclean hservant (by rw [hcount]; decide)
    exact ⟨s', _, heq', hinv'⟩

/-! ### The end of a non-servant upcall -/

/-- **A clean-up ends** when its call of the servant or the activator has returned. -/
theorem Inv.endCleanup (h : Inv c s) (t : T) {thread : Option T} {b : Bool} {rest : List ℕ}
    {us : List (NonServantUpcall I)} (hstack : s.nonServantUpcalls = .cleanupServant b p rest :: us) :
    ∃ s' a, ((RetainPoa.unbindEntry c p { s with
      thread := thread
      nonServantUpcalls := us }).bind fun (s, a) =>
        if a = .returned then s.deactivateEntries c t rest else some (s, a)) = some (s', a) ∧
      Inv c s' := by
  have hcleaning : s.cleaning = p :: us.filterMap NonServantUpcall.entry := by
    rw [RetainPoa.cleaning, hstack]
    rfl
  have hpending : s.pending = rest ++ us.flatMap NonServantUpcall.rest := by
    rw [RetainPoa.pending, hstack]
    rfl
  have hmem : p ∈ s.cleaning := hcleaning ▸ List.mem_cons_self ..
  have hnodup := h.cleaningNodup
  rw [hcleaning] at hnodup
  obtain ⟨hnotMem, hnodup⟩ := List.nodup_cons.mp hnodup
  have hpendingNodup := h.pendingNodup
  rw [hpending] at hpendingNodup
  obtain ⟨hrest, hothers, hdisjoint⟩ := List.nodup_append'.mp hpendingNodup
  have hne : ∀ q ∈ s.pending, q ≠ p := fun q hq hqp => (h.pendingActive q hq).1 (hqp ▸ hmem)
  rcases he : s.entries p with _ | e
  · exact absurd hmem (h.stage_none he).2.2
  · obtain ⟨hs, -⟩ : CleanedUp e (s.upcallsOn p) (s.history p) ∧ p ∈ s.cleaning := by
      rcases h.stage_some he with ⟨-, hnot⟩ | ⟨-, hnot⟩ | hs
      · exact absurd hmem hnot
      · exact absurd hmem hnot
      · exact hs
    have hgone : Gone (s.history p ++ [.unbound]) := .inr (.inl (by rw [hs.history]; rfl))
    have hsame : RetainPoa.entries { s with
        thread := thread
        nonServantUpcalls := us } = Function.update s.entries p (some e) := by
      rw [← he, Function.update_eq_self]
    have hclean : ∀ q, q ≠ p → (q ∈ us.filterMap NonServantUpcall.entry ↔ q ∈ s.cleaning) :=
      fun q hq => by rw [hcleaning, List.mem_cons, or_iff_right hq]
    have hsub : ∀ q ∈ us.flatMap NonServantUpcall.rest, q ≠ p ∧ q ∈ s.pending := fun q hq => by
      have hq' : q ∈ s.pending := hpending ▸ List.mem_append_right rest hq
      exact ⟨hne q hq', hq'⟩
    obtain ⟨s₁, heq, hinv, hentries, hstack₁⟩ := h.unbindEntry he hsame rfl rfl rfl rfl rfl
      (fun q hq => ⟨rfl, rfl, hclean q hq⟩) hs.upcalls hgone hnotMem hnodup hothers hsub
    rw [heq, Option.bind_some]
    dsimp only
    rw [if_pos rfl]
    refine hinv.deactivateEntries t ⟨hrest, fun q hq => ?_⟩
    have hq' : q ∈ s.pending := hpending ▸ List.mem_append_left _ hq
    obtain ⟨hnot, hactive⟩ := h.pendingActive q hq'
    rw [RetainPoa.cleaning, RetainPoa.pending, hstack₁, hentries q (hne q hq')]
    exact ⟨fun hc => hnot ((hclean q (hne q hq')).mp hc), fun hq₂ => hdisjoint hq hq₂, hactive⟩

/-- **A non-servant upcall returns.** -/
theorem Inv.returnNonServantUpcall (h : Inv c s) (t : T) {result : UpcallResult S}
    (hsafe : SafeReturn c s s.nonServantUpcalls result) :
    ∃ s' a, s.returnNonServantUpcall c t result = some (s', a) ∧ Inv c s' := by
  rw [RetainPoa.returnNonServantUpcall]
  rcases hstack : s.nonServantUpcalls with _ | ⟨u, us⟩
  · exact ⟨s, .impossible, rfl, h⟩
  · rw [hstack] at hsafe
    dsimp only
    have hpop (hentry : u.entry = none) (hrest : u.rest = []) : Inv c { s with
        thread := if us.isEmpty then none else s.thread
        nonServantUpcalls := us } := by
      refine h.restack s.etherealizeObjects _ ?_ ?_
      · rw [RetainPoa.cleaning, hstack, List.filterMap_cons, hentry]
      · rw [RetainPoa.pending, hstack, List.flatMap_cons, hrest, List.nil_append]
    cases u with
    | addRef =>
      have hinv := hpop rfl rfl
      cases result
      · exact ⟨_, _, rfl, hinv⟩
      · exact ⟨_, _, rfl, hinv⟩
      · exact ⟨_, _, rfl, hinv⟩
    | incarnate id =>
      have hinv := hpop rfl rfl
      cases result with
      | servant v => exact hinv.rebind t hsafe
      | nothing => exact ⟨_, _, rfl, hinv⟩
      | raised => exact ⟨_, _, rfl, hinv⟩
    | cleanupServant b p rest =>
      cases result with
      | servant v => cases b <;> exact h.endCleanup t hstack
      | nothing => cases b <;> exact h.endCleanup t hstack
      | raised =>
        cases b with
        | false => exact h.endCleanup t hstack
        | true => exact absurd hsafe id

end AceTao.RetainPoa

/-!
## Clean-up over whole runs

Every safe section keeps the invariant (`RetainPoa.Inv.step`), so in a run of safe sections, by any
threads in any order, every activation is cleaned up once, after the last upcall on its servant
(`RetainPoa.cleanedUpOnce_of_run`). A servant whose `_remove_ref` deactivates its object once more
finds the entry that is being cleaned up, and takes the count of references from 0 to 65535
(`RetainPoa.not_cleanedUpOnce_of_nested`).
-/

namespace AceTao.RetainPoa

variable {I S T : Type} [DecidableEq I] [DecidableEq S] [DecidableEq T] {c : RetainPolicies}
  {s : RetainPoa I S T}

/-! ### Runs -/

omit [DecidableEq I] [DecidableEq S] [DecidableEq T] in
theorem inv_empty : Inv c (empty : RetainPoa I S T) where
  stage _ := ⟨rfl, .inl rfl, nofun⟩
  fresh _ _ := ⟨rfl, rfl⟩
  ids := StoreIndex.indexes_empty _
  servants := StoreIndex.indexes_empty _
  cleaningNodup := List.nodup_nil
  pendingNodup := List.nodup_nil
  pendingActive := nofun

/-- **A safe section has an answer, and keeps the invariant.** -/
theorem Inv.step (h : Inv c s) {op : RetainOp I S T} (hsafe : Safe c s op) :
    ∃ s' a, s.step c op = some (s', a) ∧ Inv c s' := by
  rw [RetainPoa.step.eq_def]
  split_ifs with hwait
  · exact ⟨s, .waits, rfl, h⟩
  · have hsafe := hsafe.resolve_left hwait
    cases op with
    | activateObject t id v => exact h.activateObject t id v
    | activateObjectWithId t id v => exact h.activateObjectWithId t id v
    | createReference t id => exact h.createReference id
    | beginUpcall t id => exact h.beginUpcall t hsafe
    | endUpcall t p => exact h.endUpcall t p
    | deactivateObject t id => exact h.deactivateObject t hsafe
    | deactivateAllObjects t b order => exact h.deactivateAllObjects t b hsafe
    | returnNonServantUpcall t result => exact h.returnNonServantUpcall t hsafe

/-- **Clean-up, over every run of safe sections**: none of them uses an entry that is deleted, and the
state that is reached has its counts right and has cleaned up once what there is to clean up. -/
theorem cleanedUpOnce_of_run (c : RetainPolicies) (ops : List (RetainOp I S T))
    (hsafe : Machine.Guarded (step c) (Safe c) empty ops) :
    ∃ s answers, Machine.run (step c) empty ops = some (s, answers) ∧ CleanedUpOnce s := by
  obtain ⟨s, answers, hrun, hinv⟩ := Machine.run_isSome_of_guarded
    (fun _ _ h hsafe => h.step hsafe) inv_empty hsafe
  exact ⟨s, answers, hrun, hinv.cleanedUpOnce⟩

/-! ### Deciding that a section is safe -/

instance (c : RetainPolicies) (s : RetainPoa I S T) :
    (us : List (NonServantUpcall I)) → (result : UpcallResult S) →
      Decidable (SafeReturn c s us result)
  | .cleanupServant true _ _ :: _, .raised => isFalse id
  | .incarnate _ :: _, .servant _ => inferInstanceAs (Decidable (_ ∨ _))
  | [], _ | .addRef :: _, _ | .incarnate _ :: _, .nothing | .incarnate _ :: _, .raised
  | .cleanupServant false _ _ :: _, _ | .cleanupServant true _ _ :: _, .servant _
  | .cleanupServant true _ _ :: _, .nothing => isTrue trivial

instance (c : RetainPolicies) (s : RetainPoa I S T) :
    (op : RetainOp I S T) → Decidable (SafeSection c s op)
  | .beginUpcall _ id => inferInstanceAs (Decidable (∀ p ∈ s.userIdMap id, ∀ e ∈ s.entries p,
      e.deactivated = false → p ∉ s.cleaning ∧ e.referenceCount.toNat + 1 < 2 ^ 16))
  | .deactivateObject _ id => inferInstanceAs (Decidable (∀ p ∈ s.userIdMap id,
      ∀ e ∈ s.entries p, e.deactivated = false → p ∉ s.cleaning ∧ p ∉ s.pending))
  | .deactivateAllObjects _ _ order => inferInstanceAs (Decidable (∀ p ∈ order, ∀ e ∈ s.entries p,
      e.deactivated = false → p ∉ s.cleaning ∧ p ∉ s.pending))
  | .returnNonServantUpcall _ result =>
    inferInstanceAs (Decidable (SafeReturn c s s.nonServantUpcalls result))
  | .activateObject .. | .activateObjectWithId .. | .createReference .. | .endUpcall .. =>
    isTrue trivial

instance (c : RetainPolicies) (s : RetainPoa I S T) (op : RetainOp I S T) :
    Decidable (Safe c s op) :=
  inferInstanceAs (Decidable (_ ∨ _))

/-! ### Two runs -/

/-- An object is deactivated by a thread while another one has an upcall on its servant. -/
theorem cleanedUpOnce_of_upcall :
    ∃ s answers, Machine.run (step ⟨false, false⟩) (empty : RetainPoa ℕ ℕ ℕ)
      [.activateObject 0 7 1, .returnNonServantUpcall 0 .nothing, .beginUpcall 1 7,
        .deactivateObject 2 7, .endUpcall 1 0, .returnNonServantUpcall 1 .nothing] =
          some (s, answers) ∧ CleanedUpOnce s :=
  cleanedUpOnce_of_run _ _ (by decide +kernel)

/-- **Deactivation from within the clean-up**: `_remove_ref` deactivates the object again. -/
theorem not_cleanedUpOnce_of_nested :
    ∃ s answers, Machine.run (step ⟨false, false⟩) (empty : RetainPoa ℕ ℕ ℕ)
      [.activateObject 0 7 1, .returnNonServantUpcall 0 .nothing, .deactivateObject 0 7,
        .deactivateObject 0 7] = some (s, answers) ∧
      (s.entries 0).map RetainedEntry.referenceCount = some 65535 ∧ s.upcallsOn 0 = 0 ∧
      ¬CleanedUpOnce s := by
  refine ⟨_, _, rfl, by decide +kernel, by decide +kernel, fun h => ?_⟩
  have honce := h.once 0
  revert honce
  decide +kernel

end AceTao.RetainPoa
