import AceTao.Tokens.RWBooks
import AceTao.Library.Machine
import Mathlib.Algebra.Order.Group.Int

/-!
# The readers/writer token counts and excludes

Under the conditions of `RWLine.Admitted` the books of the token and those of its clients agree
(`Books`), and no owner has anything pending (`Settled`). The proof follows the ways in which the
line changes: an entry joins it with what it asked for or to wait, an acquisition is nested or
undone, an entry leaves or is requeued, and the new owners are told.
-/

namespace AceTao.Tokens

open Proxies

variable {E C : Type} [Fintype E] {p : Proxies E C} {s : RWLine E} {b b' : Ledger E} {e x : E}

/-! ### The sum of the writers -/

/-- **Who counts as a writer counts once for each acquisition**: the sum changes with the
acquisitions of one entry. -/
theorem sum_writers (h : ∀ x, x ≠ e → b'.acquisitions x = b.acquisitions x) {d : ℤ}
    (he : (b'.acquisitions e : ℤ) = b.acquisitions e + d) :
    (∑ x, if p.type x = .writer then (b'.acquisitions x : ℤ) else 0) =
      (∑ x, if p.type x = .writer then (b.acquisitions x : ℤ) else 0) + RWLine.weight p e * d := by
  rw [← sub_eq_iff_eq_add', ← Finset.sum_sub_distrib, Finset.sum_eq_single e]
  · rw [he, RWLine.weight]
    split_ifs <;> simp
  · intro x _ hx
    rw [h x hx]
    simp
  · exact fun hcon => absurd (Finset.mem_univ e) hcon

variable [DecidableEq E]

/-- **The books agree.** -/
structure Books (p : Proxies E C) (s : RWLine E) (b : Ledger E) : Prop where
  nodup : s.waiters.Nodup
  count : ∀ e, b.acquisitions e = s.nestingLevel e + if e ∈ s.waiters then 1 else 0
  writers : s.numWriters = ∑ e, if p.type e = .writer then (b.acquisitions e : ℤ) else 0
  queued : ∀ e, 0 < b.pending e → e ∈ s.waiters
  holder : ∀ e, 0 < b.held e → p.Owns s.waiters (p.clientId e)
  exclusive : ∀ e, p.type e = .writer → 0 < b.held e →
    ∃ w, s.waiters.head? = some w ∧ p.type w = .writer

/-- **Nothing is pending for an owner.** -/
def Settled (p : Proxies E C) (s : RWLine E) (b : Ledger E) : Prop :=
  ∀ e ∈ p.owners s.waiters, b.pending e = 0

namespace Books

/-! ### What the books say -/

/-- No writer holds or waits when none is counted. -/
theorem acquisitions_eq_zero (h : Books p s b) (h0 : s.numWriters = 0) (hx : p.type x = .writer) :
    b.acquisitions x = 0 := by
  have hnonneg : ∀ x ∈ Finset.univ,
      0 ≤ if p.type x = .writer then (b.acquisitions x : ℤ) else 0 := by
    intro x _
    split_ifs <;> simp
  rw [h.writers, Finset.sum_eq_zero_iff_of_nonneg hnonneg] at h0
  simpa [hx] using h0 x (Finset.mem_univ x)

/-- **A writer is in the queue when one is counted.** -/
theorem exists_writer (h : Books p s b) (h0 : s.numWriters ≠ 0) :
    ∃ w ∈ s.waiters, p.type w = .writer := by
  obtain ⟨x, -, hx⟩ := Finset.exists_ne_zero_of_sum_ne_zero (h.writers ▸ h0)
  have hw : p.type x = .writer := by
    by_contra hcon
    rw [if_neg hcon] at hx
    exact hx rfl
  rw [if_pos hw] at hx
  rcases Nat.eq_zero_or_pos (b.held x) with hheld | hheld
  · refine ⟨x, h.queued x ?_, hw⟩
    rw [Ledger.acquisitions, hheld] at hx
    omega
  · obtain ⟨w, hhead, hwriter⟩ := h.exclusive x hw hheld
    exact ⟨w, List.mem_of_mem_head? hhead, hwriter⟩

/-- No writer is counted when none is queued. -/
theorem numWriters_eq_zero (h : Books p s b) (hall : ∀ e ∈ s.waiters, p.type e = .reader) :
    s.numWriters = 0 := by
  by_contra hne
  obtain ⟨w, hw, htype⟩ := h.exists_writer hne
  rw [hall w hw] at htype
  cases htype

/-- Nobody holds anything when nobody is queued. -/
theorem held_eq_zero_of_nil (h : Books p s b) (hnil : s.waiters = []) (x : E) : b.held x = 0 := by
  by_contra hne
  obtain ⟨y, hy, -⟩ := h.holder x (Nat.pos_of_ne_zero hne)
  rw [hnil] at hy
  cases hy

/-- **An owner holds what it is the owner of.** -/
theorem held_pos (h : Books p s b) (hset : Settled p s b) (hx : x ∈ p.owners s.waiters) :
    0 < b.held x := by
  have hcount := h.count x
  rw [if_pos (mem_of_mem_owners hx), Ledger.acquisitions, hset x hx] at hcount
  omega

/-- Nothing is pending for an entry that is not in the queue. -/
theorem pending_eq_zero (h : Books p s b) (hx : x ∉ s.waiters) : b.pending x = 0 := by
  by_contra hne
  exact hx (h.queued x (Nat.pos_of_ne_zero hne))

/-! ### The line changes -/

/-- Counting after an entry has joined. -/
theorem count_join (h : Books p s b) (he : e ∉ s.waiters)
    (hadd : ∀ x, b'.acquisitions x = b.acquisitions x + if x = e then 1 else 0) (x : E) :
    b'.acquisitions x =
      (s.join p e).nestingLevel x + if x ∈ (s.join p e).waiters then 1 else 0 := by
  rw [hadd, h.count x]
  by_cases hx : x = e
  · subst hx
    simp [RWLine.join, he]
  · simp [RWLine.join, hx]

/-- The writers are counted before anything else. -/
theorem writers_add (h : Books p s b)
    (hadd : ∀ x, b'.acquisitions x = b.acquisitions x + if x = e then 1 else 0) :
    s.numWriters + RWLine.weight p e =
      ∑ x, if p.type x = .writer then (b'.acquisitions x : ℤ) else 0 := by
  rw [sum_writers (b := b) (e := e) (d := 1), ← h.writers, mul_one]
  · intro x hx
    rw [hadd, if_neg hx, add_zero]
  · rw [hadd, if_pos rfl]
    simp

theorem nodup_join (h : Books p s b) (he : e ∉ s.waiters) : (s.join p e).waiters.Nodup :=
  (List.perm_append_singleton e s.waiters).nodup_iff.mpr (List.nodup_cons.mpr ⟨he, h.nodup⟩)

/-- **An entry joins the owners**: it is the first, or all are readers. -/
theorem grant_join (h : Books p s b) (hset : Settled p s b) (he : e ∉ s.waiters)
    (hall : ∀ x ∈ s.waiters ++ [e], x ∈ p.owners (s.waiters ++ [e]))
    (hold : ∀ x ∈ s.waiters, x ∈ p.owners s.waiters)
    (hno : ∀ x, p.type x = .writer → b.held x = 0) (hnil : p.type e = .writer → s.waiters = []) :
    Books p (s.join p e) (b.grant e) ∧ Settled p (s.join p e) (b.grant e) := by
  have hadd := b.acquisitions_grant e
  refine ⟨⟨h.nodup_join he, h.count_join he hadd, h.writers_add hadd, fun x hx => ?_,
    fun x hx => ?_, fun x hw hx => ?_⟩, fun x hx => ?_⟩
  · exact List.mem_append_left _ (h.queued x hx)
  · rw [Ledger.held_grant] at hx
    split_ifs at hx with hxe
    · exact ⟨e, hall e (by simp), by rw [hxe]⟩
    · obtain ⟨y, hy, hclient⟩ := h.holder x hx
      exact ⟨y, hall y (List.mem_append_left _ (mem_of_mem_owners hy)), hclient⟩
  · rw [Ledger.held_grant] at hx
    split_ifs at hx with hxe
    · subst hxe
      exact ⟨x, by simp [RWLine.join, hnil hw], hw⟩
    · rw [hno x hw] at hx
      cases hx
  · rcases List.mem_append.mp (mem_of_mem_owners hx) with hmem | hmem
    · exact hset x (hold x hmem)
    · rw [List.mem_singleton.mp hmem]
      exact h.pending_eq_zero he

/-- **An entry joins to wait.** -/
theorem wait_join (h : Books p s b) (hset : Settled p s b) (he : e ∉ s.waiters)
    (hnil : s.waiters ≠ []) (hadmits : ¬(p.type e = .reader ∧ s.numWriters = 0)) :
    Books p (s.join p e) (b.wait e) ∧ Settled p (s.join p e) (b.wait e) := by
  have hadd := b.acquisitions_wait e
  have hbehind : (∃ w ∈ s.waiters, p.type w = .writer) ∨ p.type e = .writer := by
    rcases htype : p.type e
    · exact Or.inl (h.exists_writer fun h0 => hadmits ⟨htype, h0⟩)
    · exact Or.inr rfl
  have howners : ∀ x, x ∈ p.owners (s.join p e).waiters ↔ x ∈ p.owners s.waiters :=
    fun x => mem_owners_concat hnil hbehind
  refine ⟨⟨h.nodup_join he, h.count_join he hadd, h.writers_add hadd, fun x hx => ?_,
    fun x hx => ?_, fun x hw hx => ?_⟩, fun x hx => ?_⟩
  · rw [Ledger.pending_wait] at hx
    split_ifs at hx with hxe
    · rw [hxe]
      exact List.mem_append_right _ (by simp)
    · exact List.mem_append_left _ (h.queued x hx)
  · obtain ⟨y, hy, hclient⟩ := h.holder x hx
    exact ⟨y, (howners y).mpr hy, hclient⟩
  · obtain ⟨w, hhead, hwriter⟩ := h.exclusive x hw hx
    exact ⟨w, by rw [RWLine.join, List.head?_append_of_ne_nil _ hnil, hhead], hwriter⟩
  · have hold := (howners x).mp hx
    have hne : x ≠ e := fun heq => he (heq ▸ mem_of_mem_owners hold)
    rw [Ledger.pending_wait, if_neg hne]
    exact hset x hold

/-- **An acquisition is nested.** -/
theorem grant_nest (h : Books p s b) (hset : Settled p s b)
    (howns : p.Owns s.waiters (p.clientId e))
    (hw : p.type e = .writer → ∃ w, s.waiters.head? = some w ∧ p.type w = .writer) :
    Books p (s.nest p e) (b.grant e) ∧ Settled p (s.nest p e) (b.grant e) := by
  have hadd := b.acquisitions_grant e
  refine ⟨⟨h.nodup, fun x => ?_, h.writers_add hadd, h.queued, fun x hx => ?_,
    fun x hwriter hx => ?_⟩, hset⟩
  · rw [hadd, h.count x]
    change _ = Function.update s.nestingLevel e _ x + if x ∈ s.waiters then 1 else 0
    by_cases hx : x = e
    · rw [hx, Function.update_self, if_pos rfl]
      omega
    · rw [Function.update_of_ne hx, if_neg hx, add_zero]
  · rw [Ledger.held_grant] at hx
    split_ifs at hx with hxe
    · rw [hxe]
      exact howns
    · exact h.holder x hx
  · rw [Ledger.held_grant] at hx
    split_ifs at hx with hxe
    · exact hw (hxe ▸ hwriter)
    · exact h.exclusive x hwriter hx

/-- **An acquisition is undone** that was nested. -/
theorem release_unnest (h : Books p s b) (hset : Settled p s b) (hn : 0 < s.nestingLevel e) :
    Books p (s.unnest p e) (b.release e) ∧ Settled p (s.unnest p e) (b.release e) := by
  have hsub := b.acquisitions_release e
  have hpos : 0 < b.acquisitions e := by
    rw [h.count e]
    omega
  have hne : ∀ x, x ≠ e → (b.release e).acquisitions x = b.acquisitions x := by
    intro x hx
    rw [Ledger.acquisitions, (Ledger.release_of_ne hx).1, (Ledger.release_of_ne hx).2]
    rfl
  refine ⟨⟨h.nodup, fun x => ?_, ?_, fun x hx => ?_, fun x hx => ?_, fun x hw hx => ?_⟩,
    fun x hx => ?_⟩
  · change _ = Function.update s.nestingLevel e _ x + if x ∈ s.waiters then 1 else 0
    by_cases hx : x = e
    · rw [hx, Function.update_self, hsub, h.count e]
      omega
    · rw [Function.update_of_ne hx, hne x hx, h.count x]
  · change s.numWriters - RWLine.weight p e = _
    rw [sum_writers (d := -1) hne (by rw [hsub]; omega), ← h.writers]
    omega
  · exact h.queued x (lt_of_lt_of_le hx (b.release_le e x).2)
  · exact h.holder x (lt_of_lt_of_le hx (b.release_le e x).1)
  · exact h.exclusive x hw (lt_of_lt_of_le hx (b.release_le e x).1)
  · exact Nat.le_zero.mp (hset x hx ▸ (b.release_le e x).2)

/-- **A reader that waits gives up.** -/
theorem withdraw_drop (h : Books p s b) (hset : Settled p s b)
    (howns : ¬p.Owns s.waiters (p.clientId e))
    (hmem : e ∈ s.waiters → p.type e = .reader ∧ s.nestingLevel e = 0) :
    Books p (s.drop e) (b.withdraw e) ∧ Settled p (s.drop e) (b.withdraw e) := by
  by_cases he : e ∈ s.waiters
  · obtain ⟨hreader, hn⟩ := hmem he
    have hnot : e ∉ p.owners s.waiters := fun hcon => howns ⟨e, hcon, rfl⟩
    have howners : ∀ x, x ∈ p.owners (s.drop e).waiters ↔ x ∈ p.owners s.waiters :=
      fun x => mem_owners_erase h.nodup hnot hreader
    have hheld : b.held e = 0 := by
      by_contra hcon
      exact howns (h.holder e (Nat.pos_of_ne_zero hcon))
    have hne : ∀ x, x ≠ e → (b.withdraw e).acquisitions x = b.acquisitions x := by
      intro x hx
      rw [Ledger.acquisitions, Ledger.held_withdraw, Ledger.pending_withdraw, if_neg hx]
      rfl
    have hself : (b.withdraw e).acquisitions e = 0 := by
      rw [Ledger.acquisitions, Ledger.held_withdraw, Ledger.pending_withdraw, if_pos rfl, hheld]
    refine ⟨⟨h.nodup.erase e, fun x => ?_, ?_, fun x hx => ?_, fun x hx => ?_, fun x hw hx => ?_⟩,
      fun x hx => ?_⟩
    · change _ = s.nestingLevel x + if x ∈ s.waiters.erase e then 1 else 0
      by_cases hx : x = e
      · rw [hx, hself, hn, if_neg h.nodup.not_mem_erase]
      · rw [hne x hx, h.count x]
        simp only [List.mem_erase_of_ne hx]
    · change s.numWriters = _
      rw [sum_writers (b := b) (e := e) (d := -b.acquisitions e) hne (by rw [hself]; omega),
        ← h.writers, RWLine.weight_of_reader hreader, zero_mul, add_zero]
    · rw [Ledger.pending_withdraw] at hx
      split_ifs at hx with hxe
      · cases hx
      · exact (List.mem_erase_of_ne hxe).mpr (h.queued x hx)
    · obtain ⟨y, hy, hclient⟩ := h.holder x hx
      exact ⟨y, (howners y).mpr hy, hclient⟩
    · obtain ⟨w, hhead, hwriter⟩ := h.exclusive x hw hx
      refine ⟨w, ?_, hwriter⟩
      rw [RWLine.drop, head?_erase (fun hcon => hnot (head_mem_owners hcon)), hhead]
    · rw [Ledger.pending_withdraw]
      split_ifs
      · rfl
      · exact hset x ((howners x).mp hx)
  · have hdrop : s.drop e = s := by
      rw [RWLine.drop, List.erase_of_not_mem he]
    have hwithdraw : b.withdraw e = b := by
      rw [Ledger.withdraw, ← h.pending_eq_zero he, Function.update_eq_self]
    rw [hdrop, hwithdraw]
    exact ⟨h, hset⟩

/-- **The new owners are told.** -/
theorem promote (h : Books p s b) {acquired : List E}
    (hsub : ∀ x ∈ acquired, x ∈ p.owners s.waiters)
    (hall : ∀ x ∈ p.owners s.waiters, x ∉ acquired → b.pending x = 0) :
    Books p s (b.promote acquired) ∧ Settled p s (b.promote acquired) := by
  have hacq := b.acquisitions_promote acquired
  refine ⟨⟨h.nodup, fun x => ?_, ?_, fun x hx => ?_, fun x hx => ?_, fun x hw hx => ?_⟩,
    fun x hx => ?_⟩
  · rw [hacq, h.count x]
  · simp only [hacq, h.writers]
  · rw [Ledger.pending_promote] at hx
    split_ifs at hx with hmem
    · cases hx
    · exact h.queued x hx
  · rw [Ledger.held_promote] at hx
    split_ifs at hx with hmem
    · exact ⟨x, hsub x hmem, rfl⟩
    · exact h.holder x hx
  · rw [Ledger.held_promote] at hx
    split_ifs at hx with hmem
    · exact ⟨x, head_of_mem_owners (hsub x hmem) hw, hw⟩
    · exact h.exclusive x hw hx
  · rw [Ledger.pending_promote]
    split_ifs with hmem
    · rfl
    · exact hall x hx hmem

/-- **An owner goes** on whom nothing depends: what the others hold, they hold without it. -/
theorem holder_of_alone (h : Books p s b) (halone : Alone p s.waiters b e) (hx : x ≠ e)
    (hheld : 0 < b.held x) : ∃ y ∈ p.owners s.waiters, y ≠ e ∧ p.clientId y = p.clientId x := by
  obtain ⟨y, hy, hclient⟩ := h.holder x hheld
  by_cases hye : y = e
  · subst hye
    rcases halone with ⟨z, hz, hzne, hzclient⟩ | hnone
    · exact ⟨z, hz, hzne, hzclient.trans hclient⟩
    · rw [hnone x hx hclient.symm] at hheld
      cases hheld
  · exact ⟨y, hy, hye, hclient⟩

/-- **An entry leaves the line** with its last acquisition. -/
theorem release_leave (h : Books p s b) (he : e ∈ s.waiters) (hn : s.nestingLevel e = 0)
    (halone : e ∈ p.owners s.waiters → Alone p s.waiters b e) :
    Books p (s.leave p e) (b.release e) := by
  have hone : b.acquisitions e = 1 := by rw [h.count e, hn, if_pos he]
  have hself : (b.release e).acquisitions e = 0 := by rw [b.acquisitions_release, hone]
  have hne : ∀ x, x ≠ e → (b.release e).acquisitions x = b.acquisitions x := by
    intro x hx
    rw [Ledger.acquisitions, (Ledger.release_of_ne hx).1, (Ledger.release_of_ne hx).2]
    rfl
  have hother : ∀ x, 0 < (b.release e).acquisitions x → x ≠ e := by
    rintro x hx rfl
    rw [hself] at hx
    cases hx
  have hheld : ∀ x, 0 < (b.release e).held x → x ≠ e ∧ 0 < b.held x := fun x hx =>
    ⟨hother x (Nat.lt_of_lt_of_le hx (Nat.le_add_right _ _)),
      lt_of_lt_of_le hx (b.release_le e x).1⟩
  -- what is held without the entry is held by another owner
  have howner : ∀ x, x ≠ e → 0 < b.held x →
      ∃ y ∈ p.owners s.waiters, y ≠ e ∧ p.clientId y = p.clientId x := by
    intro x hx hpos
    by_cases hown : e ∈ p.owners s.waiters
    · exact h.holder_of_alone (halone hown) hx hpos
    · obtain ⟨y, hy, hclient⟩ := h.holder x hpos
      exact ⟨y, hy, fun heq => hown (heq ▸ hy), hclient⟩
  refine ⟨h.nodup.erase e, fun x => ?_, ?_, fun x hx => ?_, fun x hx => ?_, fun x hw hx => ?_⟩
  · change _ = s.nestingLevel x + if x ∈ s.waiters.erase e then 1 else 0
    by_cases hx : x = e
    · rw [hx, hself, hn, if_neg h.nodup.not_mem_erase]
    · rw [hne x hx, h.count x]
      simp only [List.mem_erase_of_ne hx]
  · change s.numWriters - RWLine.weight p e = _
    rw [sum_writers (b := b) (e := e) (d := -1) hne (by rw [hself, hone]; rfl), ← h.writers]
    omega
  · have hxe := hother x (Nat.lt_of_lt_of_le hx (Nat.le_add_left _ _))
    exact (List.mem_erase_of_ne hxe).mpr (h.queued x (lt_of_lt_of_le hx (b.release_le e x).2))
  · obtain ⟨hxe, hpos⟩ := hheld x hx
    obtain ⟨y, hy, hye, hclient⟩ := howner x hxe hpos
    exact ⟨y, mem_owners_erase_of_mem hye hy, hclient⟩
  · obtain ⟨hxe, hpos⟩ := hheld x hx
    obtain ⟨w, hhead, hwriter⟩ := h.exclusive x hw hpos
    obtain ⟨y, hy, hye, -⟩ := howner x hxe hpos
    have hwe : w ≠ e := fun heq => hye ((eq_of_head_writer hhead hwriter hy).trans heq)
    exact ⟨w, by rw [RWLine.leave, head?_erase (by simpa [hhead] using hwe), hhead], hwriter⟩

/-- **A release** of an acquisition that is not nested. -/
theorem release (h : Books p s b) (hset : Settled p s b) (hn : s.nestingLevel e = 0)
    (hreader : e ∉ s.waiters → p.type e = .reader)
    (halone : e ∈ p.owners s.waiters → Alone p s.waiters b e) :
    let acquired := RWToken.notified p (s.leave p e).waiters e
    Books p (s.leave p e) ((b.release e).promote acquired) ∧
      Settled p (s.leave p e) ((b.release e).promote acquired) := by
  have hbooks : Books p (s.leave p e) (b.release e) := by
    by_cases he : e ∈ s.waiters
    · exact h.release_leave he hn halone
    · -- a reader that was not acquired has nothing to release
      have hzero : b.acquisitions e = 0 := by rw [h.count e, hn, if_neg he]
      obtain ⟨hheld, hpending⟩ := Nat.add_eq_zero_iff.mp hzero
      have hrelease : b.release e = b := by
        have hsub : b.pending e - 1 = b.pending e := by omega
        rw [Ledger.release, hheld, if_neg (by simp), hsub, Function.update_eq_self]
      have hleave : s.leave p e = s := by
        rw [RWLine.leave, List.erase_of_not_mem he, RWLine.weight_of_reader (hreader he), sub_zero]
      rw [hrelease, hleave]
      exact h
  refine hbooks.promote (fun x => RWToken.mem_owners_of_notified) fun x hx hnot => ?_
  obtain ⟨hmem, hreader⟩ := RWToken.of_not_notified hx hnot
  have hxe : x ≠ e := by
    rintro rfl
    exact h.nodup.not_mem_erase (mem_of_mem_readers hmem)
  have hold : x ∈ p.owners s.waiters :=
    mem_owners.mpr (Or.inl ((mem_readers_erase hreader hxe).mp hmem))
  rw [(Ledger.release_of_ne hxe).2]
  exact hset x hold

/-! ### An owner is requeued -/

section Requeue

variable {position : ℤ}

omit [Fintype E] in
/-- Where it is put, the entry is among the same ones. -/
theorem requeue_perm (he : e ∈ s.waiters) :
    (s.requeue e position).waiters.Perm s.waiters :=
  (ProxyQueue.place_perm position).trans (List.perm_cons_erase he).symm

theorem count_requeue (h : Books p s b) (he : e ∈ s.waiters)
    (hacq : ∀ x, b'.acquisitions x = b.acquisitions x) (x : E) :
    b'.acquisitions x = (s.requeue e position).nestingLevel x +
      if x ∈ (s.requeue e position).waiters then 1 else 0 := by
  rw [hacq, h.count x]
  simp only [(requeue_perm he).mem_iff]
  rfl

omit [Fintype E] in
/-- **A reader that is requeued** leaves the other owners. -/
theorem mem_owners_requeue (hreader : p.type e = .reader) (he : e ∈ p.owners s.waiters)
    (hx : x ∈ p.owners s.waiters) (hne : x ≠ e) : x ∈ p.owners (s.requeue e position).waiters := by
  refine mem_owners.mpr (Or.inl ?_)
  rw [RWLine.requeue, mem_readers_place hreader hne, mem_readers_erase hreader hne]
  exact mem_readers_of_mem_owners he hreader hx

omit [Fintype E] in
/-- And the readers among the owners were owners before. -/
theorem mem_owners_of_requeue (hreader : p.type e = .reader)
    (hx : x ∈ p.readers (s.requeue e position).waiters) (hne : x ≠ e) : x ∈ p.owners s.waiters := by
  rw [RWLine.requeue, mem_readers_place hreader hne, mem_readers_erase hreader hne] at hx
  exact mem_owners.mpr (Or.inl hx)

/-- **A reader stays an owner** behind other readers, or its client does. -/
theorem requeue_still (h : Books p s b) (hset : Settled p s b) (hreader : p.type e = .reader)
    (he : e ∈ p.owners s.waiters) (hlen : s.waiters.length ≠ 1) (h0 : position ≠ 0)
    (hstill : p.Owns (s.requeue e position).waiters (p.clientId e))
    (hnext : ∀ w, (s.waiters.erase e).head? = some w → p.type w = .writer →
      p.clientId w ≠ p.clientId e) :
    Books p (s.requeue e position) b ∧ Settled p (s.requeue e position) b := by
  have hmem := mem_of_mem_owners he
  have hperm : (s.requeue e position).waiters.Perm s.waiters := requeue_perm hmem
  refine ⟨⟨hperm.nodup_iff.mpr h.nodup, h.count_requeue hmem fun _ => rfl, h.writers,
    fun x hx => hperm.mem_iff.mpr (h.queued x hx), fun x hx => ?_, fun x hw hx => ?_⟩,
    fun x hx => ?_⟩
  · obtain ⟨y, hy, hclient⟩ := h.holder x hx
    by_cases hye : y = e
    · rw [← hclient, hye]
      exact hstill
    · exact ⟨y, mem_owners_requeue hreader he hy hye, hclient⟩
  · -- no writer holds the token for reading
    obtain ⟨w, hhead, hwriter⟩ := h.exclusive x hw hx
    rw [← eq_of_head_writer hhead hwriter he, hreader] at hwriter
    cases hwriter
  · rcases mem_owners.mp hx with hread | ⟨hw, hhead⟩
    · by_cases hxe : x = e
      · rw [hxe]
        exact hset e he
      · exact hset x (mem_owners_of_requeue hreader hread hxe)
    · -- a writer has come to the head, so the client owns nothing any more
      obtain ⟨y, hy, hclient⟩ := hstill
      rw [eq_of_head_writer hhead hw hy] at hclient
      have hne : s.waiters.erase e ≠ [] := by
        intro hnil
        have hlen' := List.length_erase_of_mem hmem
        rw [hnil, List.length_nil] at hlen'
        have := List.length_pos_of_mem hmem
        omega
      rw [RWLine.requeue, head?_place hne h0] at hhead
      exact absurd hclient (hnext x hhead hw)

/-- **An owner has to wait again**: what it holds is pending, and the new owners are told. -/
theorem requeue_block (h : Books p s b) (hset : Settled p s b) (he : e ∈ p.owners s.waiters)
    (hstill : ¬(p.type e = .reader ∧ p.Owns (s.requeue e position).waiters (p.clientId e)))
    (halone : Alone p s.waiters b e) :
    let acquired := RWToken.notified p (s.requeue e position).waiters e
    Books p (s.requeue e position) ((b.block e).promote acquired) ∧
      Settled p (s.requeue e position) ((b.block e).promote acquired) := by
  have hmem := mem_of_mem_owners he
  have hperm : (s.requeue e position).waiters.Perm s.waiters := requeue_perm hmem
  have hheld : ∀ x, 0 < (b.block e).held x → x ≠ e ∧ 0 < b.held x := by
    intro x hx
    rw [Ledger.held_block] at hx
    split_ifs at hx with hxe
    · cases hx
    · exact ⟨hxe, hx⟩
  have hbooks : Books p (s.requeue e position) (b.block e) := by
    refine ⟨hperm.nodup_iff.mpr h.nodup, h.count_requeue hmem (b.acquisitions_block e), ?_,
      fun x hx => ?_, fun x hx => ?_, fun x hw hx => ?_⟩
    · simp only [b.acquisitions_block e]
      exact h.writers
    · rw [Ledger.pending_block] at hx
      split_ifs at hx with hxe
      · rw [hxe]
        exact hperm.mem_iff.mpr hmem
      · exact hperm.mem_iff.mpr (h.queued x hx)
    · obtain ⟨hxe, hpos⟩ := hheld x hx
      obtain ⟨y, hy, hye, hclient⟩ := h.holder_of_alone halone hxe hpos
      rcases htype : p.type e
      · exact ⟨y, mem_owners_requeue htype he hy hye, hclient⟩
      · exact absurd (eq_of_head_writer (head_of_mem_owners he htype) htype hy) hye
    · obtain ⟨hxe, hpos⟩ := hheld x hx
      obtain ⟨w, hhead, hwriter⟩ := h.exclusive x hw hpos
      obtain ⟨y, hy, hye, -⟩ := h.holder_of_alone halone hxe hpos
      exact absurd ((eq_of_head_writer hhead hwriter hy).trans
        (eq_of_head_writer hhead hwriter he).symm) hye
  refine hbooks.promote (fun x => RWToken.mem_owners_of_notified) fun x hx hnot => ?_
  obtain ⟨hread, hreader⟩ := RWToken.of_not_notified hx hnot
  have hxe : x ≠ e := by
    rintro rfl
    exact hstill ⟨hreader, x, hx, rfl⟩
  rw [Ledger.pending_block, if_neg hxe]
  exact hset x (mem_owners_of_requeue hreader hread hxe)

end Requeue

end Books

end AceTao.Tokens
