import AceTao.ObjectAdapter.Basic

/-!
# What the operations on the tree of POAs keep

The maps and the tree agree with the names of the POAs (`Inv`): the root has the name of the root, a
child the folded name of its parent with its own name behind it, and what the maps of the persistent
POAs lead to is persistent and, in the map of the names, has the name it is bound by. A POA keeps
its names and its policies for life, and a child that is new to a POA is a new POA (`Extends`). A
destruction keeps both (`destroyI_keeps`), and so does the creation of a POA for which what is asked
of new POAs holds (`createPoa_spec`); a run keeps them by `run_advances`.
-/

namespace AceTao

namespace ObjectAdapter

open Program (bind_eq_some Keeps get_bind_apply modify_bind_apply)

variable {c : AdapterConfig} {s t u : ObjectAdapter} {Good : PoaName → Bool → Prop}

/-! ### The tree and the maps -/

/-- **What a POA keeps for life.** -/
structure SamePoa (p q : RootPoa) : Prop where
  name : q.name = p.name
  foldedName : q.foldedName = p.foldedName
  persistent : q.persistent = p.persistent

theorem SamePoa.refl (p : RootPoa) : SamePoa p p := ⟨rfl, rfl, rfl⟩

theorem SamePoa.trans {p q r : RootPoa} (h : SamePoa p q) (h' : SamePoa q r) : SamePoa p r :=
  ⟨h'.name.trans h.name, h'.foldedName.trans h.foldedName, h'.persistent.trans h.persistent⟩

/-- **The POAs of the tree.** -/
inductive Reached (s : ObjectAdapter) : ℕ → Prop
  | root {poa : ℕ} : s.root = some poa → Reached s poa
  | child {poa i : ℕ} {p : RootPoa} {name : PoaName} : Reached s poa →
      s.poas[poa]? = some p → (name, i) ∈ p.children → Reached s i

/-- **The invariant.** -/
structure Inv (c : AdapterConfig) (s : ObjectAdapter) : Prop where
  root : ∀ poa, s.root = some poa → ∃ p : RootPoa, s.poas[poa]? = some p ∧ p.name = rootPoaName ∧
    p.foldedName = foldName [] rootPoaName
  child : ∀ (poa : ℕ) (p : RootPoa) (name : PoaName) (i : ℕ), s.poas[poa]? = some p →
    (name, i) ∈ p.children →
      ∃ q : RootPoa, s.poas[i]? = some q ∧ q.foldedName = foldName p.foldedName name
  nameMap : ∀ name poa, (name, poa) ∈ s.persistentPoaNameMap →
    ∃ p : RootPoa, s.poas[poa]? = some p ∧ p.persistent = true ∧ p.foldedName = name
  systemMap : c.useActiveHintInPoaNames = true →
    ∃ L, ActiveMap.Holds c.lazyMap s.persistentPoaSystemMap L ∧ ∀ key poa, L.value key = some poa →
      ∃ p : RootPoa, s.poas[poa]? = some p ∧ p.persistent = true
  length : ∀ (poa : ℕ) (p : RootPoa), s.poas[poa]? = some p → p.foldedName.length < 2 ^ 32

/-- **What happens to the POAs**: those that were there keep what they are, and those that are new
are `Good`. A child that was there before was a child of the same POA. -/
structure Extends (Good : PoaName → Bool → Prop) (s t : ObjectAdapter) : Prop where
  old : ∀ (poa : ℕ) (p : RootPoa), s.poas[poa]? = some p →
    ∃ q : RootPoa, t.poas[poa]? = some q ∧ SamePoa p q
  new : ∀ (poa : ℕ) (q : RootPoa), t.poas[poa]? = some q → s.poas[poa]? = none →
    Good q.foldedName q.persistent
  root : ∀ poa, t.root = some poa → s.root = some poa
  children : ∀ (poa : ℕ) (q : RootPoa) (name : PoaName) (i : ℕ), t.poas[poa]? = some q →
    (name, i) ∈ q.children → s.poas[i]? ≠ none →
      ∃ p : RootPoa, s.poas[poa]? = some p ∧ (name, i) ∈ p.children

theorem Extends.refl (s : ObjectAdapter) : Extends Good s s where
  old _ p hp := ⟨p, hp, .refl p⟩
  new _ _ hq hnone := absurd (hnone.symm.trans hq) nofun
  root _ h := h
  children _ q _ _ hq hmem _ := ⟨q, hq, hmem⟩

theorem Extends.there (h : Extends Good s t) {poa : ℕ} (hs : s.poas[poa]? ≠ none) :
    t.poas[poa]? ≠ none := by
  obtain ⟨p, hp⟩ := Option.ne_none_iff_exists'.mp hs
  obtain ⟨q, hq, -⟩ := h.old poa p hp
  rw [hq]
  nofun

theorem Extends.trans (h : Extends Good s t) (h' : Extends Good t u) : Extends Good s u where
  old poa p hp := by
    obtain ⟨q, hq, hpq⟩ := h.old poa p hp
    obtain ⟨q', hq', hqq'⟩ := h'.old poa q hq
    exact ⟨q', hq', hpq.trans hqq'⟩
  new poa q hq hnone := by
    rcases hm : t.poas[poa]? with _ | p
    · exact h'.new poa q hq hm
    · obtain ⟨q', hq', hsame⟩ := h'.old poa p hm
      obtain rfl : q' = q := Option.some.inj (hq'.symm.trans hq)
      rw [hsame.foldedName, hsame.persistent]
      exact h.new poa p hm hnone
  root poa hpoa := h.root poa (h'.root poa hpoa)
  children poa q name i hq hmem hi := by
    obtain ⟨p, hp, hmem'⟩ := h'.children poa q name i hq hmem (h.there hi)
    exact h.children poa p name i hp hmem' hi

/-- **What an operation does** to an adapter that is as it should be. -/
def Advances (c : AdapterConfig) (Good : PoaName → Bool → Prop) (s t : ObjectAdapter) : Prop :=
  Inv c s → Inv c t ∧ Extends Good s t

instance : Std.Refl (Advances c Good) := ⟨fun s h => ⟨h, .refl s⟩⟩

instance : IsTrans ObjectAdapter (Advances c Good) :=
  ⟨fun _ _ _ h h' hs =>
    have ⟨ht, hst⟩ := h hs
    have ⟨hu, htu⟩ := h' ht
    ⟨hu, hst.trans htu⟩⟩

/-! ### Changes of one POA -/

/-- `s` with another POA at a place. -/
def withPoa (poa : ℕ) (f : RootPoa → RootPoa) (s : ObjectAdapter) : ObjectAdapter :=
  { s with poas := s.poas.modify poa f }

section OnePoa

variable {poa : ℕ} {f : RootPoa → RootPoa}

theorem exists_at_withPoa (poa : ℕ) (hf : ∀ p, SamePoa p (f p)) {i : ℕ} {p : RootPoa}
    (hp : s.poas[i]? = some p) : ∃ q, (withPoa poa f s).poas[i]? = some q ∧ SamePoa p q := by
  refine ⟨if poa = i then f p else p, ?_, ?_⟩
  · rw [withPoa, List.getElem?_modify, hp]
    rfl
  · split_ifs
    · exact hf p
    · exact .refl p

/-- What is at a place was there, but for the change. -/
theorem of_at_withPoa {i : ℕ} {q : RootPoa} (hq : (withPoa poa f s).poas[i]? = some q) :
    ∃ p, s.poas[i]? = some p ∧ q = if poa = i then f p else p := by
  rw [withPoa, List.getElem?_modify] at hq
  obtain ⟨p, hp, rfl⟩ := Option.map_eq_some_iff.mp hq
  exact ⟨p, hp, rfl⟩

theorem samePoa_ite (hf : ∀ p, SamePoa p (f p)) (i : ℕ) (p : RootPoa) :
    SamePoa p (if poa = i then f p else p) := by
  split_ifs
  · exact hf p
  · exact .refl p

/-- A child that a POA gets by the change has the name it should have. -/
theorem Inv.withPoa (h : Inv c s) (hf : ∀ p, SamePoa p (f p))
    (hchild : ∀ p name i, s.poas[poa]? = some p → (name, i) ∈ (f p).children →
      (name, i) ∈ p.children ∨
        ∃ q : RootPoa, s.poas[i]? = some q ∧ q.foldedName = foldName p.foldedName name) :
    Inv c (withPoa poa f s) where
  root i hi := by
    obtain ⟨p, hp, hname, hfolded⟩ := h.root i hi
    obtain ⟨q, hq, hsame⟩ := exists_at_withPoa poa hf hp
    exact ⟨q, hq, hsame.name.trans hname, hsame.foldedName.trans hfolded⟩
  child i q name j hq hmem := by
    obtain ⟨p, hp, rfl⟩ := of_at_withPoa hq
    have hthere : ∃ r : RootPoa, s.poas[j]? = some r ∧
        r.foldedName = foldName p.foldedName name := by
      split_ifs at hmem with hi
      · rcases hchild p name j (hi ▸ hp) hmem with hold | hnew
        · exact h.child i p name j hp hold
        · exact hnew
      · exact h.child i p name j hp hmem
    obtain ⟨r, hr, hfolded⟩ := hthere
    obtain ⟨r', hr', hsame⟩ := exists_at_withPoa poa hf hr
    refine ⟨r', hr', hsame.foldedName.trans (hfolded.trans ?_)⟩
    rw [(samePoa_ite hf i p).foldedName]
  nameMap name i hi := by
    obtain ⟨p, hp, hpers, hfolded⟩ := h.nameMap name i hi
    obtain ⟨q, hq, hsame⟩ := exists_at_withPoa poa hf hp
    exact ⟨q, hq, hsame.persistent.trans hpers, hsame.foldedName.trans hfolded⟩
  systemMap hhint := by
    obtain ⟨L, hholds, hL⟩ := h.systemMap hhint
    refine ⟨L, hholds, fun key i hi => ?_⟩
    obtain ⟨p, hp, hpers⟩ := hL key i hi
    obtain ⟨q, hq, hsame⟩ := exists_at_withPoa poa hf hp
    exact ⟨q, hq, hsame.persistent.trans hpers⟩
  length i q hq := by
    obtain ⟨p, hp, rfl⟩ := of_at_withPoa hq
    rw [(samePoa_ite hf i p).foldedName]
    exact h.length i p hp

/-- A child that a POA gets by the change is new. -/
theorem Extends.withPoa (h : Extends Good s t) (hf : ∀ p, SamePoa p (f p))
    (hchild : ∀ p name i, t.poas[poa]? = some p → (name, i) ∈ (f p).children →
      (name, i) ∈ p.children ∨ s.poas[i]? = none) : Extends Good s (withPoa poa f t) where
  old i p hp := by
    obtain ⟨q, hq, hsame⟩ := h.old i p hp
    obtain ⟨r, hr, hsame'⟩ := exists_at_withPoa poa hf hq
    exact ⟨r, hr, hsame.trans hsame'⟩
  new i q hq hnone := by
    obtain ⟨p, hp, rfl⟩ := of_at_withPoa hq
    rw [(samePoa_ite hf i p).foldedName, (samePoa_ite hf i p).persistent]
    exact h.new i p hp hnone
  root := h.root
  children i q name j hq hmem hj := by
    obtain ⟨p, hp, rfl⟩ := of_at_withPoa hq
    refine h.children i p name j hp ?_ hj
    split_ifs at hmem with hi
    · exact (hchild p name j (hi ▸ hp) hmem).resolve_right hj
    · exact hmem

/-- **A change that adds no child.** -/
theorem modifyPoa_keeps (hf : ∀ p, SamePoa p (f p))
    (hchild : ∀ p, (f p).children ⊆ p.children) : Keeps (Advances c Good) (modifyPoa poa f) :=
  .modify fun s hs =>
    ⟨hs.withPoa hf fun p _ _ _ hmem => Or.inl (hchild p hmem),
      (Extends.refl s).withPoa hf fun p _ _ _ hmem => Or.inl (hchild p hmem)⟩

end OnePoa

/-! ### Changes of the maps -/

/-- **What a change of the maps does**, for POAs of which `Q` holds: it leaves them as they are. -/
def Remaps (c : AdapterConfig) (Q : List RootPoa → Prop) (s t : ObjectAdapter) : Prop :=
  Inv c s → Q s.poas → Inv c t ∧ t.poas = s.poas ∧ t.root = s.root

variable {Q : List RootPoa → Prop}

instance : Std.Refl (Remaps c Q) := ⟨fun _ h _ => ⟨h, rfl, rfl⟩⟩

instance : IsTrans ObjectAdapter (Remaps c Q) :=
  ⟨fun _ t _ h h' hs hq => by
    obtain ⟨ht, hpoas, hroot⟩ := h hs hq
    obtain ⟨hu, hpoas', hroot'⟩ := h' ht (hpoas ▸ hq)
    exact ⟨hu, hpoas'.trans hpoas, hroot'.trans hroot⟩⟩

/-- A change of the maps only. -/
theorem Extends.of_poas_eq (h : Extends Good s t) (hpoas : u.poas = t.poas)
    (hroot : ∀ poa, u.root = some poa → t.root = some poa) : Extends Good s u where
  old poa p hp := by
    rw [hpoas]
    exact h.old poa p hp
  new poa q hq hnone := h.new poa q (hpoas ▸ hq) hnone
  root poa hpoa := h.root poa (hroot poa hpoa)
  children poa q name i hq hmem hi := h.children poa q name i (hpoas ▸ hq) hmem hi

theorem Remaps.advances (Good : PoaName → Bool → Prop) (h : Remaps c Q s t) (hq : Q s.poas) :
    Advances c Good s t := by
  intro hs
  obtain ⟨ht, hpoas, hroot⟩ := h hs hq
  exact ⟨ht, (Extends.refl s).of_poas_eq hpoas fun poa hpoa => hroot ▸ hpoa⟩

/-- Of the POA that is bound. -/
def BoundAs (foldedName : PoaName) (poa : ℕ) (poas : List RootPoa) : Prop :=
  ∃ p : RootPoa, poas[poa]? = some p ∧ p.persistent = true ∧ p.foldedName = foldedName

theorem bindName_keeps (memory : Bool) (foldedName : PoaName) (poa : ℕ) :
    Keeps (Remaps c (BoundAs foldedName poa)) (bindName memory foldedName poa) := by
  refine Keeps.get.bind fun _ => Keeps.ite (fun _ => ?_) fun _ => .pure _
  refine (Keeps.modify fun s hs hq => ⟨?_, rfl, rfl⟩).bind fun _ => .pure _
  refine { hs with nameMap := fun name i hi => ?_ }
  rcases List.mem_cons.mp hi with heq | hold
  · cases heq
    exact hq
  · exact hs.nameMap name i hold

theorem unbindName_keeps (foldedName : PoaName) : Keeps (Remaps c Q) (unbindName foldedName) := by
  refine Keeps.get.bind fun _ => Keeps.ite (fun _ => ?_) fun _ => .pure _
  refine (Keeps.modify fun s hs hq => ⟨?_, rfl, rfl⟩).bind fun _ => .pure _
  exact { hs with nameMap := fun name i hi => hs.nameMap name i (List.mem_of_mem_eraseP hi) }

/-- A value that a key has after it was bound is the new one, or an old one. -/
theorem value_of_bind {L L' : Ledger ℕ} {x : ℕ} {memory : Bool} {a : MapAnswer ℕ}
    (h : Ledger.Step L (.bind x memory) a L') {key : MapKey} {i : ℕ}
    (hi : L'.value key = some i) : i = x ∨ L.value key = some i := by
  cases h with
  | bindWithoutMemory => exact Or.inr hi
  | bind _ _ k =>
    have hupdate : Function.update L.value k (some x) key = some i := hi
    rw [Function.update_apply] at hupdate
    split_ifs at hupdate
    · exact Or.inl (Option.some.inj hupdate).symm
    · exact Or.inr hupdate

theorem value_of_unbind {L L' : Ledger ℕ} {k : MapKey} {a : MapAnswer ℕ}
    (h : Ledger.Step L (.unbind k) a L') {key : MapKey} {i : ℕ} (hi : L'.value key = some i) :
    L.value key = some i := by
  cases h with
  | unbind =>
    have hupdate : Function.update L.value k none key = some i := hi
    rw [Function.update_apply] at hupdate
    split_ifs at hupdate
    exact hupdate

theorem bindSystemName_keeps (memory : Bool) (foldedName : PoaName) (poa : ℕ) :
    Keeps (Remaps c (BoundAs foldedName poa)) (bindSystemName c memory foldedName poa) := by
  intro s r t h hs hq
  rw [bindSystemName, get_bind_apply] at h
  rcases hbind : s.persistentPoaSystemMap.bind c.lazyMap
    (memory && decide (ActiveMap.CanGrow s.persistentPoaSystemMap)) poa with _ | ⟨map, key⟩
  · rw [hbind] at h
    cases h
  · rw [hbind] at h
    cases h
    refine ⟨{ hs with systemMap := fun hhint => ?_ }, rfl, rfl⟩
    obtain ⟨L, hholds, hL⟩ := hs.systemMap hhint
    have hsafe : ActiveMap.Safe s.persistentPoaSystemMap
        (.bind poa (memory && decide (ActiveMap.CanGrow s.persistentPoaSystemMap))) :=
      fun hm _ => of_decide_eq_true (Bool.and_eq_true_iff.mp hm).2
    obtain ⟨map', a, L', hstep, hledger, hholds'⟩ := hholds.bind hsafe
    rw [ActiveMap.step, hbind] at hstep
    cases hstep
    refine ⟨L', hholds', fun k i hi => ?_⟩
    rcases value_of_bind hledger hi with rfl | hold
    · obtain ⟨p, hp, hpers, -⟩ := hq
      exact ⟨p, hp, hpers⟩
    · exact hL k i hold

/-- Where `unbind` has an answer, it has not looked behind the array. -/
theorem slotIndex_ne_of_unbind {map : ActiveMap ℕ} {L : Ledger ℕ} {key : MapKey}
    {a : ActiveMap ℕ × Option ℕ} (hholds : ActiveMap.Holds c.lazyMap map L)
    (h : map.unbind c.lazyMap key = some a) : key.slotIndex ≠ map.totalSize := by
  intro heq
  obtain ⟨⟨free, occ, hlists⟩, -⟩ := hholds
  have hnone : map.searchStructure key.slotIndex = none := by
    rw [← Option.not_isSome_iff_eq_none, hlists.isSome, heq]
    exact lt_irrefl _
  rw [ActiveMap.unbind, ActiveMap.find, if_neg (by rw [heq]; exact lt_irrefl _), hnone] at h
  cases h

theorem ofRead_bind {α β : Type} (a : α) (f : α → Action β) (s : ObjectAdapter) :
    (ofRead (some a) >>= f) s = f a s := rfl

theorem unbindSystemName_keeps (systemName : PoaName) :
    Keeps (Remaps c Q) (unbindSystemName c systemName) := by
  intro s r t h hs hq
  rw [unbindSystemName, get_bind_apply] at h
  rcases hkey : decodeKey systemName with _ | key
  · rw [hkey] at h
    cases h
    exact ⟨hs, rfl, rfl⟩
  rw [hkey, ofRead_bind] at h
  rcases hunbind : s.persistentPoaSystemMap.unbind c.lazyMap key with _ | ⟨map, value⟩
  · rw [hunbind] at h
    cases h
    exact ⟨hs, rfl, rfl⟩
  rw [hunbind] at h
  cases h
  refine ⟨{ hs with systemMap := fun hhint => ?_ }, rfl, rfl⟩
  obtain ⟨L, hholds, hL⟩ := hs.systemMap hhint
  obtain ⟨map', a, L', hstep, hledger, hholds'⟩ :=
    hholds.unbind (slotIndex_ne_of_unbind hholds hunbind)
  rw [ActiveMap.step, hunbind] at hstep
  cases hstep
  exact ⟨L', hholds', fun k i hi => hL k i (value_of_unbind hledger hi)⟩

theorem bindPersistentPoa_keeps (r : Resources) (foldedName : PoaName) (poa : ℕ) :
    Keeps (Remaps c (BoundAs foldedName poa)) (bindPersistentPoa c r foldedName poa) := by
  refine Keeps.ite (fun _ => ?_) fun _ => (bindName_keeps _ _ _).bind fun _ => .pure _
  refine (bindSystemName_keeps _ _ _).bind fun name => ?_
  cases name with
  | none => exact .pure _
  | some name =>
    refine (bindName_keeps _ _ _).bind fun _ => Keeps.ite (fun _ => .pure _) fun _ => ?_
    exact (unbindSystemName_keeps _).bind fun _ => .pure _

theorem unbindPoa_keeps (persistent : Bool) (foldedName systemName : PoaName) :
    Keeps (Remaps c Q) (unbindPoa c persistent foldedName systemName) := by
  refine Keeps.ite (fun _ => Keeps.ite (fun _ => ?_) fun _ => unbindName_keeps _) fun _ => .pure _
  exact (unbindSystemName_keeps _).bind fun _ =>
    Keeps.ite (fun _ => unbindName_keeps _) fun _ => .pure _

/-! ### Destruction -/

theorem poaAt_keeps (poa : ℕ) : Keeps (Advances c Good) (poaAt poa) := by
  refine Keeps.get.bind fun s => ?_
  cases s.poas[poa]? with
  | none => exact .undefined
  | some p => exact .pure p

theorem completeDestructionI_keeps (poa : ℕ) :
    Keeps (Advances c Good) (completeDestructionI c poa) := by
  refine Keeps.bind (modifyPoa_keeps (fun _ => ⟨rfl, rfl, rfl⟩) fun _ => List.Subset.refl _)
    fun _ => Keeps.bind (poaAt_keeps poa) fun p => Keeps.bind (fun s r t h => ?_) fun _ =>
      Keeps.ite (fun _ => .pure _) fun _ => .throw _
  exact (unbindPoa_keeps (Q := fun _ => True) _ _ _ s r t h).advances Good trivial

theorem deleteChild_keeps (poa : ℕ) (child : PoaName) :
    Keeps (Advances c Good) (deleteChild poa child) := by
  refine Keeps.bind (poaAt_keeps poa) fun p => Keeps.ite (fun _ => .pure _) fun _ =>
    Keeps.ite (fun _ => Keeps.bind ?_ fun _ => .pure _) fun _ => .pure _
  exact modifyPoa_keeps (fun _ => ⟨rfl, rfl, rfl⟩) fun _ => List.eraseP_subset

theorem removeFromParentI_keeps (poa : ℕ) : Keeps (Advances c Good) (removeFromParentI poa) := by
  refine Keeps.bind (poaAt_keeps poa) fun p => ?_
  cases p.parent with
  | none => exact .pure _
  | some parent =>
    exact Keeps.bind (deleteChild_keeps parent p.name) fun _ =>
      Keeps.ite (fun _ => .pure _) fun _ => .throw _

theorem forEach_keeps {f : ℕ → Action Unit} (hf : ∀ poa, Keeps (Advances c Good) (f poa)) :
    ∀ children, Keeps (Advances c Good) (forEach f children)
  | [] => .pure _
  | child :: children => (hf child.2).bind fun _ => forEach_keeps hf children

/-- **A destruction** keeps what there is of a tree. -/
theorem destroyI_keeps (outstanding : List ℕ) (fuel : ℕ) : ∀ poa,
    Keeps (Advances c Good) (destroyI c outstanding fuel poa) := by
  induction fuel with
  | zero => exact fun _ => .undefined
  | succ fuel ih =>
    intro poa
    refine Keeps.bind (poaAt_keeps poa) fun _ => Keeps.ite (fun _ => .pure _) fun _ =>
      Keeps.bind (modifyPoa_keeps (fun _ => ⟨rfl, rfl, rfl⟩) fun _ => List.Subset.refl _) fun _ =>
        Keeps.bind (removeFromParentI_keeps poa) fun _ => Keeps.bind (poaAt_keeps poa) fun p =>
          Keeps.bind (forEach_keeps ih p.children) fun _ => Keeps.ite (fun _ => ?_) fun _ => ?_
    · exact modifyPoa_keeps (fun _ => ⟨rfl, rfl, rfl⟩) fun _ => List.Subset.refl _
    · exact completeDestructionI_keeps poa

/-! ### Creation -/

/-- What follows the reading of a POA. -/
theorem poaAt_bind {α : Type} {poa : ℕ} {f : RootPoa → Action α} {r : Except AdapterException α}
    (h : (poaAt poa >>= f) s = some (r, t)) :
    ∃ p, s.poas[poa]? = some p ∧ f p s = some (r, t) := by
  rw [Program.bind_apply, poaAt, get_bind_apply] at h
  rcases hp : s.poas[poa]? with _ | p
  · rw [hp] at h
    cases h
  · rw [hp] at h
    exact ⟨p, rfl, h⟩

/-- `s` with a new POA. -/
def withNewPoa (q : RootPoa) (s : ObjectAdapter) : ObjectAdapter := { s with poas := s.poas ++ [q] }

/-- What is at a place was there, or is the new POA. -/
theorem of_at_withNewPoa {q p : RootPoa} {i : ℕ} (h : (withNewPoa q s).poas[i]? = some p) :
    s.poas[i]? = some p ∨ i = s.poas.length ∧ p = q := by
  rw [withNewPoa, List.getElem?_append] at h
  split_ifs at h with hi
  · exact Or.inl h
  · rw [List.getElem?_singleton] at h
    split_ifs at h with hlast
    exact Or.inr ⟨by omega, (Option.some.inj h).symm⟩

theorem at_withNewPoa (q : RootPoa) {i : ℕ} {p : RootPoa} (h : s.poas[i]? = some p) :
    (withNewPoa q s).poas[i]? = some p := by
  rw [withNewPoa, List.getElem?_append_left (List.getElem?_eq_some_iff.mp h).1, h]

theorem getElem?_withNewPoa (q : RootPoa) (s : ObjectAdapter) :
    (withNewPoa q s).poas[s.poas.length]? = some q := by
  rw [withNewPoa, List.getElem?_concat_length]

theorem Inv.withNewPoa (h : Inv c s) {q : RootPoa} (hchildren : q.children = [])
    (hlen : q.foldedName.length < 2 ^ 32) : Inv c (withNewPoa q s) where
  root i hi := by
    obtain ⟨p, hp, hroot⟩ := h.root i hi
    exact ⟨p, at_withNewPoa q hp, hroot⟩
  child i p name j hp hmem := by
    rcases of_at_withNewPoa hp with hold | ⟨-, rfl⟩
    · obtain ⟨r, hr, hfolded⟩ := h.child i p name j hold hmem
      exact ⟨r, at_withNewPoa q hr, hfolded⟩
    · rw [hchildren] at hmem
      cases hmem
  nameMap name i hi := by
    obtain ⟨p, hp, hbound⟩ := h.nameMap name i hi
    exact ⟨p, at_withNewPoa q hp, hbound⟩
  systemMap hhint := by
    obtain ⟨L, hholds, hL⟩ := h.systemMap hhint
    refine ⟨L, hholds, fun key i hi => ?_⟩
    obtain ⟨p, hp, hpers⟩ := hL key i hi
    exact ⟨p, at_withNewPoa q hp, hpers⟩
  length i p hp := by
    rcases of_at_withNewPoa hp with hold | ⟨-, rfl⟩
    · exact h.length i p hold
    · exact hlen

theorem extends_withNewPoa {q : RootPoa} (hchildren : q.children = [])
    (hgood : Good q.foldedName q.persistent) : Extends Good s (withNewPoa q s) where
  old i p hp := ⟨p, at_withNewPoa q hp, .refl p⟩
  new i p hp hnone := by
    rcases of_at_withNewPoa hp with hold | ⟨-, rfl⟩
    · exact absurd (hnone.symm.trans hold) nofun
    · exact hgood
  root _ h := h
  children i p name j hp hmem _ := by
    rcases of_at_withNewPoa hp with hold | ⟨-, rfl⟩
    · exact ⟨p, hold, hmem⟩
    · rw [hchildren] at hmem
      cases hmem

theorem bindPoa_keeps (r : Resources) (persistent : Bool) (foldedName : PoaName) (poa : ℕ) :
    Keeps (Remaps c fun poas => persistent = true → BoundAs foldedName poa poas)
      (bindPoa c r persistent foldedName poa) := by
  refine Keeps.ite (fun hpers s res t h hs hq => ?_) fun _ => .pure _
  exact bindPersistentPoa_keeps r foldedName poa s res t h hs (hq hpers)

theorem registerPoa_spec (Good : PoaName → Bool → Prop) {r : Resources} {persistent : Bool}
    {foldedName : PoaName} {poa : ℕ} {res : Except AdapterException ℕ}
    (h : registerPoa c r persistent foldedName poa s = some (res, t)) (hs : Inv c s)
    (hpoa : persistent = true → BoundAs foldedName poa s.poas) :
    Inv c t ∧ Extends Good s t ∧ ∀ i, res = .ok i → i = poa := by
  have hbind : ∀ {r' u}, bindPoa c r persistent foldedName poa s = some (r', u) →
      Inv c u ∧ Extends Good s u := fun h' => (bindPoa_keeps _ _ _ _ s _ _ h').advances Good hpoa hs
  obtain ⟨e, rfl, hthrow⟩ | ⟨systemName, u, hsystem, hrest⟩ := bind_eq_some.mp h
  · exact ⟨(hbind hthrow).1, (hbind hthrow).2, nofun⟩
  obtain ⟨hu, hsu⟩ := hbind hsystem
  cases systemName with
  | none =>
    cases hrest
    exact ⟨hu, hsu, nofun⟩
  | some systemName =>
    obtain ⟨_, -, hthrow⟩ | ⟨_, v, hmodify, hrest⟩ := bind_eq_some.mp hrest
    · cases hthrow
    have hkeeps : Keeps (Advances c Good)
        (modifyPoa poa fun p => { p with systemName := systemName }) :=
      modifyPoa_keeps (fun _ => ⟨rfl, rfl, rfl⟩) fun _ => List.Subset.refl _
    obtain ⟨hv, huv⟩ := hkeeps u _ _ hmodify hu
    have hsv := hsu.trans huv
    by_cases hstartup : r.startup
    · rw [if_pos hstartup] at hrest
      cases hrest
      exact ⟨hv, hsv, fun i hi => (Except.ok.inj hi).symm⟩
    · rw [if_neg hstartup] at hrest
      obtain ⟨e, rfl, hunbind⟩ | ⟨_, w, hunbind, hthrow⟩ := bind_eq_some.mp hrest
      · obtain ⟨ht, hvt⟩ := (unbindPoa_keeps (Q := fun _ => True) _ _ _ v _ _ hunbind).advances
          Good trivial hv
        exact ⟨ht, hsv.trans hvt, nofun⟩
      · cases hthrow
        obtain ⟨ht, hvt⟩ := (unbindPoa_keeps (Q := fun _ => True) _ _ _ v _ _ hunbind).advances
          Good trivial hv
        exact ⟨ht, hsv.trans hvt, nofun⟩

/-- **The constructor**: there is a new POA, with the folded name it should have. -/
theorem newPoa_spec {r : Resources} {parent : ℕ} {name : PoaName} {persistent : Bool}
    {res : Except AdapterException ℕ} (h : newPoa c r parent name persistent s = some (res, t))
    (hs : Inv c s) {p : RootPoa} (hp : s.poas[parent]? = some p)
    (hgood : Good (foldName p.foldedName name) persistent) :
    Inv c t ∧ Extends Good s t ∧ ∀ poa, res = .ok poa → poa = s.poas.length ∧
      ∃ q : RootPoa, t.poas[poa]? = some q ∧ q.foldedName = foldName p.foldedName name := by
  obtain ⟨p', hp', hrest⟩ := poaAt_bind h
  obtain rfl : p' = p := Option.some.inj (hp'.symm.trans hp)
  by_cases hlen : 2 ^ 32 ≤ (foldName p'.foldedName name).length
  · rw [if_pos hlen] at hrest
    cases hrest
    exact ⟨hs, .refl _, nofun⟩
  rw [if_neg hlen, get_bind_apply, modify_bind_apply] at hrest
  have hat := getElem?_withNewPoa (s := s)
    ⟨name, some parent, persistent, foldName p'.foldedName name, [], [], false, false⟩
  have hinv := hs.withNewPoa (q := ⟨name, some parent, persistent, foldName p'.foldedName name, [],
    [], false, false⟩) rfl (Nat.lt_of_not_le hlen)
  obtain ⟨ht, hext, hres⟩ := registerPoa_spec Good hrest hinv
    fun hpers => ⟨_, hat, hpers, rfl⟩
  refine ⟨ht, (extends_withNewPoa rfl hgood).trans hext, fun poa hpoa => ?_⟩
  obtain rfl := hres poa hpoa
  obtain ⟨q, hq, hsame⟩ := hext.old _ _ hat
  exact ⟨rfl, q, hq, hsame.foldedName⟩

/-- What is asked of the POAs that an operation creates, in the state it begins in. -/
def Creates (Good : PoaName → Bool → Prop) (s : ObjectAdapter) : PoaOp → Prop
  | .create parent adapterName persistent _ => ∀ p : RootPoa, s.poas[parent]? = some p →
    Good (foldName p.foldedName (cString adapterName)) persistent
  | _ => True

theorem createPoa_spec {r : Resources} {parent : ℕ} {adapterName : List UInt8} {persistent : Bool}
    {res : Except AdapterException Unit}
    (h : createPoa c r parent adapterName persistent s = some (res, t)) (hs : Inv c s)
    (hgood : Creates Good s (.create parent adapterName persistent r)) :
    Inv c t ∧ Extends Good s t := by
  obtain ⟨p, hp, hrest⟩ := poaAt_bind h
  split_ifs at hrest
  · cases hrest
    exact ⟨hs, .refl _⟩
  · cases hrest
    exact ⟨hs, .refl _⟩
  · obtain ⟨e, -, hnew⟩ | ⟨poa, v, hnew, hmodify⟩ := bind_eq_some.mp hrest
    · obtain ⟨ht, hext, -⟩ := newPoa_spec hnew hs hp (hgood _ hp)
      exact ⟨ht, hext⟩
    · obtain ⟨hv, hext, hres⟩ := newPoa_spec hnew hs hp (hgood _ hp)
      obtain ⟨rfl, q, hq, hfolded⟩ := hres poa rfl
      cases hmodify
      refine ⟨hv.withPoa (fun _ => ⟨rfl, rfl, rfl⟩) fun p'' name i hp'' hmem => ?_,
        hext.withPoa (fun _ => ⟨rfl, rfl, rfl⟩) fun p'' name i _ hmem => ?_⟩
      · rcases List.mem_cons.mp hmem with heq | hold
        · cases heq
          obtain ⟨_, hp₁, hsame⟩ := hext.old _ _ hp
          obtain rfl := Option.some.inj (hp₁.symm.trans hp'')
          exact Or.inr ⟨q, hq, by rw [hfolded, hsame.foldedName]⟩
        · exact Or.inl hold
      · rcases List.mem_cons.mp hmem with heq | hold
        · cases heq
          exact Or.inr (List.getElem?_eq_none le_rfl)
        · exact Or.inl hold

/-! ### Runs -/

theorem step_advances {op : PoaOp} {o : Except AdapterException Unit}
    (h : step c s op = some (t, o)) (hs : Inv c s) (hgood : Creates Good s op) :
    Inv c t ∧ Extends Good s t := by
  obtain ⟨⟨r, u⟩, hperform, heq⟩ := Option.map_eq_some_iff.mp h
  cases heq
  cases op with
  | create parent adapterName persistent r => exact createPoa_spec hperform hs hgood
  | destroy poa outstanding fuel => exact destroyI_keeps outstanding fuel poa s _ _ hperform hs
  | lastRequest poa =>
    have hkeeps : Keeps (Advances c Good) (perform c (.lastRequest poa)) :=
      Keeps.bind (poaAt_keeps poa) fun _ =>
        Keeps.ite (fun _ => completeDestructionI_keeps poa) fun _ => .pure _
    exact hkeeps s _ _ hperform hs
  | close =>
    cases hperform
    exact ⟨{ hs with root := nofun }, (Extends.refl s).of_poas_eq rfl nofun⟩

/-- **A run** in which all new POAs are good. -/
theorem run_advances {ops : List PoaOp} {answers : List (Except AdapterException Unit)}
    (h : Machine.run (step c) s ops = some (t, answers)) (hs : Inv c s)
    (hgood : Machine.Guarded (step c) (Creates Good) s ops) : Inv c t ∧ Extends Good s t := by
  refine Machine.inv_run_of_guarded (P := fun u => Inv c u ∧ Extends Good s u)
    (fun u op v o hu hop hstep => ?_) ⟨hs, .refl s⟩ hgood h
  obtain ⟨hv, huv⟩ := step_advances hstep hu.1 hop
  exact ⟨hv, hu.2.trans huv⟩

/-- **An adapter that has been opened** is as it should be. -/
theorem inv_openAdapter (hsize : c.useActiveHintInPoaNames = true →
    1 ≤ c.poaMapSize ∧ c.poaMapSize ≤ 2 ^ 32 - 2) (h : openAdapter c = some s) : Inv c s := by
  obtain ⟨map, hmap, rfl⟩ := Option.map_eq_some_iff.mp h
  have honly : ∀ {i : ℕ} {p : RootPoa},
      [(⟨rootPoaName, none, false, foldName [] rootPoaName, [], [], false, false⟩ : RootPoa)][i]? =
        some p → p.foldedName = foldName [] rootPoaName ∧ p.children = [] := by
    intro i p hp
    rw [List.getElem?_singleton] at hp
    split_ifs at hp
    cases hp
    exact ⟨rfl, rfl⟩
  constructor
  · rintro poa hpoa
    cases hpoa
    exact ⟨_, rfl, rfl, rfl⟩
  · intro poa p name i hp hmem
    rw [(honly hp).2] at hmem
    cases hmem
  · rintro name poa hmem
    cases hmem
  · intro hhint
    rw [if_pos hhint] at hmap
    obtain ⟨hpos, hle⟩ := hsize hhint
    obtain ⟨m, hm, hholds⟩ := ActiveMap.openMap_holds (T := ℕ) hpos hle c.lazyMap
    obtain rfl : m = map := Option.some.inj (hm.symm.trans hmap)
    exact ⟨_, hholds, nofun⟩
  · intro poa p hp
    rw [(honly hp).1]
    decide

end ObjectAdapter

end AceTao
