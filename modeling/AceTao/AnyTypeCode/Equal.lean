import AceTao.AnyTypeCode.Nodes

/-!
# What `equal` compares

Two TypeCodes mean the same if their unfoldings agree: in them an `Indirected_Type` is what it is
linked to, and the label of the default case of a union is the octet 0, as `member_label` has it.
`equal` always returns, and, where an id stands for one definition within the second TypeCode, it
answers `true` exactly for TypeCodes that agree outside the default cases of unions
(`Heap.equal_spec`). The flags are no obstacle: where an object is met again, it is compared with an
object of the id of the one that it is being compared with.

So `equal` is right about two TypeCodes exactly if they do not differ in the name or the type of a
default case only (`Heap.equal_right_iff`).
-/

namespace AceTao.AnyTypeCode

open Unfolding

/-! ### Unfoldings -/

/-- What is seen of a case without its type; `skip` says that the default case is left out. -/
def Case.shape {N : Type} (skip : Bool) (defaultIndex : ℤ) (i : ℕ) (c : Case N) : Case Unit :=
  if -1 < defaultIndex ∧ defaultIndex = i then ⟨.octet 0, if skip then "" else c.name, ()⟩
  else ⟨c.label, c.name, ()⟩

def caseShapes {N : Type} (skip : Bool) (defaultIndex : ℤ) : ℕ → List (Case N) → List (Case Unit)
  | _, [] => []
  | i, c :: cases => c.shape skip defaultIndex i :: caseShapes skip defaultIndex (i + 1) cases

def caseTypes {N : Type} (skip : Bool) (defaultIndex : ℤ) : ℕ → List (Case N) → List N
  | _, [] => []
  | i, c :: cases =>
    if skip ∧ -1 < defaultIndex ∧ defaultIndex = i then caseTypes skip defaultIndex (i + 1) cases
    else c.type :: caseTypes skip defaultIndex (i + 1) cases

namespace Node

variable {N : Type} (skip : Bool)

/-- **The shape of an object**: all that it holds but the references. -/
def shape : Node N → Node Unit
  | .emptyParam kind => .emptyParam kind
  | .string wide length => .string wide length
  | .fixed digits scale => .fixed digits scale
  | .objref kind id name => .objref kind id name
  | .enum id name enumerators => .enum id name enumerators
  | .sequence isArray _ length => .sequence isArray () length
  | .aliasOf isBox id name _ => .aliasOf isBox id name ()
  | .struct isExcept id name fields _ =>
    .struct isExcept id name (fields.map fun field => ⟨field.name, ()⟩) false
  | .union id name _ cases defaultIndex _ =>
    .union id name () (caseShapes skip defaultIndex 0 cases) defaultIndex false
  | .indirectedType id _ => .indirectedType id ()

/-- **The members**: the TypeCodes that an object is made of. -/
def members : Node N → List N
  | .sequence _ contentType _ => [contentType]
  | .aliasOf _ _ _ contentType => [contentType]
  | .struct _ _ _ fields _ => fields.map StructField.type
  | .union _ _ discriminantType cases defaultIndex _ =>
    discriminantType :: caseTypes skip defaultIndex 0 cases
  | _ => []

end Node

namespace Heap

variable {N : Type} (h : Heap N)

def shape (skip : Bool) (x : N) : Node Unit := (h.view x).shape skip

def members (skip : Bool) (x : N) : List N := (h.view x).members skip

/-- **Two TypeCodes agree**, in all of their unfoldings or outside the default cases. -/
def Agree (skip : Bool) : N → N → Prop := Unfolding.Agree (h.shape skip) (h.members skip)

/-- To a depth. -/
def AgreeTo (skip : Bool) : ℕ → N → N → Prop :=
  Unfolding.AgreeTo (h.shape skip) (h.members skip)

/-- **An id stands for one definition** within a TypeCode. -/
def SameIds (a : N) : Prop :=
  ∀ x y, Reaches (h.members false) a x → Reaches (h.members false) a y → h.id x ≠ none →
    h.id x = h.id y → h.Agree false x y

variable [DecidableEq N]

/-- **`equal` returns** an answer, with no flag left. -/
def Returns (a b : N) (answer : Bool) : Prop :=
  ∃ n, ∀ depth, n ≤ depth → equal h depth a b [] = some (answer, [])

/-- **`equal` is right** about two TypeCodes: it returns, in both orders with the same answer, and
this is whether the unfoldings agree. -/
def EqualRight (a b : N) : Prop :=
  ∃ answer, h.Returns a b answer ∧ h.Returns b a answer ∧ (answer = true ↔ h.Agree false a b)

end Heap

/-! ### The loop -/

section Loop

variable {N α : Type} {test : ℕ → α → α → Flags N → Answer N} {i : ℕ} {as bs : List α}
  {flags flags' : Flags N} {answer : Bool}

/-- A relation between the members of two lists, with their index. -/
def AllFrom (P : ℕ → α → α → Prop) : ℕ → List α → List α → Prop
  | _, [], [] => True
  | i, a :: as, b :: bs => P i a b ∧ AllFrom P (i + 1) as bs
  | _, _, _ => False

theorem AllFrom.mono {P Q : ℕ → α → α → Prop} (h : AllFrom P i as bs)
    (hPQ : ∀ i a b, P i a b → Q i a b) : AllFrom Q i as bs := by
  induction as generalizing i bs with
  | nil =>
    cases bs with
    | nil => trivial
    | cons b bs => exact h.elim
  | cons a as ih =>
    cases bs with
    | nil => exact h.elim
    | cons b bs => exact ⟨hPQ _ _ _ h.1, ih h.2⟩

theorem AllFrom.eq (h : AllFrom (fun _ a b => a = b) i as bs) : as = bs := by
  induction as generalizing i bs with
  | nil =>
    cases bs with
    | nil => rfl
    | cons b bs => exact h.elim
  | cons a as ih =>
    cases bs with
    | nil => exact h.elim
    | cons b bs => exact congrArg₂ List.cons h.1 (ih h.2)

theorem AllFrom.diagonal {P : ℕ → α → α → Prop} (h : ∀ i a, P i a a) : AllFrom P i as as := by
  induction as generalizing i with
  | nil => trivial
  | cons a as ih => exact ⟨h i a, ih⟩

/-- Comparisons leave the flags as they were. -/
def Restores (equal : N → N → Flags N → Answer N) : Prop :=
  ∀ x y flags answer flags', equal x y flags = some (answer, flags') → flags' = flags

theorem each_flags
    (htest : ∀ i a b flags answer flags', test i a b flags = some (answer, flags') → flags' = flags)
    (h : each test i as bs flags = some (answer, flags')) : flags' = flags := by
  induction as generalizing i bs flags with
  | nil =>
    cases h
    rfl
  | cons a as ih =>
    cases bs with
    | nil => cases h
    | cons b bs =>
      rw [each] at h
      rcases hhead : test i a b flags with _ | ⟨_ | _, flags₁⟩
      · rw [hhead] at h
        cases h
      · rw [hhead] at h
        cases h
        exact htest _ _ _ _ _ _ hhead
      · rw [hhead] at h
        exact (ih h).trans (htest _ _ _ _ _ _ hhead)

/-- **A loop that comes to its end** has found all members equal. -/
theorem allFrom_of_each
    (htest : ∀ i a b flags answer flags', test i a b flags = some (answer, flags') → flags' = flags)
    (hlength : as.length = bs.length) (h : each test i as bs flags = some (true, flags')) :
    AllFrom (fun i a b => test i a b flags = some (true, flags)) i as bs := by
  induction as generalizing i bs with
  | nil =>
    cases bs with
    | nil => trivial
    | cons b bs => cases hlength
  | cons a as ih =>
    cases bs with
    | nil => cases hlength
    | cons b bs =>
      rw [each] at h
      rcases hhead : test i a b flags with _ | ⟨_ | _, flags₁⟩
      · rw [hhead] at h
        cases h
      · rw [hhead] at h
        cases h
      · have heq := htest _ _ _ _ _ _ hhead
        subst heq
        rw [hhead] at h
        exact ⟨hhead, ih (Nat.succ.inj hlength) h⟩

/-- Members that are equal let the loop come to its end. -/
theorem each_eq_true
    (htest : AllFrom (fun i a b => ∀ flags answer flags',
      test i a b flags = some (answer, flags') → answer = true) i as bs)
    (h : each test i as bs flags = some (answer, flags')) : answer = true := by
  induction as generalizing i bs flags with
  | nil =>
    cases h
    rfl
  | cons a as ih =>
    cases bs with
    | nil => cases h
    | cons b bs =>
      obtain ⟨ha, has⟩ := htest
      rw [each] at h
      rcases hhead : test i a b flags with _ | ⟨_ | _, flags₁⟩
      · rw [hhead] at h
        cases h
      · exact absurd (ha _ _ _ hhead) Bool.false_ne_true
      · rw [hhead] at h
        exact ih has h

/-- **A comparison settles**: from a depth on it has an answer, and leaves the flags as they were. -/
def Settles (f : ℕ → Answer N) (flags : Flags N) : Prop :=
  ∃ answer n, ∀ depth, n ≤ depth → f depth = some (answer, flags)

theorem settles_const (answer : Bool) (flags : Flags N) :
    Settles (fun _ => some (answer, flags)) flags := ⟨answer, 0, fun _ _ => rfl⟩

theorem settles_each {test : ℕ → ℕ → α → α → Flags N → Answer N}
    (htest : ∀ a ∈ as, ∀ i b, Settles (fun depth => test depth i a b flags) flags)
    (hlength : as.length = bs.length) :
    Settles (fun depth => each (test depth) i as bs flags) flags := by
  induction as generalizing i bs with
  | nil => exact settles_const true flags
  | cons a as ih =>
    cases bs with
    | nil => cases hlength
    | cons b bs =>
      obtain ⟨ha, has⟩ := List.forall_mem_cons.mp htest
      obtain ⟨answer, n, hhead⟩ := ha i b
      obtain ⟨answer', n', hrest⟩ := ih (i := i + 1) has (Nat.succ.inj hlength)
      cases answer with
      | false =>
        refine ⟨false, n, fun depth hdepth => ?_⟩
        have ha : test depth i a b flags = some (false, flags) := hhead depth hdepth
        dsimp only
        rw [each, ha]
      | true =>
        refine ⟨answer', max n n', fun depth hdepth => ?_⟩
        have ha : test depth i a b flags = some (true, flags) :=
          hhead depth ((Nat.le_max_left _ _).trans hdepth)
        dsimp only
        rw [each, ha]
        exact hrest depth ((Nat.le_max_right _ _).trans hdepth)

end Loop

/-! ### The flags -/

section Flags

variable {N : Type} [DecidableEq N] {h : Heap N} {equal' : N → N → Flags N → Answer N} {x tc : N}
  {flags flags' : Flags N} {answer : Bool}

theorem flagged_flags {recursive : Bool} {body : Flags N → Answer N}
    (hbody : ∀ flags answer flags', body flags = some (answer, flags') → flags' = flags)
    (h : flagged recursive x body flags = some (answer, flags')) : flags' = flags := by
  rw [flagged] at h
  split_ifs at h
  · cases h
    rfl
  · rcases hb : body (x :: flags) with _ | ⟨answer₁, flags₁⟩
    · rw [hb] at h
      cases h
    · rw [hb] at h
      cases h
      rw [hbody _ _ _ hb, List.erase_cons_head]
  · exact hbody _ _ _ h

omit [DecidableEq N] in
theorem fieldEqual_flags (hequal : Restores equal') {lhs rhs : StructField N}
    (h : fieldEqual equal' lhs rhs flags = some (answer, flags')) : flags' = flags := by
  rw [fieldEqual] at h
  split_ifs at h
  · cases h
    rfl
  · exact hequal _ _ _ _ _ h

omit [DecidableEq N] in
theorem caseEqual_flags (hequal : Restores equal') {defaultIndex : ℤ} {i : ℕ} {lhs rhs : Case N}
    (h : caseEqual equal' defaultIndex i lhs rhs flags = some (answer, flags')) :
    flags' = flags := by
  rw [caseEqual] at h
  split_ifs at h
  · cases h
    rfl
  · rw [Case.equal] at h
    split_ifs at h
    · cases h
      rfl
    · rcases htype : equal' lhs.type rhs.type flags with _ | ⟨_ | _, flags₁⟩
      · rw [htype] at h
        cases h
      · rw [htype] at h
        cases h
        exact hequal _ _ _ _ _ htype
      · rw [htype] at h
        cases h
        exact hequal _ _ _ _ _ htype

theorem equalI_flags (hequal : Restores equal')
    (hi : equalI h equal' x tc flags = some (answer, flags')) : flags' = flags := by
  rw [equalI, equalNode.eq_def] at hi
  split at hi
  · exact hequal _ _ _ _ _ hi
  · cases hi
    rfl
  · cases hi
    rfl
  · cases hi
    rfl
  · cases hi
    rfl
  · split_ifs at hi
    · cases hi
      rfl
    · refine each_flags (fun i a b flags answer flags' h => ?_) hi
      cases h
      rfl
  · split_ifs at hi
    · cases hi
      rfl
    · exact hequal _ _ _ _ _ hi
  · exact hequal _ _ _ _ _ hi
  · refine flagged_flags (fun flags answer flags' h => ?_) hi
    rw [structEqualI] at h
    split_ifs at h
    · cases h
      rfl
    · exact each_flags (fun _ _ _ _ _ _ => fieldEqual_flags hequal) h
  · rename_i d cases defaultIndex recursive _ _ d' cases' defaultIndex' _ _ _
    refine flagged_flags (fun flags answer flags' h => ?_) hi
    rw [unionEqualI] at h
    split_ifs at h
    · cases h
      rfl
    · rcases hd : equal' d d' flags with _ | ⟨_ | _, flags₁⟩
      · rw [hd] at h
        cases h
      · rw [hd] at h
        cases h
        exact hequal _ _ _ _ _ hd
      · rw [hd] at h
        exact (each_flags (fun _ _ _ _ _ _ => caseEqual_flags hequal) h).trans
          (hequal _ _ _ _ _ hd)
  · cases hi

/-- **The flags are reset.** -/
theorem equal_flags (h : Heap N) (depth : ℕ) : Restores (equal h depth) := by
  induction depth with
  | zero =>
    intro x tc flags answer flags' heq
    cases heq
  | succ depth ih =>
    intro x tc flags answer flags' heq
    rw [equal] at heq
    split_ifs at heq
    · cases heq
      rfl
    · cases heq
      rfl
    · cases heq
      rfl
    · exact equalI_flags ih heq

end Flags

/-! ### What an answer `true` says -/

section Sound

variable {N : Type} {h : Heap N} {x tc target : N} {id : String}

/-- What an `Indirected_Type` is linked to is not one itself. -/
theorem Heap.view_of_indirected (hx : h.node x = .indirectedType id target) :
    h.view x = h.node target ∧ h.view target = h.node target := by
  have hid := h.hasId x id target hx
  rw [Heap.view, Heap.view, hx]
  dsimp only
  rcases htarget : h.node target <;> rw [htarget] at hid <;> first | exact hid.elim | exact ⟨rfl, rfl⟩

theorem Heap.view_of_not_indirected (hx : ∀ id target, h.node x ≠ .indirectedType id target) :
    h.view x = h.node x := by
  rw [Heap.view]
  split
  · exact absurd ‹_› (hx _ _)
  · rfl

theorem Heap.view_ne_indirected (x : N) (id : String) (target : N) :
    h.view x ≠ .indirectedType id target := by
  by_cases hx : ∃ id' target', h.node x = .indirectedType id' target'
  · obtain ⟨id', target', hx⟩ := hx
    have hid := h.hasId x id' target' hx
    rw [(view_of_indirected hx).1]
    intro hnode
    rw [hnode] at hid
    exact hid.elim
  · have hnot : ∀ id target, h.node x ≠ .indirectedType id target :=
      fun id' target' heq => hx ⟨id', target', heq⟩
    rw [view_of_not_indirected hnot]
    exact hnot id target

/-- **An `Indirected_Type`** has the unfolding of what it is linked to. -/
theorem Heap.agree_target (hx : h.node x = .indirectedType id target) (skip : Bool) :
    h.Agree skip x target := by
  obtain ⟨hview, htarget⟩ := view_of_indirected hx
  refine agree_of_eq ?_ ?_
  · rw [Heap.shape, Heap.shape, hview, htarget]
  · rw [Heap.members, Heap.members, hview, htarget]

variable {fields fields' : List (StructField N)} {cases cases' : List (Case N)} {R : N → N → Prop}

/-- Fields with the same names, and types that are related. -/
theorem fields_of_allFrom {i : ℕ}
    (hall : AllFrom (fun _ f f' => f.name = f'.name ∧ R f.type f'.type) i fields fields') :
    (fields.map fun f => (⟨f.name, ()⟩ : StructField Unit)) =
        fields'.map (fun f => ⟨f.name, ()⟩) ∧
      List.Forall₂ R (fields.map StructField.type) (fields'.map StructField.type) := by
  induction fields generalizing i fields' with
  | nil =>
    cases fields' with
    | nil => exact ⟨rfl, .nil⟩
    | cons f' fields' => exact hall.elim
  | cons f fields ih =>
    cases fields' with
    | nil => exact hall.elim
    | cons f' fields' =>
      obtain ⟨⟨hname, htype⟩, hrest⟩ := hall
      obtain ⟨hshape, htypes⟩ := ih hrest
      rw [List.map_cons, List.map_cons, List.map_cons, List.map_cons, hname, hshape]
      exact ⟨rfl, .cons htype htypes⟩

/-- Cases that are the same outside the default case. -/
theorem cases_of_allFrom {d : ℤ} {i : ℕ}
    (hall : AllFrom (fun i c c' => ¬(-1 < d ∧ d = i) →
      c.label = c'.label ∧ c.name = c'.name ∧ R c.type c'.type) i cases cases') :
    caseShapes true d i cases = caseShapes true d i cases' ∧
      List.Forall₂ R (caseTypes true d i cases) (caseTypes true d i cases') := by
  induction cases generalizing i cases' with
  | nil =>
    cases cases' with
    | nil => exact ⟨rfl, .nil⟩
    | cons c' cases' => exact hall.elim
  | cons c cases ih =>
    cases cases' with
    | nil => exact hall.elim
    | cons c' cases' =>
      obtain ⟨hcase, hrest⟩ := hall
      obtain ⟨hshapes, htypes⟩ := ih hrest
      rw [caseShapes, caseShapes, caseTypes, caseTypes, hshapes, Case.shape, Case.shape]
      by_cases hdefault : -1 < d ∧ d = i
      · have hskip : true = true ∧ -1 < d ∧ d = i := ⟨rfl, hdefault⟩
        rw [if_pos hdefault, if_pos hdefault, if_pos hskip, if_pos hskip]
        exact ⟨rfl, htypes⟩
      · obtain ⟨hlabel, hname, htype⟩ := hcase hdefault
        rw [if_neg hdefault, if_neg hdefault, if_neg fun hd => hdefault hd.2,
          if_neg fun hd => hdefault hd.2, hlabel, hname]
        exact ⟨rfl, .cons htype htypes⟩

variable [DecidableEq N] {equal' : N → N → Flags N → Answer N} {flags flags' : Flags N}

/-- The flags while an object is compared. -/
def Heap.marks (h : Heap N) (x : N) (flags : Flags N) : Flags N :=
  if (h.node x).isRecursive then x :: flags else flags

omit [DecidableEq N] in
theorem fieldEqual_eq_true {lhs rhs : StructField N}
    (hf : fieldEqual equal' lhs rhs flags = some (true, flags')) :
    lhs.name = rhs.name ∧ equal' lhs.type rhs.type flags = some (true, flags') := by
  rw [fieldEqual] at hf
  split_ifs at hf with hname
  · cases hf
  · exact ⟨not_not.mp hname, hf⟩

omit [DecidableEq N] in
theorem caseEqual_eq_true {d : ℤ} {i : ℕ} {lhs rhs : Case N}
    (hc : caseEqual equal' d i lhs rhs flags = some (true, flags')) (hd : ¬(-1 < d ∧ d = i)) :
    lhs.label = rhs.label ∧ lhs.name = rhs.name ∧
      equal' lhs.type rhs.type flags = some (true, flags') := by
  rw [caseEqual, if_neg hd, Case.equal] at hc
  split_ifs at hc with hname
  · cases hc
  · rcases htype : equal' lhs.type rhs.type flags with _ | ⟨_ | _, flags₁⟩
    · rw [htype] at hc
      cases hc
    · rw [htype] at hc
      cases hc
    · rw [htype] at hc
      obtain ⟨hlabel, hflags⟩ := Prod.mk.inj (Option.some.inj hc)
      exact ⟨of_decide_eq_true hlabel, not_not.mp hname, congrArg some (Prod.ext rfl hflags)⟩

omit [DecidableEq N] in
/-- **The loop of a struct** that comes to its end. -/
theorem fields_of_each (hequal : Restores equal') (hlength : fields.length = fields'.length)
    (hloop : each (fun _ => fieldEqual equal') 0 fields fields' flags = some (true, flags')) :
    (fields.map fun f => (⟨f.name, ()⟩ : StructField Unit)) =
        fields'.map (fun f => ⟨f.name, ()⟩) ∧
      List.Forall₂ (fun c c' => equal' c c' flags = some (true, flags))
        (fields.map StructField.type) (fields'.map StructField.type) :=
  fields_of_allFrom ((allFrom_of_each (fun _ _ _ _ _ _ => fieldEqual_flags hequal) hlength
    hloop).mono fun _ _ _ => fieldEqual_eq_true)

omit [DecidableEq N] in
/-- **The loop of a union.** -/
theorem cases_of_each (hequal : Restores equal') {d : ℤ} (hlength : cases.length = cases'.length)
    (hloop : each (caseEqual equal' d) 0 cases cases' flags = some (true, flags')) :
    caseShapes true d 0 cases = caseShapes true d 0 cases' ∧
      List.Forall₂ (fun c c' => equal' c c' flags = some (true, flags))
        (caseTypes true d 0 cases) (caseTypes true d 0 cases') :=
  cases_of_allFrom ((allFrom_of_each (fun _ _ _ _ _ _ => caseEqual_flags hequal) hlength
    hloop).mono fun _ _ _ => caseEqual_eq_true)

theorem flagged_eq_true {recursive : Bool} {body : Flags N → Answer N}
    (hf : flagged recursive x body flags = some (true, flags')) :
    (recursive = true ∧ x ∈ flags) ∨
      ∃ flags₁, body (if recursive then x :: flags else flags) = some (true, flags₁) := by
  rw [flagged] at hf
  cases recursive with
  | false => exact Or.inr ⟨_, hf⟩
  | true =>
    rw [if_pos rfl] at hf
    split_ifs at hf with hmem
    · exact Or.inl ⟨rfl, hmem⟩
    · rcases hb : body (x :: flags) with _ | ⟨answer, flags₁⟩
      · rw [hb] at hf
        cases hf
      · rw [hb] at hf
        cases hf
        exact Or.inr ⟨flags₁, hb⟩

omit [DecidableEq N] in
/-- The id of an `Indirected_Type` is that of what it is linked to. -/
theorem Heap.id_view (x : N) : (h.view x).id = h.id x := by
  by_cases hx : ∃ id target, h.node x = .indirectedType id target
  · obtain ⟨id, target, hx⟩ := hx
    have hid := h.hasId x id target hx
    rw [(view_of_indirected hx).1, Heap.id, hx]
    rcases htarget : h.node target <;> rw [htarget] at hid <;>
      first | exact hid.elim | exact congrArg some hid
  · rw [view_of_not_indirected fun id target heq => hx ⟨id, target, heq⟩]
    rfl

/-- **What `equal_i` has found** of an object that is not an `Indirected_Type`: its flag was set, or
it has the shape of the other, and the members were equal. -/
theorem equalI_eq_true (hequal : Restores equal')
    (hx : ∀ id target, h.node x ≠ .indirectedType id target) (hkind : h.kind tc = h.kind x)
    (hid : h.id x = h.id tc) (hname : h.name x = h.name tc)
    (hi : equalI h equal' x tc flags = some (true, flags')) :
    ((h.node x).isRecursive = true ∧ x ∈ flags) ∨ h.shape true x = h.shape true tc ∧
      List.Forall₂ (fun c c' => equal' c c' (h.marks x flags) = some (true, h.marks x flags))
        (h.members true x) (h.members true tc) := by
  rw [← Heap.id_view, ← Heap.id_view] at hid
  rw [Heap.kind, Heap.kind] at hkind
  rw [Heap.name, Heap.name] at hname
  rw [Heap.shape, Heap.shape, Heap.members, Heap.members]
  rw [Heap.view_of_not_indirected hx] at hid hkind hname ⊢
  rw [equalI, equalNode.eq_def] at hi
  split at hi
  · exact absurd ‹_› (hx _ _)
  · rename_i k k' hn hv
    rw [hn, hv] at hkind ⊢
    cases hkind
    exact Or.inr ⟨rfl, .nil⟩
  · rename_i wide length wide' length' hn hv
    rw [hn, hv] at hkind ⊢
    have hwide : wide = wide' := by
      cases wide <;> cases wide' <;> first | rfl | cases hkind
    have hlength : length = length' := of_decide_eq_true (congrArg Prod.fst (Option.some.inj hi))
    subst hwide hlength
    exact Or.inr ⟨rfl, .nil⟩
  · rename_i digits scale digits' scale' hn hv
    rw [hn, hv]
    obtain ⟨rfl, rfl⟩ : digits = digits' ∧ scale = scale' :=
      of_decide_eq_true (congrArg Prod.fst (Option.some.inj hi))
    exact Or.inr ⟨rfl, .nil⟩
  · rename_i k id name k' id' name' hn hv
    rw [hn, hv] at hkind hid hname ⊢
    cases hkind
    cases hid
    cases hname
    exact Or.inr ⟨rfl, .nil⟩
  · rename_i id name enumerators id' name' enumerators' hn hv
    rw [hn, hv] at hid hname ⊢
    cases hid
    cases hname
    split_ifs at hi with hlength
    · cases hi
    · have hall := allFrom_of_each (fun i a b flags answer flags' h => by cases h; rfl)
        (not_not.mp hlength).symm hi
      have heq : enumerators = enumerators' :=
        (hall.mono fun i a b h => of_decide_eq_true (congrArg Prod.fst (Option.some.inj h))).eq
      rw [heq]
      exact Or.inr ⟨rfl, .nil⟩
  · rename_i isArray contentType length isArray' contentType' length' hn hv
    have hmarks : h.marks x flags = flags := by rw [Heap.marks, hn]; rfl
    rw [hn, hv] at hkind ⊢
    have harray : isArray = isArray' := by
      cases isArray <;> cases isArray' <;> first | rfl | cases hkind
    split_ifs at hi with hlength
    · cases hi
    · have heq := hequal _ _ _ _ _ hi
      subst heq harray
      rw [hmarks, not_not.mp hlength]
      exact Or.inr ⟨rfl, .cons hi .nil⟩
  · rename_i isBox id name contentType isBox' id' name' contentType' hn hv
    have hmarks : h.marks x flags = flags := by rw [Heap.marks, hn]; rfl
    rw [hn, hv] at hkind hid hname ⊢
    have hbox : isBox = isBox' := by
      cases isBox <;> cases isBox' <;> first | rfl | cases hkind
    have heq := hequal _ _ _ _ _ hi
    cases hid
    cases hname
    subst heq hbox
    rw [hmarks]
    exact Or.inr ⟨rfl, .cons hi .nil⟩
  · rename_i isExcept id name fields recursive isExcept' id' name' fields' recursive' hn hv
    have hmarks : h.marks x flags = if recursive then x :: flags else flags := by
      rw [Heap.marks, hn]
      rfl
    rw [hn, hv] at hkind hid hname ⊢
    have hexcept : isExcept = isExcept' := by
      cases isExcept <;> cases isExcept' <;> first | rfl | cases hkind
    cases hid
    cases hname
    subst hexcept
    rcases flagged_eq_true hi with hset | ⟨flags₁, hbody⟩
    · exact Or.inl hset
    · rw [← hmarks, structEqualI] at hbody
      split_ifs at hbody with hlength
      · cases hbody
      · obtain ⟨hshape, htypes⟩ := fields_of_each hequal (not_not.mp hlength).symm hbody
        rw [Node.shape, Node.shape, hshape]
        exact Or.inr ⟨rfl, htypes⟩
  · rename_i id name d cases defaultIndex recursive id' name' d' cases' defaultIndex' recursive' hn hv
    have hmarks : h.marks x flags = if recursive then x :: flags else flags := by
      rw [Heap.marks, hn]
      rfl
    rw [hn, hv] at hid hname ⊢
    cases hid
    cases hname
    rcases flagged_eq_true hi with hset | ⟨flags₁, hbody⟩
    · exact Or.inl hset
    · rw [← hmarks, unionEqualI] at hbody
      split_ifs at hbody with hdiffer
      · cases hbody
      · obtain ⟨hlength, hdefault⟩ := not_or.mp hdiffer
        have hdefault := not_not.mp hdefault
        subst hdefault
        rcases hd : equal' d d' (h.marks x flags) with _ | ⟨_ | _, flags₂⟩
        · rw [hd] at hbody
          cases hbody
        · rw [hd] at hbody
          cases hbody
        · rw [hd] at hbody
          have heq := hequal _ _ _ _ _ hd
          subst heq
          obtain ⟨hshape, htypes⟩ := cases_of_each hequal (not_not.mp hlength).symm hbody
          rw [Node.shape, Node.shape, hshape]
          exact Or.inr ⟨rfl, .cons hd htypes⟩
  · cases hi

end Sound

/-! ### Agreement in full and in part -/

section Agreement

variable {N : Type} {h : Heap N} {x tc : N} {R : N → N → Prop} {fields fields' : List (StructField N)}
  {cases cases' : List (Case N)} {d : ℤ} {i : ℕ}

theorem Node.kind_shape (node : Node N) (skip : Bool) : (node.shape skip).kind = node.kind := by
  cases node <;> rfl

theorem Node.id_shape (node : Node N) (skip : Bool) : (node.shape skip).id = node.id := by
  cases node <;> rfl

theorem Node.name_shape (node : Node N) (skip : Bool) : (node.shape skip).name = node.name := by
  cases node <;> rfl

/-- Leaving out the default case once more. -/
theorem caseShapes_of_full (hshapes : caseShapes false d i cases = caseShapes false d i cases') :
    caseShapes true d i cases = caseShapes true d i cases' := by
  induction cases generalizing i cases' with
  | nil =>
    cases cases' with
    | nil => rfl
    | cons c' cases' => cases hshapes
  | cons c cases ih =>
    cases cases' with
    | nil => cases hshapes
    | cons c' cases' =>
      obtain ⟨hhead, htail⟩ := List.cons.inj hshapes
      rw [caseShapes, caseShapes, ih htail]
      rw [Case.shape, Case.shape] at hhead ⊢
      by_cases hd : -1 < d ∧ d = i
      · rw [if_pos hd, if_pos hd]
        rfl
      · rw [if_neg hd, if_neg hd] at hhead
        rw [if_neg hd, if_neg hd, hhead]

theorem caseTypes_of_full (hlength : cases.length = cases'.length)
    (htypes : List.Forall₂ R (caseTypes false d i cases) (caseTypes false d i cases')) :
    List.Forall₂ R (caseTypes true d i cases) (caseTypes true d i cases') := by
  have hno : ¬(false = true ∧ -1 < d ∧ d = i) := fun hd => Bool.false_ne_true hd.1
  induction cases generalizing i cases' with
  | nil =>
    cases cases' with
    | nil => exact .nil
    | cons c' cases' => cases hlength
  | cons c cases ih =>
    cases cases' with
    | nil => cases hlength
    | cons c' cases' =>
      rw [caseTypes, caseTypes, if_neg hno, if_neg hno] at htypes
      obtain ⟨htype, hrest⟩ := List.forall₂_cons.mp htypes
      have hrest' := ih (Nat.succ.inj hlength) hrest fun hd => Bool.false_ne_true hd.1
      rw [caseTypes, caseTypes]
      by_cases hd : true = true ∧ -1 < d ∧ d = i
      · rw [if_pos hd, if_pos hd]
        exact hrest'
      · rw [if_neg hd, if_neg hd]
        exact .cons htype hrest'

theorem length_caseShapes (skip : Bool) (d : ℤ) (i : ℕ) (cases : List (Case N)) :
    (caseShapes skip d i cases).length = cases.length := by
  induction cases generalizing i with
  | nil => rfl
  | cons c cases ih => rw [caseShapes, List.length_cons, List.length_cons, ih]

/-- Objects that are the same in full are the same outside the default case. -/
theorem Node.part_of_full {node node' : Node N} (hshape : node.shape false = node'.shape false)
    (hmembers : List.Forall₂ R (node.members false) (node'.members false)) :
    node.shape true = node'.shape true ∧
      List.Forall₂ R (node.members true) (node'.members true) := by
  cases node with
  | union id name t cases d recursive =>
    cases node' with
    | union id' name' t' cases' d' recursive' =>
      obtain ⟨rfl, rfl, -, hcases, rfl, -⟩ := Node.union.inj hshape
      have hlength := congrArg List.length hcases
      rw [length_caseShapes, length_caseShapes] at hlength
      obtain ⟨ht, htypes⟩ := List.forall₂_cons.mp hmembers
      rw [Node.shape, Node.shape, caseShapes_of_full hcases]
      exact ⟨rfl, .cons ht (caseTypes_of_full hlength htypes)⟩
    | _ => cases hshape
  | _ =>
    cases node' with
    | union id' name' t' cases' d' recursive' => cases hshape
    | _ => exact ⟨hshape, hmembers⟩

/-- **What agrees in full** agrees outside the default cases. -/
theorem Heap.Agree.skip (hagree : h.Agree false x tc) : h.Agree true x tc := by
  refine agree_iff.mpr fun n => ?_
  induction n generalizing x tc with
  | zero => exact agreeTo_zero
  | succ n ih =>
    have hfull : List.Forall₂ (h.AgreeTo true n) ((h.view x).members false)
        ((h.view tc).members false) := hagree.forall₂.imp fun _ _ => ih
    obtain ⟨hshape, hmembers⟩ := Node.part_of_full hagree.shape_eq hfull
    exact AgreeTo.step hshape hmembers

theorem mem_caseTypes_of_mem {t : N} (ht : t ∈ caseTypes true d i cases) :
    t ∈ caseTypes false d i cases := by
  have hno (i : ℕ) : ¬(false = true ∧ -1 < d ∧ d = i) := fun hd => Bool.false_ne_true hd.1
  induction cases generalizing i with
  | nil => exact ht
  | cons c cases ih =>
    rw [caseTypes, if_neg (hno i)]
    rw [caseTypes] at ht
    split_ifs at ht
    · exact List.mem_cons_of_mem _ (ih ht)
    · rcases List.mem_cons.mp ht with rfl | ht
      · exact List.mem_cons_self
      · exact List.mem_cons_of_mem _ (ih ht)

theorem Heap.mem_members_of_mem (ht : x ∈ h.members true tc) : x ∈ h.members false tc := by
  rw [Heap.members] at ht ⊢
  cases hnode : h.view tc <;> rw [hnode] at ht <;> try exact ht
  rcases List.mem_cons.mp ht with rfl | ht
  · exact List.mem_cons_self
  · exact List.mem_cons_of_mem _ (mem_caseTypes_of_mem ht)

end Agreement

/-! ### Soundness -/

section Soundness

variable {N : Type} [DecidableEq N] {h : Heap N} {b : N} {n depth : ℕ} {x tc : N}
  {flags flags' : Flags N}

omit [DecidableEq N] in
/-- An object with a flag has an id. -/
theorem Heap.id_ne_none (hx : (h.node x).isRecursive = true) : h.id x ≠ none := by
  rw [Heap.id]
  cases hnode : h.node x <;> rw [hnode] at hx <;> first | exact Option.some_ne_none _ | cases hx

/-- **The flags are justified** to a depth: an object whose flag is set agrees with all objects of its
id in the other TypeCode. -/
def Heap.Justified (h : Heap N) (b : N) (n : ℕ) (flags : Flags N) : Prop :=
  ∀ u ∈ flags, ∀ v, Reaches (h.members false) b v → h.id u = h.id v → h.AgreeTo true n u v

/-- **An answer `true` is right** to every depth. The induction is on the depth of the unfoldings: an
object that is being compared has been compared to a lower depth, by the same call. -/
theorem Heap.agreeTo_of_equal (hb : h.SameIds b) (hreach : Reaches (h.members false) b tc)
    (hjustified : h.Justified b n flags) (heq : equal h depth x tc flags = some (true, flags')) :
    h.AgreeTo true n x tc := by
  induction n generalizing depth x tc flags flags' with
  | zero => exact agreeTo_zero
  | succ n ih =>
    induction depth generalizing x with
    | zero => cases heq
    | succ depth ihdepth =>
      have hcall := heq
      rw [equal] at heq
      split_ifs at heq with hsame hkind hids
      · rw [hsame]
        exact fun _ _ => rfl
      · cases heq
      · cases heq
      · obtain ⟨hid, hname⟩ := not_or.mp hids
        by_cases hx : ∃ id target, h.node x = .indirectedType id target
        · obtain ⟨id, target, hx⟩ := hx
          rw [equalI, hx, equalNode] at heq
          intro path hlt
          exact (agree_target hx true path).trans (ihdepth heq path hlt)
        · rcases equalI_eq_true (equal_flags h depth) (fun id target h => hx ⟨id, target, h⟩)
            (not_not.mp hkind) (not_not.mp hid) (not_not.mp hname) heq with
            ⟨-, hmem⟩ | ⟨hshape, hmembers⟩
          · exact hjustified x hmem tc hreach (not_not.mp hid)
          · have hlower : h.Justified b n flags := fun u hu v hv huv =>
              (hjustified u hu v hv huv).mono (Nat.le_succ n)
            have hmarks : h.Justified b n (h.marks x flags) := by
              rw [Heap.marks]
              split_ifs with hrec
              · intro u hu v hv huv
                rcases List.mem_cons.mp hu with rfl | hu
                · have htc : h.id tc ≠ none := not_not.mp hid ▸ id_ne_none hrec
                  have hdefs := hb tc v hreach hv htc ((not_not.mp hid).symm.trans huv)
                  exact (ih hreach hlower hcall).trans hdefs.skip
                · exact hlower u hu v hv huv
              · exact hlower
            refine AgreeTo.step hshape (List.forall₂_iff_get.mpr ⟨hmembers.length_eq, ?_⟩)
            intro i hi hi'
            have hmember := (List.forall₂_iff_get.mp hmembers).2 i hi hi'
            have hmem := mem_members_of_mem (List.get_mem (h.members true tc) ⟨i, hi'⟩)
            exact ih (hreach.tail hmem) hmarks hmember

end Soundness

/-! ### Completeness -/

section Completeness

variable {N : Type} [DecidableEq N] {h : Heap N} {x tc : N} {flags flags' : Flags N} {answer : Bool}
  {equal' : N → N → Flags N → Answer N} {R : N → N → Prop} {fields fields' : List (StructField N)}
  {cases cases' : List (Case N)} {d : ℤ} {i : ℕ}

theorem flagged_true_of_body {recursive : Bool} {body : Flags N → Answer N}
    (hbody : ∀ flags answer flags', body flags = some (answer, flags') → answer = true)
    (hf : flagged recursive x body flags = some (answer, flags')) : answer = true := by
  rw [flagged] at hf
  split_ifs at hf
  · cases hf
    rfl
  · rcases hb : body (x :: flags) with _ | ⟨answer₁, flags₁⟩
    · rw [hb] at hf
      cases hf
    · rw [hb] at hf
      cases hf
      exact hbody _ _ _ hb
  · exact hbody _ _ _ hf

omit [DecidableEq N] in
theorem allFrom_of_fields (hshape : (fields.map fun f => (⟨f.name, ()⟩ : StructField Unit)) =
      fields'.map fun f => ⟨f.name, ()⟩)
    (htypes : List.Forall₂ R (fields.map StructField.type) (fields'.map StructField.type)) :
    AllFrom (fun _ f f' => f.name = f'.name ∧ R f.type f'.type) i fields fields' := by
  induction fields generalizing i fields' with
  | nil =>
    cases fields' with
    | nil => trivial
    | cons f' fields' => cases hshape
  | cons f fields ih =>
    cases fields' with
    | nil => cases hshape
    | cons f' fields' =>
      obtain ⟨hname, hrest⟩ := List.cons.inj hshape
      obtain ⟨htype, htypes⟩ := List.forall₂_cons.mp htypes
      exact ⟨⟨(StructField.mk.inj hname).1, htype⟩, ih hrest htypes⟩

omit [DecidableEq N] in
theorem allFrom_of_cases (hshapes : caseShapes true d i cases = caseShapes true d i cases')
    (htypes : List.Forall₂ R (caseTypes true d i cases) (caseTypes true d i cases')) :
    AllFrom (fun i c c' => ¬(-1 < d ∧ d = i) →
      c.label = c'.label ∧ c.name = c'.name ∧ R c.type c'.type) i cases cases' := by
  induction cases generalizing i cases' with
  | nil =>
    cases cases' with
    | nil => trivial
    | cons c' cases' => cases hshapes
  | cons c cases ih =>
    cases cases' with
    | nil => cases hshapes
    | cons c' cases' =>
      obtain ⟨hhead, htail⟩ := List.cons.inj hshapes
      rw [caseTypes, caseTypes] at htypes
      by_cases hd : -1 < d ∧ d = i
      · have hskip : true = true ∧ -1 < d ∧ d = i := ⟨rfl, hd⟩
        rw [if_pos hskip, if_pos hskip] at htypes
        exact ⟨fun hnot => absurd hd hnot, ih htail htypes⟩
      · have hskip : ¬(true = true ∧ -1 < d ∧ d = i) := fun hskip => hd hskip.2
        rw [if_neg hskip, if_neg hskip] at htypes
        rw [Case.shape, Case.shape, if_neg hd, if_neg hd] at hhead
        obtain ⟨hlabel, hname, -⟩ := Case.mk.inj hhead
        obtain ⟨htype, hrest⟩ := List.forall₂_cons.mp htypes
        exact ⟨fun _ => ⟨hlabel, hname, htype⟩, ih htail hrest⟩

omit [DecidableEq N] in
theorem fieldEqual_true_of (hequal : ∀ c c' flags answer flags', R c c' →
      equal' c c' flags = some (answer, flags') → answer = true) {lhs rhs : StructField N}
    (hsame : lhs.name = rhs.name ∧ R lhs.type rhs.type)
    (hf : fieldEqual equal' lhs rhs flags = some (answer, flags')) : answer = true := by
  rw [fieldEqual, if_neg (not_not.mpr hsame.1)] at hf
  exact hequal _ _ _ _ _ hsame.2 hf

omit [DecidableEq N] in
theorem caseEqual_true_of (hequal : ∀ c c' flags answer flags', R c c' →
      equal' c c' flags = some (answer, flags') → answer = true) {lhs rhs : Case N}
    (hsame : ¬(-1 < d ∧ d = i) → lhs.label = rhs.label ∧ lhs.name = rhs.name ∧ R lhs.type rhs.type)
    (hc : caseEqual equal' d i lhs rhs flags = some (answer, flags')) : answer = true := by
  rw [caseEqual] at hc
  split_ifs at hc with hd
  · cases hc
    rfl
  · obtain ⟨hlabel, hname, htype⟩ := hsame hd
    rw [Case.equal, if_neg (not_not.mpr hname)] at hc
    rcases heq : equal' lhs.type rhs.type flags with _ | ⟨_ | _, flags₁⟩
    · rw [heq] at hc
      cases hc
    · exact absurd (hequal _ _ _ _ _ htype heq) Bool.false_ne_true
    · rw [heq] at hc
      cases hc
      exact decide_eq_true hlabel

/-- **`equal_i` finds no difference** between objects of one shape with members that agree. -/
theorem equalI_true_of (hequal : ∀ c c' flags answer flags', h.Agree true c c' →
      equal' c c' flags = some (answer, flags') → answer = true) (hagree : h.Agree true x tc)
    (hi : equalI h equal' x tc flags = some (answer, flags')) : answer = true := by
  by_cases hx : ∃ id target, h.node x = .indirectedType id target
  · obtain ⟨id, target, hx⟩ := hx
    rw [equalI, hx, equalNode] at hi
    exact hequal _ _ _ _ _ (fun path => (Heap.agree_target hx true path).symm.trans (hagree path)) hi
  have hx : ∀ id target, h.node x ≠ .indirectedType id target :=
    fun id target heq => hx ⟨id, target, heq⟩
  have hshape := hagree.shape_eq
  have hmembers := hagree.forall₂
  rw [Heap.shape, Heap.shape, Heap.view_of_not_indirected hx] at hshape
  rw [Heap.members, Heap.members, Heap.view_of_not_indirected hx] at hmembers
  rw [equalI, equalNode.eq_def] at hi
  split at hi
  · exact absurd ‹_› (hx _ _)
  · cases hi
    rfl
  · rename_i hn hv
    rw [hn, hv] at hshape
    obtain ⟨-, hlength⟩ := Node.string.inj hshape
    cases hi
    exact decide_eq_true hlength
  · rename_i hn hv
    rw [hn, hv] at hshape
    obtain ⟨hdigits, hscale⟩ := Node.fixed.inj hshape
    cases hi
    exact decide_eq_true ⟨hdigits, hscale⟩
  · cases hi
    rfl
  · rename_i hn hv
    rw [hn, hv] at hshape
    obtain ⟨-, -, henumerators⟩ := Node.enum.inj hshape
    subst henumerators
    rw [if_neg (not_not.mpr rfl)] at hi
    refine each_eq_true (AllFrom.diagonal fun i name flags answer flags' h => ?_) hi
    cases h
    exact decide_eq_true rfl
  · rename_i hn hv
    rw [hn, hv] at hshape hmembers
    obtain ⟨-, -, hlength⟩ := Node.sequence.inj hshape
    rw [if_neg (not_not.mpr hlength)] at hi
    exact hequal _ _ _ _ _ (List.forall₂_cons.mp hmembers).1 hi
  · rename_i hn hv
    rw [hn, hv] at hmembers
    exact hequal _ _ _ _ _ (List.forall₂_cons.mp hmembers).1 hi
  · rename_i hn hv
    rw [hn, hv] at hshape hmembers
    obtain ⟨-, -, -, hfields, -⟩ := Node.struct.inj hshape
    refine flagged_true_of_body (fun flags answer flags' hbody => ?_) hi
    have hlength := congrArg List.length hfields
    rw [List.length_map, List.length_map] at hlength
    rw [structEqualI, if_neg (not_not.mpr hlength.symm)] at hbody
    refine each_eq_true ((allFrom_of_fields hfields hmembers).mono fun i f f' hsame => ?_) hbody
    exact fun flags answer flags' => fieldEqual_true_of hequal hsame
  · rename_i d' _ _ hn hv
    rw [hn, hv] at hshape hmembers
    obtain ⟨-, -, -, hcases, hdefault, -⟩ := Node.union.inj hshape
    subst hdefault
    obtain ⟨hd, htypes⟩ := List.forall₂_cons.mp hmembers
    refine flagged_true_of_body (fun flags answer flags' hbody => ?_) hi
    have hlength := congrArg List.length hcases
    rw [length_caseShapes, length_caseShapes] at hlength
    rw [unionEqualI, if_neg (not_or.mpr ⟨not_not.mpr hlength.symm, not_not.mpr rfl⟩)] at hbody
    rcases heq : equal' _ _ flags with _ | ⟨_ | _, flags₁⟩
    · rw [heq] at hbody
      cases hbody
    · exact absurd (hequal _ _ _ _ _ hd heq) Bool.false_ne_true
    · rw [heq] at hbody
      refine each_eq_true ((allFrom_of_cases hcases htypes).mono fun i c c' hsame => ?_) hbody
      exact fun flags answer flags' => caseEqual_true_of hequal hsame
  · cases hi

end Completeness

/-! ### Termination -/

section Termination

variable {N : Type} [DecidableEq N] {h : Heap N} {x tc : N} {flags : Flags N}
  {f g : ℕ → Answer N}

omit [DecidableEq N] in
theorem Settles.congr (hg : Settles g flags) (hfg : ∀ depth, f depth = g depth) :
    Settles f flags := by
  obtain ⟨answer, n, hsettles⟩ := hg
  exact ⟨answer, n, fun depth hdepth => (hfg depth).trans (hsettles depth hdepth)⟩

omit [DecidableEq N] in
/-- One call deeper. -/
theorem Settles.succ (hg : Settles g flags) (hfg : ∀ depth, f (depth + 1) = g depth) :
    Settles f flags := by
  obtain ⟨answer, n, hsettles⟩ := hg
  refine ⟨answer, n + 1, fun depth hdepth => ?_⟩
  obtain ⟨depth, rfl⟩ := Nat.exists_eq_succ_of_ne_zero (Nat.ne_of_gt (Nat.lt_of_lt_of_le
    (Nat.succ_pos n) hdepth))
  exact (hfg depth).trans (hsettles depth (Nat.le_of_succ_le_succ hdepth))

omit [DecidableEq N] in
/-- A comparison, and another if it answers `true`. -/
theorem settles_and {g : ℕ → Flags N → Answer N} (hf : Settles f flags)
    (hg : Settles (fun depth => g depth flags) flags) :
    Settles (fun depth => match f depth with
      | some (true, flags) => g depth flags
      | answer => answer) flags := by
  obtain ⟨answer, n, hf⟩ := hf
  obtain ⟨answer', n', hg⟩ := hg
  cases answer with
  | false =>
    refine ⟨false, n, fun depth hdepth => ?_⟩
    dsimp only
    rw [hf depth hdepth]
  | true =>
    refine ⟨answer', max n n', fun depth hdepth => ?_⟩
    dsimp only
    rw [hf depth ((Nat.le_max_left _ _).trans hdepth)]
    exact hg depth ((Nat.le_max_right _ _).trans hdepth)

theorem settles_flagged {recursive : Bool} {body : ℕ → Flags N → Answer N}
    (hbody : ¬(recursive = true ∧ x ∈ flags) → Settles (fun depth => body depth
      (if recursive then x :: flags else flags)) (if recursive then x :: flags else flags)) :
    Settles (fun depth => flagged recursive x (body depth) flags) flags := by
  cases recursive with
  | false => exact hbody fun hset => Bool.false_ne_true hset.1
  | true =>
    by_cases hmem : x ∈ flags
    · exact (settles_const true flags).congr fun depth => if_pos hmem
    · obtain ⟨answer, n, hsettles⟩ := hbody fun hset => hmem hset.2
      refine ⟨answer, n, fun depth hdepth => ?_⟩
      have hb : body depth (x :: flags) = some (answer, x :: flags) := hsettles depth hdepth
      show flagged true x (body depth) flags = _
      rw [flagged, if_pos rfl, if_neg hmem, hb]
      dsimp only
      rw [List.erase_cons_head]

/-- Objects of one class that is not `Indirected_Type`. -/
inductive Node.SameClass : Node N → Node N → Prop
  | emptyParam (kind kind' : EmptyKind) : SameClass (.emptyParam kind) (.emptyParam kind')
  | string (wide wide' : Bool) (length length' : Cdr.ULong) :
    SameClass (.string wide length) (.string wide' length')
  | fixed (digits scale digits' scale' : Cdr.UShort) :
    SameClass (.fixed digits scale) (.fixed digits' scale')
  | objref (kind kind' : ObjrefKind) (id name id' name' : String) :
    SameClass (.objref kind id name) (.objref kind' id' name')
  | enum (id name id' name' : String) (enumerators enumerators' : List String) :
    SameClass (.enum id name enumerators) (.enum id' name' enumerators')
  | sequence (isArray isArray' : Bool) (t t' : N) (length length' : Cdr.ULong) :
    SameClass (.sequence isArray t length) (.sequence isArray' t' length')
  | aliasOf (isBox isBox' : Bool) (id name id' name' : String) (t t' : N) :
    SameClass (.aliasOf isBox id name t) (.aliasOf isBox' id' name' t')
  | struct (isExcept isExcept' : Bool) (id name id' name' : String)
    (fields fields' : List (StructField N)) (recursive recursive' : Bool) :
    SameClass (.struct isExcept id name fields recursive)
      (.struct isExcept' id' name' fields' recursive')
  | union (id name id' name' : String) (t t' : N) (cases cases' : List (Case N)) (d d' : ℤ)
    (recursive recursive' : Bool) :
    SameClass (.union id name t cases d recursive) (.union id' name' t' cases' d' recursive')

omit [DecidableEq N] in
/-- **The kind says the class.** -/
theorem Node.sameClass_of_kind {node node' : Node N} (hkind : node'.kind = node.kind)
    (hnode : ∀ id target, node ≠ .indirectedType id target)
    (hnode' : ∀ id target, node' ≠ .indirectedType id target) : SameClass node node' := by
  cases node <;> cases node' <;>
    first
      | exact absurd rfl (hnode _ _)
      | exact absurd rfl (hnode' _ _)
      | constructor
      | cases hkind
      | (rw [Node.kind, Node.kind] at hkind; split_ifs at hkind)

/-- **`equal_i` settles** if the comparisons of the references do. -/
theorem settles_equalI (hkind : h.kind tc = h.kind x)
    (hequal : ¬((h.node x).isRecursive = true ∧ x ∈ flags) → ∀ c ∈ (h.node x).references, ∀ c',
      Settles (fun depth => equal h depth c c' (h.marks x flags)) (h.marks x flags)) :
    Settles (fun depth => equalI h (equal h depth) x tc flags) flags := by
  by_cases hx : ∃ id target, h.node x = .indirectedType id target
  · obtain ⟨id, target, hx⟩ := hx
    have hrec : ¬((h.node x).isRecursive = true ∧ x ∈ flags) := by
      rw [hx]
      exact fun hset => Bool.false_ne_true hset.1
    have hmarks : h.marks x flags = flags := by
      rw [Heap.marks, hx]
      rfl
    have hmem : target ∈ (h.node x).references := by
      rw [hx]
      exact List.mem_singleton_self target
    have htarget := hequal hrec target hmem tc
    rw [hmarks] at htarget
    exact htarget.congr fun depth => by rw [equalI, hx, equalNode]
  have hx : ∀ id target, h.node x ≠ .indirectedType id target :=
    fun id target heq => hx ⟨id, target, heq⟩
  rw [Heap.kind, Heap.kind, Heap.view_of_not_indirected hx] at hkind
  have hclass := Node.sameClass_of_kind hkind hx (Heap.view_ne_indirected tc)
  rw [Heap.marks] at hequal
  generalize hn : h.node x = node at hclass hequal
  generalize hv : h.view tc = node' at hclass
  refine Settles.congr (g := fun depth => equalNode (equal h depth) x tc node node' flags) ?_
    fun depth => by rw [equalI, hn, hv]
  cases hclass with
  | emptyParam kind kind' => exact settles_const true flags
  | string wide wide' length length' => exact settles_const _ flags
  | fixed digits scale digits' scale' => exact settles_const _ flags
  | objref kind kind' id name id' name' => exact settles_const true flags
  | enum id name id' name' enumerators enumerators' =>
    by_cases hlength : enumerators'.length ≠ enumerators.length
    · exact (settles_const false flags).congr fun depth => if_pos hlength
    · exact (settles_each (fun _ _ _ _ => settles_const _ flags) (not_not.mp hlength).symm).congr
        fun depth => if_neg hlength
  | sequence isArray isArray' t t' length length' =>
    have ht := hequal (fun hset => Bool.false_ne_true hset.1) t (List.mem_singleton_self t) t'
    by_cases hlength : length ≠ length'
    · exact (settles_const false flags).congr fun depth => if_pos hlength
    · exact ht.congr fun depth => if_neg hlength
  | aliasOf isBox isBox' id name id' name' t t' =>
    exact hequal (fun hset => Bool.false_ne_true hset.1) t (List.mem_singleton_self t) t'
  | struct isExcept isExcept' id name id' name' fields fields' recursive recursive' =>
    refine settles_flagged fun hset => ?_
    have hfields := hequal hset
    by_cases hlength : fields'.length ≠ fields.length
    · exact (settles_const false _).congr fun depth => if_pos hlength
    · refine (settles_each (fun f hf i f' => ?_) (not_not.mp hlength).symm).congr
        fun depth => if_neg hlength
      by_cases hname : f.name ≠ f'.name
      · exact (settles_const false _).congr fun depth => if_pos hname
      · exact (hfields f.type (List.mem_map_of_mem hf) f'.type).congr fun depth => if_neg hname
  | union id name id' name' t t' cases cases' d d' recursive recursive' =>
    refine settles_flagged fun hset => ?_
    have hcases := hequal hset
    by_cases hdiffer : cases'.length ≠ cases.length ∨ d' ≠ d
    · exact (settles_const false _).congr fun depth => if_pos hdiffer
    · refine Settles.congr ?_ fun depth => if_neg hdiffer
      refine settles_and (hcases t List.mem_cons_self t') ?_
      refine settles_each (fun c hc i c' => ?_) (not_not.mp (not_or.mp hdiffer).1).symm
      by_cases hdefault : -1 < d ∧ d = i
      · exact (settles_const true _).congr fun depth => if_pos hdefault
      · refine Settles.congr ?_ fun depth => if_neg hdefault
        by_cases hname : c.name ≠ c'.name
        · exact (settles_const false _).congr fun depth => if_pos hname
        · have hmem : c.type ∈ t :: cases.map Case.type :=
            List.mem_cons_of_mem _ (List.mem_map_of_mem hc)
          exact (settles_and (hcases c.type hmem c'.type) (settles_const _ _)).congr
            fun depth => if_neg hname

/-- One more flag leaves less objects without one. -/
theorem length_filter_cons_lt {recursives : List N} (hmem : x ∈ recursives) (hx : x ∉ flags) :
    (recursives.filter fun u => u ∉ x :: flags).length <
      (recursives.filter fun u => u ∉ flags).length := by
  have hfilter : (recursives.filter fun u => u ∉ x :: flags) =
      (recursives.filter fun u => u ∉ flags).filter fun u => u ≠ x := by
    rw [List.filter_filter]
    refine List.filter_congr fun u hu => ?_
    rw [← Bool.decide_and]
    exact decide_eq_decide.mpr (by rw [List.mem_cons, not_or])
  rw [hfilter, List.length_filter_lt_length_iff_exists]
  exact ⟨x, List.mem_filter.mpr ⟨hmem, decide_eq_true hx⟩, by simp⟩

/-- **`equal` settles**: a `Recursive_Type` sets one more flag, and any other object is higher than
those that it refers to. -/
theorem settles_equal (h : Heap N) (x tc : N) (flags : Flags N) :
    Settles (fun depth => equal h depth x tc flags) flags := by
  generalize hk : (h.recursives.filter fun u => u ∉ flags).length = k
  induction k using Nat.strong_induction_on generalizing x tc flags with
  | _ k ihk =>
    generalize hrank : h.rank x = rank
    induction rank using Nat.strong_induction_on generalizing x tc with
    | _ rank ihrank =>
      by_cases hsame : x = tc
      · refine (settles_const true flags).succ fun depth => ?_
        rw [equal, if_pos hsame]
      by_cases hkind : h.kind tc ≠ h.kind x
      · refine (settles_const false flags).succ fun depth => ?_
        rw [equal, if_neg hsame, if_pos hkind]
      by_cases hids : h.id x ≠ h.id tc ∨ h.name x ≠ h.name tc
      · refine (settles_const false flags).succ fun depth => ?_
        rw [equal, if_neg hsame, if_neg hkind, if_pos hids]
      refine Settles.succ (settles_equalI (not_not.mp hkind) fun hset c hc c' => ?_) fun depth => by
        rw [equal, if_neg hsame, if_neg hkind, if_neg hids]
      rw [Heap.marks]
      by_cases hrec : (h.node x).isRecursive = true
      · rw [if_pos hrec]
        refine ihk _ ?_ c c' (x :: flags) rfl
        have hx : x ∉ flags := fun hmem => hset ⟨hrec, hmem⟩
        exact hk ▸ length_filter_cons_lt (h.mem_recursives x hrec) hx
      · rw [if_neg hrec]
        exact ihrank (h.rank c) (hrank ▸ h.rank_lt x (Bool.eq_false_of_not_eq_true hrec) c hc) c c'
          rfl

end Termination

/-! ### `equal` -/

section Equal

variable {N : Type} [DecidableEq N] {h : Heap N} {a b x tc : N} {flags flags' : Flags N}
  {answer : Bool} {depth : ℕ}

omit [DecidableEq N] in
/-- What `equal` asks before `equal_i` is in the shape. -/
theorem Heap.Agree.heads_eq (hagree : h.Agree true x tc) :
    h.kind tc = h.kind x ∧ h.id x = h.id tc ∧ h.name x = h.name tc := by
  have hshape : (h.view x).shape true = (h.view tc).shape true := hagree.shape_eq
  refine ⟨?_, ?_, ?_⟩
  · rw [kind, kind, ← Node.kind_shape _ true, ← hshape, Node.kind_shape]
  · rw [← id_view, ← id_view, ← Node.id_shape _ true, hshape, Node.id_shape]
  · rw [name, name, ← Node.name_shape _ true, hshape, Node.name_shape]

/-- **An answer `false` is right**: TypeCodes that agree are found equal. -/
theorem equal_true_of (hagree : h.Agree true x tc)
    (heq : equal h depth x tc flags = some (answer, flags')) : answer = true := by
  induction depth generalizing x tc flags flags' answer with
  | zero => cases heq
  | succ depth ih =>
    obtain ⟨hkind, hid, hname⟩ := hagree.heads_eq
    rw [equal, if_neg (not_not.mpr hkind), if_neg (not_or.mpr ⟨not_not.mpr hid, not_not.mpr hname⟩)]
      at heq
    split_ifs at heq
    · cases heq
      rfl
    · exact equalI_true_of (fun c c' flags answer flags' hc => ih hc) hagree heq

theorem Heap.Returns.unique {answer' : Bool} (hr : h.Returns a b answer)
    (hr' : h.Returns a b answer') : answer = answer' := by
  obtain ⟨n, hn⟩ := hr
  obtain ⟨n', hn'⟩ := hr'
  have heq := (hn (max n n') (Nat.le_max_left _ _)).symm.trans (hn' _ (Nat.le_max_right _ _))
  exact congrArg Prod.fst (Option.some.inj heq)

/-- **What `equal` answers**, where an id stands for one definition within the second TypeCode. -/
theorem Heap.equal_spec (hb : h.SameIds b) :
    ∃ answer, h.Returns a b answer ∧ (answer = true ↔ h.Agree true a b) := by
  obtain ⟨answer, n, hn⟩ := settles_equal h a b []
  refine ⟨answer, ⟨n, hn⟩, fun htrue => ?_, fun hagree => equal_true_of hagree (hn n (Nat.le_refl n))⟩
  subst htrue
  exact agree_iff.mpr fun k => agreeTo_of_equal hb (.refl b) (fun u hu => absurd hu List.not_mem_nil)
    (hn n (Nat.le_refl n))

/-- **`equal` is right** about two TypeCodes exactly if what agrees outside the default cases of
unions agrees in them too. -/
theorem Heap.equal_right_iff (ha : h.SameIds a) (hb : h.SameIds b) :
    h.EqualRight a b ↔ (h.Agree true a b → h.Agree false a b) := by
  obtain ⟨answer, hr, htrue⟩ := equal_spec (a := a) hb
  constructor
  · rintro ⟨answer', hr', -, hright⟩ hagree
    rw [← hr'.unique hr] at htrue
    exact hright.mp (htrue.mpr hagree)
  · intro hdefault
    obtain ⟨answer', hr', htrue'⟩ := equal_spec (a := b) ha
    have hsymm : answer' = answer := by
      refine Bool.eq_iff_iff.mpr (htrue'.trans (Iff.trans ⟨fun hagree => hagree.symm, fun hagree =>
        hagree.symm⟩ htrue.symm))
    exact ⟨answer, hr, hsymm ▸ hr', htrue.trans ⟨hdefault, fun hagree => hagree.skip⟩⟩

/-- The TypeCodes in that of a `struct Node { long value; sequence<Node> next; }`. -/
inductive ListPart
  | node
  | value
  | next
  | again
  deriving DecidableEq

/-- **Lists**: the TypeCode of a struct that refers to itself, and a copy of it. -/
def lists : Heap (Bool × ListPart) where
  node
    | (copy, .node) => .struct false "IDL:Node:1.0" "Node"
      [⟨"value", (copy, .value)⟩, ⟨"next", (copy, .next)⟩] true
    | (_, .value) => .emptyParam .long
    | (copy, .next) => .sequence false (copy, .again) 0
    | (copy, .again) => .indirectedType "IDL:Node:1.0" (copy, .node)
  hasId := by
    rintro ⟨copy, _ | _ | _ | _⟩ id target htarget <;> cases htarget
    rfl
  rank
    | (_, .node) => 0
    | (_, .value) => 0
    | (_, .next) => 2
    | (_, .again) => 1
  rank_lt := by
    rintro ⟨copy, _ | _ | _ | _⟩ hrec y hy
    · cases hrec
    · cases hy
    · cases List.mem_singleton.mp hy
      exact Nat.one_lt_two
    · cases List.mem_singleton.mp hy
      exact Nat.zero_lt_one
  recursives := [(false, .node), (true, .node)]
  mem_recursives := by
    rintro ⟨copy, _ | _ | _ | _⟩ hrec <;> cases hrec
    cases copy
    · exact List.mem_cons_self
    · exact List.mem_cons_of_mem _ List.mem_cons_self

theorem lists_agree (skip copy copy' : Bool) (part : ListPart) :
    lists.Agree skip (copy, part) (copy', part) := by
  refine agree_iff.mpr fun n => ?_
  induction n generalizing part with
  | zero => exact agreeTo_zero
  | succ n ih =>
    cases part with
    | node => exact AgreeTo.step rfl (.cons (ih .value) (.cons (ih .next) .nil))
    | value => exact AgreeTo.step rfl .nil
    | next => exact AgreeTo.step rfl (.cons (ih .again) .nil)
    | again => exact AgreeTo.step rfl (.cons (ih .value) (.cons (ih .next) .nil))

theorem lists_sameIds (a : Bool × ListPart) : lists.SameIds a := by
  have hagain (copy : Bool) : lists.Agree false (copy, .again) (copy, .node) :=
    Heap.agree_target rfl false
  rintro ⟨copy, part⟩ ⟨copy', part'⟩ - - hid heq
  have hsome : lists.id (copy', part') ≠ none := heq ▸ hid
  have hpart {copy : Bool} {part : ListPart} (hid : lists.id (copy, part) ≠ none) :
      lists.Agree false (copy, part) (copy, .node) := by
    cases part with
    | node => exact lists_agree false copy copy .node
    | value => exact absurd rfl hid
    | next => exact absurd rfl hid
    | again => exact hagain copy
  exact fun path => ((hpart hid path).trans (lists_agree false copy copy' .node path)).trans
    (hpart hsome path).symm

/-- Structs have no default cases. -/
theorem equal_right_lists : lists.EqualRight (false, .node) (true, .node) :=
  (Heap.equal_right_iff (lists_sameIds _) (lists_sameIds _)).mpr fun _ =>
    lists_agree false false true .node

/-- The TypeCodes in those of `union U switch (long) { default: short u; }` and of another union of
that id and name, with a member of a type of its own. -/
inductive UnionPart
  | union (long : Bool)
  | long
  | short
  deriving DecidableEq

/-- **Unions** that differ in the type of the default case. -/
def unions : Heap UnionPart where
  node
    | .union long => .union "IDL:U:1.0" "U" .long
      [⟨.long 0, "u", if long then .long else .short⟩] 0 false
    | .long => .emptyParam .long
    | .short => .emptyParam .short
  hasId := by
    rintro (_ | _ | _) id target htarget <;> cases htarget
  rank
    | .union _ => 1
    | _ => 0
  rank_lt := by
    rintro (long | _ | _) hrec y hy
    · rcases List.mem_cons.mp hy with rfl | hy
      · exact Nat.zero_lt_one
      · cases List.mem_singleton.mp hy
        cases long <;> exact Nat.zero_lt_one
    · cases hy
    · cases hy
  recursives := []
  mem_recursives := by
    rintro (_ | _ | _) hrec <;> cases hrec

theorem unions_sameIds (long : Bool) : unions.SameIds (.union long) := by
  have hreach {x : UnionPart} (hx : Reaches (unions.members false) (.union long) x) :
      x = .union long ∨ x = .long ∨ x = .short := by
    induction hx with
    | refl => exact Or.inl rfl
    | tail _ hz ih =>
      rcases ih with rfl | rfl | rfl
      · cases long <;> (rcases List.mem_cons.mp hz with rfl | hz; exact Or.inr (Or.inl rfl)) <;>
          cases List.mem_singleton.mp hz
        · exact Or.inr (Or.inr rfl)
        · exact Or.inr (Or.inl rfl)
      · cases hz
      · cases hz
  intro x y hx hy hid heq
  rcases hreach hx with rfl | rfl | rfl
  · rcases hreach hy with rfl | rfl | rfl
    · exact Agree.refl _
    · cases heq
    · cases heq
  · exact absurd rfl hid
  · exact absurd rfl hid

/-- **The name and the type of a default case** are not compared: the unions are found equal. -/
theorem not_equal_right : unions.SameIds (.union false) ∧ unions.SameIds (.union true) ∧
    ¬unions.EqualRight (.union false) (.union true) := by
  refine ⟨unions_sameIds false, unions_sameIds true, ?_⟩
  rintro ⟨answer, ⟨n, hn⟩, -, hright⟩
  have heq (depth : ℕ) : equal unions (depth + 2) (.union false) (.union true) [] =
      some (true, []) := rfl
  have htrue : some (true, []) = some (answer, []) := (heq n).symm.trans (hn _ (Nat.le_add_right n 2))
  have hagree := hright.mp (congrArg Prod.fst (Option.some.inj htrue)).symm
  obtain ⟨-, htypes⟩ := List.forall₂_cons.mp hagree.forall₂
  have hshape := (List.forall₂_cons.mp htypes).1.shape_eq
  cases hshape

end Equal

end AceTao.AnyTypeCode
