import AceTao.Marshal.SkipSpec

/-!
# Extraction of an `any` advances to the next argument

`perform_skip` `Advances` over a value of a type when, with enough fuel, it moves a stream by exactly
the bytes of the value, from every alignment. It does if all parts of the value are `Skippable`
(`advances_of_skippable`). It does not for a sequence of wide characters in GIOP 1.2, whose elements
it takes for two bytes each (`not_advances_wcharSequence`).
-/

namespace AceTao.Marshal

open Cdr InputCDR Program

variable {R : Type} {G : R → TypeCode R} {e : Encoding R} {extract : Reader R}

/-- **The stream advances by exactly the bytes of a value.** -/
def Advances (G : R → TypeCode R) (e : Encoding R) (extract : Reader R) (r : R) (v : Value R) : Prop :=
  ∃ enough, ∀ fuel ≥ enough, ∀ s w, s.giop12 = e.giop12 → At e.doByteSwap s w →
    Agrees s (v.put e w) → ∃ t,
      MarshalObject.performSkip G extract e.wcharMaxbytes fuel r s =
        some (.ok .traverseContinue, t) ∧
      SameBuffer s t ∧ t.rdPtr = s.rdPtr + ((v.put e w).length - w.length) ∧
      At e.doByteSwap t (v.put e w)

/-- **A value with skippable parts** is skipped up to its end. -/
theorem advances_of_skippable (hn : IsWidth e.wcharMaxbytes) {r : R} {v : Value R}
    (h : HasType G e extract (Skippable G e) r v) : Advances G e extract r v := by
  obtain ⟨enough, hskip⟩ := Filter.eventually_atTop.mp (traverses_of_hasType hn h)
  refine ⟨enough, fun fuel hfuel s w hgiop hat hput => ?_⟩
  obtain ⟨t, heq, hsame, ht⟩ := hskip fuel hfuel s w hgiop hat hput
  have hle := (v.prefix_put (e := e) w).length_le
  refine ⟨t, heq, hsame, ?_, ht⟩
  rw [ht.rdPtr, hat.rdPtr, hsame.base]
  omega

section Example

/-- A recursive structure: a number, an `any`, and a sequence of such structures. -/
def nodeTypes : Fin 4 → TypeCode (Fin 4)
  | 0 => .struct [1, 2, 3]
  | 1 => .long
  | 2 => .any
  | 3 => .sequence 0

/-- The extraction of the TypeCode of a number. -/
def extractLong : Reader (Fin 4) := do
  let kind ← readUlong
  if kind = TCKind.long.toULong then pure 1 else fail .content

def longImage : TypeCodeImage :=
  ⟨.long, .none, rfl, TCKind.noConfusion, TCKind.noConfusion, TCKind.noConfusion⟩

def node (value held : ULong) (children : List (Value (Fin 4))) : Value (Fin 4) :=
  .struct [.scalar .long value, .any 1 (.scalar .long held), .sequence children]

/-- The byte order of the other hosts, in GIOP 1.2. -/
def swapped12 : Encoding (Fin 4) := ⟨true, true, 4, fun _ => longImage⟩

theorem extracts_long : Extracts swapped12 extractLong 1 := by
  intro s w _ hat hput
  exact (reads_putUlong hat hput).bind fun t _ ht => reads_pure ht _

theorem hasType_node (value held : ULong) {children : List (Value (Fin 4))}
    (hlen : children.length < 2 ^ 32)
    (h : ∀ v ∈ children, HasType nodeTypes swapped12 extractLong (Skippable nodeTypes swapped12) 0 v) :
    HasType nodeTypes swapped12 extractLong (Skippable nodeTypes swapped12) 0
      (node value held children) := by
  have hlong (x : ULong) : HasType nodeTypes swapped12 extractLong
      (Skippable nodeTypes swapped12) 1 (.scalar .long x) :=
    .leaf (.scalar (x := .long) rfl x) trivial
  refine .struct rfl rfl (fun i h₁ h₂ => ?_) trivial
  match i, h₁, h₂ with
  | 0, _, _ => exact hlong value
  | 1, _, _ => exact .any rfl extracts_long (hlong held) trivial
  | 2, _, _ =>
    refine .sequence rfl hlen h fun content hcontent _ hwchar => ?_
    cases hcontent
    cases hwchar

/-- A tree of two structures is skipped. -/
theorem advances_of_tree : Advances nodeTypes swapped12 extractLong 0 (node 7 8 [node 9 10 []]) :=
  advances_of_skippable (Or.inr (Or.inr rfl)) (hasType_node 7 8 (by decide) fun v hv =>
    List.mem_singleton.mp hv ▸ hasType_node 9 10 (by decide) fun _ h => absurd h List.not_mem_nil)

end Example

/-! ### Values that are not skipped -/

section Example

/-- Sequences of wide characters. -/
def wcharSequenceTypes : Fin 2 → TypeCode (Fin 2)
  | 0 => .sequence 1
  | 1 => .wchar

/-- The byte order of the host, in GIOP 1.2, with wide characters of four bytes. -/
def native12 : Encoding (Fin 2) := ⟨false, true, 4, fun _ => longImage⟩

def twoWchars : Value (Fin 2) := .sequence [.wchar 65, .wchar 66]

/-- Each character is behind an octet with its size. -/
def twoWcharsStream : InputCDR where
  base := 0
  data := [2, 0, 0, 0, 4, 65, 0, 0, 0, 4, 66, 0, 0, 0]
  rdPtr := 0
  doByteSwap := false
  goodBit := true
  majorVersion := 1
  minorVersion := 2
  fits := by decide

theorem hasType_twoWchars (extract : Reader (Fin 2)) :
    HasType wcharSequenceTypes native12 extract (fun _ _ => True) 0 twoWchars := by
  refine .sequence rfl (by decide) (fun v hv => ?_) trivial
  rcases List.mem_pair.mp hv with rfl | rfl
  · exact .leaf (.wchar 65 (by decide)) trivial
  · exact .leaf (.wchar 66 (by decide)) trivial

theorem performSkip_twoWchars (extract : Reader (Fin 2)) (fuel : ℕ) :
    MarshalObject.performSkip wcharSequenceTypes extract 4 (fuel + 1) 0 twoWcharsStream =
      some (.ok .traverseContinue, twoWcharsStream.setRdPtr 8) :=
  rfl

/-- **Two bytes for each wide character** are skipped, where there are five. -/
theorem not_advances_wcharSequence :
    HasType wcharSequenceTypes native12 (fail .content) (fun _ _ => True) 0 twoWchars ∧
      ¬Advances wcharSequenceTypes native12 (fail .content) 0 twoWchars := by
  refine ⟨hasType_twoWchars _, fun ⟨enough, hskip⟩ => ?_⟩
  have hbytes : twoWchars.put native12 [] = twoWcharsStream.data.map some := by decide
  have hput : Agrees twoWcharsStream (twoWchars.put native12 []) := by
    refine ⟨[], ?_⟩
    rw [hbytes, List.append_nil, Holds, List.forall₂_map_right_iff]
    exact List.forall₂_same.mpr fun b _ y hy => Option.some.inj hy
  have hat : At false twoWcharsStream [] :=
    ⟨rfl, dvd_zero 8, rfl, rfl, hput.mono List.nil_prefix⟩
  obtain ⟨t, heq, -, hrd, -⟩ := hskip (enough + 1) (Nat.le_succ _) twoWcharsStream [] rfl hat hput
  cases Option.some.inj ((performSkip_twoWchars _ enough).symm.trans heq)
  rw [hbytes] at hrd
  exact absurd hrd (by decide)

end Example

end AceTao.Marshal
