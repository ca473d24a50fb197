import Mathlib.Algebra.GroupWithZero.Nat
import Mathlib.Data.List.Basic
import Mathlib.Data.Nat.Notation
import Mathlib.Order.Basic
import Mathlib.Order.Nat

/-!
# The textual form of an object key: the code

`TAO::ObjectKey::encode_sequence_to_string` writes an octet that is not legal in a key as `%` and two
hexadecimal digits, and `decode_string_to_sequence` reads such an escape back, or one that starts
with a backslash. A string is its characters in front of the null character that ends it. A read
behind this character has no answer. The classes of characters are those of the locale `"C"`.
-/

namespace AceTao.ObjectKey

/-! ### Characters -/

def isdigit (c : UInt8) : Bool := 48 ≤ c && c ≤ 57

def islower (c : UInt8) : Bool := 97 ≤ c && c ≤ 122

def isalnum (c : UInt8) : Bool := isdigit c || islower c || 65 ≤ c && c ≤ 90

/-- The other characters of **`is_legal`**: `;/:?@&=+$,_.!~*'-()`. -/
def legalMarks : List UInt8 :=
  [59, 47, 58, 63, 64, 38, 61, 43, 36, 44, 95, 46, 33, 126, 42, 39, 45, 40, 41]

def isLegal (c : UInt8) : Bool := isalnum c || legalMarks.contains c

/-- `'%'`. -/
def percent : UInt8 := 37

/-- `'\\'`. -/
def backslash : UInt8 := 92

def hexDigits : List UInt8 := [48, 49, 50, 51, 52, 53, 54, 55, 56, 57, 97, 98, 99, 100, 101, 102]

/-- **`ACE::nibble2hex`.** -/
def nibble2hex (n : UInt8) : UInt8 := hexDigits.getD (n &&& 0x0f).toNat 0

/-- **`ACE::hex2byte`.** -/
def hex2byte (c : UInt8) : UInt8 :=
  if isdigit c then c - 48
  else if islower c then 10 + c - 97
  else 10 + c - 65

/-! ### `encode_sequence_to_string` -/

/-- The characters for one octet. -/
def encodeOctet (bt : UInt8) : List UInt8 :=
  if isLegal bt then [bt]
  else [percent, nibble2hex ((bt >>> 4) &&& 0x0f), nibble2hex (bt &&& 0x0f)]

/-- The loop, with the characters that are written: it stops where there is no room. -/
def encodeLoop (len : ℕ) : List UInt8 → List UInt8 → List UInt8
  | [], str => str
  | bt :: seq, str => if str.length < len then encodeLoop len seq (str ++ encodeOctet bt) else str

/-- **`encode_sequence_to_string`**: the number of characters that are allocated, and the string. -/
def encodeSequenceToString (seq : List UInt8) : ℕ × List UInt8 :=
  let len := 3 * seq.length % 2 ^ 32
  (len + 1, encodeLoop len seq [])

/-! ### `decode_string_to_sequence` -/

/-- A character of a string, or the null character behind it. -/
def charAt (str : List UInt8) (i : ℕ) : Option UInt8 := (str ++ [0])[i]?

/-- The loop at the character `cp`, with the octets that there is still room for. -/
def decodeLoop (str : List UInt8) : ℕ → ℕ → Option (List UInt8)
  | 0, _ => some []
  | n + 1, cp =>
    if cp < str.length then do
      let c ← charAt str cp
      if c = percent ∨ c = backslash then
        let hi ← charAt str (cp + 1)
        let lo ← charAt str (cp + 2)
        let seq ← decodeLoop str n (cp + 3)
        some ((hex2byte hi <<< 4 ||| hex2byte lo) :: seq)
      else
        let seq ← decodeLoop str n (cp + 1)
        some (c :: seq)
    else some []

/-- The length that is reserved for the sequence. -/
def decodedLength (str : List UInt8) : ℕ := min str.length (2 ^ 32 - 1)

/-- **`decode_string_to_sequence`.** -/
def decodeStringToSequence (str : List UInt8) : Option (List UInt8) :=
  decodeLoop str (decodedLength str) 0

end AceTao.ObjectKey

/-!
## The textual form of an object key is read back

The decoder cuts a string into pieces: a single character, or an escape character and what it takes
of the two characters behind it (`ObjectKey.pieces`). The pieces of the textual form of a key are
those of its octets, so that the key is read back (`ObjectKey.encode_spec`). The reads of the
decoder stay inside a string unless the last piece is an escape character with nothing behind it
(`ObjectKey.isSome_decodeLoop`).
-/

namespace AceTao.ObjectKey

variable {str seq pre : List UInt8} {c : UInt8}

/-! ### Pieces of a string -/

abbrev IsEscape (c : UInt8) : Prop := c = percent ∨ c = backslash

/-- **The pieces** into which the decoder cuts a string. -/
def pieces : List UInt8 → List (List UInt8)
  | [] => []
  | c :: str => if IsEscape c then (c :: str.take 2) :: pieces (str.drop 2) else [c] :: pieces str
  termination_by str => str.length
  decreasing_by all_goals simp <;> omega

theorem pieces_nil : pieces [] = [] := by rw [pieces]

theorem pieces_cons (c : UInt8) (str : List UInt8) : pieces (c :: str) =
    if IsEscape c then (c :: str.take 2) :: pieces (str.drop 2) else [c] :: pieces str := by
  rw [pieces]

theorem length_pieces_le (str : List UInt8) : (pieces str).length ≤ str.length := by
  induction str using pieces.induct with
  | case1 => exact (congrArg List.length pieces_nil).le
  | case2 c str hc ih =>
    rw [pieces_cons, if_pos hc, List.length_cons, List.length_cons]
    exact Nat.succ_le_succ (ih.trans ((List.length_drop ..).trans_le (Nat.sub_le ..)))
  | case3 c str hc ih =>
    rw [pieces_cons, if_neg hc, List.length_cons, List.length_cons]
    exact Nat.succ_le_succ ih

/-- An escape character, or one that stands for itself. -/
def LegalPiece (p : List UInt8) : Prop :=
  (∃ c, p = [c] ∧ isLegal c = true) ∨
    ∃ hi lo, p = [percent, hi, lo] ∧ hi ∈ hexDigits ∧ lo ∈ hexDigits

/-! ### One octet -/

theorem forall_octet {p : UInt8 → Prop} (h : ∀ i : Fin 256, p (UInt8.ofFin i)) (c : UInt8) : p c :=
  h c.toFin

theorem ne_of_isLegal : isLegal c = true → c ≠ 0 ∧ ¬IsEscape c := by
  refine @forall_octet (fun c => isLegal c = true → c ≠ 0 ∧ ¬IsEscape c) ?_ c
  decide +kernel

/-- **The digits of an octet** are put together again. -/
theorem octet_of_digits (bt : UInt8) : hex2byte (nibble2hex ((bt >>> 4) &&& 0x0f)) <<< 4 |||
    hex2byte (nibble2hex (bt &&& 0x0f)) = bt := by
  refine @forall_octet (fun bt => hex2byte (nibble2hex ((bt >>> 4) &&& 0x0f)) <<< 4 |||
    hex2byte (nibble2hex (bt &&& 0x0f)) = bt) ?_ bt
  decide +kernel

theorem nibble2hex_mem (n : UInt8) : nibble2hex n ∈ hexDigits := by
  refine @forall_octet (fun n => nibble2hex n ∈ hexDigits) ?_ n
  decide +kernel

theorem legalPiece_encodeOctet (bt : UInt8) : LegalPiece (encodeOctet bt) := by
  rw [encodeOctet]
  split_ifs with h
  · exact Or.inl ⟨bt, rfl, h⟩
  · exact Or.inr ⟨_, _, rfl, nibble2hex_mem _, nibble2hex_mem _⟩

theorem length_encodeOctet (bt : UInt8) :
    1 ≤ (encodeOctet bt).length ∧ (encodeOctet bt).length ≤ 3 := by
  rw [encodeOctet]
  split_ifs
  · exact ⟨le_rfl, Nat.le_of_ble_eq_true rfl⟩
  · exact ⟨Nat.le_of_ble_eq_true rfl, le_rfl⟩

theorem zero_notMem_of_legalPiece {p : List UInt8} (h : LegalPiece p) : 0 ∉ p := by
  have hdigits : (0 : UInt8) ∉ hexDigits := by decide
  rcases h with ⟨c, rfl, hc⟩ | ⟨hi, lo, rfl, hhi, hlo⟩
  · rw [List.mem_singleton]
    exact (ne_of_isLegal hc).1.symm
  · intro hmem
    rcases List.mem_cons.mp hmem with h0 | hmem
    · cases h0
    · rcases List.mem_pair.mp hmem with rfl | rfl
      · exact hdigits hhi
      · exact hdigits hlo

theorem pieces_encodeOctet (bt : UInt8) (str : List UInt8) :
    pieces (encodeOctet bt ++ str) = encodeOctet bt :: pieces str := by
  rw [encodeOctet]
  split_ifs with h
  · rw [List.singleton_append, pieces_cons, if_neg (ne_of_isLegal h).2]
  · rw [List.cons_append, pieces_cons, if_pos (Or.inl rfl)]
    rfl

/-- **The pieces of the textual form.** -/
theorem pieces_flatMap (seq : List UInt8) :
    pieces (seq.flatMap encodeOctet) = seq.map encodeOctet := by
  induction seq with
  | nil => exact pieces_nil
  | cons bt seq ih => rw [List.flatMap_cons, pieces_encodeOctet, ih, List.map_cons]

/-! ### The loops -/

theorem length_flatMap_le (seq : List UInt8) :
    seq.length ≤ (seq.flatMap encodeOctet).length ∧
      (seq.flatMap encodeOctet).length ≤ 3 * seq.length := by
  induction seq with
  | nil => exact ⟨le_rfl, le_rfl⟩
  | cons bt seq ih =>
    have hlen := length_encodeOctet bt
    rw [List.flatMap_cons, List.length_append, List.length_cons]
    omega

/-- **There is room for every octet.** -/
theorem encodeLoop_eq {len : ℕ} (h : str.length + 3 * seq.length ≤ len) :
    encodeLoop len seq str = str ++ seq.flatMap encodeOctet := by
  induction seq generalizing str with
  | nil => exact (List.append_nil _).symm
  | cons bt seq ih =>
    have hlen := length_encodeOctet bt
    rw [List.length_cons] at h
    rw [encodeLoop, if_pos (by omega), ih (by rw [List.length_append]; omega), List.flatMap_cons,
      List.append_assoc]

theorem charAt_append (i : ℕ) : charAt (pre ++ str) (pre.length + i) = (str ++ [0])[i]? := by
  rw [charAt, List.append_assoc, List.getElem?_append_right (Nat.le_add_right ..),
    Nat.add_sub_cancel_left]

theorem decodeLoop_of_le {n cp : ℕ} (h : str.length ≤ cp) : decodeLoop str n cp = some [] := by
  cases n with
  | zero => rfl
  | succ n => rw [decodeLoop, if_neg (Nat.not_lt.mpr h)]

/-- At a character that stands for itself. -/
theorem decodeLoop_single {n : ℕ} (hc : ¬IsEscape c) :
    decodeLoop (pre ++ c :: str) (n + 1) pre.length =
      (decodeLoop ((pre ++ [c]) ++ str) n (pre ++ [c]).length).map (c :: ·) := by
  have hat := @charAt_append (c :: str) pre 0
  rw [Nat.add_zero, List.cons_append, List.getElem?_cons_zero] at hat
  rw [decodeLoop, if_pos (by simp), hat, Option.bind_eq_bind, Option.bind_some, if_neg hc,
    List.append_assoc, List.singleton_append, List.length_append, List.length_singleton]
  cases decodeLoop (pre ++ c :: str) n (pre.length + 1) <;> rfl

/-- **At an escape character** with at least one character behind it. -/
theorem decodeLoop_escape {n : ℕ} {hi : UInt8} (hc : IsEscape c) :
    decodeLoop (pre ++ c :: hi :: str) (n + 1) pre.length =
      (decodeLoop (pre ++ c :: hi :: str) n (pre.length + 3)).map
        ((hex2byte hi <<< 4 ||| hex2byte (str.headD 0)) :: ·) := by
  have hat := @charAt_append (c :: hi :: str) pre 0
  have hat₁ := @charAt_append (c :: hi :: str) pre 1
  have hat₂ := @charAt_append (c :: hi :: str) pre 2
  have hlo : (c :: hi :: str ++ [0])[2]? = some (str.headD 0) := by
    cases str <;> rfl
  rw [Nat.add_zero, List.cons_append, List.getElem?_cons_zero] at hat
  rw [List.cons_append, List.getElem?_cons_succ, List.cons_append, List.getElem?_cons_zero] at hat₁
  rw [hlo] at hat₂
  rw [decodeLoop, if_pos (by simp), hat, Option.bind_eq_bind, Option.bind_some, if_pos hc, hat₁,
    Option.bind_some, hat₂, Option.bind_some]
  cases decodeLoop (pre ++ c :: hi :: str) n (pre.length + 3) <;> rfl

/-- **At an escape character that ends the string**, the second digit is behind the string. -/
theorem decodeLoop_last {n : ℕ} (hc : IsEscape c) :
    decodeLoop (pre ++ [c]) (n + 1) pre.length = none := by
  have hat := @charAt_append ([c]) pre 0
  have hat₁ := @charAt_append ([c]) pre 1
  have hat₂ := @charAt_append ([c]) pre 2
  rw [Nat.add_zero] at hat
  rw [decodeLoop, if_pos (by simp), hat]
  have hnil : (([c] ++ [0] : List UInt8)[0]?) = some c := rfl
  rw [hnil, Option.bind_eq_bind, Option.bind_some, if_pos hc, hat₁, hat₂]
  rfl

/-- **The reads stay inside** while no piece is an escape character alone. -/
theorem isSome_decodeLoop (n : ℕ) : (decodeLoop (pre ++ str) n pre.length).isSome = true ↔
    ∀ p ∈ (pieces str).take n, p ≠ [percent] ∧ p ≠ [backslash] := by
  induction str using pieces.induct generalizing pre n with
  | case1 =>
    rw [pieces_nil, List.take_nil, decodeLoop_of_le (by rw [List.append_nil])]
    exact ⟨fun _ p hp => absurd hp List.not_mem_nil, fun _ => rfl⟩
  | case2 c str hc ih =>
    cases n with
    | zero => exact ⟨fun _ p hp => absurd hp List.not_mem_nil, fun _ => rfl⟩
    | succ n =>
      rw [pieces_cons, if_pos hc, List.take_succ_cons, List.forall_mem_cons]
      rcases str with _ | ⟨hi, _ | ⟨lo, str⟩⟩
      · rw [decodeLoop_last hc]
        refine iff_of_false Bool.false_ne_true fun h => ?_
        rcases hc with rfl | rfl
        · exact absurd rfl h.1.1
        · exact absurd rfl h.1.2
      · rw [decodeLoop_escape hc, Option.isSome_map, decodeLoop_of_le (by simp)]
        refine ⟨fun _ => ⟨⟨by simp, by simp⟩, fun p hp => ?_⟩, fun _ => rfl⟩
        rw [List.drop_eq_nil_of_le (by simp), pieces_nil, List.take_nil] at hp
        exact absurd hp List.not_mem_nil
      · have hstep := @ih (pre ++ [c, hi, lo]) n
        rw [List.append_assoc, List.length_append] at hstep
        rw [decodeLoop_escape hc, Option.isSome_map]
        exact hstep.trans ⟨fun h => ⟨⟨by simp, by simp⟩, h⟩, fun h => h.2⟩
  | case3 c str hc ih =>
    cases n with
    | zero => exact ⟨fun _ p hp => absurd hp List.not_mem_nil, fun _ => rfl⟩
    | succ n =>
      rw [pieces_cons, if_neg hc, List.take_succ_cons, List.forall_mem_cons, decodeLoop_single hc,
        Option.isSome_map, ih]
      refine ⟨fun h => ⟨⟨fun heq => hc (Or.inl ?_), fun heq => hc (Or.inr ?_)⟩, h⟩, fun h => h.2⟩
      · exact List.singleton_inj.mp heq
      · exact List.singleton_inj.mp heq

/-- **The textual form is read back.** -/
theorem decodeLoop_flatMap {n : ℕ} (h : seq.length ≤ n) :
    decodeLoop (pre ++ seq.flatMap encodeOctet) n pre.length = some seq := by
  induction seq generalizing pre n with
  | nil => exact decodeLoop_of_le (by simp)
  | cons bt seq ih =>
    obtain ⟨n, rfl⟩ := Nat.exists_eq_succ_of_ne_zero (Nat.ne_of_gt (Nat.zero_lt_of_lt h))
    have hn : seq.length ≤ n := Nat.le_of_succ_le_succ h
    rw [List.flatMap_cons, encodeOctet]
    split_ifs with hlegal
    · rw [List.singleton_append, decodeLoop_single (ne_of_isLegal hlegal).2, ih hn]
      rfl
    · have hrest := @ih (pre ++ [percent, nibble2hex ((bt >>> 4) &&& 0x0f),
        nibble2hex (bt &&& 0x0f)]) n hn
      rw [List.append_assoc, List.length_append] at hrest
      refine (decodeLoop_escape (Or.inl rfl)).trans ?_
      refine (congrArg (Option.map _) hrest).trans ?_
      rw [Option.map_some]
      exact congrArg (fun o => some (o :: seq)) (octet_of_digits bt)

/-! ### Every key and every string -/

/-- **What the encoder does**: the string fits into its allocation, it has no null character, its
pieces are legal, and it is decoded to the octets. -/
structure Encoded (seq : List UInt8) (size : ℕ) (str : List UInt8) : Prop where
  fits : str.length + 1 ≤ size
  noNul : 0 ∉ str
  legal : ∀ p ∈ pieces str, LegalPiece p
  decoded : decodeStringToSequence str = some seq

theorem encode_spec (h : 3 * seq.length < 2 ^ 32) :
    Encoded seq (encodeSequenceToString seq).1 (encodeSequenceToString seq).2 := by
  have hmod : 3 * seq.length % 2 ^ 32 = 3 * seq.length := Nat.mod_eq_of_lt h
  have hstr : (encodeSequenceToString seq).2 = seq.flatMap encodeOctet := by
    rw [encodeSequenceToString]
    dsimp only
    rw [hmod]
    exact encodeLoop_eq (Nat.zero_add _).le
  have hlen := length_flatMap_le seq
  have hlegal : ∀ p ∈ seq.map encodeOctet, LegalPiece p := by
    intro p hp
    obtain ⟨bt, -, rfl⟩ := List.mem_map.mp hp
    exact legalPiece_encodeOctet bt
  rw [hstr]
  refine ⟨?_, fun h0 => ?_, ?_, ?_⟩
  · rw [encodeSequenceToString]
    dsimp only
    omega
  · obtain ⟨bt, -, hbt⟩ := List.mem_flatMap.mp h0
    exact zero_notMem_of_legalPiece (legalPiece_encodeOctet bt) hbt
  · rw [pieces_flatMap]
    exact hlegal
  · have hmin : seq.length ≤ decodedLength (seq.flatMap encodeOctet) := by
      rw [decodedLength]
      omega
    exact @decodeLoop_flatMap seq [] _ hmin

/-- **No escape is cut off**, among the pieces that a sequence has room for. -/
def Complete (str : List UInt8) : Prop :=
  ∀ p ∈ (pieces str).take (2 ^ 32 - 1), p ≠ [percent] ∧ p ≠ [backslash]

/-- **Every key survives its textual form**; the reads of the decoder stay inside a string if and
only if no escape is cut off. -/
theorem textual_iff (seq str : List UInt8) : (3 * seq.length < 2 ^ 32 →
      Encoded seq (encodeSequenceToString seq).1 (encodeSequenceToString seq).2) ∧
    ((decodeStringToSequence str).isSome = true ↔ Complete str) := by
  refine ⟨fun h => encode_spec h, ?_⟩
  have htake : (pieces str).take (decodedLength str) = (pieces str).take (2 ^ 32 - 1) := by
    have hlen := length_pieces_le str
    rw [decodedLength]
    rcases Nat.le_total str.length (2 ^ 32 - 1) with hle | hle
    · rw [Nat.min_eq_left hle, List.take_of_length_le hlen, List.take_of_length_le (hlen.trans hle)]
    · rw [Nat.min_eq_right hle]
  rw [Complete, ← htake]
  exact @isSome_decodeLoop str [] _

/-- A key with an octet that must be escaped, and a string whose last escape is cut off. -/
theorem textual_of_escapes : (∃ size str, encodeSequenceToString [97, 0, 92] = (size, str) ∧
    Encoded [97, 0, 92] size str) ∧
    ((decodeStringToSequence [97, 37]).isSome = true ↔ Complete [97, 37]) :=
  ⟨⟨_, _, rfl, (textual_iff [97, 0, 92] [97, 37]).1 (by decide)⟩, (textual_iff [] [97, 37]).2⟩

/-- **A percent sign at the end of a string.** -/
theorem decode_cutOff : decodeStringToSequence [percent] = none := rfl

end AceTao.ObjectKey
