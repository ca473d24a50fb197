import AceTao.Cdr.Input
import AceTao.Cdr.Fragmentation
import AceTao.Cdr.ReadBack

/-!
# The round trip of typed values

A list of values is written to a stream, with any fragmentation, and read back in the same order
from the stream that is constructed from it (`RoundTrips`). A string is read back in one of three
forms. The operations are chosen by the types and, for arrays, by the lengths (`Kind`), and not by
the values.

The values are the same and nothing is left, for all lists of values whose strings are shorter than
2³² - 1 characters (`roundTrips_of_short`): the length of a string, with its terminator, is a
`ULong` in the stream. The string of 2³² - 1 characters is written without its characters.
-/

namespace AceTao.Cdr

open Program ByteImage AlignUp

/-- What there is to read. -/
inductive Kind
  | scalar (x : Scalar)
  | boolean
  | char
  | string (form : StringForm)
  | array (x : Scalar) (length : ULong)
  | booleanArray (length : ULong)
  | charArray (length : ULong)

abbrev Kind.Value : Kind → Type
  | .scalar x => x.Value
  | .boolean => Bool
  | .char => Octet
  | .string _ => List Octet
  | .array x _ => List x.Value
  | .booleanArray _ => List Bool
  | .charArray _ => List Octet

/-- An array of characters holds a string with its terminator. -/
def StringForm.stored (cs : List Octet) : StringForm → List Octet
  | .chars => cs ++ [0]
  | .aceString | .stdString => cs

namespace Datum

/-- What there is to read where a value was written. -/
abbrev kind (form : StringForm) : Datum → Kind
  | .scalar x _ => .scalar x
  | .boolean _ => .boolean
  | .char _ => .char
  | .string _ => .string form
  | .array x vs _ => .array x (BitVec.ofNat 32 vs.length)
  | .booleanArray bs _ => .booleanArray (BitVec.ofNat 32 bs.length)
  | .charArray cs _ => .charArray (BitVec.ofNat 32 cs.length)

/-- The value that was written. -/
abbrev value (form : StringForm) : (d : Datum) → (d.kind form).Value
  | .scalar _ v => v
  | .boolean b => b
  | .char c => c
  | .string cs => form.stored cs
  | .array _ vs _ => vs
  | .booleanArray bs _ => bs
  | .charArray cs _ => cs

/-- Strings have no embedded NUL. -/
def NoNul : Datum → Prop
  | .string cs => (0 : Octet) ∉ cs
  | _ => True

/-- The length of a string, with its terminator, is a `ULong`. -/
def Short : Datum → Prop
  | .string cs => cs.length + 1 < 2 ^ 32
  | _ => True

end Datum

namespace InputCDR

/-- The operation that reads a value. -/
def readKind (c : Codeset) : (k : Kind) → Reader k.Value
  | .scalar x => readScalar x
  | .boolean => readBoolean
  | .char => readChar c
  | .string .chars => readString c
  | .string .aceString => readAceString c
  | .string .stdString => readStdString c
  | .array x length => readScalarArray length x
  | .booleanArray length => readBooleanArray length
  | .charArray length => readCharArray c length

/-- Values are read one after the other, as long as the operations succeed. -/
def readAll (c : Codeset) : List Kind → Reader (List ((k : Kind) × k.Value))
  | [] => pure []
  | k :: ks => do
    let x ← readKind c k
    let xs ← readAll c ks
    pure (⟨k, x⟩ :: xs)

variable {swap : Bool} {s : InputCDR} {w : Wire} {n : ℕ}

/-! ### Booleans and characters -/

theorem reads_readBoolean (h : At swap s w) {b : Bool}
    (hput : Agrees s (put 1 (image 1 (booleanOctet b)) w)) :
    Reads swap readBoolean b s (put 1 (image 1 (booleanOctet b)) w) := by
  obtain ⟨t, heq, hsame, ht⟩ := reads_read1 h hput
  refine ⟨t.setGoodBit (booleanOctet b &&& ~~~1 == 0), ?_,
    ⟨hsame.base, hsame.data, hsame.giop12⟩, ht.doByteSwap, ht.base, ?_, ht.rdPtr, ht.agrees⟩
  · rw [readBoolean, readOctet, bind_of_ok heq, modify_bind_apply, get_bind_apply]
    rcases b with _ | _ <;> rfl
  · rcases b with _ | _ <;> rfl

/-- The bytes of an array of octets. -/
theorem putArray_one (swap : Bool) (xs : List Octet) (w : Wire) :
    putArray 1 swap 1 xs w = w ++ (xs.flatMap (image 1)).map some := by
  have hwire : wireImage 1 swap = image 1 := funext (wireImage_one swap)
  rw [putArray]
  split_ifs with hnil
  · rw [hnil, List.flatMap_nil, List.map_nil, List.append_nil]
  · rw [put_one, hwire]

theorem putArray_one_append (swap : Bool) (xs ys : List Octet) (w : Wire) :
    putArray 1 swap 1 (xs ++ ys) w = putArray 1 swap 1 ys (putArray 1 swap 1 xs w) := by
  rw [putArray_one, putArray_one, putArray_one, List.flatMap_append, List.map_append,
    List.append_assoc]

theorem putArray_one_singleton (swap : Bool) (x : Octet) (w : Wire) :
    putArray 1 swap 1 [x] w = put 1 (image 1 x) w := by
  rw [putArray_one, put_one, List.flatMap_singleton]

theorem putArray_one_cons (swap : Bool) (x : Octet) (xs : List Octet) (w : Wire) :
    putArray 1 swap 1 (x :: xs) w = putArray 1 swap 1 xs (put 1 (image 1 x) w) := by
  rw [← putArray_one_singleton swap, ← putArray_one_append, List.singleton_append]

/-- Booleans are inserted one by one, as the array of their octets. -/
theorem foldl_put_boolean (swap : Bool) (bs : List Bool) (w : Wire) :
    bs.foldl (fun w b => put 1 (image 1 (booleanOctet b)) w) w =
      putArray 1 swap 1 (bs.map booleanOctet) w := by
  induction bs generalizing w with
  | nil => rfl
  | cons b bs ih => rw [List.foldl_cons, ih, List.map_cons, putArray_one_cons]

theorem reads_readBooleans (bs : List Bool) (h : At swap s w)
    (hput : Agrees s (putArray 1 swap 1 (bs.map booleanOctet) w)) :
    Reads swap (readBooleans bs.length) bs s (putArray 1 swap 1 (bs.map booleanOctet) w) := by
  induction bs generalizing s w with
  | nil => exact ⟨s, returnGoodBit_eq h.good _, SameBuffer.refl s, h⟩
  | cons b bs ih =>
    rw [List.map_cons, putArray_one_cons] at hput ⊢
    have hreads : Reads swap (readBoolean >>= fun x => readBooleans bs.length >>= fun xs =>
        pure (x :: xs)) (b :: bs) s _ :=
      (reads_readBoolean h (hput.mono (prefix_putArray ..))).bind fun t hsame ht =>
        (ih ht (hsame.agrees hput)).bind fun u _ hu => reads_pure hu (b :: bs)
    obtain ⟨t, heq, ht⟩ := hreads
    refine ⟨t, ?_, ht⟩
    rw [List.length_cons, readBooleans, get_bind_apply, if_pos h.good, heq]

theorem reads_readBooleanArray (bs : List Bool) {length : ULong}
    (hlen : length.toNat = bs.length) (h : At swap s w)
    (hput : Agrees s (putArray 1 swap 1 (bs.map booleanOctet) w)) :
    Reads swap (readBooleanArray length) bs s
      (putArray 1 swap 1 (bs.map booleanOctet) w) := by
  have hle := h.le_length isAlign_one hput
  rw [Nat.one_mul, List.length_map] at hle
  obtain ⟨t, heq, ht⟩ := reads_readBooleans bs h hput
  refine ⟨t, ?_, ht⟩
  rw [readBooleanArray, get_bind_apply, if_neg (by omega), hlen, heq]

theorem reads_readCharArray {xs : List Octet} {length : ULong} (hlen : length.toNat = xs.length)
    (h : At swap s w) (hput : Agrees s (putArray 1 swap 1 xs w)) :
    Reads swap (readCharArray (Codeset.plain n) length) xs s (putArray 1 swap 1 xs w) := by
  have hlt : xs.length < 2 ^ 32 := hlen ▸ length.isLt
  have hle := h.le_length isAlign_one hput
  rw [Nat.one_mul] at hle
  obtain ⟨t, heq, ht⟩ := reads_readArray h isAlign_one (Or.inl rfl) hlt hput
  have himage : ofArrayImage 1 xs.length (arrayImage 1 xs) = xs := @ofArrayImage_arrayImage 1 xs
  refine ⟨t, ?_, ht⟩
  rw [readCharArray, get_bind_apply, if_neg (by omega), hlen]
  exact (bind_of_ok heq).trans (by rw [himage, pure_apply])

/-! ### Strings -/

/-- The bytes of a string are its length and its characters, with the terminator. -/
theorem putString_eq {cs : List Octet} (hshort : cs.length + 1 < 2 ^ 32) (swap : Bool) (w : Wire) :
    putString swap cs w = putArray 1 swap 1 (cs ++ [0])
      (put 4 (wireImage 4 swap (BitVec.ofNat 32 (cs.length + 1))) w) := by
  have hsucc : BitVec.ofNat 32 cs.length + 1 = BitVec.ofNat 32 (cs.length + 1) :=
    (BitVec.ofNat_add cs.length 1).symm
  have hnat : (BitVec.ofNat 32 (cs.length + 1)).toNat = (cs ++ [0]).length := by
    rw [BitVec.toNat_ofNat, Nat.mod_eq_of_lt hshort, List.length_append, List.length_singleton]
  rw [putString]
  split_ifs with hzero
  · have hnil : cs = [] := by
      have hlen := congrArg BitVec.toNat hzero
      rw [BitVec.toNat_ofNat, Nat.mod_eq_of_lt (by omega)] at hlen
      exact List.eq_nil_of_length_eq_zero hlen
    rw [hnil, List.nil_append, putArray_one_singleton]
    rfl
  · rw [hsucc, hnat, List.take_length]

theorem cString_append {cs : List Octet} (h : (0 : Octet) ∉ cs) : cString (cs ++ [0]) = cs := by
  rw [cString, List.takeWhile_append_of_pos]
  · simp
  · intro c hc
    exact decide_eq_true fun hzero => h (hzero ▸ hc)

/-- The length of a string is read, and its characters are left. -/
theorem reads_length {cs : List Octet} (h : At swap s w) (hshort : cs.length + 1 < 2 ^ 32)
    (hput : Agrees s (putString swap cs w)) : ∃ t len, readUlong s = some (.ok len, t) ∧
      SameBuffer s t ∧ At swap t (put 4 (wireImage 4 swap len) w) ∧
      len.toNat = (cs ++ [0]).length ∧ len.toNat ≤ t.length ∧
      putString swap cs w = putArray 1 swap 1 (cs ++ [0]) (put 4 (wireImage 4 swap len) w) := by
  have hstring := putString_eq hshort swap w
  rw [hstring] at hput
  obtain ⟨t, heq, hsame, ht⟩ := reads_readWord h isAlign_four (by norm_num)
    (hput.mono (prefix_putArray ..))
  have hle := ht.le_length isAlign_one (hsame.agrees hput)
  have hnat : (BitVec.ofNat 32 (cs.length + 1)).toNat = (cs ++ [0]).length := by
    rw [BitVec.toNat_ofNat, Nat.mod_eq_of_lt hshort, List.length_append, List.length_singleton]
  rw [Nat.one_mul] at hle
  exact ⟨t, _, heq, hsame, ht, hnat, hnat ▸ hle, hstring⟩

section

variable {cs : List Octet} (h : At swap s w) (hshort : cs.length + 1 < 2 ^ 32)
  (hput : Agrees s (putString swap cs w))

include h hshort hput

theorem reads_readString :
    Reads swap (readString (Codeset.plain n)) (cs ++ [0]) s (putString swap cs w) := by
  obtain ⟨t, len, heq, hsame, ht, hlen, hle, hstring⟩ := reads_length h hshort hput
  have hpos : 0 < len.toNat := by
    rw [hlen, List.length_append]
    exact Nat.succ_pos _
  rw [hstring] at hput ⊢
  obtain ⟨u, heq', hsame', hu⟩ := (reads_readCharArray (n := n) hlen ht (hsame.agrees hput)).orFail
  refine ⟨u, ?_, hsame.trans hsame', hu⟩
  rw [← heq']
  exact (bind_of_ok heq).trans (by rw [get_bind_apply, if_pos ⟨hpos, hle⟩])

theorem reads_readAceString (hnul : (0 : Octet) ∉ cs) :
    Reads swap (readAceString (Codeset.plain n)) cs s (putString swap cs w) := by
  refine Reads.orFail ((reads_readString h hshort hput).bind fun t _ ht => ?_)
  rw [cString_append hnul]
  exact reads_pure ht cs

theorem reads_readStdString :
    Reads swap (readStdString (Codeset.plain n)) cs s (putString swap cs w) := by
  obtain ⟨t, len, heq, hsame, ht, hlen, hle, hstring⟩ := reads_length h hshort hput
  have hsucc : (cs ++ [0]).length = cs.length + 1 := by
    rw [List.length_append, List.length_singleton]
  have hpred : (len - 1).toNat = cs.length := by
    have hone : (1 : ULong).toNat = 1 := rfl
    have hlt := len.isLt
    rw [BitVec.toNat_sub, hone]
    omega
  rw [hstring, putArray_one_append, putArray_one_singleton] at hput ⊢
  have hreads : Reads swap (orFail (readCharArray (Codeset.plain n) (len - 1)) >>= fun x =>
      skipChar >>= fun _ => pure x) cs t _ :=
    (reads_readCharArray hpred ht ((hsame.agrees hput).mono (prefix_put ..))).orFail.bind
      fun u hsame' hu => Reads.bind (x := ()) (Reads.bind (reads_read1 hu
        (hsame'.agrees (hsame.agrees hput))) fun v _ hv => reads_pure hv ()) fun v _ hv =>
        reads_pure hv cs
  obtain ⟨u, heq', hsame', hu⟩ := hreads
  refine ⟨u, ?_, hsame.trans hsame', hu⟩
  rw [← heq']
  exact (bind_of_ok heq).trans (by rw [get_bind_apply, if_pos ⟨by omega, hle⟩])

end

/-! ### Values -/

theorem reads_readScalar (h : At swap s w) (x : Scalar) {v : x.Value}
    (hput : Agrees s (put x.align (wireImage x.size swap v) w)) :
    Reads swap (readScalar x) v s (put x.align (wireImage x.size swap v) w) := by
  cases x with
  | octet | int8 | uint8 =>
    have himage : wireImage 1 swap v = image 1 v := wireImage_one swap v
    change Agrees s (put 1 (wireImage 1 swap v) w) at hput
    change Reads swap read1 v s (put 1 (wireImage 1 swap v) w)
    rw [himage] at hput ⊢
    exact reads_read1 h hput
  | short | ushort => exact reads_readWord h isAlign_two (by norm_num) hput
  | long | ulong | float => exact reads_readWord h isAlign_four (by norm_num) hput
  | longlong | ulonglong | double | longdouble =>
    exact reads_readWord h isAlign_eight (by norm_num) hput

theorem reads_readScalarArray (h : At swap s w) (x : Scalar) {vs : List x.Value} {length : ULong}
    (hlen : length.toNat = vs.length) (hput : Agrees s (putArray x.size swap x.align vs w)) :
    Reads swap (readScalarArray length x) vs s (putArray x.size swap x.align vs w) := by
  have hreads := reads_readWordArray h x.isAlign x.size_cases hlen hput
  cases x <;> exact hreads

/-- **A value is read back.** -/
theorem reads_readKind (form : StringForm) {d : Datum} (hnul : form = .aceString → d.NoNul)
    (hshort : d.Short)
    (h : At swap s w) (hput : Agrees s (d.put swap w)) :
    Reads swap (readKind (Codeset.plain n) (d.kind form)) (d.value form) s (d.put swap w) := by
  have hnat {m : ℕ} (hm : m < 2 ^ 32) : (BitVec.ofNat 32 m).toNat = m := by
    rw [BitVec.toNat_ofNat, Nat.mod_eq_of_lt hm]
  cases d with
  | scalar x v => exact reads_readScalar h x hput
  | boolean b => exact reads_readBoolean h hput
  | char c => exact reads_read1 h hput
  | string cs =>
    cases form with
    | chars => exact reads_readString h hshort hput
    | aceString => exact reads_readAceString h hshort hput (hnul rfl)
    | stdString => exact reads_readStdString h hshort hput
  | array x vs hlen => exact reads_readScalarArray h x (hnat hlen) hput
  | booleanArray bs hlen =>
    have hfold := foldl_put_boolean swap bs w
    rw [Datum.put, hfold] at hput ⊢
    exact reads_readBooleanArray bs (hnat hlen) h hput
  | charArray cs hlen =>
    exact @reads_readCharArray swap s w n cs (BitVec.ofNat 32 cs.length) (hnat hlen) h hput

end InputCDR

/-- A value only appends to the stream. -/
theorem Datum.prefix_put (swap : Bool) (d : Datum) (w : Wire) : w <+: d.put swap w := by
  cases d with
  | scalar x v => exact InputCDR.prefix_put ..
  | boolean b => exact InputCDR.prefix_put ..
  | char c => exact InputCDR.prefix_put ..
  | string cs =>
    rw [Datum.put, putString]
    split_ifs
    · exact (InputCDR.prefix_put ..).trans (InputCDR.prefix_put ..)
    · exact (InputCDR.prefix_put ..).trans (InputCDR.prefix_putArray ..)
  | array x vs h => exact InputCDR.prefix_putArray ..
  | booleanArray bs h =>
    rw [Datum.put, InputCDR.foldl_put_boolean swap]
    exact InputCDR.prefix_putArray ..
  | charArray cs h => exact @InputCDR.prefix_putArray 1 1 swap cs w

theorem prefix_putAll (swap : Bool) (ds : List Datum) (w : Wire) :
    w <+: WriteOp.putAll swap false (ds.map .datum) w := by
  induction ds generalizing w with
  | nil => exact List.prefix_rfl
  | cons d ds ih => exact (d.prefix_put swap w).trans (ih _)

/-! ### The round trip -/

/-- The values that are written, each with the form in which a string is read back. -/
abbrev Item := Datum × StringForm

/-- What is read back. -/
def Item.expected (i : Item) : (k : Kind) × k.Value := ⟨i.1.kind i.2, i.1.value i.2⟩

/-- **The values are read back**, in order, and nothing is left. -/
theorem reads_readAll {swap : Bool} {n : ℕ} {items : List Item}
    (hnul : ∀ i ∈ items, i.1.NoNul) (hshort : ∀ i ∈ items, i.1.Short) {s : InputCDR} {w : Wire}
    (h : InputCDR.At swap s w)
    (hput : s.Agrees (WriteOp.putAll swap false (items.map fun i => .datum i.1) w)) :
    InputCDR.Reads swap
      (InputCDR.readAll (Codeset.plain n) (items.map fun i => i.1.kind i.2))
      (items.map Item.expected) s
      (WriteOp.putAll swap false (items.map fun i => .datum i.1) w) := by
  induction items generalizing s w with
  | nil => exact InputCDR.reads_pure h []
  | cons i items ih =>
    have hpre := prefix_putAll swap (items.map Prod.fst) (i.1.put swap w)
    rw [List.map_map] at hpre
    refine (InputCDR.reads_readKind i.2 (fun _ => hnul i (List.mem_cons_self ..))
      (hshort i (List.mem_cons_self ..)) h (hput.mono hpre)).bind fun t hsame ht => ?_
    refine (ih (fun j hj => hnul j (List.mem_cons_of_mem _ hj))
      (fun j hj => hshort j (List.mem_cons_of_mem _ hj)) ht (hsame.agrees hput)).bind ?_
    exact fun u _ hu => InputCDR.reads_pure hu _

/-- **The round trip**: however the stream is fragmented, the values are written, and they are read
back from the stream that is constructed from it, as long as that has room in the address space. -/
def RoundTrips (doByteSwap : Bool) (majorVersion minorVersion : UInt8) (items : List Item) : Prop :=
  ∀ f : Fragmentation, ∃ t answers,
    Machine.run (WriteOp.step f.heap) (f.start doByteSwap majorVersion minorVersion)
      (items.map fun i => .datum i.1) = some (t, answers) ∧
    (∀ answer ∈ answers, answer = .ok ()) ∧
    ∀ (n base : ℕ) (fill : ℕ → UInt8), base + t.totalLength + maxAlignment ≤ addressLimit →
      ∃ s u, InputCDR.ofOutputCDR base fill t = some s ∧
        InputCDR.readAll (Codeset.plain n) (items.map fun i => i.1.kind i.2) s =
          some (.ok (items.map Item.expected), u) ∧ u.length = 0

section

variable {doByteSwap : Bool} {majorVersion minorVersion : UInt8} {items : List Item}

/-- The values are written, and the stream that is constructed begins with their bytes. -/
theorem written_spec (doByteSwap : Bool) (majorVersion minorVersion : UInt8) (items : List Item)
    (f : Fragmentation) : ∃ t answers,
    Machine.run (WriteOp.step f.heap) (f.start doByteSwap majorVersion minorVersion)
      (items.map fun i => .datum i.1) = some (t, answers) ∧
    (∀ answer ∈ answers, answer = .ok ()) ∧
    t.wire = WriteOp.putAll doByteSwap false (items.map fun i => .datum i.1) [] ∧
    ∀ base fill, base + t.totalLength + maxAlignment ≤ addressLimit →
      ∃ s, InputCDR.ofOutputCDR base fill t = some s ∧ InputCDR.At doByteSwap s [] ∧
        s.Agrees t.wire ∧ s.wrPtr = s.base + t.wire.length := by
  obtain ⟨t, answers, hrun, hwire, hconfig, hanswers⟩ := WriteOp.run_spec f.heap
    (OutputCDR.init_ready f.base f.size f.memcpyTradeoff doByteSwap majorVersion minorVersion)
    (items.map fun i => .datum i.1) fun op hop i hi => by
      obtain ⟨d, -, rfl⟩ := List.mem_map.mp hop
      cases hi
  refine ⟨t, answers, hrun, hanswers, hwire, fun base fill hfits => ?_⟩
  obtain ⟨s, heq, hat, hagrees, -, hwr⟩ := InputCDR.ofOutputCDR_spec fill hfits
  rw [hconfig.doByteSwap] at hat
  exact ⟨s, heq, hat, hagrees, hwr⟩

/-- **Values whose strings are short enough** make the round trip. -/
theorem roundTrips_of_short (hnul : ∀ i ∈ items, i.1.NoNul) (hshort : ∀ i ∈ items, i.1.Short) :
    RoundTrips doByteSwap majorVersion minorVersion items := by
  intro f
  obtain ⟨t, answers, hrun, hanswers, hwire, hread⟩ :=
    written_spec doByteSwap majorVersion minorVersion items f
  refine ⟨t, answers, hrun, hanswers, fun n base fill hfits => ?_⟩
  obtain ⟨s, heq, hat, hagrees, hwr⟩ := hread base fill hfits
  rw [hwire] at hagrees
  obtain ⟨u, hread, hsame, hu⟩ := reads_readAll (n := n) hnul hshort hat hagrees
  refine ⟨s, u, heq, hread, ?_⟩
  have hend : u.wrPtr = u.rdPtr := by
    rw [hu.rdPtr, ← hwire, InputCDR.wrPtr, hsame.data, hsame.base]
    exact hwr
  rw [InputCDR.length_eq hu.inBounds, hend, Nat.sub_self]

theorem roundTrips_hello : RoundTrips true 1 2 [(.scalar .octet 7, .chars),
    (.string [104, 101, 108, 108, 111], .stdString),
    (.array .longlong [1, 2] (by decide), .chars)] :=
  roundTrips_of_short
    (by
      simp only [List.forall_mem_cons, List.not_mem_nil]
      exact ⟨trivial, (by decide : (0 : Octet) ∉ [104, 101, 108, 108, 111]), trivial,
        fun _ h => h.elim⟩)
    (by
      simp only [List.forall_mem_cons, List.not_mem_nil]
      exact ⟨trivial, (by decide : 5 + 1 < 2 ^ 32), trivial, fun _ h => h.elim⟩)

/-- A string whose length with the terminator is 2³² is written with the length 0, and read back
as the empty string. -/
theorem not_roundTrips_of_length {cs : List Octet} (hlen : cs.length + 1 = 2 ^ 32) :
    ¬RoundTrips doByteSwap majorVersion minorVersion [(.string cs, .chars)] := by
  intro hround
  obtain ⟨t, answers, hrun, -, hwire, hread⟩ :=
    written_spec doByteSwap majorVersion minorVersion [(.string cs, .chars)] ⟨0, 0, 0, id⟩
  obtain ⟨t', answers', hrun', -, hsame⟩ := hround ⟨0, 0, 0, id⟩
  cases Option.some.inj (hrun.symm.trans hrun')
  have hput : t.wire = put 4 (wireImage 4 doByteSwap 0) [] := by
    have hone : BitVec.ofNat 32 cs.length + 1 = 0 := by
      rw [show cs.length = 2 ^ 32 - 1 by omega]
      rfl
    have hne : BitVec.ofNat 32 cs.length ≠ 0 := by
      rw [show cs.length = 2 ^ 32 - 1 by omega]
      decide
    rw [hwire]
    change putString doByteSwap cs [] = _
    rw [putString, if_neg hne, hone]
    rfl
  have hfits : 0 + t.totalLength + maxAlignment ≤ addressLimit := by
    have htotal : t.totalLength = t.wire.length := by
      rw [OutputCDR.totalLength, OutputCDR.wire, List.length_flatMap]
    rw [htotal, hput, length_put four_pos, length_wireImage]
    decide
  obtain ⟨s, heq, hat, hagrees, -⟩ := hread 0 (fun _ => 0) hfits
  obtain ⟨s', u, heq', hread', -⟩ := hsame 0 0 (fun _ => 0) hfits
  cases Option.some.inj (heq.symm.trans heq')
  rw [hput] at hagrees
  obtain ⟨v, hv, -⟩ := InputCDR.reads_readWord hat isAlign_four (by norm_num) hagrees
  have hempty : InputCDR.readAll (Codeset.plain 0) [.string .chars] s =
      some (.ok [⟨.string .chars, [0]⟩], v) := by
    have hstring : InputCDR.readString (Codeset.plain 0) s = some (.ok [0], v) :=
      (bind_of_ok hv).trans rfl
    exact (bind_of_ok hstring).trans rfl
  have hvalues := (Prod.mk.inj (Option.some.inj (hempty.symm.trans hread'))).1
  have hvalue := eq_of_heq (Sigma.mk.inj (List.cons.inj (Except.ok.inj hvalues)).1).2
  have hnil := congrArg List.length hvalue
  change 1 = (cs ++ [0]).length at hnil
  rw [List.length_append, List.length_singleton] at hnil
  omega

end

/-- The string of 2³² - 1 characters does not make the round trip. -/
theorem largeString_not_roundTrips :
    (∀ i ∈ [((.string (List.replicate (2 ^ 32 - 1) 1), .chars) : Item)], i.1.NoNul) ∧
      ¬RoundTrips false 1 2 [(.string (List.replicate (2 ^ 32 - 1) 1), .chars)] := by
  refine ⟨fun i hi => ?_, not_roundTrips_of_length ?_⟩
  · rw [List.mem_singleton.mp hi]
    exact fun hzero => absurd (List.eq_of_mem_replicate hzero) (by decide)
  · rw [List.length_replicate]
    norm_num

end AceTao.Cdr
