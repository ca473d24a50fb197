import AceTao.Cdr.RoundTrip
import AceTao.Cdr.WideReadBack

/-!
# Skipping what was put

The operations that skip a value move the stream to the end of its bytes, as the operations that
read it do, but they know less about it: `skip_bytes` any number of bytes (`reads_skipBytes`),
`skip_string` all strings whose length does not announce an indirection (`reads_skipString`), and
`skip_wchar` and `skip_wstring` the characters that have two or four bytes in GIOP 1.1
(`reads_skipWchar`, `reads_skipWstring`).
-/

namespace AceTao.Cdr.InputCDR

open Program ByteImage AlignUp

variable {swap : Bool} {s : InputCDR} {w w' : Wire} {n size align : ℕ}

/-! ### Values behind each other -/

/-- What is put behind an aligned value needs no padding. -/
theorem put_put {a b : List UInt8} (ha : 0 < align) (h : align ∣ (put align a w).length) :
    put align b (put align a w) = put align (a ++ b) w := by
  have hpad : pad (put align a w).length align = 0 := by
    rw [pad, alignUp_of_dvd ha h, Nat.sub_self]
  rw [put.eq_def align b, hpad, List.replicate_zero, List.append_nil, put, put, List.map_append,
    List.append_assoc _ (a.map some)]

theorem dvd_length_put {a : List UInt8} (ha : 0 < align) (h : align ∣ a.length) :
    align ∣ (put align a w).length := by
  rw [length_put ha]
  exact Nat.dvd_add (dvd_alignUp _ _) h

theorem putArray_cons (ha : 0 < align) (hdvd : align ∣ size) (swap : Bool)
    (x : BitVec (8 * size)) (xs : List (BitVec (8 * size))) (w : Wire) :
    putArray size swap align (x :: xs) w =
      putArray size swap align xs (put align (wireImage size swap x) w) := by
  have happend := putArray_append ha hdvd swap [x] xs w
  have hone : putArray size swap align [x] w = put align (wireImage size swap x) w := by
    rw [putArray, if_neg (List.cons_ne_nil _ _), List.flatMap_singleton]
  rwa [hone, List.singleton_append] at happend

/-! ### Bytes -/

theorem reads_discard {α : Type} {m : Reader α} {x : α} (h : Reads swap m x s w) :
    Reads swap (m >>= fun _ => pure ()) () s w :=
  h.bind fun _ _ ht => reads_pure ht ()

/-- **Any bytes are skipped.** -/
theorem reads_skipBytes (h : At swap s w) {len : ℕ} (hput : Agrees s w')
    (hlen : w.length + len = w'.length) : Reads swap (skipBytes len) () s w' := by
  have hwr := s.wrPtr_le
  have hle : s.rdPtr + len ≤ s.wrPtr := by
    have hdata := hput.le
    rw [h.rdPtr, wrPtr]
    omega
  have hmod : (s.rdPtr + len) % 2 ^ 64 = s.rdPtr + len := Nat.mod_eq_of_lt (by omega)
  refine ⟨s.setRdPtr (s.rdPtr + len), ?_, ⟨rfl, rfl, rfl⟩, h.doByteSwap, h.base, h.good, ?_, hput⟩
  · rw [skipBytes, get_bind_apply, hmod, if_pos hle, modify_apply]
  · rw [setRdPtr_rdPtr_of_le hle, h.rdPtr, setRdPtr_base, Nat.add_assoc, hlen]

/-- The padding before a value is skipped. -/
theorem reads_adjust_zero (h : At swap s w) (ha : IsAlign align)
    (hput : Agrees s (put align [] w)) :
    Reads swap (adjust 0 align) (alignUp s.rdPtr align) s (put align [] w) := by
  have hend := h.valueEnd_le ha List.length_nil hput
  have heq := adjust_eq h.inBounds ha (Nat.zero_le (2 ^ 62))
  rw [if_pos hend] at heq
  exact ⟨_, heq, h.next ha rfl hput⟩

/-- The bytes behind some padding are skipped. -/
theorem reads_skipPadded {bytes : List UInt8} (h : At swap s (put align [] w)) (ha : 0 < align)
    (hput : Agrees s (put align bytes w)) :
    Reads swap (skipBytes bytes.length) () s (put align bytes w) := by
  refine reads_skipBytes h hput ?_
  rw [length_put ha, length_put ha, List.length_nil, Nat.add_zero]

/-- The elements of an array behind its padding are skipped. -/
theorem reads_skipArray (h : At swap s w) (ha : 0 < align) (halign : align ∣ w.length)
    {xs : List (BitVec (8 * size))} (hput : Agrees s (putArray size swap align xs w)) :
    Reads swap (skipBytes (size * xs.length)) () s (putArray size swap align xs w) := by
  refine reads_skipBytes h hput ?_
  rw [putArray]
  split_ifs with hnil
  · rw [hnil, List.length_nil, Nat.mul_zero, Nat.add_zero]
  · rw [length_put ha, alignUp_of_dvd ha halign, length_flatMap_wireImage]

theorem reads_skipOctets (h : At swap s w) {xs : List Octet}
    (hput : Agrees s (putArray 1 swap 1 xs w)) :
    Reads swap (skipBytes xs.length) () s (putArray 1 swap 1 xs w) := by
  have hskip := @reads_skipArray swap s w 1 1 h one_pos (one_dvd _) xs hput
  rwa [Nat.one_mul] at hskip

/-! ### Strings -/

/-- **A string is skipped**, unless its length is all ones. -/
theorem reads_skipString (h : At swap s w) {cs : List Octet} (hshort : cs.length + 1 < 2 ^ 32 - 1)
    (hput : Agrees s (putString swap cs w)) :
    Reads swap skipString () s (putString swap cs w) := by
  obtain ⟨t, len, heq, hsame, ht, hlen, hle, hstring⟩ := reads_length h (by omega) hput
  have hones : len ≠ BitVec.allOnes 32 := by
    rintro rfl
    rw [BitVec.toNat_allOnes, List.length_append, List.length_singleton] at hlen
    omega
  rw [hstring] at hput ⊢
  have hskip := reads_skipOctets ht (hsame.agrees hput)
  rw [← hlen] at hskip
  obtain ⟨u, heq', hsame', hu⟩ := hskip
  refine ⟨u, ?_, hsame.trans hsame', hu⟩
  rw [skipString, bind_of_ok heq, if_neg hones]
  exact heq'

/-! ### Wide characters -/

/-- **A wide character is skipped**, if it does not have one byte in GIOP 1.1. -/
theorem reads_skipWchar (h : At swap s w) (hn : IsWidth n) (hne : s.giop12 = false → n ≠ 1)
    {x : WChar} (hput : Agrees s (putWchar swap n s.giop12 x w)) :
    Reads swap (skipWchar (.plain n)) () s (putWchar swap n s.giop12 x w) := by
  rw [putWchar] at hput ⊢
  rcases hgiop : s.giop12 with _ | _
  · rw [hgiop, if_neg Bool.false_ne_true] at hput
    exact reads_skipWchar11 h hn (hne hgiop) hgiop hput
  · rw [hgiop, if_pos rfl] at hput
    have hnat : (BitVec.ofNat 8 n).toNat = n := by
      rw [BitVec.toNat_ofNat, Nat.mod_eq_of_lt (hn.le.trans_lt (by norm_num))]
    have hread := (reads_read1 h (hput.mono (prefix_put ..))).orFail
    rw [Reads, skipWchar, get_bind_apply, if_pos hgiop]
    refine hread.bind fun t hsame ht => ?_
    have hpadded : put 1 [] (put 1 (image 1 (BitVec.ofNat 8 n)) w) =
        put 1 (image 1 (BitVec.ofNat 8 n)) w := by
      rw [put_one, List.map_nil, List.append_nil]
    have hskip := reads_skipPadded (hpadded.symm ▸ ht) one_pos (hsame.agrees hput)
    rw [length_wireImage] at hskip
    rw [hnat, if_pos rfl]
    exact hskip

/-- The characters of a wide string in GIOP 1.1. -/
theorem reads_skipWchars (hn : IsWidth n) (hne : n ≠ 1) (cs : List WChar) (h : At swap s w)
    (hgiop : s.giop12 = false) (hput : Agrees s (putArray n swap n (cs.map (narrow n)) w)) :
    Reads swap (skipWchars (.plain n) cs.length) () s
      (putArray n swap n (cs.map (narrow n)) w) := by
  induction cs generalizing s w with
  | nil => exact reads_pure h ()
  | cons c cs ih =>
    rw [List.map_cons, putArray_cons hn.isAlign.pos dvd_rfl] at hput ⊢
    rw [List.length_cons, skipWchars]
    refine (reads_skipWchar11 h hn hne hgiop (hput.mono (prefix_putArray ..))).bind
      fun t hsame ht => ?_
    exact ih ht (hsame.giop12.trans hgiop) (hsame.agrees hput)

end AceTao.Cdr.InputCDR
