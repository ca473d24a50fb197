import AceTao.Cdr.RoundTrip
import AceTao.RMCast.Codec
import Mathlib.Data.List.Perm.Subperm

/-!
# The round trip of a message

What is written as the bytes of a message is read back, by the loop of `Link::recv`, as the same
profiles. The sizes that are computed are those of the bytes (`putProfiles_length`).

The number of entries that is computed from the size of a profile is the number of entries that were
written only for a `NAK` with at most 8190 numbers, whose size fits in the header, and for an `NRTM`
with at most seven entries: between two entries there are two bytes of padding, and from the eighth
entry on the padding amounts to an entry of its own (`codecRoundTrips_iff`).
-/

namespace AceTao.RMCast

open AlignUp Program ByteImage Cdr OutputCDR InputCDR

/-! ### The bytes -/

def putU16 (x : U16) : Wire → Wire := put 2 (wireImage 2 false x)
def putU32 (x : U32) : Wire → Wire := put 4 (wireImage 4 false x)
def putU64 (x : U64) : Wire → Wire := put 8 (wireImage 8 false x)

def putAddress (address : Address) (w : Wire) : Wire := putU16 address.port (putU32 address.ip w)

def putSns : List U64 → Wire → Wire
  | [], w => w
  | sn :: sns, w => putSns sns (putU64 sn w)

def putBlocks : List (Address × U64) → Wire → Wire
  | [], w => w
  | (address, sn) :: blocks, w => putBlocks blocks (putAddress address (putU64 sn w))

namespace Profile

/-- The bytes of the body of a profile. -/
def putBody : Profile → Wire → Wire
  | .fromAddress address => putAddress address
  | .toAddress address => putAddress address
  | .data d => putArray 1 false 1 (d.buf.map (·.toBitVec))
  | .sn n => putU64 n
  | .nak address sns => fun w => putSns sns (putAddress address w)
  | .nrtm map => putBlocks map
  | .noData => fun w => w
  | .part p => fun w => putU64 p.totalSize (putU32 p.of (putU32 p.num w))

/-- The bytes of a profile, with its header. -/
def put (p : Profile) (w : Wire) : Wire := p.putBody (putU16 p.calculateSize (putU16 p.id w))

end Profile

def putProfiles : List Profile → Wire → Wire
  | [], w => w
  | p :: ps, w => putProfiles ps (p.put w)

/-- **The bytes of a message.** -/
def Message.put (m : Message) : Wire :=
  putProfiles m.profiles (putU32 (BitVec.ofNat 32 m.size) [])

/-! ### Operations that write, and operations that read -/

/-- **The operation writes** what `f` adds. -/
def Puts (m : Writer Unit) (f : Wire → Wire) : Prop :=
  ∀ s, Ready s → s.doByteSwap = false → Writes m s (f s.wire)

/-- **The operation reads** `x` from what `f` adds. -/
structure Gets {α : Type} (m : Reader α) (x : α) (f : Wire → Wire) : Prop where
  adds : ∀ w, w <+: f w
  reads : ∀ s w, At false s w → Agrees s (f w) → Reads false m x s (f w)

section

variable {m m' : Writer Unit} {f g : Wire → Wire} {heap : ℕ → ℕ}

theorem Puts.bind (hm : Puts m f) (hm' : Puts m' g) : Puts (m >>= fun _ => m') fun w => g (f w) :=
  fun s hs hswap => (hm s hs hswap).bind fun t ht hconfig hwire => by
    show Writes m' t (g (f s.wire))
    rw [← hwire]
    exact hm' t ht (hconfig.doByteSwap.trans hswap)

theorem puts_pure : Puts (pure ()) fun w => w := fun _ hs _ => writes_pure hs

theorem puts_word (size : ℕ) {align : ℕ} (ha : IsAlign align) (x : BitVec (8 * size)) :
    Puts (writeWord heap size align x) (put align (wireImage size false x)) := by
  intro s hs hswap
  rw [← hswap]
  exact writes_writeWord hs ha x

theorem puts_u16 (x : U16) : Puts (writeUshort heap x) (putU16 x) := puts_word 2 isAlign_two x
theorem puts_u32 (x : U32) : Puts (writeUlong heap x) (putU32 x) := puts_word 4 isAlign_four x
theorem puts_u64 (x : U64) : Puts (writeUlonglong heap x) (putU64 x) := puts_word 8 isAlign_eight x

theorem puts_address (address : Address) : Puts (writeAddress heap address) (putAddress address) :=
  (puts_u32 address.ip).bind (puts_u16 address.port)

theorem puts_sns (sns : List U64) : Puts (writeSns heap sns) (putSns sns) := by
  induction sns with
  | nil => exact puts_pure
  | cons sn sns ih => exact (puts_u64 sn).bind ih

theorem puts_blocks (blocks : List (Address × U64)) :
    Puts (writeBlocks heap blocks) (putBlocks blocks) := by
  induction blocks with
  | nil => exact puts_pure
  | cons block blocks ih => exact (puts_u64 block.2).bind ((puts_address block.1).bind ih)

theorem puts_body (p : Profile) (hdata : ∀ d, p = .data d → d.size < 2 ^ 16) :
    Puts (p.writeBody heap) p.putBody := by
  cases p with
  | fromAddress address => exact puts_address address
  | toAddress address => exact puts_address address
  | data d =>
    intro s hs hswap
    have hlen : (BitVec.ofNat 32 d.size).toNat = (d.buf.map (·.toBitVec)).length := by
      rw [BitVec.toNat_ofNat, List.length_map, Nat.mod_eq_of_lt]
      · rfl
      · exact (hdata d rfl).trans (by norm_num)
    have hwrites := writes_writeWordArray heap hs isAlign_one (Or.inl rfl) hlen.le
    rwa [hswap, hlen, List.take_length] at hwrites
  | sn n => exact puts_u64 n
  | nak address sns => exact (puts_address address).bind (puts_sns sns)
  | nrtm map => exact puts_blocks map
  | noData => exact puts_pure
  | part p => exact (puts_u32 p.num).bind ((puts_u32 p.of).bind (puts_u64 p.totalSize))

theorem puts_profiles {ps : List Profile} (hdata : ∀ d, .data d ∈ ps → d.size < 2 ^ 16) :
    Puts (writeProfiles heap ps) (putProfiles ps) := by
  induction ps with
  | nil => exact puts_pure
  | cons p ps ih =>
    have hbody : Puts (p.writeBody heap) p.putBody :=
      puts_body p fun d hd => hdata d (hd ▸ List.mem_cons_self ..)
    exact (puts_u16 p.id).bind ((puts_u16 p.calculateSize).bind
      (hbody.bind (ih fun d hd => hdata d (List.mem_cons_of_mem _ hd))))

end

section

variable {α β : Type} {m : Reader α} {k : α → Reader β} {x : α} {y : β} {f g : Wire → Wire}

theorem Gets.bind (hm : Gets m x f) (hk : Gets (k x) y g) :
    Gets (m >>= k) y fun w => g (f w) where
  adds w := (hm.adds w).trans (hk.adds (f w))
  reads s w h hput := (hm.reads s w h (hput.mono (hk.adds (f w)))).bind fun t hsame ht =>
    hk.reads t (f w) ht (hsame.agrees hput)

theorem gets_pure (x : α) : Gets (pure x) x fun w => w where
  adds _ := List.prefix_rfl
  reads _ _ h _ := reads_pure h x

theorem Gets.map (hm : Gets m x f) (k : α → β) : Gets (m >>= fun x => pure (k x)) (k x) f :=
  Gets.bind (g := fun w => w) hm (gets_pure (k x))

/-- A program that comes to the same result. -/
theorem Gets.congr {m' : Reader α} (h : Gets m x f)
    (hsame : ∀ s t, m s = some (.ok x, t) → m' s = some (.ok x, t)) : Gets m' x f where
  adds := h.adds
  reads s w hat hput := by
    obtain ⟨t, heq, ht⟩ := h.reads s w hat hput
    exact ⟨t, hsame s t heq, ht⟩

theorem Gets.assign (h : Gets m x f) (old : α) : Gets (assign old m) x f :=
  h.congr fun _ _ heq => handle_of_ok heq

theorem Gets.define (h : Gets m x f) : Gets (define m) x f := h.congr fun _ _ heq => handle_of_ok heq

theorem gets_word (size : ℕ) {align : ℕ} (ha : IsAlign align) (hsize : size ≤ 2 ^ 62)
    (x : BitVec (8 * size)) :
    Gets (readWord size align) x (put align (wireImage size false x)) where
  adds _ := prefix_put ..
  reads _ _ h hput := reads_readWord h ha hsize hput

theorem gets_u16 (x : U16) : Gets readUshort x (putU16 x) :=
  gets_word 2 isAlign_two (by norm_num) x

theorem gets_u32 (x : U32) : Gets readUlong x (putU32 x) :=
  gets_word 4 isAlign_four (by norm_num) x

theorem gets_u64 (x : U64) : Gets readUlonglong x (putU64 x) :=
  gets_word 8 isAlign_eight (by norm_num) x

theorem gets_sns {n : ℕ} {sns : List U64} (hn : n = sns.length) (sn : U64) :
    Gets (readSns n sn) sns (putSns sns) := by
  induction sns generalizing n sn with
  | nil =>
    rw [hn]
    exact gets_pure []
  | cons sn' sns ih =>
    rw [hn]
    exact ((gets_u64 sn').assign sn).bind ((ih rfl sn').map (sn' :: ·))

/-- Entries for different addresses are all kept. -/
theorem gets_blocks {n : ℕ} {blocks : List (Address × U64)} (hn : n = blocks.length)
    (map : List (Address × U64)) (hnodup : ((map ++ blocks).map Prod.fst).Nodup)
    (address : Address) (sn : U64) :
    Gets (readBlocks n address sn map) (map ++ blocks) (putBlocks blocks) := by
  induction blocks generalizing n map address sn with
  | nil =>
    rw [hn, List.append_nil]
    exact gets_pure map
  | cons block blocks ih =>
    have hnew : bindBlock map block.1 block.2 = map ++ [block] := by
      rw [List.map_append, List.nodup_append'] at hnodup
      exact if_neg fun hmem => hnodup.2.2 hmem (List.mem_cons_self ..)
    rw [List.append_cons] at hnodup ⊢
    have hnext : Gets (readBlocks blocks.length block.1 block.2 (bindBlock map block.1 block.2))
        (map ++ [block] ++ blocks) (putBlocks blocks) := by
      rw [hnew]
      exact ih rfl (map ++ [block]) hnodup block.1 block.2
    rw [hn]
    refine Gets.bind (g := fun w => putBlocks blocks (putAddress block.1 w))
      ((gets_u64 block.2).assign sn) ?_
    refine Gets.bind (g := fun w => putBlocks blocks (putU16 block.1.port w))
      ((gets_u32 block.1.ip).assign address.ip) ?_
    exact ((gets_u16 block.1.port).assign address.port).bind hnext

end

/-! ### One profile -/

namespace Profile

/-- What is read for a profile: data have no capacity behind their bytes. -/
def received : Profile → Profile
  | .data d => .data (.new d.buf 0)
  | p => p

/-- The number of entries computed from the size is the number of entries. -/
def Counted : Profile → Prop
  | .nak address sns => nakCount (Profile.nak address sns).calculateSize = sns.length
  | .nrtm map => nrtmCount (Profile.nrtm map).calculateSize = map.length
  | _ => True

/-- **A profile that is sent**: not one that only the lowest layer adds, with data whose size fits in
the header, or a map. -/
def WellFormed : Profile → Prop
  | .fromAddress _ => False
  | .toAddress _ => False
  | .data d => d.size < 2 ^ 16
  | .nrtm map => (map.map Prod.fst).Nodup
  | _ => True

/-- The size of a profile of data is the number of bytes. -/
theorem calculateSize_data {d : Data} (h : d.size < 2 ^ 16) :
    (Profile.data d).calculateSize.toNat = d.size := by
  have hsize : (BitVec.ofNat 32 d.size).toNat = d.size := by
    rw [BitVec.toNat_ofNat, Nat.mod_eq_of_lt (h.trans (by norm_num))]
  have hbody : (Profile.data d).sizeBody 0 = d.size := by
    rw [sizeBody, SizeCDR.writeCharArray, hsize]
    split_ifs with hzero
    · rw [← hsize, hzero]
      rfl
    · rw [SizeCDR.adjust, alignUp_one, Nat.zero_add, Nat.one_mul]
  rw [calculateSize, hbody, BitVec.toNat_ofNat, Nat.mod_eq_of_lt h]

theorem id_sn (n : U64) : (Profile.sn n).id = 4 := rfl
theorem id_data (d : Data) : (Profile.data d).id = 3 := rfl
theorem id_nak (address : Address) (sns : List U64) : (Profile.nak address sns).id = 5 := rfl
theorem id_nrtm (map : List (Address × U64)) : (Profile.nrtm map).id = 6 := rfl
theorem id_noData : Profile.noData.id = 7 := rfl
theorem id_part (p : Part) : (Profile.part p).id = 8 := rfl

theorem readProfile_sn (size : U16) : readProfile 4 size = (do
    let n ← RMCast.define readUlonglong
    pure (.sn n)) := by
  rw [readProfile, id_sn, if_pos rfl]

theorem readProfile_data (size : U16) : readProfile 3 size =
    (if size = 0 then pure (.data (.new [] 0))
    else do
      let buf ← RMCast.define (readCharArray (Codeset.plain 4) (size.setWidth 32))
      pure (.data (.new (buf.map UInt8.ofBitVec) 0))) := by
  rw [readProfile, id_sn, id_data, if_neg (by decide), if_pos rfl]

theorem readProfile_nak (size : U16) : readProfile 5 size = (do
    let ip ← RMCast.assign 0 readUlong
    let port ← RMCast.assign 0 readUshort
    let sns ← readSns (nakCount size) 0
    pure (.nak ⟨port, ip⟩ sns)) := by
  rw [readProfile, id_sn, id_data, id_nak, if_neg (by decide), if_neg (by decide), if_pos rfl]

theorem readProfile_nrtm (size : U16) : readProfile 6 size = (do
    let map ← readBlocks (nrtmCount size) ⟨0, 0⟩ 0 []
    pure (.nrtm map)) := by
  rw [readProfile, id_sn, id_data, id_nak, id_nrtm, if_neg (by decide), if_neg (by decide),
    if_neg (by decide), if_pos rfl]

theorem readProfile_noData (size : U16) : readProfile 7 size = pure .noData := by
  rw [readProfile, id_sn, id_data, id_nak, id_nrtm, id_noData, if_neg (by decide),
    if_neg (by decide), if_neg (by decide), if_neg (by decide), if_pos rfl]

theorem readProfile_part (size : U16) : readProfile 8 size = (do
    let num ← RMCast.define readUlong
    let of ← RMCast.define readUlong
    let totalSize ← RMCast.define readUlonglong
    pure (.part ⟨num, of, totalSize⟩)) := by
  rw [readProfile, id_sn, id_data, id_nak, id_nrtm, id_noData, id_part, if_neg (by decide),
    if_neg (by decide), if_neg (by decide), if_neg (by decide), if_neg (by decide), if_pos rfl]

theorem gets_data {d : Data} (h : d.size < 2 ^ 16) :
    Gets (readProfile 3 (Profile.data d).calculateSize) (received (.data d))
      (Profile.data d).putBody := by
  have hlen := calculateSize_data h
  rw [received, readProfile_data, putBody]
  by_cases hzero : (Profile.data d).calculateSize = 0
  · have hnil : d.buf = [] := by
      rw [hzero] at hlen
      exact List.length_eq_zero_iff.mp hlen.symm
    have hput : putArray 1 false 1 (([] : List UInt8).map (·.toBitVec)) = fun w => w := by
      funext w
      rw [List.map_nil, putArray, if_pos rfl]
    rw [if_pos hzero, hnil, hput]
    exact gets_pure _
  · have hlength : ((Profile.data d).calculateSize.setWidth 32).toNat =
        (d.buf.map (·.toBitVec)).length := by
      rw [BitVec.toNat_setWidth, hlen, List.length_map, Nat.mod_eq_of_lt (h.trans (by norm_num))]
      rfl
    have hchars : Gets (readCharArray (Codeset.plain 4) ((Profile.data d).calculateSize.setWidth 32))
        (d.buf.map (·.toBitVec)) (putArray 1 false 1 (d.buf.map (·.toBitVec))) :=
      ⟨fun w => prefix_putArray .., fun s w hat hput => reads_readCharArray hlength hat hput⟩
    have hbuf : (d.buf.map (·.toBitVec)).map UInt8.ofBitVec = d.buf := by
      rw [List.map_map]
      exact List.map_id _
    rw [if_neg hzero]
    refine Gets.bind (g := fun w => w) hchars.define ?_
    rw [hbuf]
    exact gets_pure _

/-- **The body of a profile is read back**, if the entries are counted right. -/
theorem gets_body {p : Profile} (h : p.WellFormed) (hcount : p.Counted) :
    Gets (readProfile p.id p.calculateSize) p.received p.putBody := by
  cases p with
  | fromAddress address => exact h.elim
  | toAddress address => exact h.elim
  | data d => exact gets_data h
  | sn n =>
    rw [id_sn, readProfile_sn]
    exact Gets.bind (g := fun w => w) (gets_u64 n).define (gets_pure _)
  | nak address sns =>
    rw [id_nak, readProfile_nak]
    refine Gets.bind (g := fun w => putSns sns (putU16 address.port w))
      ((gets_u32 address.ip).assign 0) ?_
    refine Gets.bind (g := putSns sns) ((gets_u16 address.port).assign 0) ?_
    exact Gets.bind (g := fun w => w) (gets_sns hcount 0) (gets_pure _)
  | nrtm map =>
    rw [id_nrtm, readProfile_nrtm]
    exact Gets.bind (g := fun w => w) (gets_blocks hcount [] h ⟨0, 0⟩ 0) (gets_pure _)
  | noData =>
    rw [id_noData, readProfile_noData]
    exact gets_pure _
  | part p =>
    rw [id_part, readProfile_part]
    refine Gets.bind (g := fun w => putU64 p.totalSize (putU32 p.of w)) (gets_u32 p.num).define ?_
    refine Gets.bind (g := putU64 p.totalSize) (gets_u32 p.of).define ?_
    exact Gets.bind (g := fun w => w) (gets_u64 p.totalSize).define (gets_pure _)

end Profile

/-! ### The loop -/

section

variable {α : Type} {m : Reader α} {x : α} {f : Wire → Wire}

theorem Gets.extract (h : Gets m x f) : Gets (extract m) x f where
  adds := h.adds
  reads s w hat hput := by
    obtain ⟨t, heq, hsame, ht⟩ := h.reads s w hat hput
    exact ⟨t, (bind_of_ok heq).trans (returnGoodBit_eq ht.good x), hsame, ht⟩

end

theorem gets_header (id size : U16) :
    Gets readHeader (id, size) fun w => putU16 size (putU16 id w) :=
  Gets.bind (g := putU16 size) (gets_u16 id).extract
    (Gets.bind (g := fun w => w) (gets_u16 size).extract (gets_pure _))

/-- **No header is read** behind the last byte. -/
theorem readHeader_last {s : InputCDR} {w : Wire} (h : At false s w) (hholds : Holds s.data w) :
    ∃ t, readHeader s = some (.error .bounds, t) := by
  have hlast : ¬s.valueEnd 2 2 ≤ s.wrPtr := by
    have hle : s.rdPtr ≤ s.valueEnd 0 2 := rdPtr_le_valueEnd isAlign_two
    rw [valueEnd] at hle ⊢
    rw [wrPtr, hholds.length_eq, ← h.rdPtr]
    omega
  have hword := readWord_eq h.inBounds isAlign_two (show 2 ≤ 2 ^ 62 by norm_num)
  rw [if_neg hlast] at hword
  refine ⟨s.setGoodBit false, ?_⟩
  rw [readHeader, bind_apply, RMCast.extract, bind_apply, readUshort, read2, hword]

theorem Profile.id_received (p : Profile) : p.received.id = p.id := by
  cases p <;> rfl

theorem adds_profiles {ps : List Profile} (hps : ∀ p ∈ ps, p.WellFormed ∧ p.Counted) (w : Wire) :
    w <+: putProfiles ps w := by
  induction ps generalizing w with
  | nil => exact List.prefix_rfl
  | cons p ps ih =>
    obtain ⟨hwf, hcount⟩ := hps p (List.mem_cons_self ..)
    exact ((gets_header p.id p.calculateSize).adds w).trans (((Profile.gets_body hwf hcount).adds _).trans
      (ih (fun q hq => hps q (List.mem_cons_of_mem _ hq)) _))

/-- **The loop reads the profiles** that were written. -/
theorem readProfiles_spec {ps : List Profile} (hps : ∀ p ∈ ps, p.WellFormed ∧ p.Counted)
    {m : Message} (hdistinct : ((m.profiles ++ ps).map Profile.id).Nodup) {s : InputCDR} {w : Wire}
    (h : At false s w) (hholds : Holds s.data (putProfiles ps w)) {tests : ℕ}
    (htests : ps.length < tests) :
    ∃ m' t, readProfiles tests m s = some (.ok m', t) ∧
      m'.profiles = m.profiles ++ ps.map Profile.received := by
  induction ps generalizing m s w tests with
  | nil =>
    obtain ⟨tests, rfl⟩ := Nat.exists_eq_succ_of_ne_zero (Nat.ne_of_gt htests)
    obtain ⟨t, hheader⟩ := readHeader_last h hholds
    refine ⟨m, t, ?_, (List.append_nil _).symm⟩
    have hattempt : (attempt readHeader : Reader (Option (U16 × U16))) s = some (.ok none, t) := by
      rw [attempt, hheader]
      rfl
    rw [readProfiles, bind_of_ok hattempt]
    rfl
  | cons p ps ih =>
    obtain ⟨tests, rfl⟩ := Nat.exists_eq_succ_of_ne_zero (Nat.ne_zero_of_lt htests)
    obtain ⟨hwf, hcount⟩ := hps p (List.mem_cons_self ..)
    have hps' : ∀ q ∈ ps, q.WellFormed ∧ q.Counted := fun q hq => hps q (List.mem_cons_of_mem _ hq)
    have hgets := Profile.gets_body hwf hcount
    have hagrees : Agrees s (p.put w) :=
      Agrees.mono ⟨[], by rwa [List.append_nil]⟩ (adds_profiles hps' (p.put w))
    obtain ⟨t, hheader, hsame, ht⟩ :=
      (gets_header p.id p.calculateSize).reads s w h (hagrees.mono (hgets.adds _))
    obtain ⟨u, hread, hsame', hu⟩ := hgets.reads t _ ht (hsame.agrees hagrees)
    have hnew : p.received.id ∉ m.profiles.map Profile.id := by
      rw [List.map_append, List.nodup_append'] at hdistinct
      rw [Profile.id_received]
      exact fun hmem => hdistinct.2.2 hmem (List.mem_cons_self ..)
    have hadd : (m.add p.received).profiles = m.profiles ++ [p.received] := by
      rw [Message.add, dif_neg hnew]
    have hids : (((m.add p.received).profiles ++ ps).map Profile.id).Nodup := by
      rw [hadd, List.append_assoc, List.map_append, List.singleton_append, List.map_cons,
        Profile.id_received, ← List.map_cons, ← List.map_append]
      exact hdistinct
    have hholds' : Holds u.data (putProfiles ps (p.put w)) := by
      rw [hsame'.data, hsame.data]
      exact hholds
    obtain ⟨m', v, hloop, hm'⟩ := ih hps' hids hu hholds' (Nat.lt_of_succ_lt_succ htests)
    refine ⟨m', v, ?_, by rw [hm', hadd, List.append_assoc]; rfl⟩
    rw [readProfiles, bind_of_ok (attempt_of_ok hheader)]
    exact (bind_of_ok hread).trans hloop

/-! ### Sizes -/

section

variable {w : Wire}

theorem length_putU16 (x : U16) : (putU16 x w).length = SizeCDR.write2 w.length := by
  rw [putU16, length_put isAlign_two.pos, length_wireImage]
  rfl

theorem length_putU32 (x : U32) : (putU32 x w).length = SizeCDR.write4 w.length := by
  rw [putU32, length_put isAlign_four.pos, length_wireImage]
  rfl

theorem length_putU64 (x : U64) : (putU64 x w).length = SizeCDR.write8 w.length := by
  rw [putU64, length_put isAlign_eight.pos, length_wireImage]
  rfl

theorem length_putAddress (address : Address) :
    (putAddress address w).length = SizeCDR.write2 (SizeCDR.write4 w.length) := by
  rw [putAddress, length_putU16, length_putU32]

theorem length_putSns (sns : List U64) (w : Wire) :
    (putSns sns w).length = sns.foldl (fun pos _ => SizeCDR.write8 pos) w.length := by
  induction sns generalizing w with
  | nil => rfl
  | cons sn sns ih => rw [putSns, ih, length_putU64, List.foldl_cons]

theorem length_putBlocks (blocks : List (Address × U64)) (w : Wire) :
    (putBlocks blocks w).length = blocks.foldl
      (fun pos _ => SizeCDR.write2 (SizeCDR.write4 (SizeCDR.write8 pos))) w.length := by
  induction blocks generalizing w with
  | nil => rfl
  | cons block blocks ih =>
    rw [putBlocks, ih, length_putAddress, length_putU64, List.foldl_cons]

/-- **The size of a body** at a position is what its bytes take there. -/
theorem length_putBody {p : Profile} (h : p.WellFormed) (w : Wire) :
    (p.putBody w).length = p.sizeBody w.length := by
  cases p with
  | fromAddress address => exact h.elim
  | toAddress address => exact h.elim
  | data d =>
    have hsize : (BitVec.ofNat 32 d.size).toNat = d.size := by
      rw [BitVec.toNat_ofNat, Nat.mod_eq_of_lt (Nat.lt_trans h (by norm_num))]
    rw [Profile.putBody, Profile.sizeBody, putArray, SizeCDR.writeCharArray, hsize]
    by_cases hnil : d.buf = []
    · have hzero : d.size = 0 := List.length_eq_zero_iff.mpr hnil
      rw [if_pos (by rw [hnil, List.map_nil]), if_pos (by rw [hzero]; rfl)]
    · have hpos : BitVec.ofNat 32 d.size ≠ 0 := by
        intro hzero
        rw [hzero] at hsize
        exact hnil (List.length_eq_zero_iff.mp hsize.symm)
      rw [if_neg (by simpa using hnil), if_neg hpos, length_put Nat.one_pos,
        length_flatMap_wireImage, List.length_map]
      rfl
  | sn n => exact length_putU64 n
  | nak address sns =>
    rw [Profile.putBody, length_putSns, length_putAddress]
    rfl
  | nrtm map => exact length_putBlocks map w
  | noData => rfl
  | part p =>
    rw [Profile.putBody, length_putU64, length_putU32, length_putU32]
    rfl

theorem length_putProfiles {ps : List Profile} (hps : ∀ p ∈ ps, p.WellFormed) (w : Wire) :
    (putProfiles ps w).length = ps.foldl
      (fun pos p => p.sizeBody (SizeCDR.write2 (SizeCDR.write2 pos))) w.length := by
  induction ps generalizing w with
  | nil => rfl
  | cons p ps ih =>
    rw [putProfiles, ih (fun q hq => hps q (List.mem_cons_of_mem _ hq)), Profile.put,
      length_putBody (hps p (List.mem_cons_self ..)), length_putU16, length_putU16, List.foldl_cons]

/-- **The size of a message** is the number of its bytes. -/
theorem Message.length_put {m : Message} (h : ∀ p ∈ m.profiles, p.WellFormed) :
    m.put.length = m.size := by
  rw [Message.put, length_putProfiles h, length_putU32]
  rfl

end

/-! ### Numbers of entries -/

/-- The numbers of a `NAK` leave no gaps. -/
theorem foldl_write8 {sns : List U64} (h : sns ≠ []) (pos : ℕ) :
    sns.foldl (fun pos _ => SizeCDR.write8 pos) pos = alignUp pos 8 + 8 * sns.length := by
  induction sns generalizing pos with
  | nil => exact absurd rfl h
  | cons sn sns ih =>
    rw [List.foldl_cons, List.length_cons]
    rcases eq_or_ne sns [] with rfl | hne
    · rfl
    · rw [ih hne, SizeCDR.write8, SizeCDR.adjust, alignUp, alignUp]
      omega

/-- There are two bytes between the entries of an `NRTM`. -/
theorem foldl_block {map : List (Address × U64)} (h : map ≠ []) (pos : ℕ) :
    map.foldl (fun pos _ => SizeCDR.write2 (SizeCDR.write4 (SizeCDR.write8 pos))) pos + 2 =
      alignUp pos 8 + 16 * map.length := by
  have hblock : ∀ pos, SizeCDR.write2 (SizeCDR.write4 (SizeCDR.write8 pos)) = alignUp pos 8 + 14 := by
    intro pos
    rw [SizeCDR.write2, SizeCDR.write4, SizeCDR.write8, SizeCDR.adjust, SizeCDR.adjust,
      SizeCDR.adjust, alignUp, alignUp, alignUp]
    omega
  induction map generalizing pos with
  | nil => exact absurd rfl h
  | cons block map ih =>
    rw [List.foldl_cons, List.length_cons, hblock]
    rcases eq_or_ne map [] with rfl | hne
    · rfl
    · rw [ih hne, alignUp, alignUp]
      omega

theorem snSize_eq : snSize = 8 := rfl
theorem addrSize_eq : addrSize = 6 := rfl
theorem blockSize_eq : blockSize = 14 := rfl

namespace Profile

/-- **The lists are short**: at most 8190 numbers in a `NAK`, and at most seven entries in an
`NRTM`. -/
def Short : Profile → Prop
  | .nak _ sns => sns.length ≤ 8190
  | .nrtm map => map.length ≤ 7
  | _ => True

instance (p : Profile) : Decidable p.Short :=
  match p with
  | .nak _ sns => inferInstanceAs (Decidable (sns.length ≤ 8190))
  | .nrtm map => inferInstanceAs (Decidable (map.length ≤ 7))
  | .fromAddress _ | .toAddress _ | .data _ | .sn _ | .noData | .part _ => isTrue trivial

/-- The entries of an `NRTM` are counted right up to the seventh. -/
theorem counted_nrtm (map : List (Address × U64)) :
    (Profile.nrtm map).Counted ↔ (Profile.nrtm map).Short := by
  rw [Counted, Short, nrtmCount, blockSize_eq, calculateSize, sizeBody, BitVec.toNat_ofNat]
  rcases eq_or_ne map [] with rfl | hne
  · exact iff_of_true rfl (Nat.zero_le 7)
  · have hsize := foldl_block hne 0
    have hzero : alignUp 0 8 = 0 := rfl
    have hpos := List.length_pos_iff.mpr hne
    omega

/-- The numbers of a `NAK` are counted right if its size fits in the header. Otherwise the difference
may be negative, and the count is close to 2⁶¹. -/
theorem counted_nak (address : Address) (sns : List U64) :
    (Profile.nak address sns).Counted ↔
      (Profile.nak address sns).Short ∨ sns.length = 2 ^ 61 - 1 := by
  rw [Counted, Short, nakCount, snSize_eq, addrSize_eq, calculateSize, sizeBody, BitVec.toNat_ofNat]
  have haddress : SizeCDR.write2 (SizeCDR.write4 0) = 6 := rfl
  rw [haddress]
  rcases eq_or_ne sns [] with rfl | hne
  · exact iff_of_true rfl (Or.inl (Nat.zero_le 8190))
  · rw [foldl_write8 hne]
    have hsix : alignUp 6 8 = 8 := rfl
    have hpos := List.length_pos_iff.mpr hne
    omega

theorem counted_of_short {p : Profile} (h : p.Short) : p.Counted := by
  cases p with
  | nak address sns => exact (counted_nak address sns).mpr (Or.inl h)
  | nrtm map => exact (counted_nrtm map).mpr h
  | _ => trivial

end Profile

/-! ### The round trip -/

/-- **A message comes back**: its bytes are written, its length word is their number, the numbers of
entries that are computed from the sizes are right, and from a buffer that holds the bytes the
receiver makes the message with the same profiles, behind those that it adds. -/
def CodecRoundTrips (m : Message) : Prop :=
  ∀ (heap : ℕ → ℕ) (base memcpyTradeoff : ℕ) (major minor : UInt8),
    ∃ s, m.write heap (init base m.size memcpyTradeoff false major minor) = some (.ok (), s) ∧
      (BitVec.ofNat 32 m.size : U32).toNat = s.wire.length ∧
      (∀ p ∈ m.profiles, p.Counted) ∧
      ∀ source self r, At false r [] → Holds r.data s.wire →
        ∃ m' t, readMessage source self r = some (.ok m', t) ∧
          m'.profiles = .fromAddress source :: .toAddress self ::
            m.profiles.map Profile.received

section

variable {m : Message}

/-- The bytes that are written. -/
theorem write_spec (hm : ∀ p ∈ m.profiles, p.WellFormed) (heap : ℕ → ℕ)
    (base memcpyTradeoff : ℕ) (major minor : UInt8) :
    ∃ s, m.write heap (init base m.size memcpyTradeoff false major minor) = some (.ok (), s) ∧
      s.wire = m.put := by
  have hputs : Puts (m.write heap)
      fun w => putProfiles m.profiles (putU32 (BitVec.ofNat 32 m.size) w) :=
    (puts_u32 _).bind (puts_profiles fun d hd => hm _ hd)
  obtain ⟨s, heq, hs⟩ := hputs (init base m.size memcpyTradeoff false major minor)
    (init_ready base m.size memcpyTradeoff false major minor) rfl
  exact ⟨s, heq, hs.wire⟩

/-- A well-formed profile with short lists takes less than 2¹⁷ bytes, with its header. -/
theorem sizeBody_le {p : Profile} (h : p.WellFormed) (hshort : p.Short) (pos : ℕ) :
    p.sizeBody (SizeCDR.write2 (SizeCDR.write2 pos)) ≤ pos + 2 ^ 17 := by
  have hheader : SizeCDR.write2 (SizeCDR.write2 pos) ≤ pos + 5 := by
    rw [SizeCDR.write2, SizeCDR.adjust, SizeCDR.adjust, alignUp, alignUp]
    omega
  generalize SizeCDR.write2 (SizeCDR.write2 pos) = start at hheader
  have haddress : SizeCDR.write2 (SizeCDR.write4 start) ≤ start + 10 := by
    rw [SizeCDR.write2, SizeCDR.write4, SizeCDR.adjust, SizeCDR.adjust, alignUp, alignUp]
    omega
  cases p with
  | fromAddress address => exact h.elim
  | toAddress address => exact h.elim
  | data d =>
    have hd : d.size < 2 ^ 16 := h
    rw [Profile.sizeBody, SizeCDR.writeCharArray, BitVec.toNat_ofNat,
      Nat.mod_eq_of_lt (hd.trans (by norm_num))]
    split_ifs
    · omega
    · rw [SizeCDR.adjust, alignUp_one]
      omega
  | sn n =>
    rw [Profile.sizeBody, SizeCDR.write8, SizeCDR.adjust, alignUp]
    omega
  | nak address sns =>
    have hsns : sns.length ≤ 8190 := hshort
    rw [Profile.sizeBody]
    rcases eq_or_ne sns [] with rfl | hne
    · exact haddress.trans (by omega)
    · rw [foldl_write8 hne]
      generalize SizeCDR.write2 (SizeCDR.write4 start) = mid at haddress
      rw [alignUp]
      omega
  | nrtm map =>
    have hmap : map.length ≤ 7 := hshort
    rw [Profile.sizeBody]
    rcases eq_or_ne map [] with rfl | hne
    · exact hheader.trans (by omega)
    · have hsize := foldl_block hne start
      have halign : alignUp start 8 ≤ start + 7 := by
        rw [alignUp]
        omega
      omega
  | noData => exact hheader.trans (by omega)
  | part p =>
    rw [Profile.sizeBody, SizeCDR.write8, SizeCDR.write4, SizeCDR.adjust, SizeCDR.adjust,
      SizeCDR.adjust, alignUp, alignUp, alignUp]
    omega

/-- A message has at most six profiles. -/
theorem length_profiles_le (hm : ∀ p ∈ m.profiles, p.WellFormed) : m.profiles.length ≤ 6 := by
  have hsub : m.profiles.map Profile.id ⊆ [3, 4, 5, 6, 7, 8] := by
    intro id hid
    obtain ⟨p, hp, rfl⟩ := List.mem_map.mp hid
    have hwf := hm p hp
    cases p with
    | fromAddress address => exact hwf.elim
    | toAddress address => exact hwf.elim
    | _ => simp [Profile.id]
  have hlen := (m.distinct.subperm hsub).length_le
  rwa [List.length_map] at hlen

/-- The length word of a message with short lists is right. -/
theorem size_lt (hm : ∀ p ∈ m.profiles, p.WellFormed) (hshort : ∀ p ∈ m.profiles, p.Short) :
    m.size < 2 ^ 32 := by
  have hfold : ∀ ps : List Profile, (∀ p ∈ ps, p.WellFormed ∧ p.Short) → ∀ pos,
      ps.foldl (fun pos p => p.sizeBody (SizeCDR.write2 (SizeCDR.write2 pos))) pos ≤
        pos + 2 ^ 17 * ps.length := by
    intro ps hps
    induction ps with
    | nil => exact fun pos => le_rfl
    | cons p ps ih =>
      intro pos
      obtain ⟨hwf, hp⟩ := hps p (List.mem_cons_self ..)
      have hle := sizeBody_le hwf hp pos
      have hrest := ih (fun q hq => hps q (List.mem_cons_of_mem _ hq))
        (p.sizeBody (SizeCDR.write2 (SizeCDR.write2 pos)))
      rw [List.foldl_cons, List.length_cons]
      omega
  have hsize := hfold m.profiles (fun p hp => ⟨hm p hp, hshort p hp⟩) (SizeCDR.write4 0)
  have hlen := length_profiles_le hm
  have hfour : SizeCDR.write4 0 = 4 := rfl
  rw [Message.size]
  omega

/-- Every profile has its header. -/
theorem length_le_length_putProfiles {ps : List Profile}
    (hps : ∀ p ∈ ps, p.WellFormed ∧ p.Counted) (w : Wire) :
    w.length + ps.length ≤ (putProfiles ps w).length := by
  induction ps generalizing w with
  | nil => exact le_rfl
  | cons p ps ih =>
    obtain ⟨hwf, hcount⟩ := hps p (List.mem_cons_self ..)
    have hbody := ((Profile.gets_body hwf hcount).adds
      (putU16 p.calculateSize (putU16 p.id w))).length_le
    rw [length_putU16, length_putU16, SizeCDR.write2, SizeCDR.adjust, SizeCDR.adjust] at hbody
    have hle := le_alignUp Nat.two_pos w.length
    have hle' := le_alignUp Nat.two_pos (alignUp w.length 2 + 2)
    have hrest := ih (fun q hq => hps q (List.mem_cons_of_mem _ hq)) (p.put w)
    rw [putProfiles, List.length_cons]
    rw [Profile.put] at hrest ⊢
    omega

/-- A profile is as long as its bytes in the message. -/
theorem length_put_le {ps : List Profile} (hps : ∀ p ∈ ps, p.WellFormed ∧ p.Counted) {p : Profile}
    (hp : p ∈ ps) (w : Wire) : ∃ w', (p.put w').length ≤ (putProfiles ps w).length := by
  induction ps generalizing w with
  | nil => exact absurd hp List.not_mem_nil
  | cons q ps ih =>
    have hps' : ∀ p ∈ ps, p.WellFormed ∧ p.Counted := fun p hp => hps p (List.mem_cons_of_mem _ hp)
    rcases List.mem_cons.mp hp with rfl | hp
    · exact ⟨w, (adds_profiles hps' (p.put w)).length_le⟩
    · exact ih hps' hp (q.put w)

/-- Where the length word and the numbers of entries are right, the lists are short. -/
theorem short_of_counted (hm : ∀ p ∈ m.profiles, p.WellFormed)
    (hcount : ∀ p ∈ m.profiles, p.Counted) (hsize : m.size < 2 ^ 32) :
    ∀ p ∈ m.profiles, p.Short := by
  intro p hp
  cases p with
  | nak address sns =>
    refine ((Profile.counted_nak address sns).mp (hcount _ hp)).resolve_right fun hlen => ?_
    obtain ⟨w, hle⟩ := length_put_le (fun p hp => ⟨hm p hp, hcount p hp⟩) hp
      (putU32 (BitVec.ofNat 32 m.size) [])
    have hput := Message.length_put hm
    rw [Message.put] at hput
    have hne : sns ≠ [] := fun h => by
      rw [h] at hlen
      cases hlen
    rw [hput, Profile.put, length_putBody (hm _ hp), Profile.sizeBody, foldl_write8 hne, hlen] at hle
    omega
  | nrtm map => exact (Profile.counted_nrtm map).mp (hcount _ hp)
  | _ => trivial

/-- The profiles that the receiver adds are of other kinds. -/
theorem nodup_linked (hm : ∀ p ∈ m.profiles, p.WellFormed) (source self : Address) :
    (((Message.empty.linked source self).profiles ++ m.profiles).map Profile.id).Nodup := by
  rw [List.map_append, List.nodup_append']
  refine ⟨(Message.empty.linked source self).distinct, m.distinct, fun id hlinked hid => ?_⟩
  obtain ⟨p, hp, rfl⟩ := List.mem_map.mp hid
  have hwf := hm p hp
  have hids : (Message.empty.linked source self).profiles.map Profile.id = [1, 2] := rfl
  rw [hids] at hlinked
  cases p with
  | fromAddress address => exact hwf
  | toAddress address => exact hwf
  | _ => simp [Profile.id] at hlinked

/-- **Exactly the messages with short lists come back.** -/
theorem codecRoundTrips_iff (hm : ∀ p ∈ m.profiles, p.WellFormed) :
    CodecRoundTrips m ↔ ∀ p ∈ m.profiles, p.Short := by
  have hlength := Message.length_put hm
  constructor
  · intro h
    obtain ⟨s, hwrite, hsize, hcount, -⟩ := h id 0 0 1 2
    obtain ⟨s', hwrite', hwire⟩ := write_spec hm id 0 0 1 2
    cases hwrite.symm.trans hwrite'
    refine short_of_counted hm hcount ?_
    rw [← hlength, ← hwire, ← hsize]
    exact BitVec.isLt _
  · intro hshort heap base memcpyTradeoff major minor
    have hps : ∀ p ∈ m.profiles, p.WellFormed ∧ p.Counted :=
      fun p hp => ⟨hm p hp, Profile.counted_of_short (hshort p hp)⟩
    obtain ⟨s, hwrite, hwire⟩ := write_spec hm heap base memcpyTradeoff major minor
    refine ⟨s, hwrite, ?_, fun p hp => (hps p hp).2, fun source self r hr hholds => ?_⟩
    · rw [hwire, hlength, BitVec.toNat_ofNat, Nat.mod_eq_of_lt (size_lt hm hshort)]
    · rw [hwire, Message.put] at hholds
      obtain ⟨t, hread, hsame, ht⟩ := (gets_u32 (BitVec.ofNat 32 m.size)).define.reads r [] hr
        (Agrees.mono ⟨[], by rwa [List.append_nil]⟩ (adds_profiles hps _))
      have htests : m.profiles.length < t.data.length + 1 := by
        have hle := length_le_length_putProfiles hps (putU32 (BitVec.ofNat 32 m.size) [])
        rw [hsame.data, hholds.length_eq]
        omega
      have hdistinct : (((Message.empty.linked source self).profiles ++ m.profiles).map
          Profile.id).Nodup := nodup_linked hm source self
      obtain ⟨m', u, hloop, hm'⟩ := readProfiles_spec hps hdistinct ht
        (by rw [hsame.data]; exact hholds) htests
      refine ⟨m', u, ?_, hm'⟩
      rw [readMessage, bind_of_ok hread, get_bind_apply]
      exact hloop

end

/-- A message with data and a notice of the numbers of two senders. -/
def noticeAndData : Message :=
  (((Message.empty.add (.nrtm [(⟨10000, 1⟩, 7), (⟨10000, 2⟩, 9)])).add (.sn 5)).add
    (.data (.new [1, 2, 3] 0)))

theorem wellFormed_noticeAndData : ∀ p ∈ noticeAndData.profiles, p.WellFormed := by
  have hps : noticeAndData.profiles = [.nrtm [(⟨10000, 1⟩, 7), (⟨10000, 2⟩, 9)], .sn 5,
    .data (.new [1, 2, 3] 0)] := rfl
  rw [hps]
  simp [Profile.WellFormed, Data.size, Data.new]

theorem noticeAndData_roundTrips_iff :
    CodecRoundTrips noticeAndData ↔ ∀ p ∈ noticeAndData.profiles, p.Short :=
  codecRoundTrips_iff wellFormed_noticeAndData

/-- A notice of the numbers of eight senders. -/
def noticeOfEight : Message :=
  Message.empty.add (.nrtm ((List.range 8).map fun i => (⟨10000, BitVec.ofNat 32 i⟩, 1)))

/-- **Eight entries** are taken for nine. -/
theorem not_codecRoundTrips_eight : ¬CodecRoundTrips noticeOfEight := fun h => by
  obtain ⟨-, -, -, hcount, -⟩ := h id 0 0 1 2
  exact absurd (hcount _ (List.mem_cons_self ..)) (by
    rw [Profile.counted_nrtm]
    decide)

end AceTao.RMCast
