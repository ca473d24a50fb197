import AceTao.Fixed.Aligned
import AceTao.Fixed.Loops

/-!
# Sums and differences

`addAssign` and `subAssign` are `operator+=` and `operator-=`. Where the signs are such that the
magnitudes are added, that is `addSame`, and `subSame` where they are subtracted. With `s` the scale
at which the two meet (`sumScale`), the sum has the digits `a.scaledTo s + b.scaledTo s`
(`addSame_spec`), and so has the difference (`subSame_direct`), unless a borrow is lost.

The digits of the right number end below digit `sumPlace`. A borrow that is left there goes to the
next digit, and is lost where that is zero, `Stuck`: the result is too great by nine units of that
digit (`subSame_stuck`).
-/

namespace AceTao.Fixed

open DigitList

/-! ### The source -/

/-- What `operator+=` does with a carry that is left at the end. -/
def lastCarry (f : Fixed) (carry : Bool) (lhsIter : ℕ) : Except Fault Fixed :=
  if carry then
    if f.digits < maxDigits then do
      let f ← f.assign lhsIter 1
      .ok { f with digits := f.digits + 1 }
    else if f.scale ≠ 0 then
      let f := (f.setDigit 0 0).normalize (f.scale - 1)
      let f := { f with digits := f.digits + 1 }
      .ok (f.setDigit (maxDigits - 1) 1)
    else .error .overflow
  else .ok f

/-- **`operator+=`** for two numbers of the same sign. -/
def addSame (lhs rhs : Fixed) : Except Fault Fixed :=
  let result := lhs.preAdd rhs
  let lhsIter := result.1.scale - rhs.scale
  do
    let k ← steps result.2 rhs.digits
    let sum ← addLoop rhs k lhsIter result.2 false result.1
    let carried ← passCarry (lhsIter + k) sum.2 sum.1
    lastCarry carried.1 carried.2.1 carried.2.2

/-- **`operator-=`** for two numbers of the same sign. Where a borrow is left, the two are exchanged;
they still have the same sign. -/
def subSame : ℕ → Fixed → Fixed → Except Fault Fixed
  | 0, _, _ => .error .depth
  | fuel + 1, before, rhs =>
    let this := before.preAdd rhs
    let lhsIter := this.1.scale - rhs.scale
    do
      let k ← steps this.2 rhs.digits
      let difference ← subLoop rhs k lhsIter this.2 false this.1
      let borrowed ← borrowLoop (lhsIter + k) 2 difference.2 difference.1
      if borrowed.2 then
        let f ← subSame fuel rhs before
        .ok f.neg
      else .ok borrowed.1.ltrim

/-- `*this` after an operation, which is only assigned where no exception is thrown. -/
def commit (f : Fixed) : Except Fault Fixed → Fixed × Option Fault
  | .ok result => (result, none)
  | .error fault => (f, some fault)

/-- **The operator `+=`**: what `*this` is afterwards, and the exception. -/
def addAssign (lhs rhs : Fixed) : Fixed × Option Fault :=
  lhs.commit <|
    if !lhs.sign && rhs.sign then subSame 2 lhs rhs.neg
    else if lhs.sign && !rhs.sign then do
      let negated ← subSame 2 lhs.neg rhs
      .ok negated.neg
    else addSame lhs rhs

/-- **The operator `-=`.** -/
def subAssign (lhs rhs : Fixed) : Fixed × Option Fault :=
  lhs.commit <|
    if !lhs.sign && rhs.sign then addSame lhs rhs.neg
    else if lhs.sign && !rhs.sign then do
      let negated ← addSame lhs.neg rhs
      .ok negated.neg
    else subSame 2 lhs rhs

/-! ### The sum of the magnitudes -/

variable {a b f : Fixed} {i s : ℕ} {c : Bool}

/-- The digit of the left number that is above those of the right. -/
def sumPlace (a b : Fixed) : ℕ := sumScale a b + (b.digits - b.scale)

theorem sumPlace_le (a b : Fixed) : sumPlace a b ≤ sumDigits a b := le_max_right _ _

/-- Where the loop over the digits of both begins and ends. -/
theorem loop_bounds (hb : Valid b) (s : ℕ) :
    steps (b.scale - s) b.digits = .ok (b.digits - (b.scale - s)) ∧
      s - b.scale + (b.digits - (b.scale - s)) = s + (b.digits - b.scale) := by
  have h1 := hb.scale_le
  exact ⟨if_pos (by omega), by omega⟩

/-- **The last carry** gets a digit of its own, where there is one left. -/
theorem lastCarry_spec (h : Decimal f) (hscale : f.scale ≤ f.digits) (hdigits : f.digits ≤ maxDigits)
    (hlt : f.mantissa < 10 ^ f.digits) (hend : c = true → i = f.digits)
    {S : ℕ} (hS : S = f.mantissa + 10 ^ f.digits * c.toNat) :
    (S < 10 ^ maxDigits → ∃ r, lastCarry f c i = .ok r ∧ Decimal r ∧ r.negative = f.negative ∧
        r.scale = f.scale ∧ f.digits ≤ r.digits ∧ r.digits ≤ maxDigits ∧ r.mantissa = S ∧
        S < 10 ^ r.digits) ∧
      (10 ^ maxDigits ≤ S → f.scale ≠ 0 → ∃ r, lastCarry f c i = .ok r ∧ Decimal r ∧
        r.negative = f.negative ∧ r.scale = f.scale - 1 ∧ r.digits = maxDigits ∧
        r.mantissa = S / 10) ∧
      (10 ^ maxDigits ≤ S → f.scale = 0 → lastCarry f c i = .error .overflow) := by
  cases c with
  | false =>
    rw [Bool.toNat_false, Nat.mul_zero, Nat.add_zero] at hS
    subst hS
    have hmax := mantissa_lt h
    exact ⟨fun _ => ⟨f, rfl, h, rfl, rfl, le_rfl, hdigits, rfl, hlt⟩,
      fun hc => absurd hmax (not_lt.mpr hc), fun hc => absurd hmax (not_lt.mpr hc)⟩
  | true =>
    obtain rfl := hend rfl
    rw [Bool.toNat_true, Nat.mul_one] at hS
    rw [lastCarry, if_pos rfl]
    by_cases hroom : f.digits < maxDigits
    · rw [if_pos hroom, assign_eq h hroom]
      have hset := mantissa_setDigit h hroom 1
      have hzero : f.digit f.digits = 0 := (clean_iff h f.digits).mpr hlt _ le_rfl
      rw [hzero, Nat.mul_zero, Nat.add_zero, Nat.mul_one, ← hS] at hset
      have hSlt : S < 10 ^ (f.digits + 1) := by
        rw [pow_succ, hS]
        omega
      have hle : (10 : ℕ) ^ (f.digits + 1) ≤ 10 ^ maxDigits :=
        Nat.pow_le_pow_right (by norm_num) hroom
      refine ⟨fun _ => ⟨_, rfl, ?_, rfl, rfl, Nat.le_succ _, hroom, hset, hSlt⟩,
        fun hc => absurd (hSlt.trans_le hle) (not_lt.mpr hc),
        fun hc => absurd (hSlt.trans_le hle) (not_lt.mpr hc)⟩
      exact ⟨(h.setDigit (by norm_num) _).length, (h.setDigit (by norm_num) _).isDigits⟩
    · have hfull : f.digits = maxDigits := by omega
      rw [if_neg hroom]
      rw [hfull] at hS hlt
      refine ⟨fun hc => absurd hc (by omega), fun _ hne => ?_, fun _ hzero => ?_⟩
      · -- the last digit behind the point makes room
        rw [if_pos hne]
        obtain ⟨hd, hsign, hdigits', hscale', hvalue⟩ := normalize_clearDigits h hscale hdigits
          (hfull ▸ hlt) Nat.one_pos (Nat.one_le_iff_ne_zero.mpr hne)
        have hlast := mantissa_setDigit (n := maxDigits - 1) (f := (clearDigits 1 0 f).normalize
          (f.scale - 1)) hd (by norm_num [maxDigits]) 1
        have htop : ((clearDigits 1 0 f).normalize (f.scale - 1)).digit (maxDigits - 1) = 0 := by
          refine (clean_iff hd (maxDigits - 1)).mpr ?_ _ le_rfl
          rw [hvalue, pow_one, Nat.div_lt_iff_lt_mul (by norm_num), ← pow_succ]
          exact hlt
        rw [htop, hvalue, Nat.mul_zero, Nat.add_zero, Nat.mul_one, pow_one] at hlast
        have hdec := hd.setDigit (show 1 < 10 by norm_num) (maxDigits - 1)
        refine ⟨_, rfl, ⟨hdec.length, hdec.isDigits⟩, hsign, hscale', ?_, hlast.trans ?_⟩
        · refine (congrArg (· + 1) hdigits').trans ?_
          rw [hfull]
          rfl
        · rw [hS, show 10 ^ maxDigits = 10 * 10 ^ (maxDigits - 1) from rfl,
            Nat.add_mul_div_left _ _ (by norm_num)]
      · rw [if_neg (not_not.mpr hzero)]

/-- Numbers that are equal above a digit are equal above the next ones. -/
theorem div_pow_eq_of_le {x y p q : ℕ} (hle : p ≤ q) (h : x / 10 ^ p = y / 10 ^ p) :
    x / 10 ^ q = y / 10 ^ q := by
  obtain ⟨k, rfl⟩ := Nat.exists_eq_add_of_le hle
  rw [pow_add, ← Nat.div_div_eq_div_mul, h, Nat.div_div_eq_div_mul]

/-- **The sum of the magnitudes** at the scale where they meet. -/
theorem addSame_spec (ha : Valid a) (hb : Valid b) {S : ℕ}
    (hS : S = a.scaledTo (sumScale a b) + b.scaledTo (sumScale a b)) :
    (S < 10 ^ maxDigits → ∃ r, addSame a b = .ok r ∧ Decimal r ∧ r.negative = a.negative ∧
        r.scale = sumScale a b ∧ sumDigits a b ≤ r.digits ∧ r.digits ≤ maxDigits ∧
        r.mantissa = S ∧ S < 10 ^ r.digits) ∧
      (10 ^ maxDigits ≤ S → sumScale a b ≠ 0 → ∃ r, addSame a b = .ok r ∧ Decimal r ∧
        r.negative = a.negative ∧ r.scale = sumScale a b - 1 ∧ r.digits = maxDigits ∧
        r.mantissa = S / 10) ∧
      (10 ^ maxDigits ≤ S → sumScale a b = 0 → addSame a b = .error .overflow) := by
  obtain ⟨hd, hsign, hs, hdigits, hvalue, hskip⟩ := preAdd_spec ha hb
  obtain ⟨hsteps, hend⟩ := loop_bounds hb (sumScale a b)
  have hD := sumDigits_le (a := a) hb
  have hp := sumPlace_le a b
  have hb2 := hb.digits_le
  -- the digits of both, and then the carry
  obtain ⟨g, c, hrun, hg, hshape, hsum, htop⟩ := @addLoop_spec (a.preAdd b).1 b
    (sumScale a b - b.scale) (b.scale - sumScale a b) (b.digits - (b.scale - sumScale a b)) false
    hd hb.toDecimal (by rw [hend]; exact hp.trans hD) (by
      have h1 := hb.scale_le
      omega)
  rw [hend] at hsum htop
  rw [Bool.toNat_false, Nat.add_zero, scaledTo_eq hb, hvalue, ← hS] at hsum
  have hgdigits : g.digits = sumDigits a b := hshape.digits.trans hdigits
  have hlen : sumPlace a b + (g.digits - sumPlace a b) = sumDigits a b := by
    rw [hgdigits]
    exact Nat.add_sub_cancel' hp
  obtain ⟨g', c', i', hrun', hg', hshape', hsum', htop', hend'⟩ :=
    carryLoop_spec (c := c) hg (hlen.le.trans hD)
  rw [hlen] at hsum' htop' hend'
  have hall : addSame a b = lastCarry g' c' i' := by
    rw [addSame, hskip, hs, hsteps]
    change (addLoop _ _ _ _ _ _ >>= _) = _
    rw [hrun]
    change (passCarry _ c g >>= _) = _
    rw [hend]
    change (passCarry (sumPlace a b) c g >>= _) = _
    rw [passCarry_eq (hgdigits ▸ hp), hrun']
    rfl
  have hdigits' : g'.digits = sumDigits a b := hshape'.digits.trans hgdigits
  have hscale' : g'.scale = sumScale a b := hshape'.scale.trans (hshape.scale.trans hs)
  have hsign' : g'.negative = a.negative := hshape'.negative.trans (hshape.negative.trans hsign)
  have hlt : g'.mantissa < 10 ^ g'.digits := by
    rw [hdigits', ← Nat.div_eq_zero_iff_lt (Nat.pow_pos (by norm_num)), htop',
      div_pow_eq_of_le hp htop, hvalue, Nat.div_eq_zero_iff_lt (Nat.pow_pos (by norm_num))]
    exact scaledTo_lt_sumDigits ha hb
  have hlast := lastCarry_spec hg' (by rw [hscale', hdigits']; exact (Nat.le_add_right _ _).trans hp)
    (hdigits' ▸ hD) hlt (fun hc => (hend' hc).trans hdigits'.symm) (S := S) (by
      rw [hdigits', hsum', ← hsum]
      rfl)
  rw [hall]
  rw [hdigits', hscale', hsign'] at hlast
  exact hlast

/-! ### The difference of the magnitudes -/

/-- **A borrow is lost**: the digits of the left number below `sumPlace` are smaller than the right
number, and it has a next digit, which is zero. -/
def Stuck (a b : Fixed) : Prop :=
  sumPlace a b < sumDigits a b ∧
    a.scaledTo (sumScale a b) % 10 ^ sumPlace a b < b.scaledTo (sumScale a b) ∧
    a.scaledTo (sumScale a b) / 10 ^ sumPlace a b % 10 = 0

instance (a b : Fixed) : Decidable (Stuck a b) := by
  unfold Stuck
  infer_instance

theorem scaledTo_lt_sumPlace (hb : Valid b) :
    b.scaledTo (sumScale a b) < 10 ^ sumPlace a b :=
  scaledTo_lt hb (sumScale a b)

/-- A borrow is left when the digits below a place are too few. -/
theorem borrow_iff {x y z T : ℕ} (hT : 0 < T) (hdiff : z + y = x + T * c.toNat)
    (htop : z / T = x / T) : c = true ↔ x % T < y := by
  have hz := Nat.div_add_mod z T
  have hx := Nat.div_add_mod x T
  have hlt := Nat.mod_lt z hT
  have hlt' := Nat.mod_lt x hT
  rw [htop] at hz
  generalize x / T = q at hz hx
  generalize T * q = Tq at hz hx
  cases c with
  | false =>
    rw [Bool.toNat_false, Nat.mul_zero, Nat.add_zero] at hdiff
    exact ⟨nofun, fun hc => absurd hc (by omega)⟩
  | true =>
    rw [Bool.toNat_true, Nat.mul_one] at hdiff
    exact ⟨fun _ => by omega, fun _ => rfl⟩

/-- **One round** of `operator-=`, after the loop over the digits of both. -/
theorem subSame_succ (ha : Valid a) (hb : Valid b) (fuel : ℕ) :
    ∃ g c, Decimal g ∧ g.negative = a.negative ∧ g.scale = sumScale a b ∧
      g.digits = sumDigits a b ∧
      g.mantissa + b.scaledTo (sumScale a b) =
        a.scaledTo (sumScale a b) + 10 ^ sumPlace a b * c.toNat ∧
      g.mantissa / 10 ^ sumPlace a b = a.scaledTo (sumScale a b) / 10 ^ sumPlace a b ∧
      (c = true ↔ a.scaledTo (sumScale a b) % 10 ^ sumPlace a b < b.scaledTo (sumScale a b)) ∧
      subSame (fuel + 1) a b = (do
        let borrowed ← borrowLoop (sumPlace a b) 2 c g
        if borrowed.2 then
          let f ← subSame fuel b a
          .ok f.neg
        else .ok borrowed.1.ltrim) := by
  obtain ⟨hd, hsign, hs, hdigits, hvalue, hskip⟩ := preAdd_spec ha hb
  obtain ⟨hsteps, hend⟩ := loop_bounds hb (sumScale a b)
  have hD := sumDigits_le (a := a) hb
  have hp := sumPlace_le a b
  obtain ⟨g, c, hrun, hg, hshape, hdiff, htop⟩ := @subLoop_spec (a.preAdd b).1 b
    (sumScale a b - b.scale) (b.scale - sumScale a b) (b.digits - (b.scale - sumScale a b)) false
    hd hb.toDecimal (by rw [hend]; exact hp.trans hD) (by
      have h1 := hb.scale_le
      have h2 := hb.digits_le
      omega)
  rw [hend] at hdiff htop
  rw [Bool.toNat_false, Nat.add_zero, scaledTo_eq hb, hvalue] at hdiff
  rw [hvalue] at htop
  refine ⟨g, c, hg, hshape.negative.trans hsign, hshape.scale.trans hs,
    hshape.digits.trans hdigits, hdiff, htop, ?_, ?_⟩
  · exact borrow_iff (Nat.pow_pos (by norm_num)) hdiff htop
  · rw [subSame, hskip, hs, hsteps]
    change (subLoop _ _ _ _ _ _ >>= _) = _
    rw [hrun]
    change (borrowLoop _ 2 c g >>= _) = _
    rw [hend]
    rfl

/-- What `operator-=` leaves, with the digits `m` at the scale of both. -/
structure Difference (a b r : Fixed) (m : ℕ) : Prop extends Decimal r where
  negative : r.negative = a.negative
  scale : r.scale = sumScale a b
  scale_le : r.scale ≤ r.digits
  digits_le : r.digits ≤ sumDigits a b
  mantissa : r.mantissa = m
  mantissa_lt : m < 10 ^ r.digits

/-- The zeros in front are forgotten at the end. -/
theorem Difference.of_ltrim {g : Fixed} {m : ℕ} (hg : Decimal g) (hsign : g.negative = a.negative)
    (hscale : g.scale = sumScale a b) (hdigits : g.digits = sumDigits a b) (hm : g.mantissa = m)
    (hlt : m < 10 ^ sumDigits a b) : Difference a b g.ltrim m := by
  have hle : g.scale ≤ g.digits := by
    rw [hscale, hdigits]
    exact (Nat.le_add_right _ _).trans (sumPlace_le a b)
  obtain ⟨hd, hs, hsc, hv, h1, h2, h3, -⟩ := ltrim_spec hg (by rw [hm, hdigits]; exact hlt) hle
  exact ⟨hd, hs.trans hsign, hsc.trans hscale, hsc ▸ h2, h1.trans hdigits.le, hv.trans hm, hm ▸ h3⟩

/-- The digit at `sumPlace` is that of the left number. -/
theorem digit_sumPlace {g : Fixed} (hg : Decimal g)
    (htop : g.mantissa / 10 ^ sumPlace a b = a.scaledTo (sumScale a b) / 10 ^ sumPlace a b) :
    g.digit (sumPlace a b) = a.scaledTo (sumScale a b) / 10 ^ sumPlace a b % 10 := by
  rw [digit_eq hg, htop]

/-- **The difference of the magnitudes**, where that is not negative and no borrow is lost. -/
theorem subSame_direct (ha : Valid a) (hb : Valid b) (hstuck : ¬Stuck a b)
    (hle : b.scaledTo (sumScale a b) ≤ a.scaledTo (sumScale a b)) (fuel : ℕ) :
    ∃ r, subSame (fuel + 1) a b = .ok r ∧
      Difference a b r (a.scaledTo (sumScale a b) - b.scaledTo (sumScale a b)) := by
  obtain ⟨g, c, hg, hsign, hscale, hdigits, hdiff, htop, hc, hall⟩ := subSame_succ ha hb fuel
  have hD := sumDigits_le (a := a) hb
  have hA := scaledTo_lt_sumDigits ha hb
  rw [hall]
  cases c with
  | false =>
    rw [Bool.toNat_false, Nat.mul_zero, Nat.add_zero] at hdiff
    rw [borrowLoop_false]
    exact ⟨g.ltrim, rfl, .of_ltrim hg hsign hscale hdigits (by omega) (by omega)⟩
  | true =>
    have hlow := hc.mp rfl
    have hp : sumPlace a b < sumDigits a b := by
      refine lt_of_le_of_ne (sumPlace_le a b) fun heq => ?_
      rw [heq, Nat.mod_eq_of_lt hA] at hlow
      exact absurd hlow (not_lt.mpr hle)
    have hpos : g.digit (sumPlace a b) ≠ 0 :=
      fun hzero => hstuck ⟨hp, hlow, (digit_sumPlace hg htop).symm.trans hzero⟩
    have hset := mantissa_setDigit hg (hp.trans_le hD) (g.digit (sumPlace a b) - 1)
    rw [borrowLoop_pos hg (hp.trans_le hD) (by rw [hdigits]; exact hp.ne) hpos]
    refine ⟨(g.setDigit (sumPlace a b) (g.digit (sumPlace a b) - 1)).ltrim, rfl,
      .of_ltrim (hg.setDigit ?_ _) hsign hscale hdigits ?_ (by omega)⟩
    · have hlt := digit_lt hg (sumPlace a b)
      omega
    · obtain ⟨d, hd⟩ := Nat.exists_eq_succ_of_ne_zero hpos
      rw [hd, Nat.succ_sub_one, Nat.mul_succ] at hset
      rw [Bool.toNat_true, Nat.mul_one] at hdiff
      rw [hd, Nat.succ_sub_one]
      omega

/-- **The two are exchanged** where the right magnitude is greater. -/
theorem subSame_swap (ha : Valid a) (hb : Valid b) (hstuck : ¬Stuck a b)
    (hlt : a.scaledTo (sumScale a b) < b.scaledTo (sumScale a b)) (fuel : ℕ) :
    subSame (fuel + 1) a b = (do
      let f ← subSame fuel b a
      .ok f.neg) := by
  obtain ⟨g, c, hg, hsign, hscale, hdigits, hdiff, htop, hc, hall⟩ := subSame_succ ha hb fuel
  have hB := scaledTo_lt_sumPlace (a := a) hb
  have hlow : a.scaledTo (sumScale a b) % 10 ^ sumPlace a b < b.scaledTo (sumScale a b) :=
    (Nat.mod_le _ _).trans_lt hlt
  have hp : sumPlace a b = g.digits := by
    by_contra hne
    refine hstuck ⟨lt_of_le_of_ne (sumPlace_le a b) (hdigits ▸ hne), hlow, ?_⟩
    rw [Nat.div_eq_of_lt (hlt.trans hB), Nat.zero_mod]
  rw [hall, hc.mpr hlow, borrowLoop_end hp]
  rfl

/-- **A lost borrow**: the digit that should be borrowed from is eight. -/
theorem subSame_stuck (ha : Valid a) (hb : Valid b) (hstuck : Stuck a b) (fuel : ℕ) :
    ∃ r m, subSame (fuel + 1) a b = .ok r ∧ Difference a b r m ∧
      m + b.scaledTo (sumScale a b) =
        a.scaledTo (sumScale a b) + 9 * 10 ^ sumPlace a b := by
  obtain ⟨g, c, hg, hsign, hscale, hdigits, hdiff, htop, hc, hall⟩ := subSame_succ ha hb fuel
  obtain ⟨hp, hlow, hzero⟩ := hstuck
  have hD := sumDigits_le (a := a) hb
  have hdigit : g.digit (sumPlace a b) = 0 := (digit_sumPlace hg htop).trans hzero
  rw [hall, hc.mpr hlow, borrowLoop_zero hg (hp.trans_le hD) (by rw [hdigits]; exact hp.ne) hdigit]
  rw [hc.mpr hlow, Bool.toNat_true, Nat.mul_one] at hdiff
  have hd := hg.setDigit (show 9 < 10 by norm_num) (sumPlace a b)
  have hset := mantissa_setDigit hg (hp.trans_le hD) 9
  have hset' := mantissa_setDigit hd (hp.trans_le hD) 8
  rw [digit_setDigit hg (hp.trans_le hD), if_pos rfl] at hset'
  rw [hdigit] at hset
  refine ⟨((g.setDigit (sumPlace a b) 9).setDigit (sumPlace a b) 8).ltrim, _, rfl,
    .of_ltrim (hd.setDigit (by norm_num) _) hsign hscale hdigits rfl ?_, by omega⟩
  -- the digits above are those of the left number
  rw [← Nat.div_eq_zero_iff_lt (Nat.pow_pos (by norm_num)),
    mantissa_setDigit_div hd (by norm_num) hp, mantissa_setDigit_div hg (by norm_num) hp,
    div_pow_eq_of_le hp.le htop, Nat.div_eq_zero_iff_lt (Nat.pow_pos (by norm_num))]
  exact scaledTo_lt_sumDigits ha hb

end AceTao.Fixed
