import Mathlib

/-!
# Lib.Binary64 — the order of the doubles, and an integer times a fraction

Doubles other than a NaN stand on a line, and compare as they stand there (`lt_iff_position`).

A 32-bit integer is converted to a double, multiplied by a fraction and cut off again.  The product is
rounded to 53 bits, and still the result is below the integer wherever the factor is below one
(`toInt32_mul_lt`), and is the integer where the factor is one (`toInt32_mul_one`).  `belowOne_lt_iff`
names the greatest double below one.  The doubles are `Float.Model`, bit by bit.
-/

namespace Lib.Binary64

open Float.Model Float.Model.UnpackedFloat

/-! ### Rounding -/

theorem mantissa_shiftRight (em : ExtendedMantissa) (k : ℕ) :
    (em >>> k).mantissa = em.mantissa / 2 ^ k := by
  induction k with
  | zero => exact (Nat.div_one _).symm
  | succ k ih =>
    show (em >>> k).mantissa / 2 = _
    rw [ih, Nat.div_div_eq_div_mul, pow_succ]

theorem roundBit_shiftRight (em : ExtendedMantissa) (k : ℕ) :
    (em >>> (k + 1)).roundBit = (em.mantissa / 2 ^ k % 2 != 0) := by
  show ((em >>> k).mantissa % 2 != 0) = _
  rw [mantissa_shiftRight]

/-- Rounding goes up only where the bit behind the mantissa is set. -/
theorem roundedMantissa_cases (em : ExtendedMantissa) :
    em.roundedMantissa = em.mantissa ∨ em.roundBit = true ∧ em.mantissa ≤ em.roundedMantissa ∧
      em.roundedMantissa ≤ em.mantissa + 1 := by
  obtain ⟨m, round, sticky⟩ := em
  cases round with
  | false => cases sticky <;> exact .inl rfl
  | true =>
    refine .inr ⟨rfl, ?_⟩
    cases sticky with
    | false =>
      show m ≤ m + m % 2 ∧ m + m % 2 ≤ m + 1
      omega
    | true => exact ⟨Nat.le_succ m, le_rfl⟩

/-- An exact mantissa that is shifted by `k` bits and rounded. -/
def rounded (p k : ℕ) : ℕ := ((⟨p, false, false⟩ : ExtendedMantissa) >>> k).roundedMantissa

theorem div_le_rounded (p k : ℕ) : p / 2 ^ k ≤ rounded p k := by
  have hm := mantissa_shiftRight ⟨p, false, false⟩ k
  rcases roundedMantissa_cases ((⟨p, false, false⟩ : ExtendedMantissa) >>> k) with hr | ⟨-, hr, -⟩
  · exact (hr.trans hm).ge
  · exact hm ▸ hr

theorem rounded_le_div (p k : ℕ) : rounded p k ≤ p / 2 ^ k + 1 := by
  have hm := mantissa_shiftRight ⟨p, false, false⟩ k
  rcases roundedMantissa_cases ((⟨p, false, false⟩ : ExtendedMantissa) >>> k) with hr | ⟨-, -, hr⟩
  · exact (hr.trans hm).le.trans (Nat.le_succ _)
  · exact hm ▸ hr

/-- **Rounding errs by half a unit at most.** -/
theorem rounded_mul_le (p k : ℕ) : 2 * (rounded p k * 2 ^ k) ≤ 2 * p + 2 ^ k := by
  have hm := mantissa_shiftRight ⟨p, false, false⟩ k
  rcases roundedMantissa_cases ((⟨p, false, false⟩ : ExtendedMantissa) >>> k) with hr | ⟨hbit, -, hr⟩
  · have hfloor : rounded p k = p / 2 ^ k := hr.trans hm
    rw [hfloor]
    exact (Nat.mul_le_mul_left 2 (Nat.div_mul_le_self p _)).trans (Nat.le_add_right _ _)
  · cases k with
    | zero => simp [HShiftRight.hShiftRight, Nat.repeat] at hbit
    | succ k =>
      rw [roundBit_shiftRight, bne_iff_ne] at hbit
      have hhalf : p / 2 ^ (k + 1) = p / 2 ^ k / 2 := by rw [Nat.div_div_eq_div_mul, pow_succ]
      have hodd : 2 * (p / 2 ^ (k + 1) + 1) = p / 2 ^ k + 1 := by
        rw [hhalf]
        simp only at hbit
        omega
      calc 2 * (rounded p (k + 1) * 2 ^ (k + 1))
          _ ≤ 2 * ((p / 2 ^ (k + 1) + 1) * 2 ^ (k + 1)) := by gcongr; exact rounded_le_div p (k + 1)
          _ = 2 * (2 * (p / 2 ^ (k + 1) + 1)) * 2 ^ k := by ring
          _ = 2 * (p / 2 ^ k * 2 ^ k) + 2 ^ (k + 1) := by rw [hodd]; ring
          _ ≤ 2 * p + 2 ^ (k + 1) := by gcongr; exact Nat.div_mul_le_self p _

/-! ### Packing -/

/-- The finite doubles as they are unpacked. -/
structure Canonical (m : ℕ) (e : ℤ) : Prop where
  pos : 0 < m
  lt : m < 2 ^ 53
  normal : 2 ^ 52 ≤ m ∨ e = -1074
  lo : -1074 ≤ e
  hi : e ≤ 971

theorem log2_of_normal {m : ℕ} (h1 : 2 ^ 52 ≤ m) (h2 : m < 2 ^ 53) : m.log2 = 52 :=
  (Nat.log2_eq_iff (by omega)).mpr ⟨h1, h2⟩

/-- The bits of a finite double. -/
theorem pack_finite (s : Sign) {m : ℕ} (e : ℤ) (hm : 0 < m) :
    UnpackedFloat.pack Format.binary64 (.finite s m e hm) =
      if 2048 ≤ (e + 1075).toNat + 1 then packedInfinity Format.binary64 s
      else if m.log2 + 1 = 53 then
        packComponents Format.binary64 s (BitVec.ofNat 11 (e + 1075).toNat) (BitVec.ofNat 52 m)
      else packComponents Format.binary64 s 0#11 (BitVec.ofNat 52 m) := by
  have hbias : (e + (1023 : ℕ) + (52 : ℕ)).toNat = (e + 1075).toNat := by omega
  rw [← hbias]
  rfl

theorem toNat_implicit (v : BitVec 52) : (1#1 ++ v).toNat = 2 ^ 52 + v.toNat := by
  have hbit : (1#1).toNat = 1 := rfl
  rw [BitVec.toNat_append, hbit, Nat.shiftLeft_eq, Nat.mul_comm,
    ← Nat.two_pow_add_eq_or_of_lt v.isLt, Nat.mul_one]

theorem unpack_pack_normal (s : Sign) {m : ℕ} {e : ℤ} (hm : 0 < m) (hlo : 2 ^ 52 ≤ m)
    (hhi : m < 2 ^ 53) (he : -1074 ≤ e ∧ e ≤ 971) :
    (Float.Model.pack (.finite s m e hm)).unpack = .finite s m e hm := by
  have hexp : (BitVec.ofNat 11 (e + 1075).toNat).toNat = (e + 1075).toNat := by
    rw [BitVec.toNat_ofNat, Nat.mod_eq_of_lt (by omega)]
  have hinf : BitVec.ofNat 11 (e + 1075).toNat ≠ -1#11 := fun h => by
    have hval : (e + 1075).toNat = 2047 := hexp.symm.trans (congrArg BitVec.toNat h)
    omega
  have hzero : BitVec.ofNat 11 (e + 1075).toNat ≠ 0#11 := fun h => by
    have hval : (e + 1075).toNat = 0 := hexp.symm.trans (congrArg BitVec.toNat h)
    omega
  have hman : (1#1 ++ BitVec.ofNat 52 m).toNat = m := by
    rw [toNat_implicit, BitVec.toNat_ofNat]
    omega
  show UnpackedFloat.unpack Format.binary64 (UnpackedFloat.pack Format.binary64 _) = _
  rw [pack_finite, if_neg (by omega), if_pos (by rw [log2_of_normal hlo hhi])]
  unfold UnpackedFloat.unpack
  simp only [unpackMantissa_packComponents, unpackExponent_packComponents,
    UnpackedFloat.unpackSign_packComponents, Sign.ofBitVec_toBitVec, if_neg hinf, if_neg hzero, hman,
    hexp]
  congr 1
  show ((e + 1075).toNat : ℤ) - ((1023 : ℕ) + (52 : ℕ)) = e
  omega

theorem unpack_pack_subnormal (s : Sign) {m : ℕ} (hm : 0 < m) (hlt : m < 2 ^ 52) :
    (Float.Model.pack (.finite s m (-1074) hm)).unpack = .finite s m (-1074) hm := by
  have hlog : m.log2 < 52 := (Nat.log2_lt hm.ne').mpr hlt
  have hman : (BitVec.ofNat 52 m).toNat = m := by
    rw [BitVec.toNat_ofNat, Nat.mod_eq_of_lt hlt]
  have hne : BitVec.ofNat 52 m ≠ 0#52 := fun h =>
    hm.ne' (hman.symm.trans (congrArg BitVec.toNat h))
  show UnpackedFloat.unpack Format.binary64 (UnpackedFloat.pack Format.binary64 _) = _
  rw [pack_finite, if_neg (by omega), if_neg (by omega)]
  unfold UnpackedFloat.unpack
  simp only [unpackMantissa_packComponents, unpackExponent_packComponents,
    UnpackedFloat.unpackSign_packComponents, Sign.ofBitVec_toBitVec, dif_neg hne, hman]
  rfl

/-- **Packing loses nothing** of a canonical double. -/
theorem unpack_pack (s : Sign) {m : ℕ} {e : ℤ} (h : Canonical m e) :
    (Float.Model.pack (.finite s m e h.pos)).unpack = .finite s m e h.pos := by
  by_cases hlo : 2 ^ 52 ≤ m
  · exact unpack_pack_normal s h.pos hlo h.lt ⟨h.lo, h.hi⟩
  · obtain rfl := h.normal.resolve_left hlo
    exact unpack_pack_subnormal s h.pos (not_le.mp hlo)

/-- What is unpacked is canonical. -/
theorem canonical_unpack {x : Float.Model} {s : Sign} {m : ℕ} {e : ℤ} {hm : 0 < m}
    (h : x.unpack = .finite s m e hm) : Canonical m e := by
  replace h : UnpackedFloat.unpack Format.binary64 x.toBits.toBitVec = .finite s m e hm := h
  unfold UnpackedFloat.unpack at h
  have hman : (@unpackMantissa Format.binary64 x.toBits.toBitVec).toNat < 2 ^ 52 := BitVec.isLt _
  have hexp : (@unpackExponent Format.binary64 x.toBits.toBitVec).toNat < 2 ^ 11 := BitVec.isLt _
  have hbias : ((Format.binary64.exponentBias : ℤ) + (52 : ℕ)) = 1075 := rfl
  dsimp only at h
  rw [hbias] at h
  split_ifs at h with hinf hinf0 hzero hman0
  · obtain ⟨-, rfl, rfl⟩ := UnpackedFloat.finite.inj h
    have hexp0 : (@unpackExponent Format.binary64 x.toBits.toBitVec).toNat = 0 := by
      rw [hzero]
      rfl
    exact ⟨hm, by omega, .inr (by omega), by omega, by omega⟩
  · obtain ⟨-, rfl, rfl⟩ := UnpackedFloat.finite.inj h
    have hexp0 : (@unpackExponent Format.binary64 x.toBits.toBitVec).toNat ≠ 0 := fun h0 =>
      hzero (BitVec.eq_of_toNat_eq h0)
    have hexp1 : (@unpackExponent Format.binary64 x.toBits.toBitVec).toNat ≠ 2047 := fun h1 =>
      hinf (BitVec.eq_of_toNat_eq h1)
    rw [toNat_implicit] at hm ⊢
    exact ⟨hm, by omega, .inl (by omega), by omega, by omega⟩

/-! ### Truncation -/

/-- A double with bits behind the point is cut off at the point. -/
theorem roundToInt_of_nonpos {m : ℕ} {e : ℤ} (he : e ≤ 0) :
    roundToInt .positive m e = (m / 2 ^ (-e).toNat : ℕ) := by
  have hinc : (e - 0).toNat = 0 := by omega
  have hdec : decreaseExponent m e 0 = (m, e) := by
    unfold decreaseExponent
    rw [hinc]
    simp
  unfold roundToInt
  rw [hdec]
  show ((((⟨m, false, false⟩ : ExtendedMantissa) >>> (0 - e).toNat).mantissa : ℕ) : ℤ) = _
  rw [mantissa_shiftRight, zero_sub]

/-! ### A rounded mantissa -/

/-- How many bits of a mantissa do not fit. -/
def dropped (p : ℕ) (q : ℤ) : ℕ := (Format.binary64.targetExponent (totalExponent p q) - q).toNat

theorem targetExponent_eq (p : ℕ) (q : ℤ) :
    Format.binary64.targetExponent (totalExponent p q) = max ((p.log2 : ℤ) + q - 52) (-1074) := by
  simp only [Format.targetExponent, totalExponent, Format.mantissaBits, Format.minExponent]
  norm_num
  omega

theorem shiftToTargetExponent_exact (p : ℕ) (q : ℤ) :
    shiftToTargetExponent Format.binary64 p q .exact =
      ((⟨p, false, false⟩ : ExtendedMantissa) >>> dropped p q, q + dropped p q) := rfl

/-- Nothing is dropped of a mantissa that fits. -/
theorem dropped_of_lt {r : ℕ} {e : ℤ} (hr : r < 2 ^ 53) (he : -1074 ≤ e) : dropped r e = 0 := by
  have hlog : r.log2 ≤ 52 := by
    rcases Nat.eq_zero_or_pos r with rfl | hpos
    · simp
    · have := (Nat.log2_lt hpos.ne').mpr hr
      omega
  rw [dropped, targetExponent_eq]
  omega

theorem dropped_carry {e : ℤ} (he : -1074 ≤ e) : dropped (2 ^ 53) e = 1 := by
  rw [dropped, targetExponent_eq, Nat.log2_two_pow]
  omega

variable {p : ℕ} {q : ℤ}

/-- The mantissa after rounding, before a carry is shifted out. -/
theorem roundWithAccuracy_exact (s : Sign) (hr : rounded p (dropped p q) ≤ 2 ^ 53)
    (he : -1074 ≤ q + dropped p q) :
    roundWithAccuracy Format.binary64 s p q .exact =
      if h : rounded p (dropped p q) = 0 then .zero s
      else if rounded p (dropped p q) < 2 ^ 53 then
        .finite s (rounded p (dropped p q)) (q + dropped p q) (Nat.pos_of_ne_zero h)
      else .finite s (2 ^ 52) (q + dropped p q + 1) (by norm_num) := by
  unfold roundWithAccuracy
  rw [shiftToTargetExponent_exact]
  dsimp only
  have hround : ((⟨p, false, false⟩ : ExtendedMantissa) >>> dropped p q).roundedMantissa =
      rounded p (dropped p q) := rfl
  rw [hround, shiftToTargetExponent_exact]
  generalize rounded p (dropped p q) = r at hr
  rcases hr.lt_or_eq with hlt | rfl
  · have hmant : ((⟨r, false, false⟩ : ExtendedMantissa) >>>
        dropped r (q + dropped p q)).mantissa = r := by
      rw [dropped_of_lt hlt he]
      rfl
    simp only [hmant]
    simp only [dropped_of_lt hlt he, if_pos hlt, Nat.cast_zero, add_zero]
  · have hmant : ((⟨2 ^ 53, false, false⟩ : ExtendedMantissa) >>>
        dropped (2 ^ 53) (q + dropped p q)).mantissa = 2 ^ 52 := by
      rw [dropped_carry he]
      rfl
    simp only [hmant]
    simp only [dropped_carry he, Nat.cast_one]
    rw [dif_neg (by norm_num), dif_neg (by norm_num), if_neg (lt_irrefl _)]

/-- The exponent after rounding, of a mantissa with 53 bits or more. -/
theorem add_dropped (hp : 52 ≤ p.log2) :
    q + dropped p q = max ((p.log2 : ℤ) + q - 52) (-1074) := by
  rw [dropped, targetExponent_eq]
  omega

/-- 53 bits are kept, and a carry. -/
theorem rounded_le (hp : 52 ≤ p.log2) : rounded p (dropped p q) ≤ 2 ^ 53 := by
  have htarget : q + dropped p q = _ := add_dropped hp
  have hdiv : p / 2 ^ dropped p q < 2 ^ 53 := by
    rw [Nat.div_lt_iff_lt_mul (by positivity), ← pow_add]
    exact Nat.lt_log2_self.trans_le (Nat.pow_le_pow_right (by norm_num) (by omega))
  exact (rounded_le_div _ _).trans hdiv

/-- A mantissa with fewer bits comes with the least exponent. -/
theorem le_rounded (hp : 52 ≤ p.log2) :
    2 ^ 52 ≤ rounded p (dropped p q) ∨ q + dropped p q = -1074 := by
  have htarget : q + dropped p q = _ := add_dropped hp
  rcases le_or_gt ((p.log2 : ℤ) + q - 52) (-1074) with hmin | hmin
  · exact .inr (by omega)
  · refine .inl (le_trans ?_ (div_le_rounded _ _))
    have hp0 : p ≠ 0 := by
      rintro rfl
      simp at hp
    have hlog : 52 + dropped p q = p.log2 := by omega
    rw [Nat.le_div_iff_mul_le (by positivity), ← pow_add, hlog]
    exact Nat.log2_self_le hp0

/-- **An exact product that is rounded and cut off.** -/
theorem toInt_round (hp : 52 ≤ p.log2) (hhi : q + dropped p q ≤ -1) (lo hi : ℤ) :
    (Float.Model.pack (roundWithAccuracy Format.binary64 .positive p q .exact)).unpack.toInt lo hi =
      (rounded p (dropped p q) / 2 ^ (-(q + dropped p q)).toNat : ℕ) := by
  have hr : rounded p (dropped p q) ≤ 2 ^ 53 := rounded_le hp
  have he : -1074 ≤ q + dropped p q := (add_dropped hp).ge.trans' (le_max_right _ _)
  rw [roundWithAccuracy_exact _ hr he]
  split_ifs with hzero hlt
  · rw [hzero, Nat.zero_div]
    rfl
  · have hcan : Canonical (rounded p (dropped p q)) (q + dropped p q) :=
      ⟨Nat.pos_of_ne_zero hzero, hlt, le_rounded hp, he, by omega⟩
    rw [unpack_pack _ hcan]
    exact roundToInt_of_nonpos (by omega)
  · have hcarry : rounded p (dropped p q) = 2 * 2 ^ 52 := by omega
    have hcan : Canonical (2 ^ 52) (q + dropped p q + 1) :=
      ⟨by norm_num, by norm_num, .inl le_rfl, by omega, by omega⟩
    rw [unpack_pack _ hcan]
    refine (roundToInt_of_nonpos (by omega)).trans ?_
    have hexp : (-(q + dropped p q)).toNat = (-(q + dropped p q + 1)).toNat + 1 := by omega
    generalize (-(q + dropped p q + 1)).toNat = j at hexp
    have hpow : 2 ^ (j + 1) = 2 * 2 ^ j := pow_succ' 2 j
    rw [hexp, hcarry, hpow, Nat.mul_div_mul_left _ _ (by norm_num)]

/-! ### Integers -/

/-- The mantissa of a positive integer. -/
def scaled (n : ℕ) : ℕ := n * 2 ^ (52 - n.log2)

theorem scaled_pos {n : ℕ} (hn : 0 < n) : 0 < scaled n := Nat.mul_pos hn (by positivity)

theorem scaled_bounds {n : ℕ} (hpos : 0 < n) (hlog : n.log2 ≤ 52) :
    2 ^ 52 ≤ scaled n ∧ scaled n < 2 ^ 53 := by
  have hpow : 2 ^ n.log2 * 2 ^ (52 - n.log2) = 2 ^ 52 := by
    rw [← pow_add]
    congr 1
    omega
  have hlo := Nat.log2_self_le hpos.ne'
  have hhi : n < 2 ^ n.log2 * 2 := by
    rw [← pow_succ]
    exact Nat.lt_log2_self
  constructor
  · rw [← hpow]
    exact Nat.mul_le_mul_right _ hlo
  · calc n * 2 ^ (52 - n.log2)
        _ < 2 ^ n.log2 * 2 * 2 ^ (52 - n.log2) := Nat.mul_lt_mul_of_pos_right hhi (by positivity)
        _ = 2 ^ n.log2 * 2 ^ (52 - n.log2) * 2 := by ring
        _ = 2 ^ 53 := by rw [hpow]; norm_num

/-- A positive integer of at most 53 bits is a double. -/
theorem unpack_ofInt {n : ℕ} (hpos : 0 < n) (hlog : n.log2 ≤ 52) :
    (Float.Model.ofInt n).unpack =
      .finite .positive (scaled n) ((n.log2 : ℤ) - 52) (scaled_pos hpos) := by
  obtain ⟨hlo, hhi⟩ := scaled_bounds hpos hlog
  have hcmp : compare (n : ℤ) 0 = .gt := by
    rw [compare_gt_iff_gt]
    exact_mod_cast hpos
  have hdec : decreaseExponent n 0 (max ((n.log2 : ℤ) + 0 - 52) (-1074)) =
      (scaled n, (n.log2 : ℤ) - 52) := by
    have hshift : (0 - max ((n.log2 : ℤ) + 0 - 52) (-1074)).toNat = 52 - n.log2 := by omega
    unfold decreaseExponent
    rw [hshift]
    refine Prod.ext (Nat.shiftLeft_eq n _) ?_
    show (0 : ℤ) - ((52 - n.log2 : ℕ) : ℤ) = n.log2 - 52
    omega
  have hfit : dropped (scaled n) ((n.log2 : ℤ) - 52) = 0 := dropped_of_lt hhi (by omega)
  have hsame : rounded (scaled n) 0 = scaled n := rfl
  have hround : roundWithAccuracy Format.binary64 .positive (scaled n) ((n.log2 : ℤ) - 52) .exact =
      .finite .positive (scaled n) ((n.log2 : ℤ) - 52) (scaled_pos hpos) := by
    rw [roundWithAccuracy_exact]
    · simp only [hfit, hsame, Nat.cast_zero, add_zero, if_pos hhi, dif_neg (scaled_pos hpos).ne']
    · rw [hfit, hsame]
      exact hhi.le
    · rw [hfit]
      omega
  have hof : Float.Model.ofInt n = Float.Model.pack
      (.finite .positive (scaled n) ((n.log2 : ℤ) - 52) (scaled_pos hpos)) := by
    unfold Float.Model.ofInt UnpackedFloat.ofInt UnpackedFloat.normalize
    rw [hcmp]
    unfold UnpackedFloat.round
    dsimp only
    rw [Int.toNat_natCast, targetExponent_eq, hdec]
    exact congrArg _ hround
  rw [hof]
  exact unpack_pack _ ⟨scaled_pos hpos, hhi, .inl hlo, by omega, by omega⟩

/-! ### An integer times a fraction -/

variable {n m : ℕ} {e : ℤ}

theorem mul_unpack {x : Float.Model} {hm : 0 < m} (hpos : 0 < n) (hlog : n.log2 ≤ 52)
    (hx : x.unpack = .finite .positive m e hm) :
    Float.Model.ofInt n * x = Float.Model.pack
      (roundWithAccuracy Format.binary64 .positive (scaled n * m) ((n.log2 : ℤ) - 52 + e) .exact) := by
  show Float.Model.pack
    (UnpackedFloat.mul Format.binary64 (Float.Model.ofInt n).unpack x.unpack) = _
  rw [unpack_ofInt hpos hlog, hx]
  rfl

/-- What is dropped of a product is less than twice the first factor. -/
theorem two_pow_dropped_lt (hpos : 0 < n) (hlog : n.log2 ≤ 52) (hcan : Canonical m e) :
    2 ^ dropped (scaled n * m) ((n.log2 : ℤ) - 52 + e) < 2 * scaled n := by
  obtain ⟨hlo, -⟩ := scaled_bounds hpos hlog
  have hp0 : scaled n * m ≠ 0 := (Nat.mul_pos (scaled_pos hpos) hcan.pos).ne'
  rcases Nat.lt_or_ge 52 (dropped (scaled n * m) ((n.log2 : ℤ) - 52 + e)) with hk | hk
  · have hlog2 : (scaled n * m).log2 = 52 + dropped (scaled n * m) ((n.log2 : ℤ) - 52 + e) := by
      have hmin := hcan.lo
      rw [dropped, targetExponent_eq] at hk ⊢
      omega
    have hle := Nat.log2_self_le hp0
    rw [hlog2, pow_add] at hle
    have hlt : scaled n * m < scaled n * 2 ^ 53 :=
      Nat.mul_lt_mul_of_pos_left hcan.lt (scaled_pos hpos)
    have hstep : 2 ^ 52 * 2 ^ dropped (scaled n * m) ((n.log2 : ℤ) - 52 + e) <
        2 ^ 52 * (2 * scaled n) := by
      calc _ < scaled n * 2 ^ 53 := hle.trans_lt hlt
        _ = 2 ^ 52 * (2 * scaled n) := by ring
    exact Nat.lt_of_mul_lt_mul_left hstep
  · calc 2 ^ dropped (scaled n * m) ((n.log2 : ℤ) - 52 + e)
        _ ≤ 2 ^ 52 := Nat.pow_le_pow_right (by norm_num) hk
        _ < 2 * scaled n := by omega

theorem log2_mul_bounds (hpos : 0 < n) (hlog : n.log2 ≤ 52) (hcan : Canonical m e) :
    52 ≤ (scaled n * m).log2 ∧ (scaled n * m).log2 < 106 := by
  obtain ⟨hlo, hhi⟩ := scaled_bounds hpos hlog
  have hp0 : scaled n * m ≠ 0 := (Nat.mul_pos (scaled_pos hpos) hcan.pos).ne'
  have hlt : scaled n * m < 2 ^ 53 * 2 ^ 53 := Nat.mul_lt_mul'' hhi hcan.lt
  exact ⟨(Nat.le_log2 hp0).mpr (hlo.trans (Nat.le_mul_of_pos_right _ hcan.pos)),
    (Nat.log2_lt hp0).mpr (hlt.trans_eq (pow_add 2 53 53).symm)⟩

/-- A positive integer times a finite fraction. -/
theorem toInt_mul_finite_lt {x : Float.Model} {hm : 0 < m} (hpos : 0 < n) (hlog : n.log2 ≤ 30)
    (hx : x.unpack = .finite .positive m e hm) (he : e ≤ -53) (lo hi : ℤ) :
    0 ≤ (Float.Model.ofInt n * x).unpack.toInt lo hi ∧
      (Float.Model.ofInt n * x).unpack.toInt lo hi < n := by
  have hcan := canonical_unpack hx
  have hdrop := two_pow_dropped_lt hpos (by omega) hcan
  obtain ⟨hp52, hp106⟩ := log2_mul_bounds hpos (by omega) hcan
  rw [mul_unpack hpos (by omega) hx]
  have hexp : ∃ j : ℕ,
      (-((n.log2 : ℤ) - 52 + e + dropped (scaled n * m) ((n.log2 : ℤ) - 52 + e))).toNat = j ∧
      j + dropped (scaled n * m) ((n.log2 : ℤ) - 52 + e) = 52 - n.log2 + (-e).toNat ∧
      (n.log2 : ℤ) - 52 + e + dropped (scaled n * m) ((n.log2 : ℤ) - 52 + e) ≤ -1 := by
    rw [dropped, targetExponent_eq]
    exact ⟨_, rfl, by omega, by omega⟩
  obtain ⟨j, hj, hjk, hneg⟩ := hexp
  rw [toInt_round hp52 hneg, hj]
  refine ⟨Int.natCast_nonneg _, ?_⟩
  have hround := rounded_mul_le (scaled n * m) (dropped (scaled n * m) ((n.log2 : ℤ) - 52 + e))
  generalize dropped (scaled n * m) ((n.log2 : ℤ) - 52 + e) = k at hround hdrop hjk
  have hfrac : scaled n * m + scaled n ≤ scaled n * 2 ^ 53 := by
    rw [← Nat.mul_succ]
    exact Nat.mul_le_mul_left _ hcan.lt
  have hwhole : scaled n * 2 ^ 53 ≤ n * 2 ^ j * 2 ^ k := by
    calc scaled n * 2 ^ 53
        _ ≤ n * 2 ^ (52 - n.log2) * 2 ^ (-e).toNat :=
          Nat.mul_le_mul_left _ (Nat.pow_le_pow_right (by norm_num) (by omega))
        _ = n * 2 ^ j * 2 ^ k := by rw [mul_assoc, mul_assoc, ← pow_add, ← pow_add, hjk]
  have hlt : rounded (scaled n * m) k * 2 ^ k < n * 2 ^ j * 2 ^ k := by omega
  have htrunc : rounded (scaled n * m) k / 2 ^ j < n :=
    (Nat.div_lt_iff_lt_mul (by positivity)).mpr (Nat.lt_of_mul_lt_mul_right hlt)
  exact_mod_cast htrunc

/-- A positive integer times the mantissa of one. -/
theorem toInt_mul_finite_one {x : Float.Model} {hm : 0 < 2 ^ 52} (hpos : 0 < n) (hlog : n.log2 ≤ 30)
    (hx : x.unpack = .finite .positive (2 ^ 52) (-52) hm) (lo hi : ℤ) :
    (Float.Model.ofInt n * x).unpack.toInt lo hi = n := by
  obtain ⟨hlo, hhi⟩ := scaled_bounds hpos (by omega)
  have hp104 : (scaled n * 2 ^ 52).log2 = 104 := by
    rw [Nat.log2_eq_iff (Nat.mul_pos (scaled_pos hpos) hm).ne']
    omega
  have hdrop : dropped (scaled n * 2 ^ 52) ((n.log2 : ℤ) - 52 + -52) = 52 := by
    rw [dropped, targetExponent_eq, hp104]
    omega
  have hsame : rounded (scaled n * 2 ^ 52) 52 = scaled n := by
    have hle := div_le_rounded (scaled n * 2 ^ 52) 52
    have hge := rounded_mul_le (scaled n * 2 ^ 52) 52
    rw [Nat.mul_div_cancel _ hm] at hle
    omega
  have hexp : (-((n.log2 : ℤ) - 52 + -52 + (52 : ℕ))).toNat = 52 - n.log2 := by omega
  rw [mul_unpack hpos (by omega) hx, toInt_round (by omega) (by omega), hdrop, hsame, hexp, scaled,
    Nat.mul_div_cancel _ (by positivity)]

/-! ### Zero and one -/

theorem unpack_zero : (Float.Model.ofNat 0).unpack = .zero .positive := rfl

theorem unpack_one : (Float.Model.ofNat 1).unpack = .finite .positive (2 ^ 52) (-52) (by norm_num) :=
  unpack_ofInt Nat.one_pos (by decide)

theorem then_eq_lt {e e' : ℤ} {m m' : ℕ} :
    (compare e e').then (compare m m') = .lt ↔ e < e' ∨ e = e' ∧ m < m' := by
  rw [Ordering.then_eq_lt, compare_lt_iff_lt, compare_eq_iff_eq, compare_lt_iff_lt]

theorem then_eq_gt {e e' : ℤ} {m m' : ℕ} :
    (compare e e').then (compare m m') = .gt ↔ e' < e ∨ e' = e ∧ m' < m := by
  rw [Ordering.then_eq_gt, compare_gt_iff_gt, compare_eq_iff_eq, compare_gt_iff_gt, eq_comm]

theorem then_isLE {e e' : ℤ} {m m' : ℕ} :
    ((compare e e').then (compare m m')).isLE = true ↔ e < e' ∨ e = e' ∧ m ≤ m' := by
  rw [Ordering.isLE_then_iff_or, compare_lt_iff_lt, compare_eq_iff_eq, Std.isLE_compare]

/-- The doubles from one on: infinity, and those with no bits behind `2 ^ -52`. -/
theorem one_le_iff {x : Float.Model} : Float.Model.ofNat 1 ≤ x ↔
    x.unpack = .infinity .positive ∨ ∃ m e hm, x.unpack = .finite .positive m e hm ∧ -52 ≤ e := by
  show (UnpackedFloat.compare (Float.Model.ofNat 1).unpack x.unpack).any (·.isLE) = true ↔ _
  rw [unpack_one]
  rcases hx : x.unpack with s | - | s | ⟨s, m, e, hm⟩
  · cases s <;> simp [UnpackedFloat.compare]
  · simp [UnpackedFloat.compare]
  · cases s <;> simp [UnpackedFloat.compare]
  · cases s with
    | negative => simp [UnpackedFloat.compare]
    | positive =>
      obtain ⟨-, -, hnormal, -, -⟩ := canonical_unpack hx
      show ((compare (-52) e).then (compare (2 ^ 52) m)).isLE = true ↔ _
      rw [then_isLE]
      constructor
      · exact fun h => .inr ⟨m, e, hm, rfl, by omega⟩
      · rintro (h | ⟨_, _, _, h, he⟩)
        · nomatch h
        · obtain ⟨-, rfl, rfl⟩ := UnpackedFloat.finite.inj h
          omega

/-- The doubles below zero. -/
theorem lt_zero_iff {x : Float.Model} : x < Float.Model.ofNat 0 ↔
    x.unpack = .infinity .negative ∨ ∃ m e hm, x.unpack = .finite .negative m e hm := by
  show (UnpackedFloat.compare x.unpack (Float.Model.ofNat 0).unpack == some .lt) = true ↔ _
  rw [unpack_zero]
  rcases hx : x.unpack with s | - | s | ⟨s, m, e, hm⟩
  · cases s <;> simp [UnpackedFloat.compare]
  · simp [UnpackedFloat.compare]
  · simp [UnpackedFloat.compare]
  · cases s <;> simp [UnpackedFloat.compare, hm]

theorem not_one_le_of_lt_zero {x : Float.Model} (h : x < Float.Model.ofNat 0) :
    ¬ Float.Model.ofNat 1 ≤ x := by
  rw [one_le_iff]
  rcases lt_zero_iff.mp h with hx | ⟨m, e, hm, hx⟩ <;> simp [hx]

theorem le_of_lt {x y : Float.Model} (h : x < y) : x ≤ y := by
  have hcmp : UnpackedFloat.compare x.unpack y.unpack = some .lt := eq_of_beq h
  show (UnpackedFloat.compare x.unpack y.unpack).any (·.isLE) = true
  rw [hcmp]
  rfl

/-- From one on and not above it there is one only. -/
theorem unpack_of_one_le {x : Float.Model} (h : Float.Model.ofNat 1 ≤ x)
    (hlt : ¬ Float.Model.ofNat 1 < x) :
    x.unpack = .finite .positive (2 ^ 52) (-52) (by norm_num) := by
  replace hlt : UnpackedFloat.compare (Float.Model.ofNat 1).unpack x.unpack ≠ some .lt :=
    fun hcmp => hlt (beq_iff_eq.mpr hcmp)
  rw [unpack_one] at hlt
  rcases one_le_iff.mp h with hx | ⟨m, e, hm, hx, he⟩
  · exact absurd (congrArg _ hx) hlt
  · obtain ⟨-, -, hnormal, -, -⟩ := canonical_unpack hx
    rw [hx] at hlt
    replace hlt : (compare (-52) e).then (compare (2 ^ 52) m) ≠ .lt :=
      fun hcmp => hlt (congrArg some hcmp)
    rw [ne_eq, then_eq_lt] at hlt
    have hexp : e = -52 := by omega
    have hmant : m = 2 ^ 52 := by omega
    subst hexp hmant
    exact hx

/-- Doubles on the two sides of one are in order. -/
theorem lt_of_lt_one {x y : Float.Model} (hx : x < Float.Model.ofNat 1)
    (hy : Float.Model.ofNat 1 ≤ y) : x < y := by
  have hcmp : UnpackedFloat.compare x.unpack (Float.Model.ofNat 1).unpack = some .lt := eq_of_beq hx
  rw [unpack_one] at hcmp
  show (UnpackedFloat.compare x.unpack y.unpack == some .lt) = true
  rw [beq_iff_eq]
  rcases hux : x.unpack with s | - | s | ⟨s, m, e, hm⟩ <;> rw [hux] at hcmp
  · cases s with
    | negative =>
      rcases one_le_iff.mp hy with hy | ⟨m', e', hm', hy, -⟩ <;> rw [hy] <;> rfl
    | positive => nomatch hcmp
  · nomatch hcmp
  · rcases one_le_iff.mp hy with hy | ⟨m', e', hm', hy, -⟩ <;> rw [hy] <;> rfl
  · cases s with
    | negative => rcases one_le_iff.mp hy with hy | ⟨m', e', hm', hy, -⟩ <;> rw [hy] <;> rfl
    | positive =>
      obtain ⟨-, hlt, hnormal, -, -⟩ := canonical_unpack hux
      have hbelow := then_eq_lt.mp (Option.some.inj hcmp)
      rcases one_le_iff.mp hy with hy | ⟨m', e', hm', hy, he'⟩ <;> rw [hy]
      · rfl
      · exact congrArg some (then_eq_lt.mpr (.inl (by omega)))

/-- The greatest double below one. -/
def belowOne : Float.Model :=
  Float.Model.pack (.finite .positive (2 ^ 53 - 1) (-53) (by norm_num))

theorem unpack_belowOne :
    belowOne.unpack = .finite .positive (2 ^ 53 - 1) (-53) (by norm_num) :=
  unpack_pack _ ⟨by norm_num, by norm_num, .inl (by norm_num), by norm_num, by norm_num⟩

theorem zero_le_belowOne : Float.Model.ofNat 0 ≤ belowOne := by
  show (UnpackedFloat.compare (Float.Model.ofNat 0).unpack belowOne.unpack).any (·.isLE) = true
  rw [unpack_zero, unpack_belowOne]
  rfl

theorem belowOne_lt_one : belowOne < Float.Model.ofNat 1 := by
  show (UnpackedFloat.compare belowOne.unpack (Float.Model.ofNat 1).unpack == some .lt) = true
  rw [unpack_belowOne, unpack_one, beq_iff_eq]
  exact congrArg some (then_eq_lt.mpr (.inl (by norm_num)))

/-- **Nothing is between it and one.** -/
theorem belowOne_lt_iff {x : Float.Model} : belowOne < x ↔ Float.Model.ofNat 1 ≤ x := by
  refine ⟨fun h => ?_, lt_of_lt_one belowOne_lt_one⟩
  have hcmp : UnpackedFloat.compare belowOne.unpack x.unpack = some .lt := eq_of_beq h
  rw [unpack_belowOne] at hcmp
  rw [one_le_iff]
  rcases hux : x.unpack with s | - | s | ⟨s, m, e, hm⟩ <;> rw [hux] at hcmp
  · cases s with
    | negative => nomatch hcmp
    | positive => exact .inl rfl
  · nomatch hcmp
  · nomatch hcmp
  · cases s with
    | negative => nomatch hcmp
    | positive =>
      obtain ⟨-, hlt, -, -, -⟩ := canonical_unpack hux
      have habove := then_eq_lt.mp (Option.some.inj hcmp)
      exact .inr ⟨m, e, hm, rfl, by omega⟩

/-! ### The doubles on a line -/

/-- The size of a finite double, in units of the least one. -/
def units (m : ℕ) (e : ℤ) : ℕ := m * 2 ^ (e + 1074).toNat

theorem units_lt_iff {m m' : ℕ} {e e' : ℤ} (h : Canonical m e) (h' : Canonical m' e') :
    units m e < units m' e' ↔ e < e' ∨ e = e' ∧ m < m' := by
  have hle : ∀ {m m' : ℕ} {e e' : ℤ}, Canonical m e → Canonical m' e' → e < e' →
      units m e < units m' e' := by
    intro m m' e e' h h' hlt
    have hm' : 2 ^ 52 ≤ m' := h'.normal.resolve_right (by have := h.lo; omega)
    have hexp : (e + 1074).toNat + 1 ≤ (e' + 1074).toNat := by
      have := h.lo
      omega
    calc m * 2 ^ (e + 1074).toNat
        _ < 2 ^ 53 * 2 ^ (e + 1074).toNat := Nat.mul_lt_mul_of_pos_right h.lt (by positivity)
        _ = 2 ^ 52 * 2 ^ ((e + 1074).toNat + 1) := by ring
        _ ≤ m' * 2 ^ (e' + 1074).toNat := Nat.mul_le_mul hm' (Nat.pow_le_pow_right (by norm_num) hexp)
  rcases lt_trichotomy e e' with hlt | rfl | hgt
  · exact iff_of_true (hle h h' hlt) (.inl hlt)
  · rw [units, units, Nat.mul_lt_mul_right (by positivity)]
    simp
  · refine iff_of_false (hle h' h hgt).le.not_gt ?_
    omega

theorem units_pos {m : ℕ} (hm : 0 < m) (e : ℤ) : 0 < units m e := Nat.mul_pos hm (by positivity)

/-- Where a double stands, in units of the least one; what is not a number stands nowhere. -/
def position (x : Float.Model) : Option EInt :=
  match x.unpack with
  | .notANumber => none
  | .zero _ => some (0 : ℤ)
  | .infinity .positive => some ⊤
  | .infinity .negative => some ⊥
  | .finite .positive m e _ => some (units m e : ℤ)
  | .finite .negative m e _ => some (-units m e : ℤ)

/-- **Doubles compare as they stand.** -/
theorem lt_iff_position {x y : Float.Model} :
    x < y ↔ ∃ u v, position x = some u ∧ position y = some v ∧ u < v := by
  show (UnpackedFloat.compare x.unpack y.unpack == some .lt) = true ↔ _
  rw [beq_iff_eq]
  have hx : ∀ {s m e hm}, x.unpack = .finite s m e hm → Canonical m e := canonical_unpack
  have hy : ∀ {s m e hm}, y.unpack = .finite s m e hm → Canonical m e := canonical_unpack
  unfold position
  generalize x.unpack = a at hx
  generalize y.unpack = b at hy
  -- two numbers of one sign are compared by exponent and mantissa, all others by kind and sign
  rcases a with (_ | _) | - | s | ⟨_ | _, m, e, hm⟩ <;>
    rcases b with (_ | _) | - | s' | ⟨_ | _, m', e', hm'⟩ <;>
    simp only [UnpackedFloat.compare, reduceCtorEq, Option.some.injEq, exists_and_left,
      exists_eq_left', false_and, exists_false, and_false, false_iff, true_iff, not_lt, le_refl,
      Ordering.swap_eq_lt, then_eq_lt, then_eq_gt, bot_lt_iff_ne_bot, lt_top_iff_ne_top, ne_eq,
      not_true_eq_false, not_false_eq_true, WithBotTop.coe_ne_bot, WithBotTop.coe_ne_top,
      le_top, bot_le, WithBotTop.coe_lt_coe, neg_lt_neg_iff, Nat.cast_lt]
  case infinity.negative.infinity.positive => exact iff_of_true rfl bot_ne_top
  case finite.negative.finite.negative => exact (units_lt_iff (hy rfl) (hx rfl)).symm
  case finite.positive.finite.positive => exact (units_lt_iff (hx rfl) (hy rfl)).symm
  case zero.finite.positive => exact Nat.cast_pos.mpr (units_pos hm' e')
  case finite.negative.zero => exact neg_neg_of_pos (Nat.cast_pos.mpr (units_pos hm e))
  case finite.negative.finite.positive =>
    have := units_pos hm e
    omega
  all_goals omega
/-! ### Truncated products -/

/-- **A positive integer times what is below one** is cut off below the integer. -/
theorem toInt_mul_lt {x : Float.Model} (hpos : 0 < n) (hlog : n.log2 ≤ 30)
    (hneg : ¬ x < Float.Model.ofNat 0) (hone : ¬ Float.Model.ofNat 1 ≤ x) (lo hi : ℤ) :
    0 ≤ (Float.Model.ofInt n * x).unpack.toInt lo hi ∧
      (Float.Model.ofInt n * x).unpack.toInt lo hi < n := by
  have hn : (0 : ℤ) < n := by exact_mod_cast hpos
  have hmul : Float.Model.ofInt n * x = Float.Model.pack
      (UnpackedFloat.mul Format.binary64 (Float.Model.ofInt n).unpack x.unpack) := rfl
  rw [unpack_ofInt hpos (by omega)] at hmul
  rw [lt_zero_iff] at hneg
  rcases hx : x.unpack with s | - | s | ⟨s, m, e, hm⟩
  · cases s with
    | negative => exact absurd (.inl hx) hneg
    | positive => exact absurd (one_le_iff.mpr (.inl hx)) hone
  · have hnan : Float.Model.ofInt n * x = Float.Model.pack .notANumber := by
      rw [hmul, hx]
      rfl
    have htrunc : (Float.Model.pack .notANumber).unpack.toInt lo hi = 0 := rfl
    rw [hnan, htrunc]
    exact ⟨le_rfl, hn⟩
  · have hzero : Float.Model.ofInt n * x = Float.Model.pack (.zero s) := by
      rw [hmul, hx]
      cases s <;> rfl
    have htrunc : (Float.Model.pack (.zero s)).unpack.toInt lo hi = 0 := by cases s <;> rfl
    rw [hzero, htrunc]
    exact ⟨le_rfl, hn⟩
  · cases s with
    | negative => exact absurd (.inr ⟨m, e, hm, hx⟩) hneg
    | positive =>
      have he : ¬ -52 ≤ e := fun he => hone (one_le_iff.mpr (.inr ⟨m, e, hm, hx, he⟩))
      exact toInt_mul_finite_lt hpos hlog hx (by omega) lo hi

/-- **A positive integer times one** is the integer. -/
theorem toInt_mul_one {x : Float.Model} (hpos : 0 < n) (hlog : n.log2 ≤ 30)
    (hone : Float.Model.ofNat 1 ≤ x) (hlt : ¬ Float.Model.ofNat 1 < x) (lo hi : ℤ) :
    (Float.Model.ofInt n * x).unpack.toInt lo hi = n :=
  toInt_mul_finite_one hpos hlog (unpack_of_one_le hone hlt) lo hi

/-! ### 32-bit integers -/

section Int32

variable {i : Int32} {x : Float.Model}

theorem one_le_int_iff : 1 ≤ i ↔ 1 ≤ i.toInt := Int32.le_iff_toInt_le

theorem zero_le_int_iff : 0 ≤ i ↔ 0 ≤ i.toInt := Int32.le_iff_toInt_le

theorem log2_toNat_le (hi : 1 ≤ i) : 0 < i.toInt.toNat ∧ i.toInt.toNat.log2 ≤ 30 := by
  have hlo := one_le_int_iff.mp hi
  have hhi := i.toInt_lt
  have hlog : i.toInt.toNat.log2 < 31 := (Nat.log2_lt (by omega)).mpr (by omega)
  omega

theorem ofInt32_eq (hi : 1 ≤ i) : Float.Model.ofInt32 i = Float.Model.ofInt i.toInt.toNat := by
  have hlo := one_le_int_iff.mp hi
  rw [Int.toNat_of_nonneg (by omega)]
  rfl

/-- **A positive `int` times what is below one** is cut off below the `int`. -/
theorem toInt32_mul_lt (hi : 1 ≤ i) (hneg : ¬ x < Float.Model.ofNat 0)
    (hone : ¬ Float.Model.ofNat 1 ≤ x) :
    0 ≤ (Float.Model.ofInt32 i * x).toInt32.toInt ∧
      (Float.Model.ofInt32 i * x).toInt32.toInt < i.toInt := by
  obtain ⟨hpos, hlog⟩ := log2_toNat_le hi
  have hbounds := toInt_mul_lt hpos hlog hneg hone Int32.minValue.toInt Int32.maxValue.toInt
  rw [← ofInt32_eq hi, Int.toNat_of_nonneg (by omega)] at hbounds
  have hmax := i.toInt_le
  have hclamp : (Float.Model.ofInt32 i * x).toInt32.toInt =
      (Float.Model.ofInt32 i * x).unpack.toInt Int32.minValue.toInt Int32.maxValue.toInt :=
    Int32.toInt_ofIntClamp (le_trans (by decide) hbounds.1) (hbounds.2.le.trans hmax)
  rwa [hclamp]

/-- **A positive `int` times one** is the `int`. -/
theorem toInt32_mul_one (hi : 1 ≤ i) (hone : Float.Model.ofNat 1 ≤ x)
    (hlt : ¬ Float.Model.ofNat 1 < x) : (Float.Model.ofInt32 i * x).toInt32 = i := by
  obtain ⟨hpos, hlog⟩ := log2_toNat_le hi
  have hsame := toInt_mul_one hpos hlog hone hlt Int32.minValue.toInt Int32.maxValue.toInt
  rw [← ofInt32_eq hi, Int.toNat_of_nonneg (by omega)] at hsame
  show Int32.ofIntClamp _ = i
  rw [hsame, Int32.ofIntClamp_toInt]

end Int32

end Lib.Binary64
