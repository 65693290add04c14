import NimbusVault.Lib.Binary64

/-!
# Lib.Percentile — nearest ranks, in order and in doubles

The `k`-th smallest element of a list is the least value that `k` elements do not exceed
(`isRank_getElem`).  The rank of the `p`-th percentile of `n` elements is `p * n / 100`, rounded up;
a program computes it as `ceil(p / 100.0 * n)`, with a quotient and a product that are rounded.  Where
the quotient is rounded down and `n` is below `2 ^ 45`, the rank is the exact one (`ceilNat_percent`).
-/

namespace Lib.Percentile

open Float.Model Float.Model.UnpackedFloat Lib.Binary64

/-! ### Order statistics -/

section Order

variable {α : Type*} [LinearOrder α]

/-- `x` is in `l`, `k` elements of `l` do not exceed it, and of no smaller value can that be said. -/
structure IsRank (l : List α) (k : ℕ) (x : α) : Prop where
  mem : x ∈ l
  le : k ≤ l.countP (· ≤ x)
  least : ∀ y, y < x → l.countP (· ≤ y) < k

/-- **The elements of a sorted list** are ranked by their positions. -/
theorem isRank_getElem {l : List α} (hl : l.Pairwise (· ≤ ·)) {i : ℕ} (hi : i < l.length) :
    IsRank l (i + 1) l[i] := by
  have hsplit : l.take i ++ l[i] :: l.drop (i + 1) = l := by
    rw [← List.drop_eq_getElem_cons hi, List.take_append_drop]
  have hparts := hl
  rw [← hsplit, List.pairwise_append, List.pairwise_cons] at hparts
  obtain ⟨-, ⟨habove, -⟩, hbelow⟩ := hparts
  have hlen : (l.take i).length = i := List.length_take_of_le hi.le
  have hcount : ∀ y, l.countP (· ≤ y) =
      (l.take i).countP (· ≤ y) + (l[i] :: l.drop (i + 1)).countP (· ≤ y) := fun y => by
    rw [← List.countP_append, hsplit]
  refine ⟨List.getElem_mem hi, ?_, fun y hy => ?_⟩
  · have hfirst : (l.take i).countP (· ≤ l[i]) = i := by
      rw [List.countP_eq_length.mpr, hlen]
      exact fun a ha => decide_eq_true (hbelow a ha _ List.mem_cons_self)
    have hself : 0 < (l[i] :: l.drop (i + 1)).countP (· ≤ l[i]) :=
      List.countP_pos_iff.mpr ⟨l[i], List.mem_cons_self, decide_eq_true le_rfl⟩
    rw [hcount, hfirst]
    omega
  · have hrest : (l[i] :: l.drop (i + 1)).countP (· ≤ y) = 0 := by
      refine List.countP_eq_zero.mpr fun a ha => ?_
      have hle : l[i] ≤ a := by
        rcases List.mem_cons.mp ha with rfl | ha
        · exact le_rfl
        · exact habove a ha
      simpa using hy.trans_le hle
    have hfew : (l.take i).countP (· ≤ y) ≤ i := List.countP_le_length.trans hlen.le
    rw [hcount, hrest]
    omega

theorem IsRank.of_perm {l l' : List α} (h : l.Perm l') {k : ℕ} {x : α} (hx : IsRank l k x) :
    IsRank l' k x :=
  ⟨h.mem_iff.mp hx.mem, hx.le.trans_eq (h.countP_eq _), fun y hy =>
    (h.countP_eq _).symm.trans_lt (hx.least y hy)⟩

end Order

/-! ### The rank in doubles -/

/-- A positive double rounded up to an integer. -/
def ceilNat (x : Float.Model) : ℕ :=
  match x.unpack with
  | .finite .positive m e _ =>
    if 0 ≤ e then m * 2 ^ e.toNat else (m + (2 ^ (-e).toNat - 1)) / 2 ^ (-e).toNat
  | _ => 0

/-- The quotient that is rounded up to `k + 1`. -/
theorem add_pred_div_eq {a b k : ℕ} (hb : 0 < b) (hlo : k * b < a) (hhi : a ≤ (k + 1) * b) :
    (a + (b - 1)) / b = k + 1 := by
  have hexp : (k + 1) * b = k * b + b := Nat.succ_mul k b
  rw [Nat.div_eq_iff hb, hexp]
  omega

variable {p : ℕ} {q : ℤ}

/-- **An exact product that is rounded, and rounded up.** -/
theorem ceilNat_round (hp : 52 ≤ p.log2) (hhi : q + dropped p q ≤ -2) :
    ceilNat (Float.Model.pack (roundWithAccuracy Format.binary64 .positive p q .exact)) =
      (rounded p (dropped p q) + (2 ^ (-(q + dropped p q)).toNat - 1)) /
        2 ^ (-(q + dropped p q)).toNat := by
  have hr : rounded p (dropped p q) ≤ 2 ^ 53 := rounded_le hp
  have he : -1074 ≤ q + dropped p q := (add_dropped hp).ge.trans' (le_max_right _ _)
  rw [roundWithAccuracy_exact _ hr he]
  unfold ceilNat
  split_ifs with hzero hlt
  · have hpos : 0 < 2 ^ (-(q + dropped p q)).toNat := by positivity
    rw [hzero, zero_add, Nat.div_eq_of_lt (by omega)]
    rfl
  · have hcan : Canonical (rounded p (dropped p q)) (q + dropped p q) :=
      ⟨Nat.pos_of_ne_zero hzero, hlt, le_rounded hp, he, by omega⟩
    rw [unpack_pack _ hcan]
    dsimp only
    rw [if_neg (by omega)]
  · have hcarry : rounded p (dropped p q) = 2 * 2 ^ 52 := by omega
    have hcan : Canonical (2 ^ 52) (q + dropped p q + 1) :=
      ⟨by norm_num, by norm_num, .inl le_rfl, by omega, by omega⟩
    have hexp : (-(q + dropped p q)).toNat = (-(q + dropped p q + 1)).toNat + 1 := by omega
    rw [unpack_pack _ hcan, hcarry, hexp]
    dsimp only
    rw [if_neg (by omega)]
    generalize (-(q + dropped p q + 1)).toNat = j
    have hpos : 0 < 2 ^ j := by positivity
    have hpow : 2 ^ (j + 1) = 2 * 2 ^ j := pow_succ' 2 j
    have hhalf : (2 * 2 ^ 52 + (2 * 2 ^ j - 1)) / 2 = 2 ^ 52 + (2 ^ j - 1) := by omega
    rw [hpow, ← Nat.div_div_eq_div_mul, hhalf]

variable {n m : ℕ} {x : Float.Model}

/-- A product with an integer, from the right. -/
theorem mul_ofNat {e : ℤ} {hm : 0 < m} (hpos : 0 < n) (hlog : n.log2 ≤ 52)
    (hx : x.unpack = .finite .positive m e hm) :
    x * .ofNat n = Float.Model.pack
      (roundWithAccuracy Format.binary64 .positive (scaled n * m) ((n.log2 : ℤ) - 52 + e) .exact) := by
  show Float.Model.pack (UnpackedFloat.mul Format.binary64 x.unpack (Float.Model.ofInt n).unpack) = _
  rw [unpack_ofInt hpos hlog, hx, Nat.mul_comm (scaled n), add_comm ((n.log2 : ℤ) - 52)]
  rfl

/-- Of a fraction of 53 bits times an integer below `2 ^ 45`, the exponent and what is dropped. -/
theorem dropped_percent (hpos : 0 < n) (hlog : n.log2 ≤ 44) (hcan : Canonical m (-53)) :
    52 ≤ (scaled n * m).log2 ∧ ∃ j : ℕ, 8 ≤ j ∧
      (n.log2 : ℤ) - 52 + -53 + dropped (scaled n * m) ((n.log2 : ℤ) - 52 + -53) = -j ∧
      j + dropped (scaled n * m) ((n.log2 : ℤ) - 52 + -53) = 52 - n.log2 + 53 := by
  obtain ⟨hp52, hp106⟩ := log2_mul_bounds hpos (hlog.trans (by norm_num)) hcan
  refine ⟨hp52, (52 - n.log2 + 53) - dropped (scaled n * m) ((n.log2 : ℤ) - 52 + -53), ?_⟩
  rw [dropped, targetExponent_eq]
  omega

/-- The product that is to be rounded is above one integer and not above the next. -/
theorem percent_bounds {p K : ℕ} (hlo : p * 2 ^ 53 ≤ 100 * m + 99) (hhi : 100 * m ≤ p * 2 ^ 53)
    (hn : n < 2 ^ 45) (hK : (p * n + 99) / 100 = K + 1) :
    K * 2 ^ 53 + 2 ^ 45 ≤ n * m ∧ n * m ≤ (K + 1) * 2 ^ 53 := by
  have hbelow : p * n * 2 ^ 53 ≤ 100 * (n * m) + 99 * n := by
    calc p * n * 2 ^ 53
        _ = n * (p * 2 ^ 53) := by ring
        _ ≤ n * (100 * m + 99) := Nat.mul_le_mul_left n hlo
        _ = 100 * (n * m) + 99 * n := by ring
  have habove : 100 * (n * m) ≤ p * n * 2 ^ 53 := by
    calc 100 * (n * m)
        _ = n * (100 * m) := by ring
        _ ≤ n * (p * 2 ^ 53) := Nat.mul_le_mul_left n hhi
        _ = p * n * 2 ^ 53 := by ring
  clear hlo hhi
  generalize n * m = a at *
  generalize p * n = b at *
  omega

/-- **The rank of a percentile is exact.**  `x` is `p / 100`, rounded down to 53 bits. -/
theorem ceilNat_percent {p : ℕ} {hm : 0 < m} (hx : x.unpack = .finite .positive m (-53) hm)
    (hlo : p * 2 ^ 53 ≤ 100 * m + 99) (hhi : 100 * m ≤ p * 2 ^ 53) (hpos : 0 < n)
    (hlog : n.log2 ≤ 44) : ceilNat (x * .ofNat n) = (p * n + 99) / 100 := by
  obtain ⟨hp52, j, hj, hexp, hsum⟩ := dropped_percent hpos hlog (canonical_unpack hx)
  rw [mul_ofNat hpos (hlog.trans (by norm_num)) hx, ceilNat_round hp52 (by omega), hexp, neg_neg,
    Int.toNat_natCast]
  have hround := rounded_mul_le (scaled n * m) (dropped (scaled n * m) ((n.log2 : ℤ) - 52 + -53))
  have hfloor := div_le_rounded (scaled n * m) (dropped (scaled n * m) ((n.log2 : ℤ) - 52 + -53))
  generalize dropped (scaled n * m) ((n.log2 : ℤ) - 52 + -53) = k at hround hfloor hsum ⊢
  generalize rounded (scaled n * m) k = r at hround hfloor ⊢
  -- the exact rank is `K + 1`
  have hp : 0 < p := Nat.pos_of_mul_pos_right (lt_of_lt_of_le (by positivity) hhi)
  have hpn : 0 < p * n := Nat.mul_pos hp hpos
  obtain ⟨K, hK⟩ : ∃ K, (p * n + 99) / 100 = K + 1 := ⟨(p * n + 99) / 100 - 1, by omega⟩
  have hn : n < 2 ^ 45 := (Nat.log2_lt hpos.ne').mp (by omega)
  obtain ⟨hbelow, habove⟩ := percent_bounds hlo hhi hn hK
  have hunit : 2 ^ j * 2 ^ k = 2 ^ (52 - n.log2) * 2 ^ 53 := by rw [← pow_add, ← pow_add, hsum]
  have hprod : scaled n * m = 2 ^ (52 - n.log2) * (n * m) := by
    rw [scaled]
    ring
  rw [hK]
  refine add_pred_div_eq (by positivity) ?_ ?_
  · have hsmall : 2 ^ k ≤ 2 ^ (52 - n.log2) * 2 ^ 45 := by
      rw [← pow_add]
      exact Nat.pow_le_pow_right (by norm_num) (by omega)
    have hle : (K * 2 ^ j + 1) * 2 ^ k ≤ scaled n * m := by
      calc (K * 2 ^ j + 1) * 2 ^ k
          _ = K * (2 ^ j * 2 ^ k) + 2 ^ k := by ring
          _ ≤ K * (2 ^ (52 - n.log2) * 2 ^ 53) + 2 ^ (52 - n.log2) * 2 ^ 45 := by
            rw [hunit]
            exact Nat.add_le_add_left hsmall _
          _ = 2 ^ (52 - n.log2) * (K * 2 ^ 53 + 2 ^ 45) := by ring
          _ ≤ scaled n * m := hprod ▸ Nat.mul_le_mul_left _ hbelow
    exact ((Nat.le_div_iff_mul_le (by positivity)).mpr hle).trans hfloor
  · have hle : scaled n * m ≤ (K + 1) * 2 ^ j * 2 ^ k := by
      calc scaled n * m
          _ ≤ 2 ^ (52 - n.log2) * ((K + 1) * 2 ^ 53) := hprod ▸ Nat.mul_le_mul_left _ habove
          _ = (K + 1) * 2 ^ j * 2 ^ k := by rw [mul_assoc, hunit]; ring
    by_contra hr
    have hmore : ((K + 1) * 2 ^ j + 1) * 2 ^ k ≤ r * 2 ^ k :=
      Nat.mul_le_mul_right _ (not_le.mp hr)
    have hpow : 0 < 2 ^ k := by positivity
    rw [Nat.add_mul, one_mul] at hmore
    omega

end Lib.Percentile
