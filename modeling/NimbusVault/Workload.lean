import NimbusVault.Coordinator
import NimbusVault.Lib.Binary64
import NimbusVault.Lib.Text

/-!
# Workload — the chunk a workload thread picks

`WorkloadGen` splits its chunk ids into a hot part, `hot_count_` ids from the first on, and a cold
part of `cold_count_` ids behind them.  Each part is given one id at least, whatever is left for it:
where the hot part is all of them, the cold part is one id behind the last.  `countHot_lt_iff` says
when that happens, and `picks_in_range_iff` which workloads never index past their ids.  A `double` is
a `Float.Model`, with the rounding of the product that `hot_count_` is cut off from.
-/

namespace NimbusVault

open Lib Lib.Binary64

structure WorkloadConfig where
  numChunks : Int32 := 100
  hotFraction : Float.Model := .ofScientific 1 (-1)
  hotReadWeight : Float.Model := .ofScientific 8 (-1)
  distribution : Str := "hot_cold".toList
  zipfTheta : Float.Model := .ofScientific 99 (-2)

structure WorkloadGen where
  cfg : WorkloadConfig
  hotCount : Int32
  coldCount : Int32
  zipfH : Float.Model
  chunkIds : List Str

/-! ### The constructor -/

/-- `hot_fraction` within `[0.0, 1.0]`; what is not a number stays. -/
def clampFraction (f : Float.Model) : Float.Model :=
  let f := if f < .ofNat 0 then .ofNat 0 else f
  if .ofNat 1 < f then .ofNat 1 else f

def countHot (numChunks : Int32) (hotFraction : Float.Model) : Int32 :=
  -- the cast of what is not a number is undefined; here it is 0, as good as any value below 1
  let hot := (Float.Model.ofInt32 numChunks * hotFraction).toInt32
  if hot < 1 then 1 else hot

def countCold (numChunks hot : Int32) : Int32 :=
  let cold := numChunks - hot
  if cold < 1 then 1 else cold

/-- The values of the loop `for (int i = 1; i <= N; ++i)`. -/
def countUp (N : Int32) : List Int32 := (List.range N.toInt.toNat).map fun k => .ofNat (k + 1)

/-! ### The two parts -/

variable {f : Float.Model} {n hot : Int32}

theorem not_clampFraction_lt_zero (f : Float.Model) : ¬ clampFraction f < .ofNat 0 := by
  unfold clampFraction
  dsimp only
  split_ifs with hneg hone hone
  · decide
  · decide
  · decide
  · exact hneg

theorem not_one_lt_clampFraction (f : Float.Model) : ¬ .ofNat 1 < clampFraction f := by
  unfold clampFraction
  dsimp only
  split_ifs with hneg hone hone
  · decide
  · decide
  · decide
  · exact hone

theorem one_le_clampFraction_iff : .ofNat 1 ≤ clampFraction f ↔ .ofNat 1 ≤ f := by
  unfold clampFraction
  dsimp only
  split_ifs with hneg hone hone
  · exact absurd hone (by decide)
  · exact iff_of_false (by decide) (not_one_le_of_lt_zero hneg)
  · exact iff_of_true (by decide) (Lib.Binary64.le_of_lt hone)
  · rfl

theorem toInt_countHot (n : Int32) (f : Float.Model) :
    (countHot n f).toInt = max 1 (Float.Model.ofInt32 n * f).toInt32.toInt := by
  unfold countHot
  dsimp only
  split_ifs with h <;> rw [← Int32.not_le, one_le_int_iff] at h
  · have hone : (1 : Int32).toInt = 1 := rfl
    omega
  · omega

/-- Neither part is counted empty. -/
theorem toInt_countCold (hpos : 1 ≤ hot) (hle : hot ≤ n) :
    (countCold n hot).toInt = max 1 (n.toInt - hot.toInt) := by
  have hsub : (n - hot).toInt = n.toInt - hot.toInt :=
    Int32.toInt_sub_of_le n hot (Int32.le_trans (by decide) hpos) hle
  unfold countCold
  dsimp only
  split_ifs with h <;> rw [← Int32.not_le, one_le_int_iff, hsub] at h
  · have hone : (1 : Int32).toInt = 1 := rfl
    omega
  · omega

/-- A fraction of `1.0` or more makes all the chunks hot. -/
theorem countHot_of_one_le (hn : 1 ≤ n) (hf : .ofNat 1 ≤ f) : countHot n (clampFraction f) = n := by
  have hpos := one_le_int_iff.mp hn
  rw [← Int32.toInt_inj, toInt_countHot,
    toInt32_mul_one hn (one_le_clampFraction_iff.mpr hf) (not_one_lt_clampFraction f)]
  omega

/-- Every other fraction leaves a chunk for the cold part, unless there is one chunk only. -/
theorem countHot_of_not_one_le (hn : 1 ≤ n) (hf : ¬ .ofNat 1 ≤ f) :
    1 ≤ (countHot n (clampFraction f)).toInt ∧
      (countHot n (clampFraction f)).toInt ≤ max 1 (n.toInt - 1) := by
  obtain ⟨-, hlt⟩ := toInt32_mul_lt hn (not_clampFraction_lt_zero f)
    (fun h => hf (one_le_clampFraction_iff.mp h))
  rw [toInt_countHot]
  omega

theorem countHot_bounds (hn : 1 ≤ n) (f : Float.Model) :
    1 ≤ countHot n (clampFraction f) ∧ countHot n (clampFraction f) ≤ n := by
  by_cases hf : .ofNat 1 ≤ f
  · rw [countHot_of_one_le hn hf]
    exact ⟨hn, Int32.le_refl n⟩
  · obtain ⟨hlo, hhi⟩ := countHot_of_not_one_le hn hf
    have hpos := one_le_int_iff.mp hn
    exact ⟨one_le_int_iff.mpr hlo, Int32.le_iff_toInt_le.mpr (by omega)⟩

/-- **When a chunk is left for the cold part.** -/
theorem countHot_lt_iff (hn : 1 ≤ n) :
    countHot n (clampFraction f) < n ↔ 2 ≤ n ∧ ¬ .ofNat 1 ≤ f := by
  have htwo : (2 : Int32).toInt = 2 := rfl
  by_cases hf : .ofNat 1 ≤ f
  · rw [countHot_of_one_le hn hf]
    exact iff_of_false Int32.lt_irrefl fun h => h.2 hf
  · obtain ⟨hlo, hhi⟩ := countHot_of_not_one_le hn hf
    rw [Int32.lt_iff_toInt_lt, Int32.le_iff_toInt_le, htwo]
    exact ⟨fun h => ⟨by omega, hf⟩, fun h => by omega⟩

example : countHot 100 (clampFraction (.ofScientific 2 (-1))) = 20 := by decide +kernel

section Zipf

variable (pow : Float.Model → Float.Model → Float.Model)

def zipfTerm (theta : Float.Model) (i : Int32) : Float.Model := .ofNat 1 / pow (.ofInt32 i) theta

namespace WorkloadGen

/-- The members that the constructor sets. -/
def init (cfg : WorkloadConfig) : WorkloadGen :=
  let cfg := { cfg with hotFraction := clampFraction cfg.hotFraction }
  let hot := countHot cfg.numChunks cfg.hotFraction
  { cfg
    hotCount := hot
    coldCount := countCold cfg.numChunks hot
    zipfH := (countUp cfg.numChunks).foldl (fun h i => h + zipfTerm pow cfg.zipfTheta i) (.ofNat 0)
    chunkIds := (List.range cfg.numChunks.toInt.toNat).map fun i => "chunk_".toList ++ Text.decimal i }

/-- The constructor; `none` where it does not return. -/
def create (cfg : WorkloadConfig) : Option WorkloadGen :=
  -- `reserve` throws on a negative size, and `i <= N` is never false of the greatest `int`
  if cfg.numChunks < 0 ∨ cfg.numChunks = Int32.maxValue then none else some (init pow cfg)

end WorkloadGen

/-! ### Picking a chunk -/

/-- What one call can draw: a `double` of `[0.0, 1.0)`, and for every `hi` an `int` of `[0, hi]`. -/
structure Draws where
  real : Float.Model
  int : Int32 → Int32
  zero_le_real : .ofNat 0 ≤ real
  real_lt_one : real < .ofNat 1
  zero_le_int : ∀ hi, 0 ≤ hi → 0 ≤ int hi
  int_le : ∀ hi, 0 ≤ hi → int hi ≤ hi

def zipfScan (theta target : Float.Model) (last : Int32) : List Int32 → Float.Model → Int32
  | [], _ => last
  | i :: is, cumulative =>
    let cumulative := cumulative + zipfTerm pow theta i
    if target ≤ cumulative then i - 1 else zipfScan theta target last is cumulative

def zipfSample (N : Int32) (theta H u : Float.Model) : Int32 :=
  zipfScan pow theta (u * H) (N - 1) (countUp N) (.ofNat 0)

namespace WorkloadGen

/-- `chunk_ids_[idx]`; `none` is an index that is not within the vector. -/
def chunkAt (w : WorkloadGen) (idx : Int32) : Option Str :=
  if 0 ≤ idx then w.chunkIds[idx.toInt.toNat]? else none

def tier (w : WorkloadGen) (idx : Int32) : Str :=
  if idx < w.hotCount then "hot".toList else "cold".toList

def pickChunk (w : WorkloadGen) (d : Draws) : Option (Str × Str) :=
  if w.cfg.distribution = "zipfian".toList then
    let idx := zipfSample pow w.cfg.numChunks w.cfg.zipfTheta w.zipfH d.real
    (w.chunkAt idx).map fun c => (c, w.tier idx)
  else if w.cfg.distribution = "uniform".toList then
    let idx := d.int (w.cfg.numChunks - 1)
    (w.chunkAt idx).map fun c => (c, w.tier idx)
  else if d.real < w.cfg.hotReadWeight then
    (w.chunkAt (d.int (w.hotCount - 1))).map fun c => (c, "hot".toList)
  else
    (w.chunkAt (w.hotCount + d.int (w.coldCount - 1))).map fun c => (c, "cold".toList)

end WorkloadGen

/-! ### Picks within the vector -/

variable {pow} {cfg : WorkloadConfig} {w : WorkloadGen}

theorem mem_countUp {N i : Int32} (h : i ∈ countUp N) : 1 ≤ i ∧ i ≤ N := by
  obtain ⟨k, hk, rfl⟩ := List.mem_map.mp h
  have hmax := N.toInt_lt
  have hlt : k < N.toInt.toNat := List.mem_range.mp hk
  have hval : (Int32.ofNat (k + 1)).toInt = k + 1 := Int32.toInt_ofNat_of_lt (by omega)
  rw [one_le_int_iff, Int32.le_iff_toInt_le, hval]
  omega

theorem zipfScan_eq (theta target : Float.Model) (last : Int32) :
    ∀ (is : List Int32) (cumulative : Float.Model),
      zipfScan pow theta target last is cumulative = last ∨
        ∃ i ∈ is, zipfScan pow theta target last is cumulative = i - 1
  | [], _ => .inl rfl
  | i :: is, cumulative => by
    rw [zipfScan]
    split_ifs with htarget
    · exact .inr ⟨i, List.mem_cons_self, rfl⟩
    · rcases zipfScan_eq theta target last is _ with hlast | ⟨j, hj, hscan⟩
      · exact .inl hlast
      · exact .inr ⟨j, List.mem_cons_of_mem _ hj, hscan⟩

theorem pred_bounds {i N : Int32} (hi : 1 ≤ i) (hN : i ≤ N) : 0 ≤ i - 1 ∧ i - 1 < N := by
  have hpred : (i - 1).toInt = i.toInt - 1 := Int32.toInt_sub_of_le i 1 (by decide) hi
  rw [one_le_int_iff] at hi
  rw [Int32.le_iff_toInt_le] at hN
  rw [zero_le_int_iff, Int32.lt_iff_toInt_lt, hpred]
  omega

/-- A sampled rank is an index, whatever the powers are. -/
theorem zipfSample_bounds {N : Int32} (hN : 1 ≤ N) (theta H u : Float.Model) :
    0 ≤ zipfSample pow N theta H u ∧ zipfSample pow N theta H u < N := by
  rcases zipfScan_eq theta (u * H) (N - 1) (countUp N) (.ofNat 0) with hscan | ⟨i, hi, hscan⟩ <;>
    rw [zipfSample, hscan]
  · exact pred_bounds hN (Int32.le_refl N)
  · obtain ⟨hlo, hhi⟩ := mem_countUp hi
    exact pred_bounds hlo hhi

/-- A drawn `int` below a positive `int`. -/
theorem Draws.int_bounds (d : Draws) {N : Int32} (hN : 1 ≤ N) :
    0 ≤ d.int (N - 1) ∧ d.int (N - 1) < N := by
  obtain ⟨hlo, hhi⟩ := pred_bounds hN (Int32.le_refl N)
  exact ⟨d.zero_le_int _ hlo, Int32.lt_of_le_of_lt (d.int_le _ hlo) hhi⟩

namespace WorkloadGen

theorem isSome_chunkAt (idx : Int32) :
    ((init pow cfg).chunkAt idx).isSome ↔ 0 ≤ idx ∧ idx < cfg.numChunks := by
  have hlen : (init pow cfg).chunkIds.length = cfg.numChunks.toInt.toNat := by
    rw [init, List.length_map, List.length_range]
  rw [chunkAt, Int32.lt_iff_toInt_lt]
  split_ifs with hidx
  · rw [Option.isSome_iff_ne_none, ne_eq, List.getElem?_eq_none_iff, hlen]
    rw [zero_le_int_iff] at hidx ⊢
    omega
  · exact iff_of_false (by decide) fun h => hidx h.1

/-- A pick from the hot part is within the vector. -/
theorem isSome_hot (hn : 1 ≤ cfg.numChunks) (d : Draws) :
    ((init pow cfg).chunkAt (d.int ((init pow cfg).hotCount - 1))).isSome := by
  obtain ⟨hpos, hle⟩ := countHot_bounds hn cfg.hotFraction
  obtain ⟨hlo, hhi⟩ := d.int_bounds hpos
  exact (isSome_chunkAt _).mpr ⟨hlo, Int32.lt_of_lt_of_le hhi hle⟩

/-- A pick from the cold part is within the vector where the hot part is not all of it. -/
theorem isSome_cold_iff (hn : 1 ≤ cfg.numChunks) (d : Draws) :
    ((init pow cfg).chunkAt ((init pow cfg).hotCount +
        d.int ((init pow cfg).coldCount - 1))).isSome ↔
      2 ≤ cfg.numChunks ∧ ¬ .ofNat 1 ≤ cfg.hotFraction := by
  obtain ⟨hpos, hle⟩ := countHot_bounds hn cfg.hotFraction
  have hcount := toInt_countCold hpos hle
  rw [isSome_chunkAt, ← countHot_lt_iff hn]
  simp only [init]
  generalize countHot cfg.numChunks (clampFraction cfg.hotFraction) = hot at *
  have hcold : 1 ≤ countCold cfg.numChunks hot := by
    rw [one_le_int_iff]
    omega
  obtain ⟨hlo, hhi⟩ := d.int_bounds hcold
  have hmax := cfg.numChunks.toInt_lt
  rw [zero_le_int_iff] at hlo
  rw [Int32.lt_iff_toInt_lt] at hhi
  rw [one_le_int_iff] at hpos
  rw [Int32.le_iff_toInt_le] at hle
  have hadd : (hot + d.int (countCold cfg.numChunks hot - 1)).toInt =
      hot.toInt + (d.int (countCold cfg.numChunks hot - 1)).toInt := by
    rw [Int32.toInt_add]
    exact Int.bmod_eq_of_le (by omega) (by omega)
  rw [zero_le_int_iff, Int32.lt_iff_toInt_lt, Int32.lt_iff_toInt_lt, hadd]
  omega

/-- Which picks are within the vector. -/
theorem isSome_pickChunk_iff (hn : 1 ≤ cfg.numChunks) (d : Draws) :
    ((init pow cfg).pickChunk pow d).isSome ↔
      cfg.distribution = "zipfian".toList ∨ cfg.distribution = "uniform".toList ∨
        d.real < cfg.hotReadWeight ∨ (2 ≤ cfg.numChunks ∧ ¬ .ofNat 1 ≤ cfg.hotFraction) := by
  have hdist : (init pow cfg).cfg.distribution = cfg.distribution := rfl
  have hweight : (init pow cfg).cfg.hotReadWeight = cfg.hotReadWeight := rfl
  rw [pickChunk, hdist, hweight]
  split_ifs with hzipf hunif hbias <;> rw [Option.isSome_map]
  · exact iff_of_true ((isSome_chunkAt _).mpr (zipfSample_bounds hn _ _ _)) (.inl hzipf)
  · exact iff_of_true ((isSome_chunkAt _).mpr (d.int_bounds hn)) (.inr (.inl hunif))
  · exact iff_of_true (isSome_hot hn d) (.inr (.inr (.inl hbias)))
  · rw [isSome_cold_iff hn, or_iff_right hzipf, or_iff_right hunif, or_iff_right hbias]

end WorkloadGen

/-- The greatest of everything that can be drawn. -/
def Draws.greatest : Draws where
  real := belowOne
  int := id
  zero_le_real := zero_le_belowOne
  real_lt_one := belowOne_lt_one
  zero_le_int _ h := h
  int_le hi _ := Int32.le_refl hi

namespace WorkloadGen

theorem create_eq_some (h : create pow cfg = some w) : w = init pow cfg := by
  unfold create at h
  split_ifs at h
  exact (Option.some.inj h).symm

/-- **Every pick of a workload is within the vector** exactly if the picks are spread over all the
chunks, or all are hot ones, or the hot part leaves a chunk for the cold part. -/
theorem picks_in_range_iff (hn : 1 ≤ cfg.numChunks) (hw : create pow cfg = some w) :
    (∀ d : Draws, (w.pickChunk pow d).isSome) ↔
      cfg.distribution = "zipfian".toList ∨ cfg.distribution = "uniform".toList ∨
        .ofNat 1 ≤ cfg.hotReadWeight ∨ (2 ≤ cfg.numChunks ∧ ¬ .ofNat 1 ≤ cfg.hotFraction) := by
  obtain rfl := create_eq_some hw
  constructor
  · intro h
    have hgreatest := (isSome_pickChunk_iff hn .greatest).mp (h .greatest)
    rwa [Draws.greatest, belowOne_lt_iff] at hgreatest
  · intro h d
    rw [isSome_pickChunk_iff hn d]
    exact h.imp_right (Or.imp_right (Or.imp_left (lt_of_lt_one d.real_lt_one)))

theorem picks_in_range_iff_fifth : ¬ Float.Model.ofNat 1 ≤ .ofScientific 2 (-1) ∧
    ∀ d : Draws, ((init (fun x _ => x) { hotFraction := .ofScientific 2 (-1) }).pickChunk
      (fun x _ => x) d).isSome :=
  have hfifth : ¬ Float.Model.ofNat 1 ≤ .ofScientific 2 (-1) := by decide +kernel
  ⟨hfifth, (@picks_in_range_iff (fun x _ => x) { hotFraction := .ofScientific 2 (-1) } _
    (by decide) rfl).mpr (.inr (.inr (.inr ⟨by decide, hfifth⟩)))⟩

/-- One chunk: the hot part is all of them, and a cold pick is the one behind it. -/
theorem cold_pick_behind_last :
    ¬ ∀ (pow : Float.Model → Float.Model → Float.Model) (cfg : WorkloadConfig) (w : WorkloadGen)
      (d : Draws), 1 ≤ cfg.numChunks → cfg.distribution ≠ "zipfian".toList →
        create pow cfg = some w → (w.pickChunk pow d).isSome := by
  intro h
  have hpick := h (fun x _ => x) { numChunks := 1 } _ .greatest (by decide) (by decide) rfl
  revert hpick
  decide +kernel

end WorkloadGen

end Zipf

end NimbusVault
