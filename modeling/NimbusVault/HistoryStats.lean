import NimbusVault.HistoryTracer
import NimbusVault.Lib.Percentile

/-!
# HistoryStats — the summary of a recorded run

`get_stats` goes over the records once, sorts the latencies and takes three percentiles.  The rank of
a percentile is computed in doubles, and so are the rates, which are divided by the seconds between
the first start and the last end, or by one.  Of a run with less than `2 ^ 45` operations the
percentiles are those of exact arithmetic (`isRank_getStats`).
-/

namespace NimbusVault

open Lib Lib.Percentile

structure SummaryStats where
  totalOps : ℕ := 0
  errors : ℕ := 0
  throughputOpsPerS : Float.Model := .ofNat 0
  p50Us : UInt64 := 0
  p95Us : UInt64 := 0
  p99Us : UInt64 := 0
  putMbPerS : Float.Model := .ofNat 0
  getMbPerS : Float.Model := .ofNat 0
  putOpsPerS : Float.Model := .ofNat 0
  getOpsPerS : Float.Model := .ofNat 0

/-- The variables of the loop over the records. -/
structure StatsLocals where
  errors : ℕ := 0
  earliest : UInt64 := 0
  latestEnd : UInt64 := 0
  bytesPut : UInt64 := 0
  bytesGet : UInt64 := 0
  opsPut : ℕ := 0
  opsGet : ℕ := 0

namespace StatsLocals

def add (a : StatsLocals) (r : OpRecord) : StatsLocals :=
  let endUs := r.startUs + r.latencyUs
  { errors := if r.ok then a.errors else a.errors + 1
    earliest := if a.earliest = 0 ∨ r.startUs < a.earliest then r.startUs else a.earliest
    latestEnd := if a.latestEnd < endUs then endUs else a.latestEnd
    bytesPut := if r.type = .put then a.bytesPut + r.bytes else a.bytesPut
    bytesGet := if r.type = .get then a.bytesGet + r.bytes else a.bytesGet
    opsPut := if r.type = .put then a.opsPut + 1 else a.opsPut
    opsGet := if r.type = .get then a.opsGet + 1 else a.opsGet }

/-- `dur_s`. -/
def durS (a : StatsLocals) : Float.Model :=
  if a.earliest ≠ 0 ∧ a.earliest < a.latestEnd then
    let d : Float.Model := .ofUInt64 (a.latestEnd - a.earliest) / .ofNat 1000000
    if .ofNat 1 < d then d else .ofNat 1
  else .ofNat 1

end StatsLocals

/-- `pct`, of sorted latencies. -/
def pct (lat : List UInt64) (p : Float.Model) : UInt64 :=
  if lat = [] then 0
  else
    let idx := ceilNat (p / .ofNat 100 * .ofNat lat.length)
    let idx := if idx = 0 then 1 else idx
    let idx := if lat.length < idx then lat.length else idx
    lat.getD (idx - 1) 0

namespace HistoryTracer

def getStats (t : HistoryTracer) : SummaryStats :=
  if t.records = [] then {}
  else
    let a := t.records.foldl StatsLocals.add {}
    let lat := (t.records.map (·.latencyUs)).mergeSort
    let mb : Float.Model := .ofNat 1024 * .ofNat 1024
    { totalOps := t.records.length
      errors := a.errors
      p50Us := pct lat (.ofNat 50)
      p95Us := pct lat (.ofNat 95)
      p99Us := pct lat (.ofNat 99)
      throughputOpsPerS := .ofNat t.records.length / a.durS
      putOpsPerS := .ofNat a.opsPut / a.durS
      getOpsPerS := .ofNat a.opsGet / a.durS
      putMbPerS := .ofUInt64 a.bytesPut / mb / a.durS
      getMbPerS := .ofUInt64 a.bytesGet / mb / a.durS }

/-! ### Percentiles -/

/-- The three quotients, rounded down. -/
theorem unpack_percent :
    (Float.Model.ofNat 50 / .ofNat 100).unpack =
        .finite .positive 4503599627370496 (-53) (by norm_num) ∧
      (Float.Model.ofNat 95 / .ofNat 100).unpack =
        .finite .positive 8556839292003942 (-53) (by norm_num) ∧
      (Float.Model.ofNat 99 / .ofNat 100).unpack =
        .finite .positive 8917127262193582 (-53) (by norm_num) :=
  ⟨rfl, rfl, rfl⟩

/-- `p` is one of the percentages that are asked for. -/
theorem ceilNat_rank {p n : ℕ} (hp : p = 50 ∨ p = 95 ∨ p = 99) (hn : 0 < n) (hlog : n.log2 ≤ 44) :
    ceilNat (.ofNat p / .ofNat 100 * .ofNat n) = (p * n + 99) / 100 := by
  obtain ⟨h50, h95, h99⟩ := unpack_percent
  rcases hp with rfl | rfl | rfl
  · exact ceilNat_percent h50 (by norm_num) (by norm_num) hn hlog
  · exact ceilNat_percent h95 (by norm_num) (by norm_num) hn hlog
  · exact ceilNat_percent h99 (by norm_num) (by norm_num) hn hlog

/-- **A percentile** is the latency of that rank. -/
theorem isRank_pct {p : ℕ} {lat : List UInt64} (hp : p = 50 ∨ p = 95 ∨ p = 99) (hne : lat ≠ [])
    (hlog : lat.length.log2 ≤ 44) :
    IsRank (lat.map UInt64.toNat) ((p * lat.length + 99) / 100)
      (pct lat.mergeSort (.ofNat p)).toNat := by
  have hpos : 0 < lat.length := List.length_pos_of_ne_nil hne
  have hperm : lat.mergeSort.Perm lat := List.mergeSort_perm lat _
  have hsorted : (lat.mergeSort.map UInt64.toNat).Pairwise (· ≤ ·) := by
    rw [List.pairwise_map]
    refine (List.pairwise_mergeSort ?_ ?_ lat).imp fun h => UInt64.le_iff_toNat_le.mp (by simpa using h)
    · intro a b c hab hbc
      simpa using UInt64.le_trans (by simpa using hab) (by simpa using hbc)
    · intro a b
      simpa using UInt64.le_total a b
  have hrank : 1 ≤ (p * lat.length + 99) / 100 ∧ (p * lat.length + 99) / 100 ≤ lat.length := by
    rcases hp with rfl | rfl | rfl <;> omega
  obtain ⟨k, hk⟩ : ∃ k, (p * lat.length + 99) / 100 = k + 1 :=
    ⟨(p * lat.length + 99) / 100 - 1, by omega⟩
  have hlt : k < (lat.mergeSort.map UInt64.toNat).length := by
    rw [List.length_map, hperm.length_eq]
    omega
  have hpct : (pct lat.mergeSort (.ofNat p)).toNat = (lat.mergeSort.map UInt64.toNat)[k] := by
    have hnil : lat.mergeSort ≠ [] := fun h => hne (List.nil_perm.mp (h ▸ hperm))
    have hidx : ceilNat (.ofNat p / .ofNat 100 * .ofNat lat.mergeSort.length) = k + 1 := by
      rw [hperm.length_eq, ceilNat_rank hp hpos hlog, hk]
    have hin : ¬ lat.mergeSort.length < k + 1 := by
      rw [hperm.length_eq]
      omega
    unfold pct
    simp only [if_neg hnil, hidx, if_neg (Nat.succ_ne_zero k), if_neg hin, Nat.add_sub_cancel]
    rw [List.getD_eq_getElem _ _ (by simpa using hlt), List.getElem_map]
  rw [hk, hpct]
  exact (isRank_getElem hsorted hlt).of_perm (hperm.map _)

theorem errors_foldl (rs : List OpRecord) (a : StatsLocals) :
    (rs.foldl StatsLocals.add a).errors = a.errors + rs.countP (¬ ·.ok) := by
  induction rs generalizing a with
  | nil => rfl
  | cons r rs ih =>
    rw [List.foldl_cons, ih, List.countP_cons]
    cases hok : r.ok with
    | false =>
      simp only [StatsLocals.add, hok]
      simp
      omega
    | true => simp [StatsLocals.add, hok]

/-- **The summary**: of a run that is not empty, the operations and failures are counted, and each
percentile is the least latency that so many operations do not exceed. -/
theorem isRank_getStats {t : HistoryTracer} (hne : t.records ≠ []) (hlog : t.records.length.log2 ≤ 44) :
    t.getStats.totalOps = t.records.length ∧
      t.getStats.errors = t.records.countP (¬ ·.ok) ∧
      ∀ p v, (p, v) ∈ [(50, t.getStats.p50Us), (95, t.getStats.p95Us), (99, t.getStats.p99Us)] →
        IsRank (t.records.map (·.latencyUs.toNat)) ((p * t.records.length + 99) / 100) v.toNat := by
  unfold getStats
  simp only [if_neg hne]
  refine ⟨trivial, by rw [errors_foldl, Nat.zero_add], fun p v hv => ?_⟩
  have hlat : t.records.map (·.latencyUs) ≠ [] := by simpa using hne
  have hrank : ∀ p, p = 50 ∨ p = 95 ∨ p = 99 → IsRank (t.records.map (·.latencyUs.toNat))
      ((p * t.records.length + 99) / 100)
      (pct (t.records.map (·.latencyUs)).mergeSort (.ofNat p)).toNat := fun p hp => by
    have h := isRank_pct hp hlat (by rwa [List.length_map])
    rwa [List.length_map, List.map_map] at h
  simp only [List.mem_cons, Prod.mk.injEq, List.not_mem_nil, or_false] at hv
  rcases hv with ⟨rfl, rfl⟩ | ⟨rfl, rfl⟩ | ⟨rfl, rfl⟩
  · exact hrank 50 (.inl rfl)
  · exact hrank 95 (.inr (.inl rfl))
  · exact hrank 99 (.inr (.inr rfl))

end HistoryTracer

end NimbusVault
