import Mathlib.Data.Nat.Basic
import Mathlib.Order.Lattice
import Mathlib.Tactic.Common

/-!
# Lib.Prefix — what a kept prefix of a growing history covers

`val k` is what is read back when the first `k` of `n` writes are kept, and `rets` are the values
promised so far.  `Tracks val n rets cut` says that the promises are kept exactly by the prefixes
from `cut` on.  It survives further writes, and a promise moves the cut only when it is the first of
its kind.
-/

namespace Lib

variable {ν : Type*} [LinearOrder ν]

/-- The promises `rets` are covered exactly from the cut on. -/
structure Tracks (val : ℕ → ν) (n : ℕ) (rets : List ν) (cut : ℕ) : Prop where
  cut_le : cut ≤ n
  le : ∀ k ≤ n, val k ≤ val n
  covers : ∀ k ≤ n, (∀ r ∈ rets, r ≤ val k) ↔ cut ≤ k

namespace Tracks

variable {val val' : ℕ → ν} {n cut : ℕ} {rets : List ν} {r : ν}

/-- One more write, which does not lower the value. -/
theorem issue (h : Tracks val n rets cut) (hold : ∀ k ≤ n, val' k = val k)
    (hnew : val n ≤ val' (n + 1)) : Tracks val' (n + 1) rets cut where
  cut_le := Nat.le_succ_of_le h.cut_le
  le k hk := by
    rcases Nat.le_succ_iff.mp hk with hk | rfl
    · rw [hold k hk]
      exact le_trans (h.le k hk) hnew
    · exact le_rfl
  covers k hk := by
    rcases Nat.le_succ_iff.mp hk with hk | rfl
    · rw [hold k hk]
      exact h.covers k hk
    · refine ⟨fun _ => Nat.le_succ_of_le h.cut_le, fun _ r hr => ?_⟩
      exact le_trans ((h.covers n le_rfl).mpr h.cut_le r hr) hnew

/-- A promise that only the last write has made true. -/
theorem promise (h : Tracks val n rets cut) (hr : val n = r) (hlt : ∀ k < n, val k < r) :
    Tracks val n (r :: rets) n where
  cut_le := le_rfl
  le := h.le
  covers k hk := by
    constructor
    · intro hall
      by_contra hkn
      exact absurd (hall r List.mem_cons_self) (not_le.mpr (hlt k (not_le.mp hkn)))
    · intro hkn r' hr'
      obtain rfl := le_antisymm hk hkn
      rcases List.mem_cons.mp hr' with rfl | hr'
      · exact le_of_eq hr.symm
      · exact (h.covers k le_rfl).mpr h.cut_le r' hr'

/-- A promise that was true from the cut on. -/
theorem promise_old (h : Tracks val n rets cut) (hr : ∀ k, cut ≤ k → k ≤ n → r ≤ val k) :
    Tracks val n (r :: rets) cut where
  cut_le := h.cut_le
  le := h.le
  covers k hk := by
    rw [List.forall_mem_cons, h.covers k hk]
    exact ⟨fun hall => hall.2, fun hcut => ⟨hr k hcut hk, hcut⟩⟩

end Tracks

end Lib
