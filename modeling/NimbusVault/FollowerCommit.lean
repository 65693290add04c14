import NimbusVault.LogTable
import NimbusVault.PutChunk

/-!
# FollowerCommit — CommitEntry messages in any order

`handle_commit` applies whatever index arrives, as often as it arrives.  When all indices up to `n`
have arrived, the table is that of the first `n` entries in order exactly if, for every chunk, the
writes that arrived last are as good as the writes that are last in the log.
-/

namespace NimbusVault

open Lib

namespace MetaFollower

variable {fo : MetaFollower} {ks : List ℕ}

/-- One CommitEntry message. -/
theorem handleCommit_table {k : ℕ} (hk : k ≤ fo.wal.lastLogIndex) :
    (fo.handleCommit k).table = fo.wal.applyAt fo.table k := by
  unfold handleCommit
  rw [if_neg (by omega)]
  rfl

/-- **Any sequence of CommitEntry messages**: the log stays, and each is applied. -/
theorem foldl_handleCommit (hks : ∀ k ∈ ks, k ≤ fo.wal.lastLogIndex) :
    (ks.foldl handleCommit fo).wal.records = fo.wal.records ∧
      (ks.foldl handleCommit fo).table = ks.foldl fo.wal.applyAt fo.table := by
  induction ks using List.reverseRecOn with
  | nil => exact ⟨rfl, rfl⟩
  | append_singleton ks k ih =>
    obtain ⟨hrec, htable⟩ := ih fun j hj => hks j (List.mem_append_left _ hj)
    have hk : k ≤ fo.wal.lastLogIndex := hks k (by simp)
    have hp : fo.wal.records <+: (ks.foldl handleCommit fo).wal.records := by rw [hrec]
    rw [List.foldl_concat, List.foldl_concat, ← htable]
    refine ⟨by rw [handleCommit_records, hrec], ?_⟩
    rw [handleCommit_table (hk.trans hp.length_le), Wal.applyAt_of_prefix hp hk]

end MetaFollower

/-- **When the order of the messages does not matter**: exactly when, for every chunk, the last PUT
or DELETE to arrive with the last START or COMMIT to arrive behind it make the entry that the last
PUT or DELETE of the log makes with the last START or COMMIT behind it. -/
theorem commits_in_any_order {w : Wal} {fo : MetaFollower} (hp : fo.wal.records <+: w.records)
    (ht : fo.table = Kv.empty) {n : ℕ} (hn : n ≤ fo.wal.lastLogIndex) {ks : List ℕ}
    (hks : ∀ k, k ∈ ks ↔ 1 ≤ k ∧ k ≤ n) :
    (ks.foldl MetaFollower.handleCommit fo).table = applyEntries (w.records.take n) ↔
      ∀ c, w.lastEntry ks c = w.lastEntry (List.range' 1 n) c := by
  have hle : ∀ k ∈ ks, k ≤ fo.wal.lastLogIndex := fun k hk => ((hks k).mp hk).2.trans hn
  rw [(MetaFollower.foldl_handleCommit hle).2, ht, ← Wal.foldl_applyAt_of_prefix hp hle,
    ← Wal.foldl_applyAt (hn.trans hp.length_le)]
  exact Wal.foldl_applyAt_eq_iff

/-- A log that puts the chunk `c` and deletes it. -/
def putDeleteLog : Wal :=
  { records := [⟨.putChunk, leaderTerm, ['c', '|', '1', '|', '1', '|', '1', '|', 'n', '=', 'a', ',']⟩,
      ⟨.deleteChunk, leaderTerm, ['c']⟩] }

/-- A follower that has the log and has committed nothing. -/
def putDeleteFollower : MetaFollower := { wal := putDeleteLog }

/-- Both commits arrive, and then both once more. -/
theorem commits_in_any_order_again :
    ([1, 2, 1, 2].foldl MetaFollower.handleCommit putDeleteFollower).table
      = applyEntries (putDeleteLog.records.take 2) := by
  have hp : putDeleteFollower.wal.records <+: putDeleteLog.records := List.prefix_refl _
  have hks : ∀ k, k ∈ [1, 2, 1, 2] ↔ 1 ≤ k ∧ k ≤ 2 := by
    intro k
    simp only [List.mem_cons, List.not_mem_nil, or_false]
    omega
  have hn : 2 ≤ putDeleteFollower.wal.lastLogIndex := le_rfl
  have hops : ∀ o ∈ [1, 2, 1, 2].filterMap putDeleteLog.opAt, o.chunkId = ['c'] := by decide +kernel
  have hops' : ∀ o ∈ (List.range' 1 2).filterMap putDeleteLog.opAt, o.chunkId = ['c'] := by
    decide +kernel
  refine (commits_in_any_order hp rfl hn hks).mpr fun c => ?_
  by_cases hc : c = ['c']
  · subst hc
    decide +kernel
  · rw [Wal.lastEntry_of_forall_ne fun o ho h => hc (h.symm.trans (hops o ho)),
      Wal.lastEntry_of_forall_ne fun o ho h => hc (h.symm.trans (hops' o ho))]

/-- The commit of the deletion arrives first, and the put is applied to a chunk that is gone. -/
theorem deleted_chunk_comes_back : ¬ ∀ (w : Wal) (fo : MetaFollower), fo.wal.records <+: w.records →
    fo.table = Kv.empty → ∀ n, n ≤ fo.wal.lastLogIndex → ∀ ks : List ℕ,
      (∀ k, k ∈ ks ↔ 1 ≤ k ∧ k ≤ n) →
        (ks.foldl MetaFollower.handleCommit fo).table = applyEntries (w.records.take n) := by
  intro h
  have hks : ∀ k, k ∈ [2, 1] ↔ 1 ≤ k ∧ k ≤ 2 := by
    intro k
    simp only [List.mem_cons, List.not_mem_nil, or_false]
    omega
  have heq := h putDeleteLog putDeleteFollower (List.prefix_refl _) rfl 2 le_rfl [2, 1] hks
  revert heq
  decide +kernel

end NimbusVault
