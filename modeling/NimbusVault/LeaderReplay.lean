import NimbusVault.LogTable
import NimbusVault.LogPrefix

/-!
# LeaderReplay — the table after a clean restart of the leader

The live table is made by the commits in the order in which the waiting threads notice their
quorums; the replay applies every entry up to the high-water mark in index order, whatever became of
its write. `commitsOf` are the commits of a run.  In every reachable state the two tables are
compared by the last writes of each chunk.
-/

namespace NimbusVault

open Lib

namespace ReplState

variable {f : ℕ} {s s' : ReplState f} {l : ReplStep f}

/-- The indices committed along a trace, in that order. -/
def commitsOf (tr : List (ReplStep f)) : List ℕ :=
  tr.filterMap fun | .commit i => some i | _ => none

/-- The leader's table is made by the entries it started with and its commits since. -/
structure TableInv (m : ℕ) (tr : List (ReplStep f)) (s : ReplState f) : Prop where
  logged : s.Logged
  mark : s.wal.committed ≤ s.wal.lastLogIndex
  live : ∀ k ∈ List.range' 1 m ++ commitsOf tr, k ≤ s.wal.lastLogIndex
  table : s.table = (List.range' 1 m ++ commitsOf tr).foldl s.wal.applyAt Kv.empty

/-- What a step does to the leader's table and mark. -/
theorem Fires.leader (h : s.Fires l s') :
    (commitsOf [l] = [] ∧ s'.table = s.table ∧ s'.wal.committed = s.wal.committed) ∨
      ∃ i, l = .commit i ∧ s.writes i = some .waiting ∧ s'.table = s.wal.applyAt s.table i ∧
        s'.wal = s.wal.commit i := by
  cases h with
  | @commit i n hw => exact .inr ⟨i, rfl, hw, rfl, rfl⟩
  | _ => exact .inl ⟨rfl, rfl, rfl⟩

theorem TableInv.fires {m : ℕ} {tr : List (ReplStep f)} (hI : TableInv m tr s) (h : s.Fires l s') :
    TableInv m (tr ++ [l]) s' := by
  have hgrow : s.wal.lastLogIndex ≤ s'.wal.lastLogIndex := h.wal_grows.length_le
  have htable : s.table = (List.range' 1 m ++ commitsOf tr).foldl s'.wal.applyAt Kv.empty := by
    rw [Wal.foldl_applyAt_of_prefix h.wal_grows hI.live]
    exact hI.table
  have hcommits : commitsOf (tr ++ [l]) = commitsOf tr ++ commitsOf [l] := List.filterMap_append
  rcases h.leader with ⟨hl, ht, hm⟩ | ⟨i, rfl, hw, ht, hwal⟩
  · rw [hl, List.append_nil] at hcommits
    refine ⟨h.logged hI.logged, ?_, ?_, ?_⟩
    · rw [hm]
      exact hI.mark.trans hgrow
    · rw [hcommits]
      exact fun k hk => (hI.live k hk).trans hgrow
    · rw [hcommits, ht]
      exact htable
  · obtain ⟨e, he⟩ := hI.logged i _ hw
    have hi : i ≤ s.wal.lastLogIndex := (Wal.readEntry_le he).2
    refine ⟨h.logged hI.logged, ?_, ?_, ?_⟩
    · rw [hwal]
      exact max_le hI.mark hi
    · rw [hcommits, ← List.append_assoc]
      intro k hk
      rcases List.mem_append.mp hk with hk | hk
      · exact (hI.live k hk).trans hgrow
      · obtain rfl : k = i := List.mem_singleton.mp hk
        exact hi.trans hgrow
    · rw [hcommits, ← List.append_assoc, ht, htable, ← Wal.applyAt_of_prefix h.wal_grows hi]
      exact (List.foldl_concat ..).symm

end ReplState

section LeaderReplay

open ReplState

variable {f : ℕ} {w : Wal} {t : ChunkTable} {fs : Fin f → MetaFollower}

theorem tableInv_reach (hw : w.committed ≤ w.lastLogIndex) (ht : w.replay Kv.empty = some t)
    {tr : List (ReplStep f)} {s : ReplState f} (h : (replication f).Reach (start w t fs) tr s) :
    TableInv w.committed tr s := by
  refine h.trace_invariant ⟨fun _ _ hx => by simp at hx, hw, fun k hk => ?_, ?_⟩
    fun tr s l s' hI hs _ => hI.fires (step_fires hs)
  · obtain ⟨-, hk⟩ := List.mem_range'_1.mp ((List.append_nil _).subst hk)
    show k ≤ w.lastLogIndex
    omega
  · show t = (List.range' 1 w.committed ++ []).foldl w.applyAt Kv.empty
    rw [List.append_nil, Wal.foldl_applyAt hw]
    exact (Wal.replay_eq_some_iff.mp ht).2.symm

/-- **When a restart rebuilds the table**, in every state that a leader reaches from a clean start:
exactly when every entry up to the mark parses and, for every chunk, the last PUT or DELETE that was
committed, with the last START or COMMIT committed behind it, makes the entry that the last PUT or
DELETE of the log up to the mark makes, with the last START or COMMIT behind it. -/
theorem replay_rebuilds_iff (hw : w.committed ≤ w.lastLogIndex) (ht : w.replay Kv.empty = some t)
    {tr : List (ReplStep f)} {s : ReplState f} (h : (replication f).Reach (start w t fs) tr s) :
    s.wal.replay Kv.empty = some s.table ↔
      (∀ e ∈ s.wal.records.take s.wal.committed, (decodeEntry e).isSome = true) ∧
        ∀ c, s.wal.lastEntry (List.range' 1 s.wal.committed) c
          = s.wal.lastEntry (List.range' 1 w.committed ++ commitsOf tr) c := by
  have hI := tableInv_reach hw ht h
  rw [Wal.replay_eq_some_iff, ← Wal.foldl_applyAt hI.mark, hI.table]
  exact and_congr_right fun _ => Wal.foldl_applyAt_eq_iff

/-- The entry of a `PutChunk` of the chunk `c`. -/
def putEntry : WalEntry :=
  ⟨.putChunk, leaderTerm, ['c', '|', '1', '|', '1', '|', '1', '|', 'n', '=', 'a', ',']⟩

/-- The only follower acknowledges the first entry, which commits. -/
def putRun : List (ReplStep 1) :=
  [.append .putChunk putEntry.payload, .register 1, .deliver (appendMsg (nth 0) 1 true 1 putEntry),
    .reply (nth 0) 1 true, .commit 1]

def putState : ReplState 1 := (replication 1).final (fun _ _ => True) (fresh 1) putRun

theorem putState_reach : (replication 1).Reach (fresh 1) putRun putState :=
  Machine.run_final (by decide +kernel)

theorem replay_rebuilds_put :
    (∀ e ∈ putState.wal.records.take putState.wal.committed, (decodeEntry e).isSome = true) ∧
      ∀ c, putState.wal.lastEntry (List.range' 1 putState.wal.committed) c
        = putState.wal.lastEntry (List.range' 1 (fresh 1).wal.committed ++ commitsOf putRun) c :=
  (replay_rebuilds_iff (Nat.zero_le _) rfl putState_reach).mp (by decide +kernel)

/-- The first write times out; the second one commits, and its index becomes the mark. -/
def passedOverRun : List (ReplStep 1) :=
  [.append .putChunk putEntry.payload, .register 1, .deliver (appendMsg (nth 0) 1 true 1 putEntry),
    .timeout 1, .append .deleteChunk ['d'], .register 2,
    .deliver (appendMsg (nth 0) 2 true 2 (deleteEntry ['d'])), .reply (nth 0) 2 true, .commit 2]

def passedOverState : ReplState 1 :=
  (replication 1).final (fun _ _ => True) (fresh 1) passedOverRun

theorem passedOverState_reach : (replication 1).Reach (fresh 1) passedOverRun passedOverState :=
  Machine.run_final (by decide +kernel)

/-- The chunk of the write that failed is in the table after the restart only. -/
theorem failed_write_replayed : ¬ ∀ (f : ℕ) tr (s : ReplState f),
    (replication f).Reach (fresh f) tr s → s.wal.replay Kv.empty = some s.table := by
  intro h
  have heq := h 1 _ _ passedOverState_reach
  revert heq
  decide +kernel

end LeaderReplay

end NimbusVault
