import NimbusVault.LogPrefix

/-!
# LeaderFirst — what a follower applies, the leader has committed

A follower applies an entry in three places: on a CommitEntry message, on a log entry streamed at
its bootstrap, and on the replay of its own log.  The leader sends CommitEntry to a follower right
after that follower's ack, streams its log to the end, and a replay goes up to the mark, so nothing
makes the leader commit first.  Where each of the three keeps to what the leader has committed
(`LeaderDone`), no follower applies or commits anything else.
-/

namespace NimbusVault

open Lib

namespace ReplState

variable {f : ℕ}

/-- The leader has committed the entry of index `k`: before the start, when its mark was `m`, or by
a write since, whether applying the entry threw or not. -/
def LeaderCommitted (m : ℕ) (s : ReplState f) (k : ℕ) : Prop :=
  k ≤ m ∨ s.writes k = some .ok ∨ s.writes k = some .threw

/-- CommitEntry is sent for a committed index, a log whose new entries are all committed is
streamed, and a log that is committed up to its mark is replayed. -/
def LeaderDone (m : ℕ) (s : ReplState f) : ReplStep f → Prop
  | .sendCommit a i => ∀ direct k, s.threads a i = some (.acked direct k) → LeaderCommitted m s k
  | .bootFetch a => ∀ lsn, s.boots a = some (.installed lsn) → ∀ k, lsn < k →
      k ≤ s.wal.lastLogIndex → LeaderCommitted m s k
  | .restart a => ∀ k, 1 ≤ k → k ≤ (s.followers a).wal.committed →
      k ≤ (s.followers a).wal.lastLogIndex → LeaderCommitted m s k
  | _ => True

structure CommitInv (m : ℕ) (s : ReplState f) : Prop where
  logged : s.Logged
  commits : ∀ a k, (a, k) ∈ s.commits → LeaderCommitted m s k
  streams : ∀ a next last prev, s.boots a = some (.streaming next last prev) → ∀ k, next ≤ k →
    k ≤ last → LeaderCommitted m s k
  applied : ∀ a, ∀ k ∈ s.applied a, LeaderCommitted m s k

variable {m : ℕ} {s s' : ReplState f} {l : ReplStep f}

/-! ### What a step does -/

/-- What the leader has committed stays committed. -/
theorem LeaderCommitted.fires {k : ℕ} (hc : LeaderCommitted m s k) (hl : s.Logged)
    (h : s.Fires l s') : LeaderCommitted m s' k := by
  have final : ∀ {x}, s.writes k = some x → x ≠ .appended → x ≠ .waiting → s'.writes k = some x := by
    intro x hx h1 h2
    rcases h.write_life k with hw | ⟨hk, -, -⟩ | ⟨hw, -, -⟩ | ⟨hw, -⟩ | ⟨hw, -, -⟩
    · rw [hw, hx]
    · obtain ⟨e, he⟩ := hl k x hx
      have := (Wal.readEntry_le he).2
      omega
    · exact absurd (Option.some.inj (hx.symm.trans hw)) h1
    all_goals exact absurd (Option.some.inj (hx.symm.trans hw)) h2
  rcases hc with hk | hk | hk
  · exact .inl hk
  · exact .inr (.inl (final hk (by simp) (by simp)))
  · exact .inr (.inr (final hk (by simp) (by simp)))

theorem mem_bootNext {w : Wal} {fo : MetaFollower} {next last prev k : ℕ}
    (h : k ∈ (bootNext w fo next last prev).2.2) : k = next := by
  unfold bootNext at h
  split at h
  · simp at h
  · rename_i e he
    by_cases hok : (fo.handleAppend e.term prev next e).1 = true
    · simpa [hok] using h
    · simp [hok] at h

theorem bootNext_streaming {w : Wal} {fo : MetaFollower} {next last prev n l p : ℕ}
    (h : (bootNext w fo next last prev).2.1 = .streaming n l p) : n = next + 1 ∧ l = last := by
  unfold bootNext at h
  split at h
  · simp at h
  · rename_i e he
    by_cases hok : (fo.handleAppend e.term prev next e).1 = true
    · simp only [hok, if_true] at h
      split_ifs at h
      cases h
      exact ⟨rfl, rfl⟩
    · simp [hok] at h

/-- **What a step lets a follower apply.** -/
theorem Fires.applied (h : s.Fires l s') {a : Fin f} {k : ℕ} (hk : k ∈ s'.applied a) :
    k ∈ s.applied a ∨ (a, k) ∈ s.commits ∨
      (l = .restart a ∧ 1 ≤ k ∧ k ≤ (s.followers a).wal.committed ∧
        k ≤ (s.followers a).wal.lastLogIndex) ∨
      ∃ last prev, s.boots a = some (.streaming k last prev) ∧ k ≤ last := by
  have added : ∀ (b : Fin f) (ks : List ℕ), k ∈ Function.update s.applied b (s.applied b ++ ks) a →
      k ∈ s.applied a ∨ (a = b ∧ k ∈ ks) := by
    intro b ks hk
    by_cases hab : a = b
    · subst hab
      rw [Function.update_self] at hk
      exact (List.mem_append.mp hk).imp_right fun hk => ⟨rfl, hk⟩
    · rw [Function.update_of_ne hab] at hk
      exact .inl hk
  cases h with
  | deliver =>
    rcases added _ [] hk with hk | ⟨-, hk⟩
    · exact .inl hk
    · exact absurd hk List.not_mem_nil
  | @deliverCommit b j hj =>
    rcases added _ _ hk with hk | ⟨rfl, hk⟩
    · exact .inl hk
    · split_ifs at hk
      · obtain rfl := List.mem_singleton.mp hk
        exact .inr (.inl hj)
      · simp at hk
  | @restart b table =>
    rcases added _ _ hk with hk | ⟨rfl, hk⟩
    · exact .inl hk
    · obtain ⟨h1, h2⟩ := List.mem_range'_1.mp hk
      exact .inr (.inr (.inl ⟨rfl, h1, by omega, by omega⟩))
  | bootInstall =>
    rcases added _ [] hk with hk | ⟨-, hk⟩
    · exact .inl hk
    · exact absurd hk List.not_mem_nil
  | @bootEntry b next last prev hb hle =>
    rcases added _ _ hk with hk | ⟨rfl, hk⟩
    · exact .inl hk
    · obtain rfl := mem_bootNext hk
      exact .inr (.inr (.inr ⟨last, prev, hb, hle⟩))
  | _ => exact .inl hk

/-- What a step does to a stream: it goes on by one, or is opened at the end of the leader's log. -/
theorem Fires.streaming (h : s.Fires l s') {a : Fin f} {next last prev : ℕ}
    (hb : s'.boots a = some (.streaming next last prev)) :
    (∃ next' prev', s.boots a = some (.streaming next' last prev') ∧ next' ≤ next) ∨
      ∃ lsn, l = .bootFetch a ∧ s.boots a = some (.installed lsn) ∧ next = lsn + 1 ∧
        last = s.wal.lastLogIndex := by
  have moved : ∀ (b : Fin f) (x : Option Boot), Function.update s.boots b x a
      = some (.streaming next last prev) → s.boots a = some (.streaming next last prev) ∨
        (a = b ∧ x = some (.streaming next last prev)) := by
    intro b x hx
    by_cases hab : a = b
    · subst hab
      rw [Function.update_self] at hx
      exact .inr ⟨rfl, hx⟩
    · rw [Function.update_of_ne hab] at hx
      exact .inl hx
  have same : s.boots a = some (.streaming next last prev) →
      ∃ next' prev', s.boots a = some (.streaming next' last prev') ∧ next' ≤ next :=
    fun hx => ⟨next, prev, hx, le_rfl⟩
  cases h with
  | restart => exact .inl (same ((moved _ _ hb).resolve_right fun hx => by simp at hx))
  | bootBegin => exact .inl (same ((moved _ _ hb).resolve_right fun hx => by simp at hx))
  | bootInstall => exact .inl (same ((moved _ _ hb).resolve_right fun hx => by simp at hx))
  | bootStop => exact .inl (same ((moved _ _ hb).resolve_right fun hx => by simp at hx))
  | @bootFetch b lsn hlsn =>
    rcases moved _ _ hb with hx | ⟨rfl, hx⟩
    · exact .inl (same hx)
    · simp only [Option.some.injEq, Boot.streaming.injEq] at hx
      exact .inr ⟨lsn, rfl, hlsn, hx.1.symm, hx.2.1.symm⟩
  | @bootEntry b next' last' prev' hb' =>
    rcases moved _ _ hb with hx | ⟨rfl, hx⟩
    · exact .inl (same hx)
    · obtain ⟨rfl, rfl⟩ := bootNext_streaming (Option.some.inj hx)
      exact .inl ⟨next', prev', hb', Nat.le_succ _⟩
  | _ => exact .inl (same hb)

/-! ### The invariant -/

theorem commitInv_start {w : Wal} {t : ChunkTable} {fs : Fin f → MetaFollower} :
    CommitInv m (start w t fs) where
  logged _ _ h := by simp at h
  commits _ _ h := absurd h List.not_mem_nil
  streams _ _ _ _ h := by simp at h
  applied _ _ h := absurd h List.not_mem_nil

/-- **The invariant is kept by every step that waits for the leader.** -/
theorem CommitInv.fires (hI : CommitInv m s) (h : s.Fires l s') (hok : LeaderDone m s l) :
    CommitInv m s' where
  logged := h.logged hI.logged
  commits a k hk := by
    have old : (a, k) ∈ s.commits → LeaderCommitted m s k := hI.commits a k
    refine LeaderCommitted.fires ?_ hI.logged h
    cases h with
    | @sendCommit b i j direct hth =>
      rcases List.mem_append.mp hk with hk | hk
      · exact old hk
      · obtain ⟨rfl, rfl⟩ := Prod.mk.inj (List.mem_singleton.mp hk)
        exact hok _ _ hth
    | _ => exact old hk
  streams a next last prev hb k h1 h2 := by
    refine LeaderCommitted.fires ?_ hI.logged h
    rcases h.streaming hb with ⟨next', prev', hs, hle⟩ | ⟨lsn, rfl, hs, rfl, rfl⟩
    · exact hI.streams a next' last prev' hs k (hle.trans h1) h2
    · exact hok lsn hs k h1 h2
  applied a k hk := by
    refine LeaderCommitted.fires ?_ hI.logged h
    rcases h.applied hk with hk | hk | ⟨rfl, h1, h2, h3⟩ | ⟨last, prev, hb, hle⟩
    · exact hI.applied a k hk
    · exact hI.commits a k hk
    · exact hok k h1 h2 h3
    · exact hI.streams a k last prev hb k le_rfl hle

/-! ### The mark of a follower -/

theorem handleCommit_mark (fo : MetaFollower) (k : ℕ) :
    (fo.handleCommit k).wal.committed = fo.wal.committed ∨
      (k ≤ fo.wal.lastLogIndex ∧ (fo.handleCommit k).wal.committed = k) := by
  unfold MetaFollower.handleCommit
  split_ifs with hk
  · exact .inl rfl
  · show max fo.wal.committed k = _ ∨ _ ∧ max fo.wal.committed k = k
    omega

theorem bootNext_mark (w : Wal) (fo : MetaFollower) (next last prev : ℕ) :
    (bootNext w fo next last prev).1.wal.committed = fo.wal.committed ∨
      (bootNext w fo next last prev).1.wal.committed ∈ (bootNext w fo next last prev).2.2 := by
  unfold bootNext
  split
  · exact .inl rfl
  · rename_i e he
    by_cases hok : (fo.handleAppend e.term prev next e).1 = true
    · simp only [hok, if_true]
      rcases handleCommit_mark (fo.handleAppend e.term prev next e).2 next with h | ⟨-, h⟩
      · exact .inl (h.trans MetaFollower.handleAppend_committed)
      · exact .inr (List.mem_singleton.mpr h)
    · simp only [hok]
      exact .inl MetaFollower.handleAppend_committed

/-- A follower's mark moves only to an index that it applies. -/
theorem Fires.mark (h : s.Fires l s') (a : Fin f) :
    (s'.followers a).wal.committed = (s.followers a).wal.committed ∨
      (s'.followers a).wal.committed ∈ s'.applied a := by
  have moved : ∀ (b : Fin f) (fo : MetaFollower) (ks : List ℕ),
      fo.wal.committed = (s.followers b).wal.committed ∨ fo.wal.committed ∈ ks →
      (Function.update s.followers b fo a).wal.committed = (s.followers a).wal.committed ∨
      (Function.update s.followers b fo a).wal.committed
        ∈ Function.update s.applied b (s.applied b ++ ks) a := by
    intro b fo ks hfo
    by_cases hab : a = b
    · subst hab
      rw [Function.update_self, Function.update_self]
      exact hfo.imp_right (List.mem_append_right _)
    · rw [Function.update_of_ne hab]
      exact .inl rfl
  cases h with
  | deliver => exact moved _ _ _ (.inl MetaFollower.handleAppend_committed)
  | deliverCommit =>
    refine moved _ _ _ ((handleCommit_mark _ _).imp_right fun ⟨hk, h⟩ => ?_)
    rw [if_pos hk, h]
    exact List.mem_singleton_self _
  | restart => exact moved _ _ _ (.inl rfl)
  | bootInstall => exact moved _ _ _ (.inl rfl)
  | bootEntry => exact moved _ _ _ (bootNext_mark _ _ _ _ _)
  | _ => exact .inl rfl

end ReplState

section LeaderFirst

open ReplState

variable {f : ℕ} {w : Wal} {t : ChunkTable} {fs : Fin f → MetaFollower}

/-- **A follower applies what the leader has committed**, and its mark covers nothing else, in every
run in which the leader commits before it lets followers commit. -/
theorem applied_of_leader {tr : List (ReplStep f)} {s : ReplState f}
    (h : (replication f).Run (LeaderDone w.committed) (start w t fs) tr s) (a : Fin f) :
    (∀ k ∈ s.applied a, LeaderCommitted w.committed s k) ∧
      ((s.followers a).wal.committed = (fs a).wal.committed ∨
        LeaderCommitted w.committed s (s.followers a).wal.committed) := by
  have hI : CommitInv w.committed s ∧ ∀ a, (s.followers a).wal.committed = (fs a).wal.committed ∨
      LeaderCommitted w.committed s (s.followers a).wal.committed := by
    refine h.invariant_step (I := fun s => CommitInv w.committed s ∧ ∀ a, (s.followers a).wal.committed
        = (fs a).wal.committed ∨ LeaderCommitted w.committed s (s.followers a).wal.committed)
      ⟨commitInv_start, fun _ => .inl rfl⟩ fun s l s' hI hs hok => ?_
    obtain ⟨hI, hm⟩ := hI
    have hs := step_fires hs
    have hI' := hI.fires hs hok
    refine ⟨hI', fun a => ?_⟩
    rcases hs.mark a with he | he
    · rw [he]
      exact (hm a).imp_right fun hc => hc.fires hI.logged hs
    · exact .inr (hI'.applied a _ he)
  exact ⟨hI.1.applied a, hI.2 a⟩

/-- The steps `LeaderDone` asks nothing of. -/
def isFree : ReplStep f → Bool
  | .sendCommit .. | .bootFetch _ | .restart _ => false
  | _ => true

theorem leaderDone_of_isFree {m : ℕ} {s : ReplState f} {l : ReplStep f} (h : isFree l = true) :
    LeaderDone m s l := by
  cases l with
  | sendCommit => simp [isFree] at h
  | bootFetch => simp [isFree] at h
  | restart => simp [isFree] at h
  | _ => trivial

/-- The only follower acknowledges the first entry, which commits. -/
def oneAckRun : List (ReplStep 1) :=
  [.append .deleteChunk ['a'], .register 1,
    .deliver (appendMsg (nth 0) 1 true 1 (deleteEntry ['a'])), .reply (nth 0) 1 true, .commit 1]

def oneAckState : ReplState 1 := (replication 1).final (fun _ l => isFree l = true) (fresh 1) oneAckRun

def sentState : ReplState 1 := (replication 1).next oneAckState (.sendCommit (nth 0) 1)

def appliedState : ReplState 1 := (replication 1).next sentState (.deliverCommit (nth 0) 1)

theorem applied_of_leader_oneAck : (∀ k ∈ appliedState.applied 0, LeaderCommitted 0 appliedState k) ∧
    ((appliedState.followers 0).wal.committed = 0 ∨
      LeaderCommitted 0 appliedState (appliedState.followers 0).wal.committed) := by
  have hrun : (replication 1).Run (LeaderDone 0) (fresh 1) oneAckRun oneAckState :=
    (Machine.run_final (by decide +kernel)).mono fun _ _ h => leaderDone_of_isFree h
  have hdone : LeaderDone 0 oneAckState (.sendCommit 0 1) := by
    intro direct k hth
    have hacked : oneAckState.threads 0 1 = some (.acked true 1) := by decide +kernel
    have hok : oneAckState.writes 1 = some .ok := by decide +kernel
    obtain ⟨-, rfl⟩ : true = direct ∧ 1 = k := by simpa [hacked] using hth
    exact .inr (.inl hok)
  have hsent : (replication 1).Run (LeaderDone 0) (fresh 1) _ sentState :=
    hrun.snoc (by decide +kernel) hdone
  have hfree : LeaderDone 0 sentState (.deliverCommit 0 1) := trivial
  have happlied : (replication 1).Run (LeaderDone 0) (fresh 1) _ appliedState :=
    hsent.snoc (by decide +kernel) hfree
  exact applied_of_leader (w := {}) happlied 0

/-- One of three followers acknowledges, is told to commit and commits; the write then times out. -/
def earlyCommitRun : List (ReplStep 3) :=
  [.append .deleteChunk ['a'], .register 1,
    .deliver (appendMsg (nth 0) 1 true 1 (deleteEntry ['a'])), .reply (nth 0) 1 true,
    .sendCommit (nth 0) 1, .deliverCommit (nth 0) 1, .timeout 1]

def earlyCommitState : ReplState 3 :=
  (replication 3).final (fun _ _ => True) (fresh 3) earlyCommitRun

theorem earlyCommitState_reach : (replication 3).Reach (fresh 3) earlyCommitRun earlyCommitState :=
  Machine.run_final (by decide +kernel)

/-- A follower has applied an entry whose write answered unavailable. -/
theorem unavailable_write_applied : ¬ ∀ (f : ℕ) tr (s : ReplState f),
    (replication f).Reach (fresh f) tr s → ∀ a, ∀ k ∈ s.applied a, LeaderCommitted 0 s k := by
  intro h
  have happ : 1 ∈ earlyCommitState.applied 0 := by decide +kernel
  have hw : earlyCommitState.writes 1 = some .unavailable := by decide +kernel
  rcases h 3 _ _ earlyCommitState_reach 0 1 happ with hk | hk | hk
  · omega
  · rw [hw] at hk; cases hk
  · rw [hw] at hk; cases hk

end LeaderFirst

end NimbusVault
