import NimbusVault.Replication

/-!
# LogPrefix — every follower's log is a prefix of the leader's

A follower only compares the one entry at `log_index` and never looks at a previous term.  That its
log is nevertheless a prefix of the leader's is carried by `LogInv`: a message in flight holds the
leader's entry for its index, so the one entry a follower may append is the leader's next one.  A
yes stays true once given, which bounds `match_index`.
-/

namespace NimbusVault

open Lib

namespace ReplState

variable {f : ℕ}

/-- The leader and its followers at the start, with the logs and tables they come up with. -/
abbrev start (w : Wal) (t : ChunkTable) (fs : Fin f → MetaFollower) : ReplState f :=
  { wal := w, table := t, followers := fs }

/-- What is known of the logs, the messages and the leader's bookkeeping. -/
structure LogInv (s : ReplState f) : Prop where
  aligned : ∀ a, (s.followers a).wal.records <+: s.wal.records
  appends : ∀ m ∈ s.appends, s.wal.readEntry m.logIndex = some m.entry
  replies : ∀ p ∈ s.replies, p.2 = true → p.1.logIndex ≤ (s.followers p.1.dest).wal.lastLogIndex
  matched : ∀ a, s.matchIndex a ≤ (s.followers a).wal.lastLogIndex

variable {s s' : ReplState f} {l : ReplStep f}

/-! ### What a step does to the logs -/

/-- The log of `fo'` is that of `fo`, or that with the next entry of `w`. -/
def Extends (w : Wal) (fo fo' : MetaFollower) : Prop :=
  fo'.wal.records = fo.wal.records ∨
    ∃ e, w.readEntry (fo.wal.lastLogIndex + 1) = some e ∧ fo'.wal.records = fo.wal.records ++ [e]

theorem extends_handleAppend {w : Wal} (fo : MetaFollower) (term prev : ℕ) {k : ℕ} {e : WalEntry}
    (he : w.readEntry k = some e) : Extends w fo (fo.handleAppend term prev k e).2 := by
  rcases fo.handleAppend_wal term prev k e with h | ⟨h, hk⟩
  · exact .inl (by rw [h])
  · exact .inr ⟨e, hk ▸ he, by rw [h]; rfl⟩

theorem extends_bootNext (w : Wal) (fo : MetaFollower) (next last prev : ℕ) :
    Extends w fo (bootNext w fo next last prev).1 := by
  unfold bootNext
  split
  · exact .inl rfl
  · rename_i e he
    have happ := extends_handleAppend fo e.term prev he
    by_cases hok : (fo.handleAppend e.term prev next e).1 = true
    · simp only [hok, if_true]
      unfold Extends
      rw [MetaFollower.handleCommit_records]
      exact happ
    · simp only [hok]
      exact happ

/-- **One step of a follower's log**: it stays, or takes over the leader's next entry. -/
theorem Fires.follower_log (hI : LogInv s) (h : s.Fires l s') (a : Fin f) :
    Extends s.wal (s.followers a) (s'.followers a) := by
  have moved : ∀ {b : Fin f} {fo : MetaFollower}, Extends s.wal (s.followers b) fo →
      Extends s.wal (s.followers a) (Function.update s.followers b fo a) := by
    intro b fo hfo
    by_cases hab : a = b
    · subst hab
      rw [Function.update_self]
      exact hfo
    · rw [Function.update_of_ne hab]
      exact .inl rfl
  cases h with
  | deliver hm => exact moved (extends_handleAppend _ _ _ (hI.appends _ hm))
  | deliverCommit => exact moved (.inl MetaFollower.handleCommit_records)
  | restart => exact moved (.inl rfl)
  | bootInstall => exact moved (.inl rfl)
  | bootEntry => exact moved (extends_bootNext _ _ _ _ _)
  | _ => exact .inl rfl

theorem Fires.follower_grows (hI : LogInv s) (h : s.Fires l s') (a : Fin f) :
    (s.followers a).wal.lastLogIndex ≤ (s'.followers a).wal.lastLogIndex := by
  unfold Wal.lastLogIndex
  rcases h.follower_log hI a with he | ⟨e, -, he⟩ <;> rw [he]
  simp

/-! ### The invariant -/

theorem logInv_start {w : Wal} {t : ChunkTable} {fs : Fin f → MetaFollower}
    (h0 : ∀ a, (fs a).wal.records <+: w.records) : LogInv (start w t fs) where
  aligned := h0
  appends _ hm := absurd hm List.not_mem_nil
  replies _ hp := absurd hp List.not_mem_nil
  matched _ := Nat.zero_le _

/-- Every call out carries the leader's entry. -/
theorem Fires.appends (hI : LogInv s) (h : s.Fires l s') :
    ∀ m ∈ s'.appends, s'.wal.readEntry m.logIndex = some m.entry := by
  intro m hm
  refine Wal.readEntry_of_prefix h.wal_grows ?_
  have sent : ∀ {ms : List (AppendMsg f)}, (∀ m ∈ ms, s.wal.readEntry m.logIndex = some m.entry) →
      m ∈ s.appends ++ ms → s.wal.readEntry m.logIndex = some m.entry := by
    intro ms hms hm
    rcases List.mem_append.mp hm with hm | hm
    · exact hI.appends m hm
    · exact hms m hm
  cases h with
  | register hw he =>
    refine sent (fun m hm => ?_) hm
    obtain ⟨b, -, rfl⟩ := List.mem_map.mp hm
    exact he
  | yes => exact sent (fun m hm => absurd hm List.not_mem_nil) hm
  | no => exact sent (fun m hm => (mem_afterNo hm).1) hm
  | fail => exact sent (fun m hm => (mem_afterNo hm).1) hm
  | @sendCommit a i k direct =>
    refine sent (fun m hm => ?_) hm
    split_ifs at hm
    · exact absurd hm List.not_mem_nil
    · exact (mem_catchUpFrom hm).1
  | _ => exact hI.appends m hm

/-- Every yes given is still true. -/
theorem Fires.replies (hI : LogInv s) (h : s.Fires l s') :
    ∀ p ∈ s'.replies, p.2 = true → p.1.logIndex ≤ (s'.followers p.1.dest).wal.lastLogIndex := by
  intro p hp hyes
  have old : p ∈ s.replies → p.1.logIndex ≤ (s'.followers p.1.dest).wal.lastLogIndex := fun hp =>
    (hI.replies p hp hyes).trans (h.follower_grows hI _)
  cases h with
  | @deliver m hm =>
    rcases List.mem_append.mp hp with hp | hp
    · exact old hp
    · obtain rfl := List.mem_singleton.mp hp
      show m.logIndex ≤ (Function.update s.followers m.dest _ m.dest).wal.lastLogIndex
      rw [Function.update_self]
      exact MetaFollower.handleAppend_ok hyes
  | _ => exact old hp

/-- **The invariant is kept by every step.** -/
theorem LogInv.fires (hI : LogInv s) (h : s.Fires l s') : LogInv s' where
  aligned a := by
    refine List.IsPrefix.trans ?_ h.wal_grows
    rcases h.follower_log hI a with he | ⟨e, hnext, he⟩
    · rw [he]
      exact hI.aligned a
    · rw [he]
      exact Wal.append_prefix (hI.aligned a) hnext
  appends := h.appends hI
  replies := h.replies hI
  matched a := by
    have old := (hI.matched a).trans (h.follower_grows hI a)
    cases h with
    | @yes b i m hm hr =>
      show Function.update s.matchIndex b (max (s.matchIndex b) m.logIndex) a ≤ _
      by_cases hab : a = b
      · subst hab
        rw [Function.update_self]
        have hack := hI.replies _ hr rfl
        rw [(callMsg_eq hm).1] at hack
        exact max_le old hack
      · rw [Function.update_of_ne hab]
        exact old
    | _ => exact old

theorem logInv_reach {w : Wal} {t : ChunkTable} {fs : Fin f → MetaFollower}
    (h0 : ∀ a, (fs a).wal.records <+: w.records) {tr : List (ReplStep f)}
    (h : (replication f).Reach (start w t fs) tr s) : LogInv s :=
  h.invariant_step (logInv_start h0) fun _ _ _ hI hs _ => hI.fires (step_fires hs)

/-- Within a follower's log, its entry is the leader's. -/
theorem LogInv.readEntry_eq (hI : LogInv s) {a : Fin f} {i : ℕ}
    (hi : i ≤ (s.followers a).wal.lastLogIndex) :
    (s.followers a).wal.readEntry i = s.wal.readEntry i :=
  Wal.readEntry_eq_of_prefix (hI.aligned a) hi

end ReplState

section Agreement

open ReplState

variable {f : ℕ} {w : Wal} {t : ChunkTable} {fs : Fin f → MetaFollower}

/-- **Followers agree with the leader.** Whatever becomes of the messages, every follower's log is a
prefix of the leader's, and the leader never takes a follower to be further than it is. -/
theorem follower_logs_agree (h0 : ∀ a, (fs a).wal.records <+: w.records) {tr : List (ReplStep f)}
    {s : ReplState f} (h : (replication f).Reach (start w t fs) tr s) (a : Fin f) :
    (s.followers a).wal.records <+: s.wal.records ∧
      (∀ i e, (s.followers a).wal.readEntry i = some e → s.wal.readEntry i = some e) ∧
      s.matchIndex a ≤ (s.followers a).wal.lastLogIndex := by
  have hI := logInv_reach h0 h
  refine ⟨hI.aligned a, fun i e he => ?_, hI.matched a⟩
  exact Wal.readEntry_of_prefix (hI.aligned a) he

/-- The entry of a `DeleteChunk` of the chunk `c`. -/
def deleteEntry (c : Str) : WalEntry := ⟨.deleteChunk, leaderTerm, c⟩

/-- A leader and `f` followers that start with nothing. -/
abbrev fresh (f : ℕ) : ReplState f := start {} Kv.empty fun _ => {}

/-- The follower number `i`. -/
def nth {f : ℕ} (i : ℕ) : Fin (f + 1) := Fin.ofNat (f + 1) i

/-- One follower misses the first entry, refuses the second, and catches up. -/
def lateRun : List (ReplStep 1) :=
  [.append .deleteChunk ['a'], .register 1, .append .deleteChunk ['b'], .register 2,
    .deliver (appendMsg (nth 0) 2 true 2 (deleteEntry ['b'])), .reply (nth 0) 2 false,
    .deliver (appendMsg (nth 0) 2 false 1 (deleteEntry ['a'])), .reply (nth 0) 2 true]

theorem fresh_aligned : ∀ a, ((fresh f).followers a).wal.records <+: (fresh f).wal.records :=
  fun _ => List.prefix_refl _

def lateState : ReplState 1 := (replication 1).final (fun _ _ => True) (fresh 1) lateRun

theorem lateState_reach : (replication 1).Reach (fresh 1) lateRun lateState :=
  Machine.run_final (by decide +kernel)

theorem follower_logs_agree_late : (lateState.followers 0).wal.records <+: lateState.wal.records ∧
    (∀ i e, (lateState.followers 0).wal.readEntry i = some e → lateState.wal.readEntry i = some e) ∧
    lateState.matchIndex 0 ≤ (lateState.followers 0).wal.lastLogIndex :=
  follower_logs_agree fresh_aligned lateState_reach 0

end Agreement

end NimbusVault
