import NimbusVault.LogPrefix

/-!
# FollowerStatus — what the leader makes of its followers' acks

Next to the replication threads a background loop runs `send_heartbeats`: it reads the clock and the
end of the log, and then goes over the followers under the lock.  A follower that has acked the end of
the log is healthy, and one whose last ack is overdue misses a ping; three of them make it lagging.
The machine `monitors` puts this loop next to the protocol, and every follower keeps the history of
its acks and sweeps.  What the leader keeps of a follower is what its history makes it
(`follower_of_history`), and a follower that a sweep takes for caught up is (`sweep_verdicts`).
-/

namespace NimbusVault

open Lib

inductive FollowerStatus
  | healthy
  | lagging
  | dead
  deriving DecidableEq

structure FollowerState where
  address : Str
  matchIndex : ℕ := 0
  nextIndex : ℕ := 1
  status : FollowerStatus := .healthy
  lastAckMs : UInt64 := 0
  missedPings : ℕ := 0
  deriving DecidableEq

namespace FollowerState

/-- `add_follower`, next to a log that ends at `last`. -/
def added (address : Str) (last : ℕ) (now : UInt64) : FollowerState :=
  { address, nextIndex := last + 1, lastAckMs := now }

def recordAck (fs : FollowerState) (logIndex : ℕ) (now : UInt64) : FollowerState :=
  { fs with
    matchIndex := max fs.matchIndex logIndex
    nextIndex := max fs.nextIndex (logIndex + 1)
    lastAckMs := now
    missedPings := 0
    status := .healthy }

/-- The body of the loop of `send_heartbeats`; the elapsed time wraps, and so does the limit, in 32
bits. -/
def ping (interval : UInt32) (t : UInt64) (leaderLast : ℕ) (fs : FollowerState) : FollowerState :=
  if leaderLast ≤ fs.matchIndex then { fs with missedPings := 0, status := .healthy }
  else if (interval * 3).toUInt64 < t - fs.lastAckMs then
    { fs with
      missedPings := fs.missedPings + 1
      status := if 3 ≤ fs.missedPings + 1 then .lagging else fs.status }
  else fs

end FollowerState

/-! ### The machine -/

inductive FollowerEvent
  | ack (logIndex : ℕ) (now : UInt64)
  | sweep (t : UInt64) (leaderLast : ℕ)
  deriving DecidableEq

/-- The ack that a step records. -/
def ReplState.recordedAck {f : ℕ} (s : ReplState f) : ReplStep f → Option (Fin f × ℕ)
  | .reply a i true => (s.callMsg a i).map fun m => (a, m.logIndex)
  | _ => none

/-- `reading` is what the background loop has read; the histories have their last event first. -/
structure MonitorState (f : ℕ) where
  repl : ReplState f
  followers : Fin f → FollowerState
  reading : Option (UInt64 × ℕ) := none
  history : Fin f → List FollowerEvent := fun _ => []

/-- `now` and `t` are what the clock shows to the thread. -/
inductive MonitorStep (f : ℕ)
  | repl (a : ReplStep f) (now : UInt64)
  | read (t : UInt64)
  | sweep

namespace MonitorState

variable {f : ℕ}

def ack (s : MonitorState f) (a : Fin f) (logIndex : ℕ) (now : UInt64) : MonitorState f :=
  { s with
    followers := Function.update s.followers a ((s.followers a).recordAck logIndex now)
    history := Function.update s.history a (.ack logIndex now :: s.history a) }

def step (interval : UInt32) (s : MonitorState f) : MonitorStep f → Option (MonitorState f)
  | .repl a now => (s.repl.step a).map fun r =>
    match s.repl.recordedAck a with
    | none => { s with repl := r }
    | some (b, k) => { s.ack b k now with repl := r }
  | .read t =>
    if s.reading = none then some { s with reading := some (t, s.repl.wal.lastLogIndex) } else none
  | .sweep => s.reading.map fun r => { s with
      followers := fun a => (s.followers a).ping interval r.1 r.2
      reading := none
      history := fun a => .sweep r.1 r.2 :: s.history a }

/-- The leader at its start, with the followers added at the times `added`. -/
def start (w : Wal) (t : ChunkTable) (fs : Fin f → MetaFollower) (address : Fin f → Str)
    (added : Fin f → UInt64) : MonitorState f where
  repl := ReplState.start w t fs
  followers a := .added (address a) w.lastLogIndex (added a)

end MonitorState

/-- The protocol, with the background loop next to it. -/
abbrev monitors (f : ℕ) (interval : UInt32) : Machine (MonitorState f) (MonitorStep f) :=
  .ofStep (MonitorState.step interval)

/-! ### What a history says of a follower -/

namespace FollowerEvent

/-- The highest index that was acked. -/
def acked : List FollowerEvent → ℕ
  | [] => 0
  | ack k _ :: h => max (acked h) k
  | sweep _ _ :: h => acked h

/-- The time of the last ack, or that at which the follower was added. -/
def heardAt (added : UInt64) : List FollowerEvent → UInt64
  | [] => added
  | ack _ now :: _ => now
  | sweep _ _ :: h => heardAt added h

/-- A sweep whose reading of the log lies above `m`. -/
def behind (m : ℕ) : FollowerEvent → Bool
  | ack _ _ => false
  | sweep _ leaderLast => m < leaderLast

/-- A sweep that comes too late after the time `heard`. -/
def overdue (interval : UInt32) (heard : UInt64) : FollowerEvent → Bool
  | ack _ _ => false
  | sweep t _ => (interval * 3).toUInt64 < t - heard

/-- The overdue sweeps since the last ack or the last sweep that found the follower caught up. -/
def missed (interval : UInt32) (added : UInt64) (h : List FollowerEvent) : List FollowerEvent :=
  (h.takeWhile (behind (acked h))).filter (overdue interval (heardAt added h))

variable {interval : UInt32} {added now t : UInt64} {h : List FollowerEvent} {k last : ℕ}

theorem missed_ack : missed interval added (ack k now :: h) = [] := by
  simp [missed, behind]

theorem missed_caughtUp (hk : last ≤ acked h) : missed interval added (sweep t last :: h) = [] := by
  have hb : behind (acked h) (sweep t last) = false := by simp [behind, hk]
  rw [missed, acked, List.takeWhile_cons_of_neg (by simp [hb]), List.filter_nil]

theorem missed_behind (hk : ¬ last ≤ acked h) : missed interval added (sweep t last :: h) =
    if (interval * 3).toUInt64 < t - heardAt added h then
      sweep t last :: missed interval added h else missed interval added h := by
  have hb : behind (acked h) (sweep t last) = true := by simpa [behind] using hk
  rw [missed, acked, heardAt, List.takeWhile_cons_of_pos hb, List.filter_cons]
  by_cases ho : (interval * 3).toUInt64 < t - heardAt added h
  · rw [if_pos ho, if_pos (by simpa [overdue] using ho), missed]
  · rw [if_neg ho, if_neg (by simpa [overdue] using ho), missed]

end FollowerEvent

open FollowerEvent

/-- A follower of which nothing is known but its history, added next to a log that ended at `last`. -/
def FollowerState.ofHistory (interval : UInt32) (address : Str) (last : ℕ) (added : UInt64)
    (h : List FollowerEvent) : FollowerState where
  address := address
  matchIndex := acked h
  nextIndex := max (last + 1) (acked h + 1)
  status := if 3 ≤ (missed interval added h).length then .lagging else .healthy
  lastAckMs := heardAt added h
  missedPings := (missed interval added h).length

section History

variable {interval : UInt32} {address : Str} {added now t : UInt64} {h : List FollowerEvent}
  {k last leaderLast : ℕ}

theorem ofHistory_nil :
    FollowerState.ofHistory interval address last added [] = .added address last added := by
  simp [FollowerState.ofHistory, FollowerState.added, acked, heardAt, missed]

theorem recordAck_ofHistory :
    (FollowerState.ofHistory interval address last added h).recordAck k now =
      .ofHistory interval address last added (.ack k now :: h) := by
  simp only [FollowerState.ofHistory, FollowerState.recordAck, missed_ack, acked, heardAt]
  congr 1
  omega

theorem ping_ofHistory :
    (FollowerState.ofHistory interval address last added h).ping interval t leaderLast =
      .ofHistory interval address last added (.sweep t leaderLast :: h) := by
  unfold FollowerState.ping FollowerState.ofHistory
  dsimp only
  by_cases hk : leaderLast ≤ acked h
  · rw [if_pos hk, missed_caughtUp hk]
    rfl
  rw [if_neg hk, missed_behind hk]
  by_cases ho : (interval * 3).toUInt64 < t - heardAt added h
  · rw [if_pos ho, if_pos ho, List.length_cons]
    -- below three the status was healthy, and stays so
    by_cases h3 : 3 ≤ (missed interval added h).length + 1
    · simp only [if_pos h3]
      rfl
    · simp only [if_neg h3, if_neg (fun h => h3 (Nat.le_succ_of_le h) :
        ¬ 3 ≤ (missed interval added h).length)]
      rfl
  · rw [if_neg ho, if_neg ho]
    rfl

end History

/-! ### Runs -/

section Runs

variable {f : ℕ} {interval : UInt32} {w : Wal} {table : ChunkTable} {fs : Fin f → MetaFollower}
  {address : Fin f → Str} {added : Fin f → UInt64} {s s' : MonitorState f} {l : MonitorStep f}
  {tr : List (MonitorStep f)}

/-- **What the leader keeps of a follower is what its history makes it.** -/
theorem follower_of_history
    (h : (monitors f interval).Reach (.start w table fs address added) tr s) (a : Fin f) :
    s.followers a =
      .ofHistory interval (address a) w.lastLogIndex (added a) (s.history a) := by
  refine h.invariant_step (I := fun s => ∀ a, s.followers a =
    .ofHistory interval (address a) w.lastLogIndex (added a) (s.history a)) ?_ ?_ a
  · exact fun a => ofHistory_nil.symm
  intro s l s' hI hs _ a
  cases l with
  | repl b now =>
    obtain ⟨r, -, rfl⟩ := Option.map_eq_some_iff.mp hs
    split
    · exact hI a
    · rename_i c k _
      show Function.update s.followers c _ a = .ofHistory _ _ _ _ (Function.update s.history c _ a)
      by_cases hac : a = c
      · subst hac
        rw [Function.update_self, Function.update_self, hI a, recordAck_ofHistory]
      · rw [Function.update_of_ne hac, Function.update_of_ne hac]
        exact hI a
  | read t =>
    simp only [MonitorState.step] at hs
    split_ifs at hs
    obtain rfl := Option.some.inj hs
    exact hI a
  | sweep =>
    obtain ⟨r, -, rfl⟩ := Option.map_eq_some_iff.mp hs
    show (s.followers a).ping interval r.1 r.2 = _
    rw [hI a, ping_ofHistory]

/-- **A follower lags exactly after three overdue sweeps** since its last ack and since the last sweep
that found it caught up.  It is never dead, and the next index to send lies behind the acked ones. -/
theorem lagging_iff
    (h : (monitors f interval).Reach (.start w table fs address added) tr s) (a : Fin f) :
    ((s.followers a).status = .lagging ↔ 3 ≤ (missed interval (added a) (s.history a)).length) ∧
      (s.followers a).status ≠ .dead ∧ (s.followers a).matchIndex = acked (s.history a) ∧
      (s.followers a).nextIndex = max w.lastLogIndex (acked (s.history a)) + 1 := by
  rw [follower_of_history h a]
  dsimp only [FollowerState.ofHistory]
  refine ⟨?_, ?_, rfl, by omega⟩
  · by_cases h3 : 3 ≤ (missed interval (added a) (s.history a)).length <;> simp [h3]
  · split_ifs <;> simp

/-! ### The verdicts of a sweep -/

theorem ReplState.step_matchIndex {s s' : ReplState f} {l : ReplStep f} (h : s.step l = some s') :
    s'.matchIndex = (s.recordedAck l).elim s.matchIndex fun p =>
      Function.update s.matchIndex p.1 (max (s.matchIndex p.1) p.2) := by
  cases ReplState.step_fires h with
  | yes hm =>
    simp only [ReplState.recordedAck, hm, Option.map_some, Option.elim_some]
    rfl
  | _ => rfl

/-- What is known of the two records of acks, and of the sweeps. -/
structure MonitorInv (s : MonitorState f) : Prop where
  matched : ∀ a, (s.followers a).matchIndex = s.repl.matchIndex a
  reading : ∀ t last, s.reading = some (t, last) → last ≤ s.repl.wal.lastLogIndex
  sweeps : ∀ a t last, .sweep t last ∈ s.history a → last ≤ s.repl.wal.lastLogIndex

theorem MonitorInv.step (hI : MonitorInv s) (hs : s.step interval l = some s') : MonitorInv s' := by
  cases l with
  | repl b now =>
    obtain ⟨r, hr, rfl⟩ := Option.map_eq_some_iff.mp hs
    have hgrow : s.repl.wal.lastLogIndex ≤ r.wal.lastLogIndex :=
      (ReplState.step_fires hr).wal_grows.length_le
    have hmatch := ReplState.step_matchIndex hr
    split
    · rename_i hack
      rw [hack] at hmatch
      exact ⟨fun a => by rw [hI.matched a]; exact (congrFun hmatch a).symm,
        fun t last hl => (hI.reading t last hl).trans hgrow,
        fun a t last hl => (hI.sweeps a t last hl).trans hgrow⟩
    · rename_i c k hack
      rw [hack] at hmatch
      refine ⟨fun a => ?_, fun t last hl => (hI.reading t last hl).trans hgrow, fun a t last hl => ?_⟩
      · show (Function.update s.followers c _ a).matchIndex = r.matchIndex a
        rw [hmatch]
        show _ = Function.update s.repl.matchIndex c _ a
        by_cases hac : a = c
        · subst hac
          rw [Function.update_self, Function.update_self, ← hI.matched a]
          rfl
        · rw [Function.update_of_ne hac, Function.update_of_ne hac]
          exact hI.matched a
      · refine (hI.sweeps a t last ?_).trans hgrow
        change .sweep t last ∈ Function.update s.history c _ a at hl
        by_cases hac : a = c
        · subst hac
          rw [Function.update_self] at hl
          simpa using hl
        · rwa [Function.update_of_ne hac] at hl
  | read t =>
    simp only [MonitorState.step] at hs
    split_ifs at hs
    obtain rfl := Option.some.inj hs
    refine ⟨hI.matched, fun t' last hl => ?_, hI.sweeps⟩
    obtain ⟨-, rfl⟩ := Prod.mk.inj (Option.some.inj hl)
    exact le_refl _
  | sweep =>
    obtain ⟨⟨t, last⟩, hread, rfl⟩ := Option.map_eq_some_iff.mp hs
    refine ⟨fun a => ?_, fun t' last' hl => by simp at hl, fun a t' last' hl => ?_⟩
    · rw [← hI.matched a]
      show ((s.followers a).ping interval t last).matchIndex = _
      unfold FollowerState.ping
      split_ifs <;> rfl
    · rcases List.mem_cons.mp hl with he | hl
      · obtain ⟨-, rfl⟩ := FollowerEvent.sweep.inj he
        exact hI.reading t last' hread
      · exact hI.sweeps a t' last' hl

theorem monitorInv_reach
    (h : (monitors f interval).Reach (.start w table fs address added) tr s) : MonitorInv s := by
  refine h.invariant_step ⟨fun _ => rfl, fun t last hl => ?_, fun a t last hl => ?_⟩
    fun _ _ _ hI hs _ => hI.step hs
  · simp [MonitorState.start] at hl
  · simp [MonitorState.start] at hl

/-- The protocol next to the loop runs as it does alone. -/
theorem monitors_project
    (h : (monitors f interval).Reach (.start w table fs address added) tr s) :
    ∃ tr', (replication f).Reach (ReplState.start w table fs) tr' s.repl := by
  refine h.project (p := MonitorState.repl) fun s l s' hs => ?_
  cases l with
  | repl b now =>
    obtain ⟨r, hr, rfl⟩ := Option.map_eq_some_iff.mp hs
    refine .inr ⟨b, hr.trans ?_⟩
    split <;> rfl
  | read t =>
    simp only [MonitorState.step] at hs
    split_ifs at hs
    exact .inl (by rw [← Option.some.inj hs])
  | sweep =>
    obtain ⟨r, -, rfl⟩ := Option.map_eq_some_iff.mp hs
    exact .inl rfl

/-- **The verdicts are right.**  A follower that is taken for caught up with what was read of the log
holds the leader's entries up to there, and one that lags has acked less than the leader's log. -/
theorem sweep_verdicts (h0 : ∀ a, (fs a).wal.records <+: w.records)
    (h : (monitors f interval).Reach (.start w table fs address added) tr s) (a : Fin f) :
    (∀ t last, s.reading = some (t, last) → last ≤ (s.followers a).matchIndex →
      ∀ i ≤ last, (s.repl.followers a).wal.readEntry i = s.repl.wal.readEntry i) ∧
    ((s.followers a).status = .lagging →
      (s.followers a).matchIndex < s.repl.wal.lastLogIndex) := by
  have hI := monitorInv_reach h
  constructor
  · intro t last _ hle i hi
    obtain ⟨tr', hrepl⟩ := monitors_project h
    have hlog := ReplState.logInv_reach h0 hrepl
    refine hlog.readEntry_eq ((hi.trans hle).trans ?_)
    rw [hI.matched a]
    exact hlog.matched a
  · intro hlag
    have hstate := follower_of_history h a
    rw [hstate] at hlag ⊢
    simp only [FollowerState.ofHistory] at hlag ⊢
    split_ifs at hlag with h3
    -- a missed ping is a sweep that found the follower behind
    obtain ⟨e, he⟩ := List.exists_mem_of_length_pos (Nat.lt_of_lt_of_le (by omega) h3)
    have htake := List.mem_of_mem_filter he
    have hbehind := List.mem_takeWhile_imp htake
    have hmem := (List.takeWhile_prefix _).subset htake
    cases e with
    | ack k now => simp [behind] at hbehind
    | sweep t last =>
      have hlt : acked (s.history a) < last := by simpa [behind] using hbehind
      exact hlt.trans_le (hI.sweeps a t last hmem)

end Runs

/-! ### A follower that never answers -/

/-- An entry is written, and three sweeps find that the follower has not acked it. -/
def lagRun : List (MonitorStep 1) :=
  [.repl (.append .deleteChunk ['a']) 100, .repl (.register 1) 100, .read 1000, .sweep, .read 1200,
    .sweep, .read 1400, .sweep, .read 1600]

def freshMonitor : MonitorState 1 :=
  .start {} Kv.empty (fun _ => {}) (fun _ => ['p']) fun _ => 100

def lagState : MonitorState 1 := (monitors 1 200).final (fun _ _ => True) freshMonitor lagRun

theorem lagState_reach : (monitors 1 200).Reach freshMonitor lagRun lagState :=
  Machine.run_final (by decide +kernel)

theorem lagging_iff_lag :
    ((lagState.followers 0).status = .lagging ↔ 3 ≤ (missed 200 100 (lagState.history 0)).length) ∧
      (lagState.followers 0).status ≠ .dead ∧
      (lagState.followers 0).matchIndex = acked (lagState.history 0) ∧
      (lagState.followers 0).nextIndex = max 0 (acked (lagState.history 0)) + 1 :=
  lagging_iff lagState_reach 0

theorem sweep_verdicts_lag :
    (∀ t last, lagState.reading = some (t, last) → last ≤ (lagState.followers 0).matchIndex →
      ∀ i ≤ last, (lagState.repl.followers 0).wal.readEntry i = lagState.repl.wal.readEntry i) ∧
    ((lagState.followers 0).status = .lagging →
      (lagState.followers 0).matchIndex < lagState.repl.wal.lastLogIndex) :=
  sweep_verdicts fresh_aligned lagState_reach 0

end NimbusVault
