import NimbusVault.SnapshotRace

/-!
# Bootstrap — a follower that starts next to a running leader

`bootstrap` is `bootstrap_follower_from_leader`: the leader's snapshot goes into the follower's
tables, then the leader's entries behind the snapshot's index go through the follower's handlers one
by one, each committed as soon as it is appended.  The snapshot does not advance the follower's log,
so a log that ends below the snapshot's index refuses the first entry; the loop breaks and the call
returns true all the same.  `bootstrap_right_iff` says when the follower ends up with the leader's
log and table.
-/

namespace NimbusVault

open Lib

namespace Wal

/-- The entries at the indices, up to the first one that is missing. -/
def readEntries (w : Wal) : List ℕ → List (ℕ × WalEntry)
  | [] => []
  | i :: is =>
    match w.readEntry i with
    | none => []
    | some e => (i, e) :: w.readEntries is

/-- The leader's side of `FetchLogEntries`. -/
def fetchLogEntries (w : Wal) (fromIndex : ℕ) : List (ℕ × WalEntry) :=
  w.readEntries (List.range' fromIndex (w.lastLogIndex + 1 - fromIndex))

/-- Terms never fall along the log. -/
def TermsRise (w : Wal) : Prop := w.records.Pairwise fun e e' => e.term ≤ e'.term

end Wal

/-- The loop over the fetched entries.  It breaks at a refusal; `none` when the callback of a commit
throws, which nothing catches. -/
def MetaFollower.replayLog (f : MetaFollower) (prev : ℕ) : List (ℕ × WalEntry) → Option MetaFollower
  | [] => some f
  | (i, e) :: rest =>
    match f.handleAppend e.term prev i e with
    | (false, f) => some f
    | (true, f) =>
      if i ≤ f.wal.lastLogIndex ∧ f.wal.onCommit f.table i = none then none
      else (f.handleCommit i).replayLog i rest

inductive BootstrapResult
  | returned (ok : Bool) (f : MetaFollower)
  /-- The process dies of an exception. -/
  | terminated
  /-- The snapshot's reader left its buffer. -/
  | undefined
  deriving DecidableEq

/-- The whole call, without failing RPCs, next to a leader with the log `w` and the tables `table`
and `nodes`. -/
def bootstrap {φ : Type} (F : FloatText φ) (w : Wal) (table : ChunkTable) (nodes : List (NodeRecord φ))
    (f : MetaFollower) : BootstrapResult :=
  match installSnapshot F (takeSnapshot F w.committed nodes (getChunks table)) with
  | .error (.threw _) => .returned false f
  | .error .overread => .undefined
  | .ok (lsn, _, chunks) =>
    match { f with table := chunks }.replayLog lsn (w.fetchLogEntries (lsn + 1)) with
    | none => .terminated
    | some f => .returned true f

section CatchUp

variable {w : Wal} {f f' : MetaFollower} {p : ℕ}

theorem Wal.mem_of_readEntry {i : ℕ} {e : WalEntry} (h : w.readEntry i = some e) : e ∈ w.records := by
  unfold Wal.readEntry at h
  split_ifs at h
  exact List.mem_of_getElem? h

/-- Terms along a rising log. -/
theorem Wal.TermsRise.term_le (h : w.TermsRise) {i j : ℕ} {e e' : WalEntry} (hij : i ≤ j)
    (hi : w.readEntry i = some e) (hj : w.readEntry j = some e') : e.term ≤ e'.term := by
  obtain ⟨hi1, hi2⟩ := Wal.readEntry_le hi
  obtain ⟨hj1, hj2⟩ := Wal.readEntry_le hj
  rw [Wal.readEntry, if_neg (by omega)] at hi hj
  obtain ⟨hi', rfl⟩ := List.getElem?_eq_some_iff.mp hi
  obtain ⟨hj', rfl⟩ := List.getElem?_eq_some_iff.mp hj
  rcases hij.eq_or_lt with rfl | hlt
  · exact le_rfl
  · exact List.pairwise_iff_getElem.mp h _ _ hi' hj' (by omega)

/-- **The next entry is taken** by a log that reaches the one before it. -/
theorem handleAppend_next (hpre : f.wal.records <+: w.records) {e : WalEntry}
    (hterm : f.currentTerm ≤ e.term) (he : w.readEntry (p + 1) = some e) (hp : p ≤ f.wal.lastLogIndex) :
    ∃ f₁, f.handleAppend e.term p (p + 1) e = (true, f₁) ∧ f₁.wal.records <+: w.records ∧
      p + 1 ≤ f₁.wal.lastLogIndex ∧ f₁.table = f.table ∧ f₁.currentTerm = e.term := by
  unfold MetaFollower.handleAppend
  rw [if_neg (not_lt.mpr hterm)]
  dsimp only
  by_cases hle : p + 1 ≤ f.wal.lastLogIndex
  · rw [if_pos hle, Wal.readEntry_eq_of_prefix hpre hle, he]
    dsimp only
    rw [if_neg (not_not_intro rfl)]
    exact ⟨_, rfl, hpre, hle, rfl, rfl⟩
  · obtain rfl : p = f.wal.lastLogIndex := by omega
    rw [if_neg hle, if_neg (lt_irrefl _), if_neg (not_not_intro rfl)]
    exact ⟨_, rfl, Wal.append_prefix hpre he, Wal.lastLogIndex_append.ge, rfl, rfl⟩

/-- A gap is refused. -/
theorem handleAppend_gap {e : WalEntry} {t : ℕ} (hp : f.wal.lastLogIndex < p) :
    (f.handleAppend t p (p + 1) e).1 = false ∧ (f.handleAppend t p (p + 1) e).2.wal = f.wal := by
  unfold MetaFollower.handleAppend
  dsimp only
  have hlate : ¬ p + 1 ≤ f.wal.lastLogIndex := by omega
  rw [if_neg hlate, if_pos (Nat.succ_lt_succ hp)]
  split_ifs
  · exact ⟨rfl, rfl⟩
  · exact ⟨rfl, rfl⟩

/-- **The loop runs to the end** when the log reaches the index before the first entry. -/
theorem replayLog_of_le {n : ℕ} (hrise : w.TermsRise) (hpre : f.wal.records <+: w.records)
    (hterm : ∀ k e, p < k → w.readEntry k = some e → f.currentTerm ≤ e.term)
    (hp : p ≤ f.wal.lastLogIndex) (hn : p + n = w.lastLogIndex)
    (h : f.replayLog p (w.readEntries (List.range' (p + 1) n)) = some f') :
    f'.wal.lastLogIndex = w.lastLogIndex ∧
      f'.table = (List.range' (p + 1) n).foldl w.applyAt f.table := by
  induction n generalizing f p with
  | zero =>
    obtain rfl := Option.some.inj h
    exact ⟨le_antisymm hpre.length_le (by omega), rfl⟩
  | succ n ih =>
    obtain ⟨e, he⟩ := Wal.readEntry_isSome (w := w) (i := p + 1) (by omega) (by omega)
    obtain ⟨f₁, hf₁, hpre₁, hlen₁, htable₁, hterm₁⟩ :=
      handleAppend_next hpre (hterm _ e (by omega) he) he hp
    rw [List.range'_succ, Wal.readEntries, he] at h
    dsimp only at h
    rw [MetaFollower.replayLog, hf₁] at h
    dsimp only at h
    split_ifs at h with hthrow
    have hcommit : (f₁.handleCommit (p + 1)).table = w.applyAt f.table (p + 1) := by
      rw [MetaFollower.handleCommit, if_neg (not_lt.mpr hlen₁), htable₁, Wal.applyAt, Wal.onCommit,
        Wal.onCommit, Wal.readEntry_eq_of_prefix hpre₁ hlen₁]
    have hpre' : (f₁.handleCommit (p + 1)).wal.records <+: w.records := by
      rwa [MetaFollower.handleCommit_records]
    have hterm' : ∀ k e', p + 1 < k → w.readEntry k = some e' →
        (f₁.handleCommit (p + 1)).currentTerm ≤ e'.term := by
      intro k e' hk he'
      have hle : e.term ≤ e'.term := hrise.term_le hk.le he he'
      rw [← hterm₁] at hle
      unfold MetaFollower.handleCommit
      split_ifs <;> exact hle
    have hlen' : p + 1 ≤ (f₁.handleCommit (p + 1)).wal.lastLogIndex := by
      rwa [Wal.lastLogIndex, MetaFollower.handleCommit_records]
    obtain ⟨hlast, htable⟩ := ih hpre' hterm' hlen' (by omega) h
    rw [hcommit] at htable
    rw [List.range'_succ, List.foldl_cons]
    exact ⟨hlast, htable⟩

/-- **The loop does nothing** when there is a gap before the first entry. -/
theorem replayLog_of_lt {n : ℕ} (hp : f.wal.lastLogIndex < p)
    (h : f.replayLog p (w.readEntries (List.range' (p + 1) n)) = some f') :
    f'.wal = f.wal := by
  cases n with
  | zero =>
    obtain rfl := Option.some.inj h
    rfl
  | succ n =>
    rw [List.range'_succ, Wal.readEntries] at h
    cases he : w.readEntry (p + 1) with
    | none =>
      rw [he] at h
      obtain rfl := Option.some.inj h
      rfl
    | some e =>
      rw [he] at h
      dsimp only at h
      obtain ⟨hno, hwal⟩ := handleAppend_gap (e := e) (t := e.term) hp
      rw [MetaFollower.replayLog] at h
      generalize f.handleAppend e.term p (p + 1) e = r at h hno hwal
      obtain ⟨ok, f₁⟩ := r
      obtain rfl : ok = false := hno
      obtain rfl := Option.some.inj h
      exact hwal

end CatchUp

/-! ### What the follower ends up with -/

section Right

variable {φ : Type} {F : FloatText φ} {w : Wal} {nodes : List (NodeRecord φ)} {f f' : MetaFollower}
  {ks : List ℕ}

/-- **When a bootstrap that returns true has done its work**, next to a leader whose table was made
by the commits `ks`. -/
theorem bootstrap_right_iff (hw : w.committed ≤ w.lastLogIndex) (hrise : w.TermsRise)
    (hpre : f.wal.records <+: w.records) (hterm : ∀ e ∈ w.records, f.currentTerm ≤ e.term)
    (hplain : PlainSnapshot F w.committed nodes (getChunks (ks.foldl w.applyAt Kv.empty)))
    (h : bootstrap F w (ks.foldl w.applyAt Kv.empty) nodes f = .returned true f') :
    (f'.wal.lastLogIndex = w.lastLogIndex ∧ f'.table = ks.foldl w.applyAt Kv.empty) ↔
      w.committed ≤ f.wal.lastLogIndex ∧
        ∀ c, w.lastEntry (ks ++ List.range' (w.committed + 1) (w.lastLogIndex - w.committed)) c =
          w.lastEntry ks c := by
  have hlen : w.lastLogIndex + 1 - (w.committed + 1) = w.lastLogIndex - w.committed := by omega
  unfold bootstrap at h
  rw [installSnapshot_takeSnapshot hplain, restoreChunks_getChunks (w.keyed_foldl_applyAt ks)] at h
  dsimp only at h
  rw [Wal.fetchLogEntries, hlen] at h
  split at h
  · simp at h
  rename_i f₁ hloop
  obtain rfl : f₁ = f' := by simpa using h
  by_cases hle : w.committed ≤ f.wal.lastLogIndex
  · have hgap : w.committed + (w.lastLogIndex - w.committed) = w.lastLogIndex := by omega
    obtain ⟨hlast, htable⟩ := replayLog_of_le
      (f := { f with table := ks.foldl w.applyAt Kv.empty }) hrise hpre
      (fun k e _ hk => hterm e (Wal.mem_of_readEntry hk)) hle hgap hloop
    rw [← Wal.foldl_applyAt_eq_iff, List.foldl_append, ← htable]
    exact ⟨fun ⟨_, ht⟩ => ⟨hle, ht⟩, fun ⟨_, ht⟩ => ⟨hlast, ht⟩⟩
  · have hwal := replayLog_of_lt
      (f := { f with table := ks.foldl w.applyAt Kv.empty }) (not_le.mp hle) hloop
    have hshort : f₁.wal.lastLogIndex ≠ w.lastLogIndex := by
      rw [hwal]
      show f.wal.lastLogIndex ≠ _
      omega
    exact ⟨fun h => absurd h.1 hshort, fun h => absurd h.1 hle⟩

/-! ### A follower that has the committed put, and one that has nothing -/

/-- A leader's log: the put of `c`, committed, and the same put again, not committed. -/
def bootLog : Wal := { records := [racedPut, racedPut], committed := 1 }

/-- The follower's log ends with the committed put. -/
def closeFollower : MetaFollower := { wal := { records := [racedPut] } }

def caughtUp : MetaFollower :=
  { wal := { records := [racedPut, racedPut], committed := 2 }, currentTerm := 1,
    table := [1].foldl bootLog.applyAt Kv.empty }

theorem getChunks_bootLog : getChunks ([1].foldl bootLog.applyAt Kv.empty) = [racedEntry] := by
  decide

theorem bootstrap_right_iff_close :
    (caughtUp.wal.lastLogIndex = bootLog.lastLogIndex ∧
        caughtUp.table = [1].foldl bootLog.applyAt Kv.empty) ↔
      bootLog.committed ≤ closeFollower.wal.lastLogIndex ∧
        ∀ c, bootLog.lastEntry ([1] ++ List.range' (bootLog.committed + 1)
            (bootLog.lastLogIndex - bootLog.committed)) c = bootLog.lastEntry [1] c := by
  have hterm : ∀ e ∈ bootLog.records, closeFollower.currentTerm ≤ e.term := fun e _ => Nat.zero_le _
  refine bootstrap_right_iff (F := zeroText) (by decide) ?_ (by decide) hterm
    (plainSnapshot_raced (.inr getChunks_bootLog)) (by decide)
  unfold Wal.TermsRise
  decide

/-- **A bootstrap into an empty log does nothing but the snapshot, and returns true.** -/
theorem bootstrap_leaves_log_empty :
    ¬ ∀ (w : Wal) (nodes : List (NodeRecord Unit)) (f f' : MetaFollower),
      w.committed ≤ w.lastLogIndex → w.TermsRise → f.wal.records <+: w.records →
      (∀ e ∈ w.records, f.currentTerm ≤ e.term) →
      bootstrap zeroText w ((List.range' 1 w.committed).foldl w.applyAt Kv.empty) nodes f =
        .returned true f' →
      f'.wal.lastLogIndex = w.lastLogIndex ∧
        f'.table = (List.range' 1 w.committed).foldl w.applyAt Kv.empty := by
  intro hall
  have hrise : bootLog.TermsRise := by
    unfold Wal.TermsRise
    decide
  have h := hall bootLog [racedNode] {}
    { currentTerm := 1, table := [1].foldl bootLog.applyAt Kv.empty } (by decide)
    hrise List.nil_prefix (fun e _ => Nat.zero_le _) (by decide)
  exact absurd h.1 (by decide)

end Right

end NimbusVault
