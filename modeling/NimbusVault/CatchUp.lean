import NimbusVault.Bootstrap

/-!
# CatchUp — one replication call to a follower that is behind

`replicateToFollower` is the whole call for one log entry when no RPC fails.  A refused entry starts
a loop that sends what the leader believes to be missing, from the remembered `match_index` on, and
stops at the first refusal.  A follower whose log is shorter than that refuses the first entry
again.  So the loop brings the follower up to the entry exactly when the follower's log reaches
`match_index`, and the terms of the entries sent do not differ (`catchUp_reaches_iff`).
-/

namespace NimbusVault

open Lib

/-- What the leader remembers of a follower, and the follower. -/
structure FollowerLink where
  matchIndex : ℕ
  ackCounts : ℕ → Option ℕ
  follower : MetaFollower

namespace FollowerLink

def recordAck (l : FollowerLink) (logIndex : ℕ) : FollowerLink :=
  { l with
    ackCounts := Function.update l.ackCounts logIndex ((l.ackCounts logIndex).map (· + 1))
    matchIndex := max l.matchIndex logIndex }

/-- The ack is recorded, and CommitEntry is sent. -/
def acked (l : FollowerLink) (logIndex : ℕ) (f : MetaFollower) : FollowerLink :=
  { l.recordAck logIndex with follower := f.handleCommit logIndex }

end FollowerLink

/-- The catch-up loop over the indices. -/
def catchUp (w : Wal) (l : FollowerLink) : List ℕ → FollowerLink
  | [] => l
  | idx :: rest =>
    match w.readEntry idx with
    | none => l
    | some e =>
      match l.follower.handleAppend e.term (idx - 1) idx e with
      | (false, f) => { l with follower := f }
      | (true, f) => catchUp w (l.acked idx f) rest

/-- The call for the entry `e` of index `logIndex`, next to a leader with the log `w`. -/
def replicateToFollower (w : Wal) (l : FollowerLink) (logIndex : ℕ) (e : WalEntry) : FollowerLink :=
  match l.follower.handleAppend e.term (logIndex - 1) logIndex e with
  | (true, f) => l.acked logIndex f
  | (false, f) =>
    catchUp w { l with follower := f }
      (List.range' (l.matchIndex + 1) (logIndex - l.matchIndex))

section CatchUp

variable {w : Wal} {l : FollowerLink} {n p : ℕ}

/-- The log after an ack is the one that took the entry. -/
theorem FollowerLink.acked_records {idx : ℕ} {f : MetaFollower} :
    (l.acked idx f).follower.wal.records = f.wal.records := MetaFollower.handleCommit_records

theorem FollowerLink.acked_lastLogIndex {idx : ℕ} {f : MetaFollower} :
    (l.acked idx f).follower.wal.lastLogIndex = f.wal.lastLogIndex :=
  congrArg List.length FollowerLink.acked_records

theorem FollowerLink.acked_currentTerm {idx : ℕ} {f : MetaFollower} :
    (l.acked idx f).follower.currentTerm = f.currentTerm := by
  show (f.handleCommit idx).currentTerm = _
  unfold MetaFollower.handleCommit
  split_ifs <;> rfl

/-- **The loop gets through** when the log reaches the index before the first entry, and all entries
are of the follower's term. -/
theorem catchUp_of_le (hpre : l.follower.wal.records <+: w.records)
    (hterm : ∀ k e, p < k → k ≤ p + n → w.readEntry k = some e → e.term = l.follower.currentTerm)
    (hp : p ≤ l.follower.wal.lastLogIndex) (hn : p + n ≤ w.lastLogIndex) (hm : p ≤ l.matchIndex) :
    (catchUp w l (List.range' (p + 1) n)).follower.wal.records <+: w.records ∧
      p + n ≤ (catchUp w l (List.range' (p + 1) n)).follower.wal.lastLogIndex ∧
      p + n ≤ (catchUp w l (List.range' (p + 1) n)).matchIndex := by
  induction n generalizing l p with
  | zero => exact ⟨hpre, hp, hm⟩
  | succ n ih =>
    obtain ⟨e, he⟩ := Wal.readEntry_isSome (w := w) (i := p + 1) (by omega) (by omega)
    have hcur : e.term = l.follower.currentTerm := hterm (p + 1) e (by omega) (by omega) he
    obtain ⟨f, hf, hpre', hlen, -, hterm'⟩ := handleAppend_next hpre hcur.ge he hp
    have hstep : catchUp w l (List.range' (p + 1) (n + 1)) =
        catchUp w (l.acked (p + 1) f) (List.range' (p + 1 + 1) n) := by
      rw [List.range'_succ, catchUp, he]
      dsimp only
      rw [Nat.add_sub_cancel, hf]
    have hsum : p + (n + 1) = p + 1 + n := by omega
    rw [hstep, hsum]
    refine ih ?_ (fun k e' hk hk' he' => ?_) ?_ (by omega) (le_max_right _ _)
    · rwa [FollowerLink.acked_records]
    · rw [FollowerLink.acked_currentTerm, hterm', hcur]
      exact hterm k e' (by omega) (by omega) he'
    · rwa [FollowerLink.acked_lastLogIndex]

/-- A refusal leaves the log alone. -/
theorem MetaFollower.handleAppend_refused {f f' : MetaFollower} {t prev i : ℕ} {e : WalEntry}
    (h : f.handleAppend t prev i e = (false, f')) : f'.wal = f.wal := by
  unfold handleAppend at h
  dsimp only at h
  split_ifs at h
  · exact (Prod.mk.inj h).2 ▸ rfl
  · split at h
    · simp at h
    · split_ifs at h <;> exact (Prod.mk.inj h).2 ▸ rfl
  · exact (Prod.mk.inj h).2 ▸ rfl
  · exact (Prod.mk.inj h).2 ▸ rfl
  · simp at h

/-- An entry that is taken is the next one at most, and of no lower term. -/
theorem handleAppend_taken {f f' : MetaFollower} {e : WalEntry}
    (h : f.handleAppend e.term p (p + 1) e = (true, f')) :
    f.currentTerm ≤ e.term ∧ p ≤ f.wal.lastLogIndex ∧ f'.currentTerm = e.term := by
  unfold MetaFollower.handleAppend at h
  dsimp only at h
  split_ifs at h with h1 h2 h3 h4
  · simp at h
  · refine ⟨not_lt.mp h1, (Nat.le_succ p).trans h2, ?_⟩
    split at h
    · exact (Prod.mk.inj h).2 ▸ rfl
    · split_ifs at h <;> exact (Prod.mk.inj h).2 ▸ rfl
  · simp at h
  · simp at h
  · exact ⟨not_lt.mp h1, (not_not.mp h4).le, (Prod.mk.inj h).2 ▸ rfl⟩

/-- **What it takes to get through**: the log reaches the index before the first entry, and the
terms do not fall. -/
theorem of_catchUp (hpre : l.follower.wal.records <+: w.records)
    (hlt : n ≠ 0 → l.follower.wal.lastLogIndex < p + n) (hn : p + n ≤ w.lastLogIndex)
    (h : p + n ≤ (catchUp w l (List.range' (p + 1) n)).follower.wal.lastLogIndex) :
    p ≤ l.follower.wal.lastLogIndex ∧
      ∀ k e, p < k → k ≤ p + n → w.readEntry k = some e → l.follower.currentTerm ≤ e.term ∧
        ∀ e', w.readEntry (p + n) = some e' → e.term ≤ e'.term := by
  induction n generalizing l p with
  | zero => exact ⟨h, fun k e hk hk' => by omega⟩
  | succ n ih =>
    obtain ⟨e, he⟩ := Wal.readEntry_isSome (w := w) (i := p + 1) (by omega) (by omega)
    rw [List.range'_succ, catchUp, he] at h
    dsimp only at h
    rw [Nat.add_sub_cancel] at h
    have hwal := l.follower.handleAppend_wal e.term p (p + 1) e
    have hlt' := hlt (Nat.succ_ne_zero n)
    cases hr : l.follower.handleAppend e.term p (p + 1) e with
    | mk ok f =>
    rw [hr] at h hwal
    cases ok with
    | false =>
      -- the loop ends, and the log has not grown
      have hno := MetaFollower.handleAppend_refused hr
      dsimp only at h
      rw [Wal.lastLogIndex, hno] at h
      exact absurd hlt' (not_lt.mpr h)
    | true =>
      dsimp only at h hwal
      obtain ⟨hcur, hp, hterm⟩ := handleAppend_taken hr
      have hpre' : f.wal.records <+: w.records := by
        rcases hwal with hw | ⟨hw, hi⟩
        · rwa [hw]
        · rw [hw]
          exact Wal.append_prefix hpre (hi ▸ he)
      have hlen : f.wal.lastLogIndex ≤ max l.follower.wal.lastLogIndex (p + 1) := by
        rcases hwal with hw | ⟨hw, hi⟩
        · rw [hw]
          exact le_max_left _ _
        · rw [hw, Wal.lastLogIndex_append, ← hi]
          exact le_max_right _ _
      have hsum : p + (n + 1) = p + 1 + n := by omega
      rw [hsum] at h hlt' ⊢
      obtain ⟨-, hrest⟩ := ih (l := l.acked (p + 1) f) (by rwa [FollowerLink.acked_records])
        (fun h0 => by rw [FollowerLink.acked_lastLogIndex]; omega) (by omega) h
      rw [FollowerLink.acked_currentTerm, hterm] at hrest
      refine ⟨hp, fun k e' hk hk' he' => ?_⟩
      rcases Nat.lt_or_ge (p + 1) k with hlt | hge
      · obtain ⟨hle, hup⟩ := hrest k e' hlt hk' he'
        exact ⟨hcur.trans hle, hup⟩
      · obtain rfl : k = p + 1 := by omega
        obtain rfl : e = e' := Option.some.inj (he.symm.trans he')
        refine ⟨hcur, fun e'' he'' => ?_⟩
        rcases Nat.eq_zero_or_pos n with rfl | hpos
        · exact (Option.some.inj (he.symm.trans he'') ▸ le_rfl)
        · exact (hrest (p + 1 + n) e'' (by omega) le_rfl he'').1

end CatchUp

/-! ### What the call achieves -/

/-- The follower has the leader's entries up to `i`, and the leader knows. -/
def FollowerLink.CaughtUp (w : Wal) (l : FollowerLink) (i : ℕ) : Prop :=
  (∀ k, 1 ≤ k → k ≤ i → l.follower.wal.readEntry k = w.readEntry k) ∧ i ≤ l.matchIndex

section Reach

variable {w : Wal} {l : FollowerLink} {i : ℕ} {e : WalEntry}

/-- An entry behind a gap is refused, and its term taken over. -/
theorem replicateToFollower_gap (hterm : l.follower.currentTerm ≤ e.term)
    (hgap : l.follower.wal.lastLogIndex + 1 < i) :
    replicateToFollower w l i e =
      catchUp w { l with follower := { l.follower with currentTerm := e.term } }
        (List.range' (l.matchIndex + 1) (i - l.matchIndex)) := by
  have hlate : ¬ i ≤ l.follower.wal.lastLogIndex := by omega
  unfold replicateToFollower MetaFollower.handleAppend
  dsimp only
  rw [if_neg (not_lt.mpr hterm), if_neg hlate, if_pos hgap]

/-- **When the catch-up after a gap does its work.** -/
theorem catchUp_reaches_iff (hpre : l.follower.wal.records <+: w.records)
    (he : w.readEntry i = some e) (hterm : l.follower.currentTerm ≤ e.term)
    (hgap : l.follower.wal.lastLogIndex + 1 < i) :
    (replicateToFollower w l i e).CaughtUp w i ↔
      l.matchIndex ≤ l.follower.wal.lastLogIndex ∧
        ∀ k e', l.matchIndex < k → k ≤ i → w.readEntry k = some e' → e'.term = e.term := by
  obtain ⟨hi1, hi2⟩ := Wal.readEntry_le he
  rw [replicateToFollower_gap hterm hgap]
  set l' : FollowerLink := { l with follower := { l.follower with currentTerm := e.term } } with hl'
  constructor
  · rintro ⟨hagree, -⟩
    have hreach : i ≤ (catchUp w l' (List.range' (l.matchIndex + 1)
        (i - l.matchIndex))).follower.wal.lastLogIndex :=
      (Wal.readEntry_le ((hagree i hi1 le_rfl).trans he)).2
    by_cases hm : i ≤ l.matchIndex
    · -- the loop has nothing to send, and the log is as short as before
      rw [Nat.sub_eq_zero_of_le hm] at hreach
      exact absurd hgap (not_lt.mpr (hreach.trans (Nat.le_succ _)))
    · have hsum : l.matchIndex + (i - l.matchIndex) = i := by omega
      obtain ⟨hp, hterms⟩ := of_catchUp (l := l') (p := l.matchIndex) (n := i - l.matchIndex) hpre
        (fun _ => by rw [hsum]; exact (Nat.lt_succ_self _).trans hgap) (by omega)
        (by rw [hsum]; exact hreach)
      rw [hsum] at hterms
      refine ⟨hp, fun k e' hk hki hk' => ?_⟩
      obtain ⟨hlo, hup⟩ := hterms k e' hk hki hk'
      exact le_antisymm (hup e he) hlo
  · rintro ⟨hm, hterms⟩
    have hsum : l.matchIndex + (i - l.matchIndex) = i := by omega
    obtain ⟨hpre', hlen, hmatch⟩ := catchUp_of_le (l := l') (p := l.matchIndex)
      (n := i - l.matchIndex) hpre (fun k e' hk hki hk' => hterms k e' hk (hsum ▸ hki) hk') hm
      (by omega) le_rfl
    rw [hsum] at hlen hmatch
    exact ⟨fun k _ hk => Wal.readEntry_eq_of_prefix hpre' (hk.trans hlen), hmatch⟩

/-- Three entries of one term. -/
def threeLog : Wal := { records := List.replicate 3 racedPut }

/-- A new follower, of which the leader remembers an index. -/
def newFollower (matchIndex : ℕ) : FollowerLink := ⟨matchIndex, fun _ => none, {}⟩

theorem catchUp_reaches_iff_new : (replicateToFollower threeLog (newFollower 0) 3 racedPut).CaughtUp
      threeLog 3 ↔ (newFollower 0).matchIndex ≤ (newFollower 0).follower.wal.lastLogIndex ∧
    ∀ k e', (newFollower 0).matchIndex < k → k ≤ 3 → threeLog.readEntry k = some e' →
      e'.term = racedPut.term :=
  catchUp_reaches_iff (List.nil_prefix) rfl (by decide) (by decide)

/-- **A follower that has lost its log is not caught up**: the first entry sent is refused again. -/
theorem catchUp_stops_at_gap :
    ¬ ∀ (w : Wal) (l : FollowerLink) (i : ℕ) (e : WalEntry),
      l.follower.wal.records <+: w.records → w.readEntry i = some e →
      l.follower.currentTerm ≤ e.term → l.follower.wal.lastLogIndex + 1 < i →
      (replicateToFollower w l i e).CaughtUp w i := by
  intro hall
  have h := (hall threeLog (newFollower 1) 3 racedPut List.nil_prefix rfl (by decide) (by decide)).2
  exact absurd h (by decide)

end Reach

end NimbusVault
