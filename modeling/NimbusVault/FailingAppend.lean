import NimbusVault.WalDb

/-!
# FailingAppend — a follower whose disk may refuse an entry

`MetaWal::append` raises the last index before it writes the entry, and throws when the write fails.
The index stays raised, so the log of `DiskWal` may have holes; `putOk` of a message is the fate of
that write.  `handleAppend` takes an index it cannot read for a duplicate.  Its answer is right
exactly when no append of that index has failed (`ack_sound_iff`).  Without failures the log is
the plain one (`handleAppend_ofFollower`).
-/

namespace NimbusVault

open Lib

/-- The stored entries, and the last index in memory. -/
structure DiskWal where
  stored : ℕ → Option WalEntry
  lastIndex : ℕ

namespace DiskWal

/-- The log on a plain one that was opened. -/
def ofWal (w : Wal) : DiskWal := ⟨w.readEntry, w.lastLogIndex⟩

/-- `append` up to its return, or up to the exception. -/
def append (w : DiskWal) (e : WalEntry) (putOk : Bool) : DiskWal where
  stored := if putOk then Function.update w.stored (w.lastIndex + 1) (some e) else w.stored
  lastIndex := w.lastIndex + 1

end DiskWal

/-- An AppendEntry message, and what happens to the write of its entry. -/
structure DiskAppend where
  leaderTerm : ℕ
  prevLogIndex : ℕ
  logIndex : ℕ
  entry : WalEntry
  putOk : Bool

/-- A follower process.  `failed` is a ghost, the indices whose append has thrown. -/
structure DiskFollower where
  wal : DiskWal
  currentTerm : ℕ
  failed : List ℕ

namespace DiskFollower

/-- A follower without failures so far. -/
def ofFollower (f : MetaFollower) : DiskFollower := ⟨.ofWal f.wal, f.currentTerm, []⟩

/-- The append of a message that is the next one; `none` when it throws. -/
def appendNext (f : DiskFollower) (m : DiskAppend) : Option Bool × DiskFollower :=
  let wal := f.wal.append m.entry m.putOk
  if m.putOk then (some true, { f with wal })
  else (none, { f with wal, failed := wal.lastIndex :: f.failed })

/-- The answer, and the follower afterwards. -/
def handleAppend (f : DiskFollower) (m : DiskAppend) : Option Bool × DiskFollower :=
  if m.leaderTerm < f.currentTerm then (some false, f)
  else
    let f := { f with currentTerm := m.leaderTerm }
    let localLast := f.wal.lastIndex
    if m.logIndex ≤ localLast then
      match f.wal.stored m.logIndex with
      | none => (some true, f)
      | some existing => if existing ≠ m.entry then (some false, f) else (some true, f)
    else if localLast + 1 < m.logIndex then (some false, f)
    else if m.prevLogIndex ≠ localLast then (some false, f)
    else f.appendNext m

end DiskFollower

/-- Any sequence of messages. -/
abbrev appends : Machine DiskFollower DiskAppend :=
  .ofStep fun f m => some (f.handleAppend m).2

/-! ### Without failures -/

theorem DiskWal.append_ofWal (w : Wal) (e : WalEntry) :
    (DiskWal.ofWal w).append e true = .ofWal (w.append e) := by
  unfold DiskWal.append DiskWal.ofWal
  rw [if_pos rfl, Wal.lastLogIndex_append]
  congr 1
  funext i
  rw [Wal.readEntry_append, Function.update_apply]

/-- A message whose write succeeds is handled like one of the plain follower. -/
theorem DiskFollower.handleAppend_ofFollower (f : MetaFollower) {m : DiskAppend} (h : m.putOk = true) :
    (ofFollower f).handleAppend m =
      (some (f.handleAppend m.leaderTerm m.prevLogIndex m.logIndex m.entry).1,
        ofFollower (f.handleAppend m.leaderTerm m.prevLogIndex m.logIndex m.entry).2) := by
  by_cases h1 : m.leaderTerm < f.currentTerm
  · simp [handleAppend, MetaFollower.handleAppend, ofFollower, h1]
  by_cases h2 : m.logIndex ≤ f.wal.lastLogIndex
  · cases hr : f.wal.readEntry m.logIndex with
    | none =>
      simp [handleAppend, MetaFollower.handleAppend, ofFollower, DiskWal.ofWal, h1, h2, hr]
    | some existing =>
      by_cases he : existing = m.entry <;>
        simp [handleAppend, MetaFollower.handleAppend, ofFollower, DiskWal.ofWal, h1, h2, hr, he]
  by_cases h3 : f.wal.lastLogIndex + 1 < m.logIndex
  · simp [handleAppend, MetaFollower.handleAppend, ofFollower, DiskWal.ofWal, h1, h2, h3]
  by_cases h4 : m.prevLogIndex = f.wal.lastLogIndex
  · have happ := DiskWal.append_ofWal f.wal m.entry
    simp only [DiskWal.ofWal] at happ
    simp [handleAppend, MetaFollower.handleAppend, ofFollower, DiskWal.ofWal, appendNext, h, h1, h2, h3,
      h4, happ]
  · simp [handleAppend, MetaFollower.handleAppend, ofFollower, DiskWal.ofWal, h1, h2, h3, h4]

/-! ### What an answer is worth -/

/-- Up to the last index an entry is there, or its append has failed. -/
structure HoleInv (f : DiskFollower) : Prop where
  hole : ∀ i, 1 ≤ i → i ≤ f.wal.lastIndex → (f.wal.stored i = none ↔ i ∈ f.failed)
  failed_le : ∀ i ∈ f.failed, i ≤ f.wal.lastIndex
  beyond : ∀ i, f.wal.lastIndex < i → f.wal.stored i = none

section Holes

variable {f : DiskFollower} {m : DiskAppend} {i : ℕ}

theorem holeInv_ofFollower (f : MetaFollower) : HoleInv (.ofFollower f) where
  hole i h1 hle := by
    obtain ⟨e, he⟩ := Wal.readEntry_isSome h1 hle
    simp [DiskFollower.ofFollower, DiskWal.ofWal, he]
  failed_le i h := by simp [DiskFollower.ofFollower] at h
  beyond i hlt := by
    cases he : f.wal.readEntry i with
    | none => exact he
    | some e => exact absurd (Wal.readEntry_le he).2 (not_le.mpr hlt)

/-- An append that goes through fills its index, one that fails leaves a hole. -/
theorem HoleInv.appendNext (h : HoleInv f) : HoleInv (f.appendNext m).2 := by
  obtain ⟨hhole, hle, hbeyond⟩ := h
  have hnew : f.wal.lastIndex + 1 ∉ f.failed := fun hf =>
    absurd (hle _ hf) (Nat.not_succ_le_self _)
  unfold DiskFollower.appendNext DiskWal.append
  dsimp only
  split_ifs with hok
  · refine ⟨fun i h1 hi => ?_, fun i hi => (hle i hi).trans (Nat.le_succ _), fun i hi => ?_⟩
    · dsimp only at hi ⊢
      rw [Function.update_apply]
      split_ifs with heq
      · subst heq
        simp [hnew]
      · exact hhole i h1 (by omega)
    · dsimp only at hi ⊢
      rw [Function.update_of_ne (by omega)]
      exact hbeyond i (by omega)
  · refine ⟨fun i h1 hi => ?_, fun i hi => ?_, fun i hi => hbeyond i ((Nat.lt_succ_self _).trans hi)⟩
    · dsimp only at hi ⊢
      rw [List.mem_cons]
      by_cases heq : i = f.wal.lastIndex + 1
      · subst heq
        simp [hbeyond (f.wal.lastIndex + 1) (Nat.lt_succ_self _)]
      · rw [hhole i h1 (by omega)]
        exact ⟨.inr, fun hi' => hi'.resolve_left heq⟩
    · rcases List.mem_cons.mp hi with rfl | hi
      · exact le_rfl
      · exact (hle i hi).trans (Nat.le_succ _)

/-- What a message may do to the follower: a new term at most, or the next append. -/
theorem DiskFollower.handleAppend_cases (f : DiskFollower) (m : DiskAppend) :
    (∃ t, (f.handleAppend m).2 = { f with currentTerm := t }) ∨
      (f.handleAppend m = { f with currentTerm := m.leaderTerm }.appendNext m ∧
        m.logIndex = f.wal.lastIndex + 1) := by
  unfold handleAppend
  dsimp only
  split_ifs with h1 h2 h3 h4
  · exact .inl ⟨f.currentTerm, rfl⟩
  · split
    · exact .inl ⟨_, rfl⟩
    · split_ifs <;> exact .inl ⟨_, rfl⟩
  · exact .inl ⟨_, rfl⟩
  · exact .inl ⟨_, rfl⟩
  · exact .inr ⟨rfl, by omega⟩

theorem HoleInv.term (h : HoleInv f) (t : ℕ) : HoleInv { f with currentTerm := t } :=
  ⟨h.hole, h.failed_le, h.beyond⟩

/-- **A message keeps the invariant.** -/
theorem HoleInv.handleAppend (h : HoleInv f) : HoleInv (f.handleAppend m).2 := by
  rcases f.handleAppend_cases m with ⟨t, ht⟩ | ⟨happ, -⟩
  · rw [ht]
    exact h.term t
  · rw [happ]
    exact (h.term _).appendNext

theorem holeInv_of_run {f₀ : MetaFollower} {tr : List DiskAppend}
    (h : appends.Reach (.ofFollower f₀) tr f) : HoleInv f := by
  refine h.invariant_step (holeInv_ofFollower f₀) fun f m f' hI hs _ => ?_
  obtain rfl := Option.some.inj hs
  exact hI.handleAppend

/-- The answer is yes only if the entry is in the log. -/
def AckSound (f : DiskFollower) (m : DiskAppend) : Prop :=
  (f.handleAppend m).1 = some true → (f.handleAppend m).2.wal.stored m.logIndex = some m.entry

/-- **When the answers of a follower are right.** -/
theorem ack_sound_iff {f₀ : MetaFollower} {tr : List DiskAppend}
    (h : appends.Reach (.ofFollower f₀) tr f) (h1 : 1 ≤ m.logIndex) :
    AckSound f m ↔ ¬ (f.currentTerm ≤ m.leaderTerm ∧ m.logIndex ∈ f.failed) := by
  have hI := holeInv_of_run h
  unfold AckSound DiskFollower.handleAppend
  dsimp only
  by_cases hterm : m.leaderTerm < f.currentTerm
  · simp [hterm]
  rw [if_neg hterm]
  by_cases hle : m.logIndex ≤ f.wal.lastIndex
  · rw [if_pos hle, ← hI.hole _ h1 hle]
    cases hst : f.wal.stored m.logIndex with
    | none => simp [hst, not_lt.mp hterm]
    | some e =>
      by_cases he : e = m.entry
      · simp [he, hst]
      · simp [he]
  · have hnot : m.logIndex ∉ f.failed := fun hf => hle (hI.failed_le _ hf)
    rw [if_neg hle]
    split_ifs with hgap hprev
    · simp [hnot]
    · simp [hnot]
    · have hnext : m.logIndex = f.wal.lastIndex + 1 := by omega
      rw [hnext] at hnot ⊢
      unfold DiskFollower.appendNext DiskWal.append
      cases m.putOk <;> simp [hnot]

end Holes

/-! ### An entry that was refused once -/

/-- The first message of a leader, and the fate of its write. -/
def firstMsg (putOk : Bool) : DiskAppend := ⟨1, 0, 1, ⟨.deleteChunk, 1, "c".toList⟩, putOk⟩

/-- A new follower whose first append has thrown. -/
def holedFollower : DiskFollower := ((DiskFollower.ofFollower {}).handleAppend (firstMsg false)).2

theorem holedFollower_reach : appends.Reach (.ofFollower {}) [firstMsg false] holedFollower :=
  Machine.Run.step .nil rfl trivial

theorem ack_sound_iff_next :
    AckSound holedFollower ⟨1, 1, 2, ⟨.deleteChunk, 1, "d".toList⟩, true⟩ ↔
      ¬ (holedFollower.currentTerm ≤ 1 ∧ 2 ∈ holedFollower.failed) :=
  ack_sound_iff holedFollower_reach (by decide)

/-- **The leader sends the refused entry again and gets a yes.** -/
theorem ack_without_entry :
    ¬ ∀ (f₀ : MetaFollower) (tr : List DiskAppend) (f : DiskFollower) (m : DiskAppend),
      appends.Reach (.ofFollower f₀) tr f → 1 ≤ m.logIndex → AckSound f m := by
  intro hall
  have hsound := hall {} [firstMsg false] holedFollower (firstMsg true) holedFollower_reach (by decide)
  have hstored := hsound (by decide)
  exact absurd hstored (by decide)

end NimbusVault
