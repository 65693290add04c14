import NimbusVault.Payload

/-!
# Follower — the metadata log and the follower's handlers

`Wal` is the log of one metadata node: the records in index order (the first has index 1) and the
high-water mark of committed indices.  `MetaFollower` answers the leader's messages: `handleAppend`
(the wire carries one entry, its index, and the previous index; the previous term is ignored) and
`handleCommit`, which applies the entry to the chunk table at once.
-/

namespace NimbusVault

open Lib

structure Wal where
  records : List WalEntry := []
  committed : ℕ := 0
  deriving DecidableEq

namespace Wal

def lastLogIndex (w : Wal) : ℕ := w.records.length

def append (w : Wal) (e : WalEntry) : Wal := { w with records := w.records ++ [e] }

def commit (w : Wal) (logIndex : ℕ) : Wal := { w with committed := max w.committed logIndex }

def readEntry (w : Wal) (logIndex : ℕ) : Option WalEntry :=
  if logIndex = 0 then none else w.records[logIndex - 1]?

/-- Feed the entries up to the high-water mark to `apply_wal_entry`; missing ones are skipped. -/
def replay (w : Wal) (t : ChunkTable) : Option ChunkTable :=
  (w.records.take w.committed).foldlM applyWalEntry t

/-- The `on_commit` callback: read the entry back and apply it. -/
def onCommit (w : Wal) (t : ChunkTable) (logIndex : ℕ) : Option ChunkTable :=
  match w.readEntry logIndex with
  | none => some t
  | some e => applyWalEntry t e

variable {w w' : Wal} {e e' : WalEntry} {i : ℕ}

@[simp] theorem lastLogIndex_append : (w.append e).lastLogIndex = w.lastLogIndex + 1 := by
  simp [lastLogIndex, append]

@[simp] theorem lastLogIndex_commit : (w.commit i).lastLogIndex = w.lastLogIndex := rfl

@[simp] theorem readEntry_commit {k : ℕ} : (w.commit i).readEntry k = w.readEntry k := rfl

theorem readEntry_le (h : w.readEntry i = some e) : 1 ≤ i ∧ i ≤ w.lastLogIndex := by
  unfold readEntry at h
  split_ifs at h with hi
  obtain ⟨hlt, -⟩ := List.getElem?_eq_some_iff.mp h
  unfold lastLogIndex
  omega

theorem readEntry_isSome (h1 : 1 ≤ i) (h2 : i ≤ w.lastLogIndex) : ∃ e, w.readEntry i = some e := by
  unfold lastLogIndex at h2
  refine ⟨w.records[i - 1], ?_⟩
  rw [readEntry, if_neg (by omega), List.getElem?_eq_getElem]

/-- An entry stays where it is when the log grows. -/
theorem readEntry_of_prefix (hp : w.records <+: w'.records) (h : w.readEntry i = some e) :
    w'.readEntry i = some e := by
  unfold readEntry at h ⊢
  split_ifs at h ⊢ with hi
  obtain ⟨t, ht⟩ := hp
  obtain ⟨hlt, -⟩ := List.getElem?_eq_some_iff.mp h
  rw [← ht, List.getElem?_append_left hlt]
  exact h

/-- Within the shorter log, prefix and whole agree. -/
theorem readEntry_eq_of_prefix (hp : w.records <+: w'.records) (hi : i ≤ w.lastLogIndex) :
    w.readEntry i = w'.readEntry i := by
  by_cases h0 : i = 0
  · simp [readEntry, h0]
  · obtain ⟨e, he⟩ := readEntry_isSome (w := w) (by omega) hi
    rw [he, readEntry_of_prefix hp he]

theorem prefix_append : w.records <+: (w.append e).records := List.prefix_append _ _

/-- A prefix may take over the next entry. -/
theorem append_prefix (hp : w.records <+: w'.records)
    (h : w'.readEntry (w.lastLogIndex + 1) = some e) : (w.append e).records <+: w'.records := by
  obtain ⟨t, ht⟩ := hp
  rw [readEntry, if_neg (by omega), Nat.add_sub_cancel, ← ht, lastLogIndex,
    List.getElem?_append_right (le_refl _), Nat.sub_self] at h
  cases t with
  | nil => simp at h
  | cons x t =>
    obtain rfl : x = e := by simpa using h
    exact ⟨t, by rw [← ht]; simp [append]⟩

end Wal

/-- A follower process: its log, the highest leader term it has seen, and its chunk table. -/
structure MetaFollower where
  wal : Wal := {}
  currentTerm : ℕ := 0
  table : ChunkTable := Kv.empty
  deriving DecidableEq

namespace MetaFollower

/-- One AppendEntry message: the answer and the follower afterwards. -/
def handleAppend (f : MetaFollower) (leaderTerm prevLogIndex logIndex : ℕ) (e : WalEntry) :
    Bool × MetaFollower :=
  if leaderTerm < f.currentTerm then (false, f)
  else
    let f := { f with currentTerm := leaderTerm }
    let localLast := f.wal.lastLogIndex
    if logIndex ≤ localLast then
      match f.wal.readEntry logIndex with
      | none => (true, f)
      | some existing => if existing ≠ e then (false, f) else (true, f)
    else if localLast + 1 < logIndex then (false, f)
    else if prevLogIndex ≠ localLast then (false, f)
    else (true, { f with wal := f.wal.append e })

/-- One CommitEntry message.  An exception of the callback is not seen by anybody. -/
def handleCommit (f : MetaFollower) (logIndex : ℕ) : MetaFollower :=
  if f.wal.lastLogIndex < logIndex then f
  else { f with
    wal := f.wal.commit logIndex
    table := (f.wal.onCommit f.table logIndex).getD f.table }

/-- A process that starts on an existing log replays it; `none` when the replay throws. -/
def start (w : Wal) : Option MetaFollower :=
  (w.replay Kv.empty).map fun table => { wal := w, table }

variable {f : MetaFollower} {leaderTerm prev i : ℕ} {e : WalEntry}

/-- **What a message does to the log**: nothing, or the entry is appended in its place. -/
theorem handleAppend_wal (f : MetaFollower) (leaderTerm prev i : ℕ) (e : WalEntry) :
    (f.handleAppend leaderTerm prev i e).2.wal = f.wal ∨
      ((f.handleAppend leaderTerm prev i e).2.wal = f.wal.append e ∧ i = f.wal.lastLogIndex + 1) := by
  unfold handleAppend
  dsimp only
  split_ifs with h1 h2 h3 h4
  · exact .inl rfl
  · split
    · exact .inl rfl
    · split_ifs <;> exact .inl rfl
  · exact .inl rfl
  · exact .inl rfl
  · exact .inr ⟨rfl, by omega⟩

/-- **A yes means the log reaches the index.** -/
theorem handleAppend_ok (h : (f.handleAppend leaderTerm prev i e).1 = true) :
    i ≤ (f.handleAppend leaderTerm prev i e).2.wal.lastLogIndex := by
  unfold handleAppend at h ⊢
  dsimp only at h ⊢
  split_ifs at h ⊢ with h1 h2 h3 h4
  · split
    · exact h2
    · split_ifs <;> exact h2
  · rw [Wal.lastLogIndex_append]
    show i ≤ f.wal.lastLogIndex + 1
    omega

@[simp] theorem handleAppend_committed :
    (f.handleAppend leaderTerm prev i e).2.wal.committed = f.wal.committed := by
  rcases f.handleAppend_wal leaderTerm prev i e with h | ⟨h, -⟩ <;> rw [h]
  rfl

@[simp] theorem handleCommit_records : (f.handleCommit i).wal.records = f.wal.records := by
  unfold handleCommit
  split_ifs <;> rfl

end MetaFollower

end NimbusVault
