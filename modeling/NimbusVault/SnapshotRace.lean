import NimbusVault.Lib.Machine
import NimbusVault.LogTable
import NimbusVault.Snapshot

/-!
# SnapshotRace — a snapshot taken while writes commit

The leader's writes commit one at a time: first the log's mark is raised, then the entry is applied.
`take_snapshot` holds no lock against this; it reads the mark, the nodes and the chunks, each at
some moment.  The ghost `cut` of a snapshot is the sequence of indices that had been applied when
the chunks were read.  Catching up from the snapshot is right exactly when, for every chunk, the
last writes of the cut are as good as the last writes of the log up to the mark that was read
(`snapshot_right_iff`).
-/

namespace NimbusVault

open Lib

/-- How far a `take_snapshot` has got, with what it has read. -/
inductive SnapPhase (φ : Type)
  | idle
  | lsnRead (lsn : ℕ)
  | nodesRead (lsn : ℕ) (nodes : List (NodeRecord φ))
  | taken (lsn : ℕ) (nodes : List (NodeRecord φ)) (chunks : List ChunkEntry) (cut : List ℕ)

/-- The leader between the two halves of its commits; `applied` are the indices applied so far. -/
structure CommitState (φ : Type) where
  wal : Wal
  table : ChunkTable
  applied : List ℕ
  applying : Option ℕ := none
  snap : SnapPhase φ := .idle

inductive CommitStep (φ : Type)
  | append (e : WalEntry)
  | commit (i : ℕ)
  | apply
  | readLsn
  | readNodes (nodes : List (NodeRecord φ))
  | readChunks

namespace CommitState

variable {φ : Type}

/-- A leader that has replayed its log. -/
def start (w : Wal) (t : ChunkTable) : CommitState φ :=
  { wal := w, table := t, applied := List.range' 1 w.committed }

/-- The commits of two writes do not overlap: the replication's mutex is held across both halves. -/
def step (s : CommitState φ) : CommitStep φ → Option (CommitState φ)
  | .append e => some { s with wal := s.wal.append e }
  | .commit i =>
    if s.applying = none ∧ 1 ≤ i ∧ i ≤ s.wal.lastLogIndex ∧ i ∉ s.applied then
      some { s with wal := s.wal.commit i, applying := some i } else none
  | .apply =>
    match s.applying with
    | none => none
    | some i => some { s with
        table := s.wal.applyAt s.table i, applied := s.applied ++ [i], applying := none }
  | .readLsn =>
    match s.snap with
    | .idle => some { s with snap := .lsnRead s.wal.committed }
    | .taken _ _ _ _ => some { s with snap := .lsnRead s.wal.committed }
    | _ => none
  | .readNodes nodes =>
    match s.snap with
    | .lsnRead lsn => some { s with snap := .nodesRead lsn nodes }
    | _ => none
  | .readChunks =>
    match s.snap with
    | .nodesRead lsn nodes =>
      some { s with snap := .taken lsn nodes (getChunks s.table) s.applied }
    | _ => none

end CommitState

/-- All interleavings of commits with a snapshot. -/
abbrev commits (φ : Type) : Machine (CommitState φ) (CommitStep φ) := .ofStep CommitState.step

/-! ### What was read -/

/-- What a snapshot has read so far, in terms of the log. -/
def SnapPhase.Read {φ : Type} (w : Wal) : SnapPhase φ → Prop
  | .idle => True
  | .lsnRead lsn => lsn ≤ w.lastLogIndex
  | .nodesRead lsn _ => lsn ≤ w.lastLogIndex
  | .taken lsn _ chunks cut => lsn ≤ w.lastLogIndex ∧ (∀ k ∈ cut, k ≤ w.lastLogIndex) ∧
      chunks = getChunks (cut.foldl w.applyAt Kv.empty)

structure CommitInv {φ : Type} (s : CommitState φ) : Prop where
  mark : s.wal.committed ≤ s.wal.lastLogIndex
  live : ∀ k ∈ s.applied, k ≤ s.wal.lastLogIndex
  pending : ∀ i ∈ s.applying, i ≤ s.wal.lastLogIndex
  table : s.table = s.applied.foldl s.wal.applyAt Kv.empty
  read : s.snap.Read s.wal

section Invariant

variable {φ : Type} {s s' : CommitState φ} {w : Wal} {t : ChunkTable}

/-- What was read stays true while the log grows. -/
theorem SnapPhase.Read.mono {p : SnapPhase φ} {w' : Wal} (hp : w.records <+: w'.records)
    (h : p.Read w) : p.Read w' := by
  have hle : w.lastLogIndex ≤ w'.lastLogIndex := hp.length_le
  cases p with
  | idle => trivial
  | lsnRead lsn => exact le_trans h hle
  | nodesRead lsn nodes => exact le_trans h hle
  | taken lsn nodes chunks cut =>
    obtain ⟨h1, h2, h3⟩ := h
    refine ⟨h1.trans hle, fun k hk => (h2 k hk).trans hle, ?_⟩
    rw [h3, Wal.foldl_applyAt_of_prefix hp h2]

/-- **A step keeps the invariant.** -/
theorem CommitInv.step {a : CommitStep φ} (hI : CommitInv s) (h : s.step a = some s') :
    CommitInv s' := by
  cases a with
  | append e =>
    obtain rfl := Option.some.inj h
    have hp : s.wal.records <+: (s.wal.append e).records := Wal.prefix_append
    have hle : s.wal.lastLogIndex ≤ (s.wal.append e).lastLogIndex := hp.length_le
    exact ⟨hI.mark.trans hle, fun k hk => (hI.live k hk).trans hle,
      fun i hi => (hI.pending i hi).trans hle,
      hI.table.trans (Wal.foldl_applyAt_of_prefix hp hI.live Kv.empty).symm, hI.read.mono hp⟩
  | commit i =>
    simp only [CommitState.step] at h
    split_ifs at h with hc
    obtain rfl := Option.some.inj h
    refine ⟨max_le hI.mark hc.2.2.1, hI.live, fun j hj => ?_, hI.table, hI.read.mono List.prefix_rfl⟩
    obtain rfl := Option.some.inj hj
    exact hc.2.2.1
  | apply =>
    simp only [CommitState.step] at h
    cases hi : s.applying with
    | none => simp [hi] at h
    | some i =>
      simp only [hi] at h
      obtain rfl := Option.some.inj h
      refine ⟨hI.mark, fun k hk => ?_, fun j hj => by simp at hj, ?_, hI.read⟩
      · rcases List.mem_append.mp hk with hk | hk
        · exact hI.live k hk
        · rw [List.mem_singleton.mp hk]
          exact hI.pending i hi
      · show s.wal.applyAt s.table i = _
        rw [List.foldl_concat, ← hI.table]
  | readLsn =>
    simp only [CommitState.step] at h
    split at h
    · obtain rfl := Option.some.inj h
      exact ⟨hI.mark, hI.live, hI.pending, hI.table, hI.mark⟩
    · obtain rfl := Option.some.inj h
      exact ⟨hI.mark, hI.live, hI.pending, hI.table, hI.mark⟩
    · simp at h
  | readNodes nodes =>
    simp only [CommitState.step] at h
    split at h
    · rename_i lsn hs
      obtain rfl := Option.some.inj h
      have hread := hI.read
      rw [hs] at hread
      exact ⟨hI.mark, hI.live, hI.pending, hI.table, hread⟩
    · simp at h
  | readChunks =>
    simp only [CommitState.step] at h
    split at h
    · rename_i lsn nodes hs
      obtain rfl := Option.some.inj h
      have hread := hI.read
      rw [hs] at hread
      exact ⟨hI.mark, hI.live, hI.pending, hI.table, hread, hI.live, congrArg getChunks hI.table⟩
    · simp at h

theorem commitInv_reach (hw : w.committed ≤ w.lastLogIndex) (ht : w.replay Kv.empty = some t)
    {tr : List (CommitStep φ)} (h : (commits φ).Reach (.start w t) tr s) : CommitInv s := by
  refine h.invariant_step ?_ fun s a s' hI hs _ => hI.step hs
  refine ⟨hw, fun k hk => ?_, by simp [CommitState.start], ?_, trivial⟩
  · have hk' := List.mem_range'_1.mp hk
    show k ≤ w.lastLogIndex
    omega
  · show t = (List.range' 1 w.committed).foldl w.applyAt Kv.empty
    rw [Wal.foldl_applyAt hw]
    exact (Wal.replay_eq_some_iff.mp ht).2.symm

end Invariant

/-! ### Catching up from the snapshot -/

/-- Installed into an empty table and followed by the entries behind it, the snapshot makes the
table of the log, up to any index. -/
def SnapshotRight {φ : Type} (F : FloatText φ) (w : Wal) (lsn : ℕ) (data : Str) : Prop :=
  ∃ nodes chunks, installSnapshot F data = .ok (lsn, nodes, chunks) ∧
    ∀ n, lsn ≤ n → n ≤ w.lastLogIndex →
      (List.range' (lsn + 1) (n - lsn)).foldl w.applyAt chunks =
        (List.range' 1 n).foldl w.applyAt Kv.empty

section Right

variable {φ : Type} {F : FloatText φ} {s : CommitState φ} {w : Wal} {t : ChunkTable}

/-- **When catching up from a snapshot is right.** -/
theorem snapshot_right_iff (hw : w.committed ≤ w.lastLogIndex) (ht : w.replay Kv.empty = some t)
    {tr : List (CommitStep φ)} (h : (commits φ).Reach (.start w t) tr s) {lsn : ℕ}
    {nodes : List (NodeRecord φ)} {chunks : List ChunkEntry} {cut : List ℕ}
    (hs : s.snap = .taken lsn nodes chunks cut) (hplain : PlainSnapshot F lsn nodes chunks) :
    SnapshotRight F s.wal lsn (takeSnapshot F lsn nodes chunks) ↔
      ∀ c, s.wal.lastEntry cut c = s.wal.lastEntry (List.range' 1 lsn) c := by
  have hread := (commitInv_reach hw ht h).read
  rw [hs] at hread
  obtain ⟨hlsn, -, hchunks⟩ := hread
  have hinstall := installSnapshot_takeSnapshot hplain
  rw [hchunks, restoreChunks_getChunks (s.wal.keyed_foldl_applyAt cut), ← hchunks] at hinstall
  rw [← Wal.foldl_applyAt_eq_iff]
  constructor
  · rintro ⟨nt, ct, hok, hn⟩
    rw [hinstall] at hok
    obtain ⟨-, -, rfl⟩ : lsn = lsn ∧ _ = nt ∧ _ = ct := by simpa using hok
    have h0 := hn lsn le_rfl hlsn
    rwa [Nat.sub_self] at h0
  · intro hcut
    refine ⟨_, _, hinstall, fun n hle _ => ?_⟩
    have hsplit : List.range' 1 n = List.range' 1 lsn ++ List.range' (lsn + 1) (n - lsn) := by
      have hle' : lsn + 1 ≤ n + 1 := by omega
      have hgap : n + 1 - (lsn + 1) = n - lsn := by omega
      rw [← hgap]
      exact Wal.range'_split (Nat.le_add_left 1 lsn) hle'
    rw [hsplit, List.foldl_append, hcut]

end Right

/-! ### A run with the snapshot in between -/

/-- Nodes whose floating point fields are all zero. -/
def zeroText : FloatText Unit where
  print _ := "0.000000".toList
  stof _ := some ()
  sep_not_mem _ := by decide
  stof_print _ := rfl

/-- A put of the chunk `c`. -/
def racedPut : WalEntry := ⟨.putChunk, 1, "c|1|1|1|n=a,".toList⟩

def racedEntry : ChunkEntry :=
  { chunkId := "c".toList, version := 1, replicaSet := ["n=a".toList], replicationFactor := 1,
    configState := .stable, oldReplicaSet := [], sizeBytes := 1 }

def racedNode : NodeRecord Unit :=
  { nodeId := "n".toList, address := "a".toList, alive := true, loadFraction := (), freeBytes := 1,
    totalBytes := 1, failureRate7d := (), lastSeenMs := 0 }

/-- The snapshot is taken when the put's commit is through. -/
def settledTrace : List (CommitStep Unit) :=
  [.append racedPut, .commit 1, .apply, .readLsn, .readNodes [racedNode], .readChunks]

/-- The snapshot is taken between the two halves of the put's commit. -/
def racedTrace : List (CommitStep Unit) :=
  [.append racedPut, .commit 1, .readLsn, .readNodes [racedNode], .readChunks, .apply]

def snapState (tr : List (CommitStep Unit)) : CommitState Unit :=
  (commits Unit).final (fun _ _ => True) (.start {} Kv.empty) tr

theorem settledState_reach :
    (commits Unit).Reach (.start {} Kv.empty) settledTrace (snapState settledTrace) :=
  Machine.run_final (by decide)

theorem racedState_reach :
    (commits Unit).Reach (.start {} Kv.empty) racedTrace (snapState racedTrace) :=
  Machine.run_final (by decide)

theorem racedEntry_plain : racedEntry.Plain :=
  ⟨by decide, by decide, by decide, by decide⟩

theorem racedNode_plain : racedNode.Plain zeroText :=
  ⟨by decide, by decide, by decide⟩

theorem plainSnapshot_raced {chunks : List ChunkEntry} (h : chunks = [] ∨ chunks = [racedEntry]) :
    PlainSnapshot zeroText 1 [racedNode] chunks where
  lsn_lt := by decide
  nodes_lt := by decide
  chunks_lt := by rcases h with rfl | rfl <;> decide
  node n hn := by
    rw [List.mem_singleton.mp hn]
    exact racedNode_plain
  chunk e he := by
    rcases h with rfl | rfl
    · simp at he
    · rw [List.mem_singleton.mp he]
      exact racedEntry_plain

theorem snapshot_right_iff_settled :
    SnapshotRight zeroText (snapState settledTrace).wal 1
        (takeSnapshot zeroText 1 [racedNode] [racedEntry]) ↔
      ∀ c, (snapState settledTrace).wal.lastEntry [1] c =
        (snapState settledTrace).wal.lastEntry (List.range' 1 1) c :=
  snapshot_right_iff (by decide) (by decide) settledState_reach (by rfl)
    (plainSnapshot_raced (.inr rfl))

/-- **A put is lost between the two halves of its commit.** The mark covers it already, the table
does not hold it yet, and the snapshot is installed without it. -/
theorem snapshot_misses_commit :
    ¬ ∀ (tr : List (CommitStep Unit)) (s : CommitState Unit) (lsn : ℕ) (nodes : List (NodeRecord Unit))
        (chunks : List ChunkEntry) (cut : List ℕ),
      (commits Unit).Reach (.start {} Kv.empty) tr s → s.snap = .taken lsn nodes chunks cut →
      PlainSnapshot zeroText lsn nodes chunks →
      SnapshotRight zeroText s.wal lsn (takeSnapshot zeroText lsn nodes chunks) := by
  intro hall
  obtain ⟨nodes, chunks, hok, hn⟩ := hall racedTrace (snapState racedTrace) 1 [racedNode] [] []
    racedState_reach (by rfl) (plainSnapshot_raced (.inl rfl))
  have hinstall := installSnapshot_takeSnapshot (plainSnapshot_raced (.inl rfl))
  rw [hinstall] at hok
  obtain ⟨-, -, rfl⟩ : 1 = 1 ∧ _ = nodes ∧ _ = chunks := by simpa using hok
  have htable := hn 1 le_rfl (by decide)
  revert htable
  decide

end NimbusVault
