import NimbusVault.LogTable

/-!
# Recovery — cleaning up after uncommitted puts

A leader starts by replaying the committed prefix of its log into the chunk table; then
`cleanupUncommittedPuts` goes through the tail behind the mark and, for every PUT in it, has each
replica the entry lists delete the chunk, with all its versions.  `cleanup_spares_iff` says when no
chunk of the table is hit: when every chunk that the tail puts is one the committed prefix has never
put, or has deleted since.
-/

namespace NimbusVault

open Lib

/-- The chunk id and the replicas of a PUT entry with at least five parts. -/
def putReplicas (e : WalEntry) : Option (Str × List Str) :=
  if e.type = .putChunk then
    match splitNonempty e.payload '|' with
    | p0 :: _ :: _ :: _ :: p4 :: _ => some (p0, splitNonempty p4 ',')
    | _ => none
  else none

/-- The calls of `delete_fn` in order, an address and a chunk id each. -/
def cleanupUncommittedPuts (w : Wal) (alive : List NodeEntry) : List (Str × Str) :=
  (w.records.drop w.committed).flatMap fun e =>
    match putReplicas e with
    | none => []
    | some (chunkId, replicas) => replicas.map fun r => (resolveReplicaAddress alive r, chunkId)

/-- No uncommitted PUT that lists a replica is about a chunk that the committed prefix put and did
not delete afterwards. -/
def CleanupSafe (w : Wal) : Prop :=
  ∀ e ∈ w.records.drop w.committed, ∀ chunkId replicas, putReplicas e = some (chunkId, replicas) →
    replicas ≠ [] → ∀ op ∈ w.lastReset (List.range' 1 w.committed) chunkId, op = .delete chunkId

section Cleanup

variable {w : Wal} {t : ChunkTable} {c : Str}

theorem mem_cleanup {alive : List NodeEntry} {call : Str × Str} :
    call ∈ cleanupUncommittedPuts w alive ↔ ∃ e ∈ w.records.drop w.committed, ∃ replicas,
      putReplicas e = some (call.2, replicas) ∧
        ∃ r ∈ replicas, resolveReplicaAddress alive r = call.1 := by
  rw [cleanupUncommittedPuts, List.mem_flatMap]
  refine exists_congr fun e => and_congr_right fun _ => ?_
  cases putReplicas e with
  | none => simp
  | some p =>
    obtain ⟨chunkId, replicas⟩ := p
    constructor
    · intro h
      obtain ⟨r, hr, rfl⟩ := List.mem_map.mp h
      exact ⟨replicas, rfl, r, hr, rfl⟩
    · rintro ⟨replicas', h, r, hr, haddr⟩
      obtain ⟨rfl, rfl⟩ := Prod.mk.inj (Option.some.inj h)
      exact List.mem_map.mpr ⟨r, hr, Prod.ext haddr rfl⟩

/-- **Which chunks the replayed prefix holds.** -/
theorem get_replay_eq_none_iff (ht : w.replay Kv.empty = some t) (hle : w.committed ≤ w.lastLogIndex) :
    t.get c = none ↔ ∀ op ∈ w.lastReset (List.range' 1 w.committed) c, op = .delete c := by
  obtain ⟨-, rfl⟩ := Wal.replay_eq_some_iff.mp ht
  rw [← Wal.foldl_applyAt hle, Wal.get_foldl_applyAt, Wal.lastEntry_eq_none_iff]

/-- **When the cleanup spares every chunk of the table.** -/
theorem cleanup_spares_iff (alive : List NodeEntry) (ht : w.replay Kv.empty = some t) :
    (∀ call ∈ cleanupUncommittedPuts w alive, t.get call.2 = none) ↔ CleanupSafe w := by
  have hle : ∀ e ∈ w.records.drop w.committed, w.committed ≤ w.lastLogIndex := by
    intro e he
    by_contra hc
    have hnil : w.records.drop w.committed = [] := List.drop_eq_nil_of_le (Nat.le_of_not_ge hc)
    simp [hnil] at he
  constructor
  · intro h e he chunkId replicas hp hne
    obtain ⟨r, rs, rfl⟩ := List.exists_cons_of_ne_nil hne
    have hcall := h (resolveReplicaAddress alive r, chunkId)
      (mem_cleanup.mpr ⟨e, he, _, hp, r, List.mem_cons_self, rfl⟩)
    exact (get_replay_eq_none_iff ht (hle e he)).mp hcall
  · intro h call hcall
    obtain ⟨e, he, replicas, hp, r, hr, -⟩ := mem_cleanup.mp hcall
    exact (get_replay_eq_none_iff ht (hle e he)).mpr
      (h e he _ _ hp (List.ne_nil_of_mem hr))

/-- Two puts of the chunk `c`; only the first is committed. -/
def overwriteWal : Wal where
  records :=
    [⟨.putChunk, 1, "c|1|1|1|n=a,".toList⟩, ⟨.putChunk, 1, "c|1|1|2|n=a,".toList⟩]
  committed := 1

def overwriteTable : ChunkTable := (overwriteWal.replay Kv.empty).getD Kv.empty

theorem cleanup_spares_iff_overwrite :
    (∀ call ∈ cleanupUncommittedPuts overwriteWal [], overwriteTable.get call.2 = none) ↔
      CleanupSafe overwriteWal :=
  cleanup_spares_iff [] (by decide +kernel)

/-- The uncommitted overwrite takes the committed chunk with it. -/
theorem cleanup_deletes_committed : ¬ ∀ w t alive, w.replay Kv.empty = some t →
    ∀ call ∈ cleanupUncommittedPuts w alive, t.get call.2 = none := by
  intro h
  have hget := h overwriteWal overwriteTable [] (by decide +kernel) ("a".toList, "c".toList)
    (by decide +kernel)
  revert hget
  decide +kernel

end Cleanup

end NimbusVault
