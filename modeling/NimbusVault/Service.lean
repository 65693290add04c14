import NimbusVault.PutChunk

/-!
# Service — the leader's calls, one after the other

The state of the leader and of the storage nodes, and the calls that change it: heartbeats, puts and
deletes.  On this level a call is one step.  `putChunk_harmless_iff` says exactly when a put that
answers no has left everything but its own version alone: when no node whose rollback delete is
executed held another version of the chunk.
-/

namespace NimbusVault

open Lib

structure ServiceState where
  chunkTable : ChunkTable := Kv.empty
  nodeTable : NodeTable := Kv.empty
  stores : Stores := fun _ => ChunkStore.empty

/-- What `apply_heartbeat` does to a node's id, address and liveness. -/
def applyHeartbeat (nt : NodeTable) (nodeId address : Str) : NodeTable :=
  nt.put nodeId { nodeId, address }

inductive Call
  | heartbeat (nodeId address : Str)
  | put (req : PutChunkReq) (env : PutEnv)
  | delete (chunkId : Str) (quorum : Bool)

namespace ServiceState

def alive (s : ServiceState) : List NodeEntry := getAliveNodes s.nodeTable

/-- The put handler on a leader. -/
def put (s : ServiceState) (req : PutChunkReq) (env : PutEnv) : PutResult :=
  putChunk true s.alive s.chunkTable s.stores req env

end ServiceState

/-- The calls of a leader.  A handler that throws leaves the table alone. -/
def service : Machine ServiceState Call where
  guard s
    | .heartbeat nodeId address => NodeEntry.WellNamed { nodeId, address }
    | .put req env => SelectsNodes req.desiredRf.toInt s.alive [] (env.nodes.map Prod.fst)
    | .delete _ _ => True
  next s
    | .heartbeat nodeId address => { s with nodeTable := applyHeartbeat s.nodeTable nodeId address }
    | .put req env =>
      { s with chunkTable := (s.put req env).chunkTable, stores := (s.put req env).stores }
    | .delete chunkId quorum =>
      { s with chunkTable := (deleteChunk s.chunkTable chunkId quorum).elim s.chunkTable Prod.snd }

instance (s : ServiceState) : ∀ c, Decidable (service.guard s c)
  | .heartbeat _ _ => inferInstanceAs (Decidable (NodeEntry.WellNamed _))
  | .put _ _ => inferInstanceAs (Decidable (SelectsNodes _ _ _ _))
  | .delete _ _ => inferInstanceAs (Decidable True)

/-! ### Failed puts -/

/-- The table is unchanged, and so is every stored version of the chunk but the one the call chose.
-/
def PutResult.Harmless (r : PutResult) (s : ServiceState) (chunkId : Str) : Prop :=
  r.chunkTable = s.chunkTable ∧ ∀ addr w, r.chosen ≠ some w →
    (r.stores addr).stored chunkId w = (s.stores addr).stored chunkId w

/-- No node that acknowledges its write and then executes the rollback's delete holds another
version of the chunk. -/
def RollbackSafe (s : ServiceState) (req : PutChunkReq) (env : PutEnv) : Prop :=
  PutAdmitted true s.chunkTable req env → ∀ x ∈ env.nodes, x.2 = .answered →
    replicaAddress s.alive x.1 ≠ [] → env.deleteExecuted (replicaAddress s.alive x.1) = true →
      ∀ w, w ≠ s.chunkTable.nextVersion req.chunkId →
        (s.stores (replicaAddress s.alive x.1)).stored req.chunkId w = none

section Failure

variable {s : ServiceState} {req : PutChunkReq} {env : PutEnv} {addr : Str} {w : UInt64}

theorem mem_putWrites_addrs (s : ServiceState) (req : PutChunkReq) (env : PutEnv) (addr : Str) :
    addr ∈ (putWrites s.alive s.chunkTable s.stores req env).successfulAddrs ↔
      ∃ x ∈ env.nodes, x.2 = .answered ∧ addr = replicaAddress s.alive x.1 ∧ addr ≠ [] :=
  mem_storageWrites_addrs

/-- What an admitted call that answers no leaves of the other versions. -/
theorem stored_put_failed (hadm : PutAdmitted true s.chunkTable req env) {r : PutChunkResp}
    (hr : (s.put req env).resp = some r) (hok : r.ok = false)
    (hw : w ≠ s.chunkTable.nextVersion req.chunkId) :
    ((s.put req env).stores addr).stored req.chunkId w =
      if addr ∈ (putWrites s.alive s.chunkTable s.stores req env).successfulAddrs ∧
          env.deleteExecuted addr = true
        then none else (s.stores addr).stored req.chunkId w := by
  unfold ServiceState.put at hr ⊢
  rw [putChunk_admitted hadm] at hr ⊢
  obtain ⟨-, -, hst⟩ := putWritten_failed hr hok
  have hne : ∀ a ∈ (putWrites s.alive s.chunkTable s.stores req env).successfulAddrs, a ≠ [] := by
    intro a ha
    obtain ⟨x, -, -, -, h⟩ := (mem_putWrites_addrs s req env a).mp ha
    exact h
  rw [hst, stored_rollback hne]
  split_ifs
  · rfl
  · exact stored_foldl_putReplica.trans (if_neg fun h => hw h.1.2)

/-- **A failed put is harmless exactly when its rollback has nothing else to delete.** -/
theorem putChunk_harmless_iff {r : PutChunkResp} (hr : (s.put req env).resp = some r)
    (hok : r.ok = false) : (s.put req env).Harmless s req.chunkId ↔ RollbackSafe s req env := by
  by_cases hadm : PutAdmitted true s.chunkTable req env
  · have hres : (s.put req env).chosen = some (s.chunkTable.nextVersion req.chunkId) ∧
        (s.put req env).chunkTable = s.chunkTable := by
      unfold ServiceState.put at hr ⊢
      rw [putChunk_admitted hadm] at hr ⊢
      obtain ⟨h1, h2, -⟩ := putWritten_failed hr hok
      exact ⟨h1, h2⟩
    constructor
    · rintro ⟨-, hkeep⟩ - x hx hans hne hexec w hw
      have hch : (s.put req env).chosen ≠ some w := by
        rw [hres.1]
        intro h
        exact hw (Option.some.inj h).symm
      have hin := (mem_putWrites_addrs s req env _).mpr ⟨x, hx, hans, rfl, hne⟩
      rw [← hkeep _ w hch, stored_put_failed hadm hr hok hw, if_pos ⟨hin, hexec⟩]
    · intro hsafe
      refine ⟨hres.2, fun addr w hch => ?_⟩
      have hw : w ≠ s.chunkTable.nextVersion req.chunkId := by
        rintro rfl
        exact hch hres.1
      rw [stored_put_failed hadm hr hok hw]
      split_ifs with hdel
      · obtain ⟨x, hx, hans, rfl, hne⟩ := (mem_putWrites_addrs s req env addr).mp hdel.1
        exact (hsafe hadm x hx hans hne hdel.2 w hw).symm
      · rfl
  · obtain ⟨error, he⟩ := putChunk_refused s.alive s.stores hadm
    unfold ServiceState.put
    rw [he]
    exact ⟨fun _ h => absurd h hadm, fun _ => ⟨rfl, fun _ _ _ => rfl⟩⟩

/-! One node `n`, one chunk `c` at version 1, and a second put whose metadata write finds no quorum. -/

def soloReq (data : Str) : PutChunkReq := ⟨['c'], 1, 1, data⟩

def soloEnv (quorum : Bool) : PutEnv := ⟨[(['n'], .answered)], quorum, fun _ => true⟩

def soloRun : List Call := [.heartbeat ['n'] ['a'], .put (soloReq ['x']) (soloEnv true)]

def soloState : ServiceState := service.final (fun _ _ => True) {} soloRun

theorem putChunk_harmless_iff_solo :
    (soloState.put (soloReq ['y']) (soloEnv false)).Harmless soloState ['c'] ↔
      RollbackSafe soloState (soloReq ['y']) (soloEnv false) :=
  putChunk_harmless_iff rfl (by decide +kernel)

theorem soloState_reach : service.Reach {} soloRun soloState := Machine.run_final (by decide +kernel)

/-- A reachable state and a put that answers no and takes the committed version with it. -/
theorem failed_put_loses_version : ¬ ∀ tr s, service.Reach {} tr s → ∀ req env,
    SelectsNodes req.desiredRf.toInt s.alive [] (env.nodes.map Prod.fst) →
      ∀ r, (s.put req env).resp = some r → r.ok = false →
        (s.put req env).Harmless s req.chunkId := by
  intro h
  have hkeep := (h soloRun soloState soloState_reach (soloReq ['y']) (soloEnv false)
    (by decide +kernel) _ rfl (by decide +kernel)).2 ['a'] 1 (by decide +kernel)
  revert hkeep
  decide +kernel

end Failure

end NimbusVault
