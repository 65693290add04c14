import Mathlib.Logic.Function.Basic
import NimbusVault.ChunkStore

/-!
# StorageRpc — storage nodes behind their addresses

`Stores` gives the chunk store of the node that listens at an address.  An RPC to a node has a fate:
it is `answered`, or executed with the answer lost, or it never reaches the node (a request that the
node refuses or cannot execute is no different from that).  `writeChunkToReplica` and
`deleteChunkFromReplica` are the leader's calls; both skip an empty address.
-/

namespace NimbusVault

open Lib

abbrev Stores := Str → ChunkStore

/-- What became of an RPC. -/
inductive RpcFate
  | answered
  | answerLost
  | unreached
  deriving DecidableEq, Repr

structure ReadChunkResp where
  ok : Bool
  error : Str := []
  data : Str := []
  version : UInt64 := 0
  deriving DecidableEq

/-- The handler `ReadChunk`. -/
def readChunk (st : ChunkStore) (chunkId : Str) (minVersion : UInt64) : ReadChunkResp :=
  match st.read chunkId minVersion with
  | none => { ok := false, error := "version too old or chunk missing".toList }
  | some (data, version) =>
    if version < minVersion then { ok := false, error := "version too old".toList }
    else { ok := true, data, version }

/-- Whether the caller sees the write succeed, and the stores afterwards. -/
def writeChunkToReplica (ss : Stores) (addr chunkId : Str) (version : UInt64) (data : Str)
    (fate : RpcFate) : Bool × Stores :=
  if addr = [] then (false, ss)
  else match fate with
    | .answered => (true, Function.update ss addr ((ss addr).write chunkId version data))
    | .answerLost => (false, Function.update ss addr ((ss addr).write chunkId version data))
    | .unreached => (false, ss)

/-- The answer is ignored; `executed` tells whether the node performed the delete. -/
def deleteChunkFromReplica (ss : Stores) (addr chunkId : Str) (executed : Bool) : Stores :=
  if addr = [] then ss
  else if executed then Function.update ss addr ((ss addr).remove chunkId) else ss

section

variable {ss : Stores} {addr a id id' d : Str} {v w minV : UInt64} {fate : RpcFate} {b : Bool}

/-- A successful read is one of the chunk store. -/
theorem readChunk_ok {st : ChunkStore} (h : (readChunk st id minV).ok = true) :
    st.read id minV = some ((readChunk st id minV).data, (readChunk st id minV).version) := by
  unfold readChunk at h ⊢
  split at h
  · simp at h
  · rename_i data version hr
    split_ifs at h with hlt
    simp only [hr, if_neg hlt]

theorem readChunk_of_read {st : ChunkStore} (h : st.read id minV = some (d, v)) (hv : minV ≤ v) :
    readChunk st id minV = { ok := true, data := d, version := v } := by
  simp only [readChunk, h, if_neg (UInt64.not_lt.mpr hv)]

/-- The store at each address after a write. -/
theorem writeChunkToReplica_apply : (writeChunkToReplica ss addr id v d fate).2 a =
    if fate ≠ .unreached ∧ addr = a ∧ a ≠ [] then (ss a).write id v d else ss a := by
  unfold writeChunkToReplica
  by_cases h : addr = a
  · subst h
    by_cases ha : addr = []
    · simp [ha]
    · cases fate <;> simp [ha]
  · have hne : a ≠ addr := Ne.symm h
    by_cases ha : addr = []
    · simp [ha, ha ▸ h]
    · cases fate <;> simp [ha, h, Function.update_of_ne hne]

theorem writeChunkToReplica_ok (ss : Stores) (addr id : Str) (v : UInt64) (d : Str) (fate : RpcFate) :
    (writeChunkToReplica ss addr id v d fate).1 = true ↔ addr ≠ [] ∧ fate = .answered := by
  unfold writeChunkToReplica
  by_cases ha : addr = []
  · simp [ha]
  · cases fate <;> simp [ha]

theorem deleteChunkFromReplica_apply : deleteChunkFromReplica ss addr id b a =
    if b = true ∧ addr = a ∧ a ≠ [] then (ss a).remove id else ss a := by
  unfold deleteChunkFromReplica
  by_cases h : addr = a
  · subst h
    by_cases ha : addr = []
    · simp [ha]
    · cases b <;> simp [ha]
  · have hne : a ≠ addr := Ne.symm h
    by_cases ha : addr = []
    · simp [ha, ha ▸ h]
    · cases b <;> simp [ha, h, Function.update_of_ne hne]

end

end NimbusVault
