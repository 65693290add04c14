import Mathlib.Data.List.Perm.Subperm
import NimbusVault.Lib.Machine
import NimbusVault.Payload
import NimbusVault.StorageRpc

/-!
# PutChunk — the leader's write path

`putChunk` is the handler: it refuses (no leader, chunk in transition, too few nodes), writes the
data under the next version to the nodes that placement selected, and on a storage majority logs the
new entry.  Both ways to fail after the writes end in `rollback`, which deletes the chunk as a whole
at every node that acknowledged.  What the call cannot decide is its environment `PutEnv`: the
selected nodes, the fate of every RPC, and whether the metadata quorum answers.
-/

namespace NimbusVault

open Lib

/-! ### Placement -/

def placementCandidates (alive : List NodeEntry) (exclude : List Str) : List Str :=
  (alive.map NodeEntry.nodeId).filter (· ∉ exclude)

/-- What `select_nodes` may return: the front of some order of the candidates.  The random mode
returns any of these, the scoring mode one of them. -/
def SelectsNodes (n : ℤ) (alive : List NodeEntry) (exclude res : List Str) : Prop :=
  res.Subperm (placementCandidates alive exclude) ∧
    res.length = min n.toNat (placementCandidates alive exclude).length

instance (n : ℤ) (alive : List NodeEntry) (exclude res : List Str) :
    Decidable (SelectsNodes n alive exclude res) := inferInstanceAs (Decidable (_ ∧ _))

theorem SelectsNodes.mem_nodes {cl : Cluster} {n : ℤ} {exclude nodes : List Str}
    (h : SelectsNodes n cl.nodes exclude nodes) {x : Str} (hx : x ∈ nodes) :
    ∃ n ∈ cl.nodes, n.nodeId = x := by
  obtain ⟨hx', -⟩ := List.mem_filter.mp (h.1.subset hx)
  exact List.mem_map.mp hx'

/-! ### The storage writes -/

/-- The local variables of the write loop. -/
structure WriteLocals where
  replicaEntries : List Str := []
  successfulAddrs : List Str := []
  failedIds : Str := []
  deriving DecidableEq

/-- The loop's variables together with the stores it writes to. -/
structure WriteProgress extends WriteLocals where
  stores : Stores

/-- The address the loop writes to for a selected node. -/
def replicaAddress (alive : List NodeEntry) (n : Str) : Str :=
  resolveReplicaAddress alive (encodeReplicaTarget alive n)

theorem Cluster.replicaAddress_eq {cl : Cluster} {n : NodeEntry} (hn : n ∈ cl.nodes) :
    replicaAddress cl.nodes n.nodeId = n.address := by
  rw [replicaAddress, cl.encode_nodeId hn, (cl.wellNamed n hn).resolve]

/-- One round of the loop, for the node `x.1` when the write fares as `x.2`. -/
def putReplica (alive : List NodeEntry) (chunkId : Str) (version : UInt64) (data : Str)
    (p : WriteProgress) (x : Str × RpcFate) : WriteProgress :=
  let entry := encodeReplicaTarget alive x.1
  let addr := resolveReplicaAddress alive entry
  let (ok, stores) := writeChunkToReplica p.stores addr chunkId version data x.2
  { stores
    replicaEntries := p.replicaEntries ++ [entry]
    successfulAddrs := if ok then p.successfulAddrs ++ [addr] else p.successfulAddrs
    failedIds := if ok then p.failedIds else p.failedIds ++ extractNodeId entry ++ [';'] }

def storageWrites (alive : List NodeEntry) (ss : Stores) (chunkId : Str) (version : UInt64)
    (data : Str) (nodes : List (Str × RpcFate)) : WriteProgress :=
  nodes.foldl (putReplica alive chunkId version data) { stores := ss }

def WriteLocals.majorityNeeded (p : WriteLocals) : ℕ := p.replicaEntries.length / 2 + 1

/-- The error text when the storage majority is missing. -/
def WriteLocals.majorityError (p : WriteLocals) : Str :=
  if p.failedIds = [] then "storage majority unavailable".toList
  else "storage majority unavailable: ".toList ++ p.failedIds

/-- The whole-chunk deletes of a failed call; `executed` tells which nodes perform theirs. -/
def rollback (ss : Stores) (chunkId : Str) (executed : Str → Bool) (addrs : List Str) : Stores :=
  addrs.foldl (fun ss addr => deleteChunkFromReplica ss addr chunkId (executed addr)) ss

/-! ### The metadata write -/

/-- `MetaReplication::write` as a handler sees it, followed by `on_commit`: with a quorum the entry
is applied to the table, and `none` is the exception that the application may throw. -/
def metaWrite (t : ChunkTable) (e : WalEntry) (quorum : Bool) : Option (Bool × ChunkTable) :=
  if quorum then (applyWalEntry t e).map fun t' => (true, t') else some (false, t)

theorem metaWrite_true {t t' : ChunkTable} {e : WalEntry} {quorum : Bool}
    (h : metaWrite t e quorum = some (true, t')) : quorum = true ∧ applyWalEntry t e = some t' := by
  unfold metaWrite at h
  split_ifs at h with hq
  · obtain ⟨t'', ht, he⟩ := Option.map_eq_some_iff.mp h
    exact ⟨hq, ht.trans (congrArg some (Prod.mk.inj he).2)⟩
  · exact absurd (Prod.mk.inj (Option.some.inj h)).1 (by decide)

/-- The leader's term: `term_` starts at 1 and is never changed. -/
def leaderTerm : ℕ := 1

/-! ### The handler -/

structure PutChunkReq where
  chunkId : Str
  sizeBytes : UInt64
  desiredRf : Int32
  data : Str
  deriving DecidableEq

structure PutChunkResp where
  ok : Bool
  error : Str := []
  version : UInt64 := 0
  replicaSet : List Str := []
  deriving DecidableEq

/-- What happens to a call from outside. -/
structure PutEnv where
  nodes : List (Str × RpcFate)
  quorum : Bool
  deleteExecuted : Str → Bool

/-- The outcome of a call: the answer (`none` when the handler throws), the version it chose if it
got that far, and the state it leaves. -/
structure PutResult where
  resp : Option PutChunkResp
  chosen : Option UInt64
  chunkTable : ChunkTable
  stores : Stores

def isTransitioning (t : ChunkTable) (chunkId : Str) : Bool :=
  (t.get chunkId).any fun e => e.configState = .transitioning

def putPayload (req : PutChunkReq) (version : UInt64) (replicaEntries : List Str) : WalEntry :=
  ⟨.putChunk, leaderTerm,
    encodePutChunk req.chunkId req.sizeBytes req.desiredRf version replicaEntries⟩

/-- What follows the write loop: the storage majority, the metadata write, or a rollback. -/
def putWritten (t : ChunkTable) (req : PutChunkReq) (env : PutEnv) (version : UInt64)
    (p : WriteProgress) : PutResult :=
  let undone := rollback p.stores req.chunkId env.deleteExecuted p.successfulAddrs
  if p.successfulAddrs.length < p.majorityNeeded then
    ⟨some { ok := false, error := p.majorityError }, some version, t, undone⟩
  else match metaWrite t (putPayload req version p.replicaEntries) env.quorum with
    | none => ⟨none, some version, t, p.stores⟩
    | some (false, _) =>
      ⟨some { ok := false, error := "metadata quorum unavailable after storage write".toList },
        some version, t, undone⟩
    | some (true, t') =>
      ⟨some { ok := true, version, replicaSet := p.replicaEntries }, some version, t', p.stores⟩

def putChunk (leader : Bool) (alive : List NodeEntry) (t : ChunkTable) (ss : Stores)
    (req : PutChunkReq) (env : PutEnv) : PutResult :=
  if leader = false then
    ⟨some { ok := false, error := "NotLeader".toList }, none, t, ss⟩
  else if isTransitioning t req.chunkId then
    ⟨some { ok := false, error := "ChunkTransitioning".toList }, none, t, ss⟩
  else if (env.nodes.length : ℤ) < req.desiredRf.toInt then
    ⟨some { ok := false, error := "not enough nodes".toList }, none, t, ss⟩
  else
    let version := t.nextVersion req.chunkId
    putWritten t req env version (storageWrites alive ss req.chunkId version req.data env.nodes)

/-- The handler `DeleteChunk`: the storage nodes are not told. -/
def deleteChunk (t : ChunkTable) (chunkId : Str) (quorum : Bool) : Option (Bool × ChunkTable) :=
  metaWrite t ⟨.deleteChunk, leaderTerm, chunkId⟩ quorum

/-! ### What the loops leave behind -/

section Loops

variable {alive : List NodeEntry} {id id' d a : Str} {v w : UInt64} {p : WriteProgress}
  {nodes : List (Str × RpcFate)}

theorem putReplica_stores (x : Str × RpcFate) : (putReplica alive id v d p x).stores =
    (writeChunkToReplica p.stores (replicaAddress alive x.1) id v d x.2).2 := rfl

theorem putReplica_addrs (x : Str × RpcFate) : (putReplica alive id v d p x).successfulAddrs =
    if (writeChunkToReplica p.stores (replicaAddress alive x.1) id v d x.2).1 = true
      then p.successfulAddrs ++ [replicaAddress alive x.1] else p.successfulAddrs := rfl

theorem mem_putReplica_addrs {x : Str × RpcFate} :
    a ∈ (putReplica alive id v d p x).successfulAddrs ↔
      a ∈ p.successfulAddrs ∨ (x.2 = .answered ∧ a = replicaAddress alive x.1 ∧ a ≠ []) := by
  have hok := writeChunkToReplica_ok p.stores (replicaAddress alive x.1) id v d x.2
  rw [putReplica_addrs]
  split_ifs with h
  · obtain ⟨h1, h2⟩ := hok.mp h
    constructor
    · intro ha
      rcases List.mem_append.mp ha with ha | ha
      · exact .inl ha
      · rw [List.mem_singleton] at ha
        exact .inr ⟨h2, ha, ha ▸ h1⟩
    · rintro (ha | ⟨-, ha, -⟩)
      · exact List.mem_append_left _ ha
      · exact List.mem_append_right _ (List.mem_singleton.mpr ha)
  · refine ⟨.inl, ?_⟩
    rintro (ha | ⟨h2, ha, hne⟩)
    · exact ha
    · exact absurd (hok.mpr ⟨ha ▸ hne, h2⟩) h

/-- The addresses that acknowledged: those of the answered writes. -/
theorem mem_foldl_putReplica_addrs :
    a ∈ (nodes.foldl (putReplica alive id v d) p).successfulAddrs ↔
      a ∈ p.successfulAddrs ∨ ∃ x ∈ nodes, x.2 = .answered ∧ a = replicaAddress alive x.1 ∧ a ≠ [] := by
  induction nodes generalizing p with
  | nil => simp
  | cons x nodes ih =>
    rw [List.foldl_cons, ih, mem_putReplica_addrs]
    simp only [List.exists_mem_cons_iff, or_assoc]

theorem mem_storageWrites_addrs {ss : Stores} :
    a ∈ (storageWrites alive ss id v d nodes).successfulAddrs ↔
      ∃ x ∈ nodes, x.2 = .answered ∧ a = replicaAddress alive x.1 ∧ a ≠ [] := by
  rw [storageWrites, mem_foldl_putReplica_addrs]
  simp

/-- Each selected node acknowledges at most once. -/
theorem foldl_putReplica_addrs_sublist : (nodes.foldl (putReplica alive id v d) p).successfulAddrs.Sublist
    (p.successfulAddrs ++ nodes.map fun x => replicaAddress alive x.1) := by
  induction nodes generalizing p with
  | nil => simp
  | cons x nodes ih =>
    refine (ih (p := putReplica alive id v d p x)).trans ?_
    rw [List.map_cons, List.append_cons, putReplica_addrs]
    refine List.Sublist.append_right ?_ _
    split_ifs
    · exact List.Sublist.refl _
    · exact List.sublist_append_left _ _

/-- With every write answered, every node acknowledges. -/
theorem foldl_putReplica_addrs_length
    (h : ∀ x ∈ nodes, x.2 = .answered ∧ replicaAddress alive x.1 ≠ []) :
    (nodes.foldl (putReplica alive id v d) p).successfulAddrs.length =
      p.successfulAddrs.length + nodes.length := by
  induction nodes generalizing p with
  | nil => rfl
  | cons x nodes ih =>
    obtain ⟨h1, h2⟩ := h x (by simp)
    have hok := (writeChunkToReplica_ok p.stores _ id v d _).mpr ⟨h2, h1⟩
    rw [List.foldl_cons, ih fun y hy => h y (by simp [hy]), putReplica_addrs, if_pos hok]
    simp only [List.length_append, List.length_cons, List.length_nil]
    omega

/-- **What the write loop stores**: the data under the chosen version, where a write arrived. -/
theorem stored_foldl_putReplica :
    ((nodes.foldl (putReplica alive id v d) p).stores a).stored id' w =
      if (id' = id ∧ w = v) ∧ a ≠ [] ∧ ∃ x ∈ nodes, x.2 ≠ .unreached ∧ replicaAddress alive x.1 = a
        then some d else (p.stores a).stored id' w := by
  induction nodes generalizing p with
  | nil => simp
  | cons x nodes ih =>
    rw [List.foldl_cons, ih, putReplica_stores, writeChunkToReplica_apply]
    simp only [List.exists_mem_cons_iff]
    by_cases hid : id' = id ∧ w = v
    · obtain ⟨rfl, rfl⟩ := hid
      by_cases ha : a = []
      · simp [ha]
      by_cases hr : ∃ y ∈ nodes, y.2 ≠ .unreached ∧ replicaAddress alive y.1 = a
      · rw [if_pos ⟨⟨rfl, rfl⟩, ha, hr⟩, if_pos ⟨⟨rfl, rfl⟩, ha, .inr hr⟩]
      · rw [if_neg fun h => hr h.2.2]
        by_cases hx : x.2 ≠ .unreached ∧ replicaAddress alive x.1 = a
        · rw [if_pos ⟨hx.1, hx.2, ha⟩, if_pos ⟨⟨rfl, rfl⟩, ha, .inl hx⟩, ChunkStore.stored_write_self]
        · rw [if_neg fun h => hx ⟨h.1, h.2.1⟩, if_neg fun h => h.2.2.elim hx hr]
    · simp only [hid, false_and, if_false]
      split_ifs
      · rw [ChunkStore.stored_write, if_neg hid]
      · rfl

/-- What holds of a store and survives the call's write survives the loop. -/
theorem foldl_putReplica_invariant {P : ChunkStore → Prop} (hP : ∀ st, P st → P (st.write id v d))
    (h : P (p.stores a)) : P ((nodes.foldl (putReplica alive id v d) p).stores a) := by
  induction nodes generalizing p with
  | nil => exact h
  | cons x nodes ih =>
    refine ih ?_
    rw [putReplica_stores, writeChunkToReplica_apply]
    split_ifs
    · exact hP _ h
    · exact h

theorem foldl_putReplica_entries : (nodes.foldl (putReplica alive id v d) p).replicaEntries =
    p.replicaEntries ++ nodes.map fun x => encodeReplicaTarget alive x.1 := by
  induction nodes generalizing p with
  | nil => simp
  | cons x nodes ih =>
    rw [List.foldl_cons, ih]
    show (p.replicaEntries ++ [encodeReplicaTarget alive x.1]) ++ _ = _
    simp

/-- A rollback empties the chunk at every address whose delete is executed, and only there. -/
theorem stored_rollback {ss : Stores} {b : Str → Bool} {addrs : List Str} (hne : ∀ a ∈ addrs, a ≠ []) :
    (rollback ss id b addrs a).stored id w =
      if a ∈ addrs ∧ b a = true then none else (ss a).stored id w := by
  unfold rollback
  induction addrs generalizing ss with
  | nil => simp
  | cons x addrs ih =>
    rw [List.foldl_cons, ih fun a ha => hne a (List.mem_cons_of_mem _ ha), deleteChunkFromReplica_apply]
    by_cases hx : x = a
    · subst hx
      have ha : x ≠ [] := hne x List.mem_cons_self
      by_cases hb : b x = true
      · simp [hb, ha]
      · simp [hb]
    · have hx' : a ≠ x := Ne.symm hx
      simp [hx, hx']

end Loops

/-! ### What a call can do -/

/-- The call is not turned away before the storage writes. -/
def PutAdmitted (leader : Bool) (t : ChunkTable) (req : PutChunkReq) (env : PutEnv) : Prop :=
  leader = true ∧ isTransitioning t req.chunkId = false ∧
    req.desiredRf.toInt ≤ (env.nodes.length : ℤ)

/-- The storage phase of an admitted call. -/
def putWrites (alive : List NodeEntry) (t : ChunkTable) (ss : Stores) (req : PutChunkReq)
    (env : PutEnv) : WriteProgress :=
  storageWrites alive ss req.chunkId (t.nextVersion req.chunkId) req.data env.nodes

section Cases

variable {leader : Bool} {alive : List NodeEntry} {t : ChunkTable} {ss : Stores} {req : PutChunkReq}
  {env : PutEnv}

theorem putChunk_refused (alive : List NodeEntry) (ss : Stores) (h : ¬ PutAdmitted leader t req env) :
    ∃ error, putChunk leader alive t ss req env = ⟨some { ok := false, error }, none, t, ss⟩ := by
  unfold putChunk
  split_ifs with h1 h2 h3
  · exact ⟨_, rfl⟩
  · exact ⟨_, rfl⟩
  · exact ⟨_, rfl⟩
  · exact absurd ⟨by simpa using h1, by simpa using h2, not_lt.mp h3⟩ h

theorem putChunk_admitted (h : PutAdmitted leader t req env) :
    putChunk leader alive t ss req env =
      putWritten t req env (t.nextVersion req.chunkId) (putWrites alive t ss req env) := by
  obtain ⟨h1, h2, h3⟩ := h
  rw [putChunk, if_neg (by simp [h1]), if_neg (by simp [h2]), if_neg (not_lt.mpr h3)]
  rfl

variable {v : UInt64} {p : WriteProgress} {r : PutChunkResp}

/-- An admitted call that answers no keeps the table and rolls the writes back. -/
theorem putWritten_failed (hr : (putWritten t req env v p).resp = some r) (hok : r.ok = false) :
    (putWritten t req env v p).chosen = some v ∧ (putWritten t req env v p).chunkTable = t ∧
      (putWritten t req env v p).stores =
        rollback p.stores req.chunkId env.deleteExecuted p.successfulAddrs := by
  unfold putWritten at hr ⊢
  by_cases hm : p.successfulAddrs.length < p.majorityNeeded
  · simp only [if_pos hm, and_self]
  · simp only [if_neg hm] at hr ⊢
    cases hw : metaWrite t (putPayload req v p.replicaEntries) env.quorum with
    | none => rw [hw] at hr; simp at hr
    | some x =>
      obtain ⟨_ | _, t'⟩ := x
      · exact ⟨rfl, rfl, rfl⟩
      · rw [hw] at hr
        obtain rfl : _ = r := Option.some.inj hr
        simp at hok

/-- An admitted call that answers yes reached a majority, and the table is what the logged entry
makes of it. -/
theorem putWritten_ok (hr : (putWritten t req env v p).resp = some r) (hok : r.ok = true) :
    p.majorityNeeded ≤ p.successfulAddrs.length ∧
      r = { ok := true, version := v, replicaSet := p.replicaEntries } ∧
      applyWalEntry t (putPayload req v p.replicaEntries) =
        some (putWritten t req env v p).chunkTable ∧
      (putWritten t req env v p).stores = p.stores := by
  unfold putWritten at hr ⊢
  by_cases hm : p.successfulAddrs.length < p.majorityNeeded
  · simp only [if_pos hm] at hr
    obtain rfl : _ = r := Option.some.inj hr
    simp at hok
  · simp only [if_neg hm] at hr ⊢
    refine ⟨not_lt.mp hm, ?_⟩
    cases hw : metaWrite t (putPayload req v p.replicaEntries) env.quorum with
    | none => rw [hw] at hr; simp at hr
    | some x =>
      obtain ⟨_ | _, t'⟩ := x
      · rw [hw] at hr
        obtain rfl : _ = r := Option.some.inj hr
        simp at hok
      · rw [hw] at hr
        exact ⟨(Option.some.inj hr).symm, (metaWrite_true hw).2, rfl⟩

end Cases

end NimbusVault
