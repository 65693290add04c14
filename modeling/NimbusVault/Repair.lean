import NimbusVault.Client
import NimbusVault.LogTable
import NimbusVault.Race

/-!
# Repair — the repair loops of the storage nodes

Every storage node runs two loops.  `StatsReporter::run_once` sends a heartbeat (`beat`: the leader
computes the chunks whose replica set names the node; `hear`: the answer arrives or is lost) and
keeps the answer as its assignment list.  `ReplicaRepair::run_once` works on the list it finds at
its start: it brings every assigned chunk up to the leader's version (`info`, `compare`, `fetch`,
`store`), then lists its own chunks (`scan`) and removes those that the list lacks (`remove`).
`RepairState.step` interleaves all this with the puts and reconfigurations of `Race`, on any chunks.
The ghost `applied` is the sequence of table operations so far, and an assignment remembers how many
of them the leader had applied when it computed the list.
-/

namespace NimbusVault

open Lib

/-- The identity of a storage node. -/
structure NodeConfig where
  nodeId : Str
  address : Str
  deriving DecidableEq

/-! ### What an action writes to the log -/

def RaceStep.index : RaceStep → ℕ
  | .check i _ => i
  | .place i _ => i
  | .write i _ => i
  | .log i _ => i
  | .undo i _ => i
  | .begin j _ _ _ _ => j
  | .start j _ => j
  | .fetch j _ => j
  | .copy j _ => j
  | .copied j => j
  | .verify j _ => j
  | .commit j _ => j

/-- The entry that an action brings to the metadata quorum. -/
def RaceState.logged (c : Str) (s : RaceState) : RaceStep → Option WalEntry
  | .log i true =>
    match s.puts i with
    | some (.writing req v l []) =>
      if l.successfulAddrs.length < l.majorityNeeded then none
      else some (putPayload req v l.replicaEntries)
    | _ => none
  | .start j true =>
    match s.reconfigs j with
    | some ⟨old, _, new, .targeted⟩ => some (startPayload c old new)
    | _ => none
  | .commit j true =>
    match s.reconfigs j with
    | some ⟨_, _, new, .verifying _ []⟩ => some (commitPayload c new)
    | _ => none
  | _ => none

/-- The table operation of an action. -/
def RaceState.loggedOp (c : Str) (s : RaceState) (a : RaceStep) : Option TableOp :=
  (s.logged c a).bind WalEntry.op

/-! ### The loops of a storage node -/

/-- The ids that the leader sent, and (ghost) how many table operations it had applied before. -/
structure Assignment where
  ids : List Str
  seen : ℕ
  deriving DecidableEq

/-- How far a repair pass has got; the order of the chunks is that of a hash set. -/
inductive RepairPhase
  | syncing (todo : List Str)
  | comparing (todo : List Str) (chunkId : Str) (target : UInt64) (replicas : List Str)
  | fetching (todo : List Str) (chunkId : Str) (target : UInt64) (replicas : List Str)
  | storing (todo : List Str) (chunkId : Str) (version : UInt64) (data : Str)
  | removing (todo : List Str)

/-- A pass works on the list that it found at its start, which was not empty. -/
structure RepairPass where
  assignment : Assignment
  begun : assignment.ids ≠ []
  phase : RepairPhase

/-- A node's answer under way, its latest assignment list, and its running pass. -/
structure NodeProc where
  answer : Option Assignment := none
  assigned : Option Assignment := none
  pass : Option RepairPass := none

structure RepairState where
  race : RaceState
  applied : List TableOp := []
  procs : NodeConfig → NodeProc := fun _ => {}

inductive RepairStep
  | race (cl : Cluster) (a : RaceStep)
  | beat (n : NodeConfig) (quorum : Bool)
  | hear (n : NodeConfig) (ok : Bool)
  | begin (n : NodeConfig) (order : List Str)
  | info (n : NodeConfig) (alive : List NodeEntry) (answered : Bool)
  | compare (n : NodeConfig)
  | fetch (n : NodeConfig) (fate : RpcFate)
  | store (n : NodeConfig)
  | scan (n : NodeConfig) (order : List Str)
  | remove (n : NodeConfig)
  | finish (n : NodeConfig)

/-- The loop of `NodeHeartbeat` over the chunks. -/
def assignedChunkIds (t : ChunkTable) (nodeId : Str) : List Str :=
  ((getChunks t).filter fun e => nodeId ∈ e.replicaSet.map extractNodeId).map ChunkEntry.chunkId

def parseReplicaEndpoint (entry : Str) : Option (Str × Str) :=
  match splitEntry entry with
  | none => some (entry, [])
  | some (nodeId, address) => if nodeId = [] then none else some (nodeId, address)

/-- The peer of a replica entry: neither the node itself nor without an address. -/
def repairPeer (n : NodeConfig) (replica : Str) : Option Str :=
  ((parseReplicaEndpoint replica).filter fun p =>
    p.2 ≠ [] ∧ ¬ (p.1 = n.nodeId ∨ p.2 = n.address)).map Prod.snd

/-- The stream of a `FetchChunk`, its pieces put together. -/
def fetchFromPeer (ss : Stores) (peerAddr chunkId : Str) (target : UInt64) (fate : RpcFate) :
    Option (Str × UInt64) :=
  if fate = .answered then ((ss peerAddr).read chunkId target).filter fun x => ¬ x.2 < target else none

namespace RepairState

def setProc (s : RepairState) (n : NodeConfig) (p : NodeProc) : RepairState :=
  { s with procs := Function.update s.procs n p }

def setPass (s : RepairState) (n : NodeConfig) (pass : Option RepairPass) : RepairState :=
  s.setProc n { s.procs n with pass }

def setStore (s : RepairState) (addr : Str) (st : ChunkStore) : RepairState :=
  { s with race := { s.race with stores := Function.update s.race.stores addr st } }

/-- `chunkOf` gives the chunk of each put and each reconfiguration. -/
def step (chunkOf : ℕ → Str) (s : RepairState) : RepairStep → Option RepairState
  | .race cl a =>
    (s.race.step cl (chunkOf a.index) a).map fun r =>
      { s with race := r, applied := s.applied ++ (s.race.loggedOp (chunkOf a.index) a).toList }
  | .beat n quorum =>
    match (s.procs n).answer with
    | some _ => none
    | none =>
      -- without a quorum the answer is empty, and its status is OK all the same
      let ids := if quorum then assignedChunkIds s.race.chunkTable n.nodeId else []
      some (s.setProc n { s.procs n with answer := some ⟨ids, s.applied.length⟩ })
  | .hear n ok =>
    match (s.procs n).answer with
    | none => none
    | some a => some (s.setProc n { s.procs n with
        answer := none, assigned := if ok then some a else (s.procs n).assigned })
  | .begin n order =>
    match (s.procs n).pass, (s.procs n).assigned with
    | none, some a =>
      if h : a.ids ≠ [] then
        if order.Perm a.ids.dedup then some (s.setPass n (some ⟨a, h, .syncing order⟩)) else none
      else none
    | _, _ => none
  | .info n alive answered =>
    match (s.procs n).pass with
    | some ⟨a, h, .syncing (c :: todo)⟩ =>
      match getChunkInfo answered alive s.race.chunkTable c with
      | .error _ => some (s.setPass n (some ⟨a, h, .syncing todo⟩))
      | .ok e => some (s.setPass n (some ⟨a, h, .comparing todo c e.version e.replicaSet⟩))
    | _ => none
  | .compare n =>
    match (s.procs n).pass with
    | some ⟨a, h, .comparing todo c target replicas⟩ =>
      let phase := if target ≤ (s.race.stores n.address).latestVersion c then .syncing todo
        else .fetching todo c target replicas
      some (s.setPass n (some ⟨a, h, phase⟩))
    | _ => none
  | .fetch n fate =>
    match (s.procs n).pass with
    | some ⟨a, h, .fetching todo _ _ []⟩ => some (s.setPass n (some ⟨a, h, .syncing todo⟩))
    | some ⟨a, h, .fetching todo c target (r :: replicas)⟩ =>
      match (repairPeer n r).bind fun addr => fetchFromPeer s.race.stores addr c target fate with
      | none => some (s.setPass n (some ⟨a, h, .fetching todo c target replicas⟩))
      | some (data, version) => some (s.setPass n (some ⟨a, h, .storing todo c version data⟩))
    | _ => none
  | .store n =>
    match (s.procs n).pass with
    | some ⟨a, h, .storing todo c version data⟩ =>
      some ((s.setPass n (some ⟨a, h, .syncing todo⟩)).setStore n.address
        ((s.race.stores n.address).write c version data))
    | _ => none
  | .scan n order =>
    match (s.procs n).pass with
    | some ⟨a, h, .syncing []⟩ =>
      if order.Perm (s.race.stores n.address).listChunkIds then
        some (s.setPass n (some ⟨a, h, .removing order⟩)) else none
    | _ => none
  | .remove n =>
    match (s.procs n).pass with
    | some ⟨a, h, .removing (d :: todo)⟩ =>
      let s' := s.setPass n (some ⟨a, h, .removing todo⟩)
      if d ∈ a.ids then some s' else some (s'.setStore n.address ((s.race.stores n.address).remove d))
    | _ => none
  | .finish n =>
    match (s.procs n).pass with
    | some ⟨_, _, .removing []⟩ => some (s.setPass n none)
    | _ => none

/-- A leader with storage nodes that have just been started. -/
def start (r : RaceState) : RepairState := { race := r }

end RepairState

/-- All interleavings of puts, reconfigurations, heartbeats and repair passes. -/
abbrev repairs (chunkOf : ℕ → Str) : Machine RepairState RepairStep :=
  .ofStep (RepairState.step chunkOf)

/-! ### What a step does to the table -/

section Table

variable {cl : Cluster} {c : Str} {r r' : RaceState} {a : RaceStep}

theorem metaWrite_table (t : ChunkTable) (e : WalEntry) :
    ((metaWrite t e true).elim t Prod.snd) = e.op.elim t (·.apply t) := by
  rw [← applyWalEntry_getD, metaWrite, if_pos rfl]
  cases applyWalEntry t e <;> rfl

/-- The log write of a reconfiguration does not throw. -/
theorem metaWrite_reconfig (t : ChunkTable) {e : WalEntry}
    (hty : e.type = .reconfigureStart ∨ e.type = .reconfigureCommit) :
    metaWrite t e true = some (true, e.op.elim t (·.apply t)) := by
  obtain ⟨t', ht⟩ := applyWalEntry_reconfig t hty
  rw [← applyWalEntry_getD, metaWrite, if_pos rfl, ht]
  rfl

theorem putLog_table (t : ChunkTable) (req : PutChunkReq) (v : UInt64) (l : WriteLocals) (quorum : Bool) :
    (putLog t req v l quorum).1 =
      if l.successfulAddrs.length < l.majorityNeeded then t
      else (metaWrite t (putPayload req v l.replicaEntries) quorum).elim t Prod.snd := by
  unfold putLog
  split_ifs with hm
  · rfl
  · cases quorum with
    | false => rfl
    | true =>
      rw [metaWrite, if_pos rfl]
      cases applyWalEntry t (putPayload req v l.replicaEntries) <;> rfl

/-- **Only the logged operation changes the table.** -/
theorem RaceState.table_of_step (h : r.step cl c a = some r') :
    r'.chunkTable = (r.loggedOp c a).elim r.chunkTable (·.apply r.chunkTable) := by
  cases a with
  | log i quorum =>
    simp only [step] at h
    split at h
    · rename_i req v l hi
      obtain rfl := Option.some.inj h
      show (putLog r.chunkTable req v l quorum).1 = _
      rw [putLog_table]
      cases quorum with
      | false =>
        split_ifs <;> rfl
      | true =>
        simp only [loggedOp, logged, hi]
        split_ifs
        · rfl
        · exact metaWrite_table _ _
    · simp at h
  | start j quorum =>
    simp only [step] at h
    split at h
    · rename_i old v new hj
      cases quorum with
      | false =>
        obtain rfl := Option.some.inj h
        rfl
      | true =>
        rw [metaWrite_reconfig _ (.inl rfl)] at h
        obtain rfl := Option.some.inj h
        simp only [loggedOp, logged, hj, Option.bind_some]
        rfl
    · simp at h
  | commit j quorum =>
    simp only [step] at h
    split at h
    · rename_i old v new verified hj
      cases quorum with
      | false =>
        obtain rfl := Option.some.inj h
        rfl
      | true =>
        rw [metaWrite_reconfig _ (.inr rfl)] at h
        obtain rfl := Option.some.inj h
        simp only [loggedOp, logged, hj, Option.bind_some]
        rfl
    · simp at h
  | check i req =>
    simp only [step] at h
    split_ifs at h
    obtain rfl := Option.some.inj h
    rfl
  | begin j newRf incl excl selected =>
    simp only [step] at h
    split_ifs at h
    obtain rfl := Option.some.inj h
    rfl
  | place i nodes =>
    simp only [step] at h
    split at h
    · split_ifs at h
      obtain rfl := Option.some.inj h
      rfl
    · simp at h
  | _ =>
    simp only [step] at h
    split at h
    · obtain rfl := Option.some.inj h
      rfl
    · simp at h

end Table

/-! ### What the lists know -/

/-- The table's replica set of the chunk names the node. -/
def Lists (t : ChunkTable) (nodeId c : Str) : Prop :=
  ∃ e, t.get c = some e ∧ nodeId ∈ e.replicaSet.map extractNodeId

/-- **The leader's list is right when it is computed.** -/
theorem mem_assignedChunkIds {t : ChunkTable} (ht : t.Keyed) {nodeId c : Str} :
    c ∈ assignedChunkIds t nodeId ↔ Lists t nodeId c := by
  have hmem : ∀ e, e ∈ getChunks t ↔ ∃ k, t.get k = some e := by
    intro e
    constructor
    · intro he
      obtain ⟨⟨k, e'⟩, hk, rfl⟩ := List.mem_map.mp he
      exact ⟨k, Kv.get_eq_some_iff.mpr hk⟩
    · rintro ⟨k, hk⟩
      exact List.mem_map.mpr ⟨(k, e), Kv.get_eq_some_iff.mp hk, rfl⟩
  unfold assignedChunkIds Lists
  constructor
  · intro h
    obtain ⟨e, he, rfl⟩ := List.mem_map.mp h
    obtain ⟨hin, hid⟩ := List.mem_filter.mp he
    obtain ⟨k, hk⟩ := (hmem e).mp hin
    refine ⟨e, ?_, of_decide_eq_true hid⟩
    rw [ht k e hk]
    exact hk
  · rintro ⟨e, hget, hid⟩
    refine List.mem_map.mpr ⟨e, List.mem_filter.mpr ⟨(hmem e).mpr ⟨c, hget⟩, decide_eq_true hid⟩, ?_⟩
    exact ht c e hget

/-- The node has the list: as an answer under way, as its latest list, or in its running pass. -/
def NodeProc.Has (p : NodeProc) (a : Assignment) : Prop :=
  p.answer = some a ∨ p.assigned = some a ∨ ∃ h phase, p.pass = some ⟨a, h, phase⟩

/-! A step of the loops: the table, the log and the leader's calls stay, and a list that is new was
computed now. -/

structure RepairState.LoopStep (s s' : RepairState) : Prop where
  table : s'.race.chunkTable = s.race.chunkTable
  reconfigs : s'.race.reconfigs = s.race.reconfigs
  applied : s'.applied = s.applied
  has : ∀ n a, (s'.procs n).Has a → (s.procs n).Has a ∨ a.seen = s.applied.length ∧
    (a.ids = [] ∨ a.ids = assignedChunkIds s.race.chunkTable n.nodeId)

section Loops

variable {chunkOf : ℕ → Str} {s s' : RepairState} {l : RepairStep} {n : NodeConfig}

theorem RepairState.loopStep_setProc {p : NodeProc}
    (hp : ∀ a, p.Has a → (s.procs n).Has a ∨ a.seen = s.applied.length ∧
      (a.ids = [] ∨ a.ids = assignedChunkIds s.race.chunkTable n.nodeId)) :
    s.LoopStep (s.setProc n p) := by
  refine ⟨rfl, rfl, rfl, fun m a ha => ?_⟩
  have hproc : (s.setProc n p).procs m = if m = n then p else s.procs m :=
    Function.update_apply s.procs n p m
  rw [hproc] at ha
  split_ifs at ha with hm
  · exact hm ▸ hp a ha
  · exact .inl ha

/-- A pass goes on with its list, or ends. -/
theorem RepairState.loopStep_setPass {a : Assignment} {hne : a.ids ≠ []} {phase : RepairPhase}
    {pass : Option RepairPass} (h : (s.procs n).pass = some ⟨a, hne, phase⟩)
    (hpass : ∀ p ∈ pass, p.assignment = a) : s.LoopStep (s.setPass n pass) := by
  refine loopStep_setProc fun b hb => .inl ?_
  rcases hb with hb | hb | ⟨_, phase', hb⟩
  · exact .inl hb
  · exact .inr (.inl hb)
  · obtain rfl : b = a := hpass _ hb
    exact .inr (.inr ⟨hne, phase, h⟩)

theorem RepairState.LoopStep.setStore {addr : Str} {st : ChunkStore} (h : s.LoopStep s') :
    s.LoopStep (s'.setStore addr st) :=
  ⟨h.table, h.reconfigs, h.applied, h.has⟩

/-- **What a step of the loops does.** -/
theorem RepairState.loopStep_of_step (hl : ∀ cl a, l ≠ .race cl a)
    (h : s.step chunkOf l = some s') : s.LoopStep s' := by
  cases l with
  | race cl a => exact absurd rfl (hl cl a)
  | beat n quorum =>
    simp only [step] at h
    split at h
    · simp at h
    · obtain rfl := Option.some.inj h
      refine loopStep_setProc fun a ha => ?_
      rcases ha with ha | ha
      · obtain rfl := Option.some.inj ha
        refine .inr ⟨rfl, ?_⟩
        cases quorum with
        | false => exact .inl rfl
        | true => exact .inr rfl
      · exact .inl (.inr ha)
  | hear n ok =>
    simp only [step] at h
    split at h
    · simp at h
    · rename_i b hb
      obtain rfl := Option.some.inj h
      refine loopStep_setProc fun a ha => .inl ?_
      rcases ha with ha | ha | ha
      · simp at ha
      · cases ok with
        | false => exact .inr (.inl ha)
        | true =>
          obtain rfl := Option.some.inj ha
          exact .inl hb
      · exact .inr (.inr ha)
  | begin n order =>
    simp only [step] at h
    split at h
    · rename_i b _ hb
      split_ifs at h
      obtain rfl := Option.some.inj h
      refine loopStep_setProc fun a ha => .inl ?_
      rcases ha with ha | ha | ⟨_, phase, ha⟩
      · exact .inl ha
      · exact .inr (.inl ha)
      · obtain rfl : b = a := congrArg RepairPass.assignment (Option.some.inj ha)
        exact .inr (.inl hb)
    · simp at h
  | info n alive answered =>
    simp only [step] at h
    split at h
    · rename_i hp
      split at h <;> obtain rfl := Option.some.inj h <;> exact loopStep_setPass hp (by simp)
    · simp at h
  | compare n =>
    simp only [step] at h
    split at h
    · rename_i hp
      obtain rfl := Option.some.inj h
      exact loopStep_setPass hp (by simp)
    · simp at h
  | fetch n fate =>
    simp only [step] at h
    split at h
    · rename_i hp
      obtain rfl := Option.some.inj h
      exact loopStep_setPass hp (by simp)
    · rename_i hp
      split at h <;> obtain rfl := Option.some.inj h <;> exact loopStep_setPass hp (by simp)
    · simp at h
  | store n =>
    simp only [step] at h
    split at h
    · rename_i hp
      obtain rfl := Option.some.inj h
      exact (loopStep_setPass hp (by simp)).setStore
    · simp at h
  | scan n order =>
    simp only [step] at h
    split at h
    · rename_i hp
      split_ifs at h
      obtain rfl := Option.some.inj h
      exact loopStep_setPass hp (by simp)
    · simp at h
  | remove n =>
    simp only [step] at h
    split at h
    · rename_i hp
      split_ifs at h
      · obtain rfl := Option.some.inj h
        exact loopStep_setPass hp (by simp)
      · obtain rfl := Option.some.inj h
        exact (loopStep_setPass hp (by simp)).setStore
    · simp at h
  | finish n =>
    simp only [step] at h
    split at h
    · rename_i hp
      obtain rfl := Option.some.inj h
      exact loopStep_setPass hp (by simp)
    · simp at h

/-- What a step is: one of the leader's calls moves, or one of the loops. -/
theorem RepairState.step_cases (h : s.step chunkOf l = some s') :
    (∃ cl a r, l = .race cl a ∧ s.race.step cl (chunkOf a.index) a = some r ∧ s' = { s with
      race := r, applied := s.applied ++ (s.race.loggedOp (chunkOf a.index) a).toList }) ∨
    ((∀ cl a, l ≠ .race cl a) ∧ s.LoopStep s') := by
  by_cases hl : ∀ cl a, l ≠ .race cl a
  · exact .inr ⟨hl, loopStep_of_step hl h⟩
  · push Not at hl
    obtain ⟨cl, a, rfl⟩ := hl
    obtain ⟨r, hr, rfl⟩ := Option.map_eq_some_iff.mp h
    exact .inl ⟨cl, a, r, rfl, hr, rfl⟩

/-- **What a removal does.** -/
theorem RepairState.step_remove (h : s.step chunkOf (.remove n) = some s') :
    ∃ a h d todo, (s.procs n).pass = some ⟨a, h, .removing (d :: todo)⟩ ∧
      s'.race.stores n.address =
        if d ∈ a.ids then s.race.stores n.address else (s.race.stores n.address).remove d := by
  simp only [step] at h
  split at h
  · rename_i a hne d todo hp
    refine ⟨a, hne, d, todo, hp, ?_⟩
    split_ifs at h ⊢
    · obtain rfl := Option.some.inj h
      rfl
    · obtain rfl := Option.some.inj h
      exact Function.update_self _ _ _
  · simp at h

/-- A visited chunk that the list lacks is removed. -/
theorem RepairState.step_remove_unlisted (chunkOf : ℕ → Str) {a : Assignment} {h : a.ids ≠ []}
    {d : Str} {todo : List Str} (hp : (s.procs n).pass = some ⟨a, h, .removing (d :: todo)⟩)
    (hd : d ∉ a.ids) :
    ∃ s', s.step chunkOf (.remove n) = some s' ∧
      s'.race.stores n.address = (s.race.stores n.address).remove d := by
  simp only [step, hp, if_neg hd]
  exact ⟨_, rfl, Function.update_self _ _ _⟩

end Loops

/-- The table after the first `k` operations since the start. -/
def RepairState.tableAt (t : ChunkTable) (s : RepairState) (k : ℕ) : ChunkTable :=
  (s.applied.take k).foldl (fun t op => op.apply t) t

/-- Where the table and the lists come from; `t` is the table at the start. -/
structure ListInv (t : ChunkTable) (s : RepairState) : Prop where
  table : s.race.chunkTable = s.applied.foldl (fun t op => op.apply t) t
  lists : ∀ n a, (s.procs n).Has a → a.seen ≤ s.applied.length ∧
    (a.ids = [] ∨ a.ids = assignedChunkIds (s.tableAt t a.seen) n.nodeId)

section Invariant

variable {chunkOf : ℕ → Str} {t : ChunkTable} {s s' : RepairState} {l : RepairStep}

theorem ListInv.step (hI : ListInv t s) (h : s.step chunkOf l = some s') : ListInv t s' := by
  rcases RepairState.step_cases h with ⟨cl, a, r, -, hr, rfl⟩ | ⟨-, hloop⟩
  · refine ⟨?_, fun n b hb => ?_⟩
    · rw [List.foldl_append, ← hI.table]
      show r.chunkTable = _
      rw [RaceState.table_of_step hr]
      cases s.race.loggedOp (chunkOf a.index) a <;> rfl
    · obtain ⟨hlen, hids⟩ := hI.lists n b hb
      refine ⟨hlen.trans (List.length_append ▸ Nat.le_add_right _ _), ?_⟩
      rw [RepairState.tableAt, List.take_append_of_le_length hlen]
      exact hids
  · refine ⟨?_, fun n b hb => ?_⟩
    · rw [hloop.table, hloop.applied]
      exact hI.table
    · rw [RepairState.tableAt, hloop.applied]
      rcases hloop.has n b hb with hb | ⟨hseen, hids⟩
      · exact hI.lists n b hb
      · rw [hseen, List.take_length, ← hI.table]
        exact ⟨le_rfl, hids⟩

theorem listInv_of_run {r : RaceState} {ok : RepairState → RepairStep → Prop} {tr : List RepairStep}
    (h : (repairs chunkOf).Run ok (.start r) tr s) : ListInv r.chunkTable s := by
  refine h.invariant_step ⟨rfl, fun n a ha => ?_⟩ fun s a s' hI hs _ => hI.step hs
  rcases ha with ha | ha | ⟨_, phase, ha⟩ <;> simp [RepairState.start] at ha

theorem keyed_tableAt (ht : t.Keyed) (k : ℕ) : (s.tableAt t k).Keyed :=
  List.foldlRecOn _ _ ht fun _ hk op _ => op.keyed_apply hk

end Invariant

end NimbusVault
