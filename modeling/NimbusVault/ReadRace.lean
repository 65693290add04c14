import NimbusVault.Client
import NimbusVault.Race
import NimbusVault.TableOp

/-!
# ReadRace — a get and the reconfigurations of its chunk, interleaved

`GetPhase` is a get of the client, cut at its request to the leader and at each of its reads; with
nothing in between it returns what `NimbusClient.get` does (`result_ask`, `result_read`).  In
`availability` its steps interleave with those of reconfigurations of the chunk `c`, with nodes that
come up, and with writes, removals and table operations of other chunks.  `AvailState.Moves` lists
what each step needs and does.
-/

namespace NimbusVault

open Lib NimbusClient

/-! ### A get, cut at its RPCs -/

/-- How far a get has got: before the leader's answer, or with the rest of a pass over the try-list
and the number of passes left behind it. -/
inductive GetPhase
  | asking (client : NimbusClient)
  | reading (client : NimbusClient) (info : ChunkEntry) (todo : List Str) (left : ℕ)
  | done (result : GetResult)

namespace GetPhase

def ask (client : NimbusClient) : Except Str ChunkEntry → GetPhase
  | .error error => .done { ok := false, error }
  | .ok info => .reading client info (buildReplicaTryList info) (attempts - 1)

/-- The next read, or the start of the next pass. -/
def read (rpc : UInt64 → Str → Option ReadChunkResp) (client : NimbusClient) (info : ChunkEntry) :
    List Str → ℕ → GetPhase
  | [], 0 => .done { ok := false, error := "all replicas failed".toList }
  | [], left + 1 => .reading client info (buildReplicaTryList info) left
  | entry :: todo, left =>
    match client.tryRead (rpc info.version) entry with
    | (some r, _) => .done { ok := true, data := r.data, version := r.version }
    | (none, client) => .reading client info todo left

/-- What the get returns when nothing changes any more. -/
def result (answer : Except Str ChunkEntry) (rpc : UInt64 → Str → Option ReadChunkResp) :
    GetPhase → GetResult
  | asking client => (client.get answer rpc 0).1
  | reading client info todo left =>
    match client.readPass (rpc info.version) todo with
    | (some r, _) => { ok := true, data := r.data, version := r.version }
    | (none, client) =>
      match client.readAttempts (rpc info.version) (buildReplicaTryList info) left with
      | (some r, _) => { ok := true, data := r.data, version := r.version }
      | (none, _) => { ok := false, error := "all replicas failed".toList }
  | done r => r

section Cut

variable {answer : Except Str ChunkEntry} {rpc : UInt64 → Str → Option ReadChunkResp}
  {client : NimbusClient} {info : ChunkEntry} {todo : List Str} {left : ℕ}

theorem result_ask : (ask client answer).result answer rpc = (asking client).result answer rpc := by
  cases answer with
  | error error => rfl
  | ok info =>
    have h60 : attempts = (attempts - 1) + 1 := rfl
    unfold ask result NimbusClient.get
    dsimp only
    rw [if_pos rfl, h60, readAttempts]
    generalize client.readPass (rpc info.version) (buildReplicaTryList info) = x
    obtain ⟨_ | r, client'⟩ := x
    · simp only [Nat.add_sub_cancel]
      generalize client'.readAttempts (rpc info.version) (buildReplicaTryList info) _ = y
      obtain ⟨_ | r, client''⟩ := y <;> rfl
    · rfl

theorem result_read : (read rpc client info todo left).result answer rpc =
    (reading client info todo left).result answer rpc := by
  cases todo with
  | nil =>
    cases left with
    | zero => rfl
    | succ left =>
      simp only [read, result, readPass, readAttempts]
      generalize client.readPass (rpc info.version) (buildReplicaTryList info) = x
      obtain ⟨_ | r, client'⟩ := x <;> rfl
  | cons entry todo =>
    simp only [read, result, readPass]
    generalize client.tryRead (rpc info.version) entry = x
    obtain ⟨_ | r, client'⟩ := x <;> rfl

end Cut

end GetPhase

/-! ### The system -/

/-- The address and the fate of the RPC that a step of a reconfiguration makes. -/
def RaceState.rpc (cl : Cluster) (s : RaceState) : RaceStep → Option (Str × RpcFate)
  | .fetch j fate => (s.reconfigs j).map fun call => (copySource cl.nodes call.oldSet, fate)
  | .copy j fate =>
    match s.reconfigs j with
    | some ⟨_, _, _, .copying (dst :: _) _⟩ => some (resolveReplicaAddress cl.nodes dst, fate)
    | _ => none
  | .verify j fate =>
    match s.reconfigs j with
    | some ⟨_, _, _, .verifying _ (entry :: _)⟩ => some (resolveReplicaAddress cl.nodes entry, fate)
    | _ => none
  | _ => none

/-- Only a node that is up executes an RPC. -/
def RaceState.Reaches (cl : Cluster) (up : Finset Str) (s : RaceState) (a : RaceStep) : Prop :=
  ∀ p ∈ s.rpc cl a, p.2 = .unreached ∨ p.1 ∈ up

instance (cl : Cluster) (up : Finset Str) (s : RaceState) (a : RaceStep) :
    Decidable (s.Reaches cl up a) :=
  inferInstanceAs (Decidable (∀ p ∈ s.rpc cl a, _ ∨ _))

/-- The reconfigurations of the chunk, the addresses of the nodes that are up, and one get. -/
structure AvailState where
  race : RaceState
  up : Finset Str
  get : GetPhase

/-- A reconfiguration step; a node that comes up; a write, a removal or a table operation of another
chunk; the get's request to the leader and its reads. -/
inductive AvailStep
  | race (a : RaceStep)
  | join (addr : Str)
  | write (addr id : Str) (version : UInt64) (data : Str)
  | remove (addr id : Str)
  | apply (op : TableOp)
  | ask
  | read

namespace AvailState

/-- The read of the chunk at a node. -/
def readAt (c : Str) (s : AvailState) (minVersion : UInt64) (addr : Str) : Option ReadChunkResp :=
  if addr ∈ s.up then some (readChunk (s.race.stores addr) c minVersion) else none

def setRace (s : AvailState) (race : RaceState) : AvailState := { s with race }

def setStore (s : AvailState) (addr : Str) (st : ChunkStore) : AvailState :=
  s.setRace { s.race with stores := Function.update s.race.stores addr st }

/-- `cl` are the nodes that the leader takes for alive. -/
def step (cl : Cluster) (c : Str) (s : AvailState) : AvailStep → Option AvailState
  | .race a =>
    if ¬ a.OfPut ∧ s.race.Reaches cl s.up a then
      (s.race.step cl c a).map s.setRace else none
  | .join addr => some { s with up := insert addr s.up }
  | .write addr id version data =>
    if id ≠ c ∧ '/' ∉ id ∧ version ≤ 9999999999 then
      some (s.setStore addr ((s.race.stores addr).write id version data)) else none
  | .remove addr id =>
    if id ≠ c then some (s.setStore addr ((s.race.stores addr).remove id)) else none
  | .apply op =>
    if op.chunkId ≠ c then
      some (s.setRace { s.race with chunkTable := op.apply s.race.chunkTable }) else none
  | .ask =>
    match s.get with
    | .asking client =>
      some { s with get := .ask client (getChunkInfo true cl.nodes s.race.chunkTable c) }
    | _ => none
  | .read =>
    match s.get with
    | .reading client info todo left =>
      some { s with get := .read (s.readAt c) client info todo left }
    | _ => none

/-! ### What each step needs and does -/

inductive Moves (cl : Cluster) (c : Str) (s : AvailState) : AvailStep → AvailState → Prop
  | race {a : RaceStep} {r : RaceState} : ¬ a.OfPut → s.race.Reaches cl s.up a →
      RaceState.Fires cl c s.race a r → Moves cl c s (.race a) (s.setRace r)
  | join {addr : Str} : Moves cl c s (.join addr) { s with up := insert addr s.up }
  | write {addr id : Str} {v : UInt64} {d : Str} : id ≠ c → '/' ∉ id → v ≤ 9999999999 →
      Moves cl c s (.write addr id v d) (s.setStore addr ((s.race.stores addr).write id v d))
  | remove {addr id : Str} : id ≠ c →
      Moves cl c s (.remove addr id) (s.setStore addr ((s.race.stores addr).remove id))
  | apply {op : TableOp} : op.chunkId ≠ c → Moves cl c s (.apply op)
      (s.setRace { s.race with chunkTable := op.apply s.race.chunkTable })
  | ask {client : NimbusClient} : s.get = .asking client → Moves cl c s .ask
      { s with get := .ask client (getChunkInfo true cl.nodes s.race.chunkTable c) }
  | read {client : NimbusClient} {info : ChunkEntry} {todo : List Str} {left : ℕ} :
      s.get = .reading client info todo left →
      Moves cl c s .read { s with get := .read (s.readAt c) client info todo left }

/-- **The step function does nothing else.** -/
theorem step_moves {cl : Cluster} {c : Str} {s s' : AvailState} {a : AvailStep}
    (h : s.step cl c a = some s') : Moves cl c s a s' := by
  cases a with
  | race a =>
    simp only [step] at h
    split_ifs at h with ha
    obtain ⟨r, hr, rfl⟩ := Option.map_eq_some_iff.mp h
    exact .race ha.1 ha.2 (RaceState.step_fires hr)
  | join addr =>
    obtain rfl := Option.some.inj h
    exact .join
  | write addr id version data =>
    simp only [step] at h
    split_ifs at h with hid
    obtain rfl := Option.some.inj h
    exact .write hid.1 hid.2.1 hid.2.2
  | remove addr id =>
    simp only [step] at h
    split_ifs at h with hid
    obtain rfl := Option.some.inj h
    exact .remove hid
  | apply op =>
    simp only [step] at h
    split_ifs at h with hid
    obtain rfl := Option.some.inj h
    exact .apply hid
  | ask =>
    simp only [step] at h
    split at h
    · rename_i hg
      obtain rfl := Option.some.inj h
      exact .ask hg
    · simp at h
  | read =>
    simp only [step] at h
    split at h
    · rename_i hg
      obtain rfl := Option.some.inj h
      exact .read hg
    · simp at h

end AvailState

/-- Reconfigurations of the chunk `c`, interleaved with a get. -/
abbrev availability (cl : Cluster) (c : Str) : Machine AvailState AvailStep :=
  .ofStep (AvailState.step cl c)

end NimbusVault
