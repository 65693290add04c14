import NimbusVault.Reconfig

/-!
# Race — puts and reconfigurations of one chunk, interleaved

Any number of `PutChunk` and `ReconfigDriver::reconfig` calls on the chunk `c` of a cluster, each
cut at its reads of the chunk table, its storage RPCs and its log writes.  A put reads the table
twice (`check`, `place`), writes to one node at a time (`write`), logs (`log`) and possibly rolls
back one node at a time (`undo`).  A reconfiguration reads the table (`begin`), logs its start
(`start`), copies (`fetch` and `copy` for each new node, `copied`), verifies one node at a time
(`verify`) and logs its end (`commit`).  `RaceState.step` is the step function, and `Fires` lists
what each action needs and does.
-/

namespace NimbusVault

open Lib

/-! ### The calls -/

/-- How far a put has got. -/
inductive PutPhase
  | checked (req : PutChunkReq)
  | writing (req : PutChunkReq) (version : UInt64) (locals : WriteLocals) (todo : List Str)
  | undoing (error : Str) (todo : List Str)
  | answered (resp : PutChunkResp)
  | threw
  deriving DecidableEq

inductive ReconfigPhase
  | targeted
  | copying (todo : List Str) (fetched : Option Str)
  | verifying (verified todo : List Str)
  | finished (ok : Bool)
  deriving DecidableEq

/-- A reconfiguration: what it read and computed at its begin, and how far it has got. -/
structure ReconfigCall where
  oldSet : List Str
  version : UInt64
  newNodes : List Str
  phase : ReconfigPhase
  deriving DecidableEq

structure RaceState where
  chunkTable : ChunkTable := Kv.empty
  stores : Stores := fun _ => ChunkStore.empty
  puts : ℕ → Option PutPhase := fun _ => none
  reconfigs : ℕ → Option ReconfigCall := fun _ => none

inductive RaceStep
  | check (i : ℕ) (req : PutChunkReq)
  | place (i : ℕ) (nodes : List Str)
  | write (i : ℕ) (fate : RpcFate)
  | log (i : ℕ) (quorum : Bool)
  | undo (i : ℕ) (executed : Bool)
  | begin (j : ℕ) (newRf : Int32) (mustInclude mustExclude : Str) (selected : List Str)
  | start (j : ℕ) (quorum : Bool)
  | fetch (j : ℕ) (fate : RpcFate)
  | copy (j : ℕ) (fate : RpcFate)
  | copied (j : ℕ)
  | verify (j : ℕ) (fate : RpcFate)
  | commit (j : ℕ) (quorum : Bool)

def RaceStep.OfPut : RaceStep → Prop
  | .check .. => True
  | .place .. => True
  | .write .. => True
  | .log .. => True
  | .undo .. => True
  | _ => False

instance : DecidablePred RaceStep.OfPut := fun a => by
  cases a <;> first | exact isTrue trivial | exact isFalse id

/-! ### The parts of a put -/

def putCheck (t : ChunkTable) (req : PutChunkReq) : PutPhase :=
  if isTransitioning t req.chunkId then
    .answered { ok := false, error := "ChunkTransitioning".toList }
  else .checked req

def putPlace (t : ChunkTable) (req : PutChunkReq) (nodes : List Str) : PutPhase :=
  if (nodes.length : ℤ) < req.desiredRf.toInt then
    .answered { ok := false, error := "not enough nodes".toList }
  else .writing req (t.nextVersion req.chunkId) {} nodes

/-- A rollback that still has to visit `addrs`. -/
def putUndo (error : Str) (addrs : List Str) : PutPhase :=
  if addrs = [] then .answered { ok := false, error } else .undoing error addrs

/-- The table and the phase after the write loop. -/
def putLog (t : ChunkTable) (req : PutChunkReq) (version : UInt64) (l : WriteLocals) (quorum : Bool) :
    ChunkTable × PutPhase :=
  if l.successfulAddrs.length < l.majorityNeeded then (t, putUndo l.majorityError l.successfulAddrs)
  else match metaWrite t (putPayload req version l.replicaEntries) quorum with
    | none => (t, .threw)
    | some (false, _) =>
      (t, putUndo "metadata quorum unavailable after storage write".toList l.successfulAddrs)
    | some (true, t') =>
      (t', .answered { ok := true, version, replicaSet := l.replicaEntries })

/-! ### The parts of a reconfiguration -/

/-- What the driver reads and computes before its first log write. -/
def reconfigBegin (cl : Cluster) (t : ChunkTable) (c : Str) (newRf : Int32)
    (mustInclude mustExclude : Str) (selected : List Str) : ReconfigCall :=
  let failed : ReconfigCall := ⟨[], 0, [], .finished false⟩
  match t.get c with
  | none => failed
  | some e =>
    if e.configState = .transitioning then failed
    else match reconfigTargets cl.nodes e.replicaSet newRf.toInt mustInclude mustExclude selected with
      | none => failed
      | some newNodes => ⟨e.replicaSet, e.version, newNodes, .targeted⟩

/-- **A begin fails, or finds the targets** of a chunk that is not in transition. -/
theorem reconfigBegin_cases (cl : Cluster) (t : ChunkTable) (c : Str) (newRf : Int32)
    (mustInclude mustExclude : Str) (selected : List Str) :
    reconfigBegin cl t c newRf mustInclude mustExclude selected = ⟨[], 0, [], .finished false⟩ ∨
    ∃ e new, t.get c = some e ∧ e.configState ≠ .transitioning ∧
      reconfigTargets cl.nodes e.replicaSet newRf.toInt mustInclude mustExclude selected = some new ∧
      reconfigBegin cl t c newRf mustInclude mustExclude selected =
        ⟨e.replicaSet, e.version, new, .targeted⟩ := by
  unfold reconfigBegin
  dsimp only
  cases he : t.get c with
  | none => exact .inl rfl
  | some e =>
    dsimp only
    split_ifs with hst
    · exact .inl rfl
    · cases hnew : reconfigTargets cl.nodes e.replicaSet newRf.toInt mustInclude mustExclude
        selected with
      | none => exact .inl rfl
      | some new => exact .inr ⟨e, new, rfl, hst, hnew, rfl⟩

/-- The source of the copies: the first old node with an address. -/
def copySource (alive : List NodeEntry) (oldSet : List Str) : Str :=
  ((oldSet.map (resolveReplicaAddress alive)).find? (· ≠ [])).getD []

/-- The version-`version` data that a `FetchChunk` brings back, its pieces appended. -/
def fetchChunk (st : ChunkStore) (chunkId : Str) (version : UInt64) : Option Str :=
  (st.read chunkId version).map Prod.fst

/-- The head of `todo`: skipped when it is an old node, else fetched from the source. -/
def ReconfigCall.fetch (cl : Cluster) (c : Str) (ss : Stores) (fate : RpcFate) (call : ReconfigCall)
    (dst : Str) (todo : List Str) : ReconfigPhase :=
  if extractNodeId dst ∈ call.oldSet.map extractNodeId then .copying todo none
  else
    let src := copySource cl.nodes call.oldSet
    if src = [] ∨ resolveReplicaAddress cl.nodes dst = [] ∨ fate ≠ .answered then .finished false
    else match fetchChunk (ss src) c call.version with
      | none => .finished false
      | some data => .copying (dst :: todo) (some data)

/-- One round of `verify_replicas`. -/
def ReconfigCall.verify (cl : Cluster) (c : Str) (ss : Stores) (fate : RpcFate) (call : ReconfigCall)
    (verified : List Str) (entry : Str) (todo : List Str) : ReconfigPhase :=
  let addr := resolveReplicaAddress cl.nodes entry
  let resp := readChunk (ss addr) c call.version
  if addr = [] ∨ fate ≠ .answered ∨ resp.ok = false ∨ resp.version < call.version then
    .finished false
  else .verifying (verified ++ [entry]) todo

section Phases

variable {cl : Cluster} {c dst entry : Str} {ss : Stores} {fate : RpcFate} {call : ReconfigCall}
  {todo verified : List Str} {phase : ReconfigPhase}

/-- A fetch goes on with the copies or fails the call. -/
theorem ReconfigCall.fetch_cases (h : call.fetch cl c ss fate dst todo = phase) :
    phase = .finished false ∨ ∃ todo' fetched, phase = .copying todo' fetched := by
  subst h
  unfold ReconfigCall.fetch
  dsimp only
  split_ifs
  · exact .inr ⟨_, _, rfl⟩
  · exact .inl rfl
  · cases fetchChunk (ss (copySource cl.nodes call.oldSet)) c call.version with
    | none => exact .inl rfl
    | some data => exact .inr ⟨_, _, rfl⟩

/-- A verification fails the call, or the node has answered with the version or a later one. -/
theorem ReconfigCall.verify_cases (h : call.verify cl c ss fate verified entry todo = phase)
    {resp : ReadChunkResp}
    (hr : resp = readChunk (ss (resolveReplicaAddress cl.nodes entry)) c call.version) :
    phase = .finished false ∨ phase = .verifying (verified ++ [entry]) todo ∧
      resolveReplicaAddress cl.nodes entry ≠ [] ∧ fate = .answered ∧ resp.ok = true ∧
      call.version ≤ resp.version := by
  subst h hr
  unfold ReconfigCall.verify
  dsimp only
  split_ifs with hbad
  · exact .inl rfl
  · simp only [not_or, Bool.not_eq_false, not_not] at hbad
    obtain ⟨hne, hfate, hok, hlt⟩ := hbad
    exact .inr ⟨rfl, hne, hfate, hok, UInt64.not_lt.mp hlt⟩

end Phases

/-- What holds of the other calls and of the new one holds of all calls. -/
theorem forall_update_some {β : Type*} {f : ℕ → Option β} {P : ℕ → β → Prop} {i : ℕ} {b : β}
    (hi : P i b) (h : ∀ k x, f k = some x → P k x) :
    ∀ k x, Function.update f i (some b) k = some x → P k x := by
  intro k x hx
  rw [Function.update_apply] at hx
  split_ifs at hx with hk
  · obtain rfl := Option.some.inj hx
    exact hk ▸ hi
  · exact h k x hx

namespace RaceState

/-! ### The step function -/

def setPut (s : RaceState) (i : ℕ) (p : PutPhase) : RaceState :=
  { s with puts := Function.update s.puts i (some p) }

def setReconfig (s : RaceState) (j : ℕ) (r : ReconfigCall) : RaceState :=
  { s with reconfigs := Function.update s.reconfigs j (some r) }

def setPhase (s : RaceState) (j : ℕ) (call : ReconfigCall) (phase : ReconfigPhase) : RaceState :=
  s.setReconfig j { call with phase }

/-- The effect of the `i`-th put's or reconfiguration's next action, where that is possible. -/
def step (cl : Cluster) (c : Str) (s : RaceState) : RaceStep → Option RaceState
  | .check i req =>
    if (s.puts i).isNone ∧ req.chunkId = c then some (s.setPut i (putCheck s.chunkTable req)) else none
  | .place i nodes =>
    match s.puts i with
    | some (.checked req) =>
      if SelectsNodes req.desiredRf.toInt cl.nodes [] nodes then
        some (s.setPut i (putPlace s.chunkTable req nodes)) else none
    | _ => none
  | .write i fate =>
    match s.puts i with
    | some (.writing req v l (n :: todo)) =>
      let p := putReplica cl.nodes c v req.data ⟨l, s.stores⟩ (n, fate)
      some ({ s with stores := p.stores }.setPut i (.writing req v p.toWriteLocals todo))
    | _ => none
  | .log i quorum =>
    match s.puts i with
    | some (.writing req v l []) =>
      some ({ s with chunkTable := (putLog s.chunkTable req v l quorum).1 }.setPut i
        (putLog s.chunkTable req v l quorum).2)
    | _ => none
  | .undo i executed =>
    match s.puts i with
    | some (.undoing error (addr :: todo)) =>
      some ({ s with stores := deleteChunkFromReplica s.stores addr c executed }.setPut i
        (putUndo error todo))
    | _ => none
  | .begin j newRf mustInclude mustExclude selected =>
    if (s.reconfigs j).isNone ∧ ∀ e ∈ s.chunkTable.get c,
        SelectsTargets cl.nodes e.replicaSet newRf.toInt mustInclude mustExclude selected then
      some (s.setReconfig j
        (reconfigBegin cl s.chunkTable c newRf mustInclude mustExclude selected)) else none
  | .start j quorum =>
    match s.reconfigs j with
    | some ⟨old, v, new, .targeted⟩ =>
      match metaWrite s.chunkTable (startPayload c old new) quorum with
      | some (true, t) =>
        some ({ s with chunkTable := t }.setReconfig j
          ⟨old, v, new, .copying (if old = [] then [] else new) none⟩)
      | _ => some (s.setReconfig j ⟨old, v, new, .finished false⟩)
    | _ => none
  | .fetch j fate =>
    match s.reconfigs j with
    | some ⟨old, v, new, .copying (dst :: todo) none⟩ =>
      let call : ReconfigCall := ⟨old, v, new, .copying (dst :: todo) none⟩
      some (s.setPhase j call (call.fetch cl c s.stores fate dst todo))
    | _ => none
  | .copy j fate =>
    match s.reconfigs j with
    | some ⟨old, v, new, .copying (dst :: todo) (some data)⟩ =>
      let w := writeChunkToReplica s.stores (resolveReplicaAddress cl.nodes dst) c v data fate
      some ({ s with stores := w.2 }.setReconfig j
        ⟨old, v, new, if w.1 then .copying todo none else .finished false⟩)
    | _ => none
  | .copied j =>
    match s.reconfigs j with
    | some ⟨old, v, new, .copying [] none⟩ =>
      some (s.setReconfig j ⟨old, v, new, .verifying [] new⟩)
    | _ => none
  | .verify j fate =>
    match s.reconfigs j with
    | some ⟨old, v, new, .verifying verified (entry :: todo)⟩ =>
      let call : ReconfigCall := ⟨old, v, new, .verifying verified (entry :: todo)⟩
      some (s.setPhase j call (call.verify cl c s.stores fate verified entry todo))
    | _ => none
  | .commit j quorum =>
    match s.reconfigs j with
    | some ⟨old, v, new, .verifying _ []⟩ =>
      match metaWrite s.chunkTable (commitPayload c new) quorum with
      | some (true, t) =>
        some ({ s with chunkTable := t }.setReconfig j ⟨old, v, new, .finished true⟩)
      | _ => some (s.setReconfig j ⟨old, v, new, .finished false⟩)
    | _ => none

/-! ### What each action needs and does -/

/-- The step function as a relation.  The log writes of a reconfiguration have two outcomes: they
fail and leave the table alone, or their entry is applied. -/
inductive Fires (cl : Cluster) (c : Str) (s : RaceState) : RaceStep → RaceState → Prop
  | check {i : ℕ} {req : PutChunkReq} : s.puts i = none → req.chunkId = c →
      Fires cl c s (.check i req) (s.setPut i (putCheck s.chunkTable req))
  | place {i : ℕ} {nodes : List Str} {req : PutChunkReq} : s.puts i = some (.checked req) →
      SelectsNodes req.desiredRf.toInt cl.nodes [] nodes →
      Fires cl c s (.place i nodes) (s.setPut i (putPlace s.chunkTable req nodes))
  | write {i : ℕ} {fate : RpcFate} {req : PutChunkReq} {v : UInt64} {l : WriteLocals} {n : Str}
      {todo : List Str} : s.puts i = some (.writing req v l (n :: todo)) →
      Fires cl c s (.write i fate)
        ({ s with stores := (putReplica cl.nodes c v req.data ⟨l, s.stores⟩ (n, fate)).stores }.setPut
          i (.writing req v (putReplica cl.nodes c v req.data ⟨l, s.stores⟩ (n, fate)).toWriteLocals
            todo))
  | log {i : ℕ} {quorum : Bool} {req : PutChunkReq} {v : UInt64} {l : WriteLocals} :
      s.puts i = some (.writing req v l []) → Fires cl c s (.log i quorum)
        ({ s with chunkTable := (putLog s.chunkTable req v l quorum).1 }.setPut i
          (putLog s.chunkTable req v l quorum).2)
  | undo {i : ℕ} {executed : Bool} {error addr : Str} {todo : List Str} :
      s.puts i = some (.undoing error (addr :: todo)) → Fires cl c s (.undo i executed)
        ({ s with stores := deleteChunkFromReplica s.stores addr c executed }.setPut i
          (putUndo error todo))
  | begin {j : ℕ} {newRf : Int32} {incl excl : Str} {selected : List Str} : s.reconfigs j = none →
      (∀ e ∈ s.chunkTable.get c,
        SelectsTargets cl.nodes e.replicaSet newRf.toInt incl excl selected) →
      Fires cl c s (.begin j newRf incl excl selected)
        (s.setReconfig j (reconfigBegin cl s.chunkTable c newRf incl excl selected))
  | startFailed {j : ℕ} {quorum : Bool} {old new : List Str} {v : UInt64} :
      s.reconfigs j = some ⟨old, v, new, .targeted⟩ →
      Fires cl c s (.start j quorum) (s.setReconfig j ⟨old, v, new, .finished false⟩)
  | start {j : ℕ} {quorum : Bool} {old new : List Str} {v : UInt64} {t : ChunkTable} :
      s.reconfigs j = some ⟨old, v, new, .targeted⟩ →
      applyWalEntry s.chunkTable (startPayload c old new) = some t → Fires cl c s (.start j quorum)
        ({ s with chunkTable := t }.setReconfig j
          ⟨old, v, new, .copying (if old = [] then [] else new) none⟩)
  | fetch {j : ℕ} {fate : RpcFate} {old new todo : List Str} {v : UInt64} {dst : Str} :
      s.reconfigs j = some ⟨old, v, new, .copying (dst :: todo) none⟩ → Fires cl c s (.fetch j fate)
        (s.setReconfig j ⟨old, v, new, ReconfigCall.fetch cl c s.stores fate
          ⟨old, v, new, .copying (dst :: todo) none⟩ dst todo⟩)
  | copy {j : ℕ} {fate : RpcFate} {old new todo : List Str} {v : UInt64} {dst data : Str}
      {phase : ReconfigPhase} :
      s.reconfigs j = some ⟨old, v, new, .copying (dst :: todo) (some data)⟩ →
      phase = .copying todo none ∨ phase = .finished false → Fires cl c s (.copy j fate)
        ({ s with stores := (writeChunkToReplica s.stores (resolveReplicaAddress cl.nodes dst) c v
          data fate).2 }.setReconfig j ⟨old, v, new, phase⟩)
  | copied {j : ℕ} {old new : List Str} {v : UInt64} :
      s.reconfigs j = some ⟨old, v, new, .copying [] none⟩ →
      Fires cl c s (.copied j) (s.setReconfig j ⟨old, v, new, .verifying [] new⟩)
  | verify {j : ℕ} {fate : RpcFate} {old new verified todo : List Str} {v : UInt64} {entry : Str} :
      s.reconfigs j = some ⟨old, v, new, .verifying verified (entry :: todo)⟩ →
      Fires cl c s (.verify j fate) (s.setReconfig j ⟨old, v, new, ReconfigCall.verify cl c s.stores
        fate ⟨old, v, new, .verifying verified (entry :: todo)⟩ verified entry todo⟩)
  | commitFailed {j : ℕ} {quorum : Bool} {old new verified : List Str} {v : UInt64} :
      s.reconfigs j = some ⟨old, v, new, .verifying verified []⟩ →
      Fires cl c s (.commit j quorum) (s.setReconfig j ⟨old, v, new, .finished false⟩)
  | commit {j : ℕ} {old new verified : List Str} {v : UInt64} {t : ChunkTable} :
      s.reconfigs j = some ⟨old, v, new, .verifying verified []⟩ →
      applyWalEntry s.chunkTable (commitPayload c new) = some t → Fires cl c s (.commit j true)
        ({ s with chunkTable := t }.setReconfig j ⟨old, v, new, .finished true⟩)

/-- **The step function does nothing else.** -/
theorem step_fires {cl : Cluster} {c : Str} {s s' : RaceState} {a : RaceStep}
    (h : s.step cl c a = some s') : Fires cl c s a s' := by
  cases a with
  | check i req =>
    simp only [step] at h
    split_ifs at h with hc
    obtain rfl := Option.some.inj h
    exact .check (Option.isNone_iff_eq_none.mp hc.1) hc.2
  | place i nodes =>
    simp only [step] at h
    split at h
    · rename_i hp
      split_ifs at h with hsel
      obtain rfl := Option.some.inj h
      exact .place hp hsel
    · simp at h
  | write i fate =>
    simp only [step] at h
    split at h
    · rename_i hp
      obtain rfl := Option.some.inj h
      exact .write hp
    · simp at h
  | log i quorum =>
    simp only [step] at h
    split at h
    · rename_i hp
      obtain rfl := Option.some.inj h
      exact .log hp
    · simp at h
  | undo i executed =>
    simp only [step] at h
    split at h
    · rename_i hp
      obtain rfl := Option.some.inj h
      exact .undo hp
    · simp at h
  | begin j newRf incl excl selected =>
    simp only [step] at h
    split_ifs at h with hc
    obtain rfl := Option.some.inj h
    exact .begin (Option.isNone_iff_eq_none.mp hc.1) hc.2
  | start j quorum =>
    simp only [step] at h
    split at h
    · rename_i hr
      split at h
      · rename_i hm
        obtain rfl := Option.some.inj h
        exact .start hr (metaWrite_true hm).2
      · obtain rfl := Option.some.inj h
        exact .startFailed hr
    · simp at h
  | fetch j fate =>
    simp only [step] at h
    split at h
    · rename_i hr
      obtain rfl := Option.some.inj h
      exact .fetch hr
    · simp at h
  | copy j fate =>
    simp only [step] at h
    split at h
    · rename_i hr
      obtain rfl := Option.some.inj h
      refine .copy hr ?_
      split_ifs
      · exact .inl rfl
      · exact .inr rfl
    · simp at h
  | copied j =>
    simp only [step] at h
    split at h
    · rename_i hr
      obtain rfl := Option.some.inj h
      exact .copied hr
    · simp at h
  | verify j fate =>
    simp only [step] at h
    split at h
    · rename_i hr
      obtain rfl := Option.some.inj h
      exact .verify hr
    · simp at h
  | commit j quorum =>
    simp only [step] at h
    split at h
    · rename_i hr
      split at h
      · rename_i hm
        obtain ⟨rfl, ht⟩ := metaWrite_true hm
        obtain rfl := Option.some.inj h
        exact .commit hr ht
      · obtain rfl := Option.some.inj h
        exact .commitFailed hr
    · simp at h

end RaceState

/-- All interleavings of puts and reconfigurations of the chunk `c`. -/
abbrev race (cl : Cluster) (c : Str) : Machine RaceState RaceStep :=
  .ofStep (RaceState.step cl c)

end NimbusVault
