import NimbusVault.LoggedOp
import NimbusVault.PutVersions
import NimbusVault.ReconfigRun

/-!
# LeaderTable — the chunk table of a leader, under all of its calls

The leader runs any number of calls on any chunks at once.  The steps of the puts and of the driver
are those of `RaceState.step`, for the chunk that the call is on; next to them stand deletions, the
requests for a reconfiguration (`AddReplica`, `RemoveReplica` and the policy), and changes of the
set of alive nodes.  Every entry of the table is consistent at any time (`leader_table_consistent`).
The invariant says what an entry, a replica list under construction and a log entry under way look
like; the table then changes by operations that are `Sound`.
-/

namespace NimbusVault

open Lib

/-! ### Requests for a reconfiguration -/

/-- The arguments of `ReconfigDriver::reconfig`. -/
structure ReconfigReq where
  newRf : Int32
  mustInclude : Str := []
  mustExclude : Str := []
  deriving DecidableEq

def hasReplicaNode (e : ChunkEntry) (nodeId : Str) : Bool :=
  e.replicaSet.any fun entry => extractNodeId entry = nodeId

/-- `AddReplica` up to its call of the driver: an error text, or what it asks for. -/
def addReplica (leader : Bool) (t : ChunkTable) (chunkId nodeId : Str) : Except Str ReconfigReq :=
  if leader = false then .error "NotLeader".toList
  else match t.get chunkId with
    | none => .error "chunk not found".toList
    | some e =>
      if nodeId = [] then .error "node_id required".toList
      else if hasReplicaNode e nodeId then .error "node already in replica set".toList
      else .ok { newRf := Int32.ofNat e.replicaSet.length + 1, mustInclude := nodeId }

def removeReplica (leader : Bool) (t : ChunkTable) (chunkId nodeId : Str) :
    Except Str ReconfigReq :=
  if leader = false then .error "NotLeader".toList
  else match t.get chunkId with
    | none => .error "chunk not found".toList
    | some e =>
      if e.replicaSet.length ≤ 1 then .error "cannot remove last replica".toList
      else if nodeId = [] then .error "node_id required".toList
      else if hasReplicaNode e nodeId = false then .error "node not in replica set".toList
      else .ok { newRf := Int32.ofNat e.replicaSet.length - 1, mustExclude := nodeId }

/-! ### The leader -/

/-- The leader's calls are numbered chunk by chunk. -/
structure LeaderState where
  alive : Cluster
  chunkTable : ChunkTable := Kv.empty
  stores : Stores := fun _ => ChunkStore.empty
  puts : Str → ℕ → Option PutPhase := fun _ _ => none
  requests : Str → ℕ → Option ReconfigReq := fun _ _ => none
  reconfigs : Str → ℕ → Option ReconfigCall := fun _ _ => none

/-- Heartbeats and evictions show as `nodes`, and the steps of a put or of the driver as `call`. -/
inductive LeaderStep
  | nodes (alive : Cluster)
  | deleteChunk (chunkId : Str) (quorum : Bool)
  | addReplica (chunkId : Str) (j : ℕ) (nodeId : Str)
  | removeReplica (chunkId : Str) (j : ℕ) (nodeId : Str)
  | policy (chunkId : Str) (j : ℕ) (newRf : Int32)
  | call (chunkId : Str) (a : RaceStep)

namespace LeaderState

/-- What the calls on one chunk see. -/
def view (s : LeaderState) (c : Str) : RaceState :=
  ⟨s.chunkTable, s.stores, s.puts c, s.reconfigs c⟩

def setView (s : LeaderState) (c : Str) (r : RaceState) : LeaderState :=
  { s with
    chunkTable := r.chunkTable
    stores := r.stores
    puts := Function.update s.puts c r.puts
    reconfigs := Function.update s.reconfigs c r.reconfigs }

def setRequest (s : LeaderState) (c : Str) (j : ℕ) (req : ReconfigReq) : LeaderState :=
  { s with requests := Function.update s.requests c (Function.update (s.requests c) j (some req)) }

/-- The driver runs with the arguments that were asked for. -/
def Asked (s : LeaderState) (c : Str) : RaceStep → Prop
  | .begin j newRf mustInclude mustExclude _ =>
    s.requests c j = some ⟨newRf, mustInclude, mustExclude⟩
  | _ => True

instance (s : LeaderState) (c : Str) (a : RaceStep) : Decidable (s.Asked c a) :=
  match a with
  | .begin .. => inferInstanceAs (Decidable (_ = _))
  | .check .. => .isTrue trivial
  | .place .. => .isTrue trivial
  | .write .. => .isTrue trivial
  | .log .. => .isTrue trivial
  | .undo .. => .isTrue trivial
  | .start .. => .isTrue trivial
  | .fetch .. => .isTrue trivial
  | .copy .. => .isTrue trivial
  | .copied .. => .isTrue trivial
  | .verify .. => .isTrue trivial
  | .commit .. => .isTrue trivial

/-- A handler's request, where the number is new; a refused one changes nothing. -/
def ask (s : LeaderState) (c : Str) (j : ℕ) (req : Except Str ReconfigReq) : Option LeaderState :=
  if (s.requests c j).isNone then some (req.toOption.elim s (s.setRequest c j)) else none

def step (s : LeaderState) : LeaderStep → Option LeaderState
  | .nodes alive => some { s with alive }
  | .deleteChunk c quorum =>
    (NimbusVault.deleteChunk s.chunkTable c quorum).map fun r => { s with chunkTable := r.2 }
  | .addReplica c j nodeId => s.ask c j (NimbusVault.addReplica true s.chunkTable c nodeId)
  | .removeReplica c j nodeId => s.ask c j (NimbusVault.removeReplica true s.chunkTable c nodeId)
  | .policy c j newRf => s.ask c j (.ok { newRf })
  | .call c a => if s.Asked c a then ((s.view c).step s.alive c a).map (s.setView c) else none

end LeaderState

/-- Every put and every reconfiguration is of a chunk whose id the log payloads can carry. -/
def LeaderStep.PlainId : LeaderStep → Prop
  | .call c _ => TableOp.PlainId c
  | _ => True

instance : DecidablePred LeaderStep.PlainId
  | .call .. => inferInstanceAs (Decidable (TableOp.PlainId _))
  | .nodes .. => .isTrue trivial
  | .deleteChunk .. => .isTrue trivial
  | .addReplica .. => .isTrue trivial
  | .removeReplica .. => .isTrue trivial
  | .policy .. => .isTrue trivial

/-- All interleavings of the leader's calls. -/
abbrev leader : Machine LeaderState LeaderStep := .ofStep LeaderState.step

/-! ### Consistent entries -/

structure ChunkEntry.Consistent (e : ChunkEntry) : Prop where
  factor : e.replicationFactor.toInt = e.replicaSet.length
  nonempty : e.replicaSet ≠ []
  replicas : ReplicaList e.replicaSet
  stable_iff : e.configState = .stable ↔ e.oldReplicaSet = []

def ChunkTable.Consistent (t : ChunkTable) : Prop :=
  t.Keyed ∧ ∀ c e, t.get c = some e → e.Consistent

/-- An operation that leaves its chunk consistent. -/
def TableOp.Sound : TableOp → Prop
  | .put _ _ rf rs _ => rs ≠ [] ∧ ReplicaList rs ∧ rf.toInt = rs.length
  | .delete _ => True
  | .start _ old new => old ≠ [] ∧ new ≠ [] ∧ ReplicaList new ∧ new.length < 2 ^ 31
  | .commit _ new => new ≠ [] ∧ ReplicaList new ∧ new.length < 2 ^ 31

theorem TableOp.consistent_apply {t : ChunkTable} {op : TableOp} (hop : op.Sound)
    (h : t.Consistent) : (op.apply t).Consistent := by
  refine ⟨TableOp.keyed_apply h.1 op, fun c e he => ?_⟩
  rw [TableOp.apply, Kv.get_alter] at he
  split_ifs at he with hc
  · subst hc
    cases op with
    | put c size rf rs ver =>
      obtain ⟨hne, hrs, hrf⟩ := hop
      obtain rfl := Option.some.inj he
      exact ⟨hrf, hne, hrs, by simp⟩
    | delete => simp [TableOp.act] at he
    | start c old new =>
      obtain ⟨hold, hne, hrs, hlen⟩ := hop
      obtain ⟨e', -, rfl⟩ := Option.map_eq_some_iff.mp he
      exact ⟨Int32.toInt_ofNat_of_lt hlen, hne, hrs, by simp [ChunkTable.startEntry, hold]⟩
    | commit c new =>
      obtain ⟨hne, hrs, hlen⟩ := hop
      obtain ⟨e', -, rfl⟩ := Option.map_eq_some_iff.mp he
      exact ⟨Int32.toInt_ofNat_of_lt hlen, hne, hrs, by simp [ChunkTable.commitEntry]⟩
  · exact h.2 c e he

/-! ### The calls under way -/

/-- Both handlers write the entry of a node id alike. -/
theorem IsNodeId.encodeReplicaTarget_eq {id : Str} (h : IsNodeId id) (alive : List NodeEntry) :
    encodeReplicaTarget alive id = NimbusVault.reconfigEntry alive id := by
  rw [encodeReplicaTarget, if_neg h.2]
  rfl

/-- **Placement selects distinct nodes**, and no more than the put asked for. -/
theorem SelectsNodes.distinct {cl : Cluster} {n : ℤ} {nodes : List Str}
    (h : SelectsNodes n cl.nodes [] nodes) :
    nodes.Nodup ∧ (∀ x ∈ nodes, IsNodeId x) ∧ nodes.length ≤ n.toNat := by
  obtain ⟨hsub, hlen⟩ := h
  obtain ⟨l, hperm, hl⟩ := hsub
  have hnd : (placementCandidates cl.nodes []).Nodup := cl.nodup.filter _
  refine ⟨hperm.nodup_iff.mp (hl.nodup hnd), fun x hx => ?_, ?_⟩
  · have hx' : x ∈ placementCandidates cl.nodes [] := hl.subset (hperm.mem_iff.mpr hx)
    exact isNodeId_of_mem cl.wellNamed (List.mem_filter.mp hx').1
  · rw [hlen]
    exact min_le_left _ _

/-- A put of the chunk `c`: the entries written so far and the nodes still to come are distinct, and
as many as the factor asked for. -/
def PutPhase.Shaped (c : Str) : PutPhase → Prop
  | .checked req => req.chunkId = c
  | .writing req _ l todo =>
    req.chunkId = c ∧ (∀ x ∈ l.replicaEntries, IsReplica x) ∧ (∀ n ∈ todo, IsNodeId n) ∧
      (l.replicaEntries.map extractNodeId ++ todo).Nodup ∧
      l.replicaEntries.length + todo.length = req.desiredRf.toInt.toNat ∧
      l.successfulAddrs.length ≤ l.replicaEntries.length
  | .undoing .. => True
  | .answered _ => True
  | .threw => True

structure ReconfigCall.Shaped (call : ReconfigCall) : Prop where
  old : ∀ x ∈ call.oldSet, IsReplica x
  new : ReplicaList call.newNodes
  length_lt : call.newNodes.length < 2 ^ 31

/-- What holds of the table and of the calls on one chunk. -/
structure CallsInv (c : Str) (s : RaceState) : Prop where
  table : s.chunkTable.Consistent
  puts : ∀ i p, s.puts i = some p → p.Shaped c
  reconfigs : ∀ j call, s.reconfigs j = some call → call.Shaped

section Calls

variable {cl : Cluster} {c : Str} {s s' : RaceState} {a : RaceStep} {i j : ℕ} {req : PutChunkReq}
  {v : UInt64} {l : WriteLocals} {old new : List Str}

theorem CallsInv.setPut (h : CallsInv c s) {p : PutPhase} (hp : p.Shaped c) :
    CallsInv c (s.setPut i p) where
  table := h.table
  puts := forall_update_some hp h.puts
  reconfigs := h.reconfigs

theorem CallsInv.setReconfig (h : CallsInv c s) {call : ReconfigCall} (hcall : call.Shaped) :
    CallsInv c (s.setReconfig j call) where
  table := h.table
  puts := h.puts
  reconfigs := forall_update_some hcall h.reconfigs

theorem CallsInv.setTable (h : CallsInv c s) {t : ChunkTable} (ht : t.Consistent) :
    CallsInv c { s with chunkTable := t } where
  table := ht
  puts := h.puts
  reconfigs := h.reconfigs

/-- What the nodes store does not matter. -/
theorem CallsInv.setStores (h : CallsInv c s) (ss : Stores) :
    CallsInv c { s with stores := ss } where
  table := h.table
  puts := h.puts
  reconfigs := h.reconfigs

/-- The phase does not matter. -/
theorem ReconfigCall.Shaped.setPhase {phase phase' : ReconfigPhase}
    (h : ReconfigCall.Shaped ⟨old, v, new, phase⟩) : ReconfigCall.Shaped ⟨old, v, new, phase'⟩ :=
  ⟨h.old, h.new, h.length_lt⟩

theorem putUndo_shaped {error : Str} {addrs : List Str} : (putUndo error addrs).Shaped c := by
  unfold putUndo
  split_ifs <;> trivial

theorem putCheck_shaped (hreq : req.chunkId = c) (t : ChunkTable) : (putCheck t req).Shaped c := by
  unfold putCheck
  split_ifs
  · trivial
  · exact hreq

theorem putPlace_shaped (hreq : req.chunkId = c) (t : ChunkTable) {nodes : List Str}
    (hsel : SelectsNodes req.desiredRf.toInt cl.nodes [] nodes) :
    (putPlace t req nodes).Shaped c := by
  obtain ⟨hnd, hids, hle⟩ := hsel.distinct
  unfold putPlace
  split_ifs with hfew
  · trivial
  · have hlen : nodes.length = req.desiredRf.toInt.toNat := by omega
    exact ⟨hreq, fun x hx => by simp at hx, hids, by simpa using hnd, by simpa using hlen, le_rfl⟩

/-- A round of the write loop moves a node from those to come to the entries. -/
theorem putReplica_shaped {n : Str} {todo : List Str} {fate : RpcFate} {ss : Stores}
    (h : (PutPhase.writing req v l (n :: todo)).Shaped c) :
    (PutPhase.writing req v
      (putReplica cl.nodes c v req.data ⟨l, ss⟩ (n, fate)).toWriteLocals todo).Shaped c := by
  obtain ⟨hreq, hentries, hids, hnd, hlen, hacks⟩ := h
  have hn : IsNodeId n := hids n List.mem_cons_self
  have hentry : encodeReplicaTarget cl.nodes n = reconfigEntry cl.nodes n :=
    hn.encodeReplicaTarget_eq cl.nodes
  obtain ⟨hrep, hid⟩ := hn.reconfigEntry cl.wellNamed
  have hnew : (putReplica cl.nodes c v req.data ⟨l, ss⟩ (n, fate)).replicaEntries =
      l.replicaEntries ++ [reconfigEntry cl.nodes n] := by
    rw [← hentry]
    rfl
  have hacks' : (putReplica cl.nodes c v req.data ⟨l, ss⟩ (n, fate)).successfulAddrs.length ≤
      l.successfulAddrs.length + 1 := by
    rw [putReplica_addrs]
    split_ifs
    · simp
    · exact Nat.le_succ _
  refine ⟨hreq, ?_, fun m hm => hids m (List.mem_cons_of_mem _ hm), ?_, ?_, ?_⟩
  · rw [hnew]
    intro x hx
    rcases List.mem_append.mp hx with hx | hx
    · exact hentries x hx
    · rw [List.mem_singleton.mp hx]
      exact hrep
  · rw [hnew, List.map_append, List.map_singleton, hid, List.append_assoc]
    exact hnd
  · rw [hnew, List.length_append]
    simp only [List.length_cons, List.length_nil] at hlen ⊢
    omega
  · rw [hnew, List.length_append, List.length_singleton]
    omega

/-! ### The log entries -/

/-- An entry keeps the table consistent when the operation it is read as, if any, is sound. -/
theorem ChunkTable.Consistent.applyWalEntry {t t' : ChunkTable} {e : WalEntry} (h : t.Consistent)
    (hsound : ∀ op, decodeEntry e = some (some op) → op.Sound)
    (ht : NimbusVault.applyWalEntry t e = some t') : t'.Consistent := by
  rw [applyWalEntry_eq] at ht
  obtain ⟨op, hop, rfl⟩ := Option.map_eq_some_iff.mp ht
  cases op with
  | none => exact h
  | some op => exact TableOp.consistent_apply (hsound op hop) h

theorem decodeEntry_putPayload {rs : List Str} (hid : TableOp.PlainId req.chunkId)
    (hrs : ∀ x ∈ rs, IsField x) : decodeEntry (putPayload req v rs) =
      some (if rs = [] then none else some (.put req.chunkId req.sizeBytes req.desiredRf rs v)) :=
  decodeEntry_put hid hrs

theorem decodeEntry_startPayload (hc : TableOp.PlainId c) (ho : ∀ x ∈ old, IsField x)
    (hn : ∀ x ∈ new, IsField x) : decodeEntry (startPayload c old new) =
      some (if old = [] ∨ new = [] then none else some (.start c old new)) :=
  decodeEntry_start hc ho hn

theorem decodeEntry_commitPayload (hc : TableOp.PlainId c) (hn : ∀ x ∈ new, IsField x) :
    decodeEntry (commitPayload c new) = some (if new = [] then none else some (.commit c new)) :=
  decodeEntry_commit hc hn

theorem putPayload_sound (hc : TableOp.PlainId c)
    (h : (PutPhase.writing req v l []).Shaped c)
    (hmaj : l.majorityNeeded ≤ l.successfulAddrs.length) {op : TableOp}
    (hop : decodeEntry (putPayload req v l.replicaEntries) = some (some op)) : op.Sound := by
  obtain ⟨hreq, hentries, -, hnd, hlen, hacks⟩ := h
  have hid : TableOp.PlainId req.chunkId := hreq.symm ▸ hc
  have hlist : ReplicaList l.replicaEntries := ⟨hentries, by simpa using hnd⟩
  -- no majority of no replicas: this is what keeps a factor of zero or less out of the table
  have hmin : 1 ≤ l.replicaEntries.length := by
    unfold WriteLocals.majorityNeeded at hmaj
    omega
  have hne : l.replicaEntries ≠ [] := List.ne_nil_of_length_pos hmin
  rw [decodeEntry_putPayload hid hlist.isField, if_neg hne] at hop
  obtain rfl := Option.some.inj (Option.some.inj hop)
  refine ⟨hne, hlist, ?_⟩
  simp only [List.length_nil] at hlen
  omega

theorem startPayload_sound (hc : TableOp.PlainId c) (hold : ∀ x ∈ old, IsReplica x)
    (hnew : ReplicaList new) (hlen : new.length < 2 ^ 31) {op : TableOp}
    (hop : decodeEntry (startPayload c old new) = some (some op)) : op.Sound := by
  rw [decodeEntry_startPayload hc (fun x hx => (hold x hx).1) hnew.isField] at hop
  -- with an empty list the payload has too few parts and is ignored
  split_ifs at hop with hnil
  · simp at hop
  obtain rfl := Option.some.inj (Option.some.inj hop)
  exact ⟨fun h => hnil (.inl h), fun h => hnil (.inr h), hnew, hlen⟩

theorem commitPayload_sound (hc : TableOp.PlainId c) (hnew : ReplicaList new)
    (hlen : new.length < 2 ^ 31) {op : TableOp}
    (hop : decodeEntry (commitPayload c new) = some (some op)) : op.Sound := by
  rw [decodeEntry_commitPayload hc hnew.isField] at hop
  split_ifs at hop with hnil
  · simp at hop
  obtain rfl := Option.some.inj (Option.some.inj hop)
  exact ⟨hnil, hnew, hlen⟩

/-- The log write of a put keeps the table consistent, and the call needs no more. -/
theorem putLog_consistent (hc : TableOp.PlainId c) (h : CallsInv c s)
    (hi : s.puts i = some (.writing req v l [])) (quorum : Bool) :
    (putLog s.chunkTable req v l quorum).1.Consistent ∧
      (putLog s.chunkTable req v l quorum).2.Shaped c := by
  constructor
  · rcases putLog_cases s.chunkTable req v l quorum with ⟨hsame, -⟩ | ⟨t', -, hmaj, ht, hlog⟩
    · rw [hsame]
      exact h.table
    · rw [hlog]
      exact h.table.applyWalEntry (fun op => putPayload_sound hc (h.puts i _ hi) hmaj) ht
  · cases hp : (putLog s.chunkTable req v l quorum).2 with
    | checked req' => exact absurd hp putLog_ne_checked
    | writing req' v' l' todo' => exact absurd hp putLog_ne_writing
    | _ => trivial

theorem reconfigBegin_shaped (h : CallsInv c s) {newRf : Int32} {incl excl : Str}
    {selected : List Str} (hsel : ∀ e ∈ s.chunkTable.get c,
      SelectsTargets cl.nodes e.replicaSet newRf.toInt incl excl selected) :
    (reconfigBegin cl s.chunkTable c newRf incl excl selected).Shaped := by
  rcases reconfigBegin_cases cl s.chunkTable c newRf incl excl selected with
    hcall | ⟨e, new, he, -, hnew, hcall⟩
  · rw [hcall]
    exact ⟨fun x hx => by simp at hx, ⟨fun x hx => by simp at hx, List.nodup_nil⟩, by simp⟩
  · have hold : ∀ x ∈ e.replicaSet, IsReplica x := (h.table.2 c e he).replicas.replica
    obtain ⟨hlist, hlen⟩ := replicaList_reconfigTargets cl.wellNamed hold (hsel e he) hnew
    have hmax : newRf.toInt < 2 ^ 31 := newRf.toInt_lt
    rw [hcall]
    exact ⟨hold, hlist, show new.length < 2 ^ 31 by omega⟩

/-- **Every step of a call keeps the invariant.** -/
theorem CallsInv.fires (hc : TableOp.PlainId c) (h : CallsInv c s)
    (hf : RaceState.Fires cl c s a s') : CallsInv c s' := by
  cases hf with
  | check hi hreq => exact h.setPut (putCheck_shaped hreq _)
  | place hi hsel => exact h.setPut (putPlace_shaped (h.puts _ _ hi) _ hsel)
  | write hi => exact (h.setStores _).setPut (putReplica_shaped (h.puts _ _ hi))
  | log hi =>
    obtain ⟨ht, hp⟩ := putLog_consistent hc h hi _
    exact (h.setTable ht).setPut hp
  | undo hi => exact (h.setStores _).setPut putUndo_shaped
  | begin hj hsel => exact h.setReconfig (reconfigBegin_shaped h hsel)
  | startFailed hj => exact h.setReconfig (h.reconfigs _ _ hj).setPhase
  | start hj ht =>
    have hcall := h.reconfigs _ _ hj
    exact (h.setTable (h.table.applyWalEntry
      (fun op => startPayload_sound hc hcall.old hcall.new hcall.length_lt) ht)).setReconfig
      hcall.setPhase
  | fetch hj => exact h.setReconfig (h.reconfigs _ _ hj).setPhase
  | copy hj hphase => exact (h.setStores _).setReconfig (h.reconfigs _ _ hj).setPhase
  | copied hj => exact h.setReconfig (h.reconfigs _ _ hj).setPhase
  | verify hj => exact h.setReconfig (h.reconfigs _ _ hj).setPhase
  | commitFailed hj => exact h.setReconfig (h.reconfigs _ _ hj).setPhase
  | commit hj ht =>
    have hcall := h.reconfigs _ _ hj
    exact (h.setTable (h.table.applyWalEntry
      (fun op => commitPayload_sound hc hcall.new hcall.length_lt) ht)).setReconfig hcall.setPhase

end Calls

/-! ### The runs of a leader -/

/-- The calls on every chunk see a consistent table. -/
def LeaderInv (s : LeaderState) : Prop :=
  s.chunkTable.Consistent ∧ ∀ c, CallsInv c (s.view c)

section Runs

variable {s s' : LeaderState} {c : Str}

/-- A deletion is performed, or the table stays as it is. -/
theorem deleteChunk_some {t : ChunkTable} {quorum : Bool} {r : Bool × ChunkTable}
    (hr : deleteChunk t c quorum = some r) : r.2 = t ∨ r.2 = (TableOp.delete c).apply t := by
  unfold deleteChunk metaWrite at hr
  split_ifs at hr
  · obtain ⟨t', ht, rfl⟩ := Option.map_eq_some_iff.mp hr
    exact .inr (Option.some.inj ht).symm
  · obtain rfl := Option.some.inj hr
    exact .inl rfl

/-- A new table changes what the other chunks' calls see of it, and nothing else. -/
theorem LeaderInv.setTable (h : LeaderInv s) {t : ChunkTable} (ht : t.Consistent) :
    LeaderInv { s with chunkTable := t } :=
  ⟨ht, fun c => (h.2 c).setTable ht⟩

theorem LeaderInv.setView (h : LeaderInv s) {r : RaceState} (hr : CallsInv c r) :
    LeaderInv (s.setView c r) := by
  refine ⟨hr.table, fun c' => ⟨hr.table, ?_, ?_⟩⟩
  · show ∀ i p, Function.update s.puts c r.puts c' i = some p → p.Shaped c'
    by_cases hc : c' = c
    · subst hc
      rw [Function.update_self]
      exact hr.puts
    · rw [Function.update_of_ne hc]
      exact (h.2 c').puts
  · show ∀ j call, Function.update s.reconfigs c r.reconfigs c' j = some call → call.Shaped
    by_cases hc : c' = c
    · subst hc
      rw [Function.update_self]
      exact hr.reconfigs
    · rw [Function.update_of_ne hc]
      exact (h.2 c').reconfigs

theorem LeaderInv.ask (h : LeaderInv s) {j : ℕ} {req : Except Str ReconfigReq}
    (hs : s.ask c j req = some s') : LeaderInv s' := by
  unfold LeaderState.ask at hs
  split_ifs at hs
  obtain rfl := Option.some.inj hs
  cases req with
  | error _ => exact h
  | ok _ => exact ⟨h.1, fun c' => ⟨h.1, (h.2 c').puts, (h.2 c').reconfigs⟩⟩

theorem leaderInv_init (cl : Cluster) : LeaderInv { alive := cl } := by
  have hempty : ChunkTable.Consistent Kv.empty :=
    ⟨fun c e he => by simp at he, fun c e he => by simp at he⟩
  refine ⟨hempty, fun c => ⟨hempty, fun i p hp => ?_, fun j call hcall => ?_⟩⟩
  · simp [LeaderState.view] at hp
  · simp [LeaderState.view] at hcall

/-- **Every step of the leader keeps the invariant.** -/
theorem LeaderInv.step {a : LeaderStep} (h : LeaderInv s) (hs : s.step a = some s')
    (ha : a.PlainId) : LeaderInv s' := by
  cases a with
  | nodes alive =>
    obtain rfl := Option.some.inj hs
    exact h
  | deleteChunk c quorum =>
    obtain ⟨r, hr, rfl⟩ := Option.map_eq_some_iff.mp hs
    refine h.setTable ?_
    rcases deleteChunk_some hr with htab | htab
    · rw [htab]
      exact h.1
    · have hsound : (TableOp.delete c).Sound := trivial
      rw [htab]
      exact TableOp.consistent_apply hsound h.1
  | addReplica c j nodeId => exact h.ask hs
  | removeReplica c j nodeId => exact h.ask hs
  | policy c j newRf => exact h.ask hs
  | call c a =>
    simp only [LeaderState.step] at hs
    split_ifs at hs
    obtain ⟨r, hr, rfl⟩ := Option.map_eq_some_iff.mp hs
    exact h.setView ((h.2 c).fires ha (RaceState.step_fires hr))

/-- **The leader's table is consistent** in every reachable state. -/
theorem leader_table_consistent {cl : Cluster} {tr : List LeaderStep}
    (h : leader.Run (fun _ a => a.PlainId) { alive := cl } tr s) {e : ChunkEntry}
    (he : s.chunkTable.get c = some e) :
    e.chunkId = c ∧ e.replicationFactor.toInt = e.replicaSet.length ∧ 1 ≤ e.replicaSet.length ∧
      (e.replicaSet.map extractNodeId).Nodup ∧
      (e.configState = .stable ↔ e.oldReplicaSet = []) := by
  have hinv : LeaderInv s :=
    h.invariant_step (leaderInv_init cl) fun s a s' hI hs ha => hI.step hs ha
  have hcons : e.Consistent := hinv.1.2 c e he
  exact ⟨hinv.1.1 c e he, hcons.factor, List.length_pos_iff.mpr hcons.nonempty,
    hcons.replicas.nodup, hcons.stable_iff⟩

end Runs

/-! A chunk put on node `n` gains node `m`, while a second put of it is under way. -/

def growTrace : List LeaderStep :=
  (onePut 0 ['x']).map (.call ['c']) ++
    .call ['c'] (.check 1 ⟨['c'], 1, 1, ['y']⟩) :: .addReplica ['c'] 0 ['m'] ::
    [.call ['c'] (.begin 0 2 ['m'] [] []), .call ['c'] (.start 0 true)]

def growState : LeaderState :=
  leader.final (fun _ a => a.PlainId) { alive := pairCluster } growTrace

def growEntry : ChunkEntry :=
  ⟨['c'], 1, [['n', '=', 'a'], ['m', '=', 'b']], 2, .transitioning, [['n', '=', 'a']], 1⟩

theorem leader_table_consistent_grow :
    growEntry.chunkId = ['c'] ∧ growEntry.replicationFactor.toInt = growEntry.replicaSet.length ∧
      1 ≤ growEntry.replicaSet.length ∧ (growEntry.replicaSet.map extractNodeId).Nodup ∧
      (growEntry.configState = .stable ↔ growEntry.oldReplicaSet = []) :=
  leader_table_consistent (s := growState) (Machine.run_final (by decide +kernel))
    (by decide +kernel)

end NimbusVault
