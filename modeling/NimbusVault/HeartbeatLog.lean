import NimbusVault.LogTable
import NimbusVault.NodeTable

/-!
# HeartbeatLog — heartbeats as log entries

`NodeHeartbeat` writes every heartbeat to the log, and `apply_wal_entry` brings it from there to the
node table: `applyEntry` is that function on both tables of a coordinator.  A heartbeat is applied as
it was sent exactly when its names are not empty and hold no `|` (`heartbeat_applied_iff`); whatever
the payload, applying it does not throw.  The machine `nodeLogs` is a leader whose entries are
committed in any order, between evictions and restarts.  Its tables are those of the sequence of
indices that it has applied (`node_table_of_run`), and where the entries are committed in the order of
the log a restart gives the node table back, with all nodes alive (`restart_keeps_nodes`).
-/

namespace NimbusVault

open Lib Lib.Text

variable {φ : Type}

/-- A floating point type whose printed values are not empty and hold no `|` either. -/
structure HeartbeatText (φ : Type) extends FloatText φ where
  bar_not_mem : ∀ x, '|' ∉ print x
  print_ne_nil : ∀ x, print x ≠ []

/-- What a heartbeat says of its node. -/
structure Heartbeat (φ : Type) where
  nodeId : Str
  address : Str
  loadFraction : φ
  freeBytes : UInt64
  totalBytes : UInt64
  failureRate7d : φ

variable (F : HeartbeatText φ)

def encodeHeartbeatPayload (req : Heartbeat φ) : Str :=
  req.nodeId ++ '|' :: (req.address ++ '|' :: (F.print req.loadFraction ++
    '|' :: (decimal req.freeBytes.toNat ++ '|' :: (decimal req.totalBytes.toNat ++
      '|' :: F.print req.failureRate7d))))

/-- `none` where it returns false; it catches what the number parsers throw. -/
def parseHeartbeatPayload (payload : Str) : Option (Heartbeat φ) :=
  match splitNonempty payload '|' with
  | nodeId :: address :: p2 :: p3 :: p4 :: p5 :: _ => do
    let loadFraction ← F.stof p2
    let freeBytes ← stoull p3
    let totalBytes ← stoull p4
    let failureRate7d ← F.stof p5
    some { nodeId, address, loadFraction, freeBytes, totalBytes, failureRate7d }
  | _ => none

/-! ### The parser -/

section Parse

variable {F} {payload : Str} {req : Heartbeat φ}

/-- The names that the parser returns are parts of the payload. -/
theorem parseHeartbeatPayload_names (h : parseHeartbeatPayload F payload = some req) :
    (req.nodeId ≠ [] ∧ '|' ∉ req.nodeId) ∧ req.address ≠ [] ∧ '|' ∉ req.address := by
  unfold parseHeartbeatPayload at h
  split at h
  · rename_i nodeId address p2 p3 p4 p5 rest hsplit
    simp only [Option.bind_eq_bind, Option.bind_eq_some_iff] at h
    obtain ⟨_, -, _, -, _, -, _, -, hreq⟩ := h
    obtain rfl := Option.some.inj hreq
    exact ⟨splitNonempty_mem (by rw [hsplit]; simp), splitNonempty_mem (by rw [hsplit]; simp)⟩
  · simp at h

/-- The heartbeat with its floats printed and parsed. -/
def Heartbeat.reread (F : HeartbeatText φ) (req : Heartbeat φ) : Heartbeat φ :=
  { req with
    loadFraction := F.reread req.loadFraction, failureRate7d := F.reread req.failureRate7d }

/-- **Round trip of a heartbeat.** -/
theorem parseHeartbeatPayload_encode (hid : req.nodeId ≠ [] ∧ '|' ∉ req.nodeId)
    (haddr : req.address ≠ [] ∧ '|' ∉ req.address) :
    parseHeartbeatPayload F (encodeHeartbeatPayload F req) = some (req.reread F) := by
  have hsplit : splitNonempty (encodeHeartbeatPayload F req) '|' =
      [req.nodeId, req.address, F.print req.loadFraction, decimal req.freeBytes.toNat,
        decimal req.totalBytes.toNat, F.print req.failureRate7d] := by
    rw [encodeHeartbeatPayload, splitNonempty_field hid.2 hid.1, splitNonempty_field haddr.2 haddr.1,
      splitNonempty_field (F.bar_not_mem _) (F.print_ne_nil _),
      splitNonempty_field (bar_not_mem_decimal _) (decimal_ne_nil _),
      splitNonempty_field (bar_not_mem_decimal _) (decimal_ne_nil _),
      splitNonempty_last (F.bar_not_mem _) (F.print_ne_nil _)]
  have hstof : ∀ x, F.stof (F.print x) = some (F.reread x) := fun x =>
    (Option.some_get (F.stof_print x)).symm
  simp only [parseHeartbeatPayload, hsplit, hstof]
  simp [Heartbeat.reread]

end Parse

/-! ### `apply_wal_entry` on both tables -/

theorem applyWalEntry_keyed {t t' : ChunkTable} {e : WalEntry} (ht : t.Keyed)
    (h : applyWalEntry t e = some t') : t'.Keyed := by
  rw [applyWalEntry_eq] at h
  obtain ⟨op, -, rfl⟩ := Option.map_eq_some_iff.mp h
  cases op with
  | none => exact ht
  | some op => exact TableOp.keyed_apply ht op

theorem keyed_empty : ChunkTable.Keyed Kv.empty := fun _ _ h => by simp at h

/-- The two tables of a process that has just started. -/
def MetaCoordinator.fresh (φ : Type) : MetaCoordinator φ := .noNodes φ Kv.empty keyed_empty

/-- A heartbeat as it is kept, `now` being the clock. -/
def Heartbeat.record (req : Heartbeat φ) (now : UInt64) : NodeRecord φ :=
  { nodeId := req.nodeId, address := req.address, alive := true, loadFraction := req.loadFraction,
    freeBytes := req.freeBytes, totalBytes := req.totalBytes, failureRate7d := req.failureRate7d,
    lastSeenMs := now }

/-- The heartbeat that an entry holds, as it is kept. -/
def WalEntry.heard (e : WalEntry) (now : UInt64) : Option (NodeRecord φ) :=
  if e.type = .nodeHeartbeat then (parseHeartbeatPayload F e.payload).map (·.record now) else none

/-- `none` is an exception. -/
def MetaCoordinator.applyEntry (c : MetaCoordinator φ) (now : UInt64) (e : WalEntry) :
    Option (MetaCoordinator φ) :=
  if e.type = .nodeHeartbeat then
    match parseHeartbeatPayload F e.payload with
    | none => some c
    | some r => some (c.applyHeartbeat r.nodeId r.address r.loadFraction r.freeBytes r.totalBytes
        r.failureRate7d now)
  else
    match h : applyWalEntry c.chunkTable e with
    | none => none
    | some t => some { c with chunkTable := t, chunks_keyed := applyWalEntry_keyed c.chunks_keyed h }

section Apply

variable {F} {c c' : MetaCoordinator φ} {now : UInt64} {e : WalEntry}

/-- The chunk table sees the entry as if there were no nodes. -/
theorem applyEntry_chunkTable :
    (c.applyEntry F now e).map MetaCoordinator.chunkTable = applyWalEntry c.chunkTable e := by
  unfold MetaCoordinator.applyEntry
  split_ifs with ht
  · have hsame : applyWalEntry c.chunkTable e = some c.chunkTable := by simp [applyWalEntry, ht]
    rw [hsame]
    split <;> rfl
  · split
    · rename_i h
      exact h.symm
    · rename_i t h
      exact h.symm

/-- The node table sees heartbeats only. -/
theorem applyEntry_nodeTable (h : c.applyEntry F now e = some c') :
    c'.nodeTable = (e.heard F now).elim c.nodeTable fun n => c.nodeTable.put n.nodeId n := by
  unfold MetaCoordinator.applyEntry at h
  unfold WalEntry.heard
  split_ifs at h ⊢ with ht
  · split at h
    · rename_i hp
      obtain rfl := Option.some.inj h
      rw [hp]
      rfl
    · rename_i r hp
      obtain rfl := Option.some.inj h
      rw [hp]
      rfl
  · split at h
    · simp at h
    · obtain rfl := Option.some.inj h
      rfl

/-- **A heartbeat is applied as it was sent exactly when its names are parts of a payload**: not
empty, and without the separator. -/
theorem heartbeat_applied_iff (F : HeartbeatText φ) (req : Heartbeat φ) (term : ℕ) :
    (∀ (c : MetaCoordinator φ) (now : UInt64),
      c.applyEntry F now ⟨.nodeHeartbeat, term, encodeHeartbeatPayload F req⟩ =
        some (c.applyHeartbeat req.nodeId req.address (F.reread req.loadFraction) req.freeBytes
          req.totalBytes (F.reread req.failureRate7d) now)) ↔
      (req.nodeId ≠ [] ∧ '|' ∉ req.nodeId) ∧ req.address ≠ [] ∧ '|' ∉ req.address := by
  constructor
  · intro hall
    have happ := hall (.fresh φ) 0
    have hnodes := applyEntry_nodeTable happ
    -- the intended record is found under the node's id, so a parsed one was put there
    have hget := congrArg (·.get req.nodeId) hnodes
    simp only [MetaCoordinator.applyHeartbeat, Kv.get_put_self] at hget
    cases hp : parseHeartbeatPayload F (encodeHeartbeatPayload F req) with
    | none => simp [WalEntry.heard, hp, MetaCoordinator.fresh, MetaCoordinator.noNodes] at hget
    | some r =>
      have hnames := parseHeartbeatPayload_names hp
      simp only [WalEntry.heard, if_true, hp, Option.map_some, Option.elim_some, Kv.get_put,
        MetaCoordinator.fresh, MetaCoordinator.noNodes, Kv.get_empty] at hget
      split_ifs at hget with hid
      have hrec := Option.some.inj hget
      have hid' : req.nodeId = r.nodeId := congrArg (fun n => n.nodeId) hrec
      have haddr : req.address = r.address := congrArg (fun n => n.address) hrec
      rwa [hid', haddr]
  · rintro ⟨hid, haddr⟩ c now
    simp only [MetaCoordinator.applyEntry, if_true, parseHeartbeatPayload_encode hid haddr]
    rfl

end Apply

/-! ### The tables of a sequence of indices -/

/-- What the commit of an index does, or its replay: an index, and the clock at that time. -/
def Wal.applyIndex (w : Wal) (c : MetaCoordinator φ) (p : ℕ × UInt64) : Option (MetaCoordinator φ) :=
  match w.readEntry p.1 with
  | none => some c
  | some e => c.applyEntry F p.2 e

/-- The heartbeat at an index, as it is kept. -/
def Wal.heardAt (w : Wal) (p : ℕ × UInt64) : Option (NodeRecord φ) :=
  (w.readEntry p.1).bind fun e => e.heard F p.2

/-- The last heartbeat of a node. -/
def Wal.lastHeard (w : Wal) (ks : List (ℕ × UInt64)) (id : Str) : Option (NodeRecord φ) :=
  ((ks.filterMap (w.heardAt F)).filter fun n => n.nodeId = id).getLast?

/-- A node but for its liveness, which evictions take away. -/
def NodeRecord.revived (n : NodeRecord φ) : NodeRecord φ := { n with alive := true }

/-- The tables of a coordinator that has applied the indices of `ks`, in this order. -/
structure TablesOf (w : Wal) (ks : List (ℕ × UInt64)) (c : MetaCoordinator φ) : Prop where
  nodes : ∀ id, (c.nodeTable.get id).map NodeRecord.revived = w.lastHeard F ks id
  chunks : c.chunkTable = (ks.map Prod.fst).foldl w.applyAt Kv.empty

section Tables

variable {F} {w w' : Wal} {c c' : MetaCoordinator φ} {ks : List (ℕ × UInt64)} {p : ℕ × UInt64}

theorem tablesOf_nil : TablesOf F w [] (.fresh φ) where
  nodes _ := rfl
  chunks := rfl

theorem heardAt_revived {n : NodeRecord φ} (h : w.heardAt F p = some n) : n.revived = n := by
  unfold Wal.heardAt WalEntry.heard at h
  obtain ⟨e, -, he⟩ := Option.bind_eq_some_iff.mp h
  split_ifs at he
  obtain ⟨r, -, rfl⟩ := Option.map_eq_some_iff.mp he
  rfl

theorem lastHeard_concat (id : Str) : w.lastHeard F (ks ++ [p]) id =
    (w.heardAt F p).elim (w.lastHeard F ks id) fun n =>
      if n.nodeId = id then some n else w.lastHeard F ks id := by
  unfold Wal.lastHeard
  rw [List.filterMap_append, List.filter_append]
  cases hp : w.heardAt F p with
  | none => simp [hp]
  | some n => by_cases hid : n.nodeId = id <;> simp [hp, hid]

/-- An exception leaves both tables alone. -/
theorem applyIndex_tables : ((w.applyIndex F c p).getD c).chunkTable = w.applyAt c.chunkTable p.1 ∧
    ((w.applyIndex F c p).getD c).nodeTable =
      (w.heardAt F p).elim c.nodeTable fun n => c.nodeTable.put n.nodeId n := by
  unfold Wal.applyIndex Wal.applyAt Wal.onCommit Wal.heardAt
  cases w.readEntry p.1 with
  | none => exact ⟨rfl, rfl⟩
  | some e =>
    have hchunks : (c.applyEntry F p.2 e).map MetaCoordinator.chunkTable =
        applyWalEntry c.chunkTable e := applyEntry_chunkTable
    dsimp only [Option.bind_some]
    rw [← hchunks]
    cases happ : c.applyEntry F p.2 e with
    | some c' => exact ⟨rfl, applyEntry_nodeTable happ⟩
    | none =>
      refine ⟨rfl, ?_⟩
      -- a heartbeat does not throw
      have hno : e.heard F p.2 = none := by
        unfold MetaCoordinator.applyEntry at happ
        unfold WalEntry.heard
        split_ifs at happ ⊢ with ht
        · split at happ <;> simp at happ
        · rfl
      rw [hno]
      rfl

theorem TablesOf.applyIndex (h : TablesOf F w ks c) :
    TablesOf F w (ks ++ [p]) ((w.applyIndex F c p).getD c) where
  nodes id := by
    rw [applyIndex_tables.2, lastHeard_concat]
    cases hp : w.heardAt F p with
    | none => exact h.nodes id
    | some n =>
      simp only [Option.elim_some, Kv.get_put]
      by_cases hid : n.nodeId = id
      · rw [if_pos hid.symm, if_pos hid, Option.map_some, heardAt_revived hp]
      · rw [if_neg (Ne.symm hid), if_neg hid]
        exact h.nodes id
  chunks := by
    rw [applyIndex_tables.1, h.chunks, List.map_append, List.map_singleton, List.foldl_concat]

theorem TablesOf.foldlM : ∀ {ks' : List (ℕ × UInt64)} {ks : List (ℕ × UInt64)}
    {c c' : MetaCoordinator φ}, TablesOf F w ks c → ks'.foldlM (w.applyIndex F) c = some c' →
      TablesOf F w (ks ++ ks') c'
  | [], ks, c, c', h, hf => by
    obtain rfl := Option.some.inj hf
    rwa [List.append_nil]
  | p :: ks', ks, c, c', h, hf => by
    rw [List.foldlM_cons] at hf
    obtain ⟨c₁, h₁, hf⟩ := Option.bind_eq_some_iff.mp hf
    have hstep := h.applyIndex (p := p)
    rw [h₁] at hstep
    simpa using hstep.foldlM hf

/-- The entries stay where they are when the log grows. -/
theorem TablesOf.grow (h : TablesOf F w ks c) (hp : w.records <+: w'.records)
    (hks : ∀ p ∈ ks, p.1 ≤ w.lastLogIndex) : TablesOf F w' ks c where
  nodes id := by
    have heq : ks.filterMap (w'.heardAt F) = ks.filterMap (w.heardAt F) :=
      List.filterMap_congr fun p hm => by
        rw [Wal.heardAt, Wal.heardAt, Wal.readEntry_eq_of_prefix hp (hks p hm)]
    rw [h.nodes, Wal.lastHeard, Wal.lastHeard, heq]
  chunks := by
    rw [h.chunks, Wal.foldl_applyAt_of_prefix hp fun i hi => ?_]
    obtain ⟨p, hm, rfl⟩ := List.mem_map.mp hi
    exact hks p hm

theorem TablesOf.evict (h : TablesOf F w ks c) (now timeout : UInt64) :
    TablesOf F w ks (c.evictStaleNodes now timeout) where
  nodes id := by
    rw [← h.nodes id]
    show ((c.nodeTable.mapValues _).get id).map _ = _
    rw [Kv.get_mapValues, Option.map_map]
    refine congrFun (congrArg Option.map (funext fun n => ?_)) _
    show (MetaCoordinator.evict now timeout n).revived = n.revived
    unfold MetaCoordinator.evict
    split_ifs <;> rfl
  chunks := h.chunks

end Tables

/-! ### A leader with its log -/

/-- A metadata process.  `applied` are the indices that it has applied since it started, those of its
replay included. -/
structure NodeLogState (φ : Type) where
  wal : Wal := {}
  coord : MetaCoordinator φ
  applied : List (ℕ × UInt64) := []

/-- `now` and `clock` are what the clock shows. -/
inductive NodeLogStep
  | append (e : WalEntry)
  | commit (i : ℕ) (now : UInt64)
  | evict (now timeout : UInt64)
  | restart (clock : ℕ → UInt64)

namespace NodeLogState

def step (s : NodeLogState φ) : NodeLogStep → Option (NodeLogState φ)
  | .append e => some { s with wal := s.wal.append e }
  | .commit i now =>
    if 1 ≤ i ∧ i ≤ s.wal.lastLogIndex then
      some { wal := s.wal.commit i
             coord := (s.wal.applyIndex F s.coord (i, now)).getD s.coord
             applied := s.applied ++ [(i, now)] }
    else none
  | .evict now timeout => some { s with coord := s.coord.evictStaleNodes now timeout }
  | .restart clock =>
    let ks := (List.range' 1 s.wal.committed).map fun i => (i, clock i)
    (ks.foldlM (s.wal.applyIndex F) (.fresh φ)).map fun coord => { s with coord, applied := ks }

/-- A leader that starts with nothing. -/
def fresh (φ : Type) : NodeLogState φ := { coord := .fresh φ }

/-- Commits come in the order of the log. -/
def InOrder (s : NodeLogState φ) : NodeLogStep → Prop
  | .commit i _ => i = s.wal.committed + 1
  | _ => True

instance (s : NodeLogState φ) : (a : NodeLogStep) → Decidable (s.InOrder a)
  | .append _ => .isTrue trivial
  | .commit i _ => inferInstanceAs (Decidable (i = s.wal.committed + 1))
  | .evict _ _ => .isTrue trivial
  | .restart _ => .isTrue trivial

end NodeLogState

/-- Writes that commit in any order, between evictions and restarts. -/
abbrev nodeLogs : Machine (NodeLogState φ) NodeLogStep := .ofStep (NodeLogState.step F)

section Runs

variable {F} {s s' : NodeLogState φ} {a : NodeLogStep} {tr : List NodeLogStep}

/-- The tables are those of the indices that were applied, which are in the log. -/
structure NodeLogInv (F : HeartbeatText φ) (s : NodeLogState φ) : Prop where
  tables : TablesOf F s.wal s.applied s.coord
  applied : ∀ p ∈ s.applied, p.1 ≤ s.wal.lastLogIndex
  mark : s.wal.committed ≤ s.wal.lastLogIndex

theorem NodeLogInv.step (hI : NodeLogInv F s) (hs : s.step F a = some s') : NodeLogInv F s' := by
  cases a with
  | append e =>
    obtain rfl := Option.some.inj hs
    have hlen : s.wal.lastLogIndex ≤ (s.wal.append e).lastLogIndex := by simp
    exact ⟨hI.tables.grow Wal.prefix_append hI.applied, fun p hp => (hI.applied p hp).trans hlen,
      hI.mark.trans hlen⟩
  | commit i now =>
    simp only [NodeLogState.step] at hs
    split_ifs at hs with hi
    obtain rfl := Option.some.inj hs
    refine ⟨(hI.tables.applyIndex (p := (i, now))).grow List.prefix_rfl ?_, ?_, max_le hI.mark hi.2⟩
    all_goals
      intro p hp
      rcases List.mem_append.mp hp with hp | hp
      · exact hI.applied p hp
      · obtain rfl := List.mem_singleton.mp hp
        exact hi.2
  | evict now timeout =>
    obtain rfl := Option.some.inj hs
    exact ⟨hI.tables.evict now timeout, hI.applied, hI.mark⟩
  | restart clock =>
    obtain ⟨coord, hf, rfl⟩ := Option.map_eq_some_iff.mp hs
    refine ⟨tablesOf_nil.foldlM hf, fun p hp => ?_, hI.mark⟩
    obtain ⟨i, hi, rfl⟩ := List.mem_map.mp hp
    have hrange := List.mem_range'_1.mp hi
    have hmark := hI.mark
    show i ≤ s.wal.lastLogIndex
    omega

theorem nodeLogInv_run {ok : NodeLogState φ → NodeLogStep → Prop}
    (h : (nodeLogs F).Run ok (.fresh φ) tr s) : NodeLogInv F s :=
  h.invariant_step ⟨tablesOf_nil, fun _ hp => absurd hp List.not_mem_nil, le_refl 0⟩
    fun _ _ _ hI hs _ => hI.step hs

/-- **The tables of a leader** in every run: of every node the last heartbeat that was applied, but
for its liveness, and the chunk table of the other entries. -/
theorem node_table_of_run (h : (nodeLogs F).Reach (.fresh φ) tr s) :
    (∀ id, (s.coord.nodeTable.get id).map NodeRecord.revived = s.wal.lastHeard F s.applied id) ∧
      s.coord.chunkTable = (s.applied.map Prod.fst).foldl s.wal.applyAt Kv.empty := by
  have hI := nodeLogInv_run h
  exact ⟨hI.tables.nodes, hI.tables.chunks⟩

/-! ### Restarts -/

/-- What a heartbeat says of a node. -/
def NodeRecord.reported (n : NodeRecord φ) : NodeRecord φ := { n.revived with lastSeenMs := 0 }

/-- The last heartbeat of a node does not depend on when the entries were applied. -/
theorem lastHeard_reported {w : Wal} {ks ks' : List (ℕ × UInt64)}
    (h : ks.map Prod.fst = ks'.map Prod.fst) (id : Str) :
    (w.lastHeard F ks id).map NodeRecord.reported = (w.lastHeard F ks' id).map NodeRecord.reported := by
  have hat : ∀ i now now', (w.heardAt F (i, now)).map NodeRecord.reported =
      (w.heardAt F (i, now')).map NodeRecord.reported := by
    intro i now now'
    unfold Wal.heardAt WalEntry.heard
    cases w.readEntry i with
    | none => rfl
    | some e =>
      dsimp only [Option.bind_some]
      split_ifs
      · rw [Option.map_map, Option.map_map]
        rfl
      · rfl
  have key : ∀ ks : List (ℕ × UInt64), (w.lastHeard F ks id).map NodeRecord.reported =
      (((ks.map Prod.fst).filterMap fun i => (w.heardAt F (i, 0)).map NodeRecord.reported).filter
        fun n => n.nodeId = id).getLast? := by
    intro ks
    rw [List.filterMap_map]
    have hfun : (fun p : ℕ × UInt64 => (w.heardAt F p).map NodeRecord.reported) =
        (fun i => (w.heardAt F (i, 0)).map NodeRecord.reported) ∘ Prod.fst :=
      funext fun p => hat p.1 p.2 0
    rw [← hfun, Wal.lastHeard, ← List.getLast?_map]
    congr 1
    rw [← List.map_filterMap, List.filter_map]
    rfl
  rw [key, key, h]

/-- Until an eviction all nodes are alive. -/
theorem foldlM_alive {w : Wal} : ∀ {ks : List (ℕ × UInt64)} {c c' : MetaCoordinator φ},
    (∀ id n, c.nodeTable.get id = some n → n.alive = true) →
      ks.foldlM (w.applyIndex F) c = some c' → ∀ id n, c'.nodeTable.get id = some n → n.alive = true
  | [], c, c', h, hf => by
    obtain rfl := Option.some.inj hf
    exact h
  | p :: ks, c, c', h, hf => by
    rw [List.foldlM_cons] at hf
    obtain ⟨c₁, h₁, hf⟩ := Option.bind_eq_some_iff.mp hf
    have hnodes := (applyIndex_tables (F := F) (w := w) (c := c) (p := p)).2
    rw [h₁] at hnodes
    refine foldlM_alive ?_ hf
    cases hp : w.heardAt F p with
    | none =>
      rw [hp] at hnodes
      rw [show c₁.nodeTable = c.nodeTable from hnodes]
      exact h
    | some n =>
      rw [hp] at hnodes
      rw [show c₁.nodeTable = c.nodeTable.put n.nodeId n from hnodes]
      exact Kv.forall_put h (congrArg (·.alive) (heardAt_revived hp)).symm

/-- The indices that were applied, where they came in order. -/
theorem applied_inOrder (h : (nodeLogs F).Run NodeLogState.InOrder (.fresh φ) tr s) :
    s.applied.map Prod.fst = List.range' 1 s.wal.committed := by
  refine h.invariant_step (I := fun s => s.applied.map Prod.fst = List.range' 1 s.wal.committed) rfl ?_
  intro s a s' hI hs hok
  cases a with
  | append e =>
    obtain rfl := Option.some.inj hs
    exact hI
  | commit i now =>
    simp only [NodeLogState.step] at hs
    split_ifs at hs
    obtain rfl := Option.some.inj hs
    obtain rfl : i = s.wal.committed + 1 := hok
    have hmax : max s.wal.committed (s.wal.committed + 1) = s.wal.committed + 1 := by omega
    simp only [Wal.commit, hmax, List.map_append, hI, List.map_cons, List.map_nil]
    rw [List.range'_concat, Nat.one_mul, Nat.add_comm 1]
  | evict now timeout =>
    obtain rfl := Option.some.inj hs
    exact hI
  | restart clock =>
    obtain ⟨coord, -, rfl⟩ := Option.map_eq_some_iff.mp hs
    simp [Function.comp_def]

/-- **A restart gives the node table back**, where the entries were committed in the order of the log:
the same nodes with what they reported last, whatever evictions and restarts there were before.  But
all of them are alive. -/
theorem restart_keeps_nodes {clock : ℕ → UInt64}
    (h : (nodeLogs F).Run NodeLogState.InOrder (.fresh φ) tr s)
    (hs : s.step F (.restart clock) = some s') :
    (∀ id, (s'.coord.nodeTable.get id).map NodeRecord.reported =
      (s.coord.nodeTable.get id).map NodeRecord.reported) ∧
    (∀ id n, s'.coord.nodeTable.get id = some n → n.alive = true) ∧
      s'.coord.chunkTable = s.coord.chunkTable := by
  have hI := nodeLogInv_run h
  have hI' := hI.step hs
  obtain ⟨coord, hf, rfl⟩ := Option.map_eq_some_iff.mp hs
  have hks : ((List.range' 1 s.wal.committed).map fun i => (i, clock i)).map Prod.fst =
      s.applied.map Prod.fst := by
    rw [applied_inOrder h]
    simp [Function.comp_def]
  refine ⟨fun id => ?_, foldlM_alive (fun _ _ hn => by simp [MetaCoordinator.fresh,
    MetaCoordinator.noNodes] at hn) hf, ?_⟩
  · have hrep : ∀ c : MetaCoordinator φ, (c.nodeTable.get id).map NodeRecord.reported =
        ((c.nodeTable.get id).map NodeRecord.revived).map NodeRecord.reported := fun c => by
      rw [Option.map_map]
      rfl
    rw [hrep, hrep, hI.tables.nodes, hI'.tables.nodes]
    exact lastHeard_reported hks id
  · rw [hI.tables.chunks, hI'.tables.chunks]
    exact congrArg (fun ks => ks.foldl s.wal.applyAt Kv.empty) hks

end Runs

/-! ### A node that is evicted before a restart -/

def zeroHeartbeat : HeartbeatText Unit where
  toFloatText := zeroText
  bar_not_mem
    | () => by decide
  print_ne_nil
    | () => by decide

def heardOnce : Heartbeat Unit := ⟨['n'], ['a'], (), 1, 1, ()⟩

/-- The node is heard of at the time 5, and evicted at the time 100. -/
def evictedLog : List NodeLogStep :=
  [.append ⟨.nodeHeartbeat, 1, encodeHeartbeatPayload zeroHeartbeat heardOnce⟩, .commit 1 5,
    .evict 100 10]

def beforeRestart : NodeLogState Unit :=
  (nodeLogs zeroHeartbeat).final (fun s a => s.InOrder a) (.fresh Unit) evictedLog

theorem beforeRestart_restarts :
    (beforeRestart.step zeroHeartbeat (.restart fun _ => 200)).isSome = true := by decide +kernel

def afterRestart : NodeLogState Unit :=
  (beforeRestart.step zeroHeartbeat (.restart fun _ => 200)).get beforeRestart_restarts

theorem beforeRestart_run : (nodeLogs zeroHeartbeat).Run (fun s a => s.InOrder a) (.fresh Unit)
    evictedLog beforeRestart :=
  Machine.run_final (by decide +kernel)

theorem node_table_of_run_evicted :
    (∀ id, (beforeRestart.coord.nodeTable.get id).map NodeRecord.revived =
      beforeRestart.wal.lastHeard zeroHeartbeat beforeRestart.applied id) ∧
    beforeRestart.coord.chunkTable =
      (beforeRestart.applied.map Prod.fst).foldl beforeRestart.wal.applyAt Kv.empty :=
  node_table_of_run beforeRestart_run.reach

theorem restart_keeps_nodes_evicted :
    (∀ id, (afterRestart.coord.nodeTable.get id).map NodeRecord.reported =
      (beforeRestart.coord.nodeTable.get id).map NodeRecord.reported) ∧
    (∀ id n, afterRestart.coord.nodeTable.get id = some n → n.alive = true) ∧
      afterRestart.coord.chunkTable = beforeRestart.coord.chunkTable :=
  restart_keeps_nodes beforeRestart_run (Option.some_get beforeRestart_restarts).symm

end NimbusVault
