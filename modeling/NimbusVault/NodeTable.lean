import NimbusVault.SnapshotRace

/-!
# NodeTable — heartbeats, evictions, and the snapshot of a coordinator

A `MetaCoordinator` is the two tables, every entry under its own id.  Heartbeats and evictions are
the writers of the node table, and `install` replaces both tables by those of a snapshot.  The chunk
table comes back as it was (`install_chunkTable`).  Of a node the liveness flag is written but never
read, so that a restored node is alive: the node table comes back exactly when all its nodes were
alive (`install_nodeTable_iff`).
-/

namespace NimbusVault

open Lib

variable {φ : Type}

/-- Every node is stored under its own id. -/
def NodesKeyed (t : Kv Str (NodeRecord φ)) : Prop := ∀ id n, t.get id = some n → n.nodeId = id

theorem nodesKeyed_empty : NodesKeyed (Kv.empty : Kv Str (NodeRecord φ)) := fun _ _ h => by simp at h

theorem restoreNodes_keyed (nodes : List (NodeRecord φ)) : NodesKeyed (restoreNodes nodes) :=
  Kv.keyed_foldl_put nodes

theorem restoreChunks_keyed (chunks : List ChunkEntry) : (restoreChunks chunks).Keyed :=
  Kv.keyed_foldl_put chunks

/-- The tables of a leader or follower. -/
structure MetaCoordinator (φ : Type) where
  nodeTable : Kv Str (NodeRecord φ)
  chunkTable : ChunkTable
  nodes_keyed : NodesKeyed nodeTable
  chunks_keyed : chunkTable.Keyed

namespace MetaCoordinator

def getNodes (c : MetaCoordinator φ) : List (NodeRecord φ) := c.nodeTable.entries.map Prod.snd

def getAliveNodes (c : MetaCoordinator φ) : List (NodeRecord φ) := c.getNodes.filter (·.alive)

theorem heartbeat_keyed {t : Kv Str (NodeRecord φ)} (h : NodesKeyed t) (n : NodeRecord φ) :
    NodesKeyed (t.put n.nodeId n) :=
  Kv.keyed_put h n

/-- `operator[]` creates a missing node, and every field is then assigned; `now` is the clock. -/
def applyHeartbeat (c : MetaCoordinator φ) (nodeId address : Str) (load : φ)
    (freeBytes totalBytes : UInt64) (failRate : φ) (now : UInt64) : MetaCoordinator φ :=
  let n : NodeRecord φ :=
    { nodeId, address, alive := true, loadFraction := load, freeBytes, totalBytes,
      failureRate7d := failRate, lastSeenMs := now }
  { c with nodeTable := c.nodeTable.put n.nodeId n, nodes_keyed := heartbeat_keyed c.nodes_keyed n }

/-- The body of the loop of `evict_stale_nodes`; the difference wraps. -/
def evict (now timeout : UInt64) (n : NodeRecord φ) : NodeRecord φ :=
  if n.alive ∧ now - n.lastSeenMs > timeout then { n with alive := false } else n

theorem nodeId_evict (now timeout : UInt64) (n : NodeRecord φ) :
    (evict now timeout n).nodeId = n.nodeId := by
  unfold evict
  split_ifs <;> rfl

theorem evict_keyed {t : Kv Str (NodeRecord φ)} (h : NodesKeyed t) (now timeout : UInt64) :
    NodesKeyed (t.mapValues (evict now timeout)) := by
  intro id n hn
  rw [Kv.get_mapValues] at hn
  obtain ⟨m, hm, rfl⟩ := Option.map_eq_some_iff.mp hn
  exact (nodeId_evict now timeout m).trans (h id m hm)

def evictStaleNodes (c : MetaCoordinator φ) (now timeout : UInt64) : MetaCoordinator φ :=
  { c with
    nodeTable := c.nodeTable.mapValues (evict now timeout)
    nodes_keyed := evict_keyed c.nodes_keyed now timeout }

theorem installSnapshot_keyed {F : FloatText φ} {data : Str}
    {r : ℕ × Kv Str (NodeRecord φ) × ChunkTable} (h : installSnapshot F data = .ok r) :
    NodesKeyed r.2.1 ∧ r.2.2.Keyed := by
  unfold installSnapshot at h
  split_ifs at h
  simp only [bind, Except.bind] at h
  split at h
  · simp at h
  split_ifs at h
  split at h
  · simp at h
  obtain rfl := Except.ok.inj h
  exact ⟨restoreNodes_keyed _, restoreChunks_keyed _⟩

/-- `install_snapshot` into a coordinator: both tables are cleared first. -/
def install (F : FloatText φ) (_ : MetaCoordinator φ) (data : Str) : Install (ℕ × MetaCoordinator φ) :=
  match h : installSnapshot F data with
  | .error e => .error e
  | .ok r => .ok (r.1, ⟨r.2.1, r.2.2, (installSnapshot_keyed h).1, (installSnapshot_keyed h).2⟩)

theorem install_of_ok {F : FloatText φ} (c : MetaCoordinator φ) {data : Str}
    {r : ℕ × Kv Str (NodeRecord φ) × ChunkTable} (h : installSnapshot F data = .ok r) :
    ∃ c', c.install F data = .ok (r.1, c') ∧ c'.nodeTable = r.2.1 ∧ c'.chunkTable = r.2.2 := by
  unfold install
  split
  · rename_i e he
    rw [h] at he
    simp at he
  · rename_i r' hr
    obtain rfl : r = r' := by rw [h] at hr; exact Except.ok.inj hr
    exact ⟨_, rfl, rfl, rfl⟩

end MetaCoordinator

/-! ### The writers of the node table -/

inductive NodeStep (φ : Type)
  | heartbeat (nodeId address : Str) (load : φ) (freeBytes totalBytes : UInt64) (failRate : φ)
      (now : UInt64)
  | evictStale (now timeout : UInt64)

/-- No `;` in the names a heartbeat carries. -/
def NodeStep.Plain : NodeStep φ → Prop
  | .heartbeat nodeId address _ _ _ _ _ => ';' ∉ nodeId ∧ ';' ∉ address
  | .evictStale _ _ => True

instance (a : NodeStep φ) : Decidable a.Plain :=
  match a with
  | .heartbeat _ _ _ _ _ _ _ => inferInstanceAs (Decidable (_ ∧ _))
  | .evictStale _ _ => inferInstanceAs (Decidable True)

namespace MetaCoordinator

def step (c : MetaCoordinator φ) : NodeStep φ → MetaCoordinator φ
  | .heartbeat nodeId address load freeBytes totalBytes failRate now =>
    c.applyHeartbeat nodeId address load freeBytes totalBytes failRate now
  | .evictStale now timeout => c.evictStaleNodes now timeout

/-- No nodes yet, next to a chunk table. -/
def noNodes (φ : Type) (t : ChunkTable) (h : t.Keyed) : MetaCoordinator φ where
  nodeTable := Kv.empty
  chunkTable := t
  nodes_keyed := nodesKeyed_empty
  chunks_keyed := h

end MetaCoordinator

/-- Any sequence of heartbeats and evictions. -/
abbrev nodeUpdates (φ : Type) : Machine (MetaCoordinator φ) (NodeStep φ) :=
  .ofStep fun c a => some (c.step a)

/-! ### What a snapshot brings back -/

/-- A node with the fields that placement and eviction look at. -/
structure SameNode (n n' : NodeRecord φ) : Prop where
  address : n'.address = n.address
  freeBytes : n'.freeBytes = n.freeBytes
  totalBytes : n'.totalBytes = n.totalBytes
  lastSeenMs : n'.lastSeenMs = n.lastSeenMs
  alive : n'.alive = n.alive

/-- The nodes of `c` are there again, and the alive ones are the same. -/
structure MetaCoordinator.Reproduces (c c' : MetaCoordinator φ) : Prop where
  node : ∀ id n, c.nodeTable.get id = some n → ∃ n', c'.nodeTable.get id = some n' ∧ SameNode n n'
  alive : ∀ id, (∃ n ∈ c'.getAliveNodes, n.nodeId = id) ↔ ∃ n ∈ c.getAliveNodes, n.nodeId = id

section Install

variable {F : FloatText φ} {c : MetaCoordinator φ} {lsn : ℕ} {nodes : List (NodeRecord φ)}
  {chunks : List ChunkEntry}

theorem PlainSnapshot.perm {nodes' : List (NodeRecord φ)} {chunks' : List ChunkEntry}
    (h : PlainSnapshot F lsn nodes' chunks') (hn : nodes.Perm nodes') (hc : chunks.Perm chunks') :
    PlainSnapshot F lsn nodes chunks where
  lsn_lt := h.lsn_lt
  nodes_lt := hn.length_eq ▸ h.nodes_lt
  chunks_lt := hc.length_eq ▸ h.chunks_lt
  node n hm := h.node n (hn.mem_iff.mp hm)
  chunk e hm := h.chunk e (hc.mem_iff.mp hm)

/-- The node table as the parser makes it. -/
theorem restoreNodes_reread (hn : nodes.Perm c.getNodes) :
    restoreNodes (nodes.map (NodeRecord.reread F)) = c.nodeTable.mapValues (NodeRecord.reread F) := by
  refine Kv.foldl_put_perm (fun id n h => ?_) ?_
  · rw [Kv.get_mapValues] at h
    obtain ⟨m, hm, rfl⟩ := Option.map_eq_some_iff.mp h
    exact c.nodes_keyed id m hm
  · show (nodes.map _).Perm ((c.nodeTable.entries.map _).map Prod.snd)
    rw [List.map_map]
    have hperm := hn.map (NodeRecord.reread F)
    rwa [MetaCoordinator.getNodes, List.map_map] at hperm

/-- What `install` makes of the two tables, listed in any order. -/
theorem install_takeSnapshot (c' : MetaCoordinator φ) (hn : nodes.Perm c.getNodes)
    (hc : chunks.Perm (getChunks c.chunkTable))
    (h : PlainSnapshot F lsn c.getNodes (getChunks c.chunkTable)) :
    ∃ c'', c'.install F (takeSnapshot F lsn nodes chunks) = .ok (lsn, c'') ∧
      c''.nodeTable = c.nodeTable.mapValues (NodeRecord.reread F) ∧ c''.chunkTable = c.chunkTable := by
  have hok := installSnapshot_takeSnapshot (h.perm hn hc)
  have hchunks : restoreChunks chunks = c.chunkTable := Kv.foldl_put_perm c.chunks_keyed hc
  rw [restoreNodes_reread hn, hchunks] at hok
  exact c'.install_of_ok hok

/-- **The chunk table comes back.** -/
theorem install_chunkTable (c' : MetaCoordinator φ) (hn : nodes.Perm c.getNodes)
    (hc : chunks.Perm (getChunks c.chunkTable))
    (h : PlainSnapshot F lsn c.getNodes (getChunks c.chunkTable)) :
    ∃ c'', c'.install F (takeSnapshot F lsn nodes chunks) = .ok (lsn, c'') ∧
      c''.chunkTable = c.chunkTable := by
  obtain ⟨c'', hok, -, hchunks⟩ := install_takeSnapshot c' hn hc h
  exact ⟨c'', hok, hchunks⟩

/-- **A restored node table is the old one exactly when all its nodes were alive.** -/
theorem MetaCoordinator.reproduces_iff {c' : MetaCoordinator φ}
    (h : c'.nodeTable = c.nodeTable.mapValues (NodeRecord.reread F)) :
    c.Reproduces c' ↔ ∀ n ∈ c.getNodes, n.alive = true := by
  have hget : ∀ id, c'.nodeTable.get id = (c.nodeTable.get id).map (NodeRecord.reread F) := fun id => by
    rw [h, Kv.get_mapValues]
  constructor
  · intro hrep n hn
    obtain ⟨id, hid⟩ := Kv.mem_values.mp hn
    obtain ⟨n', hn', hsame⟩ := hrep.node id n hid
    rw [hget, hid, Option.map_some] at hn'
    obtain rfl := Option.some.inj hn'
    exact hsame.alive.symm
  · intro halive
    have hfilter : ∀ n, n ∈ c.getAliveNodes ↔ n ∈ c.getNodes := fun n => by
      rw [getAliveNodes, List.mem_filter]
      exact ⟨And.left, fun hn => ⟨hn, halive n hn⟩⟩
    refine ⟨fun id n hn => ⟨n.reread F, by rw [hget, hn, Option.map_some], ?_⟩, fun id => ?_⟩
    · exact ⟨rfl, rfl, rfl, rfl, (halive n (Kv.mem_values.mpr ⟨id, hn⟩)).symm⟩
    · constructor
      · rintro ⟨n', hn', rfl⟩
        obtain ⟨id, hid⟩ := Kv.mem_values.mp (List.mem_of_mem_filter hn')
        rw [hget] at hid
        obtain ⟨n, hn, rfl⟩ := Option.map_eq_some_iff.mp hid
        exact ⟨n, (hfilter n).mpr (Kv.mem_values.mpr ⟨id, hn⟩), rfl⟩
      · rintro ⟨n, hn, rfl⟩
        obtain ⟨id, hid⟩ := Kv.mem_values.mp ((hfilter n).mp hn)
        have hn' : n.reread F ∈ c'.getNodes :=
          Kv.mem_values.mpr ⟨id, by rw [hget, hid, Option.map_some]⟩
        exact ⟨n.reread F, List.mem_filter.mpr ⟨hn', rfl⟩, rfl⟩

/-- The chunk table `t`, and nodes with plain names. -/
def MetaCoordinator.PlainNames (t : ChunkTable) (c : MetaCoordinator φ) : Prop :=
  c.chunkTable = t ∧ ∀ id n, c.nodeTable.get id = some n → ';' ∉ n.nodeId ∧ ';' ∉ n.address

/-- The names in the table are those of the heartbeats. -/
theorem plainNames_of_run {t : ChunkTable} {ht : t.Keyed} {tr : List (NodeStep φ)}
    (h : (nodeUpdates φ).Run (fun _ a => a.Plain) (.noNodes φ t ht) tr c) : c.PlainNames t := by
  refine h.invariant_step (I := MetaCoordinator.PlainNames t) ?_ ?_
  · exact ⟨rfl, fun id n hn => absurd hn (by simp [MetaCoordinator.noNodes])⟩
  rintro c a c' ⟨hchunks, hplain⟩ hs ha
  obtain rfl := Option.some.inj hs
  cases a with
  | heartbeat nodeId address load freeBytes totalBytes failRate now =>
    exact ⟨hchunks, Kv.forall_put hplain ha⟩
  | evictStale now timeout =>
    refine ⟨hchunks, fun id n hn => ?_⟩
    simp only [MetaCoordinator.step, MetaCoordinator.evictStaleNodes, Kv.get_mapValues] at hn
    obtain ⟨m, hm, rfl⟩ := Option.map_eq_some_iff.mp hn
    have hsame : (MetaCoordinator.evict now timeout m).nodeId = m.nodeId ∧
        (MetaCoordinator.evict now timeout m).address = m.address := by
      unfold MetaCoordinator.evict
      split_ifs <;> exact ⟨rfl, rfl⟩
    rw [hsame.1, hsame.2]
    exact hplain id m hm

/-- **When a snapshot brings the node table back**, next to a plain chunk table. -/
theorem install_nodeTable_iff (c' : MetaCoordinator φ) {t : ChunkTable} {ht : t.Keyed}
    {tr : List (NodeStep φ)} (h : (nodeUpdates φ).Run (fun _ a => a.Plain) (.noNodes φ t ht) tr c)
    (hlsn : lsn < 2 ^ 64) (hnodes : c.getNodes.length < 2 ^ 32)
    (hsize : ∀ n ∈ c.getNodes, (serializeNode F n).length < 2 ^ 32)
    (hchunks : (getChunks t).length < 2 ^ 32) (hplain : ∀ e ∈ getChunks t, e.Plain)
    (hn : nodes.Perm c.getNodes) (hc : chunks.Perm (getChunks t)) :
    (∃ c'', c'.install F (takeSnapshot F lsn nodes chunks) = .ok (lsn, c'') ∧ c.Reproduces c'') ↔
      ∀ n ∈ c.getNodes, n.alive = true := by
  obtain ⟨rfl, hnames⟩ := plainNames_of_run h
  have hsnap : PlainSnapshot F lsn c.getNodes (getChunks c.chunkTable) := by
    refine ⟨hlsn, hnodes, hchunks, fun n hm => ?_, hplain⟩
    obtain ⟨id, hid⟩ := Kv.mem_values.mp hm
    exact ⟨(hnames id n hid).1, (hnames id n hid).2, hsize n hm⟩
  obtain ⟨r, hok, htable, -⟩ := install_takeSnapshot c' hn hc hsnap
  rw [← MetaCoordinator.reproduces_iff htable]
  constructor
  · rintro ⟨c'', hok', hrep⟩
    rw [hok] at hok'
    obtain rfl : r = c'' := (Prod.mk.inj (Except.ok.inj hok')).2
    exact hrep
  · exact fun hrep => ⟨r, hok, hrep⟩

end Install

/-! ### A node that was declared dead -/

/-- The node `n` is heard of at the time 5. -/
def heardTrace : List (NodeStep Unit) := [.heartbeat "n".toList "a".toList () 1 1 () 5]

/-- No more is heard of it, and it is evicted. -/
def evictedTrace : List (NodeStep Unit) := heardTrace ++ [.evictStale 100 10]

/-- A chunk table with one chunk. -/
def racedTable : ChunkTable := restoreChunks [racedEntry]

theorem getChunks_racedTable : getChunks racedTable = [racedEntry] := by rfl

/-- The coordinator behind a trace. -/
def nodesAfter (tr : List (NodeStep Unit)) : MetaCoordinator Unit :=
  (nodeUpdates Unit).final (fun _ a => a.Plain)
    (.noNodes Unit racedTable (restoreChunks_keyed [racedEntry])) tr

/-- The node as it was heard of, or as it was evicted. -/
def heardNode (alive : Bool) : NodeRecord Unit :=
  { nodeId := "n".toList, address := "a".toList, alive, loadFraction := (), freeBytes := 1,
    totalBytes := 1, failureRate7d := (), lastSeenMs := 5 }

theorem heard_run : (nodeUpdates Unit).Run (fun _ a => a.Plain)
    (.noNodes Unit racedTable (restoreChunks_keyed [racedEntry])) heardTrace (nodesAfter heardTrace) :=
  Machine.run_final (by decide)

theorem evicted_run : (nodeUpdates Unit).Run (fun _ a => a.Plain)
    (.noNodes Unit racedTable (restoreChunks_keyed [racedEntry])) evictedTrace
    (nodesAfter evictedTrace) :=
  Machine.run_final (by decide)

theorem getNodes_heard : (nodesAfter heardTrace).getNodes = [heardNode true] := by rfl

theorem getNodes_evicted : (nodesAfter evictedTrace).getNodes = [heardNode false] := by rfl

theorem heardNode_size (alive : Bool) : (serializeNode zeroText (heardNode alive)).length < 2 ^ 32 := by
  cases alive <;> decide

theorem racedEntry_mem {e : ChunkEntry} (h : e ∈ getChunks racedTable) : e.Plain := by
  rw [getChunks_racedTable, List.mem_singleton] at h
  exact h ▸ racedEntry_plain

theorem install_chunkTable_heard : ∃ c'', (nodesAfter []).install zeroText
      (takeSnapshot zeroText 1 [heardNode true] [racedEntry]) = .ok (1, c'') ∧
    c''.chunkTable = (nodesAfter heardTrace).chunkTable := by
  refine install_chunkTable (nodesAfter []) (.of_eq getNodes_heard.symm)
    (.of_eq getChunks_racedTable.symm) ⟨by decide, by decide, by decide, fun n hn => ?_, fun e he => ?_⟩
  · rw [getNodes_heard, List.mem_singleton] at hn
    exact hn ▸ ⟨by decide, by decide, heardNode_size true⟩
  · exact racedEntry_mem he

theorem install_nodeTable_iff_heard :
    (∃ c'', (nodesAfter []).install zeroText (takeSnapshot zeroText 1 [heardNode true] [racedEntry]) =
        .ok (1, c'') ∧ (nodesAfter heardTrace).Reproduces c'') ↔
      ∀ n ∈ (nodesAfter heardTrace).getNodes, n.alive = true := by
  refine install_nodeTable_iff (nodesAfter []) heard_run (by decide) (by decide) (fun n hn => ?_)
    (by decide) (fun e he => racedEntry_mem he) (.of_eq getNodes_heard.symm)
    (.of_eq getChunks_racedTable.symm)
  rw [getNodes_heard, List.mem_singleton] at hn
  exact hn ▸ heardNode_size true

/-- **A node that was declared dead is restored alive.** -/
theorem install_revives_node :
    ¬ ∀ (tr : List (NodeStep Unit)) (c c' : MetaCoordinator Unit) (nodes : List (NodeRecord Unit)),
      (nodeUpdates Unit).Run (fun _ a => a.Plain)
        (.noNodes Unit racedTable (restoreChunks_keyed [racedEntry])) tr c →
      c.getNodes.length < 2 ^ 32 →
      (∀ n ∈ c.getNodes, (serializeNode zeroText n).length < 2 ^ 32) → nodes.Perm c.getNodes →
      ∃ c'', c'.install zeroText (takeSnapshot zeroText 1 nodes [racedEntry]) = .ok (1, c'') ∧
        c.Reproduces c'' := by
  intro hall
  have hsize : ∀ n ∈ (nodesAfter evictedTrace).getNodes,
      (serializeNode zeroText n).length < 2 ^ 32 := fun n hn => by
    rw [getNodes_evicted, List.mem_singleton] at hn
    exact hn ▸ heardNode_size false
  obtain ⟨c'', hok, hrep⟩ := hall evictedTrace _ (nodesAfter []) [heardNode false] evicted_run
    (by decide) hsize (.of_eq getNodes_evicted.symm)
  have hplain : PlainSnapshot zeroText 1 (nodesAfter evictedTrace).getNodes
      (getChunks (nodesAfter evictedTrace).chunkTable) := by
    refine ⟨by decide, by decide, by decide, fun n hn => ?_, fun e he => racedEntry_mem he⟩
    have hn' := hn
    rw [getNodes_evicted, List.mem_singleton] at hn'
    exact ⟨hn' ▸ by decide, hn' ▸ by decide, hsize n hn⟩
  obtain ⟨r, hok', htable, -⟩ := install_takeSnapshot (F := zeroText) (nodesAfter [])
    (.of_eq getNodes_evicted.symm) (.of_eq getChunks_racedTable.symm) hplain
  rw [hok'] at hok
  obtain rfl : r = c'' := (Prod.mk.inj (Except.ok.inj hok)).2
  have halive := (MetaCoordinator.reproduces_iff htable).mp hrep (heardNode false)
    (getNodes_evicted ▸ List.mem_singleton_self _)
  exact absurd halive (by decide)

end NimbusVault
