import Mathlib.Data.Finset.Basic
import NimbusVault.Lib.Kv
import NimbusVault.Lib.Text

/-!
# Coordinator — the metadata tables

The leader's in-memory state: the chunk table with the four operations that log entries trigger, and
the node table.  A byte string is a `List Char`.  The tables are `unordered_map`s in the source; a
`Kv` gives them one representation, so that `=` on tables is equality of contents.
-/

namespace NimbusVault

open Lib

/-- `std::string`. -/
abbrev Str := List Char

instance (s : Str) (l : List Str) : Decidable (s ∈ l) := inferInstance

inductive ChunkConfigState
  | stable
  | transitioning
  deriving DecidableEq, Repr

structure ChunkEntry where
  chunkId : Str
  version : UInt64
  replicaSet : List Str
  replicationFactor : Int32
  configState : ChunkConfigState
  oldReplicaSet : List Str
  sizeBytes : UInt64
  deriving DecidableEq

structure NodeEntry where
  nodeId : Str
  address : Str
  alive : Bool := true
  deriving DecidableEq

abbrev ChunkTable := Kv Str ChunkEntry

abbrev NodeTable := Kv Str NodeEntry

def getAliveNodes (nt : NodeTable) : List NodeEntry := (nt.entries.map Prod.snd).filter (·.alive)

/-- `get_chunks`: a copy of every entry. -/
def getChunks (t : ChunkTable) : List ChunkEntry := t.entries.map Prod.snd

namespace ChunkTable

/-- Every entry is stored under its own chunk id. -/
def Keyed (t : ChunkTable) : Prop := ∀ c e, t.get c = some e → e.chunkId = c

/-- `operator[]` creates a missing entry, and every field is then assigned. -/
def applyPutChunk (t : ChunkTable) (chunkId : Str) (sizeBytes : UInt64) (desiredRf : Int32)
    (replicaSet : List Str) (version : UInt64) : ChunkTable :=
  t.put chunkId
    { chunkId, version, sizeBytes, replicationFactor := desiredRf, replicaSet,
      configState := .stable, oldReplicaSet := [] }

def applyDeleteChunk (t : ChunkTable) (chunkId : Str) : ChunkTable := t.erase chunkId

def startEntry (oldSet newSet : List Str) (e : ChunkEntry) : ChunkEntry :=
  { e with configState := .transitioning, replicationFactor := Int32.ofNat newSet.length,
           oldReplicaSet := oldSet, replicaSet := newSet }

def applyReconfigStart (t : ChunkTable) (chunkId : Str) (oldSet newSet : List Str) : ChunkTable :=
  t.alter chunkId (Option.map (startEntry oldSet newSet))

def commitEntry (newSet : List Str) (e : ChunkEntry) : ChunkEntry :=
  { e with configState := .stable, replicationFactor := Int32.ofNat newSet.length,
           replicaSet := newSet, oldReplicaSet := [] }

def applyReconfigCommit (t : ChunkTable) (chunkId : Str) (newSet : List Str) : ChunkTable :=
  t.alter chunkId (Option.map (commitEntry newSet))

def nextVersion (t : ChunkTable) (chunkId : Str) : UInt64 :=
  ((t.get chunkId).elim 0 ChunkEntry.version) + 1

end ChunkTable

/-! ### Replica entries

A replica entry is `node_id=address`, or a bare node id whose address is looked up among the alive
nodes. -/

/-- `entry.find('=')`: the text before and after the first `=`. -/
def splitEntry (entry : Str) : Option (Str × Str) :=
  if '=' ∈ entry then some (entry.takeWhile (· ≠ '='), (entry.dropWhile (· ≠ '=')).tail) else none

def extractNodeId (entry : Str) : Str := (splitEntry entry).elim entry Prod.fst

def addressOf (alive : List NodeEntry) (nodeId : Str) : Option Str :=
  (alive.find? (·.nodeId = nodeId)).map NodeEntry.address

def resolveReplicaAddress (alive : List NodeEntry) (entry : Str) : Str :=
  match splitEntry entry with
  | some (_, addr) => addr
  | none => (addressOf alive entry).getD []

def encodeReplicaTarget (alive : List NodeEntry) (entry : Str) : Str :=
  if '=' ∈ entry then entry
  else match addressOf alive entry with
    | some addr => entry ++ '=' :: addr
    | none => entry

theorem splitEntry_pair {id addr : Str} (h : '=' ∉ id) :
    splitEntry (id ++ '=' :: addr) = some (id, addr) := by
  have hid : ∀ c ∈ id, (decide (c ≠ '=')) = true := fun c hc => by
    simpa using fun he : c = '=' => h (he ▸ hc)
  rw [splitEntry, if_pos (by simp), List.takeWhile_append_of_pos hid,
    List.dropWhile_append_of_pos hid]
  simp

theorem splitEntry_eq_some_iff {entry id addr : Str} :
    splitEntry entry = some (id, addr) ↔ entry = id ++ '=' :: addr ∧ '=' ∉ id := by
  constructor
  · intro h
    have heq : '=' ∈ entry := by
      by_contra hno
      rw [splitEntry, if_neg hno] at h
      cases h
    obtain ⟨id', addr', rfl, hid⟩ := List.eq_append_cons_of_mem heq
    rw [splitEntry_pair hid] at h
    obtain ⟨rfl, rfl⟩ := Prod.mk.inj (Option.some.inj h)
    exact ⟨rfl, hid⟩
  · rintro ⟨rfl, h⟩
    exact splitEntry_pair h

/-! ### Well-formed node names

The separators of the log payloads and of replica entries do not occur in the names of a cluster's
nodes.  `Cluster` carries this, and that ids are distinct, with the node list. -/

structure NodeEntry.WellNamed (n : NodeEntry) : Prop where
  id_ne : n.nodeId ≠ []
  id_eq : '=' ∉ n.nodeId
  id_bar : '|' ∉ n.nodeId
  id_comma : ',' ∉ n.nodeId
  addr_ne : n.address ≠ []
  addr_bar : '|' ∉ n.address
  addr_comma : ',' ∉ n.address

instance (n : NodeEntry) : Decidable n.WellNamed :=
  decidable_of_iff (n.nodeId ≠ [] ∧ '=' ∉ n.nodeId ∧ '|' ∉ n.nodeId ∧ ',' ∉ n.nodeId ∧
      n.address ≠ [] ∧ '|' ∉ n.address ∧ ',' ∉ n.address)
    ⟨fun ⟨a, b, c, d, e, f, g⟩ => ⟨a, b, c, d, e, f, g⟩,
      fun h => ⟨h.id_ne, h.id_eq, h.id_bar, h.id_comma, h.addr_ne, h.addr_bar, h.addr_comma⟩⟩

/-- The storage nodes of a cluster, all alive, with distinct ids. -/
structure Cluster where
  nodes : List NodeEntry
  wellNamed : ∀ n ∈ nodes, n.WellNamed
  nodup : (nodes.map NodeEntry.nodeId).Nodup

/-- The entry `node_id=address` of a node. -/
def NodeEntry.entry (n : NodeEntry) : Str := n.nodeId ++ '=' :: n.address

theorem NodeEntry.WellNamed.splitEntry {n : NodeEntry} (h : n.WellNamed) :
    splitEntry n.entry = some (n.nodeId, n.address) := splitEntry_pair h.id_eq

theorem NodeEntry.WellNamed.extractNodeId {n : NodeEntry} (h : n.WellNamed) :
    extractNodeId n.entry = n.nodeId := by
  rw [NimbusVault.extractNodeId, h.splitEntry]; rfl

theorem NodeEntry.WellNamed.resolve {n : NodeEntry} (h : n.WellNamed) (alive : List NodeEntry) :
    resolveReplicaAddress alive n.entry = n.address := by
  rw [resolveReplicaAddress, h.splitEntry]

/-- A payload field: not empty, and free of both separators. -/
def IsField (s : Str) : Prop := s ≠ [] ∧ '|' ∉ s ∧ ',' ∉ s

instance (s : Str) : Decidable (IsField s) := inferInstanceAs (Decidable (_ ∧ _ ∧ _))

theorem NodeEntry.WellNamed.isField {n : NodeEntry} (h : n.WellNamed) : IsField n.entry := by
  refine ⟨by simp [entry], ?_, ?_⟩
  · simp [entry, h.id_bar, h.addr_bar]
  · simp [entry, h.id_comma, h.addr_comma]

/-- An entry that already carries an address is left alone. -/
theorem NodeEntry.encode_entry (n : NodeEntry) (alive : List NodeEntry) :
    encodeReplicaTarget alive n.entry = n.entry := by
  rw [encodeReplicaTarget, if_pos (by simp [entry])]

namespace Cluster

variable (cl : Cluster)

theorem addressOf_eq {n : NodeEntry} (hn : n ∈ cl.nodes) :
    addressOf cl.nodes n.nodeId = some n.address := by
  have hsome : (cl.nodes.find? (·.nodeId = n.nodeId)).isSome :=
    List.find?_isSome.mpr ⟨n, hn, by simp⟩
  obtain ⟨m, hm⟩ := Option.isSome_iff_exists.mp hsome
  have hmem : m ∈ cl.nodes := List.mem_of_find?_eq_some hm
  have hid : m.nodeId = n.nodeId := by simpa using List.find?_some hm
  have : m = n := List.inj_on_of_nodup_map cl.nodup hmem hn hid
  rw [addressOf, hm, this]; rfl

/-- The id of a cluster node is encoded with the node's address. -/
theorem encode_nodeId {n : NodeEntry} (hn : n ∈ cl.nodes) :
    encodeReplicaTarget cl.nodes n.nodeId = n.entry := by
  rw [encodeReplicaTarget, if_neg (cl.wellNamed n hn).id_eq, cl.addressOf_eq hn]
  rfl

end Cluster

end NimbusVault
