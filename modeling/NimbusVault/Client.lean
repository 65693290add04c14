import NimbusVault.PutChunk

/-!
# Client — reads through the metadata leader

`NimbusClient.get` asks the leader for the chunk's metadata, turns it into a try-list, and goes
through the list up to sixty times until a node answers with a version at least the target.  Stubs
are cached by node id (`getOrCreateStub`): a cached stub keeps the address it was created for.  An
RPC to a storage node is a function of the address; `none` is a failed one.
-/

namespace NimbusVault

open Lib

/-! ### The leader's answer -/

/-- The handler `GetChunkInfo`: the chunk's entry with its replicas encoded, or the error text. -/
def getChunkInfo (leader : Bool) (alive : List NodeEntry) (t : ChunkTable) (chunkId : Str) :
    Except Str ChunkEntry :=
  if leader = false then .error "NotLeader".toList
  else match t.get chunkId with
    | none => .error "not found".toList
    | some e => .ok { e with
        replicaSet := e.replicaSet.map (encodeReplicaTarget alive)
        oldReplicaSet := e.oldReplicaSet.map (encodeReplicaTarget alive) }

/-! ### The client -/

/-- The client's maps: node addresses, and for each cached stub the address it is connected to. -/
structure NimbusClient where
  nodeAddrs : Kv Str Str
  storageStubs : Kv Str Str := Kv.empty
  deriving DecidableEq

structure GetResult where
  ok : Bool
  error : Str := []
  data : Str := []
  version : UInt64 := 0
  deriving DecidableEq

def parseReplicaEntry (entry : Str) : Str × Str := (splitEntry entry).getD (entry, [])

namespace NimbusClient

/-- The address the stub for `nodeId` is connected to. -/
def getOrCreateStub (c : NimbusClient) (nodeId addr : Str) : Option Str × NimbusClient :=
  let nodeAddrs := if addr = [] then c.nodeAddrs else c.nodeAddrs.put nodeId addr
  match nodeAddrs.get nodeId with
  | none => (none, { c with nodeAddrs })
  | some resolved =>
    match c.storageStubs.get nodeId with
    | some target => (some target, { c with nodeAddrs })
    | none => (some resolved, { nodeAddrs, storageStubs := c.storageStubs.put nodeId resolved })

def buildReplicaTryList (e : ChunkEntry) : List Str := e.replicaSet ++ e.oldReplicaSet

/-- One `ReadChunk` for a replica entry. -/
def tryRead (rpc : Str → Option ReadChunkResp) (c : NimbusClient) (entry : Str) :
    Option ReadChunkResp × NimbusClient :=
  let (nodeId, parsedAddr) := parseReplicaEntry entry
  match c.getOrCreateStub nodeId parsedAddr with
  | (none, c) => (none, c)
  | (some target, c) => ((rpc target).filter (·.ok), c)

/-- One pass over the try-list. -/
def readPass (rpc : Str → Option ReadChunkResp) : NimbusClient → List Str →
    Option ReadChunkResp × NimbusClient
  | c, [] => (none, c)
  | c, entry :: entries =>
    match c.tryRead rpc entry with
    | (some r, c) => (some r, c)
    | (none, c) => readPass rpc c entries

/-- `n` passes, up to the first that finds something. -/
def readAttempts (rpc : Str → Option ReadChunkResp) (replicas : List Str) : ℕ → NimbusClient →
    Option ReadChunkResp × NimbusClient
  | 0, c => (none, c)
  | n + 1, c =>
    match c.readPass rpc replicas with
    | (some r, c) => (some r, c)
    | (none, c) => readAttempts rpc replicas n c

def attempts : ℕ := 60

/-- `get`, given the leader's answer; `rpc minVersion addr` is the read at a node. -/
def get (c : NimbusClient) (info : Except Str ChunkEntry) (rpc : UInt64 → Str → Option ReadChunkResp)
    (minVersion : UInt64) : GetResult × NimbusClient :=
  match info with
  | .error error => ({ ok := false, error }, c)
  | .ok e =>
    let target := if minVersion = 0 then e.version else minVersion
    match c.readAttempts (rpc target) (buildReplicaTryList e) attempts with
    | (some r, c) => ({ ok := true, data := r.data, version := r.version }, c)
    | (none, c) => ({ ok := false, error := "all replicas failed".toList }, c)

/-- The request that `put` sends. -/
def putReq (chunkId data : Str) (desiredRf : Int32) : PutChunkReq :=
  { chunkId, sizeBytes := UInt64.ofNat data.length, desiredRf, data }

/-! ### What a client can find

`StubsIn P` says of a client that every stub in its cache leads to an address in the relation `P`
with the node id, and `EntryIn P` of a replica entry that it carries such an address. -/

/-- Every cached stub of a node leads to an address that `P` allows. -/
def StubsIn (P : Str → Str → Prop) (c : NimbusClient) : Prop :=
  ∀ nodeId addr, c.storageStubs.get nodeId = some addr → P nodeId addr

section Find

variable {P : Str → Str → Prop} {c : NimbusClient} {nodeId addr entry : Str}

/-- An entry that carries its address adds at most the stub for that address. -/
theorem getOrCreateStub_in (hc : c.StubsIn P) (ha : addr ≠ []) (hP : P nodeId addr) :
    (∃ target, (c.getOrCreateStub nodeId addr).1 = some target ∧ P nodeId target) ∧
      (c.getOrCreateStub nodeId addr).2.StubsIn P := by
  unfold getOrCreateStub
  simp only [if_neg ha, Kv.get_put_self]
  cases hs : c.storageStubs.get nodeId with
  | some target => exact ⟨⟨target, rfl, hc _ _ hs⟩, hc⟩
  | none =>
    exact ⟨⟨addr, rfl, hP⟩, Kv.forall_put hc hP⟩

/-- The node addresses after a call: an address that comes with it is kept. -/
theorem getOrCreateStub_nodeAddrs : (c.getOrCreateStub nodeId addr).2.nodeAddrs =
    if addr = [] then c.nodeAddrs else c.nodeAddrs.put nodeId addr := by
  unfold getOrCreateStub
  dsimp only
  cases (if addr = [] then c.nodeAddrs else c.nodeAddrs.put nodeId addr).get nodeId with
  | none => rfl
  | some resolved => cases c.storageStubs.get nodeId <;> rfl

/-- A stub is created only for the address kept. -/
theorem getOrCreateStub_stubs (hc : c.StubsIn P)
    (hP : ∀ a, (c.getOrCreateStub nodeId addr).2.nodeAddrs.get nodeId = some a → P nodeId a) :
    (c.getOrCreateStub nodeId addr).2.StubsIn P := by
  rw [getOrCreateStub_nodeAddrs] at hP
  unfold getOrCreateStub
  dsimp only
  generalize (if addr = [] then c.nodeAddrs else c.nodeAddrs.put nodeId addr) = addrs at hP ⊢
  cases hr : addrs.get nodeId with
  | none => exact hc
  | some resolved =>
    cases hs : c.storageStubs.get nodeId with
    | some target => exact hc
    | none => exact Kv.forall_put hc (hP _ hr)

/-- The client after a read depends on the entry alone. -/
theorem tryRead_client (rpc : Str → Option ReadChunkResp) : (c.tryRead rpc entry).2 =
    (c.getOrCreateStub (parseReplicaEntry entry).1 (parseReplicaEntry entry).2).2 := by
  unfold tryRead
  dsimp only
  generalize c.getOrCreateStub (parseReplicaEntry entry).1 (parseReplicaEntry entry).2 = x
  obtain ⟨_ | target, c'⟩ := x <;> rfl

/-- Whatever a read finds is the answer of some node. -/
theorem tryRead_some {rpc : Str → Option ReadChunkResp} {r : ReadChunkResp}
    (h : (c.tryRead rpc entry).1 = some r) : ∃ target, rpc target = some r ∧ r.ok = true := by
  unfold tryRead at h
  dsimp only at h
  generalize c.getOrCreateStub (parseReplicaEntry entry).1 (parseReplicaEntry entry).2 = x at h
  obtain ⟨_ | target, c'⟩ := x
  · simp at h
  · exact ⟨target, Option.filter_eq_some_iff.mp h⟩

/-- An entry `node_id=address` with both parts related by `P`. -/
def EntryIn (P : Str → Str → Prop) (entry : Str) : Prop :=
  ∃ nodeId addr, parseReplicaEntry entry = (nodeId, addr) ∧ addr ≠ [] ∧ P nodeId addr

theorem tryRead_in (rpc : Str → Option ReadChunkResp) (hc : c.StubsIn P) (he : EntryIn P entry) :
    (∀ r, (c.tryRead rpc entry).1 = some r → r.ok = true ∧
      ∃ nodeId addr target, parseReplicaEntry entry = (nodeId, addr) ∧ P nodeId target ∧
        rpc target = some r) ∧
      (c.tryRead rpc entry).2.StubsIn P := by
  obtain ⟨nodeId, addr, hparse, ha, hP⟩ := he
  obtain ⟨⟨target, ht, hPt⟩, hc'⟩ := getOrCreateStub_in hc ha hP
  unfold tryRead
  rw [hparse]
  simp only
  generalize c.getOrCreateStub nodeId addr = x at ht hc'
  obtain ⟨s, c'⟩ := x
  obtain rfl : s = some target := ht
  refine ⟨fun r hr => ?_, hc'⟩
  obtain ⟨hrpc, hok⟩ := Option.filter_eq_some_iff.mp hr
  exact ⟨hok, nodeId, addr, target, rfl, hPt, hrpc⟩

theorem readPass_in {entries : List Str} (rpc : Str → Option ReadChunkResp) (hc : c.StubsIn P)
    (he : ∀ e ∈ entries, EntryIn P e) :
    (∀ r, (c.readPass rpc entries).1 = some r → r.ok = true ∧
      ∃ e ∈ entries, ∃ nodeId addr target, parseReplicaEntry e = (nodeId, addr) ∧ P nodeId target ∧
        rpc target = some r) ∧
      (c.readPass rpc entries).2.StubsIn P := by
  induction entries generalizing c with
  | nil => exact ⟨fun r hr => by simp [readPass] at hr, hc⟩
  | cons e entries ih =>
    obtain ⟨hfound, hc'⟩ := tryRead_in rpc hc (he e (by simp))
    unfold readPass
    generalize c.tryRead rpc e = x at hfound hc'
    obtain ⟨_ | r', c'⟩ := x
    · obtain ⟨h1, h2⟩ := ih hc' fun e he' => he e (by simp [he'])
      refine ⟨fun r hr => ?_, h2⟩
      obtain ⟨hok, e', hmem, h⟩ := h1 r hr
      exact ⟨hok, e', List.mem_cons_of_mem _ hmem, h⟩
    · refine ⟨fun r hr => ?_, hc'⟩
      obtain ⟨hok, h⟩ := hfound r hr
      exact ⟨hok, e, by simp, h⟩

/-- **What a read finds** comes from a node of the try-list. -/
theorem readAttempts_in {entries : List Str} (rpc : Str → Option ReadChunkResp) (hc : c.StubsIn P)
    (he : ∀ e ∈ entries, EntryIn P e) (n : ℕ) :
    (∀ r, (c.readAttempts rpc entries n).1 = some r → r.ok = true ∧
      ∃ e ∈ entries, ∃ nodeId addr target, parseReplicaEntry e = (nodeId, addr) ∧ P nodeId target ∧
        rpc target = some r) ∧
      (c.readAttempts rpc entries n).2.StubsIn P := by
  induction n generalizing c with
  | zero => exact ⟨fun r hr => by simp [readAttempts] at hr, hc⟩
  | succ n ih =>
    obtain ⟨hfound, hc'⟩ := readPass_in rpc hc he
    unfold readAttempts
    generalize c.readPass rpc entries = x at hfound hc'
    obtain ⟨_ | r', c'⟩ := x
    · exact ih hc'
    · exact ⟨hfound, hc'⟩

/-! A read finds something when one node of the try-list answers. -/

theorem tryRead_isSome {rpc : Str → Option ReadChunkResp} (hc : c.StubsIn P) (he : EntryIn P entry)
    (hrpc : ∀ nodeId addr target, parseReplicaEntry entry = (nodeId, addr) → P nodeId target →
      ∃ r, rpc target = some r ∧ r.ok = true) : (c.tryRead rpc entry).1.isSome = true := by
  obtain ⟨nodeId, addr, hparse, ha, hP⟩ := he
  obtain ⟨⟨target, ht, hPt⟩, -⟩ := getOrCreateStub_in hc ha hP
  obtain ⟨r, hr, hok⟩ := hrpc nodeId addr target hparse hPt
  unfold tryRead
  rw [hparse]
  simp only
  generalize c.getOrCreateStub nodeId addr = x at ht
  obtain ⟨s, c'⟩ := x
  obtain rfl : s = some target := ht
  simp [hr, hok]

theorem readPass_isSome {rpc : Str → Option ReadChunkResp} {entries : List Str} (hc : c.StubsIn P)
    (he : ∀ e ∈ entries, EntryIn P e) (hin : entry ∈ entries)
    (hrpc : ∀ nodeId addr target, parseReplicaEntry entry = (nodeId, addr) → P nodeId target →
      ∃ r, rpc target = some r ∧ r.ok = true) : (c.readPass rpc entries).1.isSome = true := by
  induction entries generalizing c with
  | nil => simp at hin
  | cons e entries ih =>
    obtain ⟨-, hc'⟩ := tryRead_in rpc hc (he e (by simp))
    have hfound : e = entry → (c.tryRead rpc e).1.isSome = true := by
      rintro rfl
      exact tryRead_isSome hc (he e (by simp)) hrpc
    unfold readPass
    generalize c.tryRead rpc e = x at hc' hfound
    obtain ⟨_ | r, c'⟩ := x
    · have hne : e ≠ entry := fun h => by simpa using hfound h
      exact ih hc' (fun e he' => he e (by simp [he']))
        ((List.mem_cons.mp hin).resolve_left (Ne.symm hne))
    · rfl

/-- **When a read must find something.** -/
theorem readAttempts_isSome {rpc : Str → Option ReadChunkResp} {entries : List Str}
    (hc : c.StubsIn P) (he : ∀ e ∈ entries, EntryIn P e) (hin : entry ∈ entries)
    (hrpc : ∀ nodeId addr target, parseReplicaEntry entry = (nodeId, addr) → P nodeId target →
      ∃ r, rpc target = some r ∧ r.ok = true) {n : ℕ} (hn : 0 < n) :
    (c.readAttempts rpc entries n).1.isSome = true := by
  obtain ⟨n, rfl⟩ := Nat.exists_eq_succ_of_ne_zero hn.ne'
  have hpass := readPass_isSome hc he hin hrpc
  unfold readAttempts
  generalize c.readPass rpc entries = x at hpass
  obtain ⟨_ | r, c'⟩ := x
  · simp at hpass
  · rfl

end Find

end NimbusClient

end NimbusVault
