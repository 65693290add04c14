import NimbusVault.Client

/-!
# History — sequential client histories

Clients put, delete and get, one call at a time, over a cluster whose nodes are all up; there is no
reconfiguration and no repair.  The ghost `lastPut` is the register a chunk should be: the data of
the last successful put since the last delete.  A read returns the newest version a node holds, and
nodes are not told about deletes, so the histories that behave are those in which no admitted put
lands on a node that still holds a version above the one the put is given (`CallOk`).  The invariant is
`SeqInv`.
-/

namespace NimbusVault

open Lib

/-- Letters, digits, `-` and `_`. -/
def IsChunkName (id : Str) : Prop := ∀ c ∈ id, c.isAlphanum = true ∨ c = '-' ∨ c = '_'

instance (id : Str) : Decidable (IsChunkName id) := List.decidableBAll _ id

theorem IsChunkName.slash {id : Str} (h : IsChunkName id) : '/' ∉ id := fun hm => by
  have := h _ hm
  revert this; decide

theorem IsChunkName.bar {id : Str} (h : IsChunkName id) : '|' ∉ id := fun hm => by
  have := h _ hm
  revert this; decide

structure SeqState where
  chunkTable : ChunkTable := Kv.empty
  stores : Stores := fun _ => ChunkStore.empty
  clients : ℕ → NimbusClient
  /-- Ghost: what a get of the chunk should return. -/
  lastPut : Str → Option Str := fun _ => none

inductive ClientCall
  | put (chunkId data : Str) (desiredRf : Int32) (nodes : List Str)
  | delete (chunkId : Str)
  | get (client : ℕ) (chunkId : Str) (minVersion : UInt64)

def allAnswered (nodes : List Str) : PutEnv := ⟨nodes.map (·, .answered), true, fun _ => true⟩

namespace SeqState

variable (cl : Cluster) (s : SeqState)

def put (chunkId data : Str) (desiredRf : Int32) (nodes : List Str) : PutResult :=
  putChunk true cl.nodes s.chunkTable s.stores (NimbusClient.putReq chunkId data desiredRf)
    (allAnswered nodes)

def get (k : ℕ) (chunkId : Str) (minVersion : UInt64) : GetResult × NimbusClient :=
  (s.clients k).get (getChunkInfo true cl.nodes s.chunkTable chunkId)
    (fun target addr => some (readChunk (s.stores addr) chunkId target)) minVersion

end SeqState

def PutResult.succeeded (r : PutResult) : Bool := r.resp.any (·.ok)

def seqInit (addrs : ℕ → Kv Str Str) : SeqState := { clients := fun k => { nodeAddrs := addrs k } }

/-- Sequential histories of clients on the cluster `cl`. -/
def sequential (cl : Cluster) : Machine SeqState ClientCall where
  guard _
    | .put chunkId _ desiredRf nodes =>
      IsChunkName chunkId ∧ SelectsNodes desiredRf.toInt cl.nodes [] nodes
    | .delete chunkId => IsChunkName chunkId
    | .get _ chunkId _ => IsChunkName chunkId
  next s
    | .put chunkId data desiredRf nodes =>
      let r := s.put cl chunkId data desiredRf nodes
      { s with
        chunkTable := r.chunkTable
        stores := r.stores
        lastPut := if r.succeeded then Function.update s.lastPut chunkId (some data) else s.lastPut }
    | .delete chunkId =>
      match deleteChunk s.chunkTable chunkId true with
      | some (true, t) =>
        { s with chunkTable := t, lastPut := Function.update s.lastPut chunkId none }
      | _ => s
    | .get k chunkId minVersion =>
      { s with clients := Function.update s.clients k (s.get cl k chunkId minVersion).2 }

instance (cl : Cluster) (s : SeqState) : ∀ c, Decidable ((sequential cl).guard s c)
  | .put _ _ _ _ => inferInstanceAs (Decidable (_ ∧ _))
  | .delete _ => inferInstanceAs (Decidable (IsChunkName _))
  | .get _ _ _ => inferInstanceAs (Decidable (IsChunkName _))

/-- A put that is not refused lands on no node that holds a version above the one the put is given. -/
def CallOk (cl : Cluster) (s : SeqState) : ClientCall → Prop
  | .put chunkId data desiredRf nodes =>
    PutAdmitted true s.chunkTable (NimbusClient.putReq chunkId data desiredRf) (allAnswered nodes) →
      ∀ n ∈ cl.nodes, n.nodeId ∈ nodes →
        ∀ w, s.chunkTable.nextVersion chunkId < w → (s.stores n.address).stored chunkId w = none
  | .delete _ => True
  | .get _ _ _ => True

/-- A get that names a version below the chunk's own does so while versions fit ten digits. -/
def GetOk (s : SeqState) (chunkId : Str) (minVersion : UInt64) : Prop :=
  minVersion = 0 ∨ ∀ e, s.chunkTable.get chunkId = some e →
    e.version ≤ 9999999999 ∨ e.version ≤ minVersion

/-! ### A put on a cluster that is up -/

section Put

variable {cl : Cluster} {s : SeqState} {id data : Str} {rf : Int32} {nodes : List Str} {a : Str}

variable (cl s id data rf nodes) in
/-- The storage phase. -/
def SeqState.writes : WriteProgress :=
  putWrites cl.nodes s.chunkTable s.stores (NimbusClient.putReq id data rf) (allAnswered nodes)

theorem writes_entries (s : SeqState) (id data : Str) (rf : Int32)
    (hsel : ∀ x ∈ nodes, ∃ n ∈ cl.nodes, n.nodeId = x) :
    (s.writes cl id data rf nodes).replicaEntries = nodes.map (encodeReplicaTarget cl.nodes) ∧
      ∀ entry ∈ (s.writes cl id data rf nodes).replicaEntries,
        ∃ n ∈ cl.nodes, n.nodeId ∈ nodes ∧ entry = n.entry := by
  have he : (s.writes cl id data rf nodes).replicaEntries =
      nodes.map (encodeReplicaTarget cl.nodes) := by
    unfold SeqState.writes putWrites storageWrites
    rw [foldl_putReplica_entries]
    simp [allAnswered]
  refine ⟨he, fun entry hentry => ?_⟩
  rw [he] at hentry
  obtain ⟨x, hx, rfl⟩ := List.mem_map.mp hentry
  obtain ⟨n, hn, rfl⟩ := hsel x hx
  exact ⟨n, hn, hx, cl.encode_nodeId hn⟩

theorem writes_addrs_length (s : SeqState) (id data : Str) (rf : Int32)
    (hsel : ∀ x ∈ nodes, ∃ n ∈ cl.nodes, n.nodeId = x) :
    (s.writes cl id data rf nodes).successfulAddrs.length = nodes.length := by
  unfold SeqState.writes putWrites storageWrites
  rw [foldl_putReplica_addrs_length]
  · simp [allAnswered]
  · intro x hx
    obtain ⟨y, hy, rfl⟩ := List.mem_map.mp hx
    obtain ⟨n, hn, rfl⟩ := hsel y hy
    exact ⟨rfl, by rw [Cluster.replicaAddress_eq hn]; exact (cl.wellNamed n hn).addr_ne⟩

/-- What the nodes hold after the storage phase. -/
theorem stored_writes (hsel : ∀ x ∈ nodes, ∃ n ∈ cl.nodes, n.nodeId = x) {id' : Str} {w : UInt64} :
    ((s.writes cl id data rf nodes).stores a).stored id' w =
      if (id' = id ∧ w = s.chunkTable.nextVersion id) ∧ ∃ n ∈ cl.nodes, n.nodeId ∈ nodes ∧ n.address = a
        then some data else (s.stores a).stored id' w := by
  have hiff : (a ≠ [] ∧ ∃ x ∈ (allAnswered nodes).nodes, x.2 ≠ .unreached ∧
      replicaAddress cl.nodes x.1 = a) ↔ ∃ n ∈ cl.nodes, n.nodeId ∈ nodes ∧ n.address = a := by
    constructor
    · rintro ⟨-, x, hx, -, rfl⟩
      obtain ⟨y, hy, rfl⟩ := List.mem_map.mp hx
      obtain ⟨n, hn, rfl⟩ := hsel y hy
      exact ⟨n, hn, hy, (Cluster.replicaAddress_eq hn).symm⟩
    · rintro ⟨n, hn, hy, rfl⟩
      exact ⟨(cl.wellNamed n hn).addr_ne, (n.nodeId, .answered), List.mem_map.mpr ⟨_, hy, rfl⟩,
        by simp, Cluster.replicaAddress_eq hn⟩
  unfold SeqState.writes putWrites storageWrites
  rw [stored_foldl_putReplica]
  simp only [hiff]
  rfl

/-- The payload of a chunk without a name has too few fields. -/
theorem applyWalEntry_put_nil {t : ChunkTable} {size v : UInt64} {es : List Str} (hes : es ≠ [])
    (hf : ∀ x ∈ es, IsField x) {term : ℕ} :
    applyWalEntry t ⟨.putChunk, term, encodePutChunk [] size rf v es⟩ = some t := by
  have h4 : splitNonempty (encodeSet es) '|' = [encodeSet es] :=
    splitNonempty_last (encodeSet_bar fun x hx => (hf x hx).2.1) (encodeSet_ne_nil hes)
  have hsplit : splitNonempty (encodePutChunk [] size rf v es) '|' =
      [Text.decimal size.toNat, Text.decimalInt rf.toInt, Text.decimal v.toNat, encodeSet es] := by
    rw [encodePutChunk, splitNonempty_cons (by simp),
      splitNonempty_field (bar_not_mem_decimal _) (Text.decimal_ne_nil _),
      splitNonempty_field (bar_not_mem_decimalInt _) (decimalInt_ne_nil _),
      splitNonempty_field (bar_not_mem_decimal _) (Text.decimal_ne_nil _), h4]
    rfl
  simp only [applyWalEntry, hsplit]

/-- The table after a put that was logged. -/
def tableAfterPut (t : ChunkTable) (req : PutChunkReq) (entries : List Str) : ChunkTable :=
  if req.chunkId = [] then t
  else t.applyPutChunk req.chunkId req.sizeBytes req.desiredRf entries (t.nextVersion req.chunkId)

theorem applyWalEntry_putPayload (t : ChunkTable) (req : PutChunkReq) {entries : List Str}
    (hbar : '|' ∉ req.chunkId) (hne : entries ≠ []) (hf : ∀ x ∈ entries, IsField x) :
    applyWalEntry t (putPayload req (t.nextVersion req.chunkId) entries) =
      some (tableAfterPut t req entries) := by
  unfold putPayload tableAfterPut
  split_ifs with hid
  · rw [hid]
    exact applyWalEntry_put_nil hne hf
  · exact applyWalEntry_put hid hbar hne hf

/-- **A put on a cluster that is up** either answers no and changes nothing, or stores the data
under the next version at the selected nodes and lists them. -/
theorem put_cases (s : SeqState) (data : Str) (hname : IsChunkName id)
    (hsel : SelectsNodes rf.toInt cl.nodes [] nodes) :
    ((s.put cl id data rf nodes).succeeded = false ∧
      (s.put cl id data rf nodes).chunkTable = s.chunkTable ∧
      (s.put cl id data rf nodes).stores = s.stores) ∨
    (PutAdmitted true s.chunkTable (NimbusClient.putReq id data rf) (allAnswered nodes) ∧
      (s.put cl id data rf nodes).succeeded = true ∧
      (s.put cl id data rf nodes).chunkTable = tableAfterPut s.chunkTable
        (NimbusClient.putReq id data rf) (s.writes cl id data rf nodes).replicaEntries ∧
      (s.put cl id data rf nodes).stores = (s.writes cl id data rf nodes).stores) := by
  have hmem : ∀ x ∈ nodes, ∃ n ∈ cl.nodes, n.nodeId = x := fun x hx => hsel.mem_nodes hx
  have hlen := writes_addrs_length s id data rf hmem
  obtain ⟨hentries, hfields⟩ := writes_entries s id data rf hmem
  by_cases hadm : PutAdmitted true s.chunkTable (NimbusClient.putReq id data rf) (allAnswered nodes)
  · have hput : s.put cl id data rf nodes = putWritten s.chunkTable (NimbusClient.putReq id data rf)
        (allAnswered nodes) (s.chunkTable.nextVersion id) (s.writes cl id data rf nodes) :=
      putChunk_admitted hadm
    rw [hput]
    unfold putWritten
    by_cases hnil : nodes = []
    · subst hnil
      exact .inl ⟨rfl, rfl, rfl⟩
    · have hpos : 0 < nodes.length := List.length_pos_iff.mpr hnil
      have hmaj : ¬ (s.writes cl id data rf nodes).successfulAddrs.length <
          (s.writes cl id data rf nodes).majorityNeeded := by
        rw [hlen, WriteLocals.majorityNeeded, hentries, List.length_map]
        omega
      have hne : (s.writes cl id data rf nodes).replicaEntries ≠ [] := by
        rw [hentries]
        simpa using hnil
      have happly := applyWalEntry_putPayload s.chunkTable (NimbusClient.putReq id data rf)
        hname.bar hne fun x hx => by
          obtain ⟨n, hn, -, rfl⟩ := hfields x hx
          exact (cl.wellNamed n hn).isField
      have hmeta : metaWrite s.chunkTable (putPayload (NimbusClient.putReq id data rf)
          (s.chunkTable.nextVersion id) (s.writes cl id data rf nodes).replicaEntries)
            (allAnswered nodes).quorum = some (true, tableAfterPut s.chunkTable
              (NimbusClient.putReq id data rf) (s.writes cl id data rf nodes).replicaEntries) := by
        show (applyWalEntry _ _).map _ = _
        rw [show applyWalEntry s.chunkTable (putPayload (NimbusClient.putReq id data rf)
          (s.chunkTable.nextVersion id) (s.writes cl id data rf nodes).replicaEntries) = _ from happly]
        rfl
      simp only [if_neg hmaj, hmeta]
      exact .inr ⟨hadm, by simp [PutResult.succeeded], trivial, trivial⟩
  · obtain ⟨error, he⟩ := putChunk_refused cl.nodes s.stores hadm
    unfold SeqState.put
    rw [he]
    exact .inl ⟨rfl, rfl, rfl⟩

end Put

/-! ### The invariant -/

/-- The node holds `d` as version `v`, and nothing above. -/
def HoldsNewest (st : ChunkStore) (id : Str) (v : UInt64) (d : Str) : Prop :=
  st.stored id v = some d ∧ ∀ w, v < w → st.stored id w = none

/-- The id and the address of a node of the cluster. -/
def Cluster.Has (cl : Cluster) (nodeId addr : Str) : Prop :=
  ∃ n ∈ cl.nodes, n.nodeId = nodeId ∧ n.address = addr

/-- Every listed chunk is what was put last, at every node of its entry; the chunk without a name is
never listed; store keys are those of chunks; cached stubs lead to the right nodes. -/
structure SeqInv (cl : Cluster) (s : SeqState) : Prop where
  listed : ∀ id e, IsChunkName id → s.chunkTable.get id = some e →
    ∃ d, s.lastPut id = some d ∧ e.oldReplicaSet = [] ∧
      ∀ entry ∈ e.replicaSet, ∃ n ∈ cl.nodes, entry = n.entry ∧
        HoldsNewest (s.stores n.address) id e.version d
  unnamed : s.chunkTable.get [] = none
  prefixes : ∀ addr id, '/' ∉ id → (s.stores addr).OwnsPrefix id
  stubs : ∀ k, (s.clients k).StubsIn cl.Has

section Invariant

variable {cl : Cluster} {s : SeqState} {id data : Str} {rf : Int32} {nodes : List Str}

theorem seqInv_init (addrs : ℕ → Kv Str Str) : SeqInv cl (seqInit addrs) where
  listed id e _ h := by simp [seqInit] at h
  unnamed := rfl
  prefixes _ _ _ := ChunkStore.ownsPrefix_empty
  stubs _ _ _ h := by simp [seqInit] at h

theorem tableAfterPut_get_of_ne {t : ChunkTable} {req : PutChunkReq} {entries : List Str} {id' : Str}
    (h : id' ≠ req.chunkId) : (tableAfterPut t req entries).get id' = t.get id' := by
  unfold tableAfterPut
  split_ifs
  · rfl
  · exact Kv.get_put_of_ne h

theorem tableAfterPut_get_self {t : ChunkTable} (req : PutChunkReq) {entries : List Str}
    (h : req.chunkId ≠ []) : (tableAfterPut t req entries).get req.chunkId =
      some ⟨req.chunkId, t.nextVersion req.chunkId, entries, req.desiredRf, .stable, [],
        req.sizeBytes⟩ := by
  rw [tableAfterPut, if_neg h]
  exact Kv.get_put_self

/-- A put of one chunk leaves what nodes hold of another. -/
theorem HoldsNewest.writes_of_ne {a id' d : Str} {v : UInt64}
    (hmem : ∀ x ∈ nodes, ∃ n ∈ cl.nodes, n.nodeId = x) (hid : id' ≠ id)
    (h : HoldsNewest (s.stores a) id' v d) :
    HoldsNewest ((s.writes cl id data rf nodes).stores a) id' v d := by
  refine ⟨?_, fun w hw => ?_⟩
  · rw [stored_writes hmem, if_neg fun h => hid h.1.1]
    exact h.1
  · rw [stored_writes hmem, if_neg fun h => hid h.1.1]
    exact h.2 w hw

/-- A put makes its version the newest at the selected nodes. -/
theorem holdsNewest_writes (hmem : ∀ x ∈ nodes, ∃ n ∈ cl.nodes, n.nodeId = x)
    (hadm : PutAdmitted true s.chunkTable (NimbusClient.putReq id data rf) (allAnswered nodes))
    (hok : CallOk cl s (.put id data rf nodes)) {n : NodeEntry} (hn : n ∈ cl.nodes)
    (hsn : n.nodeId ∈ nodes) :
    HoldsNewest ((s.writes cl id data rf nodes).stores n.address) id (s.chunkTable.nextVersion id)
      data := by
  refine ⟨?_, fun w hw => ?_⟩
  · rw [stored_writes hmem, if_pos ⟨⟨rfl, rfl⟩, n, hn, hsn, rfl⟩]
  · have hne : w ≠ s.chunkTable.nextVersion id := by
      rintro rfl
      exact UInt64.lt_irrefl _ hw
    rw [stored_writes hmem, if_neg fun h => hne h.1.2]
    exact hok hadm n hn hsn w hw

theorem seqInv_put (hinv : SeqInv cl s) (hname : IsChunkName id)
    (hsel : SelectsNodes rf.toInt cl.nodes [] nodes) (hok : CallOk cl s (.put id data rf nodes)) :
    SeqInv cl ((sequential cl).next s (.put id data rf nodes)) := by
  show SeqInv cl ⟨(s.put cl id data rf nodes).chunkTable, (s.put cl id data rf nodes).stores,
    s.clients, if (s.put cl id data rf nodes).succeeded then
      Function.update s.lastPut id (some data) else s.lastPut⟩
  rcases put_cases s data hname hsel with ⟨hs, ht, hst⟩ | ⟨hadm, hs, ht, hst⟩
  · rw [hs, ht, hst]
    exact hinv
  · have hmem : ∀ x ∈ nodes, ∃ n ∈ cl.nodes, n.nodeId = x := fun x hx => hsel.mem_nodes hx
    have hunnamed : (tableAfterPut s.chunkTable (NimbusClient.putReq id data rf)
        (s.writes cl id data rf nodes).replicaEntries).get [] = none := by
      by_cases hnil : id = []
      · rw [tableAfterPut, if_pos (show (NimbusClient.putReq id data rf).chunkId = [] from hnil)]
        exact hinv.unnamed
      · rw [tableAfterPut_get_of_ne fun h => hnil h.symm]
        exact hinv.unnamed
    rw [hs, ht, hst, if_pos rfl]
    refine ⟨fun id' e hname' he => ?_, hunnamed, fun addr id' hslash => ?_, hinv.stubs⟩
    · dsimp only at he ⊢
      by_cases hid : id' = id
      · subst hid
        have hne : id' ≠ [] := by
          rintro rfl
          rw [hunnamed] at he
          simp at he
        obtain rfl := Option.some.inj
          ((tableAfterPut_get_self (NimbusClient.putReq id' data rf) hne).symm.trans he)
        refine ⟨data, Function.update_self _ _ _, rfl, fun entry hentry => ?_⟩
        obtain ⟨n, hn, hsn, rfl⟩ := (writes_entries s _ data rf hmem).2 entry hentry
        exact ⟨n, hn, rfl, holdsNewest_writes hmem hadm hok hn hsn⟩
      · have hid' : id' ≠ (NimbusClient.putReq id data rf).chunkId := hid
        rw [tableAfterPut_get_of_ne hid'] at he
        obtain ⟨d, hd, hold, hentries⟩ := hinv.listed id' e hname' he
        refine ⟨d, by rw [Function.update_of_ne hid, hd], hold, fun entry hentry => ?_⟩
        obtain ⟨n, hn, hen, hnew⟩ := hentries entry hentry
        exact ⟨n, hn, hen, hnew.writes_of_ne hmem hid⟩
    · exact foldl_putReplica_invariant (P := fun st => st.OwnsPrefix id')
        (fun st hst => hst.write hname.slash) (hinv.prefixes addr id' hslash)

theorem seqInv_delete (hinv : SeqInv cl s) :
    SeqInv cl ((sequential cl).next s (.delete id)) := by
  show SeqInv cl ⟨s.chunkTable.applyDeleteChunk id, s.stores, s.clients,
    Function.update s.lastPut id none⟩
  refine ⟨fun id' e hname' he => ?_, ?_, hinv.prefixes, hinv.stubs⟩
  · dsimp only at he ⊢
    rw [ChunkTable.applyDeleteChunk, Kv.get_erase] at he
    split_ifs at he with hid
    obtain ⟨d, hd, hrest⟩ := hinv.listed id' e hname' he
    exact ⟨d, by rw [Function.update_of_ne hid, hd], hrest⟩
  · dsimp only
    rw [ChunkTable.applyDeleteChunk, Kv.get_erase, hinv.unnamed, ite_self]

/-- What `getChunkInfo` answers for a listed chunk. -/
theorem getChunkInfo_listed (hinv : SeqInv cl s) (hname : IsChunkName id) {e : ChunkEntry}
    (he : getChunkInfo true cl.nodes s.chunkTable id = .ok e) :
    (∃ e', s.chunkTable.get id = some e' ∧ e'.version = e.version) ∧ ∃ d, s.lastPut id = some d ∧
      ∀ entry ∈ NimbusClient.buildReplicaTryList e, ∃ n ∈ cl.nodes, entry = n.entry ∧
        HoldsNewest (s.stores n.address) id e.version d := by
  unfold getChunkInfo at he
  rw [if_neg (by decide)] at he
  cases hget : s.chunkTable.get id with
  | none => rw [hget] at he; simp at he
  | some e' =>
    rw [hget] at he
    obtain rfl := Except.ok.inj he
    obtain ⟨d, hd, hold, hentries⟩ := hinv.listed id e' hname hget
    refine ⟨⟨e', rfl, rfl⟩, d, hd, fun entry hentry => ?_⟩
    simp only [NimbusClient.buildReplicaTryList, hold, List.map_nil, List.append_nil] at hentry
    obtain ⟨entry', hentry', rfl⟩ := List.mem_map.mp hentry
    obtain ⟨n, hn, rfl, hnew⟩ := hentries entry' hentry'
    exact ⟨n, hn, n.encode_entry cl.nodes, hnew⟩

theorem Cluster.parse_entry {n : NodeEntry} (hn : n ∈ cl.nodes) :
    parseReplicaEntry n.entry = (n.nodeId, n.address) := by
  rw [parseReplicaEntry, (cl.wellNamed n hn).splitEntry]
  rfl

/-- An id of the cluster has one address. -/
theorem Cluster.Has.address_eq {n : NodeEntry} (hn : n ∈ cl.nodes) {addr : Str}
    (h : cl.Has n.nodeId addr) : addr = n.address := by
  obtain ⟨m, hm, hid, rfl⟩ := h
  rw [List.inj_on_of_nodup_map cl.nodup hm hn hid]

/-- The entry of a node leads the client to that node. -/
theorem Cluster.entryIn {n : NodeEntry} (hn : n ∈ cl.nodes) : NimbusClient.EntryIn cl.Has n.entry :=
  ⟨n.nodeId, n.address, cl.parse_entry hn, (cl.wellNamed n hn).addr_ne, n, hn, rfl, rfl⟩

theorem seqInv_get (hinv : SeqInv cl s) (hname : IsChunkName id) (k : ℕ) (minV : UInt64) :
    SeqInv cl ((sequential cl).next s (.get k id minV)) := by
  refine ⟨hinv.listed, hinv.unnamed, hinv.prefixes, fun k' => ?_⟩
  show (Function.update s.clients k (s.get cl k id minV).2 k').StubsIn cl.Has
  by_cases hk : k' = k
  · subst hk
    rw [Function.update_self]
    unfold SeqState.get NimbusClient.get
    cases hinfo : getChunkInfo true cl.nodes s.chunkTable id with
    | error _ => exact hinv.stubs k'
    | ok e =>
      obtain ⟨-, d, -, hentries⟩ := getChunkInfo_listed hinv hname hinfo
      have hin : ∀ x ∈ NimbusClient.buildReplicaTryList e, NimbusClient.EntryIn cl.Has x := by
        intro x hx
        obtain ⟨n, hn, rfl, -⟩ := hentries x hx
        exact cl.entryIn hn
      have hstubs := (NimbusClient.readAttempts_in
        (fun addr => some (readChunk (s.stores addr) id (if minV = 0 then e.version else minV)))
        (hinv.stubs k') hin NimbusClient.attempts).2
      dsimp only
      split
      · rename_i hr; rw [hr] at hstubs; exact hstubs
      · rename_i hr; rw [hr] at hstubs; exact hstubs
  · rw [Function.update_of_ne hk]
    exact hinv.stubs k'

/-- A read of the newest version at a node finds it. -/
theorem HoldsNewest.read {st : ChunkStore} {v target : UInt64} {d : Str} (h : HoldsNewest st id v d)
    (ho : st.OwnsPrefix id) (ht : v ≤ target ∨ v ≤ 9999999999)
    (hr : (readChunk st id target).ok = true) : (readChunk st id target).data = d := by
  obtain ⟨hst, hle, hmax⟩ := ChunkStore.read_some ho (readChunk_ok hr)
  have hv : (readChunk st id target).version = v := by
    refine UInt64.le_antisymm ?_ ?_
    · by_contra hlt
      rw [h.2 _ (UInt64.not_le.mp hlt)] at hst
      simp at hst
    · rcases ht with ht | ht
      · exact UInt64.le_trans ht hle
      · exact hmax v (by rw [h.1]; rfl) ht
  rw [hv, h.1] at hst
  exact (Option.some.inj hst).symm

/-- In a state of the invariant a get that succeeds returns the last put. -/
theorem get_of_seqInv (hinv : SeqInv cl s) (hname : IsChunkName id) {k : ℕ} {minV : UInt64}
    (hmin : GetOk s id minV) (hok : (s.get cl k id minV).1.ok = true) :
    s.lastPut id = some (s.get cl k id minV).1.data := by
  unfold SeqState.get NimbusClient.get at hok ⊢
  cases hinfo : getChunkInfo true cl.nodes s.chunkTable id with
  | error _ => rw [hinfo] at hok; simp at hok
  | ok e =>
    obtain ⟨⟨e', he', hver⟩, d, hd, hentries⟩ := getChunkInfo_listed hinv hname hinfo
    have hin : ∀ x ∈ NimbusClient.buildReplicaTryList e, NimbusClient.EntryIn cl.Has x := by
      intro x hx
      obtain ⟨n, hn, rfl, -⟩ := hentries x hx
      exact cl.entryIn hn
    have hfound := (NimbusClient.readAttempts_in
      (fun addr => some (readChunk (s.stores addr) id (if minV = 0 then e.version else minV)))
      (hinv.stubs k) hin NimbusClient.attempts).1
    rw [hinfo] at hok
    dsimp only at hok ⊢
    split at hok
    · rename_i r c hr
      rw [hr] at hfound
      obtain ⟨hrok, x, hx, nodeId, addr, target, hparse, hhas, hrpc⟩ := hfound r rfl
      obtain ⟨n, hn, rfl, hnew⟩ := hentries x hx
      rw [cl.parse_entry hn] at hparse
      obtain ⟨rfl, rfl⟩ := Prod.mk.inj hparse
      rw [Cluster.Has.address_eq hn hhas] at hrpc
      obtain rfl := Option.some.inj hrpc
      have ht : e.version ≤ (if minV = 0 then e.version else minV) ∨ e.version ≤ 9999999999 := by
        split_ifs with h0
        · exact .inl (UInt64.le_refl _)
        · have := (hmin.resolve_left h0) e' he'
          rw [hver] at this
          exact this.symm
      rw [hd]
      exact congrArg some (hnew.read (hinv.prefixes _ _ hname.slash) ht hrok).symm
    · simp at hok

/-- **The invariant holds along the histories that behave.** -/
theorem seqInv_of_run {addrs : ℕ → Kv Str Str} {tr : List ClientCall}
    (h : (sequential cl).Run (CallOk cl) (seqInit addrs) tr s) : SeqInv cl s := by
  refine h.invariant (seqInv_init addrs) fun s a hinv hg hok => ?_
  cases a with
  | put id data rf nodes => exact seqInv_put hinv hg.1 hg.2 hok
  | delete id => exact seqInv_delete hinv
  | get k id minV => exact seqInv_get hinv hg k minV

/-- **Gets return the last put** in every history whose puts land on no node with a version above
their own. -/
theorem get_returns_lastPut {addrs : ℕ → Kv Str Str} {tr : List ClientCall}
    (h : (sequential cl).Run (CallOk cl) (seqInit addrs) tr s) (k : ℕ) (hname : IsChunkName id)
    {minV : UInt64} (hmin : GetOk s id minV) (hok : (s.get cl k id minV).1.ok = true) :
    s.lastPut id = some (s.get cl k id minV).1.data :=
  get_of_seqInv (seqInv_of_run h) hname hmin hok

/-! Nodes `n` and `k`, and one chunk `c`. -/

def soloPut (data : Str) : ClientCall := .put ['c'] data 1 [['n']]

abbrev soloInit : SeqState := seqInit fun _ => Kv.empty

def elsewhereCluster : Cluster where
  nodes := [{ nodeId := ['n'], address := ['a'] }, { nodeId := ['k'], address := ['d'] }]
  wellNamed := by decide
  nodup := by decide

/-- Chunk `c` is put, overwritten, deleted, and put again elsewhere. -/
def elsewhereRun : List ClientCall :=
  [soloPut ['x'], soloPut ['y'], .delete ['c'], .put ['c'] ['z'] 1 [['k']]]

/-- Where the first `k` calls lead. -/
def elsewhereAt (k : ℕ) : SeqState :=
  (elsewhereRun.take k).foldl (sequential elsewhereCluster).next soloInit

abbrev elsewhereState : SeqState := elsewhereAt 4

theorem elsewhereState_run : (sequential elsewhereCluster).Run (CallOk elsewhereCluster) soloInit
    elsewhereRun elsewhereState := by
  have first : CallOk elsewhereCluster soloInit (soloPut ['x']) := fun _ _ _ _ _ _ => rfl
  have second : CallOk elsewhereCluster (elsewhereAt 1) (soloPut ['y']) := by
    intro _ n hn hsel w hw
    obtain rfl : n = { nodeId := ['n'], address := ['a'] } :=
      (by decide : ∀ m ∈ elsewhereCluster.nodes, m.nodeId ∈ [['n']] → m = ⟨['n'], ['a'], true⟩)
        n hn hsel
    have hstore : (elsewhereAt 1).stores ['a'] = ChunkStore.empty.write ['c'] 1 ['x'] := by
      decide +kernel
    rw [hstore, ChunkStore.stored_write, if_neg]
    · rfl
    · rintro ⟨-, rfl⟩
      exact absurd hw (by decide +kernel)
  -- nothing of the chunk was ever written to `k`
  have last : CallOk elsewhereCluster (elsewhereAt 3) (.put ['c'] ['z'] 1 [['k']]) := by
    intro _ n hn hsel w _
    obtain rfl : n = { nodeId := ['k'], address := ['d'] } :=
      (by decide : ∀ m ∈ elsewhereCluster.nodes, m.nodeId ∈ [['k']] → m = ⟨['k'], ['d'], true⟩)
        n hn hsel
    have hstore : (elsewhereAt 3).stores ['d'] = ChunkStore.empty := by decide +kernel
    rw [hstore]
    rfl
  have deleted : CallOk elsewhereCluster (elsewhereAt 2) (.delete ['c']) := trivial
  exact .snoc (.snoc (.snoc (.snoc .nil (by decide +kernel) first) (by decide +kernel) second)
    (by decide +kernel) deleted) (by decide +kernel) last

theorem get_returns_lastPut_elsewhere :
    elsewhereState.lastPut ['c'] = some (elsewhereState.get elsewhereCluster 0 ['c'] 0).1.data :=
  get_returns_lastPut elsewhereState_run 0 (by decide) (.inl rfl) (by decide +kernel)

def soloCluster : Cluster where
  nodes := [{ nodeId := ['n'], address := ['a'] }]
  wellNamed := by decide
  nodup := by decide

/-- Two versions, a delete, and a new first version: the read still finds the second of before. -/
def staleRun : List ClientCall :=
  [soloPut ['x'], soloPut ['y'], .delete ['c'], soloPut ['z']]

def staleState : SeqState := (sequential soloCluster).final (fun _ _ => True) soloInit staleRun

theorem staleState_reach : (sequential soloCluster).Reach soloInit staleRun staleState :=
  Machine.run_final (by decide +kernel)

/-- A get after a delete and a put returns what was written before the delete. -/
theorem get_returns_deleted_data : ¬ ∀ (cl : Cluster) addrs tr s,
    (sequential cl).Reach (seqInit addrs) tr s → ∀ k id minV, IsChunkName id →
      (s.get cl k id minV).1.ok = true → s.lastPut id = some (s.get cl k id minV).1.data := by
  intro h
  have hget := h soloCluster _ staleRun staleState staleState_reach 0 ['c'] 0 (by decide)
    (by decide +kernel)
  revert hget
  decide +kernel

end Invariant

end NimbusVault
