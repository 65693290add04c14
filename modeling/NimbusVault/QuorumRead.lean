import Mathlib.Data.Finset.Card
import NimbusVault.History

/-!
# QuorumRead — reads after majority writes

A chunk is put again and again, each time with another set of nodes alive and with any minority of
the storage writes failing, as long as the call answers yes.  Nodes that a put missed, or that an
earlier put used, keep older versions; none is ever ahead (`PutsInv`).  So a fresh client that reads
with at least the chunk's version finds exactly the last data, as long as fewer nodes than a
majority of the last put's are down (`get_after_put`).
-/

namespace NimbusVault

open Lib

structure PutsState where
  chunkTable : ChunkTable := Kv.empty
  stores : Stores := fun _ => ChunkStore.empty

/-- A call, and the nodes that are alive at its time. -/
structure PutCall where
  alive : List NodeEntry
  req : PutChunkReq
  env : PutEnv

def PutsState.put (s : PutsState) (call : PutCall) : PutResult :=
  putChunk true call.alive s.chunkTable s.stores call.req call.env

/-- Successful puts of the chunk `c`, one after the other. -/
def puts (cl : Cluster) (c : Str) : Machine PutsState PutCall where
  guard s call := call.req.chunkId = c ∧ call.alive.Subperm cl.nodes ∧
    1 ≤ call.req.desiredRf.toInt ∧
    SelectsNodes call.req.desiredRf.toInt call.alive [] (call.env.nodes.map Prod.fst) ∧
    (s.put call).succeeded = true
  next s call := ⟨(s.put call).chunkTable, (s.put call).stores⟩

instance (cl : Cluster) (c : Str) (s : PutsState) (call : PutCall) :
    Decidable ((puts cl c).guard s call) := inferInstanceAs (Decidable (_ ∧ _ ∧ _ ∧ _ ∧ _))

theorem nodup_map_of_subperm {α β : Type*} {f : α → β} {l l' : List α} (h : l.Subperm l')
    (hnd : (l'.map f).Nodup) : (l.map f).Nodup := by
  obtain ⟨l₁, hp, hs⟩ := h
  exact (hp.map f).nodup_iff.mp (hnd.sublist (hs.map f))

/-- The nodes of a cluster that are alive. -/
def Cluster.restrict (cl : Cluster) (alive : List NodeEntry) (h : alive.Subperm cl.nodes) : Cluster where
  nodes := alive
  wellNamed n hn := cl.wellNamed n (h.subset hn)
  nodup := nodup_map_of_subperm h cl.nodup

/-- After `k` puts: the next version is `k + 1`, and no node holds a later one than `k`. -/
structure PutsInv (c : Str) (k : ℕ) (s : PutsState) : Prop where
  version : s.chunkTable.nextVersion c = UInt64.ofNat (k + 1)
  owns : ∀ a, (s.stores a).OwnsPrefix c
  older : ∀ a w, ((s.stores a).stored c w).isSome = true → w.toNat ≤ k

section Step

variable {cl : Cluster} {c : Str} {s : PutsState} {call : PutCall} {k : ℕ}

/-- The storage phase of a call. -/
def PutsState.writes (s : PutsState) (call : PutCall) : WriteProgress :=
  putWrites call.alive s.chunkTable s.stores call.req call.env

/-- A put that answers yes got through all phases. -/
theorem put_succeeded (h : (s.put call).succeeded = true) :
    call.req.desiredRf.toInt ≤ (call.env.nodes.length : ℤ) ∧ ∃ r, (s.put call).resp = some r ∧
      r.version = s.chunkTable.nextVersion call.req.chunkId ∧
      r.replicaSet = (s.writes call).replicaEntries ∧
      (s.writes call).majorityNeeded ≤ (s.writes call).successfulAddrs.length ∧
      applyWalEntry s.chunkTable (putPayload call.req (s.chunkTable.nextVersion call.req.chunkId)
        (s.writes call).replicaEntries) = some (s.put call).chunkTable ∧
      (s.put call).stores = (s.writes call).stores := by
  by_cases hadm : PutAdmitted true s.chunkTable call.req call.env
  · have hput : s.put call = putWritten s.chunkTable call.req call.env
        (s.chunkTable.nextVersion call.req.chunkId) (s.writes call) := putChunk_admitted hadm
    rw [hput, PutResult.succeeded, Option.any_eq_true] at h
    obtain ⟨r, hr, hok⟩ := h
    obtain ⟨hmaj, rfl, happly, hstores⟩ := putWritten_ok hr hok
    rw [hput]
    exact ⟨hadm.2.2, _, hr, rfl, rfl, hmaj, happly, hstores⟩
  · obtain ⟨error, he⟩ := putChunk_refused call.alive s.stores hadm
    unfold PutsState.put at h
    rw [he] at h
    simp [PutResult.succeeded] at h

theorem writes_replicaEntries_eq (s : PutsState) (call : PutCall) : (s.writes call).replicaEntries =
    call.env.nodes.map fun x => encodeReplicaTarget call.alive x.1 := by
  unfold PutsState.writes putWrites storageWrites
  rw [foldl_putReplica_entries]
  rfl

/-- A selected node is a node of the cluster, is listed with its entry, and written at its address.
-/
theorem selected_node (hg : (puts cl c).guard s call) {x : Str × RpcFate} (hx : x ∈ call.env.nodes) :
    ∃ n ∈ cl.nodes, n.nodeId = x.1 ∧ encodeReplicaTarget call.alive x.1 = n.entry ∧
      replicaAddress call.alive x.1 = n.address := by
  obtain ⟨-, halive, -, hsel, -⟩ := hg
  have hsel' : SelectsNodes call.req.desiredRf.toInt (cl.restrict call.alive halive).nodes []
      (call.env.nodes.map Prod.fst) := hsel
  obtain ⟨n, hn, hid⟩ := hsel'.mem_nodes (List.mem_map_of_mem hx)
  have haddr : replicaAddress (cl.restrict call.alive halive).nodes n.nodeId = n.address :=
    Cluster.replicaAddress_eq hn
  exact ⟨n, halive.subset hn, hid, hid ▸ (cl.restrict call.alive halive).encode_nodeId hn, hid ▸ haddr⟩

/-- The entries that a put lists: one for each selected node. -/
theorem writes_replicaEntries (hg : (puts cl c).guard s call) :
    (s.writes call).replicaEntries.length = call.env.nodes.length ∧
      ∀ entry ∈ (s.writes call).replicaEntries, ∃ n ∈ cl.nodes, entry = n.entry := by
  rw [writes_replicaEntries_eq]
  refine ⟨List.length_map _, fun entry hentry => ?_⟩
  obtain ⟨x, hx, rfl⟩ := List.mem_map.mp hentry
  obtain ⟨n, hn, -, he, -⟩ := selected_node hg hx
  exact ⟨n, hn, he⟩

/-- The table after a put. -/
theorem put_chunkTable (hc : c ≠ []) (hbar : '|' ∉ c) (hg : (puts cl c).guard s call) :
    (s.put call).chunkTable = s.chunkTable.applyPutChunk c call.req.sizeBytes call.req.desiredRf
      (s.writes call).replicaEntries (s.chunkTable.nextVersion c) := by
  obtain ⟨hlen, hentry⟩ := writes_replicaEntries hg
  obtain ⟨rfl, -, hrf, hsel, hok⟩ := hg
  obtain ⟨hnodes, r, -, -, -, -, happly, -⟩ := put_succeeded hok
  have hne : (s.writes call).replicaEntries ≠ [] := by
    intro h
    rw [h, List.length_nil] at hlen
    omega
  have hfield : ∀ x ∈ (s.writes call).replicaEntries, IsField x := by
    intro x hx
    obtain ⟨n, hn, rfl⟩ := hentry x hx
    exact (cl.wellNamed n hn).isField
  have hdec := applyWalEntry_putPayload s.chunkTable call.req hbar hne hfield
  rw [tableAfterPut, if_neg hc] at hdec
  exact Option.some.inj (happly.symm.trans hdec)

/-- What a node holds of the chunk after a put. -/
theorem stored_put (hg : (puts cl c).guard s call) {a : Str} {w : UInt64} :
    ((s.put call).stores a).stored c w =
      if w = s.chunkTable.nextVersion c ∧ a ≠ [] ∧
          ∃ x ∈ call.env.nodes, x.2 ≠ .unreached ∧ replicaAddress call.alive x.1 = a
        then some call.req.data else (s.stores a).stored c w := by
  obtain ⟨rfl, -, -, -, hok⟩ := hg
  obtain ⟨-, r, -, -, -, -, -, hstores⟩ := put_succeeded hok
  rw [hstores]
  unfold PutsState.writes putWrites storageWrites
  rw [stored_foldl_putReplica]
  simp only [true_and]

/-- **A put keeps the invariant.** -/
theorem PutsInv.step (hc : c ≠ []) (hbar : '|' ∉ c) (h : PutsInv c k s)
    (hg : (puts cl c).guard s call) : PutsInv c (k + 1) ((puts cl c).next s call) where
  version := by
    show (s.put call).chunkTable.nextVersion c = _
    rw [put_chunkTable hc hbar hg, ChunkTable.nextVersion, ChunkTable.applyPutChunk, Kv.get_put_self,
      h.version, UInt64.ofNat_add (k + 1) 1]
    rfl
  owns a := by
    obtain ⟨rfl, -, -, -, hok⟩ := hg
    obtain ⟨-, r, -, -, -, -, -, hstores⟩ := put_succeeded hok
    show ((s.put call).stores a).OwnsPrefix call.req.chunkId
    rw [hstores]
    exact foldl_putReplica_invariant (P := fun st => st.OwnsPrefix call.req.chunkId)
      (fun st hst => ChunkStore.OwnsPrefix.write_self hst) (h.owns a)
  older a w hw := by
    have hw' : (((s.put call).stores a).stored c w).isSome = true := hw
    rw [stored_put hg, h.version] at hw'
    split_ifs at hw' with hnew
    · rw [hnew.1, UInt64.toNat_ofNat']
      exact Nat.mod_le _ _
    · exact (h.older a w hw').trans (Nat.le_succ k)

/-- The invariant of a history. -/
theorem putsInv_reach (hc : c ≠ []) (hbar : '|' ∉ c) {tr : List PutCall} {s : PutsState}
    (h : (puts cl c).Reach {} tr s) : PutsInv c tr.length s := by
  induction h with
  | nil => exact ⟨rfl, fun _ => ChunkStore.ownsPrefix_empty, fun a w hw => by simp at hw⟩
  | snoc _ hg _ ih =>
    rw [List.length_append, List.length_singleton]
    exact ih.step hc hbar hg

/-! ### The read -/

/-- The reads of a client while the nodes at `down` do not answer. -/
def readUp (ss : Stores) (c : Str) (down : Finset Str) (target : UInt64) (addr : Str) :
    Option ReadChunkResp :=
  if addr ∈ down then none else some (readChunk (ss addr) c target)

/-- No two selected nodes are written at one address. -/
theorem nodup_addresses (haddr : (cl.nodes.map NodeEntry.address).Nodup)
    (hg : (puts cl c).guard s call) :
    (call.env.nodes.map fun x => replicaAddress call.alive x.1).Nodup := by
  have hids : (call.env.nodes.map Prod.fst).Nodup := by
    obtain ⟨-, halive, -, hsel, -⟩ := hg
    have hcand : ((placementCandidates call.alive []).map id).Nodup := by
      rw [List.map_id]
      exact List.Nodup.filter _ (cl.restrict call.alive halive).nodup
    simpa using nodup_map_of_subperm hsel.1 hcand
  have hmap : (call.env.nodes.map fun x => replicaAddress call.alive x.1) =
      (call.env.nodes.map Prod.fst).map (replicaAddress call.alive) := by
    rw [List.map_map]
    rfl
  rw [hmap]
  refine hids.map_on fun i hi j hj hij => ?_
  obtain ⟨x, hx, rfl⟩ := List.mem_map.mp hi
  obtain ⟨y, hy, rfl⟩ := List.mem_map.mp hj
  obtain ⟨n, hn, hnid, -, hna⟩ := selected_node hg hx
  obtain ⟨m, hm, hmid, -, hma⟩ := selected_node hg hy
  have hnm : n = m := List.inj_on_of_nodup_map haddr hn hm (hna.symm.trans (hij.trans hma))
  rw [← hnid, ← hmid, hnm]

/-- Of the nodes that acknowledged the last put, one is up. -/
theorem exists_up (haddr : (cl.nodes.map NodeEntry.address).Nodup) (hg : (puts cl c).guard s call)
    {down : Finset Str} (hdown : down.card ≤ (s.writes call).replicaEntries.length / 2) :
    ∃ n ∈ cl.nodes, n.entry ∈ (s.writes call).replicaEntries ∧ n.address ∉ down ∧
      ((s.put call).stores n.address).stored c (s.chunkTable.nextVersion c) =
        some call.req.data := by
  obtain ⟨-, r, -, -, -, hmaj, -, -⟩ := put_succeeded hg.2.2.2.2
  have hnd : (s.writes call).successfulAddrs.Nodup :=
    (nodup_addresses haddr hg).sublist foldl_putReplica_addrs_sublist
  -- more nodes acknowledged than are down
  have hup : ∃ a ∈ (s.writes call).successfulAddrs, a ∉ down := by
    by_contra hall
    push Not at hall
    have hcard := Finset.card_le_card fun a ha => hall a (List.mem_toFinset.mp ha)
    rw [List.toFinset_card_of_nodup hnd] at hcard
    rw [WriteLocals.majorityNeeded] at hmaj
    omega
  obtain ⟨a, ha, hadown⟩ := hup
  obtain ⟨x, hx, hans, rfl, hne⟩ := mem_storageWrites_addrs.mp ha
  obtain ⟨n, hn, hid, he, hna⟩ := selected_node hg hx
  refine ⟨n, hn, ?_, hna ▸ hadown, ?_⟩
  · rw [writes_replicaEntries_eq, ← he]
    exact List.mem_map_of_mem hx
  · rw [stored_put hg, if_pos]
    exact ⟨rfl, hna ▸ hne, x, hx, by simp [hans], hna⟩

/-- After fewer than `10 ^ 10` puts the version of the next one fits ten digits. -/
theorem PutsInv.next (h : PutsInv c k s) (hk : k + 1 < 10 ^ 10) :
    (s.chunkTable.nextVersion c).toNat = k + 1 ∧ s.chunkTable.nextVersion c ≤ 9999999999 := by
  have hn : (s.chunkTable.nextVersion c).toNat = k + 1 := by
    rw [h.version, UInt64.toNat_ofNat', Nat.mod_eq_of_lt (by omega)]
  refine ⟨hn, UInt64.le_iff_toNat_le.mpr ?_⟩
  rw [hn]
  exact show k + 1 ≤ 9999999999 by omega

theorem PutsInv.put_owns (hc : c ≠ []) (hbar : '|' ∉ c) (h : PutsInv c k s)
    (hg : (puts cl c).guard s call) (a : Str) : ((s.put call).stores a).OwnsPrefix c :=
  (h.step hc hbar hg).owns a

/-- After a put no node holds a version above it. -/
theorem PutsInv.le_next (hc : c ≠ []) (hbar : '|' ∉ c) (h : PutsInv c k s) (hk : k + 1 < 10 ^ 10)
    (hg : (puts cl c).guard s call) {a : Str} {w : UInt64}
    (hw : (((s.put call).stores a).stored c w).isSome = true) : w ≤ s.chunkTable.nextVersion c := by
  rw [UInt64.le_iff_toNat_le, (h.next hk).1]
  exact (h.step hc hbar hg).older a w hw

/-- Whatever a node answers after a put is that put's version and data. -/
theorem read_after_put (hc : c ≠ []) (hbar : '|' ∉ c) (h : PutsInv c k s) (hk : k + 1 < 10 ^ 10)
    (hg : (puts cl c).guard s call) {a : Str}
    (hok : (readChunk ((s.put call).stores a) c (s.chunkTable.nextVersion c)).ok = true) :
    (readChunk ((s.put call).stores a) c (s.chunkTable.nextVersion c)).data = call.req.data ∧
      (readChunk ((s.put call).stores a) c (s.chunkTable.nextVersion c)).version =
        s.chunkTable.nextVersion c := by
  obtain ⟨hstored, hle, -⟩ := ChunkStore.read_some (h.put_owns hc hbar hg a) (readChunk_ok hok)
  have hver := UInt64.le_antisymm
    (h.le_next hc hbar hk hg (Option.isSome_iff_exists.mpr ⟨_, hstored⟩)) hle
  refine ⟨?_, hver⟩
  rw [hver, stored_put hg] at hstored
  split_ifs at hstored
  · exact (Option.some.inj hstored).symm
  · -- an older put cannot have written this version
    have hold := h.older a _ (Option.isSome_iff_exists.mpr ⟨_, hstored⟩)
    rw [(h.next hk).1] at hold
    omega

/-- The leader's answer after a put. -/
theorem getChunkInfo_after_put (hc : c ≠ []) (hbar : '|' ∉ c) (hg : (puts cl c).guard s call)
    (alive : List NodeEntry) : getChunkInfo true alive (s.put call).chunkTable c =
      .ok ⟨c, s.chunkTable.nextVersion c, (s.writes call).replicaEntries, call.req.desiredRf, .stable,
        [], call.req.sizeBytes⟩ := by
  have hmap : (s.writes call).replicaEntries.map (encodeReplicaTarget alive) =
      (s.writes call).replicaEntries := by
    refine (List.map_congr_left fun x hx => ?_).trans (List.map_id _)
    obtain ⟨n, -, rfl⟩ := (writes_replicaEntries hg).2 x hx
    exact n.encode_entry alive
  rw [getChunkInfo, put_chunkTable hc hbar hg, ChunkTable.applyPutChunk, Kv.get_put_self]
  simp [hmap]

/-- **A majority write is read back.** -/
theorem get_after_put (haddr : (cl.nodes.map NodeEntry.address).Nodup) (hc : c ≠ []) (hbar : '|' ∉ c)
    {tr : List PutCall} {s : PutsState} (h : (puts cl c).Reach {} tr s)
    (hlen : tr.length + 1 < 10 ^ 10) {call : PutCall} (hg : (puts cl c).guard s call)
    {resp : PutChunkResp} (hresp : (s.put call).resp = some resp) {down : Finset Str}
    (hdown : down.card ≤ resp.replicaSet.length / 2) (client : NimbusClient)
    (hfresh : client.storageStubs = Kv.empty) (alive : List NodeEntry) :
    (client.get (getChunkInfo true alive (s.put call).chunkTable c)
      (readUp (s.put call).stores c down) 0).1 =
      { ok := true, data := call.req.data, version := resp.version } := by
  have hinv := putsInv_reach hc hbar h
  obtain ⟨-, r, hr, hver, hset, -, -, -⟩ := put_succeeded hg.2.2.2.2
  obtain rfl : r = resp := Option.some.inj (hr.symm.trans hresp)
  rw [hg.1] at hver
  rw [hset] at hdown
  have hin : ∀ e ∈ (s.writes call).replicaEntries, NimbusClient.EntryIn cl.Has e := by
    intro e he
    obtain ⟨n, hn, rfl⟩ := (writes_replicaEntries hg).2 e he
    exact cl.entryIn hn
  have hstubs : client.StubsIn cl.Has := fun id addr h => by simp [hfresh] at h
  -- a node that is up and acknowledged the put answers with it
  obtain ⟨n, hn, hne, hup, hst⟩ := exists_up haddr hg hdown
  have hanswer : ∀ id addr target, parseReplicaEntry n.entry = (id, addr) → cl.Has id target →
      ∃ r, readUp (s.put call).stores c down (s.chunkTable.nextVersion c) target = some r ∧
        r.ok = true := by
    intro id addr target hparse hhas
    rw [cl.parse_entry hn] at hparse
    obtain ⟨rfl, rfl⟩ := Prod.mk.inj hparse
    rw [Cluster.Has.address_eq hn hhas]
    have hread := ChunkStore.read_eq_some (hinv.put_owns hc hbar hg n.address) hst
      (UInt64.le_refl _) (hinv.next hlen).2 fun u hu => hinv.le_next hc hbar hlen hg hu
    exact ⟨_, by rw [readUp, if_neg hup, readChunk_of_read hread (UInt64.le_refl _)], rfl⟩
  have hsome := NimbusClient.readAttempts_isSome (n := NimbusClient.attempts) hstubs hin hne hanswer
    (by decide)
  -- and whatever is read is that
  obtain ⟨hfound, -⟩ := NimbusClient.readAttempts_in
    (readUp (s.put call).stores c down (s.chunkTable.nextVersion c)) hstubs hin NimbusClient.attempts
  rw [getChunkInfo_after_put hc hbar hg]
  unfold NimbusClient.get NimbusClient.buildReplicaTryList
  simp only [if_true, List.append_nil]
  generalize client.readAttempts (readUp (s.put call).stores c down (s.chunkTable.nextVersion c))
    (s.writes call).replicaEntries NimbusClient.attempts = x at hsome hfound
  obtain ⟨_ | read, client'⟩ := x
  · simp at hsome
  · obtain ⟨hok, e, -, id, addr, target, -, -, hrpc⟩ := hfound read rfl
    rw [readUp] at hrpc
    split_ifs at hrpc
    obtain rfl := Option.some.inj hrpc
    obtain ⟨hdata, hversion⟩ := read_after_put hc hbar hinv hlen hg hok
    simp only [hdata, hversion, hver]

/-! Three nodes; the second put of the chunk `c` misses one of them, and the node of the first put then
stops answering. -/

def trioCluster : Cluster where
  nodes := [{ nodeId := ['n'], address := ['a'] }, { nodeId := ['m'], address := ['b'] },
    { nodeId := ['k'], address := ['d'] }]
  wellNamed := by decide
  nodup := by decide

def trioPut (data : Str) (rf : Int32) (nodes : List (Str × RpcFate)) : PutCall :=
  ⟨trioCluster.nodes, ⟨['c'], 1, rf, data⟩, ⟨nodes, true, fun _ => true⟩⟩

def firstPut : PutCall := trioPut ['x'] 1 [(['n'], .answered)]

def secondPut : PutCall :=
  trioPut ['y'] 3 [(['n'], .answered), (['m'], .unreached), (['k'], .answered)]

def trioState : PutsState := (puts trioCluster ['c']).final (fun _ _ => True) {} [firstPut]

theorem trioState_reach : (puts trioCluster ['c']).Reach {} [firstPut] trioState :=
  Machine.run_final (by decide +kernel)

theorem get_after_put_trio : (({ nodeAddrs := Kv.empty } : NimbusClient).get
    (getChunkInfo true trioCluster.nodes (trioState.put secondPut).chunkTable ['c'])
      (readUp (trioState.put secondPut).stores ['c'] {['a']}) 0).1 =
      { ok := true, data := ['y'], version := 2 } := by
  have hresp : (trioState.put secondPut).resp =
      some ⟨true, [], 2, ["n=a".toList, "m=b".toList, "k=d".toList]⟩ := by decide +kernel
  exact get_after_put (by decide) (by decide) (by decide) trioState_reach (by decide)
    (by decide +kernel) hresp (by decide) _ rfl _

end Step

end NimbusVault
