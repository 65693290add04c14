import NimbusVault.History
import NimbusVault.ReadRace
import NimbusVault.StableHolders

/-!
# AvailableReads — a chunk stays readable while it is reconfigured

The reader's try-list has the replica set first and the old set behind it, and the driver commits
only what it has verified.  So whatever metadata the client got, some node of its list is up and
stores a version at least the chunk's (`AvailInv`), and the first pass of the get ends at such a
node (`get_succeeds`).
-/

namespace NimbusVault

open Lib RaceState NimbusClient

/-! ### What readers find -/

/-- A try-list entry: the one of a node, or the bare id of a node that is not alive for the leader.
-/
def Known (all cl : Cluster) (x : Str) : Prop :=
  ∃ n ∈ all.nodes, x = n.entry ∨ (x = n.nodeId ∧ n ∉ cl.nodes)

/-- The node is up and stores a version at least `v`. -/
def AvailState.Serves (c : Str) (v : UInt64) (s : AvailState) (n : NodeEntry) : Prop :=
  n.address ∈ s.up ∧ HoldsAtLeast s.race.stores c n.address v

/-- The chunk's metadata lead a reader to one of the nodes `S`. -/
structure Leads (all cl : Cluster) (v : UInt64) (S : NodeEntry → Prop) (e : ChunkEntry) : Prop where
  version : e.version = v
  known : ∀ x ∈ buildReplicaTryList e, Known all cl x
  held : ∃ n ∈ all.nodes, S n ∧ (n.entry ∈ e.replicaSet ∨
    e.configState = .transitioning ∧ n.entry ∈ e.oldReplicaSet)

/-- What a reconfiguration has read and computed: its old set has one of the nodes `S`. -/
structure ReconfigCall.Based (all cl : Cluster) (v : UInt64) (S : NodeEntry → Prop)
    (call : ReconfigCall) : Prop where
  version : call.version = v
  old : ∀ x ∈ call.oldSet, Known all cl x
  new : ∀ x ∈ call.newNodes, Known all cl x
  held : ∃ n ∈ all.nodes, S n ∧ n.entry ∈ call.oldSet

/-- While it verifies, it has found nodes `S` only. -/
def ReconfigCall.Sound (all cl : Cluster) (v : UInt64) (S : NodeEntry → Prop)
    (call : ReconfigCall) : Prop :=
  match call.phase with
  | .finished _ => True
  | .verifying verified todo => call.Based all cl v S ∧ call.newNodes = verified ++ todo ∧
      ∀ x ∈ verified, ∃ n ∈ all.nodes, x = n.entry ∧ S n
  | _ => call.Based all cl v S

/-- The client has no stub to an outdated address.  Of the nodes that are not alive for the leader,
whose ids may come without an address, it was not started with an outdated address either. -/
structure Current (all cl : Cluster) (client : NimbusClient) : Prop where
  stubs : client.StubsIn all.Has
  addrs : ∀ n ∈ all.nodes, n ∉ cl.nodes → ∀ addr, client.nodeAddrs.get n.nodeId = some addr →
    addr = n.address

/-- The get has yet to read at one of the nodes `S`, or has found a version at least `v`. -/
def GetPhase.Sound (all cl : Cluster) (v : UInt64) (S : NodeEntry → Prop) : GetPhase → Prop
  | asking client => Current all cl client
  | reading client info todo _ => Current all cl client ∧ info.version = v ∧
      (∀ x ∈ todo, Known all cl x) ∧ ∃ n ∈ all.nodes, S n ∧ n.entry ∈ todo
  | done r => r.ok = true ∧ v ≤ r.version

/-- **The invariant.** -/
structure AvailInv (all cl : Cluster) (c : Str) (v : UInt64) (s : AvailState) : Prop where
  plain : ∀ addr, (s.race.stores addr).PlainKeys
  listed : ∃ e, s.race.chunkTable.get c = some e ∧ Leads all cl v (s.Serves c v) e
  reconfigs : ∀ j call, s.race.reconfigs j = some call → call.Sound all cl v (s.Serves c v)
  get : s.get.Sound all cl v (s.Serves c v)

section Known

variable {all cl : Cluster} {x : Str} {n : NodeEntry}

theorem known_entry (hn : n ∈ all.nodes) : Known all cl n.entry := ⟨n, hn, .inl rfl⟩

theorem Known.isField (h : Known all cl x) : IsField x := by
  obtain ⟨n, hn, rfl | ⟨rfl, -⟩⟩ := h
  · exact (all.wellNamed n hn).isField
  · have hw := all.wellNamed n hn
    exact ⟨hw.id_ne, hw.id_bar, hw.id_comma⟩

theorem Known.extractNodeId (h : Known all cl x) : ∃ n ∈ all.nodes, extractNodeId x = n.nodeId := by
  obtain ⟨n, hn, rfl | ⟨rfl, -⟩⟩ := h
  · exact ⟨n, hn, (all.wellNamed n hn).extractNodeId⟩
  · refine ⟨n, hn, ?_⟩
    rw [NimbusVault.extractNodeId, splitEntry, if_neg (all.wellNamed n hn).id_eq]
    rfl

/-- The leader has no address for a node that is not alive for it. -/
theorem addressOf_dead (hsub : cl.nodes ⊆ all.nodes) (hn : n ∈ all.nodes) (hd : n ∉ cl.nodes) :
    addressOf cl.nodes n.nodeId = none := by
  refine Option.map_eq_none_iff.mpr (List.find?_eq_none.mpr fun m hm hid => hd ?_)
  have hid : m.nodeId = n.nodeId := by simpa using hid
  exact List.inj_on_of_nodup_map all.nodup (hsub hm) hn hid ▸ hm

/-- The leader sends the entries as they are. -/
theorem Known.encode (hsub : cl.nodes ⊆ all.nodes) (h : Known all cl x) :
    encodeReplicaTarget cl.nodes x = x := by
  obtain ⟨n, hn, rfl | ⟨rfl, hd⟩⟩ := h
  · exact n.encode_entry cl.nodes
  · rw [encodeReplicaTarget, if_neg (all.wellNamed n hn).id_eq, addressOf_dead hsub hn hd]

/-- Whatever resolves to an address is the entry of the node there. -/
theorem Known.resolve (hsub : cl.nodes ⊆ all.nodes) (h : Known all cl x)
    (hne : resolveReplicaAddress cl.nodes x ≠ []) :
    ∃ n ∈ all.nodes, x = n.entry ∧ resolveReplicaAddress cl.nodes x = n.address := by
  obtain ⟨n, hn, rfl | ⟨rfl, hd⟩⟩ := h
  · exact ⟨n, hn, rfl, (all.wellNamed n hn).resolve _⟩
  · refine absurd ?_ hne
    rw [resolveReplicaAddress, splitEntry, if_neg (all.wellNamed n hn).id_eq,
      addressOf_dead hsub hn hd]
    rfl

/-- The targets of a reconfiguration. -/
theorem reconfigTargets_known (hsub : cl.nodes ⊆ all.nodes) {oldSet selected new : List Str}
    {newRf : ℤ} {incl excl : Str} (hold : ∀ x ∈ oldSet, Known all cl x)
    (hsel : SelectsTargets cl.nodes oldSet newRf incl excl selected)
    (h : reconfigTargets cl.nodes oldSet newRf incl excl selected = some new) :
    ∀ x ∈ new, Known all cl x := by
  obtain ⟨ids, rfl, -, -, hmem⟩ := reconfigTargets_ids hsel h
  intro x hx
  obtain ⟨id, hid, rfl⟩ := List.mem_map.mp hx
  have hnode : ∃ n ∈ all.nodes, n.nodeId = id := by
    rcases hmem id hid with hid | hid
    · obtain ⟨old, ho, rfl⟩ := List.mem_map.mp hid
      obtain ⟨n, hn, he⟩ := (hold old ho).extractNodeId
      exact ⟨n, hn, he.symm⟩
    · obtain ⟨n, hn, rfl⟩ := List.mem_map.mp hid
      exact ⟨n, hsub hn, rfl⟩
  obtain ⟨n, hn, rfl⟩ := hnode
  by_cases halive : n ∈ cl.nodes
  · refine ⟨n, hn, .inl ?_⟩
    rw [reconfigEntry, cl.addressOf_eq halive]
    rfl
  · refine ⟨n, hn, .inr ⟨?_, halive⟩⟩
    rw [reconfigEntry, addressOf_dead hsub hn halive]

end Known

/-! ### What stays -/

section Frame

variable {all cl : Cluster} {c : Str} {v : UInt64} {S S' : NodeEntry → Prop} {s s' : AvailState}

theorem Leads.mono {e : ChunkEntry} (h : Leads all cl v S e) (hS : ∀ n, S n → S' n) :
    Leads all cl v S' e := by
  obtain ⟨n, hn, hs, hmem⟩ := h.held
  exact ⟨h.version, h.known, n, hn, hS n hs, hmem⟩

theorem ReconfigCall.Based.mono {call : ReconfigCall} (h : call.Based all cl v S)
    (hS : ∀ n, S n → S' n) : call.Based all cl v S' := by
  obtain ⟨n, hn, hs, hmem⟩ := h.held
  exact ⟨h.version, h.old, h.new, n, hn, hS n hs, hmem⟩

theorem ReconfigCall.Sound.mono {call : ReconfigCall} (h : call.Sound all cl v S)
    (hS : ∀ n, S n → S' n) : call.Sound all cl v S' := by
  obtain ⟨old, w, new, phase⟩ := call
  cases phase with
  | finished ok => trivial
  | targeted => exact ReconfigCall.Based.mono h hS
  | copying todo fetched => exact ReconfigCall.Based.mono h hS
  | verifying verified todo =>
    obtain ⟨hbased, hsplit, hver⟩ := h
    refine ⟨hbased.mono hS, hsplit, fun x hx => ?_⟩
    obtain ⟨n, hn, he, hs⟩ := hver x hx
    exact ⟨n, hn, he, hS n hs⟩

theorem GetPhase.Sound.mono {get : GetPhase} (h : get.Sound all cl v S) (hS : ∀ n, S n → S' n) :
    get.Sound all cl v S' := by
  cases get with
  | asking client => exact h
  | reading client info todo left =>
    obtain ⟨hcur, hver, hknown, n, hn, hs, hmem⟩ := h
    exact ⟨hcur, hver, hknown, n, hn, hS n hs, hmem⟩
  | done r => exact h

/-- Serving nodes may become more, and other chunks may change. -/
theorem AvailInv.mono (h : AvailInv all cl c v s) (hplain : ∀ a, (s'.race.stores a).PlainKeys)
    (hS : ∀ n, s.Serves c v n → s'.Serves c v n)
    (htable : s'.race.chunkTable.get c = s.race.chunkTable.get c)
    (hreconfigs : s'.race.reconfigs = s.race.reconfigs) (hget : s'.get = s.get) :
    AvailInv all cl c v s' where
  plain := hplain
  listed := by
    obtain ⟨e, he, hl⟩ := h.listed
    exact ⟨e, htable.trans he, hl.mono hS⟩
  reconfigs j call hj := by
    rw [hreconfigs] at hj
    exact (h.reconfigs j call hj).mono hS
  get := hget ▸ h.get.mono hS

/-- The store of one node may change if the node keeps its versions of the chunk. -/
theorem AvailInv.setStore (h : AvailInv all cl c v s) {addr : Str} {st : ChunkStore}
    (hplain : st.PlainKeys) (hst : ∀ w, ((s.race.stores addr).stored c w).isSome = true →
      (st.stored c w).isSome = true) : AvailInv all cl c v (s.setStore addr st) := by
  have happly : ∀ a, (s.setStore addr st).race.stores a =
      if a = addr then st else s.race.stores a := fun a => Function.update_apply _ _ _ _
  refine h.mono (fun a => ?_) (fun n hn => ⟨hn.1, hn.2.mono fun w hw => ?_⟩) rfl rfl rfl
  · rw [happly]
    split_ifs
    · exact hplain
    · exact h.plain a
  · rw [happly]
    split_ifs with ha
    · subst ha
      exact hst w hw
    · exact hw

theorem AvailInv.setReconfig (h : AvailInv all cl c v s) {j : ℕ} {call : ReconfigCall}
    (hc : call.Sound all cl v (s.Serves c v)) :
    AvailInv all cl c v (s.setRace (s.race.setReconfig j call)) :=
  ⟨h.plain, h.listed, forall_update_some hc h.reconfigs, h.get⟩

theorem AvailInv.setTable (h : AvailInv all cl c v s) {t : ChunkTable} {e : ChunkEntry}
    (ht : t.get c = some e) (he : Leads all cl v (s.Serves c v) e) :
    AvailInv all cl c v (s.setRace { s.race with chunkTable := t }) :=
  ⟨h.plain, ⟨e, ht, he⟩, h.reconfigs, h.get⟩

end Frame

/-! ### The steps of a reconfiguration -/

section Reconfigs

variable {all cl : Cluster} {c : Str} {v w : UInt64} {s : AvailState} {j : ℕ}
  {old new verified todo : List Str}

/-- Some node serves the chunk, so its version has at most ten digits. -/
theorem AvailInv.version_le (h : AvailInv all cl c v s) : v ≤ 9999999999 := by
  obtain ⟨e, -, hl⟩ := h.listed
  obtain ⟨n, -, ⟨-, w, hvw, hw⟩, -⟩ := hl.held
  exact UInt64.le_trans hvw ((h.plain n.address).le hw)

theorem availInv_begin (hsub : cl.nodes ⊆ all.nodes) (h : AvailInv all cl c v s) {newRf : Int32}
    {incl excl : Str} {selected : List Str}
    (hsel : ∀ e ∈ s.race.chunkTable.get c,
      SelectsTargets cl.nodes e.replicaSet newRf.toInt incl excl selected) :
    AvailInv all cl c v (s.setRace (s.race.setReconfig j
      (reconfigBegin cl s.race.chunkTable c newRf incl excl selected))) := by
  obtain ⟨e, he, hl⟩ := h.listed
  refine h.setReconfig ?_
  rcases reconfigBegin_cases cl s.race.chunkTable c newRf incl excl selected with
    hcall | ⟨e', new, he', hst, ht, hcall⟩
  · rw [hcall]
    trivial
  · obtain rfl := Option.some.inj (he.symm.trans he')
    have hold : ∀ x ∈ e.replicaSet, Known all cl x := fun x hx =>
      hl.known x (List.mem_append_left _ hx)
    rw [hcall]
    obtain ⟨n, hn, hs, hmem | ⟨htr, -⟩⟩ := hl.held
    · exact ⟨hl.version, hold, reconfigTargets_known hsub hold (hsel e he) ht, n, hn, hs, hmem⟩
    · exact absurd htr hst

/-- Behind the START readers fall back to the old set. -/
theorem availInv_start (hc : c ≠ []) (hbar : '|' ∉ c) (h : AvailInv all cl c v s)
    (hj : s.race.reconfigs j = some ⟨old, w, new, .targeted⟩) {t : ChunkTable}
    (ht : applyWalEntry s.race.chunkTable (startPayload c old new) = some t) :
    AvailInv all cl c v (s.setRace ({ s.race with chunkTable := t }.setReconfig j
      ⟨old, w, new, .copying (if old = [] then [] else new) none⟩)) := by
  have hbased : ReconfigCall.Based all cl v (s.Serves c v) ⟨old, w, new, .targeted⟩ :=
    h.reconfigs j _ hj
  obtain ⟨rfl, hold, hnew, n, hn, hs, hmem⟩ := hbased
  have hsound : ReconfigCall.Sound all cl w (s.Serves c w)
      ⟨old, w, new, .copying (if old = [] then [] else new) none⟩ :=
    ⟨rfl, hold, hnew, n, hn, hs, hmem⟩
  rw [applyWalEntry_startPayload hc hbar (List.ne_nil_of_mem hmem) (fun x hx => (hold x hx).isField)
    fun x hx => (hnew x hx).isField] at ht
  obtain rfl := Option.some.inj ht
  obtain ⟨e, he, hl⟩ := h.listed
  by_cases hnil : new = []
  · rw [if_pos hnil]
    exact (h.setTable he hl).setReconfig hsound
  · rw [if_neg hnil]
    have he' : (s.race.chunkTable.applyReconfigStart c old new).get c =
        some (ChunkTable.startEntry old new e) := by
      rw [ChunkTable.applyReconfigStart, Kv.get_alter_self, he]
      rfl
    have hl' : Leads all cl w (s.Serves c w) (ChunkTable.startEntry old new e) := by
      refine ⟨hl.version, fun x hx => ?_, n, hn, hs, .inr ⟨rfl, hmem⟩⟩
      rcases List.mem_append.mp hx with hx | hx
      · exact hnew x hx
      · exact hold x hx
    exact (h.setTable he' hl').setReconfig hsound

/-- A copy adds a version to the store of its target. -/
theorem availInv_copy (hslash : '/' ∉ c) (h : AvailInv all cl c v s) {fate : RpcFate}
    {dst data : Str} {phase : ReconfigPhase}
    (hj : s.race.reconfigs j = some ⟨old, w, new, .copying (dst :: todo) (some data)⟩)
    (hphase : phase = .copying todo none ∨ phase = .finished false) :
    AvailInv all cl c v (s.setRace ({ s.race with stores := (writeChunkToReplica s.race.stores
      (resolveReplicaAddress cl.nodes dst) c w data fate).2 }.setReconfig j
        ⟨old, w, new, phase⟩)) := by
  have hver : ReconfigCall.Based all cl v (s.Serves c v)
      ⟨old, w, new, .copying (dst :: todo) (some data)⟩ := h.reconfigs j _ hj
  obtain rfl : w = v := hver.version
  set addr := resolveReplicaAddress cl.nodes dst
  have hgrown : AvailInv all cl c w (s.setRace { s.race with stores :=
      (writeChunkToReplica s.race.stores addr c w data fate).2 }) := by
    refine h.mono (fun a => ?_) (fun n hn => ⟨hn.1, hn.2.mono fun u hu => ?_⟩) rfl rfl rfl
    · show ((writeChunkToReplica s.race.stores addr c w data fate).2 a).PlainKeys
      rw [writeChunkToReplica_apply]
      split_ifs
      · exact (h.plain a).write hslash h.version_le
      · exact h.plain a
    · show (((writeChunkToReplica s.race.stores addr c w data fate).2
        n.address).stored c u).isSome = true
      rw [writeChunkToReplica_apply]
      split_ifs
      · exact ChunkStore.stored_write_isSome hu
      · exact hu
  obtain ⟨hver, hold, hnew, hheld⟩ : ReconfigCall.Based _ _ _ _ _ := hgrown.reconfigs j _ hj
  refine hgrown.setReconfig ?_
  rcases hphase with rfl | rfl
  · exact ⟨hver, hold, hnew, hheld⟩
  · trivial

/-- Behind the COMMIT every node of the replica set has been verified. -/
theorem availInv_commit (hc : c ≠ []) (hbar : '|' ∉ c) (h : AvailInv all cl c v s)
    (hj : s.race.reconfigs j = some ⟨old, w, new, .verifying verified []⟩) {t : ChunkTable}
    (ht : applyWalEntry s.race.chunkTable (commitPayload c new) = some t) :
    AvailInv all cl c v (s.setRace ({ s.race with chunkTable := t }.setReconfig j
      ⟨old, w, new, .finished true⟩)) := by
  obtain ⟨hbased, hsplit, hver⟩ := h.reconfigs j _ hj
  dsimp only at hsplit
  rw [List.append_nil] at hsplit
  subst hsplit
  have hnew : ∀ x ∈ new, Known all cl x := hbased.new
  rw [applyWalEntry_commitPayload hc hbar fun x hx => (hnew x hx).isField] at ht
  obtain rfl := Option.some.inj ht
  obtain ⟨e, he, hl⟩ := h.listed
  have hfinished : ReconfigCall.Sound all cl v (s.Serves c v) ⟨old, w, new, .finished true⟩ :=
    trivial
  by_cases hnil : new = []
  · rw [if_pos hnil]
    exact (h.setTable he hl).setReconfig hfinished
  · rw [if_neg hnil]
    have he' : (s.race.chunkTable.applyReconfigCommit c new).get c =
        some (ChunkTable.commitEntry new e) := by
      rw [ChunkTable.applyReconfigCommit, Kv.get_alter_self, he]
      rfl
    obtain ⟨x, hx⟩ := List.exists_mem_of_ne_nil new hnil
    obtain ⟨n, hn, rfl, hs⟩ := hver x hx
    have hl' : Leads all cl v (s.Serves c v) (ChunkTable.commitEntry new e) := by
      refine ⟨hl.version, fun x hx => ?_, n, hn, hs, .inl hx⟩
      have hx : x ∈ new ++ [] := hx
      rw [List.append_nil] at hx
      exact hnew x hx
    exact (h.setTable he' hl').setReconfig hfinished

/-- A node that passes verification is up and stores the version. -/
theorem availInv_verify (hsub : cl.nodes ⊆ all.nodes) (h : AvailInv all cl c v s) {entry : Str}
    {fate : RpcFate}
    (hj : s.race.reconfigs j = some ⟨old, w, new, .verifying verified (entry :: todo)⟩)
    (hup : s.race.Reaches cl s.up (.verify j fate)) :
    AvailInv all cl c v (s.setRace (s.race.setReconfig j ⟨old, w, new,
      ReconfigCall.verify cl c s.race.stores fate ⟨old, w, new, .verifying verified (entry :: todo)⟩
        verified entry todo⟩)) := by
  obtain ⟨hbased, hsplit, hver⟩ := h.reconfigs j _ hj
  obtain rfl : w = v := hbased.version
  dsimp only at hsplit
  refine h.setReconfig ?_
  generalize hp : ReconfigCall.verify _ _ _ _ _ _ _ _ = phase
  rcases ReconfigCall.verify_cases hp rfl with rfl | ⟨rfl, hne, rfl, hok, hle⟩
  · trivial
  · have hentry : Known all cl entry := hbased.new entry (by simp [hsplit])
    obtain ⟨n, hn, he, haddr⟩ := hentry.resolve hsub hne
    have hrpc : s.race.rpc cl (.verify j .answered) =
        some (resolveReplicaAddress cl.nodes entry, .answered) := by
      simp only [RaceState.rpc, hj]
    have hin : resolveReplicaAddress cl.nodes entry ∈ s.up :=
      (hup _ hrpc).resolve_left (by simp)
    obtain ⟨hst, -, -⟩ := ChunkStore.read_some (h.plain _).ownsPrefix (readChunk_ok hok)
    refine ⟨⟨hbased.version, hbased.old, hbased.new, hbased.held⟩, by simp [hsplit], fun x hx => ?_⟩
    rcases List.mem_append.mp hx with hx | hx
    · exact hver x hx
    · obtain rfl := List.mem_singleton.mp hx
      rw [haddr] at hin hst hle
      exact ⟨n, hn, he, hin, _, hle, by rw [hst]; rfl⟩

/-- **A step of a reconfiguration keeps the invariant.** -/
theorem AvailInv.race (hsub : cl.nodes ⊆ all.nodes) (hc : c ≠ []) (hbar : '|' ∉ c)
    (hslash : '/' ∉ c) (h : AvailInv all cl c v s) {a : RaceStep} {r : RaceState} (ha : ¬ a.OfPut)
    (hup : s.race.Reaches cl s.up a) (hs : Fires cl c s.race a r) :
    AvailInv all cl c v (s.setRace r) := by
  cases hs with
  | check => exact absurd trivial ha
  | place => exact absurd trivial ha
  | write => exact absurd trivial ha
  | log => exact absurd trivial ha
  | undo => exact absurd trivial ha
  | begin _ hsel => exact availInv_begin hsub h hsel
  | startFailed => exact h.setReconfig trivial
  | start hj ht => exact availInv_start hc hbar h hj ht
  | @fetch j fate old new todo w dst hj =>
    have hbased : ReconfigCall.Based all cl v (s.Serves c v)
        ⟨old, w, new, .copying (dst :: todo) none⟩ := h.reconfigs j _ hj
    refine h.setReconfig ?_
    generalize hp : ReconfigCall.fetch _ _ _ _ _ _ _ = phase
    rcases ReconfigCall.fetch_cases hp with rfl | ⟨todo', fetched, rfl⟩
    · trivial
    · exact ⟨hbased.version, hbased.old, hbased.new, hbased.held⟩
  | copy hj hphase => exact availInv_copy hslash h hj hphase
  | @copied j old new w hj =>
    have hbased : ReconfigCall.Based all cl v (s.Serves c v) ⟨old, w, new, .copying [] none⟩ :=
      h.reconfigs j _ hj
    exact h.setReconfig ⟨⟨hbased.version, hbased.old, hbased.new, hbased.held⟩, rfl,
      fun x hx => by simp at hx⟩
  | verify hj => exact availInv_verify hsub h hj hup
  | commitFailed => exact h.setReconfig trivial
  | commit hj ht => exact availInv_commit hc hbar h hj ht

end Reconfigs

/-! ### The steps of the get -/

section Gets

variable {all cl : Cluster} {c : Str} {v : UInt64} {S : NodeEntry → Prop} {client : NimbusClient}
  {info : ChunkEntry} {entry : Str} {todo : List Str} {left : ℕ} {s : AvailState}
  {rpc : UInt64 → Str → Option ReadChunkResp}

/-- Nodes answer with versions at least the one asked for, and the nodes `S` do answer. -/
structure Answers (all : Cluster) (v : UInt64) (S : NodeEntry → Prop)
    (rpc : Str → Option ReadChunkResp) : Prop where
  version : ∀ target r, rpc target = some r → r.ok = true → v ≤ r.version
  serves : ∀ n ∈ all.nodes, S n → ∃ r, rpc n.address = some r ∧ r.ok = true

/-- A read leaves no outdated stub behind. -/
theorem Current.tryRead (h : Current all cl client) (hx : Known all cl entry)
    (rpc : Str → Option ReadChunkResp) : Current all cl (client.tryRead rpc entry).2 := by
  rw [tryRead_client]
  obtain ⟨n, hn, rfl | ⟨rfl, hd⟩⟩ := hx
  · have hw := all.wellNamed n hn
    have hkept : ((client.getOrCreateStub n.nodeId n.address).2).nodeAddrs =
        client.nodeAddrs.put n.nodeId n.address := by
      rw [getOrCreateStub_nodeAddrs, if_neg hw.addr_ne]
    rw [all.parse_entry hn]
    refine ⟨getOrCreateStub_stubs h.stubs fun a ha => ?_, fun m hm hd addr ha => ?_⟩
    · rw [hkept, Kv.get_put_self] at ha
      exact ⟨n, hn, rfl, Option.some.inj ha⟩
    · rw [hkept, Kv.get_put] at ha
      split_ifs at ha with hid
      · obtain rfl : m = n := List.inj_on_of_nodup_map all.nodup hm hn hid
        exact (Option.some.inj ha).symm
      · exact h.addrs m hm hd addr ha
  · -- a bare id is looked up among the addresses that the client has
    have hparse : parseReplicaEntry n.nodeId = (n.nodeId, []) := by
      rw [parseReplicaEntry, splitEntry, if_neg (all.wellNamed n hn).id_eq]
      rfl
    have hkept : ((client.getOrCreateStub n.nodeId []).2).nodeAddrs = client.nodeAddrs := by
      rw [getOrCreateStub_nodeAddrs, if_pos rfl]
    rw [hparse]
    refine ⟨getOrCreateStub_stubs h.stubs fun a ha => ?_, fun m hm hd addr ha => ?_⟩
    · rw [hkept] at ha
      exact ⟨n, hn, rfl, (h.addrs n hn hd a ha).symm⟩
    · rw [hkept] at ha
      exact h.addrs m hm hd addr ha

/-- A node `S` is read at. -/
theorem Current.tryRead_isSome {rpc : Str → Option ReadChunkResp} (h : Current all cl client)
    (hrpc : Answers all v S rpc) {n : NodeEntry} (hn : n ∈ all.nodes) (hs : S n) :
    (client.tryRead rpc n.entry).1.isSome = true := by
  have hin : EntryIn all.Has n.entry := all.entryIn hn
  refine NimbusClient.tryRead_isSome h.stubs hin fun nodeId addr target hparse hhas => ?_
  rw [all.parse_entry hn] at hparse
  obtain ⟨rfl, rfl⟩ := Prod.mk.inj hparse
  rw [Cluster.Has.address_eq hn hhas]
  exact hrpc.serves n hn hs

/-- **A read**: it finds a version at least `v`, or one of the nodes `S` is still to be read at. -/
theorem GetPhase.Sound.read (h : (reading client info todo left).Sound all cl v S)
    (hrpc : Answers all v S (rpc v)) :
    (GetPhase.read rpc client info todo left).Sound all cl v S := by
  obtain ⟨hcur, rfl, hknown, n, hn, hs, hmem⟩ := h
  cases todo with
  | nil => simp at hmem
  | cons entry todo =>
    have hcur' := hcur.tryRead (hknown entry List.mem_cons_self) (rpc info.version)
    have hsome : n.entry = entry → (client.tryRead (rpc info.version) entry).1.isSome = true := by
      rintro rfl
      exact hcur.tryRead_isSome hrpc hn hs
    have hfound : ∀ r, (client.tryRead (rpc info.version) entry).1 = some r →
        info.version ≤ r.version := by
      intro r hr
      obtain ⟨target, ht, hok⟩ := tryRead_some hr
      exact hrpc.version target r ht hok
    unfold GetPhase.read
    dsimp only
    generalize client.tryRead (rpc info.version) entry = x at hcur' hsome hfound
    obtain ⟨_ | r, client'⟩ := x
    · have hne : n.entry ≠ entry := fun he => by simpa using hsome he
      exact ⟨hcur', rfl, fun x hx => hknown x (List.mem_cons_of_mem _ hx), n, hn, hs,
        (List.mem_cons.mp hmem).resolve_left hne⟩
    · exact ⟨rfl, hfound r rfl⟩

/-- The reads of a state of the invariant. -/
theorem AvailInv.answers (h : AvailInv all cl c v s) :
    Answers all v (s.Serves c v) (s.readAt c v) where
  version target r hr hok := by
    unfold AvailState.readAt at hr
    split_ifs at hr
    obtain rfl := Option.some.inj hr
    exact (ChunkStore.read_some (h.plain target).ownsPrefix (readChunk_ok hok)).2.1
  serves n _ hs := by
    obtain ⟨hup, w, hvw, hw⟩ := hs
    obtain ⟨d, u, hread, hwu⟩ := ChunkStore.read_ge (h.plain n.address).ownsPrefix hw hvw
      ((h.plain n.address).le hw)
    have hresp := readChunk_of_read hread (UInt64.le_trans hvw hwu)
    exact ⟨_, if_pos hup, by rw [hresp]⟩

/-- The leader's answer. -/
theorem AvailInv.chunkInfo (hsub : cl.nodes ⊆ all.nodes) (h : AvailInv all cl c v s) :
    ∃ e, getChunkInfo true cl.nodes s.race.chunkTable c = .ok e ∧
      Leads all cl v (s.Serves c v) e := by
  obtain ⟨e, he, hl⟩ := h.listed
  have hmap : ∀ xs : List Str, (∀ x ∈ xs, Known all cl x) →
      xs.map (encodeReplicaTarget cl.nodes) = xs := fun xs hxs =>
    (List.map_congr_left fun x hx => (hxs x hx).encode hsub).trans (List.map_id _)
  refine ⟨e, ?_, hl⟩
  rw [getChunkInfo, he, if_neg (by decide)]
  dsimp only
  rw [hmap _ fun x hx => hl.known x (List.mem_append_left _ hx),
    hmap _ fun x hx => hl.known x (List.mem_append_right _ hx)]

/-- Whatever the leader lists leads to a serving node. -/
theorem AvailInv.ask (hsub : cl.nodes ⊆ all.nodes) (h : AvailInv all cl c v s)
    (hcur : Current all cl client) :
    (GetPhase.ask client (getChunkInfo true cl.nodes s.race.chunkTable c)).Sound all cl v
      (s.Serves c v) := by
  obtain ⟨e, he, hl⟩ := h.chunkInfo hsub
  obtain ⟨n, hn, hs, hmem⟩ := hl.held
  rw [he]
  refine ⟨hcur, hl.version, hl.known, n, hn, hs, ?_⟩
  rcases hmem with hmem | ⟨-, hmem⟩
  · exact List.mem_append_left _ hmem
  · exact List.mem_append_right _ hmem

/-- What is left of a get finds a version at least `v` if nothing changes any more. -/
theorem GetPhase.Sound.result {answer : Except Str ChunkEntry}
    (h : (reading client info todo left).Sound all cl v S) (hrpc : Answers all v S (rpc v)) :
    ((reading client info todo left).result answer rpc).ok = true ∧
      v ≤ ((reading client info todo left).result answer rpc).version := by
  induction todo generalizing client with
  | nil =>
    obtain ⟨-, -, -, n, -, -, hmem⟩ := h
    simp at hmem
  | cons entry todo ih =>
    have hnext := h.read hrpc
    rw [← result_read]
    unfold GetPhase.read at hnext ⊢
    dsimp only at hnext ⊢
    generalize client.tryRead (rpc info.version) entry = x at hnext ⊢
    obtain ⟨_ | r, client'⟩ := x
    · exact ih hnext
    · exact hnext

end Gets

/-! ### Runs -/

/-- A stable chunk at version `v` that some node of its replica set serves, no reconfiguration yet,
and the get of a client without stubs.  An address that the client was started with counts only for
a node that is not alive for the leader, whose id may come without one: there it is the current one.
-/
structure AvailStart (all cl : Cluster) (c : Str) (v : UInt64) (s : AvailState) : Prop where
  keys : ∀ addr, (s.race.stores addr).PlainKeys
  stable : ∃ e, s.race.chunkTable.get c = some e ∧ e.configState = .stable ∧ e.version = v ∧
    (∀ x ∈ buildReplicaTryList e, ∃ n ∈ all.nodes, x = n.entry) ∧
    ∃ n ∈ all.nodes, n.entry ∈ e.replicaSet ∧ s.Serves c v n
  idle : ∀ j, s.race.reconfigs j = none
  fresh : ∃ client, s.get = .asking client ∧ client.storageStubs = Kv.empty ∧
    ∀ n ∈ all.nodes, n ∉ cl.nodes → ∀ addr, client.nodeAddrs.get n.nodeId = some addr →
      addr = n.address

def AvailStep.isRead : AvailStep → Bool
  | .read => true
  | _ => false

/-- After `reads` reads: the get has found a version at least `v`, or it is still in its first pass
and has nodes to read at. -/
def GetPhase.Succeeds (v : UInt64) (reads : ℕ) : GetPhase → Prop
  | asking _ => reads = 0
  | reading _ info todo _ => todo ≠ [] ∧ reads + todo.length = (buildReplicaTryList info).length
  | done r => r.ok = true ∧ v ≤ r.version

section Runs

variable {all cl : Cluster} {c : Str} {v : UInt64} {s s' : AvailState} {a : AvailStep}
  {tr : List AvailStep}

theorem AvailStart.inv (h : AvailStart all cl c v s) : AvailInv all cl c v s where
  plain := h.keys
  listed := by
    obtain ⟨e, he, -, hver, hentries, n, hn, hmem, hs⟩ := h.stable
    refine ⟨e, he, hver, fun x hx => ?_, n, hn, hs, .inl hmem⟩
    obtain ⟨m, hm, rfl⟩ := hentries x hx
    exact known_entry hm
  reconfigs j call hj := by
    rw [h.idle j] at hj
    simp at hj
  get := by
    obtain ⟨client, hget, hstubs, haddrs⟩ := h.fresh
    rw [hget]
    exact ⟨fun _ _ hs => by simp [hstubs] at hs, haddrs⟩

/-- **The step lemma.** -/
theorem AvailInv.moves (hsub : cl.nodes ⊆ all.nodes) (hc : c ≠ []) (hbar : '|' ∉ c)
    (hslash : '/' ∉ c) (h : AvailInv all cl c v s) (hs : s.Moves cl c a s') : AvailInv all cl c v s' := by
  have hget := h.get
  cases hs with
  | race ha hup hfires => exact h.race hsub hc hbar hslash ha hup hfires
  | join => exact h.mono h.plain (fun n hn => ⟨Finset.mem_insert_of_mem hn.1, hn.2⟩) rfl rfl rfl
  | write hid hslash' hv =>
    exact h.setStore ((h.plain _).write hslash' hv) fun w hw => ChunkStore.stored_write_isSome hw
  | remove hid =>
    refine h.setStore (h.plain _).remove fun w hw => ?_
    rw [ChunkStore.stored_remove, if_neg fun hcov => hid (ChunkStore.eq_of_covers hslash hcov)]
    exact hw
  | apply hid => exact h.mono h.plain (fun n hn => hn) (Kv.get_alter_of_ne (Ne.symm hid)) rfl rfl
  | ask hg =>
    rw [hg] at hget
    have hask := h.ask hsub hget
    exact ⟨h.plain, h.listed, h.reconfigs, hask⟩
  | read hg =>
    rw [hg] at hget
    exact ⟨h.plain, h.listed, h.reconfigs, hget.read h.answers⟩

theorem AvailInv.succeeds_ask (hsub : cl.nodes ⊆ all.nodes) (h : AvailInv all cl c v s)
    (client : NimbusClient) :
    (GetPhase.ask client (getChunkInfo true cl.nodes s.race.chunkTable c)).Succeeds v 0 := by
  obtain ⟨e, he, hl⟩ := h.chunkInfo hsub
  obtain ⟨n, hn, hs, hmem⟩ := hl.held
  rw [he]
  refine ⟨?_, Nat.zero_add _⟩
  rcases hmem with hmem | ⟨-, hmem⟩
  · exact List.append_ne_nil_of_left_ne_nil (List.ne_nil_of_mem hmem) _
  · exact List.append_ne_nil_of_right_ne_nil _ (List.ne_nil_of_mem hmem)

theorem GetPhase.Sound.succeeds_read {rpc : UInt64 → Str → Option ReadChunkResp}
    {S : NodeEntry → Prop} {client : NimbusClient} {info : ChunkEntry} {todo : List Str}
    {left k : ℕ} (h : (reading client info todo left).Sound all cl v S) (hrpc : Answers all v S (rpc v))
    (hk : (reading client info todo left).Succeeds v k) :
    (GetPhase.read rpc client info todo left).Succeeds v (k + 1) := by
  have hnext := h.read hrpc
  obtain ⟨hne, hcount⟩ := hk
  cases todo with
  | nil => exact absurd rfl hne
  | cons entry todo =>
    unfold GetPhase.read at hnext ⊢
    dsimp only at hnext ⊢
    generalize client.tryRead (rpc info.version) entry = x at hnext ⊢
    obtain ⟨_ | r, client'⟩ := x
    · obtain ⟨-, -, -, n, -, -, hmem⟩ := hnext
      rw [List.length_cons] at hcount
      exact ⟨List.ne_nil_of_mem hmem, by omega⟩
    · exact hnext

/-- What a run keeps: the invariant, and how far the get has got. -/
theorem availInv_of_run (hsub : cl.nodes ⊆ all.nodes) (hc : c ≠ []) (hbar : '|' ∉ c)
    (hslash : '/' ∉ c) {s₀ : AvailState} (hstart : AvailStart all cl c v s₀)
    (h : (availability cl c).Reach s₀ tr s) :
    AvailInv all cl c v s ∧ s.get.Succeeds v (tr.countP AvailStep.isRead) := by
  refine h.trace_invariant (I := fun tr s => AvailInv all cl c v s ∧
    s.get.Succeeds v (tr.countP AvailStep.isRead)) ⟨hstart.inv, ?_⟩ fun tr s a s' hI hs _ => ?_
  · obtain ⟨client, hget, -⟩ := hstart.fresh
    rw [hget]
    rfl
  · obtain ⟨hinv, hk⟩ := hI
    have hmoves := AvailState.step_moves hs
    refine ⟨hinv.moves hsub hc hbar hslash hmoves, ?_⟩
    have hget := hinv.get
    rw [List.countP_append, List.countP_singleton]
    cases hmoves with
    | ask hg =>
      rw [hg] at hk
      have hzero : tr.countP AvailStep.isRead = 0 := hk
      rw [hzero]
      exact hinv.succeeds_ask hsub _
    | read hg =>
      rw [hg] at hget hk
      exact hget.succeeds_read hinv.answers hk
    | _ => exact hk

/-- **A get around a reconfiguration succeeds**: each of its steps can be taken, it makes at most
one read for each entry of its try-list, and what it finds has a version at least `v`. -/
theorem get_succeeds (hsub : cl.nodes ⊆ all.nodes) (hc : c ≠ []) (hbar : '|' ∉ c) (hslash : '/' ∉ c)
    {s₀ : AvailState} (hstart : AvailStart all cl c v s₀) (h : (availability cl c).Reach s₀ tr s) :
    s.get.Succeeds v (tr.countP AvailStep.isRead) ∧ ((∃ r, s.get = .done r) ∨
      (s.step cl c .ask).isSome = true ∨ (s.step cl c .read).isSome = true) := by
  obtain ⟨-, hk⟩ := availInv_of_run hsub hc hbar hslash hstart h
  refine ⟨hk, ?_⟩
  cases hg : s.get with
  | asking client => exact .inr (.inl (by simp [AvailState.step, hg]))
  | reading client info todo left => exact .inr (.inr (by simp [AvailState.step, hg]))
  | done r => exact .inl ⟨r, rfl⟩

/-- **So does a whole get with nothing in between**, wherever the run has got. -/
theorem get_at_once (hsub : cl.nodes ⊆ all.nodes) (hc : c ≠ []) (hbar : '|' ∉ c) (hslash : '/' ∉ c)
    {s₀ : AvailState} (hstart : AvailStart all cl c v s₀) (h : (availability cl c).Reach s₀ tr s)
    {client : NimbusClient} (hcur : Current all cl client) {r : GetResult}
    (hr : r = (client.get (getChunkInfo true cl.nodes s.race.chunkTable c) (s.readAt c) 0).1) :
    r.ok = true ∧ v ≤ r.version := by
  obtain ⟨hinv, -⟩ := availInv_of_run hsub hc hbar hslash hstart h
  have hask := hinv.ask hsub hcur
  have hresult : r = (GetPhase.ask client (getChunkInfo true cl.nodes s.race.chunkTable c)).result
      (getChunkInfo true cl.nodes s.race.chunkTable c) (s.readAt c) :=
    hr.trans GetPhase.result_ask.symm
  obtain ⟨e, he, -⟩ := hinv.chunkInfo hsub
  rw [hresult]
  rw [he] at hask ⊢
  exact GetPhase.Sound.result hask hinv.answers

end Runs

/-! Chunk `c` moves from node `n` to node `m`.  The client asks behind the START and reads at `m`
before the copy; it comes to `n` when the COMMIT has taken that node out of the replica set. -/

def movingStart : AvailState where
  race := {
    chunkTable := Kv.empty.put ['c'] ⟨['c'], 1, [['n', '=', 'a']], 1, .stable, [], 1⟩
    stores := Function.update (fun _ => ChunkStore.empty) ['a']
      (ChunkStore.empty.write ['c'] 1 ['x']) }
  up := {['a'], ['b']}
  get := .asking { nodeAddrs := Kv.empty }

def movingTrace : List AvailStep :=
  (moveToM.take 2).map .race ++ [.ask, .read] ++ (moveToM.drop 2).map .race ++
    [.race (.commit 0 true), .read]

def movingState : AvailState :=
  (availability pairCluster ['c']).final (fun _ _ => True) movingStart movingTrace

theorem availStart_moving : AvailStart pairCluster pairCluster ['c'] 1 movingStart where
  keys addr := by
    by_cases h : addr = ['a']
    · subst h
      exact ChunkStore.plainKeys_empty.write (by decide) (by decide)
    · have he : movingStart.race.stores addr = ChunkStore.empty :=
        Function.update_of_ne h _ fun _ => ChunkStore.empty
      rw [he]
      exact ChunkStore.plainKeys_empty
  stable := by
    refine ⟨_, Kv.get_put_self, rfl, rfl, fun x hx => ?_, ⟨['n'], ['a'], true⟩, by decide,
      by decide, by decide, 1, UInt64.le_refl _, rfl⟩
    exact ⟨⟨['n'], ['a'], true⟩, by decide, List.mem_singleton.mp hx⟩
  idle _ := rfl
  fresh := ⟨_, rfl, rfl, fun n _ _ addr h => by simp at h⟩

theorem get_succeeds_moving : movingState.get.Succeeds 1 (movingTrace.countP AvailStep.isRead) ∧
    ((∃ r, movingState.get = .done r) ∨
      (movingState.step pairCluster ['c'] .ask).isSome = true ∨
      (movingState.step pairCluster ['c'] .read).isSome = true) :=
  get_succeeds (List.Subset.refl _) (by decide) (by decide) (by decide) availStart_moving
    (Machine.run_final (by decide +kernel))

end NimbusVault
