import NimbusVault.Recovery
import NimbusVault.SelfHealing

/-!
# RestartRepair — the cleanup of a restart, and what the repairs make good

A leader starts by replaying its log; then the cleanup has the replicas of every uncommitted PUT
delete the chunk, all versions of it, and the calls may fail (`restartLeader`).  The repair loops
copy what is left.  `FromListed` says where a version comes from: a node fetches only from nodes that
the table lists with it.  So the loops heal a node after the restart exactly when every chunk that
lists it was held, new enough, by some listed node that no call has struck (`restart_then_repair`).
-/

namespace NimbusVault

open Lib

/-! ### The calls of the cleanup -/

/-- A call of `delete_chunk_from_replica`; `executed` tells which calls reach their node. -/
def deleteCall (executed : ℕ → Bool) (ss : Stores) (p : (Str × Str) × ℕ) : Stores :=
  deleteChunkFromReplica ss p.1.1 p.1.2 (executed p.2)

/-- The calls one after the other. -/
def runDeletes (executed : ℕ → Bool) (calls : List (Str × Str)) (ss : Stores) : Stores :=
  calls.zipIdx.foldl (deleteCall executed) ss

/-- The chunk table and the stores when a leader has started on its log; `none` where the replay
throws. -/
def restartLeader (w : Wal) (alive : List NodeEntry) (executed : ℕ → Bool) (ss : Stores) :
    Option RaceState :=
  (w.replay Kv.empty).map fun t =>
    { chunkTable := t, stores := runDeletes executed (cleanupUncommittedPuts w alive) ss }

/-- One of the calls has the node at the address delete the chunk. -/
def Strikes (executed : ℕ → Bool) (ps : List ((Str × Str) × ℕ)) (addr c : Str) : Prop :=
  addr ≠ [] ∧ ∃ p ∈ ps, p.1 = (addr, c) ∧ executed p.2 = true

instance (executed : ℕ → Bool) (ps : List ((Str × Str) × ℕ)) (addr c : Str) :
    Decidable (Strikes executed ps addr c) :=
  inferInstanceAs (Decidable (_ ∧ _))

/-- The cleanup has struck the node's copies of the chunk. -/
def Struck (w : Wal) (alive : List NodeEntry) (executed : ℕ → Bool) (addr c : Str) : Prop :=
  Strikes executed (cleanupUncommittedPuts w alive).zipIdx addr c

instance (w : Wal) (alive : List NodeEntry) (executed : ℕ → Bool) (addr c : Str) :
    Decidable (Struck w alive executed addr c) :=
  inferInstanceAs (Decidable (Strikes _ _ _ _))

section Cleanup

variable {executed : ℕ → Bool} {ss : Stores} {addr c d : Str} {v : UInt64}

theorem strikes_cons {p : (Str × Str) × ℕ} {ps : List ((Str × Str) × ℕ)} :
    Strikes executed (p :: ps) addr c ↔
      (addr ≠ [] ∧ p.1 = (addr, c) ∧ executed p.2 = true) ∨ Strikes executed ps addr c := by
  simp only [Strikes, List.mem_cons, exists_eq_or_imp]
  tauto

/-- One call takes the chunk of its node, if it reaches it. -/
theorem stored_deleteCall (h : PlainStore (ss addr)) (p : (Str × Str) × ℕ) :
    PlainStore (deleteCall executed ss p addr) ∧
      ∀ c v, (deleteCall executed ss p addr).stored c v =
        if addr ≠ [] ∧ p.1 = (addr, c) ∧ executed p.2 = true then none else (ss addr).stored c v := by
  obtain ⟨⟨a, id⟩, i⟩ := p
  rw [deleteCall, deleteChunkFromReplica_apply]
  by_cases hit : executed i = true ∧ a = addr ∧ addr ≠ []
  · obtain ⟨hex, rfl, ha⟩ := hit
    rw [if_pos ⟨hex, rfl, ha⟩]
    refine ⟨h.remove, fun c v => ?_⟩
    by_cases hc : c = id
    · subst hc
      rw [ChunkStore.stored_remove_self, if_pos ⟨ha, rfl, hex⟩]
    · rw [h.stored_remove_of_ne hc, if_neg]
      rintro ⟨-, hp, -⟩
      exact hc (Prod.mk.inj hp).2.symm
  · rw [if_neg hit]
    refine ⟨h, fun c v => (if_neg ?_).symm⟩
    rintro ⟨ha, hp, hex⟩
    exact hit ⟨hex, (Prod.mk.inj hp).1, ha⟩

theorem stored_deleteCalls : ∀ (ps : List ((Str × Str) × ℕ)) {ss : Stores}, PlainStore (ss addr) →
    PlainStore (ps.foldl (deleteCall executed) ss addr) ∧
      ∀ c v, (ps.foldl (deleteCall executed) ss addr).stored c v =
        if Strikes executed ps addr c then none else (ss addr).stored c v
  | [], ss, h => ⟨h, fun c v => (if_neg (by rintro ⟨-, p, hp, -⟩; cases hp)).symm⟩
  | p :: ps, ss, h => by
    obtain ⟨hplain, hone⟩ := @stored_deleteCall executed _ _ h p
    obtain ⟨hplain', hrest⟩ := stored_deleteCalls ps hplain
    refine ⟨hplain', fun c v => ?_⟩
    rw [List.foldl_cons, hrest, hone]
    by_cases hp : addr ≠ [] ∧ p.1 = (addr, c) ∧ executed p.2 = true
    · rw [if_pos hp, if_pos (strikes_cons.mpr (.inl hp)), ite_self]
    · simp only [strikes_cons, hp, false_or, if_false]

end Cleanup

/-! ### Where a version comes from -/

/-- A node that the table lists with the chunk had this at the start. -/
def FromListed (ns : List NodeConfig) (r : RaceState) (c : Str) (v : UInt64) (d : Str) : Prop :=
  ∃ m ∈ ns, Lists r.chunkTable m.nodeId c ∧ (r.stores m.address).stored c v = some d

/-- What nodes store of what lists them, or are about to, comes from listed nodes. -/
structure SourceInv (ns : List NodeConfig) (r : RaceState) (s : RepairState) : Prop where
  heal : HealInv ns r s
  stored : ∀ n ∈ ns, ∀ c, Lists r.chunkTable n.nodeId c → ∀ v d,
    (s.race.stores n.address).stored c v = some d → FromListed ns r c v d
  storing : ∀ n ∈ ns, ∀ a hne todo c v d,
    (s.procs n).pass = some ⟨a, hne, .storing todo c v d⟩ → FromListed ns r c v d

section Source

variable {chunkOf : ℕ → Str} {ns : List NodeConfig} {r : RaceState} {s s' : RepairState}
  {l : RepairStep} {n m : NodeConfig} {st : ChunkStore} {c : Str}

/-- The address of a peer is the one that its entry names. -/
theorem Quiet.repairPeer_address (hq : Quiet ns r) (hm : m ∈ ns) {addr : Str}
    (h : NimbusVault.repairPeer n m.entry = some addr) : addr = m.address := by
  obtain ⟨p, hp, rfl⟩ := Option.map_eq_some_iff.mp h
  have hparse := (Option.filter_eq_some_iff.mp hp).1
  rw [parseReplicaEndpoint, hq.splitEntry hm] at hparse
  simp only [(hq.names m hm).2.1, if_false] at hparse
  obtain rfl := Option.some.inj hparse
  rfl

/-- What a pass fetches comes from a node that is listed. -/
theorem SourceInv.fetched (hS : SourceInv ns r s) (hq : Quiet ns r) {e : ChunkEntry} {x d : Str}
    {target v : UInt64} {fate : RpcFate} (he : r.chunkTable.get c = some e) (hx : x ∈ e.replicaSet)
    (hf : ((repairPeer n x).bind fun addr => fetchFromPeer s.race.stores addr c target fate) =
      some (d, v)) : FromListed ns r c v d := by
  obtain ⟨m, hm, rfl⟩ := hq.entries c e he x hx
  obtain ⟨addr, haddr, hf⟩ := Option.bind_eq_some_iff.mp hf
  obtain rfl := hq.repairPeer_address hm haddr
  have hstored := (fetchFromPeer_some (hS.heal.plain m.address) hf).1
  exact hS.stored m hm c ((hq.lists_iff hm).mpr ⟨e, he, hx⟩) v d hstored

/-- **A step of a pass** stores what comes from listed nodes. -/
theorem PassStep.source (hS : SourceInv ns r s) (hq : Quiet ns r) (hn : n ∈ ns)
    {p' : Option RepairPass}
    (h : PassStep s.race.chunkTable s.race.stores n l (s.procs n).pass p' st) :
    (∀ c, Lists r.chunkTable n.nodeId c → ∀ v d, st.stored c v = some d → FromListed ns r c v d) ∧
      ∀ a hne todo c v d, p' = some ⟨a, hne, .storing todo c v d⟩ → FromListed ns r c v d := by
  have hkept := hS.stored n hn
  generalize hp : (s.procs n).pass = p at h
  cases h with
  | fetched hf =>
    obtain ⟨-, -, e, he, -, hsub⟩ := hS.heal.sound n hn _ hp
    refine ⟨hkept, ?_⟩
    rintro a hne todo c v d ⟨⟩
    exact hS.fetched hq he (hsub List.mem_cons_self) hf
  | @store a hne c x todo w =>
    refine ⟨fun b hb v d hd => ?_, by simp⟩
    rw [ChunkStore.stored_write] at hd
    split_ifs at hd with hbv
    · obtain ⟨rfl, rfl⟩ := hbv
      obtain rfl := Option.some.inj hd
      exact hS.storing n hn _ _ _ _ _ _ hp
    · exact hkept b hb v d hd
  | remove hd =>
    refine ⟨fun b hb v x hx => ?_, by simp⟩
    rw [ChunkStore.stored_remove] at hx
    split_ifs at hx
    exact hkept b hb v x hx
  | _ => exact ⟨hkept, by simp⟩

theorem SourceInv.step (hS : SourceInv ns r s) (hq : Quiet ns r) (hn : n ∈ ns)
    (h : s.NodeStep s' n l) : SourceInv ns r s' := by
  refine ⟨hS.heal.step hq hn h, fun m hm => ?_, fun m hm => ?_⟩
  · by_cases hmn : m = n
    · subst hmn
      rcases h.pass with ⟨-, hstores, -⟩ | ⟨st, hstep, hstores⟩
      · rw [hstores]
        exact hS.stored m hm
      · rw [hstores, Function.update_self]
        exact (hstep.source hS hq hm).1
    · have hstore : s'.race.stores m.address = s.race.stores m.address := by
        rcases h.pass with ⟨-, hstores, -⟩ | ⟨st, -, hstores⟩ <;> rw [hstores]
        exact Function.update_of_ne (fun ha => hmn (hq.distinct m hm n hn (.inr ha))) _ _
      rw [hstore]
      exact hS.stored m hm
  · by_cases hmn : m = n
    · subst hmn
      rcases h.pass with ⟨hpass, -, -⟩ | ⟨st, hstep, -⟩
      · rw [hpass]
        exact hS.storing m hm
      · exact (hstep.source hS hq hm).2
    · rw [h.others m hmn]
      exact hS.storing m hm

/-- The invariant of the runs of the loops. -/
theorem sourceInv_of_run (hq : Quiet ns r) {ok : RepairState → RepairStep → Prop}
    (hok : ∀ s l, ok s l → OfNodes ns l) {tr : List RepairStep}
    (h : (repairs chunkOf).Run ok (.start r) tr s) : SourceInv ns r s := by
  have h0 : SourceInv ns r (.start r) :=
    ⟨.start hq, fun n hn c hc v d hd => ⟨n, hn, hc, hd⟩, by simp [RepairState.start]⟩
  refine h.invariant_step h0 fun s l s' hS hs hl => ?_
  obtain ⟨n, hn, hln⟩ := hok s l hl
  exact hS.step hq hn (RepairState.nodeStep hln hs)

/-- **A listed node gets no newer version** than the listed nodes have had. -/
theorem SourceInv.held (hS : SourceInv ns r s) (hq : Quiet ns r) (hn : n ∈ ns)
    (hc : Lists r.chunkTable n.nodeId c) (hr : Reached r.chunkTable (s.race.stores n.address) c) :
    Held ns r c := by
  obtain ⟨e, he, hle⟩ := hr
  rcases latestVersion_stored (hS.heal.plain n.address).plainKeys c with h0 | hst
  · -- the version 0 is everywhere
    exact ⟨n, hn, hc, e, he, UInt64.le_trans (h0 ▸ hle) UInt64.zero_le⟩
  · obtain ⟨d, hd⟩ := Option.isSome_iff_exists.mp hst
    obtain ⟨m, hm, hmc, hmd⟩ := hS.stored n hn c hc _ d hd
    exact ⟨m, hm, hmc, e, he, UInt64.le_trans hle
      (le_latestVersion (hq.plain _).plainKeys (Option.isSome_iff_exists.mpr ⟨d, hmd⟩))⟩

end Source

/-! ### After a restart -/

/-- The node has the chunk in the table's version or a newer one, and the cleanup leaves it. -/
def Spared (w : Wal) (alive : List NodeEntry) (executed : ℕ → Bool) (ss : Stores) (t : ChunkTable)
    (addr c : Str) : Prop :=
  ∃ e, t.get c = some e ∧
    (e.version = 0 ∨ e.version ≤ (ss addr).latestVersion c ∧ ¬ Struck w alive executed addr c)

section Restart

variable {w : Wal} {alive : List NodeEntry} {executed : ℕ → Bool} {ss : Stores} {r : RaceState}
  {addr c : Str}

/-- **The stores after the cleanup.** -/
theorem stored_restartLeader (hr : restartLeader w alive executed ss = some r)
    (h : PlainStore (ss addr)) : PlainStore (r.stores addr) ∧ ∀ c v, (r.stores addr).stored c v =
      if Struck w alive executed addr c then none else (ss addr).stored c v := by
  obtain ⟨t, -, rfl⟩ := Option.map_eq_some_iff.mp hr
  exact stored_deleteCalls _ h

theorem reached_restartLeader (hr : restartLeader w alive executed ss = some r)
    (h : PlainStore (ss addr)) : Reached r.chunkTable (r.stores addr) c ↔
      Spared w alive executed ss r.chunkTable addr c := by
  obtain ⟨hplain, hstored⟩ := stored_restartLeader hr h
  refine exists_congr fun e => and_congr_right fun _ => ?_
  by_cases hs : Struck w alive executed addr c
  · have hzero : (r.stores addr).latestVersion c = 0 := by
      refine (latestVersion_stored hplain.plainKeys c).resolve_right ?_
      rw [hstored, if_pos hs]
      simp
    rw [hzero]
    simp [hs]
  · have hsame : (r.stores addr).latestVersion c = (ss addr).latestVersion c :=
      latestVersion_congr hplain.plainKeys h.plainKeys <| funext fun v => by
        show (r.stores addr).stored c v = _
        rw [hstored, if_neg hs]
        rfl
    rw [hsame]
    constructor
    · exact fun hle => .inr ⟨hle, hs⟩
    · rintro (h0 | ⟨hle, -⟩)
      · exact h0 ▸ UInt64.zero_le
      · exact hle

theorem Quiet.restartLeader {ns : List NodeConfig} (hq : Quiet ns { r with stores := ss })
    (hr : NimbusVault.restartLeader w alive executed ss = some r) : Quiet ns r :=
  ⟨hq.keyed, hq.ids, hq.entries, hq.names, hq.distinct,
    fun addr => (stored_restartLeader hr (hq.plain addr)).1⟩

/-- **What the repairs make good of a restart's cleanup.**  The nodes' loops start with the leader, and
whatever the others do, the calls of this node are answered.  Once it has ended a pass it stores a
chunk that lists it, in the table's version or a newer one, exactly when before the cleanup some listed
node had it so and no executed call struck it there; and it stores no other chunk. -/
theorem restart_then_repair {chunkOf : ℕ → Str} {ns : List NodeConfig} {s : RepairState}
    {n : NodeConfig} (hr : restartLeader w alive executed ss = some r)
    (hq : Quiet ns { r with stores := ss }) (hn : n ∈ ns) {tr : List RepairStep}
    (h : (repairs chunkOf).Run (fun _ l => OfNodes ns l ∧ Answered n l) (.start r) tr s)
    (hfin : .finish n ∈ tr) :
    (∀ c, Lists r.chunkTable n.nodeId c → (Reached r.chunkTable (s.race.stores n.address) c ↔
      ∃ m ∈ ns, Lists r.chunkTable m.nodeId c ∧
        Spared w alive executed ss r.chunkTable m.address c)) ∧
    ∀ c v, ((s.race.stores n.address).stored c v).isSome = true → Lists r.chunkTable n.nodeId c := by
  have hq' : Quiet ns r := hq.restartLeader hr
  have hmended := (healProgress_of_run hq' hn h).finished hfin
  have hsource : SourceInv ns r s := sourceInv_of_run hq' (fun _ _ hl => hl.1) h
  have hheld : ∀ c, Held ns r c ↔ ∃ m ∈ ns, Lists r.chunkTable m.nodeId c ∧
      Spared w alive executed ss r.chunkTable m.address c := fun c =>
    exists_congr fun m => and_congr_right fun _ => and_congr_right fun _ =>
      reached_restartLeader hr (hq.plain m.address)
  refine ⟨fun c hc => ?_, hmended.listed⟩
  rw [← hheld]
  exact ⟨hsource.held hq' hn hc, hmended.regained c hc⟩

/-- Two puts of the chunk `c` on both nodes; only the first one is committed. -/
def unfinishedWal : Wal where
  records := [⟨.putChunk, 1, "c|1|2|1|n=a,m=b,".toList⟩, ⟨.putChunk, 1, "c|1|2|2|n=a,m=b,".toList⟩]
  committed := 1

/-- Both nodes have the committed version, and `m` has the other one too. -/
def unfinishedStores : Stores := fun addr =>
  if addr = ['a'] then ChunkStore.empty.write ['c'] 1 ['x']
  else if addr = ['b'] then (ChunkStore.empty.write ['c'] 1 ['x']).write ['c'] 2 ['y']
  else .empty

/-- The call to `n` is executed, the one to `m` is not. -/
def strikesFirst (i : ℕ) : Bool := i == 0

def unfinishedTable : ChunkTable :=
  Kv.empty.put ['c'] ⟨['c'], 1, ["n=a".toList, "m=b".toList], 2, .stable, [], 1⟩

def restarted : RaceState where
  chunkTable := unfinishedTable
  stores := runDeletes strikesFirst (cleanupUncommittedPuts unfinishedWal []) unfinishedStores

theorem restarted_eq :
    restartLeader unfinishedWal [] strikesFirst unfinishedStores = some restarted := by
  have hreplay : unfinishedWal.replay Kv.empty = some unfinishedTable := by decide +kernel
  rw [restartLeader, hreplay]
  rfl

theorem restarted_quiet : Quiet [nodeA, nodeB] { restarted with stores := unfinishedStores } := by
  have hget : ∀ {c e}, unfinishedTable.get c = some e →
      c = ['c'] ∧ e = ⟨['c'], 1, ["n=a".toList, "m=b".toList], 2, .stable, [], 1⟩ := by
    intro c e h
    rw [unfinishedTable, Kv.get_put] at h
    split_ifs at h with hc
    · exact ⟨hc, (Option.some.inj h).symm⟩
    · simp at h
  refine ⟨fun c e he => ?_, fun c e he => ?_, fun c e he => ?_, by decide, by decide, fun addr => ?_⟩
  · obtain ⟨rfl, rfl⟩ := hget he
    rfl
  · obtain ⟨rfl, -⟩ := hget he
    decide
  · obtain ⟨-, rfl⟩ := hget he
    decide
  · simp only [unfinishedStores]
    split_ifs
    · exact plainStore_empty.write (by decide) (by decide)
    · exact (plainStore_empty.write (by decide) (by decide)).write (by decide) (by decide)
    · exact plainStore_empty

/-- The first pass of `n` after the restart. -/
def regainTrace : List RepairStep :=
  [.beat nodeA true, .hear nodeA true, .begin nodeA [['c']], .info nodeA [] true, .compare nodeA,
    .fetch nodeA .answered, .fetch nodeA .answered, .store nodeA, .scan nodeA [['c']],
    .remove nodeA, .finish nodeA]

def regainState : RepairState :=
  (repairs fun _ => ['c']).final (fun _ l => OfNodes [nodeA, nodeB] l ∧ Answered nodeA l)
    (.start restarted) regainTrace

/-- `n` gets the chunk back from `m`, in the version of the put that was not committed. -/
theorem restart_then_repair_unfinished :
    (∀ c, Lists restarted.chunkTable nodeA.nodeId c →
      (Reached restarted.chunkTable (regainState.race.stores nodeA.address) c ↔
        ∃ m ∈ [nodeA, nodeB], Lists restarted.chunkTable m.nodeId c ∧
          Spared unfinishedWal [] strikesFirst unfinishedStores restarted.chunkTable m.address c)) ∧
    ∀ c v, ((regainState.race.stores nodeA.address).stored c v).isSome = true →
      Lists restarted.chunkTable nodeA.nodeId c :=
  restart_then_repair restarted_eq restarted_quiet (by decide)
    (Machine.run_final (by decide +kernel)) (by simp [regainTrace])

end Restart

end NimbusVault
