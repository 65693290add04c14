import NimbusVault.RepairRun

/-!
# SelfHealing — what the repair loops achieve together

While the leader's table stays as it is, the storage nodes repair each other: heartbeats and repair
passes of any number of nodes interleave step by step, and any call may fail.  `PassStep` lists what
one step does to the pass and the store of its node.  No node loses a version of a chunk that lists
it, and no node stores anything that no node has stored before (`repairs_lose_nothing`).  A node all
of whose calls are answered is healed by its first pass, whatever the others do: it stores every chunk
that lists it in the table's version or a newer one, and no other chunk (`repairs_heal`).
-/

namespace NimbusVault

open Lib

/-! ### One step of a node -/

/-- The entry under which a node is listed. -/
def NodeConfig.entry (n : NodeConfig) : Str := n.nodeId ++ '=' :: n.address

/-- The node whose loop takes the step. -/
def RepairStep.node : RepairStep → Option NodeConfig
  | .race _ _ => none
  | .beat n _ => some n
  | .hear n _ => some n
  | .begin n _ => some n
  | .info n _ _ => some n
  | .compare n => some n
  | .fetch n _ => some n
  | .store n => some n
  | .scan n _ => some n
  | .remove n => some n
  | .finish n => some n

/-- A step of the node's pass: the pass before and after it, and the node's store after it. -/
inductive PassStep (t : ChunkTable) (ss : Stores) (n : NodeConfig) :
    RepairStep → Option RepairPass → Option RepairPass → ChunkStore → Prop
  | begin {a : Assignment} {h : a.ids ≠ []} {order : List Str} : order.Perm a.ids.dedup →
      PassStep t ss n (.begin n order) none (some ⟨a, h, .syncing order⟩) (ss n.address)
  | noInfo {a : Assignment} {h : a.ids ≠ []} {c : Str} {todo : List Str} {alive : List NodeEntry}
      {answered : Bool} : answered = false ∨ t.get c = none →
      PassStep t ss n (.info n alive answered) (some ⟨a, h, .syncing (c :: todo)⟩)
        (some ⟨a, h, .syncing todo⟩) (ss n.address)
  | info {a : Assignment} {h : a.ids ≠ []} {c : Str} {todo : List Str} {alive : List NodeEntry}
      {e : ChunkEntry} : t.get c = some e →
      PassStep t ss n (.info n alive true) (some ⟨a, h, .syncing (c :: todo)⟩)
        (some ⟨a, h, .comparing todo c e.version (e.replicaSet.map (encodeReplicaTarget alive))⟩)
        (ss n.address)
  | upToDate {a : Assignment} {h : a.ids ≠ []} {c : Str} {todo rs : List Str} {target : UInt64} :
      target ≤ (ss n.address).latestVersion c →
      PassStep t ss n (.compare n) (some ⟨a, h, .comparing todo c target rs⟩)
        (some ⟨a, h, .syncing todo⟩) (ss n.address)
  | behind {a : Assignment} {h : a.ids ≠ []} {c : Str} {todo rs : List Str} {target : UInt64} :
      ¬ target ≤ (ss n.address).latestVersion c →
      PassStep t ss n (.compare n) (some ⟨a, h, .comparing todo c target rs⟩)
        (some ⟨a, h, .fetching todo c target rs⟩) (ss n.address)
  | exhausted {a : Assignment} {h : a.ids ≠ []} {c : Str} {todo : List Str} {target : UInt64}
      {fate : RpcFate} :
      PassStep t ss n (.fetch n fate) (some ⟨a, h, .fetching todo c target []⟩)
        (some ⟨a, h, .syncing todo⟩) (ss n.address)
  | skip {a : Assignment} {h : a.ids ≠ []} {c r : Str} {todo rs : List Str} {target : UInt64}
      {fate : RpcFate} :
      ((repairPeer n r).bind fun addr => fetchFromPeer ss addr c target fate) = none →
      PassStep t ss n (.fetch n fate) (some ⟨a, h, .fetching todo c target (r :: rs)⟩)
        (some ⟨a, h, .fetching todo c target rs⟩) (ss n.address)
  | fetched {a : Assignment} {h : a.ids ≠ []} {c r data : Str} {todo rs : List Str}
      {target version : UInt64} {fate : RpcFate} :
      ((repairPeer n r).bind fun addr => fetchFromPeer ss addr c target fate) = some (data, version) →
      PassStep t ss n (.fetch n fate) (some ⟨a, h, .fetching todo c target (r :: rs)⟩)
        (some ⟨a, h, .storing todo c version data⟩) (ss n.address)
  | store {a : Assignment} {h : a.ids ≠ []} {c data : Str} {todo : List Str} {version : UInt64} :
      PassStep t ss n (.store n) (some ⟨a, h, .storing todo c version data⟩)
        (some ⟨a, h, .syncing todo⟩) ((ss n.address).write c version data)
  | scan {a : Assignment} {h : a.ids ≠ []} {order : List Str} :
      order.Perm (ss n.address).listChunkIds →
      PassStep t ss n (.scan n order) (some ⟨a, h, .syncing []⟩) (some ⟨a, h, .removing order⟩)
        (ss n.address)
  | keep {a : Assignment} {h : a.ids ≠ []} {d : Str} {todo : List Str} : d ∈ a.ids →
      PassStep t ss n (.remove n) (some ⟨a, h, .removing (d :: todo)⟩)
        (some ⟨a, h, .removing todo⟩) (ss n.address)
  | remove {a : Assignment} {h : a.ids ≠ []} {d : Str} {todo : List Str} : d ∉ a.ids →
      PassStep t ss n (.remove n) (some ⟨a, h, .removing (d :: todo)⟩)
        (some ⟨a, h, .removing todo⟩) ((ss n.address).remove d)
  | finish {a : Assignment} {h : a.ids ≠ []} :
      PassStep t ss n (.finish n) (some ⟨a, h, .removing []⟩) none (ss n.address)

section Steps

variable {chunkOf : ℕ → Str} {s s' : RepairState} {l : RepairStep} {n : NodeConfig}

/-- What a step of a node's loops leaves alone, with the pass that it goes on with. -/
structure RepairState.NodeStep (s s' : RepairState) (n : NodeConfig) (l : RepairStep) : Prop where
  loop : s.LoopStep s'
  pass : ((s'.procs n).pass = (s.procs n).pass ∧ s'.race.stores = s.race.stores ∧ l ≠ .finish n) ∨
    ∃ st, PassStep s.race.chunkTable s.race.stores n l (s.procs n).pass (s'.procs n).pass st ∧
      s'.race.stores = Function.update s.race.stores n.address st
  others : ∀ m, m ≠ n → s'.procs m = s.procs m

theorem RepairState.setPass_pass {pass : Option RepairPass} :
    ((s.setPass n pass).procs n).pass = pass := by
  simp [setPass, setProc]

theorem RepairState.setProc_others {p : NodeProc} {m : NodeConfig} (hm : m ≠ n) :
    (s.setProc n p).procs m = s.procs m :=
  Function.update_of_ne hm _ _

/-- A pass that goes on, without a change of the store. -/
theorem PassStep.setPass {p pass : Option RepairPass} (hp : (s.procs n).pass = p)
    (h : PassStep s.race.chunkTable s.race.stores n l p pass (s.race.stores n.address)) :
    ∃ st, PassStep s.race.chunkTable s.race.stores n l (s.procs n).pass
        ((s.setPass n pass).procs n).pass st ∧
      (s.setPass n pass).race.stores = Function.update s.race.stores n.address st := by
  refine ⟨_, ?_, (Function.update_eq_self _ _).symm⟩
  rw [hp, RepairState.setPass_pass]
  exact h

/-- **What a step of the loops does.** -/
theorem RepairState.nodeStep (hn : l.node = some n) (h : s.step chunkOf l = some s') :
    s.NodeStep s' n l := by
  have hl : ∀ cl a, l ≠ .race cl a := by
    rintro cl a rfl
    simp [RepairStep.node] at hn
  refine ⟨loopStep_of_step hl h, ?_, ?_⟩
  · cases l with
    | race cl a => exact absurd rfl (hl cl a)
    | beat m quorum =>
      obtain rfl := Option.some.inj hn
      simp only [step] at h
      split at h
      · simp at h
      · obtain rfl := Option.some.inj h
        exact .inl ⟨by simp [setProc], rfl, by simp⟩
    | hear m ok =>
      obtain rfl := Option.some.inj hn
      simp only [step] at h
      split at h
      · simp at h
      · obtain rfl := Option.some.inj h
        exact .inl ⟨by simp [setProc], rfl, by simp⟩
    | begin m order =>
      obtain rfl := Option.some.inj hn
      simp only [step] at h
      split at h
      · rename_i a hp ha
        split_ifs at h with hne hperm
        obtain rfl := Option.some.inj h
        exact .inr (PassStep.setPass hp (.begin hperm))
      · simp at h
    | info m alive answered =>
      obtain rfl := Option.some.inj hn
      simp only [step] at h
      split at h
      · rename_i a hne c todo hp
        split at h <;> obtain rfl := Option.some.inj h <;> rename_i hinfo
        · refine .inr (PassStep.setPass hp (.noInfo ?_))
          cases answered with
          | false => exact .inl rfl
          | true =>
            simp only [getChunkInfo, Bool.true_eq_false, if_false] at hinfo
            split at hinfo
            · exact .inr ‹_›
            · simp at hinfo
        · cases answered with
          | false => simp [getChunkInfo] at hinfo
          | true =>
            simp only [getChunkInfo, Bool.true_eq_false, if_false] at hinfo
            split at hinfo
            · simp at hinfo
            · obtain rfl := Except.ok.inj hinfo
              exact .inr (PassStep.setPass hp (.info ‹_›))
      · simp at h
    | compare m =>
      obtain rfl := Option.some.inj hn
      simp only [step] at h
      split at h
      · rename_i a hne todo c target rs hp
        obtain rfl := Option.some.inj h
        by_cases hle : target ≤ (s.race.stores m.address).latestVersion c
        · rw [if_pos hle]
          exact .inr (PassStep.setPass hp (.upToDate hle))
        · rw [if_neg hle]
          exact .inr (PassStep.setPass hp (.behind hle))
      · simp at h
    | fetch m fate =>
      obtain rfl := Option.some.inj hn
      simp only [step] at h
      split at h
      · rename_i hp
        obtain rfl := Option.some.inj h
        exact .inr (PassStep.setPass hp .exhausted)
      · rename_i hp
        split at h <;> obtain rfl := Option.some.inj h <;> rename_i hf
        · exact .inr (PassStep.setPass hp (.skip hf))
        · exact .inr (PassStep.setPass hp (.fetched hf))
      · simp at h
    | store m =>
      obtain rfl := Option.some.inj hn
      simp only [step] at h
      split at h
      · rename_i a hne todo c version data hp
        obtain rfl := Option.some.inj h
        refine .inr ⟨_, ?_, rfl⟩
        rw [hp]
        show PassStep _ _ m _ _ ((s.setPass m _).procs m).pass _
        rw [setPass_pass]
        exact .store
      · simp at h
    | scan m order =>
      obtain rfl := Option.some.inj hn
      simp only [step] at h
      split at h
      · rename_i hp
        split_ifs at h with hperm
        obtain rfl := Option.some.inj h
        exact .inr (PassStep.setPass hp (.scan hperm))
      · simp at h
    | remove m =>
      obtain rfl := Option.some.inj hn
      simp only [step] at h
      split at h
      · rename_i a hne d todo hp
        split_ifs at h with hd
        · obtain rfl := Option.some.inj h
          exact .inr (PassStep.setPass hp (.keep hd))
        · obtain rfl := Option.some.inj h
          refine .inr ⟨_, ?_, rfl⟩
          rw [hp]
          show PassStep _ _ m _ _ ((s.setPass m _).procs m).pass _
          rw [setPass_pass]
          exact .remove hd
      · simp at h
    | finish m =>
      obtain rfl := Option.some.inj hn
      simp only [step] at h
      split at h
      · rename_i hp
        obtain rfl := Option.some.inj h
        exact .inr (PassStep.setPass hp .finish)
      · simp at h
  · intro m hm
    cases l with
    | race cl a => exact absurd rfl (hl cl a)
    | _ =>
      -- whatever the branch, only the process of the node is set
      obtain rfl := Option.some.inj hn
      simp only [step] at h
      repeat' split at h
      all_goals first
        | obtain rfl := Option.some.inj h; exact setProc_others hm
        | simp at h

end Steps

/-! ### A quiet cluster -/

/-- A table that lists nodes of the cluster under their addresses, and stores with plain keys. -/
structure Quiet (ns : List NodeConfig) (r : RaceState) : Prop where
  keyed : r.chunkTable.Keyed
  ids : ∀ c e, r.chunkTable.get c = some e → c ≠ [] ∧ '/' ∉ c
  entries : ∀ c e, r.chunkTable.get c = some e → ∀ x ∈ e.replicaSet, ∃ n ∈ ns, x = n.entry
  names : ∀ n ∈ ns, '=' ∉ n.nodeId ∧ n.nodeId ≠ [] ∧ n.address ≠ []
  distinct : ∀ n ∈ ns, ∀ m ∈ ns, n.nodeId = m.nodeId ∨ n.address = m.address → n = m
  plain : ∀ addr, PlainStore (r.stores addr)

/-- Some node stored this at the start. -/
def Origin (r : RaceState) (c : Str) (v : UInt64) (d : Str) : Prop :=
  ∃ addr, (r.stores addr).stored c v = some d

/-- The store has the chunk in the table's version, or a newer one. -/
def Reached (t : ChunkTable) (st : ChunkStore) (c : Str) : Prop :=
  ∃ e, t.get c = some e ∧ e.version ≤ st.latestVersion c

/-- What is known of a pass that works on the list `ids`, next to the store `st` of its node. -/
def RepairPhase.Sound (r : RaceState) (st : ChunkStore) (ids : List Str) : RepairPhase → Prop
  | .syncing todo => todo ⊆ ids
  | .comparing todo c target rs => c :: todo ⊆ ids ∧
      ∃ e, r.chunkTable.get c = some e ∧ target = e.version ∧ rs = e.replicaSet
  | .fetching todo c target rs => c :: todo ⊆ ids ∧ ¬ target ≤ st.latestVersion c ∧
      ∃ e, r.chunkTable.get c = some e ∧ target = e.version ∧ rs ⊆ e.replicaSet
  | .storing todo c v d => c :: todo ⊆ ids ∧ ¬ v ≤ st.latestVersion c ∧ Origin r c v d ∧
      ∃ e, r.chunkTable.get c = some e ∧ e.version ≤ v
  | .removing _ => True

section Quiet

variable {ns : List NodeConfig} {r : RaceState} {n m : NodeConfig} {c x : Str} {e : ChunkEntry}

theorem Quiet.splitEntry (hq : Quiet ns r) (hn : n ∈ ns) :
    splitEntry n.entry = some (n.nodeId, n.address) :=
  splitEntry_pair (hq.names n hn).1

/-- A node is listed under its entry. -/
theorem Quiet.lists_iff (hq : Quiet ns r) (hn : n ∈ ns) : Lists r.chunkTable n.nodeId c ↔
    ∃ e, r.chunkTable.get c = some e ∧ n.entry ∈ e.replicaSet := by
  have hid : ∀ {m}, m ∈ ns → extractNodeId m.entry = m.nodeId := fun hm => by
    rw [extractNodeId, hq.splitEntry hm]
    rfl
  constructor
  · rintro ⟨e, he, hmem⟩
    obtain ⟨x, hx, hxid⟩ := List.mem_map.mp hmem
    obtain ⟨m, hm, rfl⟩ := hq.entries c e he x hx
    rw [hid hm] at hxid
    obtain rfl := hq.distinct m hm n hn (.inl hxid)
    exact ⟨e, he, hx⟩
  · rintro ⟨e, he, hx⟩
    exact ⟨e, he, List.mem_map.mpr ⟨n.entry, hx, hid hn⟩⟩

/-- The entries carry their addresses already. -/
theorem Quiet.map_encode (hq : Quiet ns r) (he : r.chunkTable.get c = some e)
    (alive : List NodeEntry) : e.replicaSet.map (encodeReplicaTarget alive) = e.replicaSet := by
  refine (List.map_congr_left fun x hx => ?_).trans (List.map_id _)
  obtain ⟨m, -, rfl⟩ := hq.entries c e he x hx
  rw [encodeReplicaTarget, if_pos (by simp [NodeConfig.entry])]
  rfl

/-- Another node of the cluster is a peer. -/
theorem Quiet.repairPeer (hq : Quiet ns r) (hn : n ∈ ns) (hm : m ∈ ns) (hne : m ≠ n) :
    repairPeer n m.entry = some m.address := by
  have hid : m.nodeId ≠ n.nodeId := fun h => hne (hq.distinct m hm n hn (.inl h))
  have haddr : m.address ≠ n.address := fun h => hne (hq.distinct m hm n hn (.inr h))
  simp [NimbusVault.repairPeer, parseReplicaEndpoint, hq.splitEntry hm, (hq.names m hm).2.1,
    (hq.names m hm).2.2, hid, haddr]

/-- What an answer of a peer is: a version that the peer has, new enough. -/
theorem fetchFromPeer_some {ss : Stores} {addr d : Str} {target v : UInt64} {fate : RpcFate}
    (hplain : PlainStore (ss addr)) (h : fetchFromPeer ss addr c target fate = some (d, v)) :
    (ss addr).stored c v = some d ∧ target ≤ v := by
  unfold fetchFromPeer at h
  split_ifs at h
  obtain ⟨hread, hge⟩ := Option.filter_eq_some_iff.mp h
  exact ⟨(ChunkStore.read_some hplain.plainKeys.ownsPrefix hread).1, by simpa using hge⟩

/-- A peer whose latest version is new enough answers with one. -/
theorem fetchFromPeer_isSome {ss : Stores} {addr : Str} {target : UInt64}
    (hplain : PlainStore (ss addr)) (hpos : ¬ target ≤ 0)
    (hle : target ≤ (ss addr).latestVersion c) :
    ∃ d v, fetchFromPeer ss addr c target .answered = some (d, v) := by
  have hstored : ((ss addr).stored c ((ss addr).latestVersion c)).isSome = true := by
    rcases latestVersion_stored hplain.plainKeys c with h0 | hst
    · exact absurd (h0 ▸ hle) hpos
    · exact hst
  obtain ⟨d, u, hread, hlu⟩ := ChunkStore.read_ge hplain.plainKeys.ownsPrefix hstored hle
    (hplain.plainKeys.le hstored)
  refine ⟨d, u, ?_⟩
  rw [fetchFromPeer, if_pos rfl, hread]
  simpa [Option.filter] using UInt64.le_trans hle hlu

end Quiet

/-! ### What a step of a pass does to the store -/

/-- The store keeps what is listed, and takes only versions from the start, of listed chunks. -/
structure StoreStep (r : RaceState) (n : NodeConfig) (st st' : ChunkStore) : Prop where
  plain : PlainStore st'
  kept : ∀ c, Lists r.chunkTable n.nodeId c →
    ∀ v d, st.stored c v = some d → st'.stored c v = some d
  taken : ∀ c v d, st'.stored c v = some d →
    st.stored c v = some d ∨ Origin r c v d ∧ Lists r.chunkTable n.nodeId c

section StoreSteps

variable {ns : List NodeConfig} {r : RaceState} {n : NodeConfig} {st st' : ChunkStore} {c : Str}

theorem StoreStep.refl (h : PlainStore st) : StoreStep r n st st :=
  ⟨h, fun _ _ _ _ => id, fun _ _ _ => .inl⟩

/-- A version newer than all others replaces none. -/
theorem StoreStep.write (hq : Quiet ns r) (h : PlainStore st) {v : UInt64} {d : Str}
    (hc : Lists r.chunkTable n.nodeId c) (hnew : ¬ v ≤ st.latestVersion c) (ho : Origin r c v d) :
    StoreStep r n st (st.write c v d) := by
  obtain ⟨addr, haddr⟩ := ho
  have hv : v ≤ 9999999999 :=
    (hq.plain addr).plainKeys.le (Option.isSome_iff_exists.mpr ⟨d, haddr⟩)
  obtain ⟨e, he, -⟩ := id hc
  refine ⟨h.write (hq.ids c e he) hv, fun b _ w x hx => ?_, fun b w x hx => ?_⟩
  · rw [ChunkStore.stored_write, if_neg]
    · exact hx
    · rintro ⟨rfl, rfl⟩
      exact hnew (le_latestVersion h.plainKeys (Option.isSome_iff_exists.mpr ⟨x, hx⟩))
  · rw [ChunkStore.stored_write] at hx
    split_ifs at hx with hb
    · obtain ⟨rfl, rfl⟩ := hb
      obtain rfl := Option.some.inj hx
      exact .inr ⟨⟨addr, haddr⟩, hc⟩
    · exact .inl hx

theorem StoreStep.remove (h : PlainStore st) (hc : ¬ Lists r.chunkTable n.nodeId c) :
    StoreStep r n st (st.remove c) := by
  refine ⟨h.remove, fun b hb v d hd => ?_, fun b v d hd => .inl ?_⟩
  · have hbc : b ≠ c := fun hbc => hc (hbc ▸ hb)
    rw [h.stored_remove_of_ne hbc]
    exact hd
  · rw [ChunkStore.stored_remove] at hd
    split_ifs at hd
    exact hd

/-- A listed chunk does not get older. -/
theorem StoreStep.latestVersion_le (hs : StoreStep r n st st') (h : PlainStore st)
    (hc : Lists r.chunkTable n.nodeId c) : st.latestVersion c ≤ st'.latestVersion c :=
  NimbusVault.latestVersion_le h.plainKeys hs.plain.plainKeys fun v hv => by
    obtain ⟨d, hd⟩ := Option.isSome_iff_exists.mp hv
    exact Option.isSome_iff_exists.mpr ⟨d, hs.kept c hc v d hd⟩

theorem StoreStep.reached (hs : StoreStep r n st st') (h : PlainStore st)
    (hc : Lists r.chunkTable n.nodeId c) (hr : Reached r.chunkTable st c) :
    Reached r.chunkTable st' c :=
  let ⟨e, he, hle⟩ := hr
  ⟨e, he, UInt64.le_trans hle (hs.latestVersion_le h hc)⟩

end StoreSteps

/-! ### The invariant -/

/-- What holds all along, of every node of the cluster. -/
structure HealInv (ns : List NodeConfig) (r : RaceState) (s : RepairState) : Prop where
  table : s.race.chunkTable = r.chunkTable
  lists : ∀ n ∈ ns, ∀ a, (s.procs n).Has a →
    a.ids = [] ∨ a.ids = assignedChunkIds r.chunkTable n.nodeId
  plain : ∀ addr, PlainStore (s.race.stores addr)
  origin : ∀ addr c v d, (s.race.stores addr).stored c v = some d → Origin r c v d
  kept : ∀ n ∈ ns, ∀ c, Lists r.chunkTable n.nodeId c → ∀ v d,
    (r.stores n.address).stored c v = some d → (s.race.stores n.address).stored c v = some d
  sound : ∀ n ∈ ns, ∀ p, (s.procs n).pass = some p →
    p.phase.Sound r (s.race.stores n.address) p.assignment.ids

/-- A step of a node of the cluster. -/
def OfNodes (ns : List NodeConfig) (l : RepairStep) : Prop := ∃ n ∈ ns, l.node = some n

instance (ns : List NodeConfig) (l : RepairStep) : Decidable (OfNodes ns l) :=
  inferInstanceAs (Decidable (∃ n ∈ ns, _))

section Invariant

variable {chunkOf : ℕ → Str} {ns : List NodeConfig} {r : RaceState} {s s' : RepairState}
  {l : RepairStep} {n : NodeConfig} {st : ChunkStore} {c : Str}

/-- The list of a running pass is that of the table. -/
theorem HealInv.mem_ids (hI : HealInv ns r s) (hq : Quiet ns r) (hn : n ∈ ns) {p : RepairPass}
    (hp : (s.procs n).pass = some p) :
    c ∈ p.assignment.ids ↔ Lists r.chunkTable n.nodeId c := by
  obtain ⟨a, hne, phase⟩ := p
  rcases hI.lists n hn a (.inr (.inr ⟨hne, phase, hp⟩)) with h | h
  · exact absurd h hne
  · rw [h, mem_assignedChunkIds hq.keyed]

/-- **A step of a pass** does to the store what it may, and keeps what is known of the pass. -/
theorem PassStep.sound (hI : HealInv ns r s) (hq : Quiet ns r) (hn : n ∈ ns)
    {p' : Option RepairPass}
    (h : PassStep s.race.chunkTable s.race.stores n l (s.procs n).pass p' st) :
    StoreStep r n (s.race.stores n.address) st ∧ ∀ p ∈ p', p.phase.Sound r st p.assignment.ids := by
  have hrefl : StoreStep r n (s.race.stores n.address) (s.race.stores n.address) :=
    .refl (hI.plain n.address)
  generalize hp : (s.procs n).pass = p at h
  cases h with
  | begin hperm =>
    refine ⟨hrefl, ?_⟩
    rintro _ ⟨⟩ b hb
    exact List.mem_dedup.mp (hperm.subset hb)
  | noInfo =>
    refine ⟨hrefl, ?_⟩
    rintro _ ⟨⟩
    exact (List.cons_subset.mp (hI.sound n hn _ hp)).2
  | @info a hne c todo alive e he =>
    rw [hI.table] at he
    refine ⟨hrefl, ?_⟩
    rintro _ ⟨⟩
    exact ⟨hI.sound n hn _ hp, e, he, rfl, hq.map_encode he alive⟩
  | upToDate =>
    refine ⟨hrefl, ?_⟩
    rintro _ ⟨⟩
    exact (List.cons_subset.mp (hI.sound n hn _ hp).1).2
  | behind hlt =>
    obtain ⟨hsub, e, he, htarget, rfl⟩ := hI.sound n hn _ hp
    refine ⟨hrefl, ?_⟩
    rintro _ ⟨⟩
    exact ⟨hsub, hlt, e, he, htarget, List.Subset.refl _⟩
  | exhausted =>
    refine ⟨hrefl, ?_⟩
    rintro _ ⟨⟩
    exact (List.cons_subset.mp (hI.sound n hn _ hp).1).2
  | skip =>
    obtain ⟨hsub, hlt, e, he, htarget, hrs⟩ := hI.sound n hn _ hp
    refine ⟨hrefl, ?_⟩
    rintro _ ⟨⟩
    exact ⟨hsub, hlt, e, he, htarget, (List.cons_subset.mp hrs).2⟩
  | fetched hf =>
    obtain ⟨hsub, hlt, e, he, htarget, -⟩ := hI.sound n hn _ hp
    obtain ⟨addr, -, hf⟩ := Option.bind_eq_some_iff.mp hf
    obtain ⟨hstored, hge⟩ := fetchFromPeer_some (hI.plain addr) hf
    refine ⟨hrefl, ?_⟩
    rintro _ ⟨⟩
    exact ⟨hsub, fun hle => hlt (UInt64.le_trans hge hle), hI.origin _ _ _ _ hstored, e, he,
      htarget ▸ hge⟩
  | store =>
    obtain ⟨hsub, hnew, ho, -⟩ := hI.sound n hn _ hp
    have hlists := (hI.mem_ids hq hn hp).mp (hsub List.mem_cons_self)
    refine ⟨.write hq (hI.plain _) hlists hnew ho, ?_⟩
    rintro _ ⟨⟩
    exact (List.cons_subset.mp hsub).2
  | scan => exact ⟨hrefl, by rintro _ ⟨⟩; trivial⟩
  | keep => exact ⟨hrefl, by rintro _ ⟨⟩; trivial⟩
  | remove hd =>
    exact ⟨.remove (hI.plain _) fun hl => hd ((hI.mem_ids hq hn hp).mpr hl),
      by rintro _ ⟨⟩; trivial⟩
  | finish => exact ⟨hrefl, by simp⟩

theorem HealInv.start (hq : Quiet ns r) : HealInv ns r (.start r) where
  table := rfl
  lists n _ a ha := by
    rcases ha with ha | ha | ⟨_, _, ha⟩ <;> simp [RepairState.start] at ha
  plain := hq.plain
  origin addr _ _ _ hd := ⟨addr, hd⟩
  kept _ _ _ _ _ _ hd := hd
  sound n _ p hp := by simp [RepairState.start] at hp

/-- What a step of a node does to the stores and the passes of the cluster. -/
structure ClusterStep (ns : List NodeConfig) (r : RaceState) (s s' : RepairState) : Prop where
  stores : ∀ m ∈ ns, StoreStep r m (s.race.stores m.address) (s'.race.stores m.address)
  elsewhere : ∀ addr, (∀ m ∈ ns, m.address ≠ addr) → s'.race.stores addr = s.race.stores addr

theorem HealInv.clusterStep (hI : HealInv ns r s) (hq : Quiet ns r) (hn : n ∈ ns)
    (h : s.NodeStep s' n l) : ClusterStep ns r s s' := by
  rcases h.pass with ⟨-, hstores, -⟩ | ⟨st, hstep, hstores⟩
  · exact ⟨fun m _ => by rw [hstores]; exact .refl (hI.plain _), fun _ _ => by rw [hstores]⟩
  · refine ⟨fun m hm => ?_, fun addr haddr => ?_⟩
    · rw [hstores]
      by_cases hmn : m = n
      · subst hmn
        rw [Function.update_self]
        exact (hstep.sound hI hq hn).1
      · rw [Function.update_of_ne fun ha => hmn (hq.distinct m hm n hn (.inr ha))]
        exact .refl (hI.plain _)
    · rw [hstores, Function.update_of_ne (haddr n hn).symm]

theorem HealInv.step (hI : HealInv ns r s) (hq : Quiet ns r) (hn : n ∈ ns)
    (h : s.NodeStep s' n l) : HealInv ns r s' := by
  have hc := hI.clusterStep hq hn h
  -- a store is that of a node of the cluster, or did not change
  have hcases : ∀ addr, (∃ m ∈ ns, m.address = addr) ∨ s'.race.stores addr = s.race.stores addr := by
    intro addr
    by_cases haddr : ∃ m ∈ ns, m.address = addr
    · exact .inl haddr
    · push Not at haddr
      exact .inr (hc.elsewhere addr haddr)
  refine ⟨h.loop.table.trans hI.table, ?_, ?_, ?_, ?_, ?_⟩
  · intro m hm a ha
    rcases h.loop.has m a ha with ha | ⟨-, hids⟩
    · exact hI.lists m hm a ha
    · rw [← hI.table]
      exact hids
  · intro addr
    rcases hcases addr with ⟨m, hm, rfl⟩ | haddr
    · exact (hc.stores m hm).plain
    · rw [haddr]
      exact hI.plain addr
  · intro addr c v d hd
    rcases hcases addr with ⟨m, hm, rfl⟩ | haddr
    · rcases (hc.stores m hm).taken c v d hd with hd | ⟨ho, -⟩
      · exact hI.origin _ c v d hd
      · exact ho
    · rw [haddr] at hd
      exact hI.origin addr c v d hd
  · intro m hm c hlists v d hd
    exact (hc.stores m hm).kept c hlists v d (hI.kept m hm c hlists v d hd)
  · intro m hm p hp
    by_cases hmn : m = n
    · subst hmn
      rcases h.pass with ⟨hpass, hstores, -⟩ | ⟨st, hstep, hstores⟩
      · rw [hpass] at hp
        rw [hstores]
        exact hI.sound m hm p hp
      · rw [hstores, Function.update_self]
        exact (hstep.sound hI hq hm).2 p hp
    · have hstore : s'.race.stores m.address = s.race.stores m.address := by
        rcases h.pass with ⟨-, hstores, -⟩ | ⟨st, -, hstores⟩ <;> rw [hstores]
        exact Function.update_of_ne (fun ha => hmn (hq.distinct m hm n hn (.inr ha))) _ _
      rw [h.others m hmn] at hp
      rw [hstore]
      exact hI.sound m hm p hp

/-- The invariant of the runs of the loops. -/
theorem healInv_of_run (hq : Quiet ns r) {ok : RepairState → RepairStep → Prop}
    (hok : ∀ s l, ok s l → OfNodes ns l) {tr : List RepairStep}
    (h : (repairs chunkOf).Run ok (.start r) tr s) : HealInv ns r s := by
  refine h.invariant_step (HealInv.start hq) fun s l s' hI hs hl => ?_
  obtain ⟨n, hn, hln⟩ := hok s l hl
  exact hI.step hq hn (RepairState.nodeStep hln hs)

/-- **The repair loops lose nothing** of what the table lists, and make nothing up: in every run of the
nodes' loops, whatever fails, a node keeps all versions that it had of the chunks that list it, and
every version that is stored was stored by some node at the start. -/
theorem repairs_lose_nothing (hq : Quiet ns r) {tr : List RepairStep}
    (h : (repairs chunkOf).Run (fun _ l => OfNodes ns l) (.start r) tr s) :
    (∀ n ∈ ns, ∀ c, Lists r.chunkTable n.nodeId c → ∀ v d,
      (r.stores n.address).stored c v = some d → (s.race.stores n.address).stored c v = some d) ∧
    ∀ addr c v d, (s.race.stores addr).stored c v = some d → Origin r c v d :=
  have hI := healInv_of_run hq (fun _ _ => id) h
  ⟨hI.kept, hI.origin⟩

end Invariant

/-! ### A pass heals its node -/

/-- A call of the node is answered. -/
def Answered (n : NodeConfig) : RepairStep → Prop
  | .info m _ answered => m = n → answered = true
  | .fetch m fate => m = n → fate = .answered
  | _ => True

/-- The node stores what lists it in the table's version or a newer one, and nothing else. -/
structure Healed (t : ChunkTable) (n : NodeConfig) (st : ChunkStore) : Prop where
  reached : ∀ c, Lists t n.nodeId c → Reached t st c
  listed : ∀ c v, (st.stored c v).isSome = true → Lists t n.nodeId c

/-- A node that the table lists with the chunk has it at the start, new enough. -/
def Held (ns : List NodeConfig) (r : RaceState) (c : Str) : Prop :=
  ∃ m ∈ ns, Lists r.chunkTable m.nodeId c ∧ Reached r.chunkTable (r.stores m.address) c

/-- The store has the chunk, if there was one to be had. -/
def Regained (ns : List NodeConfig) (r : RaceState) (st : ChunkStore) (c : Str) : Prop :=
  Held ns r c → Reached r.chunkTable st c

/-- The node stores what it could get of what lists it, and nothing else. -/
structure Mended (ns : List NodeConfig) (r : RaceState) (n : NodeConfig) (st : ChunkStore) : Prop where
  regained : ∀ c, Lists r.chunkTable n.nodeId c → Regained ns r st c
  listed : ∀ c v, (st.stored c v).isSome = true → Lists r.chunkTable n.nodeId c

/-- What of the list a pass has done, and that it will find a peer. -/
def RepairPhase.Healing (ns : List NodeConfig) (r : RaceState) (n : NodeConfig) (st : ChunkStore)
    (ids : List Str) : RepairPhase → Prop
  | .syncing todo => ∀ b ∈ ids, b ∈ todo ∨ Regained ns r st b
  | .comparing todo c _ _ => ∀ b ∈ ids, b ∈ c :: todo ∨ Regained ns r st b
  | .fetching todo c target rs => (∀ b ∈ ids, b ∈ c :: todo ∨ Regained ns r st b) ∧
      (Held ns r c → ∃ m ∈ ns, m ≠ n ∧ m.entry ∈ rs ∧ Lists r.chunkTable m.nodeId c ∧
        target ≤ (r.stores m.address).latestVersion c)
  | .storing todo c _ _ => ∀ b ∈ ids, b ∈ c :: todo ∨ Regained ns r st b
  | .removing todo => (∀ b ∈ ids, Regained ns r st b) ∧
      ∀ b v, (st.stored b v).isSome = true → b ∈ ids ∨ b ∈ todo

section Healing

variable {chunkOf : ℕ → Str} {ns : List NodeConfig} {r : RaceState} {s s' : RepairState}
  {l : RepairStep} {n m : NodeConfig} {st st' : ChunkStore} {c : Str}

theorem Mended.healed (h : Mended ns r n st)
    (held : ∀ c, Lists r.chunkTable n.nodeId c → Held ns r c) : Healed r.chunkTable n st :=
  ⟨fun c hc => h.regained c hc (held c hc), h.listed⟩

theorem Mended.step (h : Mended ns r n st) (hst : PlainStore st) (hs : StoreStep r n st st') :
    Mended ns r n st' := by
  refine ⟨fun c hc held => hs.reached hst hc (h.regained c hc held), fun c v hv => ?_⟩
  obtain ⟨d, hd⟩ := Option.isSome_iff_exists.mp hv
  rcases hs.taken c v d hd with hd | ⟨-, hlists⟩
  · exact h.listed c v (Option.isSome_iff_exists.mpr ⟨d, hd⟩)
  · exact hlists

/-- No node gets older in what lists it. -/
theorem HealInv.start_le (hI : HealInv ns r s) (hq : Quiet ns r) (hm : m ∈ ns)
    (hc : Lists r.chunkTable m.nodeId c) :
    (r.stores m.address).latestVersion c ≤ (s.race.stores m.address).latestVersion c :=
  latestVersion_le (hq.plain _).plainKeys (hI.plain _).plainKeys fun v hv => by
    obtain ⟨d, hd⟩ := Option.isSome_iff_exists.mp hv
    exact Option.isSome_iff_exists.mpr ⟨d, hI.kept m hm c hc v d hd⟩

/-- Done with one chunk more. -/
theorem regained_or_mem {ids todo : List Str}
    (h : ∀ b ∈ ids, b ∈ c :: todo ∨ Regained ns r st b) (hc : Regained ns r st c) :
    ∀ b ∈ ids, b ∈ todo ∨ Regained ns r st b := by
  intro b hb
  rcases h b hb with hmem | hr
  · rcases List.mem_cons.mp hmem with rfl | hmem
    · exact .inr hc
    · exact .inl hmem
  · exact .inr hr

/-- A peer that has the version answers with it. -/
theorem HealInv.peer_answers (hI : HealInv ns r s) (hq : Quiet ns r) (hn : n ∈ ns) (hm : m ∈ ns)
    (hne : m ≠ n) (hc : Lists r.chunkTable m.nodeId c) {target : UInt64} (hpos : ¬ target ≤ 0)
    (hle : target ≤ (r.stores m.address).latestVersion c) :
    ((repairPeer n m.entry).bind fun addr =>
      fetchFromPeer s.race.stores addr c target .answered) ≠ none := by
  obtain ⟨d, v, hf⟩ := fetchFromPeer_isSome (hI.plain m.address) hpos
    (UInt64.le_trans hle (hI.start_le hq hm hc))
  rw [hq.repairPeer hn hm hne, Option.bind_some, hf]
  simp

/-- **A step of an answered pass** goes on with the list. -/
theorem PassStep.healing (hI : HealInv ns r s) (hq : Quiet ns r) (hn : n ∈ ns)
    (hl : Answered n l)
    (hheal : ∀ p, (s.procs n).pass = some p →
      p.phase.Healing ns r n (s.race.stores n.address) p.assignment.ids)
    {p' : Option RepairPass}
    (h : PassStep s.race.chunkTable s.race.stores n l (s.procs n).pass p' st) :
    (∀ p ∈ p', p.phase.Healing ns r n st p.assignment.ids) ∧ (l = .finish n → Mended ns r n st) := by
  have hstore := (h.sound hI hq hn).1
  generalize hp : (s.procs n).pass = p at h
  cases h with
  | begin hperm =>
    refine ⟨?_, by simp⟩
    rintro _ ⟨⟩ b hb
    exact .inl (hperm.symm.subset (List.mem_dedup.mpr hb))
  | @noInfo a hne c todo alive answered hno =>
    have hlists := (hI.mem_ids hq hn hp).mp (hI.sound n hn _ hp List.mem_cons_self)
    obtain ⟨e, he, -⟩ := hlists
    rw [hI.table] at hno
    rcases hno with rfl | hno
    · exact absurd (hl rfl) (by simp)
    · rw [hno] at he
      simp at he
  | info he =>
    have hids := hheal _ hp
    refine ⟨?_, by simp⟩
    rintro _ ⟨⟩
    exact hids
  | upToDate hle =>
    obtain ⟨hsub, e, he, rfl, -⟩ := hI.sound n hn _ hp
    refine ⟨?_, by simp⟩
    rintro _ ⟨⟩
    exact regained_or_mem (hheal _ hp) fun _ => ⟨e, he, hle⟩
  | @behind a hne c todo rs target hlt =>
    obtain ⟨hsub, e, he, rfl, rfl⟩ := hI.sound n hn _ hp
    refine ⟨?_, by simp⟩
    rintro _ ⟨⟩
    refine ⟨hheal _ hp, ?_⟩
    rintro ⟨m, hm, hmlists, e', he', hle⟩
    obtain rfl : e = e' := Option.some.inj (he.symm.trans he')
    -- it is not the node itself that has the version
    have hmn : m ≠ n := by
      rintro rfl
      exact hlt (UInt64.le_trans hle (hI.start_le hq hm hmlists))
    have hentry : m.entry ∈ e.replicaSet := by
      obtain ⟨e', he', hmem⟩ := (hq.lists_iff hm).mp hmlists
      obtain rfl : e = e' := Option.some.inj (he.symm.trans he')
      exact hmem
    exact ⟨m, hm, hmn, hentry, hmlists, hle⟩
  | exhausted =>
    obtain ⟨hids, hpeer⟩ := hheal _ hp
    refine ⟨?_, by simp⟩
    rintro _ ⟨⟩
    refine regained_or_mem hids fun held => ?_
    obtain ⟨m, -, -, hmem, -⟩ := hpeer held
    simp at hmem
  | @skip a hne c x todo rs target fate hnone =>
    obtain ⟨hsub, hlt, -⟩ := hI.sound n hn _ hp
    obtain ⟨hids, hpeer⟩ := hheal _ hp
    obtain rfl : fate = .answered := hl rfl
    have hpos : ¬ target ≤ 0 := fun h0 => hlt (UInt64.le_trans h0 UInt64.zero_le)
    refine ⟨?_, by simp⟩
    rintro _ ⟨⟩
    refine ⟨hids, fun held => ?_⟩
    obtain ⟨m, hm, hmn, hmem, hmlists, hle⟩ := hpeer held
    rcases List.mem_cons.mp hmem with rfl | hmem
    · exact absurd hnone (hI.peer_answers hq hn hm hmn hmlists hpos hle)
    · exact ⟨m, hm, hmn, hmem, hmlists, hle⟩
  | fetched hf =>
    refine ⟨?_, by simp⟩
    rintro _ ⟨⟩
    exact (hheal _ hp).1
  | @store a hne c d todo version =>
    obtain ⟨hsub, -, -, e, he, hle⟩ := hI.sound n hn _ hp
    refine ⟨?_, by simp⟩
    rintro _ ⟨⟩
    refine regained_or_mem (fun b hb => ?_) fun _ => ⟨e, he, UInt64.le_trans hle
      (le_latestVersion hstore.plain.plainKeys (by simp))⟩
    exact (hheal _ hp b hb).imp_right fun hreg held =>
      hstore.reached (hI.plain _) ((hI.mem_ids hq hn hp).mp hb) (hreg held)
  | scan hperm =>
    refine ⟨?_, by simp⟩
    rintro _ ⟨⟩
    refine ⟨fun b hb => (hheal _ hp b hb).resolve_left (by simp), fun b v hv => .inr ?_⟩
    exact hperm.symm.subset ((hI.plain _).mem_listChunkIds.mpr ⟨v, hv⟩)
  | keep hd =>
    obtain ⟨hids, hstored⟩ := hheal _ hp
    refine ⟨?_, by simp⟩
    rintro _ ⟨⟩
    refine ⟨hids, fun b v hv => ?_⟩
    rcases hstored b v hv with hb | hb
    · exact .inl hb
    · rcases List.mem_cons.mp hb with rfl | hb
      · exact .inl hd
      · exact .inr hb
  | @remove a hne d todo hd =>
    obtain ⟨hids, hstored⟩ := hheal _ hp
    refine ⟨?_, by simp⟩
    rintro _ ⟨⟩
    have hkept : ∀ b ∈ a.ids, Regained ns r ((s.race.stores n.address).remove d) b :=
      fun b hb held =>
        hstore.reached (hI.plain _) ((hI.mem_ids hq hn hp).mp hb) (hids b hb held)
    refine ⟨hkept, fun b v hv => ?_⟩
    have hbd : b ≠ d := by
      rintro rfl
      simp at hv
    rw [(hI.plain _).stored_remove_of_ne hbd] at hv
    exact (hstored b v hv).imp_right fun hb => (List.mem_cons.mp hb).resolve_left hbd
  | finish =>
    obtain ⟨hids, hstored⟩ := hheal _ hp
    refine ⟨by simp, fun _ => ⟨fun b hb => ?_, fun b v hv => ?_⟩⟩
    · exact hids b ((hI.mem_ids hq hn hp).mpr hb)
    · exact (hI.mem_ids hq hn hp).mp ((hstored b v hv).resolve_right (by simp))

/-- A node is mended from the end of its first pass on. -/
structure HealProgress (ns : List NodeConfig) (r : RaceState) (n : NodeConfig)
    (tr : List RepairStep) (s : RepairState) : Prop where
  inv : HealInv ns r s
  pass : ∀ p, (s.procs n).pass = some p →
    p.phase.Healing ns r n (s.race.stores n.address) p.assignment.ids
  finished : .finish n ∈ tr → Mended ns r n (s.race.stores n.address)

theorem HealProgress.step (hq : Quiet ns r) (hn : n ∈ ns) {tr : List RepairStep}
    (hP : HealProgress ns r n tr s) (h : s.step chunkOf l = some s') (hl : OfNodes ns l)
    (hans : Answered n l) : HealProgress ns r n (tr ++ [l]) s' := by
  obtain ⟨m, hm, hlm⟩ := hl
  have hstep := RepairState.nodeStep hlm h
  have hstore := (hP.inv.clusterStep hq hm hstep).stores n hn
  have hstay := fun hfin => (hP.finished hfin).step (hP.inv.plain _) hstore
  have hinv := hP.inv.step hq hm hstep
  by_cases hmn : m = n
  · subst hmn
    rcases hstep.pass with ⟨hpass, hstores, hne⟩ | ⟨st, hpass, hstores⟩
    · refine ⟨hinv, ?_, fun hfin => hstay ?_⟩
      · rw [hpass, hstores]
        exact hP.pass
      · simpa [hne.symm] using hfin
    · have hst : s'.race.stores m.address = st := by rw [hstores, Function.update_self]
      obtain ⟨hheal, hfinish⟩ := hpass.healing hP.inv hq hm hans hP.pass
      refine ⟨hinv, hst ▸ hheal, fun hfin => ?_⟩
      rcases List.mem_append.mp hfin with hfin | hfin
      · exact hstay hfin
      · exact hst ▸ hfinish (List.mem_singleton.mp hfin).symm
  · have hstoren : s'.race.stores n.address = s.race.stores n.address := by
      rcases hstep.pass with ⟨-, hstores, -⟩ | ⟨st, -, hstores⟩ <;> rw [hstores]
      exact Function.update_of_ne (fun ha => hmn (hq.distinct m hm n hn (.inr ha.symm))) _ _
    refine ⟨hinv, ?_, fun hfin => hstay ?_⟩
    · rw [hstep.others n (Ne.symm hmn), hstoren]
      exact hP.pass
    · rcases List.mem_append.mp hfin with hfin | hfin
      · exact hfin
      · obtain rfl := List.mem_singleton.mp hfin
        exact absurd (Option.some.inj hlm).symm hmn

theorem healProgress_of_run (hq : Quiet ns r) (hn : n ∈ ns) {tr : List RepairStep}
    (h : (repairs chunkOf).Run (fun _ l => OfNodes ns l ∧ Answered n l) (.start r) tr s) :
    HealProgress ns r n tr s := by
  refine h.trace_invariant (I := HealProgress ns r n) ⟨HealInv.start hq, ?_, by simp⟩ ?_
  · intro p hp
    simp [RepairState.start] at hp
  · intro tr s l s' hP hs hl
    exact hP.step hq hn hs hl.1 hl.2

end Healing

/-! ### A node can always heal itself -/

section Ends

variable {chunkOf : ℕ → Str} {s s' : RepairState} {l : RepairStep} {n : NodeConfig}

/-- The node can bring a pass to its end, by its own steps. -/
def CanEnd (chunkOf : ℕ → Str) (n : NodeConfig) (s : RepairState) : Prop :=
  ∃ tr s', (repairs chunkOf).Run (fun _ l => l.node = some n ∧ Answered n l) s tr s' ∧ .finish n ∈ tr

theorem CanEnd.step (h : s.step chunkOf l = some s') (hl : l.node = some n) (hans : Answered n l)
    (hc : CanEnd chunkOf n s') : CanEnd chunkOf n s := by
  obtain ⟨tr, t, hrun, hfin⟩ := hc
  have hfirst : (repairs chunkOf).Run (fun _ l => l.node = some n ∧ Answered n l) s [l] s' :=
    Machine.Run.nil.step h ⟨hl, hans⟩
  exact ⟨_, t, hfirst.trans hrun, List.mem_append_right _ hfin⟩

variable {a : Assignment} {hne : a.ids ≠ []} {c : Str} {target : UInt64}

theorem canEnd_removing : ∀ {todo : List Str} {s : RepairState},
    (s.procs n).pass = some ⟨a, hne, .removing todo⟩ → CanEnd chunkOf n s
  | [], s, hp => by
    have hstep : s.step chunkOf (.finish n) = some (s.setPass n none) := by
      simp only [RepairState.step, hp]
    exact ⟨[.finish n], _, Machine.Run.nil.step hstep ⟨rfl, trivial⟩, List.mem_singleton_self _⟩
  | d :: todo, s, hp => by
    by_cases hd : d ∈ a.ids
    · have hstep : s.step chunkOf (.remove n) = some (s.setPass n (some ⟨a, hne, .removing todo⟩)) := by
        simp only [RepairState.step, hp, if_pos hd]
      exact (canEnd_removing RepairState.setPass_pass).step hstep rfl trivial
    · obtain ⟨s', hstep, -⟩ := RepairState.step_remove_unlisted chunkOf hp hd
      have hpass : (s'.procs n).pass = some ⟨a, hne, .removing todo⟩ := by
        simp only [RepairState.step, hp, if_neg hd] at hstep
        obtain rfl := Option.some.inj hstep
        exact RepairState.setPass_pass
      exact (canEnd_removing hpass).step hstep rfl trivial

/-! From a chunk on, when the rest of the list can be worked off. -/

theorem canEnd_storing {todo : List Str} {version : UInt64} {data : Str}
    (hnext : ∀ s : RepairState, (s.procs n).pass = some ⟨a, hne, .syncing todo⟩ → CanEnd chunkOf n s)
    (hp : (s.procs n).pass = some ⟨a, hne, .storing todo c version data⟩) : CanEnd chunkOf n s := by
  have hstep : s.step chunkOf (.store n) =
      some ((s.setPass n (some ⟨a, hne, .syncing todo⟩)).setStore n.address
        ((s.race.stores n.address).write c version data)) := by
    simp only [RepairState.step, hp]
  refine (hnext _ ?_).step hstep rfl trivial
  exact RepairState.setPass_pass (s := s)

/-- The peers are tried one after the other. -/
theorem canEnd_fetching {todo : List Str}
    (hnext : ∀ s : RepairState, (s.procs n).pass = some ⟨a, hne, .syncing todo⟩ → CanEnd chunkOf n s) :
    ∀ {rs : List Str} {s : RepairState},
      (s.procs n).pass = some ⟨a, hne, .fetching todo c target rs⟩ → CanEnd chunkOf n s
  | [], s, hp => by
    have hstep : s.step chunkOf (.fetch n .answered) =
        some (s.setPass n (some ⟨a, hne, .syncing todo⟩)) := by
      simp only [RepairState.step, hp]
    exact (hnext _ RepairState.setPass_pass).step hstep rfl fun _ => rfl
  | r :: rs, s, hp => by
    cases hf : (repairPeer n r).bind fun addr =>
        fetchFromPeer s.race.stores addr c target .answered with
    | none =>
      have hstep : s.step chunkOf (.fetch n .answered) =
          some (s.setPass n (some ⟨a, hne, .fetching todo c target rs⟩)) := by
        simp only [RepairState.step, hp, hf]
      exact (canEnd_fetching hnext RepairState.setPass_pass).step hstep rfl fun _ => rfl
    | some x =>
      obtain ⟨data, version⟩ := x
      have hstep : s.step chunkOf (.fetch n .answered) =
          some (s.setPass n (some ⟨a, hne, .storing todo c version data⟩)) := by
        simp only [RepairState.step, hp, hf]
      exact (canEnd_storing hnext RepairState.setPass_pass).step hstep rfl fun _ => rfl

theorem canEnd_comparing {todo rs : List Str}
    (hnext : ∀ s : RepairState, (s.procs n).pass = some ⟨a, hne, .syncing todo⟩ → CanEnd chunkOf n s)
    (hp : (s.procs n).pass = some ⟨a, hne, .comparing todo c target rs⟩) : CanEnd chunkOf n s := by
  by_cases hle : target ≤ (s.race.stores n.address).latestVersion c
  · have hstep : s.step chunkOf (.compare n) =
        some (s.setPass n (some ⟨a, hne, .syncing todo⟩)) := by
      simp only [RepairState.step, hp, if_pos hle]
    exact (hnext _ RepairState.setPass_pass).step hstep rfl trivial
  · have hstep : s.step chunkOf (.compare n) =
        some (s.setPass n (some ⟨a, hne, .fetching todo c target rs⟩)) := by
      simp only [RepairState.step, hp, if_neg hle]
    exact (canEnd_fetching hnext RepairState.setPass_pass).step hstep rfl trivial

/-- The chunks of the list are brought up to date one after the other. -/
theorem canEnd_syncing : ∀ {todo : List Str} {s : RepairState},
    (s.procs n).pass = some ⟨a, hne, .syncing todo⟩ → CanEnd chunkOf n s
  | [], s, hp => by
    have hstep : s.step chunkOf (.scan n (s.race.stores n.address).listChunkIds) =
        some (s.setPass n (some ⟨a, hne, .removing (s.race.stores n.address).listChunkIds⟩)) := by
      simp only [RepairState.step, hp, List.Perm.refl, if_true]
    exact (canEnd_removing RepairState.setPass_pass).step hstep rfl trivial
  | c :: todo, s, hp => by
    cases hinfo : getChunkInfo true [] s.race.chunkTable c with
    | error x =>
      have hstep : s.step chunkOf (.info n [] true) =
          some (s.setPass n (some ⟨a, hne, .syncing todo⟩)) := by
        simp only [RepairState.step, hp, hinfo]
      exact (canEnd_syncing RepairState.setPass_pass).step hstep rfl fun _ => rfl
    | ok e =>
      have hstep : s.step chunkOf (.info n [] true) =
          some (s.setPass n (some ⟨a, hne, .comparing todo c e.version e.replicaSet⟩)) := by
        simp only [RepairState.step, hp, hinfo]
      exact (canEnd_comparing (fun _ => canEnd_syncing) RepairState.setPass_pass).step hstep rfl
        fun _ => rfl

/-- **A running pass can end.** -/
theorem canEnd_of_pass {p : RepairPass} (hp : (s.procs n).pass = some p) : CanEnd chunkOf n s := by
  obtain ⟨a, hne, phase⟩ := p
  cases phase with
  | syncing todo => exact canEnd_syncing hp
  | comparing todo c target rs => exact canEnd_comparing (fun _ => canEnd_syncing) hp
  | fetching todo c target rs => exact canEnd_fetching (fun _ => canEnd_syncing) hp
  | storing todo c version data => exact canEnd_storing (fun _ => canEnd_syncing) hp
  | removing todo => exact canEnd_removing hp

/-- A node that the table lists gets a list, and starts a pass. -/
theorem canEnd_of_listed (hids : assignedChunkIds s.race.chunkTable n.nodeId ≠ [])
    (hanswer : (s.procs n).answer = none) (hpass : (s.procs n).pass = none) :
    CanEnd chunkOf n s := by
  generalize hb : (⟨assignedChunkIds s.race.chunkTable n.nodeId, s.applied.length⟩ : Assignment) = b
  have hbids : b.ids ≠ [] := hb ▸ hids
  have hbeat : s.step chunkOf (.beat n true) =
      some (s.setProc n { s.procs n with answer := some b }) := by
    simp only [RepairState.step, hanswer, if_true, hb]
  refine CanEnd.step hbeat rfl trivial ?_
  generalize hs₁ : s.setProc n { s.procs n with answer := some b } = s₁
  have hproc₁ : s₁.procs n = { s.procs n with answer := some b } := by
    rw [← hs₁]
    exact Function.update_self _ _ _
  have hhear : s₁.step chunkOf (.hear n true) =
      some (s₁.setProc n { s₁.procs n with answer := none, assigned := some b }) := by
    simp only [RepairState.step, hproc₁, if_true]
  refine CanEnd.step hhear rfl trivial ?_
  generalize hs₂ : s₁.setProc n { s₁.procs n with answer := none, assigned := some b } = s₂
  have hproc₂ : s₂.procs n = { s₁.procs n with answer := none, assigned := some b } := by
    rw [← hs₂]
    exact Function.update_self _ _ _
  have hbegin : s₂.step chunkOf (.begin n b.ids.dedup) =
      some (s₂.setPass n (some ⟨b, hbids, .syncing b.ids.dedup⟩)) := by
    simp only [RepairState.step, hproc₂, hproc₁, hpass, dif_pos hbids, List.Perm.refl, if_true]
  exact (canEnd_syncing RepairState.setPass_pass).step hbegin rfl trivial

/-- **A node that the table lists can always end a pass**, by its own steps. -/
theorem canEnd (hids : assignedChunkIds s.race.chunkTable n.nodeId ≠ []) : CanEnd chunkOf n s := by
  cases hpass : (s.procs n).pass with
  | some p => exact canEnd_of_pass hpass
  | none =>
    cases hanswer : (s.procs n).answer with
    | none => exact canEnd_of_listed hids hanswer hpass
    | some b =>
      -- an answer under way gets lost
      have hhear : s.step chunkOf (.hear n false) =
          some (s.setProc n { s.procs n with answer := none }) := by
        simp only [RepairState.step, hanswer, Bool.false_eq_true, if_false]
      have hproc : (s.setProc n { s.procs n with answer := none }).procs n =
          { s.procs n with answer := none } := Function.update_self _ _ _
      refine (canEnd_of_listed ?_ ?_ ?_).step hhear rfl trivial
      · exact hids
      · rw [hproc]
      · rw [hproc]
        exact hpass

end Ends

/-- **The repair loops heal.**  When every chunk that lists the node is held in the table's version
by some node that it lists, then in every run of the nodes' loops in which this node's calls are
answered, from the end of its first pass on the node stores every chunk that lists it in the table's
version or a newer one, and no other chunk.  A node that is listed at all can get there from every
state of such a run, by its own steps. -/
theorem repairs_heal {chunkOf : ℕ → Str} {ns : List NodeConfig} {r : RaceState} {s : RepairState}
    {n : NodeConfig} (hq : Quiet ns r) (hn : n ∈ ns)
    (held : ∀ c, Lists r.chunkTable n.nodeId c → ∃ m ∈ ns, Lists r.chunkTable m.nodeId c ∧
      Reached r.chunkTable (r.stores m.address) c) {tr : List RepairStep}
    (h : (repairs chunkOf).Run (fun _ l => OfNodes ns l ∧ Answered n l) (.start r) tr s) :
    (.finish n ∈ tr → Healed r.chunkTable n (s.race.stores n.address)) ∧
    ((∃ c, Lists r.chunkTable n.nodeId c) → ∃ tr' s',
      (repairs chunkOf).Run (fun _ l => l.node = some n ∧ Answered n l) s tr' s' ∧
      Healed r.chunkTable n (s'.race.stores n.address)) := by
  have hP := healProgress_of_run hq hn h
  refine ⟨fun hfin => (hP.finished hfin).healed held, fun ⟨c, hc⟩ => ?_⟩
  have hids : assignedChunkIds s.race.chunkTable n.nodeId ≠ [] := by
    rw [hP.inv.table]
    exact List.ne_nil_of_mem ((mem_assignedChunkIds hq.keyed).mpr hc)
  have hend : CanEnd chunkOf n s := canEnd hids
  obtain ⟨tr', s', hrun, hfin⟩ := hend
  have hown : (repairs chunkOf).Run (fun _ l => OfNodes ns l ∧ Answered n l) s tr' s' :=
    hrun.mono fun _ l hl => ⟨⟨n, hn, hl.1⟩, hl.2⟩
  have hmended := (healProgress_of_run hq hn (h.trans hown)).finished (List.mem_append_right _ hfin)
  exact ⟨tr', s', hrun, hmended.healed held⟩

/-! ### A node that is behind -/

def nodeA : NodeConfig := ⟨['n'], ['a']⟩

def nodeB : NodeConfig := ⟨['m'], ['b']⟩

/-- The chunk `c` is on both nodes in version 2; `n` has missed it, and has a chunk too many. -/
def behindStart : RaceState where
  chunkTable := Kv.empty.put ['c'] ⟨['c'], 2, ["n=a".toList, "m=b".toList], 2, .stable, [], 1⟩
  stores addr :=
    if addr = ['a'] then (ChunkStore.empty.write ['c'] 1 ['x']).write ['d'] 1 ['x']
    else if addr = ['b'] then ChunkStore.empty.write ['c'] 2 ['y']
    else .empty

theorem plainStore_empty : PlainStore .empty := fun _ _ h => by simp [ChunkStore.empty] at h

theorem behindStart_get {c : Str} {e : ChunkEntry} (h : behindStart.chunkTable.get c = some e) :
    c = ['c'] ∧ e = ⟨['c'], 2, ["n=a".toList, "m=b".toList], 2, .stable, [], 1⟩ := by
  rw [behindStart, Kv.get_put] at h
  split_ifs at h with hc
  · exact ⟨hc, (Option.some.inj h).symm⟩
  · simp at h

theorem behindStart_quiet : Quiet [nodeA, nodeB] behindStart where
  keyed c e he := by
    obtain ⟨rfl, rfl⟩ := behindStart_get he
    rfl
  ids c e he := by
    obtain ⟨rfl, -⟩ := behindStart_get he
    decide
  entries c e he := by
    obtain ⟨-, rfl⟩ := behindStart_get he
    decide
  names := by decide
  distinct := by decide
  plain addr := by
    simp only [behindStart]
    split_ifs
    · exact (plainStore_empty.write (by decide) (by decide)).write (by decide) (by decide)
    · exact plainStore_empty.write (by decide) (by decide)
    · exact plainStore_empty

/-- The pass of `n` fetches and removes; the one of `m` gets no answer. -/
def healTrace : List RepairStep :=
  [.beat nodeB true, .beat nodeA true, .hear nodeB true, .begin nodeB [['c']], .hear nodeA true,
    .info nodeB [] false, .begin nodeA [['c']], .info nodeA [] true, .compare nodeA,
    .fetch nodeA .answered, .fetch nodeA .answered, .scan nodeB [['c']], .store nodeA,
    .scan nodeA [['c'], ['d']], .remove nodeA, .remove nodeA, .finish nodeA, .remove nodeB]

instance (n : NodeConfig) : DecidablePred (Answered n)
  | .info m _ answered => if h : m = n → answered = true then isTrue h else isFalse h
  | .fetch m fate => if h : m = n → fate = .answered then isTrue h else isFalse h
  | .race _ _ | .beat _ _ | .hear _ _ | .begin _ _ | .compare _ | .store _ | .scan _ _ | .remove _
  | .finish _ => isTrue trivial

def healState : RepairState :=
  (repairs fun _ => ['c']).final (fun _ l => OfNodes [nodeA, nodeB] l ∧ Answered nodeA l)
    (.start behindStart) healTrace

theorem healState_reach :
    (repairs fun _ => ['c']).Run (fun _ l => OfNodes [nodeA, nodeB] l ∧ Answered nodeA l)
      (.start behindStart) healTrace healState :=
  Machine.run_final (by decide +kernel)

theorem repairs_lose_nothing_behind :
    (∀ n ∈ [nodeA, nodeB], ∀ c, Lists behindStart.chunkTable n.nodeId c → ∀ v d,
      (behindStart.stores n.address).stored c v = some d →
        (healState.race.stores n.address).stored c v = some d) ∧
    ∀ addr c v d, (healState.race.stores addr).stored c v = some d → Origin behindStart c v d :=
  repairs_lose_nothing behindStart_quiet (healState_reach.mono fun _ _ h => h.1)

theorem repairs_heal_behind :
    (.finish nodeA ∈ healTrace →
      Healed behindStart.chunkTable nodeA (healState.race.stores nodeA.address)) ∧
    ((∃ c, Lists behindStart.chunkTable nodeA.nodeId c) → ∃ tr' s',
      (repairs fun _ => ['c']).Run (fun _ l => l.node = some nodeA ∧ Answered nodeA l) healState tr' s' ∧
      Healed behindStart.chunkTable nodeA (s'.race.stores nodeA.address)) := by
  refine repairs_heal behindStart_quiet (by decide) (fun c hc => ?_) healState_reach
  obtain ⟨e, he, -⟩ := hc
  obtain ⟨rfl, rfl⟩ := behindStart_get he
  exact ⟨nodeB, by decide, ⟨_, he, by decide +kernel⟩, _, he, by decide +kernel⟩

end NimbusVault
