import NimbusVault.Race
import NimbusVault.TableOp

/-!
# ReconfigRun — a reconfiguration as one call

`reconfig` is the driver's whole call on one chunk, from the read of the table to its COMMIT.  What
it cannot decide is its environment `ReconfigEnv`: who is alive at the three places where it asks,
what placement selects, the fate of every RPC, and whether the metadata quorum answers.  The
failures before the START entry leave the table alone; those behind it have no way back, so a failed
call leaves the chunk as it was exactly when its START entry did not take effect
(`reconfig_failed_iff`).
-/

namespace NimbusVault

open Lib

/-! ### Copying and verifying -/

/-- The loop of `copy_to_new_replicas` from the source `src`; `fates` are the fates of a
destination's fetch and write. -/
def copyReplicas (alive : List NodeEntry) (src : Str) (oldIds : List Str) (chunkId : Str)
    (version : UInt64) (fates : Str → RpcFate × RpcFate) : List Str → Stores → Bool × Stores
  | [], ss => (true, ss)
  | dst :: rest, ss =>
    if extractNodeId dst ∈ oldIds then
      copyReplicas alive src oldIds chunkId version fates rest ss
    else if src = [] ∨ resolveReplicaAddress alive dst = [] ∨ (fates dst).1 ≠ .answered then (false, ss)
    else match fetchChunk (ss src) chunkId version with
      | none => (false, ss)
      | some data =>
        match writeChunkToReplica ss (resolveReplicaAddress alive dst) chunkId version data
            (fates dst).2 with
        | (false, ss) => (false, ss)
        | (true, ss) => copyReplicas alive src oldIds chunkId version fates rest ss

def copyToNewReplicas (alive : List NodeEntry) (ss : Stores) (chunkId : Str) (version : UInt64)
    (oldSet newNodes : List Str) (fates : Str → RpcFate × RpcFate) : Bool × Stores :=
  if oldSet = [] then (true, ss)
  else copyReplicas alive (copySource alive oldSet) (oldSet.map extractNodeId) chunkId version fates
    newNodes ss

/-- A listed node answers a read of the chunk with a version of at least `version`. -/
def verifyReplica (alive : List NodeEntry) (ss : Stores) (chunkId : Str) (version : UInt64)
    (fates : Str → RpcFate) (entry : Str) : Bool :=
  let addr := resolveReplicaAddress alive entry
  let resp := readChunk (ss addr) chunkId version
  addr ≠ [] ∧ fates entry = .answered ∧ resp.ok = true ∧ ¬ resp.version < version

def verifyReplicas (alive : List NodeEntry) (ss : Stores) (chunkId : Str) (version : UInt64)
    (newNodes : List Str) (fates : Str → RpcFate) : Bool :=
  newNodes.all (verifyReplica alive ss chunkId version fates)

/-! ### The call -/

/-- What happens to a call from outside. -/
structure ReconfigEnv where
  alive : List NodeEntry
  aliveAtCopy : List NodeEntry
  aliveAtVerify : List NodeEntry
  selected : List Str
  startQuorum : Bool
  copies : Str → RpcFate × RpcFate
  verifies : Str → RpcFate
  commitQuorum : Bool

structure ReconfigResult where
  ok : Bool
  chunkTable : ChunkTable
  stores : Stores

/-- What follows the START entry. -/
def reconfigStarted (t : ChunkTable) (ss : Stores) (chunkId : Str) (version : UInt64)
    (oldSet newNodes : List Str) (env : ReconfigEnv) : ReconfigResult :=
  let copy := copyToNewReplicas env.aliveAtCopy ss chunkId version oldSet newNodes env.copies
  if copy.1 = false then ⟨false, t, copy.2⟩
  else if verifyReplicas env.aliveAtVerify copy.2 chunkId version newNodes env.verifies = false then
    ⟨false, t, copy.2⟩
  else match metaWrite t (commitPayload chunkId newNodes) env.commitQuorum with
    | some (true, t) => ⟨true, t, copy.2⟩
    | _ => ⟨false, t, copy.2⟩

def reconfig (t : ChunkTable) (ss : Stores) (chunkId : Str) (newRf : Int32)
    (mustInclude mustExclude : Str) (env : ReconfigEnv) : ReconfigResult :=
  match t.get chunkId with
  | none => ⟨false, t, ss⟩
  | some e =>
    if e.configState = .transitioning then ⟨false, t, ss⟩
    else match reconfigTargets env.alive e.replicaSet newRf.toInt mustInclude mustExclude
        env.selected with
      | none => ⟨false, t, ss⟩
      | some newNodes =>
        match metaWrite t (startPayload chunkId e.replicaSet newNodes) env.startQuorum with
        | some (true, t) => reconfigStarted t ss chunkId e.version e.replicaSet newNodes env
        | _ => ⟨false, t, ss⟩

/-! ### When a failed call has left the chunk alone -/

/-- Later puts and reconfigurations find the chunk as this call found it. -/
def ReconfigResult.Untouched (r : ReconfigResult) (t : ChunkTable) (chunkId : Str) : Prop :=
  r.chunkTable.get chunkId = t.get chunkId ∧ isTransitioning r.chunkTable chunkId = false

/-- The parser finds three parts in a START payload, and the chunk id in the first. -/
def StartReadsBack (chunkId : Str) (oldSet newNodes : List Str) : Prop :=
  chunkId ≠ [] ∧ '|' ∉ chunkId ∧
    2 ≤ (splitNonempty (encodeSet oldSet ++ '|' :: encodeSet newNodes) '|').length

/-- The call finds its targets, and the START entry reaches the quorum and is understood. -/
def ReconfigEnv.Starts (env : ReconfigEnv) (e : ChunkEntry) (chunkId : Str) (newRf : Int32)
    (mustInclude mustExclude : Str) : Prop :=
  env.startQuorum = true ∧ ∃ newNodes, StartReadsBack chunkId e.replicaSet newNodes ∧
    reconfigTargets env.alive e.replicaSet newRf.toInt mustInclude mustExclude env.selected =
      some newNodes

section Failure

variable {t t' : ChunkTable} {ss : Stores} {c incl excl : Str} {newRf : Int32} {env : ReconfigEnv}
  {e : ChunkEntry} {old new : List Str}

/-- A failed call does nothing to the table behind its START entry. -/
theorem reconfigStarted_failed {v : UInt64}
    (h : (reconfigStarted t ss c v old new env).ok = false) :
    (reconfigStarted t ss c v old new env).chunkTable = t := by
  unfold reconfigStarted at h ⊢
  dsimp only at h ⊢
  split_ifs at h ⊢
  · rfl
  · rfl
  · split at h
    · simp at h
    · rfl

/-- A START entry that reads back puts its chunk, if there is one, in transition. -/
theorem get_startPayload (hread : StartReadsBack c old new)
    (h : applyWalEntry t (startPayload c old new) = some t') :
    ∃ old' new', t'.get c = (t.get c).map (ChunkTable.startEntry old' new') := by
  obtain ⟨hc, hbar, hlen⟩ := hread
  obtain ⟨p1, p2, ps, hp⟩ :
      ∃ p1 p2 ps, splitNonempty (encodeSet old ++ '|' :: encodeSet new) '|' = p1 :: p2 :: ps := by
    rcases hs : splitNonempty (encodeSet old ++ '|' :: encodeSet new) '|' with _ | ⟨p1, _ | ⟨p2, ps⟩⟩
    · simp [hs] at hlen
    · simp [hs] at hlen
    · exact ⟨p1, p2, ps, rfl⟩
  simp only [startPayload, applyWalEntry, encodeReconfigStart, splitNonempty_field hbar hc, hp] at h
  obtain rfl := Option.some.inj h
  exact ⟨_, _, Kv.get_alter_self⟩

/-- Another START entry does nothing to the chunk it is meant for. -/
theorem get_startPayload_of_not (hread : ¬ StartReadsBack c old new)
    (h : applyWalEntry t (startPayload c old new) = some t') : t'.get c = t.get c := by
  by_cases hc : c = [] ∨ '|' ∈ c
  · exact applyWalEntry_get h (by simp [startPayload]) hc
  · obtain ⟨hne, hbar⟩ := not_or.mp hc
    have hlen : (splitNonempty (encodeSet old ++ '|' :: encodeSet new) '|').length < 2 :=
      not_le.mp fun hl => hread ⟨hne, hbar, hl⟩
    simp only [startPayload, applyWalEntry, encodeReconfigStart, splitNonempty_field hbar hne] at h
    rcases hs : splitNonempty (encodeSet old ++ '|' :: encodeSet new) '|' with _ | ⟨p1, _ | ⟨p2, ps⟩⟩
    · simp only [hs] at h
      rw [Option.some.inj h]
    · simp only [hs] at h
      rw [Option.some.inj h]
    · exact absurd hlen (by simp [hs])

/-- **When a failed call leaves the chunk as it was.** -/
theorem reconfig_failed_iff (he : t.get c = some e) (hst : e.configState = .stable)
    (hfail : (reconfig t ss c newRf incl excl env).ok = false) :
    (reconfig t ss c newRf incl excl env).Untouched t c ↔ ¬ env.Starts e c newRf incl excl := by
  have hkeep : ∀ t' : ChunkTable, t'.get c = t.get c →
      t'.get c = t.get c ∧ isTransitioning t' c = false := by
    intro t' h
    refine ⟨h, ?_⟩
    rw [isTransitioning, h, he]
    simp [hst]
  unfold reconfig at hfail ⊢
  simp only [he, hst, reduceCtorEq, if_false] at hfail ⊢
  cases htgt : reconfigTargets env.alive e.replicaSet newRf.toInt incl excl env.selected with
  | none =>
    refine iff_of_true (hkeep t rfl) ?_
    rintro ⟨-, new, -, h⟩
    rw [htgt] at h
    simp at h
  | some new =>
    simp only [htgt] at hfail ⊢
    have hstarts : env.Starts e c newRf incl excl ↔
        env.startQuorum = true ∧ StartReadsBack c e.replicaSet new := by
      unfold ReconfigEnv.Starts
      simp only [htgt, Option.some.injEq, exists_eq_right']
    rw [hstarts]
    cases hq : env.startQuorum with
    | false =>
      simp only [metaWrite, Bool.false_eq_true, if_false]
      exact iff_of_true (hkeep t rfl) (by simp)
    | true =>
      obtain ⟨t', ht'⟩ :=
        applyWalEntry_reconfig (e := startPayload c e.replicaSet new) t (.inl rfl)
      simp only [metaWrite, hq, if_true, ht', Option.map_some] at hfail ⊢
      unfold ReconfigResult.Untouched
      rw [reconfigStarted_failed hfail]
      by_cases hread : StartReadsBack c e.replicaSet new
      · refine iff_of_false ?_ (by simp [hread])
        rintro ⟨-, h⟩
        obtain ⟨old', new', hget⟩ := get_startPayload hread ht'
        rw [isTransitioning, hget, he] at h
        simp [ChunkTable.startEntry] at h
      · exact iff_of_true (hkeep t' (get_startPayload_of_not hread ht')) (by simp [hread])

/-! The chunk `c` at version 1 on the node `n`, and a call that is to move it to `m`. -/

def pairAlive : List NodeEntry :=
  [{ nodeId := ['n'], address := ['a'] }, { nodeId := ['m'], address := ['b'] }]

def pairEntry : ChunkEntry := ⟨['c'], 1, ["n=a".toList], 1, .stable, [], 1⟩

def pairTable : ChunkTable := Kv.empty.put ['c'] pairEntry

/-- Both log writes find their quorum, and `m` answers; `fetch` is what becomes of the copy. -/
def pairEnv (fetch : RpcFate) : ReconfigEnv where
  alive := pairAlive
  aliveAtCopy := pairAlive
  aliveAtVerify := pairAlive
  selected := [['m']]
  startQuorum := true
  copies := fun _ => (fetch, .answered)
  verifies := fun _ => .answered
  commitQuorum := true

def pairStores : Stores :=
  Function.update (fun _ => ChunkStore.empty) ['a'] (ChunkStore.empty.write ['c'] 1 ['x'])

theorem reconfig_failed_iff_pair :
    (reconfig pairTable pairStores ['c'] 2 [] [] (pairEnv .unreached)).Untouched pairTable ['c'] ↔
      ¬ (pairEnv .unreached).Starts pairEntry ['c'] 2 [] [] :=
  reconfig_failed_iff (by decide +kernel) rfl (by decide +kernel)

/-- The copy fails, and the chunk stays in transition. -/
theorem failed_copy_keeps_transition : ¬ ∀ t ss c newRf incl excl env e, t.get c = some e →
    e.configState = .stable →
      SelectsTargets env.alive e.replicaSet newRf.toInt incl excl env.selected →
        (reconfig t ss c newRf incl excl env).ok = false →
          (reconfig t ss c newRf incl excl env).chunkTable.get c = some e := by
  intro h
  have hget := h pairTable pairStores ['c'] 2 [] [] (pairEnv .unreached) pairEntry (by decide +kernel)
    rfl (by decide +kernel) (by decide +kernel)
  revert hget
  decide +kernel

end Failure

/-! ### What a successful call has done -/

/-- A replica entry `id` or `id=address` with an id, and without the separators of the payloads. -/
def IsReplica (entry : Str) : Prop := IsField entry ∧ extractNodeId entry ≠ []

instance (entry : Str) : Decidable (IsReplica entry) := inferInstanceAs (Decidable (_ ∧ _))

/-- A node id without the separators. -/
def IsNodeId (id : Str) : Prop := IsField id ∧ '=' ∉ id

/-- A list of replica entries, at most one for a node. -/
structure ReplicaList (rs : List Str) : Prop where
  replica : ∀ x ∈ rs, IsReplica x
  nodup : (rs.map extractNodeId).Nodup

/-- The listed node answers a read of the chunk with a version of at least `version`. -/
structure AnswersRead (env : ReconfigEnv) (ss : Stores) (chunkId : Str) (version : UInt64)
    (entry : Str) : Prop where
  addressed : resolveReplicaAddress env.aliveAtVerify entry ≠ []
  answered : env.verifies entry = .answered
  ok : (readChunk (ss (resolveReplicaAddress env.aliveAtVerify entry)) chunkId version).ok = true
  version_le : version ≤
    (readChunk (ss (resolveReplicaAddress env.aliveAtVerify entry)) chunkId version).version

section Success

variable {t t' : ChunkTable} {ss : Stores} {c incl excl id entry : Str} {newRf : Int32}
  {env : ReconfigEnv} {e : ChunkEntry} {alive : List NodeEntry}

theorem verifyReplica_eq_true {v : UInt64}
    (h : verifyReplica env.aliveAtVerify ss c v env.verifies entry = true) :
    AnswersRead env ss c v entry := by
  obtain ⟨h0, h1, h2, h3⟩ := of_decide_eq_true h
  exact ⟨h0, h1, h2, UInt64.not_lt.mp h3⟩

theorem extractNodeId_sublist (entry : Str) : extractNodeId entry <+: entry := by
  unfold extractNodeId splitEntry
  split_ifs
  · exact List.takeWhile_prefix _
  · exact List.prefix_rfl

theorem eq_not_mem_extractNodeId (entry : Str) : '=' ∉ extractNodeId entry := by
  unfold extractNodeId splitEntry
  split_ifs with h
  · intro hm
    have := List.mem_takeWhile_imp hm
    simp at this
  · exact h

theorem IsReplica.id_isField (h : IsReplica entry) : IsField (extractNodeId entry) := by
  obtain ⟨⟨-, hbar, hcomma⟩, hne⟩ := h
  have hsub := (extractNodeId_sublist entry).subset
  exact ⟨hne, fun hm => hbar (hsub hm), fun hm => hcomma (hsub hm)⟩

theorem extractNodeId_reconfigEntry (h : '=' ∉ id) : extractNodeId (reconfigEntry alive id) = id := by
  unfold reconfigEntry
  cases addressOf alive id with
  | none => simp [extractNodeId, splitEntry, h]
  | some addr => simp only [extractNodeId, splitEntry_pair h, Option.elim_some]

theorem isField_reconfigEntry (halive : ∀ n ∈ alive, n.WellNamed) (h : IsField id) :
    IsField (reconfigEntry alive id) := by
  unfold reconfigEntry addressOf
  cases hf : alive.find? (·.nodeId = id) with
  | none => exact h
  | some n =>
    have hid : n.nodeId = id := by simpa using List.find?_some hf
    have hn := (halive n (List.mem_of_find?_eq_some hf)).isField
    rwa [NodeEntry.entry, hid] at hn

theorem IsReplica.isNodeId (h : IsReplica entry) : IsNodeId (extractNodeId entry) :=
  ⟨h.id_isField, eq_not_mem_extractNodeId entry⟩

theorem isNodeId_of_mem (halive : ∀ n ∈ alive, n.WellNamed) (h : id ∈ alive.map NodeEntry.nodeId) :
    IsNodeId id := by
  obtain ⟨n, hn, rfl⟩ := List.mem_map.mp h
  have hw := halive n hn
  exact ⟨⟨hw.id_ne, hw.id_bar, hw.id_comma⟩, hw.id_eq⟩

/-- The entry of a node id is a replica entry of that node, whether or not the node is alive. -/
theorem IsNodeId.reconfigEntry (h : IsNodeId id) (halive : ∀ n ∈ alive, n.WellNamed) :
    IsReplica (reconfigEntry alive id) ∧ extractNodeId (reconfigEntry alive id) = id := by
  have hid : extractNodeId (NimbusVault.reconfigEntry alive id) = id :=
    extractNodeId_reconfigEntry h.2
  exact ⟨⟨isField_reconfigEntry halive h.1, hid.symm ▸ h.1.1⟩, hid⟩

theorem ReplicaList.isField {rs : List Str} (h : ReplicaList rs) : ∀ x ∈ rs, IsField x :=
  fun x hx => (h.replica x hx).1

/-- **The driver's targets**: one entry for each of as many nodes as asked for. -/
theorem replicaList_reconfigTargets (halive : ∀ n ∈ alive, n.WellNamed) {oldSet new selected : List Str}
    (hold : ∀ x ∈ oldSet, IsReplica x)
    (hsel : SelectsTargets alive oldSet newRf.toInt incl excl selected)
    (h : reconfigTargets alive oldSet newRf.toInt incl excl selected = some new) :
    ReplicaList new ∧ (new.length : ℤ) = newRf.toInt := by
  obtain ⟨ids, rfl, hnd, hlen, hmem⟩ := reconfigTargets_ids hsel h
  have hid : ∀ x ∈ ids, IsNodeId x := by
    intro x hx
    rcases hmem x hx with hx | hx
    · obtain ⟨y, hy, rfl⟩ := List.mem_map.mp hx
      exact (hold y hy).isNodeId
    · exact isNodeId_of_mem halive hx
  have hids : (ids.map (reconfigEntry alive)).map extractNodeId = ids := by
    rw [List.map_map]
    exact (List.map_congr_left fun x hx => ((hid x hx).reconfigEntry halive).2).trans
      (List.map_id ids)
  refine ⟨⟨fun e he => ?_, hids.symm ▸ hnd⟩, by rwa [List.length_map]⟩
  obtain ⟨x, hx, rfl⟩ := List.mem_map.mp he
  exact ((hid x hx).reconfigEntry halive).1

/-- Behind the START entry: every target verified, and the COMMIT entry applied. -/
theorem reconfigStarted_true {v : UInt64} {old new : List Str}
    (h : (reconfigStarted t ss c v old new env).ok = true) :
    applyWalEntry t (commitPayload c new) = some (reconfigStarted t ss c v old new env).chunkTable ∧
      ∀ entry ∈ new, AnswersRead env (reconfigStarted t ss c v old new env).stores c v entry := by
  unfold reconfigStarted at h ⊢
  dsimp only at h ⊢
  split_ifs at h ⊢ with h1 h2
  cases hm : metaWrite t (commitPayload c new) env.commitQuorum with
  | none => simp [hm] at h
  | some x =>
    obtain ⟨_ | _, t'⟩ := x
    · simp [hm] at h
    · refine ⟨(metaWrite_true hm).2, fun entry he => verifyReplica_eq_true ?_⟩
      exact List.all_eq_true.mp (Bool.not_eq_false _ ▸ h2) entry he

/-- **What a successful call went through.** -/
theorem reconfig_true (h : (reconfig t ss c newRf incl excl env).ok = true) :
    ∃ e new t₁, t.get c = some e ∧
      reconfigTargets env.alive e.replicaSet newRf.toInt incl excl env.selected = some new ∧
      applyWalEntry t (startPayload c e.replicaSet new) = some t₁ ∧
      applyWalEntry t₁ (commitPayload c new) =
        some (reconfig t ss c newRf incl excl env).chunkTable ∧
      ∀ entry ∈ new, AnswersRead env (reconfig t ss c newRf incl excl env).stores c e.version entry := by
  unfold reconfig at h ⊢
  cases he : t.get c with
  | none => simp [he] at h
  | some e =>
    simp only [he] at h ⊢
    split_ifs at h ⊢ with hst
    cases htgt : reconfigTargets env.alive e.replicaSet newRf.toInt incl excl env.selected with
    | none => simp [htgt] at h
    | some new =>
      simp only [htgt] at h ⊢
      cases hm : metaWrite t (startPayload c e.replicaSet new) env.startQuorum with
      | none => simp [hm] at h
      | some x =>
        obtain ⟨_ | _, t₁⟩ := x
        · simp [hm] at h
        · simp only [hm] at h ⊢
          exact ⟨e, new, t₁, rfl, htgt, (metaWrite_true hm).2, reconfigStarted_true h⟩

/-- **What a successful call leaves in the table.** -/
theorem reconfig_ok (hc : IsField c) (halive : ∀ n ∈ env.alive, n.WellNamed)
    (he : t.get c = some e) (hold : ∀ x ∈ e.replicaSet, IsReplica x) (hrf : 1 ≤ newRf.toInt)
    (hsel : SelectsTargets env.alive e.replicaSet newRf.toInt incl excl env.selected)
    (hok : (reconfig t ss c newRf incl excl env).ok = true) :
    ∃ e', (reconfig t ss c newRf incl excl env).chunkTable.get c = some e' ∧
      e'.configState = .stable ∧ e'.oldReplicaSet = [] ∧
      e'.replicationFactor = newRf ∧ (e'.replicaSet.length : ℤ) = newRf.toInt ∧
      (e'.replicaSet.map extractNodeId).Nodup ∧ e'.version = e.version ∧ e'.sizeBytes = e.sizeBytes ∧
      ∀ entry ∈ e'.replicaSet,
        AnswersRead env (reconfig t ss c newRf incl excl env).stores c e.version entry := by
  obtain ⟨e₀, new, t₁, he₀, htgt, hstart, hcommit, hread⟩ := reconfig_true hok
  obtain rfl : e₀ = e := Option.some.inj (he₀.symm.trans he)
  obtain ⟨hlist, hlen⟩ := replicaList_reconfigTargets halive hold hsel htgt
  have hne : new ≠ [] := by
    intro h
    have h0 : new.length = 0 := congrArg List.length h
    omega
  -- START sets the same fields as COMMIT, or is not understood at all
  have hget : ∃ e₁, t₁.get c = some e₁ ∧ e₁.version = e₀.version ∧ e₁.sizeBytes = e₀.sizeBytes := by
    by_cases ho : StartReadsBack c e₀.replicaSet new
    · obtain ⟨old', new', h⟩ := get_startPayload ho hstart
      exact ⟨ChunkTable.startEntry old' new' e₀, by rw [h, he₀]; rfl, rfl, rfl⟩
    · exact ⟨e₀, (get_startPayload_of_not ho hstart).trans he₀, rfl, rfl⟩
  obtain ⟨e₁, he₁, hv, hsz⟩ := hget
  rw [applyWalEntry_commitPayload hc.1 hc.2.1 hlist.isField, if_neg hne] at hcommit
  refine ⟨ChunkTable.commitEntry new e₁, ?_, rfl, rfl, ?_, hlen, hlist.nodup, hv, hsz, hread⟩
  · rw [← Option.some.inj hcommit]
    show (Kv.alter t₁ c _).get c = _
    rw [Kv.get_alter_self, he₁]
    rfl
  · show Int32.ofNat new.length = newRf
    rw [← Int32.ofInt_eq_ofNat, hlen, Int32.ofInt_toInt]

theorem reconfig_ok_pair :
    ∃ e', (reconfig pairTable pairStores ['c'] 2 [] [] (pairEnv .answered)).chunkTable.get ['c'] =
        some e' ∧
      e'.configState = .stable ∧ e'.oldReplicaSet = [] ∧
      e'.replicationFactor = 2 ∧ (e'.replicaSet.length : ℤ) = (2 : Int32).toInt ∧
      (e'.replicaSet.map extractNodeId).Nodup ∧ e'.version = pairEntry.version ∧
      e'.sizeBytes = pairEntry.sizeBytes ∧
      ∀ entry ∈ e'.replicaSet, AnswersRead (pairEnv .answered)
        (reconfig pairTable pairStores ['c'] 2 [] [] (pairEnv .answered)).stores ['c']
        pairEntry.version entry :=
  reconfig_ok (by decide) (by decide) (by decide +kernel) (by decide +kernel) (by decide)
    (by decide +kernel) (by decide +kernel)

end Success

end NimbusVault
