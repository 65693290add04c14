import NimbusVault.TargetSets

/-!
# ReplicaAdmin — AddReplica and RemoveReplica, one after the other

The two handlers whole: their checks, the driver's call, and the answer.  Called on a chunk one after
the other, whatever fails on the way, they are an append and an erasure on the list of its node ids:
the settled set of the chunk is made from the first one by the changes that were acknowledged, in
their order, and by no others (`replica_changes_acknowledged`).  A call that fails behind its START
entry leaves the chunk in transition to the set that it wanted, and nothing is acknowledged from then
on.
-/

namespace NimbusVault

open Lib

/-! ### The handlers -/

/-- A request for `AddReplica` or `RemoveReplica`. -/
inductive ReplicaChange
  | add (nodeId : Str)
  | remove (nodeId : Str)
  deriving DecidableEq

structure ReplicaChangeResp where
  ok : Bool
  error : Str := []
  deriving DecidableEq

structure ReplicaChangeResult where
  resp : ReplicaChangeResp
  chunkTable : ChunkTable
  stores : Stores

namespace ReplicaChange

/-- The checks of the handler; `leader` says that there are a log and a driver. -/
def ask (leader : Bool) (t : ChunkTable) (chunkId : Str) :
    ReplicaChange → Except Str ReconfigReq
  | .add nodeId => addReplica leader t chunkId nodeId
  | .remove nodeId => removeReplica leader t chunkId nodeId

def handle (leader : Bool) (w : PlacementView Float.Model) (t : ChunkTable) (ss : Stores) (chunkId : Str)
    (change : ReplicaChange) (env : ReconfigEnv) : ReplicaChangeResult :=
  match change.ask leader t chunkId with
  | .error error => ⟨{ ok := false, error }, t, ss⟩
  | .ok req =>
    let r := driverReconfig w t ss chunkId req env
    ⟨if r.ok then { ok := true } else { ok := false, error := "reconfig failed".toList },
      r.chunkTable, r.stores⟩

/-- What the request asks for, on the list of node ids. -/
def act : ReplicaChange → List Str → List Str
  | .add nodeId, ids => ids ++ [nodeId]
  | .remove nodeId, ids => ids.erase nodeId

end ReplicaChange

/-- The node ids of the replica entries. -/
def nodeIds (set : List Str) : List Str := set.map extractNodeId

/-! ### What the driver makes of a request -/

section Asked

variable {leader : Bool} {w : PlacementView Float.Model} {t : ChunkTable} {ss : Stores} {c : Str}
  {change : ReplicaChange} {req : ReconfigReq} {env : ReconfigEnv} {e : ChunkEntry}
  {old new : List Str}

/-- A request that passes the checks asks for as many replicas as its new list of ids has. -/
structure Asks (e : ChunkEntry) (change : ReplicaChange) (req : ReconfigReq) : Prop where
  newRf : req.newRf.toInt = (change.act (nodeIds e.replicaSet)).length
  ids : baseIds e.replicaSet req.mustInclude req.mustExclude = change.act (nodeIds e.replicaSet)
  nonempty : change.act (nodeIds e.replicaSet) ≠ []

/-- The loop over a set without repetitions takes it over, up to the excluded id. -/
theorem keptIds_of_nodup {excl : Str} (h : (nodeIds old).Nodup) :
    keptIds excl old = if excl = [] then nodeIds old else (nodeIds old).erase excl := by
  rw [keptIds_eq_foldl, ← nodeIds, foldl_pushNew_eq (h.filter _) (by simp), List.nil_append]
  split_ifs with hexcl
  · simp [hexcl, nodeIds]
  · rw [h.erase_eq_filter]
    exact List.filter_congr fun x _ => by by_cases hx : x = excl <;> simp [hx, hexcl]

theorem hasReplicaNode_iff {nodeId : Str} :
    hasReplicaNode e nodeId = true ↔ nodeId ∈ nodeIds e.replicaSet := by
  rw [hasReplicaNode, List.any_eq_true, nodeIds, List.mem_map]
  exact exists_congr fun x => and_congr_right fun _ => decide_eq_true_iff

theorem asks_of_ask (he : t.get c = some e) (hrs : ReplicaList e.replicaSet)
    (hlen : e.replicaSet.length + 1 < 2 ^ 31) (h : change.ask leader t c = .ok req) :
    Asks e change req := by
  have hids : (nodeIds e.replicaSet).length = e.replicaSet.length := List.length_map _
  cases change with
  | add nodeId =>
    change addReplica leader t c nodeId = .ok req at h
    unfold addReplica at h
    rw [he] at h
    dsimp only at h
    split_ifs at h with h1 h2 h3
    obtain rfl := Except.ok.inj h
    rw [hasReplicaNode_iff] at h3
    refine ⟨?_, ?_, by simp [ReplicaChange.act]⟩
    · have hrf : (Int32.ofNat e.replicaSet.length + 1).toInt = (e.replicaSet.length + 1 : ℕ) := by
        rw [← Int32.toInt_ofNat_of_lt hlen, Int32.ofNat_add]
        rfl
      rw [hrf, ReplicaChange.act, List.length_append, hids]
      rfl
    · rw [baseIds, if_pos h2, keptIds_of_nodup hrs.nodup, if_pos rfl, pushNew, if_neg h3]
      rfl
  | remove nodeId =>
    change removeReplica leader t c nodeId = .ok req at h
    unfold removeReplica at h
    rw [he] at h
    dsimp only at h
    split_ifs at h with h1 h2 h3 h4
    obtain rfl := Except.ok.inj h
    have hmem : nodeId ∈ nodeIds e.replicaSet :=
      hasReplicaNode_iff.mp (Bool.not_eq_false _ ▸ h4)
    have herase := List.length_erase_of_mem hmem
    refine ⟨?_, ?_, ?_⟩
    · have hrf : (Int32.ofNat e.replicaSet.length - 1).toInt = (e.replicaSet.length - 1 : ℕ) := by
        rw [← Int32.toInt_ofNat_of_lt (by omega), Int32.ofNat_sub _ _ (by omega)]
        rfl
      rw [hrf, ReplicaChange.act, herase, hids]
    · rw [baseIds, if_neg (by simp), keptIds_of_nodup hrs.nodup, if_neg h3]
      rfl
    · refine List.ne_nil_of_length_pos ?_
      rw [ReplicaChange.act, herase, hids]
      omega

/-- **The set of the START entry** is the one that was asked for. -/
theorem startSet_asked (he : t.get c = some e) (hrs : ReplicaList e.replicaSet)
    (hw : ∀ n ∈ w.entries, n.WellNamed) (hasks : Asks e change req)
    (h : startSet w t c req = some new) :
    e.configState = .stable ∧ ReplicaList new ∧
      nodeIds new = change.act (nodeIds e.replicaSet) ∧ new ≠ [] := by
  unfold startSet at h
  rw [he] at h
  dsimp only at h
  split_ifs at h with hst
  obtain ⟨hnew, hlen⟩ :=
    replicaList_reconfigTargets hw hrs.replica (selectsTargets w _ _ _ _) h
  have hids : nodeIds new = change.act (nodeIds e.replicaSet) := by
    have hbase := hasks.ids
    have hself : ∀ x ∈ change.act (nodeIds e.replicaSet), extractNodeId x = x := by
      intro x hx
      rw [← hbase] at hx
      rcases mem_baseIds.mp hx with hx | ⟨hincl, rfl⟩
      · exact (keptIds_spec hx).1
      · -- the included node is alive
        rw [driverTargets_eq] at h
        dsimp only at h
        by_cases hmem : req.mustInclude ∈ w.entries.map NodeEntry.nodeId
        · exact extractNodeId_eq_self_iff.mpr (isNodeId_of_mem hw hmem).2
        · rw [if_pos ⟨hincl, hmem⟩] at h
          simp at h
    rw [driverTargets_eq, hbase, hasks.newRf] at h
    dsimp only at h
    have hnone : w.select 0 (change.act (nodeIds e.replicaSet)) = [] :=
      List.length_eq_zero_iff.mp ((select_spec w 0 _).1.trans (Nat.zero_min _))
    split_ifs at h with h1 h2 h3 h4
    · omega
    · obtain rfl := Option.some.inj h
      rw [sub_self, hnone, List.append_nil, nodeIds, map_extractNodeId_entries]
      exact (List.map_congr_left hself).trans (List.map_id _)
  refine ⟨?_, hnew, hids, ?_⟩
  · cases hcs : e.configState with
    | stable => rfl
    | transitioning => exact absurd hcs hst
  · rintro rfl
    exact hasks.nonempty hids.symm

end Asked

/-! ### What a call does to its chunk -/

/-- The set of the last configuration that is settled. -/
def ChunkEntry.settled (e : ChunkEntry) : List Str :=
  if e.configState = .stable then e.replicaSet else e.oldReplicaSet

/-- The answer of a call on the chunk with the entry `e`, and the entry afterwards. -/
inductive ReplicaChange.Outcome (e : ChunkEntry) (change : ReplicaChange) :
    ReplicaChangeResp → ChunkEntry → Prop
  | refused {error : Str} : Outcome e change { ok := false, error } e
  | stuck {new : List Str} : e.configState = .stable → ReplicaList new →
      nodeIds new = change.act (nodeIds e.replicaSet) → new ≠ [] →
      Outcome e change { ok := false, error := "reconfig failed".toList }
        (ChunkTable.startEntry e.replicaSet new e)
  | done {new : List Str} : e.configState = .stable → ReplicaList new →
      nodeIds new = change.act (nodeIds e.replicaSet) → new ≠ [] →
      Outcome e change { ok := true }
        (ChunkTable.commitEntry new (ChunkTable.startEntry e.replicaSet new e))

section Call

variable {leader : Bool} {w : PlacementView Float.Model} {t : ChunkTable} {ss : Stores} {c : Str}
  {change : ReplicaChange} {env : ReconfigEnv} {e : ChunkEntry} {new : List Str}

/-- From its START entry on, a call settles the new set, or leaves the chunk on the way to it. -/
theorem reconfigFromStart_outcome (hc : TableOp.PlainId c) (he : t.get c = some e)
    (hcons : e.Consistent) (hnew : ReplicaList new) (hne : new ≠ []) :
    let r := reconfigFromStart t ss e c new env
    (r.ok = false ∧ r.chunkTable = t) ∨
    (r.ok = false ∧ r.chunkTable.get c = some (ChunkTable.startEntry e.replicaSet new e)) ∨
    (r.ok = true ∧ r.chunkTable.get c =
      some (ChunkTable.commitEntry new (ChunkTable.startEntry e.replicaSet new e))) := by
  have hstart : applyWalEntry t (startPayload c e.replicaSet new) =
      some (t.applyReconfigStart c e.replicaSet new) := by
    rw [applyWalEntry_startPayload hc.1 hc.2 hcons.nonempty hcons.replicas.isField hnew.isField,
      if_neg hne]
  have hget : (t.applyReconfigStart c e.replicaSet new).get c =
      some (ChunkTable.startEntry e.replicaSet new e) := by
    rw [ChunkTable.applyReconfigStart, Kv.get_alter_self, he]
    rfl
  unfold reconfigFromStart
  cases hq : env.startQuorum with
  | false => exact .inl ⟨rfl, rfl⟩
  | true =>
    refine .inr ?_
    have hwrite : metaWrite t (startPayload c e.replicaSet new) true =
        some (true, t.applyReconfigStart c e.replicaSet new) := by
      rw [metaWrite, if_pos rfl, hstart]
      rfl
    rw [hwrite]
    dsimp only
    set r := reconfigStarted (t.applyReconfigStart c e.replicaSet new) ss c e.version e.replicaSet
      new env with hr
    cases hok : r.ok with
    | false => exact .inl ⟨rfl, by rw [hr, reconfigStarted_failed (hr ▸ hok)]; exact hget⟩
    | true =>
      have hcommit := (reconfigStarted_true (hr ▸ hok)).1
      rw [applyWalEntry_commitPayload hc.1 hc.2 hnew.isField, if_neg hne, ← hr] at hcommit
      refine .inr ⟨rfl, ?_⟩
      rw [← Option.some.inj hcommit, ChunkTable.applyReconfigCommit, Kv.get_alter_self, hget]
      rfl

/-- **What a call does.** -/
theorem handle_outcome (hc : TableOp.PlainId c) (he : t.get c = some e) (hcons : e.Consistent)
    (hlen : e.replicaSet.length + 1 < 2 ^ 31) (hw : ∀ n ∈ w.entries, n.WellNamed) :
    ∃ e', (change.handle leader w t ss c env).chunkTable.get c = some e' ∧
      change.Outcome e (change.handle leader w t ss c env).resp e' := by
  unfold ReplicaChange.handle
  cases hask : change.ask leader t c with
  | error error => exact ⟨e, he, .refused⟩
  | ok req =>
    dsimp only
    cases hset : startSet w t c req with
    | none =>
      rw [driverReconfig_none hset]
      exact ⟨e, he, .refused⟩
    | some new =>
      obtain ⟨hst, hnew, hids, hne⟩ := startSet_asked he hcons.replicas hw
        (asks_of_ask he hcons.replicas hlen hask) hset
      obtain ⟨e', env', he', hrun⟩ := driverReconfig_some hset
      obtain rfl : e = e' := Option.some.inj (he.symm.trans he')
      rw [hrun]
      have hout := @reconfigFromStart_outcome t ss c env' e new hc he hcons hnew hne
      rcases hout with ⟨hok, htable⟩ | ⟨hok, hget⟩ | ⟨hok, hget⟩
      · rw [hok, htable]
        exact ⟨e, he, .refused⟩
      · rw [hok]
        exact ⟨_, hget, .stuck hst hnew hids hne⟩
      · rw [hok]
        exact ⟨_, hget, .done hst hnew hids hne⟩

/-- The entry stays consistent, and keeps its version and size. -/
theorem ReplicaChange.Outcome.consistent {resp : ReplicaChangeResp} {e' : ChunkEntry}
    (h : change.Outcome e resp e') (hcons : e.Consistent) (hlen : e.replicaSet.length + 1 < 2 ^ 31) :
    e'.Consistent ∧ e'.version = e.version ∧ e'.sizeBytes = e.sizeBytes ∧
      e'.replicaSet.length ≤ e.replicaSet.length + 1 := by
  have hle : ∀ {new}, nodeIds new = change.act (nodeIds e.replicaSet) →
      new.length ≤ e.replicaSet.length + 1 := by
    intro new hids
    have hmap : ∀ set, (nodeIds set).length = set.length := fun set => List.length_map _
    rw [← hmap new, hids, ← hmap e.replicaSet]
    cases change with
    | add nodeId => simp [ReplicaChange.act]
    | remove nodeId => exact List.length_erase_le.trans (Nat.le_succ _)
  cases h with
  | refused => exact ⟨hcons, rfl, rfl, Nat.le_succ _⟩
  | @stuck new _ hnew hids hne =>
    have hlt : new.length < 2 ^ 31 := (hle hids).trans_lt hlen
    exact ⟨⟨Int32.toInt_ofNat_of_lt hlt, hne, hnew,
      by simp [ChunkTable.startEntry, hcons.nonempty]⟩, rfl, rfl, hle hids⟩
  | @done new _ hnew hids hne =>
    have hlt : new.length < 2 ^ 31 := (hle hids).trans_lt hlen
    exact ⟨⟨Int32.toInt_ofNat_of_lt hlt, hne, hnew, by simp [ChunkTable.commitEntry]⟩, rfl, rfl,
      hle hids⟩

end Call

/-! ### Calls one after the other -/

/-- `answers` are those of the calls so far. -/
structure AdminState where
  chunkTable : ChunkTable
  stores : Stores
  answers : List (ReplicaChange × ReplicaChangeResp) := []

/-- A call on the chunk, or anything that leaves its entry alone. -/
inductive AdminStep
  | change (change : ReplicaChange) (w : PlacementView Float.Model) (env : ReconfigEnv)
  | elsewhere (t : ChunkTable) (ss : Stores)

def AdminState.step (leader : Bool) (c : Str) (s : AdminState) : AdminStep → Option AdminState
  | .change change w env =>
    let r := change.handle leader w s.chunkTable s.stores c env
    some ⟨r.chunkTable, r.stores, s.answers ++ [(change, r.resp)]⟩
  | .elsewhere t ss =>
    if t.get c = s.chunkTable.get c then some { s with chunkTable := t, stores := ss } else none

abbrev replicaCalls (leader : Bool) (c : Str) : Machine AdminState AdminStep :=
  .ofStep (AdminState.step leader c)

def AdminStep.WellNamed : AdminStep → Prop
  | .change _ w _ => ∀ n ∈ w.entries, n.WellNamed
  | .elsewhere .. => True

instance : DecidablePred AdminStep.WellNamed
  | .change _ w _ => inferInstanceAs (Decidable (∀ n ∈ w.entries, n.WellNamed))
  | .elsewhere .. => isTrue trivial

/-- The changes that were answered with success, in their order. -/
def acknowledged (answers : List (ReplicaChange × ReplicaChangeResp)) : List ReplicaChange :=
  (answers.filter (·.2.ok)).map Prod.fst

def ReplicaChange.actAll (changes : List ReplicaChange) (ids : List Str) : List Str :=
  changes.foldl (fun ids change => change.act ids) ids

/-- The last change that took effect without being acknowledged, with what came behind it. -/
structure Stuck (answers : List (ReplicaChange × ReplicaChangeResp)) (e : ChunkEntry) : Prop where
  split : ∃ before change after,
    answers = before ++ (change, { ok := false, error := "reconfig failed".toList }) :: after ∧
      nodeIds e.replicaSet = change.act (nodeIds e.settled) ∧ acknowledged after = []

/-- What the calls have made of the chunk, after `k` steps from the entry `e₀`. -/
structure AdminInv (e₀ : ChunkEntry) (k : ℕ) (answers : List (ReplicaChange × ReplicaChangeResp))
    (e : ChunkEntry) : Prop where
  consistent : e.Consistent
  version : e.version = e₀.version
  size : e.sizeBytes = e₀.sizeBytes
  length : e.replicaSet.length ≤ e₀.replicaSet.length + k
  settled : nodeIds e.settled =
    ReplicaChange.actAll (acknowledged answers) (nodeIds e₀.replicaSet)
  stuck : e.configState = .transitioning → Stuck answers e

section Runs

variable {leader : Bool} {c : Str} {t : ChunkTable} {ss : Stores} {e₀ e e' : ChunkEntry} {k : ℕ}
  {answers : List (ReplicaChange × ReplicaChangeResp)} {change : ReplicaChange}
  {resp : ReplicaChangeResp}

theorem acknowledged_concat : acknowledged (answers ++ [(change, resp)]) =
    acknowledged answers ++ if resp.ok then [change] else [] := by
  rw [acknowledged, List.filter_append, List.map_append]
  cases hok : resp.ok <;> simp [acknowledged, hok]

theorem AdminInv.outcome (hI : AdminInv e₀ k answers e) (hlen : e.replicaSet.length + 1 < 2 ^ 31)
    (h : change.Outcome e resp e') : AdminInv e₀ (k + 1) (answers ++ [(change, resp)]) e' := by
  obtain ⟨hcons, hversion, hsize, hle⟩ := h.consistent hI.consistent hlen
  refine ⟨hcons, hversion.trans hI.version, hsize.trans hI.size, ?_, ?_, ?_⟩
  · have hk := hI.length
    omega
  · rw [acknowledged_concat]
    cases h with
    | refused => simpa using hI.settled
    | stuck hst =>
      have hsettled := hI.settled
      rw [ChunkEntry.settled, if_pos hst] at hsettled
      simpa [ChunkEntry.settled, ChunkTable.startEntry] using hsettled
    | @done new hst _ hids =>
      have hsettled := hI.settled
      rw [ChunkEntry.settled, if_pos hst] at hsettled
      show nodeIds new = _
      rw [hids, hsettled, if_pos rfl, ReplicaChange.actAll, ReplicaChange.actAll, List.foldl_concat]
  · intro htr
    cases h with
    | @refused error =>
      obtain ⟨before, ch, after, hsplit, hids, hafter⟩ := (hI.stuck htr).split
      refine ⟨⟨before, ch, after ++ [(change, { ok := false, error })], ?_, hids, ?_⟩⟩
      · rw [hsplit, List.append_assoc, List.cons_append]
      · rw [acknowledged_concat, hafter]
        rfl
    | @stuck new hst _ hids =>
      refine ⟨⟨answers, change, [], rfl, ?_, rfl⟩⟩
      simpa [ChunkEntry.settled, ChunkTable.startEntry] using hids
    | done => simp [ChunkTable.commitEntry] at htr

/-- **What AddReplica and RemoveReplica acknowledge is what there is.**  In every run of calls on a
stable chunk, one after the other, with any failures in them and anything in between that leaves the
chunk's entry alone: the settled set lists the nodes of the first one, changed by the acknowledged
calls in their order.  The chunk is in transition only when a call has failed behind its START entry,
and then to the set that this call asked for; no later call is acknowledged.  The version and the size
do not change, and the entry stays consistent. -/
theorem replica_changes_acknowledged (hc : TableOp.PlainId c) (he : t.get c = some e₀)
    (hcons : e₀.Consistent) (hst : e₀.configState = .stable) {tr : List AdminStep} {s : AdminState}
    (h : (replicaCalls leader c).Run (fun _ a => a.WellNamed) { chunkTable := t, stores := ss } tr s)
    (hlen : e₀.replicaSet.length + tr.length < 2 ^ 31) :
    ∃ e, s.chunkTable.get c = some e ∧ e.Consistent ∧ e.version = e₀.version ∧
      e.sizeBytes = e₀.sizeBytes ∧
      nodeIds e.settled = ReplicaChange.actAll (acknowledged s.answers) (nodeIds e₀.replicaSet) ∧
      (e.configState = .transitioning → Stuck s.answers e) := by
  have hinv : e₀.replicaSet.length + tr.length < 2 ^ 31 →
      ∃ e, s.chunkTable.get c = some e ∧ AdminInv e₀ tr.length s.answers e := by
    refine h.trace_invariant (I := fun tr s => e₀.replicaSet.length + tr.length < 2 ^ 31 →
      ∃ e, s.chunkTable.get c = some e ∧ AdminInv e₀ tr.length s.answers e) (fun _ => ?_) ?_
    · refine ⟨e₀, he, hcons, rfl, rfl, le_refl _, ?_, fun htr => by simp [hst] at htr⟩
      rw [ChunkEntry.settled, if_pos hst]
      rfl
    · intro tr s a s' hI hs ha hlt
      rw [List.length_append, List.length_singleton] at hlt ⊢
      obtain ⟨e, hget, hI⟩ := hI (by omega)
      have hk := hI.length
      cases a with
      | change change w env =>
        obtain rfl := Option.some.inj hs
        have hcall := @handle_outcome leader w s.chunkTable s.stores c change env e hc hget
          hI.consistent (by omega) ha
        obtain ⟨e', hget', hout⟩ := hcall
        exact ⟨e', hget', hI.outcome (by omega) hout⟩
      | elsewhere t' ss' =>
        simp only [AdminState.step] at hs
        split_ifs at hs with hsame
        obtain rfl := Option.some.inj hs
        exact ⟨e, hsame.trans hget, hI.consistent, hI.version, hI.size, hk.trans (Nat.le_succ _),
          hI.settled, hI.stuck⟩
  obtain ⟨e, hget, hI⟩ := hinv hlen
  exact ⟨e, hget, hI.consistent, hI.version, hI.size, hI.settled, hI.stuck⟩

/-- `m` is added; the removal of `n` does not verify `m`, and `k` cannot be added any more. -/
def adminTrace : List AdminStep :=
  [.change (.add ['m']) trioView trioEnv,
    .change (.remove ['n']) trioView { trioEnv with verifies := fun _ => .unreached },
    .elsewhere (pairTable.put ['c'] ⟨['c'], 1, ["m=b".toList], 1, .transitioning,
      ["n=a".toList, "m=b".toList], 1⟩) trioStores,
    .change (.add ['k']) trioView trioEnv]

def adminState : AdminState :=
  (replicaCalls true ['c']).final (fun _ a => a.WellNamed)
    { chunkTable := pairTable, stores := trioStores } adminTrace

theorem adminState_reach : (replicaCalls true ['c']).Run (fun _ a => a.WellNamed)
    { chunkTable := pairTable, stores := trioStores } adminTrace adminState :=
  Machine.run_final (by decide +kernel)

example : adminState.answers.map (·.2.ok) = [true, false, false] := by decide +kernel

theorem replica_changes_acknowledged_stuck :
    ∃ e, adminState.chunkTable.get ['c'] = some e ∧ e.Consistent ∧
      e.version = pairEntry.version ∧ e.sizeBytes = pairEntry.sizeBytes ∧
      nodeIds e.settled =
        ReplicaChange.actAll (acknowledged adminState.answers) (nodeIds pairEntry.replicaSet) ∧
      (e.configState = .transitioning → Stuck adminState.answers e) :=
  replica_changes_acknowledged (by decide) (by decide +kernel)
    ⟨by decide, by decide, ⟨by decide, by decide⟩, by decide⟩ rfl adminState_reach (by decide)

end Runs

end NimbusVault
