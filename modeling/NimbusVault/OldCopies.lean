import NimbusVault.StaleLists

/-!
# OldCopies — a repair pass against a reconfiguration

START replaces the chunk's replica set by the new one and keeps the old one aside for readers, but
the leader's assignment lists go by the replica set alone.  A node that only the old set names gets
a list without the chunk from then on, and its next pass removes the copy that readers fall back to.
A list from before the chunk came to the node does the same.  `keepsOld_iff_run` says that these are
the only ways, up to the range of a delete, from any state that puts, reconfigurations, heartbeats
and passes reach.
-/

namespace NimbusVault

open Lib ChunkStore

/-! ### What the log entries of a reconfiguration say -/

section Entries

variable {c : Str} {old new : List Str} {op : TableOp}

/-- **START names the chunk and the old set**, or is too short and ignored. -/
theorem startPayload_op (hc : c ≠ []) (hbar : '|' ∉ c) (ho : ∀ x ∈ old, IsField x)
    (hn : ∀ x ∈ new, '|' ∉ x) (h : (startPayload c old new).op = some op) :
    ∃ new', op = .start c old new' := by
  have hold : '|' ∉ encodeSet old := encodeSet_bar fun x hx => (ho x hx).2.1
  have hsplit : splitNonempty (startPayload c old new).payload '|' =
      c :: ((if encodeSet old = [] then [] else [encodeSet old]) ++
        splitNonempty (encodeSet new) '|') := by
    show splitNonempty (encodeReconfigStart c old new) '|' = _
    rw [encodeReconfigStart, splitNonempty_field hbar hc, splitNonempty_cons hold]
  have hsets : splitNonempty (encodeSet old) ',' = old :=
    splitNonempty_flatMap fun x hx => ⟨(ho x hx).1, (ho x hx).2.2⟩
  unfold WalEntry.op decodeEntry at h
  dsimp only [startPayload] at h hsplit
  rw [hsplit] at h
  by_cases he : old = []
  · -- without old nodes there are at most two parts
    subst he
    have hnew : '|' ∉ encodeSet new := encodeSet_bar hn
    by_cases hnil : encodeSet new = []
    · have hempty : splitNonempty [] '|' = [] := rfl
      rw [hnil, hempty] at h
      simp [encodeSet] at h
    · rw [splitNonempty_last hnew hnil] at h
      simp [encodeSet] at h
  · rw [if_neg (encodeSet_ne_nil he)] at h
    cases hrest : splitNonempty (encodeSet new) '|' with
    | nil => simp [hrest] at h
    | cons p ps =>
      rw [hrest] at h
      simp only [List.cons_append, List.nil_append, Option.join_some, Option.some.injEq, hsets] at h
      exact ⟨_, h.symm⟩

/-- **COMMIT names the chunk**, or is too short and ignored. -/
theorem commitPayload_op (hc : c ≠ []) (hbar : '|' ∉ c) (h : (commitPayload c new).op = some op) :
    ∃ new', op = .commit c new' := by
  have hsplit : splitNonempty (commitPayload c new).payload '|' =
      c :: splitNonempty (encodeSet new) '|' := by
    show splitNonempty (encodeReconfigCommit c new) '|' = _
    rw [encodeReconfigCommit, splitNonempty_field hbar hc]
  unfold WalEntry.op decodeEntry at h
  dsimp only [commitPayload] at h hsplit
  rw [hsplit] at h
  cases hrest : splitNonempty (encodeSet new) '|' with
  | nil => simp [hrest] at h
  | cons p ps =>
    rw [hrest] at h
    simp only [Option.join_some, Option.some.injEq] at h
    exact ⟨_, h.symm⟩

end Entries

/-! ### One run of the driver -/

/-- A step of the reconfiguration `j`, or of a storage node's loops. -/
def RepairStep.OfReconfig (j : ℕ) : RepairStep → Prop
  | .race _ a => a.index = j ∧ ¬ a.OfPut
  | _ => True

instance (j : ℕ) : DecidablePred (RepairStep.OfReconfig j)
  | .race _ a => @instDecidableAnd _ _ (Nat.decEq a.index j) instDecidableNot
  | .beat .. => isTrue trivial
  | .hear .. => isTrue trivial
  | .begin .. => isTrue trivial
  | .info .. => isTrue trivial
  | .compare _ => isTrue trivial
  | .fetch .. => isTrue trivial
  | .store _ => isTrue trivial
  | .scan .. => isTrue trivial
  | .remove _ => isTrue trivial
  | .finish _ => isTrue trivial

/-- Only the START has been applied, with the replica set of the chunk as its old set. -/
def Started (t : ChunkTable) (c : Str) (ops : List TableOp) : Prop :=
  ∃ e new, t.get c = some e ∧ ops = [.start c e.replicaSet new]

/-- What the run has applied to the table `t` of its beginning. -/
def RunApplied (t : ChunkTable) (c : Str) (ops : List TableOp) : ReconfigPhase → Prop
  | .targeted => ops = []
  | .finished _ => ops = [] ∨ Started t c ops ∨ ∃ ops' new, ops = ops' ++ [.commit c new]
  | _ => ops = [] ∨ Started t c ops

/-- How far the run has got, what it has computed, and what it has applied. -/
structure RunInv (j : ℕ) (t : ChunkTable) (c : Str) (r : RaceState) (ops : List TableOp) : Prop where
  fresh : r.reconfigs j = none → ops = []
  applied : ∀ call, r.reconfigs j = some call → RunApplied t c ops call.phase
  targets : ∀ old v new, r.reconfigs j = some ⟨old, v, new, .targeted⟩ →
    (∃ e, t.get c = some e ∧ old = e.replicaSet) ∧ ∀ x ∈ new, '|' ∉ x

section Run

variable {cl : Cluster} {j : ℕ} {c : Str} {t : ChunkTable} {r r' : RaceState} {a : RaceStep}
  {ops : List TableOp}

/-- **A reconfiguration applies START or COMMIT.** -/
theorem loggedOp_cases (ha : ¬ a.OfPut) {op : TableOp} (h : r.loggedOp c a = some op) :
    (∃ i old v new, a = .start i true ∧ r.reconfigs i = some ⟨old, v, new, .targeted⟩ ∧
      (startPayload c old new).op = some op) ∨
    ∃ i old v new verified, a = .commit i true ∧
      r.reconfigs i = some ⟨old, v, new, .verifying verified []⟩ ∧
      (commitPayload c new).op = some op := by
  obtain ⟨e, he, hop⟩ := Option.bind_eq_some_iff.mp h
  cases a with
  | start j quorum =>
    cases quorum with
    | false => simp [RaceState.logged] at he
    | true =>
      simp only [RaceState.logged] at he
      split at he
      · rename_i hj
        obtain rfl := Option.some.inj he
        exact .inl ⟨_, _, _, _, rfl, hj, hop⟩
      · simp at he
  | commit j quorum =>
    cases quorum with
    | false => simp [RaceState.logged] at he
    | true =>
      simp only [RaceState.logged] at he
      split at he
      · rename_i hj
        obtain rfl := Option.some.inj he
        exact .inr ⟨_, _, _, _, _, rfl, hj, hop⟩
      · simp at he
  | log => exact absurd trivial ha
  | _ => simp [RaceState.logged] at he

theorem RunApplied.running {phase : ReconfigPhase} (h : ops = [] ∨ Started t c ops)
    (hp : phase ≠ .targeted) : RunApplied t c ops phase := by
  cases phase with
  | targeted => exact absurd rfl hp
  | finished ok => exact h.imp_right .inl
  | copying todo fetched => exact h
  | verifying verified todo => exact h

theorem reconfigs_setReconfig (call : ReconfigCall) (j : ℕ) :
    (r.setReconfig j call).reconfigs j = some call := by
  show Function.update r.reconfigs j (some call) j = some call
  rw [Function.update_self]

/-- The run goes on behind its targets. -/
theorem RunInv.set {call : ReconfigCall} (h : RunApplied t c ops call.phase)
    (hp : call.phase ≠ .targeted) : RunInv j t c (r.setReconfig j call) ops := by
  refine ⟨fun hnone => ?_, fun call' h' => ?_, fun old v new h' => ?_⟩
  · rw [reconfigs_setReconfig] at hnone
    simp at hnone
  · rw [reconfigs_setReconfig] at h'
    obtain rfl := Option.some.inj h'
    exact h
  · rw [reconfigs_setReconfig] at h'
    obtain rfl := Option.some.inj h'
    exact absurd rfl hp

/-- The log write of the targets applies nothing or the START. -/
theorem RunInv.start_applied (hI : RunInv j t c r ops) (hf : t.Fields) (hc : c ≠ []) (hbar : '|' ∉ c)
    {old new : List Str} {v : UInt64} (hj : r.reconfigs j = some ⟨old, v, new, .targeted⟩) (q : Bool) :
    ops ++ (r.loggedOp c (.start j q)).toList = [] ∨
      Started t c (ops ++ (r.loggedOp c (.start j q)).toList) := by
  obtain ⟨⟨e, he, rfl⟩, hnew⟩ := hI.targets old v new hj
  have hops : ops = [] := hI.applied _ hj
  cases hop : r.loggedOp c (.start j q) with
  | none => exact .inl (by rw [hops]; rfl)
  | some op =>
    rcases loggedOp_cases id hop with ⟨j, old', v', new', ha, hj', hpay⟩ | ⟨j, _, _, _, _, ha, -, -⟩
    · obtain ⟨rfl, -⟩ := RaceStep.start.inj ha
      rw [hj] at hj'
      obtain ⟨rfl, -, rfl, -⟩ := ReconfigCall.mk.inj (Option.some.inj hj')
      obtain ⟨new', rfl⟩ := startPayload_op hc hbar (hf c e he) hnew hpay
      exact .inr ⟨e, new', he, by rw [hops]; rfl⟩
    · simp at ha

/-- The log write of the verified targets applies nothing or the COMMIT. -/
theorem RunInv.commit_applied (hI : RunInv j t c r ops) (hc : c ≠ []) (hbar : '|' ∉ c)
    {old new verified : List Str} {v : UInt64}
    (hj : r.reconfigs j = some ⟨old, v, new, .verifying verified []⟩) (q : Bool) :
    RunApplied t c (ops ++ (r.loggedOp c (.commit j q)).toList) (.finished true) := by
  have happ : ops = [] ∨ Started t c ops := hI.applied _ hj
  cases hop : r.loggedOp c (.commit j q) with
  | none =>
    rw [Option.toList_none, List.append_nil]
    exact happ.imp_right .inl
  | some op =>
    rcases loggedOp_cases id hop with ⟨j, _, _, _, ha, -, -⟩ | ⟨j, _, _, new', _, ha, -, hpay⟩
    · simp at ha
    · obtain ⟨new'', rfl⟩ := commitPayload_op hc hbar hpay
      exact .inr (.inr ⟨ops, new'', rfl⟩)

/-- The begin applies nothing, and its targets are free of the field separator. -/
theorem RunInv.begin (hI : RunInv j t c r ops)
    (htable : r.chunkTable = ops.foldl (fun t op => op.apply t) t) (hf : t.Fields)
    (hj : r.reconfigs j = none) {newRf : Int32} {incl excl : Str} {selected : List Str}
    (hsel : ∀ e ∈ r.chunkTable.get c,
      SelectsTargets cl.nodes e.replicaSet newRf.toInt incl excl selected) :
    RunInv j t c (r.setReconfig j (reconfigBegin cl r.chunkTable c newRf incl excl selected)) ops := by
  have hops : ops = [] := hI.fresh hj
  subst hops
  rcases reconfigBegin_cases cl r.chunkTable c newRf incl excl selected with
    hbegin | ⟨e, new, he, -, hnew, hbegin⟩
  · rw [hbegin]
    exact .set (.inl rfl) (by simp)
  · have hget : t.get c = some e := by rwa [htable] at he
    have hbars := reconfigTargets_bar (fun x hx => (hf c e hget x hx).2.1) (hsel e he) hnew
    rw [hbegin]
    refine ⟨fun _ => rfl, fun call hcall => ?_, fun old v new' hcall => ?_⟩
    · rw [reconfigs_setReconfig] at hcall
      obtain rfl := Option.some.inj hcall
      exact rfl
    · rw [reconfigs_setReconfig] at hcall
      obtain ⟨rfl, -, rfl, -⟩ := ReconfigCall.mk.inj (Option.some.inj hcall)
      exact ⟨⟨e, hget, rfl⟩, hbars⟩

/-- The copies and the verification log nothing. -/
theorem loggedOp_eq_none (hstart : ∀ j q, a ≠ .start j q) (hcommit : ∀ j q, a ≠ .commit j q)
    (ha : ¬ a.OfPut) : ops ++ (r.loggedOp c a).toList = ops := by
  cases hop : r.loggedOp c a with
  | none => simp
  | some op =>
    rcases loggedOp_cases ha hop with ⟨j, _, _, _, he, -⟩ | ⟨j, _, _, _, _, he, -⟩
    · exact absurd he (hstart j true)
    · exact absurd he (hcommit j true)

/-- **A step of the run keeps the invariant.** -/
theorem RunInv.step (hI : RunInv j t c r ops)
    (htable : r.chunkTable = ops.foldl (fun t op => op.apply t) t) (hf : t.Fields) (hc : c ≠ [])
    (hbar : '|' ∉ c) (h0 : a.index = j) (ha : ¬ a.OfPut) (h : r.step cl c a = some r') :
    RunInv j t c r' (ops ++ (r.loggedOp c a).toList) := by
  cases RaceState.step_fires h with
  | check => exact absurd trivial ha
  | place => exact absurd trivial ha
  | write => exact absurd trivial ha
  | log => exact absurd trivial ha
  | undo => exact absurd trivial ha
  | @begin i _ _ _ _ hj hsel =>
    obtain rfl : i = j := h0
    rw [loggedOp_eq_none (by simp) (by simp) ha]
    exact hI.begin htable hf hj hsel
  | @startFailed i q _ _ _ hj =>
    obtain rfl : i = j := h0
    exact .set (.running (hI.start_applied hf hc hbar hj q) (by simp)) (by simp)
  | @start i q _ _ _ _ hj _ =>
    obtain rfl : i = j := h0
    exact .set (.running (hI.start_applied hf hc hbar hj q) (by simp)) (by simp)
  | @fetch i _ _ _ _ _ _ hj =>
    obtain rfl : i = j := h0
    rw [loggedOp_eq_none (by simp) (by simp) ha]
    have happ : ops = [] ∨ Started t c ops := hI.applied _ hj
    generalize hp : ReconfigCall.fetch _ _ _ _ _ _ _ = phase
    rcases ReconfigCall.fetch_cases hp with rfl | ⟨todo', fetched, rfl⟩
    · exact .set (.running happ (by simp)) (by simp)
    · exact .set happ (by simp)
  | @copy i _ _ _ _ _ _ _ phase hj hphase =>
    obtain rfl : i = j := h0
    rw [loggedOp_eq_none (by simp) (by simp) ha]
    have happ : ops = [] ∨ Started t c ops := hI.applied _ hj
    rcases hphase with rfl | rfl
    · exact .set happ (by simp)
    · exact .set (.running happ (by simp)) (by simp)
  | @copied i _ _ _ hj =>
    obtain rfl : i = j := h0
    rw [loggedOp_eq_none (by simp) (by simp) ha]
    exact .set (.running (hI.applied _ hj) (by simp)) (by simp)
  | @verify i _ _ _ _ _ _ _ hj =>
    obtain rfl : i = j := h0
    rw [loggedOp_eq_none (by simp) (by simp) ha]
    have happ : ops = [] ∨ Started t c ops := hI.applied _ hj
    generalize hp : ReconfigCall.verify _ _ _ _ _ _ _ _ = phase
    rcases ReconfigCall.verify_cases hp rfl with rfl | ⟨rfl, -⟩
    · exact .set (.running happ (by simp)) (by simp)
    · exact .set happ (by simp)
  | @commitFailed i q _ _ _ _ hj =>
    obtain rfl : i = j := h0
    exact .set (hI.commit_applied hc hbar hj q) (by simp)
  | @commit i _ _ _ _ _ hj _ =>
    obtain rfl : i = j := h0
    exact .set (hI.commit_applied hc hbar hj true) (by simp)

end Run

/-! ### Removals at the old nodes

The reconfiguration `j` runs on the chunk `chunkOf j`, from a state in which `k` operations have been
applied to the table `t₀` of the beginning. -/

/-- The run's START has been applied, its COMMIT has not, and the old set names the node. -/
def OldHolder (k : ℕ) (c : Str) (s : RepairState) (nodeId : Str) : Prop :=
  (∃ old new, TableOp.start c old new ∈ s.applied.drop k) ∧ ∃ e, s.race.chunkTable.get c = some e ∧
    e.configState = .transitioning ∧ nodeId ∈ e.oldReplicaSet.map extractNodeId

/-- The removal takes a version of the chunk from an old node. -/
def TakesOldCopy (chunkOf : ℕ → Str) (j k : ℕ) (s : RepairState) : RepairStep → Prop
  | .remove n => ∃ s' v, s.step chunkOf (.remove n) = some s' ∧ OldHolder k (chunkOf j) s n.nodeId ∧
      ((s.race.stores n.address).stored (chunkOf j) v).isSome = true ∧
      (s'.race.stores n.address).stored (chunkOf j) v = none
  | _ => False

/-- The leader computed the list behind the START, and the new set leaves the node out; or before
the START, when the table did not list the node for the chunk. -/
def Misses (t₀ : ChunkTable) (k : ℕ) (c : Str) (s : RepairState) (nodeId : Str) (seen : ℕ) : Prop :=
  ((∃ old new, TableOp.start c old new ∈ (s.applied.take seen).drop k) ∧
      ¬ Lists s.race.chunkTable nodeId c) ∨
    (seen ≤ k ∧ ¬ Lists (s.tableAt t₀ seen) nodeId c)

/-- A pass of an old node visits the chunk with a list that misses it; or the range of a delete
covers the chunk. -/
def VisitsMissed (t₀ : ChunkTable) (k : ℕ) (c : Str) (s : RepairState) : RepairStep → Prop
  | .remove n => ∃ a h d todo, (s.procs n).pass = some ⟨a, h, .removing (d :: todo)⟩ ∧
      OldHolder k c s n.nodeId ∧
      ((d = c ∧ Misses t₀ k c s n.nodeId a.seen ∧
          ∃ v, ((s.race.stores n.address).stored c v).isSome = true) ∨
        (d ≠ c ∧ d ∉ a.ids ∧
          ∃ v, Covers d c v ∧ ((s.race.stores n.address).stored c v).isSome = true))
  | _ => False

section Removals

variable {chunkOf : ℕ → Str} {j k : ℕ} {c : Str} {t₀ t : ChunkTable} {r : RaceState}
  {s s₀ s' : RepairState} {l : RepairStep} {n : NodeConfig}

/-- A logged operation names a chunk that the payloads can carry. -/
theorem chunkId_of_loggedOp {a : RaceStep} {op : TableOp} (h : r.loggedOp c a = some op) :
    op.chunkId ≠ [] ∧ '|' ∉ op.chunkId := by
  obtain ⟨e, he, hop⟩ := Option.bind_eq_some_iff.mp h
  refine decodeEntry_chunkId (Option.join_eq_some_iff.mp hop) ?_
  unfold RaceState.logged at he
  split at he
  · split at he
    · split_ifs at he
      obtain rfl := Option.some.inj he
      simp [putPayload]
    · simp at he
  · split at he
    · obtain rfl := Option.some.inj he
      simp [startPayload]
    · simp at he
  · split at he
    · obtain rfl := Option.some.inj he
      simp [commitPayload]
    · simp at he
  · simp at he

theorem fields_of_loggedOp {a : RaceStep} {op : TableOp} (h : r.loggedOp c a = some op) :
    op.Fields := by
  obtain ⟨e, -, hop⟩ := Option.bind_eq_some_iff.mp h
  exact decodeEntry_fields (Option.join_eq_some_iff.mp hop)

/-- **The table of a run is as a log makes it**, when the table of its beginning is. -/
theorem wf_of_run (h₀ : r.chunkTable.Keyed ∧ r.chunkTable.Fields) {ok : RepairState → RepairStep → Prop}
    {tr : List RepairStep} (h : (repairs chunkOf).Run ok (.start r) tr s) :
    s.race.chunkTable.Keyed ∧ s.race.chunkTable.Fields := by
  refine h.invariant_step (I := fun s => s.race.chunkTable.Keyed ∧ s.race.chunkTable.Fields) h₀
    fun s l s' hI hs _ => ?_
  rcases RepairState.step_cases hs with ⟨cl, a, r', rfl, hr, rfl⟩ | ⟨-, hloop⟩
  · show r'.chunkTable.Keyed ∧ r'.chunkTable.Fields
    rw [RaceState.table_of_step hr]
    cases hop : s.race.loggedOp (chunkOf a.index) a with
    | none => exact hI
    | some op => exact ⟨op.keyed_apply hI.1, op.fields_apply (fields_of_loggedOp hop) hI.2⟩
  · rw [hloop.table]
    exact hI

/-- What holds along the run of one reconfiguration, which began with the table `t`. -/
structure OldCopiesInv (t₀ t : ChunkTable) (chunkOf : ℕ → Str) (j k : ℕ) (s : RepairState) : Prop where
  lists : ListInv t₀ s
  begun : k ≤ s.applied.length
  table : s.race.chunkTable = (s.applied.drop k).foldl (fun t op => op.apply t) t
  names : ∀ op ∈ s.applied.drop k, op.chunkId ≠ [] ∧ '|' ∉ op.chunkId
  run : chunkOf j ≠ [] → '|' ∉ chunkOf j → RunInv j t (chunkOf j) s.race (s.applied.drop k)

/-- The chunk that a START has named is one that the payloads can carry. -/
theorem OldCopiesInv.runInv (hI : OldCopiesInv t₀ t chunkOf j k s)
    (h : OldHolder k (chunkOf j) s n.nodeId) :
    RunInv j t (chunkOf j) s.race (s.applied.drop k) := by
  obtain ⟨⟨old, new, hmem⟩, -⟩ := h
  obtain ⟨hc, hbar⟩ := hI.names _ hmem
  exact hI.run hc hbar

/-- An old node held the chunk at the beginning, and the run has applied its START only. -/
theorem OldHolder.started (h : OldHolder k (chunkOf j) s n.nodeId)
    (hI : OldCopiesInv t₀ t chunkOf j k s) :
    Started t (chunkOf j) (s.applied.drop k) ∧ Lists t n.nodeId (chunkOf j) := by
  have hrun := hI.runInv h
  obtain ⟨⟨old, new, hmem⟩, e, he, hst, hid⟩ := h
  have hne : s.applied.drop k ≠ [] := List.ne_nil_of_mem hmem
  have hstarted : Started t (chunkOf j) (s.applied.drop k) := by
    cases hj : s.race.reconfigs j with
    | none => exact absurd (hrun.fresh hj) hne
    | some call =>
      have happ := hrun.applied call hj
      cases hphase : call.phase with
      | targeted =>
        rw [hphase] at happ
        exact absurd happ hne
      | copying todo fetched =>
        rw [hphase] at happ
        exact happ.resolve_left hne
      | verifying verified todo =>
        rw [hphase] at happ
        exact happ.resolve_left hne
      | finished ok =>
        rw [hphase] at happ
        rcases happ with happ | happ | ⟨ops, new', happ⟩
        · exact absurd happ hne
        · exact happ
        · -- behind a COMMIT the chunk is stable
          rw [hI.table, happ, List.foldl_concat, TableOp.apply] at he
          have hget := Kv.get_alter_self.symm.trans he
          obtain ⟨e', -, rfl⟩ := Option.map_eq_some_iff.mp hget
          simp [ChunkTable.commitEntry] at hst
  refine ⟨hstarted, ?_⟩
  obtain ⟨e₀, new', he₀, happ⟩ := hstarted
  rw [hI.table, happ] at he
  have hget := Kv.get_alter_self.symm.trans he
  obtain ⟨e', he', rfl⟩ := Option.map_eq_some_iff.mp hget
  exact ⟨e₀, he₀, hid⟩

/-- **The lists of the old nodes.**  During the transition, exactly these lists lack the chunk. -/
theorem OldHolder.missing_iff (h : OldHolder k (chunkOf j) s n.nodeId)
    (hI : OldCopiesInv t₀ t chunkOf j k s) (ht : t₀.Keyed) {a : Assignment}
    (ha : (s.procs n).Has a) (hne : a.ids ≠ []) :
    chunkOf j ∉ a.ids ↔ Misses t₀ k (chunkOf j) s n.nodeId a.seen := by
  obtain ⟨⟨e, new, he, happ⟩, -⟩ := h.started hI
  obtain ⟨hseen, hids⟩ := hI.lists.lists n a ha
  have hlen : s.applied.length = k + 1 := by
    have hdrop := congrArg List.length happ
    rw [List.length_drop, List.length_singleton] at hdrop
    omega
  rw [hids.resolve_left hne, mem_assignedChunkIds (keyed_tableAt ht a.seen), Misses]
  rcases Nat.lt_or_ge k a.seen with hlate | hearly
  · -- the list was computed behind the START, from the table of now
    have htake : s.applied.take a.seen = s.applied := List.take_of_length_le (by omega)
    have hstart : ∃ old new, TableOp.start (chunkOf j) old new ∈ s.applied.drop k :=
      ⟨_, _, happ ▸ List.mem_singleton_self _⟩
    rw [RepairState.tableAt, htake, ← hI.lists.table]
    constructor
    · exact fun hl => .inl ⟨hstart, hl⟩
    · rintro (⟨-, hl⟩ | ⟨hle, -⟩)
      · exact hl
      · omega
  · constructor
    · exact fun hl => .inr ⟨hearly, hl⟩
    · rintro (⟨⟨old, new', hmem⟩, -⟩ | ⟨-, hl⟩)
      · rw [List.drop_eq_nil_of_le ((List.length_take_le _ _).trans hearly)] at hmem
        simp at hmem
      · exact hl

/-- **When a removal takes an old copy.** -/
theorem OldCopiesInv.takesOldCopy_iff (hI : OldCopiesInv t₀ t chunkOf j k s) (ht : t₀.Keyed) :
    TakesOldCopy chunkOf j k s l ↔ VisitsMissed t₀ k (chunkOf j) s l := by
  cases l with
  | remove n =>
    constructor
    · rintro ⟨s', v, hs, hold, hsome, hnone⟩
      obtain ⟨a, h, d, todo, hp, hst⟩ := RepairState.step_remove hs
      rw [hst] at hnone
      split_ifs at hnone with hd
      · rw [hnone] at hsome
        simp at hsome
      rw [stored_remove] at hnone
      split_ifs at hnone with hcov
      · refine ⟨a, h, d, todo, hp, hold, ?_⟩
        by_cases hdc : d = chunkOf j
        · subst hdc
          exact .inl ⟨rfl, (hold.missing_iff hI ht (.inr (.inr ⟨h, _, hp⟩)) h).mp hd, v, hsome⟩
        · exact .inr ⟨hdc, hd, v, hcov, hsome⟩
      · rw [hnone] at hsome
        simp at hsome
    · rintro ⟨a, h, d, todo, hp, hold, hcase⟩
      have hd : d ∉ a.ids := by
        rcases hcase with ⟨rfl, hmiss, -⟩ | ⟨-, hd, -⟩
        · exact (hold.missing_iff hI ht (.inr (.inr ⟨h, _, hp⟩)) h).mpr hmiss
        · exact hd
      obtain ⟨s', hs, hst⟩ := RepairState.step_remove_unlisted chunkOf hp hd
      rcases hcase with ⟨rfl, -, v, hsome⟩ | ⟨-, -, v, hcov, hsome⟩
      · exact ⟨s', v, hs, hold, hsome, by rw [hst, stored_remove_self]⟩
      · exact ⟨s', v, hs, hold, hsome, by rw [hst, stored_remove, if_pos hcov]⟩
  | _ => exact Iff.rfl

/-- **A step of the reconfiguration or of the loops keeps the invariant.** -/
theorem OldCopiesInv.step (hI : OldCopiesInv t₀ t chunkOf j k s) (hf : t.Fields)
    (h : s.step chunkOf l = some s') (hok : l.OfReconfig j) : OldCopiesInv t₀ t chunkOf j k s' := by
  have hlists := hI.lists.step h
  rcases RepairState.step_cases h with ⟨cl, a, r', rfl, hr, rfl⟩ | ⟨-, hloop⟩
  · obtain ⟨rfl, hput⟩ := hok
    have hdrop : (s.applied ++ (s.race.loggedOp (chunkOf a.index) a).toList).drop k =
        s.applied.drop k ++ (s.race.loggedOp (chunkOf a.index) a).toList :=
      List.drop_append_of_le_length hI.begun
    refine ⟨hlists, List.length_append ▸ hI.begun.trans (Nat.le_add_right _ _), ?_, ?_, ?_⟩
    · rw [hdrop, List.foldl_append, ← hI.table]
      show r'.chunkTable = _
      rw [RaceState.table_of_step hr]
      cases s.race.loggedOp (chunkOf a.index) a <;> rfl
    · intro op hop
      rw [hdrop] at hop
      rcases List.mem_append.mp hop with hop | hop
      · exact hI.names op hop
      · exact chunkId_of_loggedOp (Option.mem_toList.mp hop)
    · intro hc hbar
      rw [hdrop]
      exact (hI.run hc hbar).step hI.table hf hc hbar rfl hput hr
  · refine ⟨hlists, hloop.applied ▸ hI.begun, ?_, hloop.applied ▸ hI.names, fun hc hbar => ?_⟩
    · rw [hloop.table, hloop.applied]
      exact hI.table
    · have hrun := hI.run hc hbar
      rw [hloop.applied]
      exact ⟨fun h => hrun.fresh (hloop.reconfigs ▸ h),
        fun call h => hrun.applied call (hloop.reconfigs ▸ h),
        fun old v new h => hrun.targets old v new (hloop.reconfigs ▸ h)⟩

theorem oldCopiesInv_of_run (hr : r.chunkTable.Keyed ∧ r.chunkTable.Fields) {tr₀ tr : List RepairStep}
    (h₀ : (repairs chunkOf).Reach (.start r) tr₀ s₀) (hj : s₀.race.reconfigs j = none)
    (h : (repairs chunkOf).Run (fun _ l => l.OfReconfig j) s₀ tr s) :
    OldCopiesInv r.chunkTable s₀.race.chunkTable chunkOf j s₀.applied.length s := by
  have hfields := (wf_of_run hr h₀).2
  refine h.invariant_step ⟨listInv_of_run h₀, le_rfl, ?_, ?_, fun _ _ => ?_⟩
    fun s l s' hI hs hok => hI.step hfields hs hok
  · rw [List.drop_length]
    rfl
  · simp
  · rw [List.drop_length]
    exact ⟨fun _ => rfl, fun call h => by simp [hj] at h, fun _ _ _ h => by simp [hj] at h⟩

/-- **Exactly the runs without such visits leave the old copies alone**: runs of one reconfiguration
with heartbeats and passes, behind any run of the leader and the storage nodes, from any table that
a log makes. -/
theorem keepsOld_iff_run {es : List WalEntry} (hr : r.chunkTable = applyEntries es)
    {tr₀ tr : List RepairStep} (h₀ : (repairs chunkOf).Reach (.start r) tr₀ s₀)
    (hj : s₀.race.reconfigs j = none) :
    (repairs chunkOf).Run (fun s l => l.OfReconfig j ∧
        ¬ TakesOldCopy chunkOf j s₀.applied.length s l) s₀ tr s ↔
      (repairs chunkOf).Run (fun s l => l.OfReconfig j ∧
        ¬ VisitsMissed r.chunkTable s₀.applied.length (chunkOf j) s l) s₀ tr s := by
  have hwf : r.chunkTable.Keyed ∧ r.chunkTable.Fields := hr ▸ applyEntries_wf es
  constructor
  · refine fun h => h.imp fun tr s l h hl => ⟨hl.1, ?_⟩
    rw [← (oldCopiesInv_of_run hwf h₀ hj (h.mono fun _ _ => And.left)).takesOldCopy_iff hwf.1]
    exact hl.2
  · refine fun h => h.imp fun tr s l h hl => ⟨hl.1, ?_⟩
    rw [(oldCopiesInv_of_run hwf h₀ hj (h.mono fun _ _ => And.left)).takesOldCopy_iff hwf.1]
    exact hl.2

end Removals

/-! ### A heartbeat behind the START, and one before the put -/

/-- The node `n` holds `d`; it has begun a pass with the list `d` when a put places `c` on it. -/
def placedTrace : List RepairStep :=
  putSteps 0 ++ [.beat nodeN true, .hear nodeN true, .begin nodeN [['d']]] ++ putSteps 1

def placedState : RepairState :=
  (repairs chunkDC).final (fun _ _ => True) (.start {}) placedTrace

theorem placedState_reach : (repairs chunkDC).Reach (.start {}) placedTrace placedState :=
  Machine.run_final (by decide +kernel)

/-- The chunk `c` is to move from `n` to `m` (index 1), and the pass gets to its removals. -/
def turnTrace : List RepairStep :=
  [.race pairCluster (.begin 1 1 ['m'] ['n'] []), .race pairCluster (.start 1 true),
    .info nodeN pairCluster.nodes true, .compare nodeN, .scan nodeN [['c'], ['d']]]

def turnState : RepairState :=
  (repairs chunkDC).final (fun _ l => l.OfReconfig 1) placedState turnTrace

theorem keepsOld_iff_run_early :
    (repairs chunkDC).Run (fun s l => l.OfReconfig 1 ∧
        ¬ TakesOldCopy chunkDC 1 placedState.applied.length s l) placedState turnTrace turnState ↔
      (repairs chunkDC).Run (fun s l => l.OfReconfig 1 ∧
        ¬ VisitsMissed ({} : RaceState).chunkTable placedState.applied.length (chunkDC 1) s l)
        placedState turnTrace turnState := by
  have htable : ({} : RaceState).chunkTable = applyEntries [] := rfl
  exact keepsOld_iff_run htable placedState_reach rfl

/-- A pass that begins behind the START, with the list that the leader computed there. -/
def transitTrace : List RepairStep :=
  [.race pairCluster (.begin 1 1 ['m'] ['n'] []), .race pairCluster (.start 1 true),
    .beat nodeN true, .hear nodeN true, .begin nodeN [['d']], .info nodeN pairCluster.nodes true,
    .compare nodeN, .scan nodeN [['c'], ['d']]]

/-- The chunks `d` and `c` are on the node `n`, and no pass has begun. -/
def storedTrace : List RepairStep := putSteps 0 ++ putSteps 1

def storedState : RepairState :=
  (repairs chunkDC).final (fun _ _ => True) (.start {}) storedTrace

theorem storedState_reach : (repairs chunkDC).Reach (.start {}) storedTrace storedState :=
  Machine.run_final (by decide +kernel)

def transitState : RepairState :=
  (repairs chunkDC).final (fun _ l => l.OfReconfig 1) storedState transitTrace

theorem transitState_reach :
    (repairs chunkDC).Run (fun _ l => l.OfReconfig 1) storedState transitTrace transitState :=
  Machine.run_final (by decide +kernel)

/-- **A pass removes an old copy while the chunk is in transition.** -/
theorem pass_takes_oldCopy : ¬ ∀ (chunkOf : ℕ → Str) (r : RaceState) es tr₀ s₀ j tr s l,
    r.chunkTable = applyEntries es → (repairs chunkOf).Reach (.start r) tr₀ s₀ →
    s₀.race.reconfigs j = none → (repairs chunkOf).Run (fun _ l => l.OfReconfig j) s₀ tr s →
    ¬ TakesOldCopy chunkOf j s₀.applied.length s l := by
  intro h
  refine h chunkDC {} [] storedTrace storedState 1 transitTrace transitState (.remove nodeN) rfl
    storedState_reach rfl transitState_reach
    ⟨_, 1, rfl, ⟨⟨[['n', '=', 'a']], [['m', '=', 'b']], ?_⟩, _, rfl, ?_, ?_⟩, ?_, ?_⟩
  · decide +kernel
  · decide +kernel
  · decide +kernel
  · decide +kernel
  · decide +kernel

end NimbusVault
