import NimbusVault.PutVersions
import NimbusVault.Repair

/-!
# StaleLists — a repair pass against the puts

A put writes the bytes first and its metadata later, and a repair pass compares what it finds on the
node with a list that the leader computed at some earlier heartbeat.  So a pass may remove a chunk
that a put has placed on the node since then.  `spares_iff_run` says that nothing else can make a
pass remove a listed chunk, except the range of a delete, which covers longer chunk ids too.
-/

namespace NimbusVault

open Lib ChunkStore

/-! ### Puts -/

def TableOp.IsPut : TableOp → Prop
  | put .. => True
  | _ => False

/-- A step of a put, or of a storage node's loops. -/
def RepairStep.OfPut : RepairStep → Prop
  | .race _ a => a.OfPut
  | _ => True

/-- The last operation on the chunk is a put that places it on the node. -/
def LastPutOn (ops : List TableOp) (nodeId c : Str) : Prop :=
  ∃ size rf rs v, (ops.filter fun o => o.chunkId = c).getLast? = some (.put c size rf rs v) ∧
    nodeId ∈ rs.map extractNodeId

section Puts

variable {t : ChunkTable} {ops : List TableOp} {nodeId c : Str} {s : RaceState} {a : RaceStep}

/-- A put logs a put. -/
theorem isPut_of_loggedOp (ha : a.OfPut) {op : TableOp} (h : op ∈ s.loggedOp c a) : op.IsPut := by
  obtain ⟨e, he, hop⟩ := Option.bind_eq_some_iff.mp h
  have hty : e.type = .putChunk := by
    cases a with
    | log i quorum =>
      cases quorum with
      | false => simp [RaceState.logged] at he
      | true =>
        simp only [RaceState.logged] at he
        split at he
        · split_ifs at he
          obtain rfl := Option.some.inj he
          rfl
        · simp at he
    | check => simp [RaceState.logged] at he
    | place => simp [RaceState.logged] at he
    | write => simp [RaceState.logged] at he
    | undo => simp [RaceState.logged] at he
    | _ => exact ha.elim
  unfold WalEntry.op decodeEntry at hop
  rw [hty] at hop
  dsimp only at hop
  split at hop
  · simp only [Option.bind_eq_bind, Option.join_eq_some_iff, Option.bind_eq_some_iff] at hop
    obtain ⟨_, _, _, _, _, _, hop⟩ := hop
    simp only [Option.some.injEq] at hop
    subst hop
    trivial
  · simp at hop

/-- **Puts bring a chunk onto a node** only by the last of them. -/
theorem lists_foldl_puts (hops : ∀ op ∈ ops, op.IsPut) (h : ¬ Lists t nodeId c) :
    Lists (ops.foldl (fun t op => op.apply t) t) nodeId c ↔ LastPutOn ops nodeId c := by
  induction ops using List.reverseRecOn with
  | nil => exact ⟨fun hl => absurd hl h, fun ⟨_, _, _, _, hl, _⟩ => by simp at hl⟩
  | append_singleton ops op ih =>
    have ih' := ih fun o ho => hops o (List.mem_append_left _ ho)
    rw [List.foldl_concat]
    set t' := ops.foldl (fun t op => op.apply t) t
    cases op with
    | put d size rf rs v =>
      by_cases hd : d = c
      · subst hd
        have hget : ((TableOp.put d size rf rs v).apply t').get d =
            some ⟨d, v, rs, rf, .stable, [], size⟩ := Kv.get_alter_self
        unfold Lists LastPutOn
        rw [hget, List.filter_append]
        simp [TableOp.chunkId]
      · have hget : ((TableOp.put d size rf rs v).apply t').get c = t'.get c :=
          Kv.get_alter_of_ne fun h => hd h.symm
        unfold Lists LastPutOn at ih' ⊢
        rw [hget, List.filter_append]
        simpa [TableOp.chunkId, hd] using ih'
    | _ => exact (hops _ (List.mem_append_right _ (List.mem_singleton_self _))).elim

end Puts

/-! ### Removals -/

/-- The removal takes a version of a chunk from the node although the table lists the node. -/
def TakesListed (chunkOf : ℕ → Str) (s : RepairState) : RepairStep → Prop
  | .remove n => ∃ s' c v, s.step chunkOf (.remove n) = some s' ∧
      Lists s.race.chunkTable n.nodeId c ∧
      ((s.race.stores n.address).stored c v).isSome = true ∧
      (s'.race.stores n.address).stored c v = none
  | _ => False

/-- The pass visits a chunk that its list lacks, and the last put since the list was computed has
placed that chunk on the node; or the range of the delete covers another chunk that the table lists
there. -/
def VisitsPlaced (s : RepairState) : RepairStep → Prop
  | .remove n => ∃ a h d todo, (s.procs n).pass = some ⟨a, h, .removing (d :: todo)⟩ ∧ d ∉ a.ids ∧
      ((LastPutOn (s.applied.drop a.seen) n.nodeId d ∧
          ∃ v, ((s.race.stores n.address).stored d v).isSome = true) ∨
        ∃ c v, c ≠ d ∧ Covers d c v ∧ ((s.race.stores n.address).stored c v).isSome = true ∧
          Lists s.race.chunkTable n.nodeId c)
  | _ => False

section Removals

variable {chunkOf : ℕ → Str} {r : RaceState} {s : RepairState} {l : RepairStep} {n : NodeConfig}

theorem isPut_applied {tr : List RepairStep}
    (h : (repairs chunkOf).Run (fun _ l => l.OfPut) (.start r) tr s) : ∀ op ∈ s.applied, op.IsPut := by
  refine h.invariant_step (I := fun s => ∀ op ∈ s.applied, op.IsPut) (by simp [RepairState.start])
    fun s l s' hI hs hok => ?_
  rcases RepairState.step_cases hs with ⟨cl, a, r', rfl, -, rfl⟩ | ⟨-, hloop⟩
  · intro op hop
    rcases List.mem_append.mp hop with hop | hop
    · exact hI op hop
    · exact isPut_of_loggedOp hok (Option.mem_toList.mp hop)
  · rw [hloop.applied]
    exact hI

/-- **What a list lacks** is listed now exactly when a put has placed it on the node since. -/
theorem lists_iff_lastPutOn (hI : ListInv r.chunkTable s) (ht : r.chunkTable.Keyed)
    (hputs : ∀ op ∈ s.applied, op.IsPut) {a : Assignment} (ha : (s.procs n).Has a) (hne : a.ids ≠ [])
    {d : Str} (hd : d ∉ a.ids) :
    Lists s.race.chunkTable n.nodeId d ↔ LastPutOn (s.applied.drop a.seen) n.nodeId d := by
  have hids := ((hI.lists n a ha).2).resolve_left hne
  rw [hids, mem_assignedChunkIds (keyed_tableAt ht a.seen)] at hd
  rw [← lists_foldl_puts (fun op hop => hputs op (List.mem_of_mem_drop hop)) hd, RepairState.tableAt,
    ← List.foldl_append, List.take_append_drop, ← hI.table]

/-- **When a removal takes a listed chunk.** -/
theorem takesListed_iff (hI : ListInv r.chunkTable s) (ht : r.chunkTable.Keyed)
    (hputs : ∀ op ∈ s.applied, op.IsPut) : TakesListed chunkOf s l ↔ VisitsPlaced s l := by
  cases l with
  | remove n =>
    constructor
    · rintro ⟨s', c, v, hs, hl, hsome, hnone⟩
      obtain ⟨a, h, d, todo, hp, hst⟩ := RepairState.step_remove hs
      rw [hst] at hnone
      split_ifs at hnone with hd
      · rw [hnone] at hsome
        simp at hsome
      rw [stored_remove] at hnone
      split_ifs at hnone with hc
      · refine ⟨a, h, d, todo, hp, hd, ?_⟩
        by_cases hcd : c = d
        · subst hcd
          have hlast := (lists_iff_lastPutOn hI ht hputs (.inr (.inr ⟨h, _, hp⟩)) h hd).mp hl
          exact .inl ⟨hlast, v, hsome⟩
        · exact .inr ⟨c, v, hcd, hc, hsome, hl⟩
      · rw [hnone] at hsome
        simp at hsome
    · rintro ⟨a, h, d, todo, hp, hd, hcase⟩
      obtain ⟨s', hs, hst⟩ := RepairState.step_remove_unlisted chunkOf hp hd
      rcases hcase with ⟨hlast, v, hsome⟩ | ⟨c, v, -, hc, hsome, hl⟩
      · have hl := (lists_iff_lastPutOn hI ht hputs (.inr (.inr ⟨h, _, hp⟩)) h hd).mpr hlast
        exact ⟨s', d, v, hs, hl, hsome, by rw [hst, stored_remove_self]⟩
      · exact ⟨s', c, v, hs, hl, hsome, by rw [hst, stored_remove, if_pos hc]⟩
  | _ => exact Iff.rfl

/-- **Exactly the runs without such visits spare the listed chunks.** -/
theorem spares_iff_run (ht : r.chunkTable.Keyed) {tr : List RepairStep} :
    (repairs chunkOf).Run (fun s l => l.OfPut ∧ ¬ TakesListed chunkOf s l) (.start r) tr s ↔
      (repairs chunkOf).Run (fun s l => l.OfPut ∧ ¬ VisitsPlaced s l) (.start r) tr s := by
  constructor
  · refine fun h => h.imp fun tr s l h hl => ⟨hl.1, ?_⟩
    rw [← takesListed_iff (listInv_of_run h) ht (isPut_applied (h.mono fun _ _ => And.left))]
    exact hl.2
  · refine fun h => h.imp fun tr s l h hl => ⟨hl.1, ?_⟩
    rw [takesListed_iff (listInv_of_run h) ht (isPut_applied (h.mono fun _ _ => And.left))]
    exact hl.2

end Removals

/-! ### A put between the heartbeat and the removal -/

instance : DecidablePred RepairStep.OfPut := fun l => by
  cases l <;> first | exact isTrue trivial | exact inferInstanceAs (Decidable (RaceStep.OfPut _))

/-- The node `n` of `pairCluster`. -/
def nodeN : NodeConfig := ⟨['n'], ['a']⟩

/-- The puts of the runs below: the first is on the chunk `d`, the others on `c`. -/
def chunkDC (i : ℕ) : Str := if i = 0 then ['d'] else ['c']

/-- A put on the node `n`, from its check to its log write. -/
def putSteps (i : ℕ) : List RepairStep :=
  [.check i ⟨chunkDC i, 1, 1, ['x']⟩, .place i [['n']], .write i .answered, .log i true].map
    (.race pairCluster)

/-- The list is computed after the first put; the second one has written its bytes when the pass
lists the node's chunks. -/
def outdatedTrace : List RepairStep :=
  putSteps 0 ++ [.beat nodeN true, .hear nodeN true] ++ (putSteps 1).take 3 ++
    [.begin nodeN [['d']], .info nodeN pairCluster.nodes true, .compare nodeN] ++
    (putSteps 1).drop 3 ++ [.scan nodeN [['c'], ['d']]]

def outdatedState : RepairState :=
  (repairs chunkDC).final (fun _ l => l.OfPut) (.start {}) outdatedTrace

theorem outdatedState_reach :
    (repairs chunkDC).Run (fun _ l => l.OfPut) (.start {}) outdatedTrace outdatedState :=
  Machine.run_final (by decide +kernel)

theorem spares_iff_run_stale :
    (repairs chunkDC).Run (fun s l => l.OfPut ∧ ¬ TakesListed chunkDC s l) (.start {}) outdatedTrace
        outdatedState ↔
      (repairs chunkDC).Run (fun s l => l.OfPut ∧ ¬ VisitsPlaced s l) (.start {}) outdatedTrace
        outdatedState := by
  have hkeyed : ({} : RaceState).chunkTable.Keyed := fun c e he => by simp at he
  exact spares_iff_run hkeyed

/-- **A pass removes a chunk that the table lists**, on the word of a list from before the put. -/
theorem pass_takes_listed : ¬ ∀ (chunkOf : ℕ → Str) tr s l,
    (repairs chunkOf).Run (fun _ l => l.OfPut) (.start {}) tr s → ¬ TakesListed chunkOf s l := by
  intro h
  refine h chunkDC outdatedTrace outdatedState (.remove nodeN) outdatedState_reach
    ⟨_, ['c'], 1, rfl, ⟨_, rfl, ?_⟩, ?_, ?_⟩
  · decide +kernel
  · decide +kernel
  · decide +kernel

end NimbusVault
