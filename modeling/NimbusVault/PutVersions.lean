import NimbusVault.Race

/-!
# PutVersions — which versions interleaved puts return

A put computes its version from the committed table and logs it much later.  `Fires.effect`: only
the logging step of a put changes the chunk's version or produces a yes.  Along the runs in which
every put logs a version above the table's, no two puts return the same version
(`versions_distinct`); and a run of fewer than `2^64` steps whose answers are all different is such
a run (`logsAbove_of_distinct`).
-/

namespace NimbusVault

open Lib RaceState

/-- The version in the table, 0 for a chunk that is not listed. -/
def tableVersion (t : ChunkTable) (c : Str) : UInt64 := (t.get c).elim 0 ChunkEntry.version

/-- The version a put returned with a yes. -/
def PutPhase.okVersion : PutPhase → Option UInt64
  | .answered r => if r.ok then some r.version else none
  | _ => none

def RaceState.okVersion (s : RaceState) (i : ℕ) : Option UInt64 := (s.puts i).bind PutPhase.okVersion

/-- No two calls returned the same version. -/
def RaceState.Distinct (s : RaceState) : Prop :=
  ∀ i k v, s.okVersion i = some v → s.okVersion k = some v → i = k

/-- A put that logs does so with a version above the table's. -/
def LogsAbove (c : Str) (s : RaceState) : RaceStep → Prop
  | .log i true =>
    match s.puts i with
    | some (.writing _ v l []) =>
      l.majorityNeeded ≤ l.successfulAddrs.length → tableVersion s.chunkTable c < v
    | _ => True
  | _ => True

instance (c : Str) (s : RaceState) : ∀ a, Decidable (LogsAbove c s a) := fun a => by
  unfold LogsAbove
  split
  · split <;> infer_instance
  · infer_instance

theorem LogsAbove.lt {c : Str} {s : RaceState} {i : ℕ} {req : PutChunkReq} {v : UInt64}
    {l : WriteLocals} (h : LogsAbove c s (.log i true)) (hi : s.puts i = some (.writing req v l []))
    (hm : l.majorityNeeded ≤ l.successfulAddrs.length) : tableVersion s.chunkTable c < v := by
  simp only [LogsAbove, hi] at h
  exact h hm

section Effect

variable {cl : Cluster} {c : Str} {s s' : RaceState} {a : RaceStep} {i k : ℕ} {p q : PutPhase}

theorem setPut_puts : (s.setPut i p).puts k = if k = i then some p else s.puts k :=
  Function.update_apply _ _ _ _

theorem forall_setPut {P : ℕ → PutPhase → Prop} (hi : P i p)
    (h : ∀ k q, s.puts k = some q → P k q) : ∀ k q, (s.setPut i p).puts k = some q → P k q :=
  forall_update_some hi h

theorem okVersion_setPut :
    (s.setPut i p).okVersion k = if k = i then p.okVersion else s.okVersion k := by
  unfold RaceState.okVersion
  rw [setPut_puts]
  split_ifs <;> rfl

/-- A call that moves between phases without an answer returns nothing. -/
theorem okVersion_setPut_none (hp : p.okVersion = none) (hi : s.okVersion i = none) :
    (s.setPut i p).okVersion k = s.okVersion k := by
  rw [okVersion_setPut]
  split_ifs with hk
  · rw [hp, hk, hi]
  · rfl

theorem okVersion_of_phase (h : s.puts i = some q) : s.okVersion i = q.okVersion := by
  rw [RaceState.okVersion, h]
  rfl

theorem putUndo_okVersion (error : Str) (addrs : List Str) :
    (putUndo error addrs).okVersion = none := by
  unfold putUndo
  split_ifs <;> rfl

/-- After the write loop a call is neither writing nor waiting to be placed. -/
theorem putUndo_ne_writing {error : Str} {addrs : List Str} {req : PutChunkReq} {v : UInt64}
    {l : WriteLocals} {todo : List Str} : putUndo error addrs ≠ .writing req v l todo := by
  unfold putUndo
  split_ifs <;> simp

theorem putUndo_ne_checked {error : Str} {addrs : List Str} {req : PutChunkReq} :
    putUndo error addrs ≠ .checked req := by
  unfold putUndo
  split_ifs <;> simp

theorem putLog_ne {t : ChunkTable} {req : PutChunkReq} {v : UInt64} {l : WriteLocals} {quorum : Bool}
    (hundo : ∀ error addrs, putUndo error addrs ≠ q) (hthrew : .threw ≠ q)
    (hanswered : ∀ r, .answered r ≠ q) : (putLog t req v l quorum).2 ≠ q := by
  unfold putLog
  split_ifs
  · exact hundo _ _
  · split
    · exact hthrew
    · exact hundo _ _
    · exact hanswered _

theorem putLog_ne_writing {t : ChunkTable} {req req' : PutChunkReq} {v v' : UInt64}
    {l l' : WriteLocals} {quorum : Bool} {todo : List Str} :
    (putLog t req v l quorum).2 ≠ .writing req' v' l' todo :=
  putLog_ne (fun _ _ => putUndo_ne_writing) (by simp) (by simp)

theorem putLog_ne_checked {t : ChunkTable} {req req' : PutChunkReq} {v : UInt64} {l : WriteLocals}
    {quorum : Bool} : (putLog t req v l quorum).2 ≠ .checked req' :=
  putLog_ne (fun _ _ => putUndo_ne_checked) (by simp) (by simp)

theorem putCheck_okVersion (t : ChunkTable) (req : PutChunkReq) :
    (putCheck t req).okVersion = none := by
  unfold putCheck
  split_ifs <;> rfl

theorem putPlace_okVersion (t : ChunkTable) (req : PutChunkReq) (nodes : List Str) :
    (putPlace t req nodes).okVersion = none := by
  unfold putPlace
  split_ifs <;> rfl

/-- A log write either leaves the table and says no, or its entry is applied and it says yes. -/
theorem putLog_cases (t : ChunkTable) (req : PutChunkReq) (v : UInt64) (l : WriteLocals)
    (quorum : Bool) :
    ((putLog t req v l quorum).1 = t ∧ (putLog t req v l quorum).2.okVersion = none) ∨
    ∃ t', quorum = true ∧ l.majorityNeeded ≤ l.successfulAddrs.length ∧
      applyWalEntry t (putPayload req v l.replicaEntries) = some t' ∧
      putLog t req v l quorum =
        (t', .answered { ok := true, version := v, replicaSet := l.replicaEntries }) := by
  unfold putLog
  by_cases hm : l.successfulAddrs.length < l.majorityNeeded
  · rw [if_pos hm]
    exact .inl ⟨rfl, putUndo_okVersion _ _⟩
  · rw [if_neg hm]
    cases hw : metaWrite t (putPayload req v l.replicaEntries) quorum with
    | none => exact .inl ⟨rfl, rfl⟩
    | some x =>
      obtain ⟨_ | _, t'⟩ := x
      · exact .inl ⟨rfl, putUndo_okVersion _ _⟩
      · obtain ⟨hq, ht⟩ := metaWrite_true hw
        exact .inr ⟨t', hq, not_lt.mp hm, ht, rfl⟩

theorem tableVersion_reconfig {t t' : ChunkTable} {e : WalEntry}
    (hty : e.type = .reconfigureStart ∨ e.type = .reconfigureCommit)
    (h : applyWalEntry t e = some t') : tableVersion t' c = tableVersion t c := by
  have hv := applyWalEntry_reconfig_version (c := c) hty h
  unfold tableVersion
  cases ht : t.get c <;> cases ht' : t'.get c <;> simp [ht, ht'] at hv ⊢
  exact hv

/-- **What a step can do**: nothing to the version and the answers, or a put logs and says yes. -/
theorem RaceState.Fires.effect (h : Fires cl c s a s') :
    (tableVersion s'.chunkTable c = tableVersion s.chunkTable c ∧
      ∀ k, s'.okVersion k = s.okVersion k) ∨
    ∃ i req v l t', a = .log i true ∧ s.puts i = some (.writing req v l []) ∧
      l.majorityNeeded ≤ l.successfulAddrs.length ∧
      applyWalEntry s.chunkTable (putPayload req v l.replicaEntries) = some t' ∧
      s' = { s with chunkTable := t' }.setPut i
        (.answered { ok := true, version := v, replicaSet := l.replicaEntries }) := by
  cases h with
  | check hi =>
    refine .inl ⟨rfl, fun k => okVersion_setPut_none (putCheck_okVersion _ _) ?_⟩
    rw [RaceState.okVersion, hi]
    rfl
  | place hi =>
    exact .inl ⟨rfl, fun k => okVersion_setPut_none (putPlace_okVersion _ _ _)
      (okVersion_of_phase hi)⟩
  | write hi => exact .inl ⟨rfl, fun k => okVersion_setPut_none rfl (okVersion_of_phase hi)⟩
  | @log i quorum req v l hi =>
    rcases putLog_cases s.chunkTable req v l quorum with ⟨ht, hv⟩ | ⟨t', hq, hm, ht, he⟩
    · rw [ht]
      exact .inl ⟨rfl, fun k => okVersion_setPut_none hv (okVersion_of_phase hi)⟩
    · rw [he]
      exact .inr ⟨i, req, v, l, t', hq ▸ rfl, hi, hm, ht, rfl⟩
  | undo hi =>
    exact .inl ⟨rfl, fun k => okVersion_setPut_none (putUndo_okVersion _ _) (okVersion_of_phase hi)⟩
  | start _ ht => exact .inl ⟨tableVersion_reconfig (.inl rfl) ht, fun _ => rfl⟩
  | commit _ ht => exact .inl ⟨tableVersion_reconfig (.inr rfl) ht, fun _ => rfl⟩
  | _ => exact .inl ⟨rfl, fun _ => rfl⟩

/-- A phase that a call has after another call moved it had before. -/
theorem puts_of_setPut (hne : p ≠ q) (h : (s.setPut i p).puts k = some q) : s.puts k = some q := by
  rw [setPut_puts] at h
  split_ifs at h
  · exact absurd (Option.some.inj h) hne
  · exact h

/-- Where a call that is writing comes from: it was, or it has just written to a node, or it has
just been placed. -/
theorem RaceState.Fires.writing (h : Fires cl c s a s') {req : PutChunkReq} {v : UInt64} {l : WriteLocals}
    {todo : List Str} (hk : s'.puts k = some (.writing req v l todo)) :
    s.puts k = some (.writing req v l todo) ∨
    (∃ n l₀ fate, a = .write k fate ∧ s.puts k = some (.writing req v l₀ (n :: todo)) ∧
      l = (putReplica cl.nodes c v req.data ⟨l₀, s.stores⟩ (n, fate)).toWriteLocals) ∨
    (s.puts k = some (.checked req) ∧ v = s.chunkTable.nextVersion req.chunkId ∧ l = {} ∧
      SelectsNodes req.desiredRf.toInt cl.nodes [] todo) := by
  cases h with
  | check =>
    refine .inl (puts_of_setPut (fun he => ?_) hk)
    unfold putCheck at he
    split_ifs at he
  | place hi hsel =>
    rw [setPut_puts] at hk
    split_ifs at hk with hki
    · have hk := Option.some.inj hk
      unfold putPlace at hk
      split_ifs at hk
      obtain ⟨rfl, rfl, rfl, rfl⟩ := PutPhase.writing.inj hk
      exact .inr (.inr ⟨hki ▸ hi, rfl, rfl, hsel⟩)
    · exact .inl hk
  | @write i fate _ _ l' n _ hi =>
    rw [setPut_puts] at hk
    split_ifs at hk with hki
    · obtain ⟨rfl, rfl, rfl, rfl⟩ := PutPhase.writing.inj (Option.some.inj hk)
      exact .inr (.inl ⟨n, l', fate, hki ▸ rfl, hki ▸ hi, rfl⟩)
    · exact .inl hk
  | log => exact .inl (puts_of_setPut putLog_ne_writing hk)
  | undo => exact .inl (puts_of_setPut putUndo_ne_writing hk)
  | _ => exact .inl hk

/-- A call that has passed its check passed it earlier, or has just done so. -/
theorem RaceState.Fires.checked (h : Fires cl c s a s') {req : PutChunkReq}
    (hk : s'.puts k = some (.checked req)) : s.puts k = some (.checked req) ∨ req.chunkId = c := by
  cases h with
  | check _ hc =>
    rw [setPut_puts] at hk
    split_ifs at hk
    · have hk := Option.some.inj hk
      unfold putCheck at hk
      split_ifs at hk
      obtain rfl := PutPhase.checked.inj hk
      exact .inr hc
    · exact .inl hk
  | place =>
    refine .inl (puts_of_setPut (fun he => ?_) hk)
    unfold putPlace at he
    split_ifs at he
  | write => exact .inl (puts_of_setPut (by simp) hk)
  | log => exact .inl (puts_of_setPut putLog_ne_checked hk)
  | undo => exact .inl (puts_of_setPut putUndo_ne_checked hk)
  | _ => exact .inl hk

end Effect

/-! ### Calls under way -/

/-- Every put is for the chunk, and has acknowledgements from at most the nodes it wrote to. -/
structure PutsWf (c : Str) (s : RaceState) : Prop where
  checked : ∀ k req, s.puts k = some (.checked req) → req.chunkId = c
  writing : ∀ k req v l todo, s.puts k = some (.writing req v l todo) →
    req.chunkId = c ∧ l.successfulAddrs.length ≤ l.replicaEntries.length

section Wf

variable {cl : Cluster} {c : Str} {s s' : RaceState} {a : RaceStep} {tr : List RaceStep}
  {ok : RaceState → RaceStep → Prop}

theorem putReplica_lengths {alive : List NodeEntry} {v : UInt64} {d : Str} {p : WriteProgress}
    {x : Str × RpcFate} (h : p.successfulAddrs.length ≤ p.replicaEntries.length) :
    (putReplica alive c v d p x).successfulAddrs.length ≤
      (putReplica alive c v d p x).replicaEntries.length := by
  have he : (putReplica alive c v d p x).replicaEntries =
    p.replicaEntries ++ [encodeReplicaTarget alive x.1] := rfl
  rw [putReplica_addrs, he]
  split_ifs
  · simp only [List.length_append, List.length_singleton]
    omega
  · simp only [List.length_append, List.length_singleton]
    omega

theorem PutsWf.fires (hinv : PutsWf c s) (h : Fires cl c s a s') : PutsWf c s' := by
  refine ⟨fun k req hk => ?_, fun k req v l todo hk => ?_⟩
  · rcases h.checked hk with hk | hc
    · exact hinv.checked k req hk
    · exact hc
  · rcases h.writing hk with h0 | ⟨n, l₀, fate, -, h0, rfl⟩ | ⟨h0, -, rfl, -⟩
    · exact hinv.writing k req v l todo h0
    · obtain ⟨hc, hlen⟩ := hinv.writing k req v l₀ _ h0
      exact ⟨hc, putReplica_lengths hlen⟩
    · exact ⟨hinv.checked k req h0, le_refl _⟩

/-- The payload of a put of a proper chunk is applied. -/
theorem applyWalEntry_putPayload_exists (hc : c ≠ []) (hbar : '|' ∉ c) (hwf : PutsWf c s) {i : ℕ}
    {req : PutChunkReq} {v : UInt64} {l : WriteLocals} (hi : s.puts i = some (.writing req v l []))
    (hm : l.majorityNeeded ≤ l.successfulAddrs.length) :
    ∃ rs, applyWalEntry s.chunkTable (putPayload req v l.replicaEntries) =
      some (s.chunkTable.applyPutChunk c req.sizeBytes req.desiredRf rs v) := by
  obtain ⟨hreq, hlen⟩ := hwf.writing i req v l [] hi
  have hne : l.replicaEntries ≠ [] := by
    intro hnil
    rw [hnil] at hlen
    unfold WriteLocals.majorityNeeded at hm
    simp at hlen
    simp [hlen] at hm
  subst hreq
  exact applyWalEntry_put_version hc hbar hne

/-- A logged put of a proper chunk sets the chunk's version. -/
theorem tableVersion_log (hc : c ≠ []) (hbar : '|' ∉ c) (hwf : PutsWf c s) {i : ℕ} {req : PutChunkReq}
    {v : UInt64} {l : WriteLocals} (hi : s.puts i = some (.writing req v l []))
    (hm : l.majorityNeeded ≤ l.successfulAddrs.length) {t : ChunkTable}
    (ht : applyWalEntry s.chunkTable (putPayload req v l.replicaEntries) = some t) :
    tableVersion t c = v := by
  obtain ⟨rs, hrs⟩ := applyWalEntry_putPayload_exists hc hbar hwf hi hm
  rw [hrs] at ht
  obtain rfl := Option.some.inj ht
  rw [tableVersion, ChunkTable.applyPutChunk, Kv.get_put_self]
  rfl

end Wf

/-! ### Distinct versions -/

/-- What a rising run keeps: answers are different, and none is above the table. -/
structure VersionInv (c : Str) (s : RaceState) : Prop where
  wf : PutsWf c s
  distinct : s.Distinct
  le : ∀ k v, s.okVersion k = some v → v ≤ tableVersion s.chunkTable c

section Distinct

variable {cl : Cluster} {c : Str} {s s' : RaceState} {a : RaceStep} {tr : List RaceStep}

theorem versionInv_init : VersionInv c {} where
  wf := ⟨fun _ _ h => by simp at h, fun _ _ _ _ _ h => by simp at h⟩
  distinct _ _ _ h := by simp [RaceState.okVersion] at h
  le _ _ h := by simp [RaceState.okVersion] at h

theorem VersionInv.fires (hc : c ≠ []) (hbar : '|' ∉ c) (hinv : VersionInv c s)
    (h : Fires cl c s a s') (hok : LogsAbove c s a) : VersionInv c s' := by
  have hwf := hinv.wf.fires h
  rcases h.effect with ⟨hv, hk⟩ | ⟨i, req, v, l, t, rfl, hi, hm, ht, rfl⟩
  · refine ⟨hwf, fun i k v h1 h2 => ?_, fun k v h1 => ?_⟩
    · rw [hk] at h1 h2
      exact hinv.distinct i k v h1 h2
    · rw [hk] at h1
      rw [hv]
      exact hinv.le k v h1
  · have hlt := hok.lt hi hm
    have hv : tableVersion t c = v := tableVersion_log hc hbar hinv.wf hi hm ht
    have hsplit : ∀ k w, ({ s with chunkTable := t }.setPut i (.answered
        { ok := true, version := v, replicaSet := l.replicaEntries })).okVersion k = some w →
          (k = i ∧ w = v) ∨ (k ≠ i ∧ s.okVersion k = some w) := by
      intro k w hk
      rw [okVersion_setPut] at hk
      split_ifs at hk with hki
      · exact .inl ⟨hki, (Option.some.inj hk).symm⟩
      · exact .inr ⟨hki, hk⟩
    have hnot : ∀ k, s.okVersion k ≠ some v := fun k hk =>
      absurd (UInt64.lt_of_lt_of_le hlt (hinv.le k v hk)) (UInt64.lt_irrefl _)
    refine ⟨hwf, fun k k' w h1 h2 => ?_, fun k w h1 => ?_⟩
    · rcases hsplit k w h1 with ⟨rfl, rfl⟩ | ⟨-, g1⟩
      · rcases hsplit k' _ h2 with ⟨rfl, -⟩ | ⟨-, g2⟩
        · rfl
        · exact absurd g2 (hnot k')
      · rcases hsplit k' _ h2 with ⟨rfl, rfl⟩ | ⟨-, g2⟩
        · exact absurd g1 (hnot k)
        · exact hinv.distinct k k' w g1 g2
    · show w ≤ tableVersion t c
      rw [hv]
      rcases hsplit k w h1 with ⟨-, rfl⟩ | ⟨-, g1⟩
      · exact UInt64.le_refl _
      · exact UInt64.le_of_lt (UInt64.lt_of_le_of_lt (hinv.le k w g1) hlt)

theorem versionInv_of_run (hc : c ≠ []) (hbar : '|' ∉ c)
    (h : (race cl c).Run (LogsAbove c) {} tr s) : VersionInv c s :=
  h.invariant_step versionInv_init fun _ _ _ hinv hs hok => hinv.fires hc hbar (step_fires hs) hok

/-- **No version is returned twice** in a run in which every put logs above the table. -/
theorem versions_distinct (hc : c ≠ []) (hbar : '|' ∉ c)
    (h : (race cl c).Run (LogsAbove c) {} tr s) : s.Distinct :=
  (versionInv_of_run hc hbar h).distinct

/-! Two nodes `n` and `m`, and puts of the chunk `c` on the first. -/

def pairCluster : Cluster where
  nodes := [{ nodeId := ['n'], address := ['a'] }, { nodeId := ['m'], address := ['b'] }]
  wellNamed := by decide
  nodup := by decide

def onePut (i : ℕ) (data : Str) : List RaceStep :=
  [.check i ⟨['c'], 1, 1, data⟩, .place i [['n']], .write i .answered, .log i true]

/-- One put after the other. -/
def inTurnState : RaceState :=
  (race pairCluster ['c']).final (LogsAbove ['c']) {} (onePut 0 ['x'] ++ onePut 1 ['y'])

theorem versions_distinct_inTurn :
    inTurnState.okVersion 0 = some 1 ∧ inTurnState.okVersion 1 = some 2 ∧ inTurnState.Distinct :=
  ⟨by decide +kernel, by decide +kernel,
    versions_distinct (c := ['c']) (by decide) (by decide) (Machine.run_final (by decide +kernel))⟩

/-- Both puts are placed before either logs. -/
def twoPuts : List RaceStep :=
  (onePut 0 ['x']).zip (onePut 1 ['y']) |>.flatMap fun p => [p.1, p.2]

def twoPutsState : RaceState := (race pairCluster ['c']).final (fun _ _ => True) {} twoPuts

theorem twoPutsState_reach : (race pairCluster ['c']).Reach {} twoPuts twoPutsState :=
  Machine.run_final (by decide +kernel)

/-- Two overlapping puts return version 1 both. -/
theorem overlapping_puts_share_version : ¬ ∀ (cl : Cluster) c tr s, (race cl c).Reach {} tr s →
    s.Distinct := by
  intro h
  have hsame := h pairCluster ['c'] twoPuts twoPutsState twoPutsState_reach 0 1 1
    (by decide +kernel) (by decide +kernel)
  exact absurd hsame (by decide)

/-- A version under way is the next one, or was returned meanwhile. -/
def Pending (c : Str) (s : RaceState) : Prop := ∀ k req v l todo,
  s.puts k = some (.writing req v l todo) →
    v = tableVersion s.chunkTable c + 1 ∨ ∃ i, s.okVersion i = some v

theorem Pending.fires (hinv : VersionInv c s) (hp : Pending c s) (h : Fires cl c s a s')
    (hok : LogsAbove c s a) : Pending c s' := by
  intro k req v l todo hk
  have hprev : v = tableVersion s.chunkTable c + 1 ∨ ∃ i, s.okVersion i = some v := by
    rcases h.writing hk with h0 | ⟨n, l₀, fate, -, h0, -⟩ | ⟨h0, hv, -, -⟩
    · exact hp k req v l todo h0
    · exact hp k req v l₀ _ h0
    · rw [hinv.wf.checked k req h0] at hv
      exact .inl hv
  rcases h.effect with ⟨hv, hkeep⟩ | ⟨i, req', v', l', t, rfl, hi, hm, ht, rfl⟩
  · rw [hv]
    simpa only [hkeep] using hprev
  · have hlt := hok.lt hi hm
    have hself : ({ s with chunkTable := t }.setPut i (.answered
        { ok := true, version := v', replicaSet := l'.replicaEntries })).okVersion i = some v' := by
      rw [okVersion_setPut, if_pos rfl]
      rfl
    rcases hprev with rfl | ⟨i', hi'⟩
    · rcases hp i req' v' l' [] hi with rfl | ⟨i', hi'⟩
      · exact .inr ⟨i, hself⟩
      · exact absurd (UInt64.lt_of_lt_of_le hlt (hinv.le i' v' hi')) (UInt64.lt_irrefl _)
    · refine .inr ⟨i', ?_⟩
      have hne : i' ≠ i := by
        rintro rfl
        rw [okVersion_of_phase hi] at hi'
        simp [PutPhase.okVersion] at hi'
      rw [okVersion_setPut, if_neg hne]
      exact hi'

theorem succ_le_of_lt {x y : UInt64} (h : x < y) (hy : y = x + 1) : y.toNat = x.toNat + 1 := by
  have hlt : x.toNat < y.toNat := UInt64.lt_iff_toNat_lt.mp h
  have hbound : y.toNat < 2 ^ 64 := y.toNat_lt
  rw [hy, UInt64.toNat_add] at hlt ⊢
  simp at hlt ⊢
  omega

/-- Along a rising run the table's version counts logged puts. -/
theorem pending_of_run (hc : c ≠ []) (hbar : '|' ∉ c)
    (h : (race cl c).Run (LogsAbove c) {} tr s) :
    Pending c s ∧ (tableVersion s.chunkTable c).toNat ≤ tr.length := by
  have hall : VersionInv c s ∧ Pending c s ∧ (tableVersion s.chunkTable c).toNat ≤ tr.length := by
    refine h.trace_invariant
      (I := fun tr s => VersionInv c s ∧ Pending c s ∧ (tableVersion s.chunkTable c).toNat ≤ tr.length)
      ⟨versionInv_init, fun _ _ _ _ _ h => by simp at h, by simp [tableVersion]⟩
      fun tr s a s' hI hs hok => ?_
    obtain ⟨hinv, hp, hlen⟩ := hI
    have hf := step_fires hs
    refine ⟨hinv.fires hc hbar hf hok, hp.fires hinv hf hok, ?_⟩
    rw [List.length_append, List.length_singleton]
    rcases hf.effect with ⟨hv, -⟩ | ⟨i, req, v, l, t, rfl, hi, hm, ht, rfl⟩
    · rw [hv]
      omega
    · have hlt := hok.lt hi hm
      show (tableVersion t c).toNat ≤ tr.length + 1
      rw [tableVersion_log hc hbar hinv.wf hi hm ht]
      rcases hp i req v l [] hi with hv | ⟨k, hk⟩
      · rw [succ_le_of_lt hlt hv]
        omega
      · exact absurd (UInt64.lt_of_lt_of_le hlt (hinv.le k v hk)) (UInt64.lt_irrefl _)
  exact hall.2

/-- An answer stays. -/
theorem RaceState.Fires.okVersion (h : Fires cl c s a s') {k : ℕ} {v : UInt64}
    (hk : s.okVersion k = some v) : s'.okVersion k = some v := by
  rcases h.effect with ⟨-, hkeep⟩ | ⟨i, req, v', l, t, rfl, hi, hm, ht, rfl⟩
  · rw [hkeep]
    exact hk
  · have hne : k ≠ i := by
      rintro rfl
      rw [okVersion_of_phase hi] at hk
      simp [PutPhase.okVersion] at hk
    rw [okVersion_setPut, if_neg hne]
    exact hk

/-- The last action of a put of a proper chunk, with a storage majority and a quorum. -/
theorem okVersion_log (hc : c ≠ []) (hbar : '|' ∉ c) (hwf : PutsWf c s) {i : ℕ} {req : PutChunkReq}
    {v : UInt64} {l : WriteLocals} (hi : s.puts i = some (.writing req v l []))
    (hm : l.majorityNeeded ≤ l.successfulAddrs.length) (h : Fires cl c s (.log i true) s') :
    s'.okVersion i = some v := by
  cases h with | @log _ _ req' v' l' hi' =>
  rw [hi] at hi'
  obtain ⟨rfl, rfl, rfl, -⟩ := PutPhase.writing.inj (Option.some.inj hi')
  obtain ⟨rs, hrs⟩ := applyWalEntry_putPayload_exists hc hbar hwf hi hm
  have hlog : (putLog s.chunkTable req v l true).2 = .answered
      { ok := true, version := v, replicaSet := l.replicaEntries } := by
    unfold putLog metaWrite
    rw [if_neg (not_lt.mpr hm), if_pos rfl, hrs]
    rfl
  rw [okVersion_setPut, if_pos rfl, hlog]
  rfl

/-- **The condition is exact**: in fewer than `2^64` steps, a run whose answers are all different is
one in which every put logs above the table. -/
theorem logsAbove_of_distinct (hc : c ≠ []) (hbar : '|' ∉ c)
    (h : (race cl c).Reach {} tr s) (hd : s.Distinct) (hlen : tr.length < 2 ^ 64) :
    (race cl c).Run (LogsAbove c) {} tr s := by
  refine h.trace_invariant (I := fun tr s => s.Distinct → tr.length < 2 ^ 64 →
    (race cl c).Run (LogsAbove c) {} tr s) (fun _ _ => .nil) ?_ hd hlen
  intro tr s a s' ih hs _ hd hlen
  have hf := step_fires hs
  rw [List.length_append, List.length_singleton] at hlen
  have hrun := ih (fun i k v h1 h2 => hd i k v (hf.okVersion h1) (hf.okVersion h2)) (by omega)
  have hinv := versionInv_of_run hc hbar hrun
  obtain ⟨hp, hcount⟩ := pending_of_run hc hbar hrun
  refine hrun.step hs ?_
  unfold LogsAbove
  split
  on_goal 2 => trivial
  rename_i i
  split
  on_goal 2 => trivial
  rename_i req v l hi
  intro hm
  have hv := okVersion_log hc hbar hinv.wf hi hm hf
  by_contra hnot
  rcases hp i req v l [] hi with rfl | ⟨k, hk⟩
  · -- the version cannot have wrapped around yet
    have hle : (tableVersion s.chunkTable c + 1).toNat ≤ (tableVersion s.chunkTable c).toNat :=
      UInt64.le_iff_toNat_le.mp (UInt64.not_lt.mp hnot)
    rw [UInt64.toNat_add] at hle
    simp at hle
    omega
  · obtain rfl : k = i := hd k i v (hf.okVersion hk) hv
    rw [okVersion_of_phase hi] at hk
    simp [PutPhase.okVersion] at hk

end Distinct

end NimbusVault
