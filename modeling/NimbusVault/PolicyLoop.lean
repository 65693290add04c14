import NimbusVault.LeaderTable
import NimbusVault.Policy

/-!
# PolicyLoop — the loop that follows the tiers

A pass of the loop reads the chunks, evaluates the policy for one after the other, and asks the
driver for a reconfiguration when a window has changed the tier and the factor the pass read is not
that of the new tier.  Everything else that the leader does goes on meanwhile: the loop's state is
the leader's, with the access states and the place in the pass.

A reconfiguration that fails is not asked for again, and nothing looks at a factor that a put has
set: a window that keeps the tier never leads to a call (`policyCall_of_unchanged`).  So a chunk
that is off its tier's factor at the end of a pass is not brought back.  `policy_retries` says what
it takes that no pass ends so.
-/

namespace NimbusVault

open Lib

/-! ### The machine -/

/-- The configuration that the server uses: the defaults. -/
def defaultPolicy {φ : Type} (coldThreshold hotThreshold : φ) : PolicyConfig φ :=
  { coldThreshold, hotThreshold }

/-- `todo` is what is left of the pass, and `waiting` the driver call that the loop is in.  The last
two fields are history: whether an evaluation has changed the chunk's tier, and whether the last
pass ended with the chunk off its tier's factor. -/
structure LoopState extends LeaderState where
  access : Str → ChunkAccessState := fun _ => {}
  todo : Option (List ChunkEntry) := none
  waiting : Option (Str × ℕ) := none
  tierChanged : Str → Bool := fun _ => false
  offTier : Str → Bool := fun _ => false

inductive LoopStep
  | call (a : LeaderStep)
  | recordAccesses (chunkId : Str) (count : UInt64)
  | passBegin (chunks : List ChunkEntry)
  | evaluate (now : UInt64) (j : ℕ)
  | returned
  | passEnd

/-- A request of the loop itself. -/
def LeaderStep.OfPolicy : LeaderStep → Prop
  | .policy .. => True
  | _ => False

instance : DecidablePred LeaderStep.OfPolicy
  | .policy .. => .isTrue trivial
  | .nodes .. => .isFalse id
  | .deleteChunk .. => .isFalse id
  | .addReplica .. => .isFalse id
  | .removeReplica .. => .isFalse id
  | .call .. => .isFalse id

namespace LoopState

/-- The factor of the tier that the policy holds for the chunk. -/
def factor {φ : Type} (cfg : PolicyConfig φ) (s : LoopState) (c : Str) : Int32 :=
  cfg.rfForTier (s.access c).tier

/-- A STABLE chunk has another factor than its tier, which was changed. -/
def isOff {φ : Type} (cfg : PolicyConfig φ) (s : LoopState) (c : Str) : Bool :=
  s.tierChanged c && (s.chunkTable.get c).any fun e =>
    e.configState = .stable && e.replicationFactor ≠ s.factor cfg c

end LoopState

section Machine

variable {φ : Type} [LT φ] [LE φ] [DecidableLT φ] [DecidableLE φ] (cfg : PolicyConfig φ)
  (windowRate : UInt64 → Option UInt64 → φ)

namespace LoopState

/-- What the policy makes of the window of a chunk that the pass has read. -/
def evaluation (s : LoopState) (now : UInt64) (e : ChunkEntry) :
    ChunkAccessState × PolicyDecision :=
  evaluate cfg windowRate now e.chunkId (s.access e.chunkId)

/-- The factor with which the loop then calls the driver, if it does. -/
def policyCall (s : LoopState) (now : UInt64) (e : ChunkEntry) : Option Int32 :=
  let dec := (s.evaluation cfg windowRate now e).2
  if dec.changed ∧ dec.newRf ≠ e.replicationFactor then some dec.newRf else none

/-- The state after the evaluation of `e`. -/
def evaluated (s : LoopState) (now : UInt64) (e : ChunkEntry) (todo : List ChunkEntry) :
    LoopState :=
  let r := s.evaluation cfg windowRate now e
  { s with
    access := Function.update s.access e.chunkId r.1
    todo := some todo
    tierChanged :=
      Function.update s.tierChanged e.chunkId (s.tierChanged e.chunkId || r.2.changed) }

def step (s : LoopState) : LoopStep → Option LoopState
  | .call a =>
    if a.OfPolicy then none
    else (s.toLeaderState.step a).map fun l => { s with toLeaderState := l }
  | .recordAccesses c count =>
    some { s with access := Function.update s.access c ((s.access c).recordAccesses count) }
  | .passBegin chunks =>
    if s.todo = none ∧ chunks.Perm (getChunks s.chunkTable) then some { s with todo := some chunks }
    else none
  | .evaluate now j =>
    match s.todo, s.waiting with
    | some (e :: todo), none =>
      match s.policyCall cfg windowRate now e with
      | none => some (s.evaluated cfg windowRate now e todo)
      | some newRf =>
        (s.toLeaderState.step (.policy e.chunkId j newRf)).map fun l =>
          { s.evaluated cfg windowRate now e todo with
            toLeaderState := l, waiting := some (e.chunkId, j) }
    | _, _ => none
  | .returned =>
    match s.waiting with
    | some (c, j) =>
      match s.reconfigs c j with
      | some ⟨_, _, _, .finished _⟩ => some { s with waiting := none }
      | _ => none
    | none => none
  | .passEnd =>
    if s.todo = some [] ∧ s.waiting = none then
      some { s with todo := none, offTier := s.isOff cfg } else none

/-- At the next evaluation, of a chunk that the last pass left off its tier's factor: a window that
keeps the tier makes the loop call the driver with the tier's factor. -/
def Retries (s : LoopState) : Prop := ∀ now e todo,
  s.todo = some (e :: todo) → s.waiting = none → s.offTier e.chunkId = true →
    (s.evaluation cfg windowRate now e).1.tier = (s.access e.chunkId).tier →
    s.policyCall cfg windowRate now e = some (s.factor cfg e.chunkId)

end LoopState

/-- All runs of the policy loop next to the leader's calls. -/
abbrev policyLoop : Machine LoopState LoopStep := .ofStep (LoopState.step cfg windowRate)

end Machine

/-! ### The condition -/

/-- A put about to be logged, with a storage majority, asks for the factor `f`. -/
def PutPhase.LogsFactor (f : Int32) : PutPhase → Prop
  | .writing req _ l [] => l.majorityNeeded ≤ l.successfulAddrs.length → req.desiredRf = f
  | _ => True

instance (f : Int32) : (p : PutPhase) → Decidable (p.LogsFactor f)
  | .writing req _ l [] =>
    inferInstanceAs (Decidable (l.majorityNeeded ≤ l.successfulAddrs.length → req.desiredRf = f))
  | .writing _ _ _ (_ :: _) => .isTrue trivial
  | .checked _ => .isTrue trivial
  | .undoing _ _ => .isTrue trivial
  | .answered _ => .isTrue trivial
  | .threw => .isTrue trivial

/-- The chunk is not STABLE at another factor than `f`. -/
def ChunkEntry.StableAt (f : Int32) (e : ChunkEntry) : Prop :=
  e.configState = .stable → e.replicationFactor = f

instance (f : Int32) (e : ChunkEntry) : Decidable (e.StableAt f) :=
  inferInstanceAs (Decidable (_ → _))

namespace LoopState

/-- What another call commits for a chunk whose tier was changed sets the factor of that tier. -/
def CallAgrees {φ : Type} (cfg : PolicyConfig φ) (s : LoopState) : LeaderStep → Prop
  | .call c (.log i quorum) => s.tierChanged c = true → quorum = true →
    ∀ p ∈ s.puts c i, p.LogsFactor (s.factor cfg c)
  | .call c (.commit j quorum) => s.tierChanged c = true → quorum = true →
    s.waiting ≠ some (c, j) → ∀ req ∈ s.requests c j, req.newRf = s.factor cfg c
  | _ => True

/-- A driver call of the loop that has failed did not leave its chunk STABLE off its tier's factor.
-/
def ReturnAgrees {φ : Type} (cfg : PolicyConfig φ) (s : LoopState) : Prop :=
  ∀ w ∈ s.waiting, ∀ call ∈ s.reconfigs w.1 w.2, call.phase = .finished false →
    ∀ e ∈ s.chunkTable.get w.1, e.StableAt (s.factor cfg w.1)

/-- Where a window changes the tier to one with the factor that the pass has read for the chunk,
that is still the chunk's factor. -/
def EvaluateAgrees {φ : Type} [LT φ] [LE φ] [DecidableLT φ] [DecidableLE φ] (cfg : PolicyConfig φ)
    (windowRate : UInt64 → Option UInt64 → φ) (s : LoopState) (now : UInt64) : Prop :=
  ∀ todo ∈ s.todo, ∀ e ∈ todo.head?, (s.evaluation cfg windowRate now e).2.changed = true →
    (s.evaluation cfg windowRate now e).2.newRf = e.replicationFactor →
      ∀ x ∈ s.chunkTable.get e.chunkId, x.StableAt e.replicationFactor

/-- What keeps the chunks at the factors of their tiers. -/
def StepAgrees {φ : Type} [LT φ] [LE φ] [DecidableLT φ] [DecidableLE φ] (cfg : PolicyConfig φ)
    (windowRate : UInt64 → Option UInt64 → φ) (s : LoopState) : LoopStep → Prop
  | .call a => a.PlainId ∧ s.CallAgrees cfg a
  | .evaluate now _ => s.EvaluateAgrees cfg windowRate now
  | .returned => s.ReturnAgrees cfg
  | _ => True

instance {φ : Type} (cfg : PolicyConfig φ) (s : LoopState) : (a : LeaderStep) →
    Decidable (s.CallAgrees cfg a)
  | .call c (.log i quorum) => inferInstanceAs (Decidable (s.tierChanged c = true → quorum = true →
      ∀ p ∈ s.puts c i, p.LogsFactor (s.factor cfg c)))
  | .call c (.commit j quorum) => inferInstanceAs (Decidable (s.tierChanged c = true →
      quorum = true → s.waiting ≠ some (c, j) → ∀ req ∈ s.requests c j, req.newRf = s.factor cfg c))
  | .call _ (.check ..) => .isTrue trivial
  | .call _ (.place ..) => .isTrue trivial
  | .call _ (.write ..) => .isTrue trivial
  | .call _ (.undo ..) => .isTrue trivial
  | .call _ (.begin ..) => .isTrue trivial
  | .call _ (.start ..) => .isTrue trivial
  | .call _ (.fetch ..) => .isTrue trivial
  | .call _ (.copy ..) => .isTrue trivial
  | .call _ (.copied ..) => .isTrue trivial
  | .call _ (.verify ..) => .isTrue trivial
  | .nodes .. => .isTrue trivial
  | .deleteChunk .. => .isTrue trivial
  | .addReplica .. => .isTrue trivial
  | .removeReplica .. => .isTrue trivial
  | .policy .. => .isTrue trivial

instance {φ : Type} (cfg : PolicyConfig φ) (s : LoopState) : Decidable (s.ReturnAgrees cfg) :=
  inferInstanceAs (Decidable (∀ w ∈ s.waiting, ∀ call ∈ s.reconfigs w.1 w.2,
    call.phase = .finished false → ∀ e ∈ s.chunkTable.get w.1, e.StableAt (s.factor cfg w.1)))

instance {φ : Type} [LT φ] [LE φ] [DecidableLT φ] [DecidableLE φ] (cfg : PolicyConfig φ)
    (windowRate : UInt64 → Option UInt64 → φ) (s : LoopState) (now : UInt64) :
    Decidable (s.EvaluateAgrees cfg windowRate now) :=
  inferInstanceAs (Decidable (∀ todo ∈ s.todo, ∀ e ∈ todo.head?,
    (s.evaluation cfg windowRate now e).2.changed = true →
      (s.evaluation cfg windowRate now e).2.newRf = e.replicationFactor →
        ∀ x ∈ s.chunkTable.get e.chunkId, x.StableAt e.replicationFactor))

instance {φ : Type} [LT φ] [LE φ] [DecidableLT φ] [DecidableLE φ] (cfg : PolicyConfig φ)
    (windowRate : UInt64 → Option UInt64 → φ) (s : LoopState) : (a : LoopStep) →
    Decidable (s.StepAgrees cfg windowRate a)
  | .call a => inferInstanceAs (Decidable (a.PlainId ∧ s.CallAgrees cfg a))
  | .evaluate now _ => inferInstanceAs (Decidable (s.EvaluateAgrees cfg windowRate now))
  | .returned => inferInstanceAs (Decidable (s.ReturnAgrees cfg))
  | .recordAccesses .. => .isTrue trivial
  | .passBegin .. => .isTrue trivial
  | .passEnd => .isTrue trivial

end LoopState

/-! ### What sets the factor of a STABLE chunk -/

/-- The factor of the STABLE entry that an operation leaves. -/
def TableOp.stableFactor : TableOp → Option Int32
  | .put _ _ rf _ _ => some rf
  | .delete _ => none
  | .start _ _ _ => none
  | .commit _ new => some (Int32.ofNat new.length)

section Stable

variable {t t' : ChunkTable} {op : TableOp} {c c' : Str} {e : ChunkEntry}

/-- A STABLE entry was there before, or has its factor from the operation. -/
theorem get_apply_stable (he : (op.apply t).get c' = some e) (hst : e.configState = .stable) :
    t.get c' = some e ∨ c' = op.chunkId ∧ op.stableFactor = some e.replicationFactor := by
  rw [TableOp.apply, Kv.get_alter] at he
  split_ifs at he with hc
  · refine .inr ⟨hc, ?_⟩
    cases op with
    | put =>
      obtain rfl := Option.some.inj he
      rfl
    | delete => simp [TableOp.act] at he
    | start =>
      obtain ⟨e', -, rfl⟩ := Option.map_eq_some_iff.mp he
      simp [ChunkTable.startEntry] at hst
    | commit =>
      obtain ⟨e', -, rfl⟩ := Option.map_eq_some_iff.mp he
      rfl
  · exact .inl he

theorem get_applyWalEntry_stable {w : WalEntry} (ht : applyWalEntry t w = some t')
    (he : t'.get c' = some e) (hst : e.configState = .stable) : t.get c' = some e ∨
      ∃ op, decodeEntry w = some (some op) ∧ c' = op.chunkId ∧
        op.stableFactor = some e.replicationFactor := by
  rw [applyWalEntry_eq] at ht
  obtain ⟨op, hop, rfl⟩ := Option.map_eq_some_iff.mp ht
  cases op with
  | none => exact .inl he
  | some op =>
    rcases get_apply_stable he hst with h | h
    · exact .inl h
    · exact .inr ⟨op, hop, h⟩

/-- A COMMIT with targets sets the factor of its chunk, where the chunk is listed. -/
theorem get_commitPayload (hc : TableOp.PlainId c) {new : List Str} (hnew : ReplicaList new)
    (hne : new ≠ []) (ht : applyWalEntry t (commitPayload c new) = some t')
    (he : t'.get c = some e) : e.replicationFactor = Int32.ofNat new.length := by
  rw [applyWalEntry_commitPayload hc.1 hc.2 hnew.isField, if_neg hne] at ht
  obtain rfl := Option.some.inj ht
  rw [ChunkTable.applyReconfigCommit, Kv.get_alter_self] at he
  obtain ⟨e', -, rfl⟩ := Option.map_eq_some_iff.mp he
  rfl

end Stable

section Fires

variable {cl : Cluster} {c c' : Str} {s s' : RaceState} {a : RaceStep} {e : ChunkEntry}

/-- Where a STABLE entry comes from: it was there, or a put or a commit of the chunk has set its
factor. -/
theorem RaceState.Fires.get_stable (hf : Fires cl c s a s') (hc : TableOp.PlainId c)
    (h : CallsInv c s) (he : s'.chunkTable.get c' = some e) (hst : e.configState = .stable) :
    s.chunkTable.get c' = some e ∨ c' = c ∧
      ((∃ i req v l, a = .log i true ∧ s.puts i = some (.writing req v l []) ∧
          l.majorityNeeded ≤ l.successfulAddrs.length ∧ e.replicationFactor = req.desiredRf) ∨
        ∃ j old v new vs, a = .commit j true ∧
          s.reconfigs j = some ⟨old, v, new, .verifying vs []⟩ ∧
          e.replicationFactor = Int32.ofNat new.length) := by
  cases hf with
  | @log i quorum req v l hi =>
    obtain ⟨hreq, hentries, -, -, -, -⟩ := h.puts i _ hi
    have hid : TableOp.PlainId req.chunkId := hreq.symm ▸ hc
    change (putLog s.chunkTable req v l quorum).1.get c' = some e at he
    rcases putLog_cases s.chunkTable req v l quorum with ⟨hsame, -⟩ | ⟨t', rfl, hmaj, ht, hlog⟩
    · rw [hsame] at he
      exact .inl he
    · rw [hlog] at he
      rcases get_applyWalEntry_stable ht he hst with h' | ⟨op, hop, hcop, hrf⟩
      · exact .inl h'
      · rw [decodeEntry_putPayload hid fun x hx => (hentries x hx).1] at hop
        split_ifs at hop with hnil
        · simp at hop
        obtain rfl := Option.some.inj (Option.some.inj hop)
        exact .inr ⟨hcop.trans hreq, .inl ⟨i, req, v, l, rfl, hi, hmaj,
          (Option.some.inj hrf).symm⟩⟩
  | start hj ht =>
    have hcall := h.reconfigs _ _ hj
    rcases get_applyWalEntry_stable ht he hst with h' | ⟨op, hop, -, hrf⟩
    · exact .inl h'
    · rw [decodeEntry_startPayload hc (fun x hx => (hcall.old x hx).1) hcall.new.isField] at hop
      split_ifs at hop with hnil
      · simp at hop
      obtain rfl := Option.some.inj (Option.some.inj hop)
      simp [TableOp.stableFactor] at hrf
  | @commit j old new verified v t hj ht =>
    have hcall := h.reconfigs _ _ hj
    rcases get_applyWalEntry_stable ht he hst with h' | ⟨op, hop, hcop, hrf⟩
    · exact .inl h'
    · rw [decodeEntry_commitPayload hc hcall.new.isField] at hop
      split_ifs at hop with hnil
      · simp at hop
      obtain rfl := Option.some.inj (Option.some.inj hop)
      exact .inr ⟨hcop, .inr ⟨j, old, v, new, verified, rfl, hj, (Option.some.inj hrf).symm⟩⟩
  | _ => exact .inl he

end Fires

/-! ### The driver's calls and what they were asked for -/

/-- The `j`-th call has ended with its COMMIT. -/
def Committed (calls : ℕ → Option ReconfigCall) (j : ℕ) : Prop :=
  ∃ call, calls j = some call ∧ call.phase = .finished true

/-- Every call was asked for, and has as many targets as it was asked for unless it failed. -/
def Sized (reqs : ℕ → Option ReconfigReq) (calls : ℕ → Option ReconfigCall) : Prop :=
  ∀ j call, calls j = some call → ∃ req, reqs j = some req ∧
    (call.phase = .finished false ∨ (call.newNodes.length : ℤ) = req.newRf.toInt)

section Calls

variable {cl : Cluster} {c : Str} {s s' : RaceState} {a : RaceStep} {j k : ℕ}
  {calls : ℕ → Option ReconfigCall} {reqs : ℕ → Option ReconfigReq} {call : ReconfigCall}
  {old new : List Str} {v : UInt64} {phase phase' : ReconfigPhase}

theorem committed_update (h : Committed (Function.update calls j (some call)) k) :
    Committed calls k ∨ k = j ∧ call.phase = .finished true := by
  obtain ⟨call', hk, hphase⟩ := h
  rw [Function.update_apply] at hk
  split_ifs at hk with hkj
  · obtain rfl := Option.some.inj hk
    exact .inr ⟨hkj, hphase⟩
  · exact .inl ⟨call', hk, hphase⟩

/-- A call that goes on, or fails, has not committed. -/
theorem committed_of_update (h : Committed (Function.update calls j (some call)) k)
    (hphase : call.phase ≠ .finished true) : Committed calls k := by
  rcases committed_update h with h | ⟨-, h⟩
  · exact h
  · exact absurd h hphase

theorem Sized.update (h : Sized reqs calls) (hj : calls j = some ⟨old, v, new, phase⟩)
    (hphase : phase ≠ .finished false) :
    Sized reqs (Function.update calls j (some ⟨old, v, new, phase'⟩)) := by
  refine forall_update_some ?_ h
  obtain ⟨req, hreq, hlen⟩ := h j _ hj
  exact ⟨req, hreq, .inr (hlen.resolve_left hphase)⟩

/-- A begin that does not fail has as many targets as it was asked for. -/
theorem reconfigBegin_sized {t : ChunkTable} {newRf : Int32} {incl excl : Str}
    {selected : List Str} (hsel : ∀ e ∈ t.get c,
      SelectsTargets cl.nodes e.replicaSet newRf.toInt incl excl selected) :
    (reconfigBegin cl t c newRf incl excl selected).phase = .finished false ∨
      (reconfigBegin cl t c newRf incl excl selected).phase = .targeted ∧
        ((reconfigBegin cl t c newRf incl excl selected).newNodes.length : ℤ) = newRf.toInt := by
  rcases reconfigBegin_cases cl t c newRf incl excl selected with
    hcall | ⟨e, new, he, -, hnew, hcall⟩
  · rw [hcall]
    exact .inl rfl
  · obtain ⟨ids, rfl, -, hlen, -⟩ := reconfigTargets_ids (hsel e he) hnew
    rw [hcall]
    exact .inr ⟨rfl, by simpa using hlen⟩

theorem RaceState.Fires.sized (hf : Fires cl c s a s') (h : Sized reqs s.reconfigs)
    (hask : ∀ j newRf incl excl selected, a = .begin j newRf incl excl selected →
      reqs j = some ⟨newRf, incl, excl⟩) : Sized reqs s'.reconfigs := by
  cases hf with
  | @begin j newRf incl excl selected hj hsel =>
    refine forall_update_some ⟨_, hask j newRf incl excl selected rfl, ?_⟩ h
    rcases reconfigBegin_sized hsel with hp | ⟨-, hlen⟩
    · exact .inl hp
    · exact .inr hlen
  | startFailed hj => exact h.update hj (by simp)
  | start hj => exact h.update hj (by simp)
  | fetch hj => exact h.update hj (by simp)
  | copy hj => exact h.update hj (by simp)
  | copied hj => exact h.update hj (by simp)
  | verify hj => exact h.update hj (by simp)
  | commitFailed hj => exact h.update hj (by simp)
  | commit hj => exact h.update hj (by simp)
  | _ => exact h

/-- Only its own COMMIT ends a call so. -/
theorem RaceState.Fires.committed (hf : Fires cl c s a s') (h : Committed s'.reconfigs k) :
    Committed s.reconfigs k ∨ ∃ old v new vs, a = .commit k true ∧
      s.reconfigs k = some ⟨old, v, new, .verifying vs []⟩ ∧
      applyWalEntry s.chunkTable (commitPayload c new) = some s'.chunkTable := by
  cases hf with
  | begin hj hsel =>
    refine .inl (committed_of_update h ?_)
    rcases reconfigBegin_sized hsel with hp | ⟨hp, -⟩
    · simp [hp]
    · simp [hp]
  | startFailed hj => exact .inl (committed_of_update h (by simp))
  | start hj => exact .inl (committed_of_update h (by simp))
  | fetch hj =>
    refine .inl (committed_of_update h ?_)
    rcases ReconfigCall.fetch_cases rfl with hp | ⟨todo', fetched, hp⟩
    · rw [hp]
      simp
    · rw [hp]
      simp
  | copy hj hphase =>
    refine .inl (committed_of_update h ?_)
    rcases hphase with rfl | rfl
    · simp
    · simp
  | copied hj => exact .inl (committed_of_update h (by simp))
  | verify hj =>
    refine .inl (committed_of_update h ?_)
    rcases ReconfigCall.verify_cases rfl rfl with hp | ⟨hp, -⟩
    · rw [hp]
      simp
    · rw [hp]
      simp
  | commitFailed hj => exact .inl (committed_of_update h (by simp))
  | @commit j old new verified v t hj ht =>
    rcases committed_update h with h' | ⟨rfl, -⟩
    · exact .inl h'
    · exact .inr ⟨old, v, new, verified, rfl, hj, ht⟩
  | _ => exact .inl h

theorem Sized.mono (h : Sized reqs calls) {reqs' : ℕ → Option ReconfigReq}
    (hgrow : ∀ j req, reqs j = some req → reqs' j = some req) : Sized reqs' calls := by
  intro j call hj
  obtain ⟨req, hreq, hlen⟩ := h j call hj
  exact ⟨req, hgrow j req hreq, hlen⟩

/-- The commit of a call that was asked for sets the factor it was asked for. -/
theorem Sized.commit_factor (h : Sized reqs calls) {vs : List Str}
    (hj : calls j = some ⟨old, v, new, .verifying vs []⟩) {req : ReconfigReq}
    (hreq : reqs j = some req) : Int32.ofNat new.length = req.newRf := by
  obtain ⟨req', hreq', hlen⟩ := h j _ hj
  obtain rfl := Option.some.inj (hreq.symm.trans hreq')
  have hlen' : (new.length : ℤ) = req.newRf.toInt := hlen.resolve_left (by simp)
  rw [← Int32.ofInt_eq_ofNat, hlen', Int32.ofInt_toInt]

end Calls

/-- A new request leaves the other requests, the table and the driver's calls as they are. -/
theorem LeaderState.ask_some {s s' : LeaderState} {c : Str} {j : ℕ} {req : Except Str ReconfigReq}
    (hs : s.ask c j req = some s') : s.requests c j = none ∧
      (∀ r, req = .ok r → s'.requests c j = some r) ∧
      (∀ c' j' r, s.requests c' j' = some r → s'.requests c' j' = some r) ∧
      s'.chunkTable = s.chunkTable ∧ s'.reconfigs = s.reconfigs := by
  unfold LeaderState.ask at hs
  split_ifs at hs with hnew
  have hnone : s.requests c j = none := Option.isNone_iff_eq_none.mp hnew
  obtain rfl := Option.some.inj hs
  cases req with
  | error _ => exact ⟨hnone, fun r h => by simp at h, fun _ _ _ h => h, rfl, rfl⟩
  | ok r =>
    refine ⟨hnone, fun r' h => ?_, fun c' j' r' h => ?_, rfl, rfl⟩
    · obtain rfl := Except.ok.inj h
      show Function.update s.requests c (Function.update (s.requests c) j (some r)) c j = _
      rw [Function.update_self, Function.update_self]
    · show Function.update s.requests c (Function.update (s.requests c) j (some r)) c' j' = _
      by_cases hc : c' = c
      · subst hc
        rw [Function.update_self]
        by_cases hj : j' = j
        · subst hj
          rw [hnone] at h
          simp at h
        · rw [Function.update_of_ne hj, h]
      · rw [Function.update_of_ne hc, h]

/-! ### Agreement -/

/-- A chunk whose tier was changed is not STABLE at another factor, unless the loop is in a driver
call for it that has not committed yet. -/
structure LoopInv {φ : Type} (cfg : PolicyConfig φ) (s : LoopState) : Prop where
  leader : LeaderInv s.toLeaderState
  sized : ∀ c, Sized (s.requests c) (s.reconfigs c)
  waiting : ∀ c j, s.waiting = some (c, j) → s.requests c j = some { newRf := s.factor cfg c }
  agree : ∀ c e, s.tierChanged c = true → s.chunkTable.get c = some e → e.configState = .stable →
    e.replicationFactor = s.factor cfg c ∨
      ∃ j, s.waiting = some (c, j) ∧ ¬ Committed (s.reconfigs c) j
  offTier : ∀ c, s.offTier c = false

section Agreement

variable {φ : Type} {cfg : PolicyConfig φ} {s s' : LoopState} {l : LeaderState} {c : Str} {j : ℕ}

/-- Between the driver calls of the loop, every chunk agrees with its tier. -/
theorem LoopInv.stableAt (h : LoopInv cfg s) (hw : s.waiting = none) (hch : s.tierChanged c = true)
    {e : ChunkEntry} (he : s.chunkTable.get c = some e) : e.StableAt (s.factor cfg c) := by
  intro hst
  rcases h.agree c e hch he hst with hrf | ⟨j, hj, -⟩
  · exact hrf
  · rw [hw] at hj
    simp at hj

/-- The invariant looks at the requests, the driver's calls and the STABLE entries. -/
theorem LoopInv.frame (h : LoopInv cfg s) (hl : LeaderInv l)
    (hgrow : ∀ c j req, s.requests c j = some req → l.requests c j = some req)
    (hcalls : l.reconfigs = s.reconfigs)
    (htab : ∀ c e, l.chunkTable.get c = some e → e.configState = .stable →
      s.chunkTable.get c = some e) : LoopInv cfg { s with toLeaderState := l } where
  leader := hl
  sized c := by
    show Sized (l.requests c) (l.reconfigs c)
    rw [hcalls]
    exact (h.sized c).mono (hgrow c)
  waiting c j hw := hgrow c j _ (h.waiting c j hw)
  agree c e hch he hst := by
    show e.replicationFactor = s.factor cfg c ∨
      ∃ j, s.waiting = some (c, j) ∧ ¬ Committed (l.reconfigs c) j
    rw [hcalls]
    exact h.agree c e hch (htab c e he hst) hst
  offTier := h.offTier

/-- A step of a call on the chunk `c`. -/
theorem LoopInv.race (hpos : ∀ tier, 1 ≤ (cfg.rfForTier tier).toInt) (h : LoopInv cfg s)
    {a : RaceStep} {r : RaceState} (hc : TableOp.PlainId c) (hask : s.Asked c a)
    (hf : RaceState.Fires s.alive c (s.view c) a r) (hok : s.CallAgrees cfg (.call c a)) :
    LoopInv cfg { s with toLeaderState := s.toLeaderState.setView c r } := by
  have hview : CallsInv c (s.view c) := h.leader.2 c
  have hreconfigs : ∀ c', (s.toLeaderState.setView c r).reconfigs c' =
      if c' = c then r.reconfigs else s.reconfigs c' := fun c' => Function.update_apply _ _ _ _
  have hsized : Sized (s.requests c) r.reconfigs := by
    refine hf.sized (h.sized c) ?_
    rintro j newRf incl excl selected rfl
    exact hask
  refine ⟨h.leader.setView (hview.fires hc hf), fun c' => ?_, h.waiting, ?_, h.offTier⟩
  · show Sized (s.requests c') ((s.toLeaderState.setView c r).reconfigs c')
    rw [hreconfigs]
    split_ifs with hcc
    · rw [hcc]
      exact hsized
    · exact h.sized c'
  · intro c' e hch he hst
    show e.replicationFactor = s.factor cfg c' ∨
      ∃ j, s.waiting = some (c', j) ∧ ¬ Committed ((s.toLeaderState.setView c r).reconfigs c') j
    rcases hf.get_stable hc hview he hst with hold | ⟨rfl, hnew⟩
    · -- an entry that was there: only the end of the loop's own call matters
      rcases h.agree c' e hch hold hst with hrf | ⟨j, hw, hopen⟩
      · exact .inl hrf
      · rw [hreconfigs]
        split_ifs with hcc
        · subst hcc
          by_cases hcom : Committed r.reconfigs j
          · obtain ⟨old, v, new, vs, -, hj, ht⟩ := (hf.committed hcom).resolve_left hopen
            have hreq := h.waiting c' j hw
            have hrf : Int32.ofNat new.length = s.factor cfg c' :=
              (h.sized c').commit_factor hj hreq
            have hne : new ≠ [] := by
              rintro rfl
              have hp := hpos (s.access c').tier
              rw [show cfg.rfForTier (s.access c').tier = s.factor cfg c' from rfl, ← hrf] at hp
              exact absurd hp (by decide)
            exact .inl ((get_commitPayload hc (hview.reconfigs j _ hj).new hne ht he).trans hrf)
          · exact .inr ⟨j, hw, hcom⟩
        · exact .inr ⟨j, hw, hopen⟩
    · -- an entry with a new factor: a put, the loop's own commit, or that of another call
      refine .inl ?_
      rcases hnew with ⟨i, req, v, w, rfl, hi, hmaj, hrf⟩ | ⟨j, old, v, new, vs, rfl, hj, hrf⟩
      · rw [hrf]
        exact hok hch rfl _ hi hmaj
      · obtain ⟨req, hreq, -⟩ := h.sized c' j _ hj
        rw [hrf, (h.sized c').commit_factor hj hreq]
        by_cases hw : s.waiting = some (c', j)
        · have hown := h.waiting c' j hw
          rw [hreq] at hown
          obtain rfl := Option.some.inj hown
          rfl
        · exact hok hch rfl hw req hreq

/-- A request leaves every chunk as it is. -/
theorem LoopInv.ask (h : LoopInv cfg s) {req : Except Str ReconfigReq}
    (hs : s.toLeaderState.ask c j req = some l) : LoopInv cfg { s with toLeaderState := l } := by
  obtain ⟨-, -, hgrow, htab, hcalls⟩ := LeaderState.ask_some hs
  exact h.frame (h.leader.ask hs) hgrow hcalls fun c e he _ => htab ▸ he

theorem LoopInv.call (hpos : ∀ tier, 1 ≤ (cfg.rfForTier tier).toInt) (h : LoopInv cfg s)
    {a : LeaderStep} (hs : s.toLeaderState.step a = some l) (hid : a.PlainId)
    (hok : s.CallAgrees cfg a) : LoopInv cfg { s with toLeaderState := l } := by
  have hl : LeaderInv l := h.leader.step hs hid
  cases a with
  | nodes alive =>
    obtain rfl := Option.some.inj hs
    exact h.frame hl (fun _ _ _ hr => hr) rfl fun _ _ he _ => he
  | deleteChunk c quorum =>
    obtain ⟨r, hr, rfl⟩ := Option.map_eq_some_iff.mp hs
    refine h.frame hl (fun _ _ _ hr => hr) rfl fun c' e he hst => ?_
    change r.2.get c' = some e at he
    rcases deleteChunk_some hr with htab | htab
    · rwa [htab] at he
    · rw [htab] at he
      rcases get_apply_stable he hst with hold | ⟨-, hrf⟩
      · exact hold
      · simp [TableOp.stableFactor] at hrf
  | addReplica c j nodeId => exact h.ask hs
  | removeReplica c j nodeId => exact h.ask hs
  | policy c j newRf => exact h.ask hs
  | call c a =>
    simp only [LeaderState.step] at hs
    split_ifs at hs with hask
    obtain ⟨r, hr, rfl⟩ := Option.map_eq_some_iff.mp hs
    exact h.race hpos hid hask (RaceState.step_fires hr) hok

theorem LoopInv.recordAccesses (h : LoopInv cfg s) (c : Str) (count : UInt64) : LoopInv cfg
    { s with access := Function.update s.access c ((s.access c).recordAccesses count) } := by
  have htier : ∀ c', (Function.update s.access c ((s.access c).recordAccesses count) c').tier =
      (s.access c').tier := by
    intro c'
    by_cases hc : c' = c
    · rw [hc, Function.update_self]
      rfl
    · rw [Function.update_of_ne hc]
  have hfactor : ∀ c', LoopState.factor cfg { s with
      access := Function.update s.access c ((s.access c).recordAccesses count) } c' =
      s.factor cfg c' := fun c' => congrArg cfg.rfForTier (htier c')
  refine ⟨h.leader, h.sized, fun c' j hw => ?_, fun c' e hch he hst => ?_, h.offTier⟩
  · rw [hfactor]
    exact h.waiting c' j hw
  · rw [hfactor]
    exact h.agree c' e hch he hst

/-- The return of a driver call: it has committed, or the condition says that no harm is done. -/
theorem LoopInv.returned (h : LoopInv cfg s) (hw : s.waiting = some (c, j)) {call : ReconfigCall}
    {ok : Bool} (hcall : s.reconfigs c j = some call) (hphase : call.phase = .finished ok)
    (hok : s.ReturnAgrees cfg) : LoopInv cfg { s with waiting := none } := by
  refine ⟨h.leader, h.sized, fun c' j' hw' => by simp at hw', fun c' e hch he hst => .inl ?_,
    h.offTier⟩
  rcases h.agree c' e hch he hst with hrf | ⟨j', hw', hopen⟩
  · exact hrf
  · obtain ⟨rfl, rfl⟩ := Prod.mk.inj (Option.some.inj (hw.symm.trans hw'))
    cases ok with
    | true => exact absurd ⟨call, hcall, hphase⟩ hopen
    | false => exact hok _ hw call hcall hphase e he hst

theorem loopInv_init (cfg : PolicyConfig φ) (cl : Cluster) : LoopInv cfg { alive := cl } where
  leader := leaderInv_init cl
  sized c j call hj := by simp at hj
  waiting c j hw := by simp at hw
  agree c e hch := by simp at hch
  offTier c := rfl

theorem defaultPolicy_pos (coldThreshold hotThreshold : φ) (tier : ChunkTier) :
    1 ≤ ((defaultPolicy coldThreshold hotThreshold).rfForTier tier).toInt := by
  cases tier with
  | cold => exact (by decide : 1 ≤ (2 : Int32).toInt)
  | warm => exact (by decide : 1 ≤ (3 : Int32).toInt)
  | hot => exact (by decide : 1 ≤ (5 : Int32).toInt)

end Agreement

section Evaluation

variable {φ : Type} [LT φ] [LE φ] [DecidableLT φ] [DecidableLE φ] {cfg : PolicyConfig φ}
  {windowRate : UInt64 → Option UInt64 → φ} {s s' : LoopState} {e : ChunkEntry}
  {todo : List ChunkEntry} {now : UInt64} {c : Str} {j : ℕ}

theorem evaluation_changed_iff : (s.evaluation cfg windowRate now e).2.changed = true ↔
    (s.evaluation cfg windowRate now e).1.tier ≠ (s.access e.chunkId).tier := evaluate_changed_iff

/-- **A window that keeps the tier leads to no call**, whatever the chunk's factor. -/
theorem policyCall_of_unchanged
    (h : (s.evaluation cfg windowRate now e).1.tier = (s.access e.chunkId).tier) :
    s.policyCall cfg windowRate now e = none := by
  unfold LoopState.policyCall
  dsimp only
  exact if_neg fun hc => evaluation_changed_iff.mp hc.1 h

/-- An evaluation adds to the history of its chunk only. -/
theorem evaluated_tierChanged : (s.evaluated cfg windowRate now e todo).tierChanged c =
    if c = e.chunkId then s.tierChanged e.chunkId || (s.evaluation cfg windowRate now e).2.changed
    else s.tierChanged c := Function.update_apply _ _ _ _

theorem evaluated_factor : (s.evaluated cfg windowRate now e todo).factor cfg c =
    if c = e.chunkId then cfg.rfForTier (s.evaluation cfg windowRate now e).1.tier
    else s.factor cfg c := by
  show cfg.rfForTier (Function.update s.access e.chunkId _ c).tier = _
  rw [Function.update_apply]
  split_ifs with hc
  · rfl
  · rfl

/-- A window that changes the tier reports the factor of the new one. -/
theorem evaluated_newRf (h : (s.evaluation cfg windowRate now e).2.changed = true) :
    (s.evaluation cfg windowRate now e).2.newRf =
      (s.evaluated cfg windowRate now e todo).factor cfg e.chunkId := by
  rw [evaluated_factor, if_pos rfl]
  exact evaluate_newRf h

/-- The driver is called with the factor of the new tier. -/
theorem policyCall_eq_some {newRf : Int32} (h : s.policyCall cfg windowRate now e = some newRf) :
    newRf = (s.evaluated cfg windowRate now e todo).factor cfg e.chunkId := by
  unfold LoopState.policyCall at h
  dsimp only at h
  split_ifs at h with hc
  obtain rfl := Option.some.inj h
  exact evaluated_newRf hc.1

/-- After an evaluation every chunk agrees with its tier, but for the one the driver is called for.
-/
theorem LoopInv.stableAt_evaluated (h : LoopInv cfg s) (hw : s.waiting = none)
    (htodo : s.todo = some (e :: todo)) (hok : s.EvaluateAgrees cfg windowRate now) {x : ChunkEntry}
    (hch : (s.evaluated cfg windowRate now e todo).tierChanged c = true)
    (hx : s.chunkTable.get c = some x) :
    x.StableAt ((s.evaluated cfg windowRate now e todo).factor cfg c) ∨
      c = e.chunkId ∧ (s.policyCall cfg windowRate now e).isSome = true := by
  rw [evaluated_tierChanged] at hch
  by_cases hc : c = e.chunkId
  · subst hc
    rw [if_pos rfl] at hch
    cases hchanged : (s.evaluation cfg windowRate now e).2.changed with
    | false =>
      -- the chunk keeps its tier and its history
      have htier : (s.evaluation cfg windowRate now e).1.tier = (s.access e.chunkId).tier := by
        by_contra hne
        rw [evaluation_changed_iff.mpr hne] at hchanged
        simp at hchanged
      rw [hchanged, Bool.or_false] at hch
      rw [evaluated_factor, if_pos rfl, htier]
      exact .inl (h.stableAt hw hch hx)
    | true =>
      by_cases hrf : (s.evaluation cfg windowRate now e).2.newRf = e.replicationFactor
      · -- no call: the factor that the pass has read is that of the new tier
        rw [← evaluated_newRf hchanged, hrf]
        exact .inl (hok _ htodo e rfl hchanged hrf x hx)
      · refine .inr ⟨rfl, ?_⟩
        unfold LoopState.policyCall
        dsimp only
        rw [if_pos ⟨hchanged, hrf⟩]
        rfl
  · rw [if_neg hc] at hch
    rw [evaluated_factor, if_neg hc]
    exact .inl (h.stableAt hw hch hx)

theorem LoopInv.evaluate (h : LoopInv cfg s) (hok : s.EvaluateAgrees cfg windowRate now)
    (hs : s.step cfg windowRate (.evaluate now j) = some s') : LoopInv cfg s' := by
  simp only [LoopState.step] at hs
  split at hs
  · rename_i e todo htodo hw
    split at hs
    · rename_i hnone
      obtain rfl := Option.some.inj hs
      refine ⟨h.leader, h.sized, fun c j hw' => ?_, fun c x hch hx hst => .inl ?_, h.offTier⟩
      · rw [show (s.evaluated cfg windowRate now e todo).waiting = s.waiting from rfl, hw] at hw'
        simp at hw'
      · rcases h.stableAt_evaluated hw htodo hok hch hx with hagree | ⟨-, hsome⟩
        · exact hagree hst
        · rw [hnone] at hsome
          simp at hsome
    · rename_i newRf hcall
      obtain ⟨l, hl, rfl⟩ := Option.map_eq_some_iff.mp hs
      obtain ⟨hnew, hreq, hgrow, htab, hcalls⟩ := LeaderState.ask_some hl
      refine ⟨h.leader.ask hl, fun c => ?_, fun c j' hw' => ?_, fun c x hch hx hst => ?_, h.offTier⟩
      · show Sized (l.requests c) (l.reconfigs c)
        rw [hcalls]
        exact (h.sized c).mono (hgrow c)
      · obtain ⟨rfl, rfl⟩ := Prod.mk.inj (Option.some.inj hw')
        have hrf : newRf = (s.evaluated cfg windowRate now e todo).factor cfg e.chunkId :=
          policyCall_eq_some hcall
        rw [hreq _ rfl, hrf]
        rfl
      · change l.chunkTable.get c = some x at hx
        rw [htab] at hx
        rcases h.stableAt_evaluated hw htodo hok hch hx with hagree | ⟨rfl, -⟩
        · exact .inl (hagree hst)
        · -- the number of the call is new
          refine .inr ⟨j, rfl, ?_⟩
          rintro ⟨call, hj, -⟩
          change l.reconfigs e.chunkId j = some call at hj
          rw [hcalls] at hj
          obtain ⟨req, hreq', -⟩ := h.sized e.chunkId j call hj
          rw [hnew] at hreq'
          simp at hreq'
  · simp at hs

/-- **Every step that meets the condition keeps the chunks at their tiers' factors.** -/
theorem LoopInv.step (hpos : ∀ tier, 1 ≤ (cfg.rfForTier tier).toInt) (h : LoopInv cfg s)
    {a : LoopStep} (hs : s.step cfg windowRate a = some s')
    (hok : s.StepAgrees cfg windowRate a) : LoopInv cfg s' := by
  cases a with
  | call a =>
    simp only [LoopState.step] at hs
    split_ifs at hs
    obtain ⟨l, hl, rfl⟩ := Option.map_eq_some_iff.mp hs
    exact h.call hpos hl hok.1 hok.2
  | recordAccesses c count =>
    obtain rfl := Option.some.inj hs
    exact h.recordAccesses c count
  | passBegin chunks =>
    simp only [LoopState.step] at hs
    split_ifs at hs
    obtain rfl := Option.some.inj hs
    exact ⟨h.leader, h.sized, h.waiting, h.agree, h.offTier⟩
  | evaluate now j => exact h.evaluate hok hs
  | returned =>
    simp only [LoopState.step] at hs
    split at hs
    · rename_i c j hw
      split at hs
      · rename_i hcall
        obtain rfl := Option.some.inj hs
        exact h.returned hw hcall rfl hok
      · simp at hs
    · simp at hs
  | passEnd =>
    simp only [LoopState.step] at hs
    split_ifs at hs with hend
    obtain rfl := Option.some.inj hs
    refine ⟨h.leader, h.sized, h.waiting, h.agree, fun c => ?_⟩
    show s.isOff cfg c = false
    unfold LoopState.isOff
    cases hch : s.tierChanged c with
    | false => rfl
    | true =>
      cases he : s.chunkTable.get c with
      | none => rfl
      | some e =>
        have hagree := h.stableAt hend.2 hch he
        by_cases hst : e.configState = .stable
        · simp [hst, hagree hst]
        · simp [hst]

/-- **When the loop keeps the chunks at their tiers' factors.** While every step meets the
condition, no pass ends with a chunk off its tier's factor, so that none has to be called for again.
-/
theorem policy_retries {coldThreshold hotThreshold : φ} {cl : Cluster} {tr : List LoopStep}
    (h : (policyLoop (defaultPolicy coldThreshold hotThreshold) windowRate).Run
      (fun s a => s.StepAgrees (defaultPolicy coldThreshold hotThreshold) windowRate a)
      { alive := cl } tr s) :
    s.Retries (defaultPolicy coldThreshold hotThreshold) windowRate := by
  have hinv : LoopInv (defaultPolicy coldThreshold hotThreshold) s :=
    h.invariant_step (loopInv_init _ cl) fun s a s' hI hs hok =>
      hI.step (defaultPolicy_pos coldThreshold hotThreshold) hs hok
  intro now e todo htodo hw hoff
  rw [hinv.offTier] at hoff
  simp at hoff

end Evaluation

/-! Rates as rational numbers, and chunk `c` on node `n` of two nodes. -/

def exactRate (count : UInt64) (elapsedMs : Option UInt64) : ℚ :=
  (count.toNat : ℚ) / elapsedMs.elim 2 fun ms => max (1 / 10) ((ms.toNat : ℚ) / 1000)

def exactPolicy : PolicyConfig ℚ := defaultPolicy (1 / 10) 1

def loneEntry : ChunkEntry := ⟨['c'], 1, [['n', '=', 'a']], 1, .stable, [], 1⟩

def putC : List LoopStep := (onePut 0 ['x']).map (.call ∘ .call ['c'])

/-- A pass that changes nothing. -/
def idlePass (now : UInt64) : List LoopStep :=
  [.passBegin [loneEntry], .evaluate now 0, .passEnd]

/-- After five windows without a read the chunk is cold, and is given a second replica. -/
def coolRun : List LoopStep :=
  putC ++ idlePass 1000 ++ idlePass 3000 ++ idlePass 5000 ++ idlePass 7000 ++
    [.passBegin [loneEntry], .evaluate 9000 0] ++
    ([.begin 0 2 [] [] [['m']], .start 0 true, .fetch 0 .answered, .fetch 0 .answered,
      .copy 0 .answered, .copied 0, .verify 0 .answered, .verify 0 .answered,
      .commit 0 true] : List RaceStep).map (.call ∘ .call ['c']) ++
    [.returned, .passEnd,
      .passBegin [⟨['c'], 1, [['n', '=', 'a'], ['m', '=', 'b']], 2, .stable, [], 1⟩]]

def coolState : LoopState :=
  (policyLoop exactPolicy exactRate).final (fun s a => s.StepAgrees exactPolicy exactRate a)
    { alive := pairCluster } coolRun

theorem coolState_run : (policyLoop exactPolicy exactRate).Run
    (fun s a => s.StepAgrees exactPolicy exactRate a) { alive := pairCluster } coolRun coolState :=
  Machine.run_final (by decide +kernel)

theorem policy_retries_cool : coolState.Retries (defaultPolicy (1 / 10) 1) exactRate :=
  policy_retries coolState_run

/-- The chunk is read a hundred times in every window.  The third makes it hot, and there are not
enough nodes for the factor 5. -/
def hotPass (now : UInt64) : List LoopStep :=
  [.recordAccesses ['c'] 100, .passBegin [loneEntry], .evaluate now 0]

def lostRun : List LoopStep :=
  putC ++ hotPass 1000 ++ .passEnd :: hotPass 3000 ++ .passEnd :: hotPass 5000 ++
    [.call (.call ['c'] (.begin 0 5 [] [] [['m']])), .returned, .passEnd,
      .recordAccesses ['c'] 100, .passBegin [loneEntry]]

def lostState : LoopState :=
  (policyLoop exactPolicy exactRate).final (fun _ _ => True) { alive := pairCluster } lostRun

theorem lostState_reach :
    (policyLoop exactPolicy exactRate).Reach { alive := pairCluster } lostRun lostState :=
  Machine.run_final (by decide +kernel)

/-- **A factor that could not be reached is not asked for again.** -/
theorem failed_reconfig_not_retried : ¬ ∀ (cl : Cluster) tr s,
    (policyLoop exactPolicy exactRate).Reach { alive := cl } tr s →
      s.Retries exactPolicy exactRate := by
  intro h
  have htier : (lostState.evaluation exactPolicy exactRate 7000 loneEntry).1.tier =
      (lostState.access loneEntry.chunkId).tier := by decide +kernel
  have hcall := h pairCluster lostRun lostState lostState_reach 7000 loneEntry []
    (by decide +kernel) (by decide +kernel) (by decide +kernel) htier
  rw [policyCall_of_unchanged htier] at hcall
  simp at hcall

end NimbusVault
