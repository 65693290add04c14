import NimbusVault.ReconfigRun

/-!
# OneGo — calls cut into steps, and the handlers in one go

`putChunk` and `reconfig` are the handlers as one step each; in `RaceState.step` the same calls are
cut at their table reads, RPCs and log writes.  A put under way that nothing else cuts into has made
`PutProgress`: what it has done so far is the front of a whole call.  For a reconfiguration, `rest`
is what remains of the handler from a phase on, and every step `Continues` it.
-/

namespace NimbusVault

open Lib

/-! ### Which call a step belongs to -/

inductive CallId
  | put (i : ℕ)
  | reconfig (j : ℕ)
  deriving DecidableEq

def RaceStep.owner : RaceStep → CallId
  | .check i _ => .put i
  | .place i _ => .put i
  | .write i _ => .put i
  | .log i _ => .put i
  | .undo i _ => .put i
  | .begin j .. => .reconfig j
  | .start j _ => .reconfig j
  | .fetch j _ => .reconfig j
  | .copy j _ => .reconfig j
  | .copied j => .reconfig j
  | .verify j _ => .reconfig j
  | .commit j _ => .reconfig j

/-! ### Puts -/

/-- How the outcome of a put shows among the calls. -/
def PutResult.phase (r : PutResult) : PutPhase := r.resp.elim .threw .answered

/-- The nodes are some that placement may select, wherever it is asked. -/
def PutEnv.Chosen (env : PutEnv) (cl : Cluster) (t : ChunkTable) (req : PutChunkReq) : Prop :=
  isTransitioning t req.chunkId = false →
    SelectsNodes req.desiredRf.toInt cl.nodes [] (env.nodes.map Prod.fst)

instance (env : PutEnv) (cl : Cluster) (t : ChunkTable) (req : PutChunkReq) :
    Decidable (env.Chosen cl t req) :=
  inferInstanceAs (Decidable (_ → _))

/-- How far a put has got that began over `t` and `ss₀`; a finished one is a whole call. -/
def PutProgress (cl : Cluster) (t : ChunkTable) (ss₀ : Stores) (req : PutChunkReq) (t' : ChunkTable)
    (ss : Stores) : PutPhase → Prop
  | .checked req' => req' = req ∧ isTransitioning t req.chunkId = false ∧ t' = t ∧ ss = ss₀
  | .writing req' v l todo =>
    req' = req ∧ isTransitioning t req.chunkId = false ∧ t' = t ∧ v = t.nextVersion req.chunkId ∧
      ∃ done : List (Str × RpcFate),
        SelectsNodes req.desiredRf.toInt cl.nodes [] (done.map Prod.fst ++ todo) ∧
        req.desiredRf.toInt ≤ ((done.map Prod.fst ++ todo).length : ℤ) ∧
        storageWrites cl.nodes ss₀ req.chunkId v req.data done = ⟨l, ss⟩
  | .undoing error todo =>
    todo ≠ [] ∧ t' = t ∧ ∃ nodes quorum ss₁ done b,
      SelectsNodes req.desiredRf.toInt cl.nodes [] (nodes.map Prod.fst) ∧
      (∀ b, putChunk true cl.nodes t ss₀ req ⟨nodes, quorum, b⟩ =
        ⟨some { ok := false, error }, some (t.nextVersion req.chunkId), t,
          rollback ss₁ req.chunkId b (done ++ todo)⟩) ∧
      ss = rollback ss₁ req.chunkId b done
  | phase => ∃ env : PutEnv, env.Chosen cl t req ∧
      let r := putChunk true cl.nodes t ss₀ req env
      r.phase = phase ∧ r.chunkTable = t' ∧ r.stores = ss

section Puts

variable {cl : Cluster} {t t' : ChunkTable} {ss₀ ss : Stores} {req req' : PutChunkReq} {id a : Str}
  {b : Str → Bool} {v : UInt64} {l : WriteLocals}

theorem ChunkStore.remove_remove (st : ChunkStore) (id : Str) :
    (st.remove id).remove id = st.remove id := by
  refine congrArg ChunkStore.mk (Kv.ext_get fun k => ?_)
  show ((st.db.eraseRange _ _).eraseRange _ _).get k = (st.db.eraseRange _ _).get k
  rw [Kv.get_eraseRange]
  split_ifs with hk
  · rw [Kv.get_eraseRange, if_pos hk]
  · rfl

theorem rollback_apply {addrs : List Str} : rollback ss id b addrs a =
    if a ∈ addrs ∧ b a = true ∧ a ≠ [] then (ss a).remove id else ss a := by
  unfold rollback
  induction addrs generalizing ss with
  | nil => simp
  | cons x addrs ih =>
    rw [List.foldl_cons, ih, deleteChunkFromReplica_apply]
    by_cases hx : x = a
    · subst hx
      by_cases hb : b x = true ∧ x ≠ []
      · simp [hb, ChunkStore.remove_remove]
      · simp [hb]
    · simp [hx, Ne.symm hx]

/-- One delete more is a rollback again. -/
theorem exists_rollback_snoc (ss : Stores) (id : Str) (b : Str → Bool) (done : List Str) (addr : Str)
    (executed : Bool) : ∃ b', deleteChunkFromReplica (rollback ss id b done) addr id executed =
      rollback ss id b' (done ++ [addr]) := by
  -- an address may come up twice
  refine ⟨fun x => if x = addr then executed || (decide (addr ∈ done) && b addr) else b x, ?_⟩
  funext x
  have htwice : (rollback ss id b done x).remove id = (ss x).remove id := by
    rw [rollback_apply]
    split_ifs
    · exact ChunkStore.remove_remove _ id
    · rfl
  rw [deleteChunkFromReplica_apply]
  by_cases hx : x = addr
  · subst hx
    by_cases hne : x = []
    · simp [hne, rollback_apply]
    · cases executed with
      | false => simp [hne, rollback_apply]
      | true =>
        rw [if_pos ⟨rfl, rfl, hne⟩, htwice, rollback_apply]
        simp [hne]
  · simp [hx, Ne.symm hx, rollback_apply]

theorem putProgress_putCheck : PutProgress cl t ss req t ss (putCheck t req) := by
  unfold putCheck
  split_ifs with htr
  · refine ⟨⟨[], false, fun _ => false⟩, fun hfree => absurd htr (by simp [hfree]), ?_⟩
    rw [putChunk, if_neg (by simp), if_pos htr]
    exact ⟨rfl, rfl, rfl⟩
  · exact ⟨rfl, by simpa using htr, rfl, rfl⟩

theorem PutProgress.place {nodes : List Str} (h : PutProgress cl t ss₀ req t' ss (.checked req'))
    (hsel : SelectsNodes req'.desiredRf.toInt cl.nodes [] nodes) :
    PutProgress cl t ss₀ req t' ss (putPlace t' req' nodes) := by
  obtain ⟨rfl, hfree, rfl, rfl⟩ := h
  unfold putPlace
  split_ifs with hfew
  · refine ⟨⟨nodes.map (·, .answered), false, fun _ => false⟩, fun _ => ?_, ?_⟩
    · simpa [Function.comp_def] using hsel
    · rw [putChunk, if_neg (by simp), if_neg (by simp [hfree]), if_pos (by simpa using hfew)]
      exact ⟨rfl, rfl, rfl⟩
  · exact ⟨rfl, hfree, rfl, rfl, [], hsel, not_lt.mp hfew, rfl⟩

theorem PutProgress.write {n : Str} {todo : List Str} (fate : RpcFate)
    (h : PutProgress cl t ss₀ req t' ss (.writing req' v l (n :: todo))) :
    let p := putReplica cl.nodes req.chunkId v req'.data ⟨l, ss⟩ (n, fate)
    PutProgress cl t ss₀ req t' p.stores (.writing req' v p.toWriteLocals todo) := by
  obtain ⟨rfl, hfree, rfl, hv, done, hsel, hrf, hdone⟩ := h
  have happ : (done ++ [(n, fate)]).map Prod.fst ++ todo = done.map Prod.fst ++ n :: todo := by simp
  refine ⟨rfl, hfree, rfl, hv, done ++ [(n, fate)], happ ▸ hsel, happ ▸ hrf, ?_⟩
  rw [storageWrites, List.foldl_append]
  unfold storageWrites at hdone
  rw [hdone]
  rfl

/-- A call that has failed behind its writes, and has rolled back the front of them. -/
theorem putProgress_putUndo (ss₁ : Stores) (done : List Str) (quorum : Bool) {error : Str}
    {todo : List Str} {nodes : List (Str × RpcFate)}
    (hsel : SelectsNodes req.desiredRf.toInt cl.nodes [] (nodes.map Prod.fst))
    (hrest : ∀ b, putChunk true cl.nodes t ss₀ req ⟨nodes, quorum, b⟩ =
      ⟨some { ok := false, error }, some (t.nextVersion req.chunkId), t,
        rollback ss₁ req.chunkId b (done ++ todo)⟩)
    (b : Str → Bool) :
    PutProgress cl t ss₀ req t (rollback ss₁ req.chunkId b done) (putUndo error todo) := by
  unfold putUndo
  split_ifs with htodo
  · subst htodo
    refine ⟨⟨nodes, quorum, b⟩, fun _ => hsel, ?_⟩
    rw [hrest, List.append_nil]
    exact ⟨rfl, rfl, rfl⟩
  · exact ⟨htodo, rfl, nodes, quorum, ss₁, done, b, hsel, hrest, rfl⟩

theorem PutProgress.undo {error addr : Str} {todo : List Str} (executed : Bool)
    (h : PutProgress cl t ss₀ req t' ss (.undoing error (addr :: todo))) :
    PutProgress cl t ss₀ req t' (deleteChunkFromReplica ss addr req.chunkId executed)
      (putUndo error todo) := by
  obtain ⟨-, rfl, nodes, quorum, ss₁, done, b, hsel, hrest, rfl⟩ := h
  obtain ⟨b', hb'⟩ := exists_rollback_snoc ss₁ req.chunkId b done addr executed
  rw [hb']
  refine putProgress_putUndo ss₁ (done ++ [addr]) quorum hsel (fun b => ?_) b'
  rw [hrest b, List.append_assoc, List.singleton_append]

theorem PutProgress.log (quorum : Bool)
    (h : PutProgress cl t ss₀ req t' ss (.writing req' v l [])) :
    PutProgress cl t ss₀ req (putLog t' req' v l quorum).1 ss (putLog t' req' v l quorum).2 := by
  obtain ⟨rfl, hfree, rfl, rfl, done, hsel, hrf, hdone⟩ := h
  rw [List.append_nil] at hsel hrf
  have hput : ∀ b, putChunk true cl.nodes t' ss₀ req' ⟨done, quorum, b⟩ =
      putWritten t' req' ⟨done, quorum, b⟩ (t'.nextVersion req'.chunkId) ⟨l, ss⟩ := by
    intro b
    rw [putChunk_admitted ⟨rfl, hfree, by simpa using hrf⟩, putWrites, hdone]
  unfold putLog
  split_ifs with hmaj
  · refine putProgress_putUndo ss [] quorum hsel (fun b => ?_) fun _ => false
    rw [hput, putWritten, if_pos hmaj]
    rfl
  · cases hmeta : metaWrite t' (putPayload req' (t'.nextVersion req'.chunkId) l.replicaEntries)
      quorum with
    | none =>
      refine ⟨⟨done, quorum, fun _ => false⟩, fun _ => hsel, ?_⟩
      rw [hput, putWritten, if_neg hmaj, hmeta]
      exact ⟨rfl, rfl, rfl⟩
    | some p =>
      obtain ⟨ok, t₁⟩ := p
      cases ok with
      | false =>
        refine putProgress_putUndo ss [] quorum hsel (fun b => ?_) fun _ => false
        rw [hput, putWritten, if_neg hmaj, hmeta]
        rfl
      | true =>
        refine ⟨⟨done, quorum, fun _ => false⟩, fun _ => hsel, ?_⟩
        rw [hput, putWritten, if_neg hmaj, hmeta]
        exact ⟨rfl, rfl, rfl⟩

/-- **Every step of the call is progress.** -/
theorem PutProgress.step {r r' : RaceState} {s : RaceStep} {i : ℕ} {p : PutPhase}
    (h : PutProgress cl t ss₀ req r.chunkTable r.stores p) (hp : r.puts i = some p)
    (hs : r.step cl req.chunkId s = some r') (how : s.owner = .put i) :
    ∃ p', r'.puts = Function.update r.puts i (some p') ∧ r'.reconfigs = r.reconfigs ∧
      PutProgress cl t ss₀ req r'.chunkTable r'.stores p' := by
  cases s with
  | check k req =>
    obtain rfl : k = i := by simpa [RaceStep.owner] using how
    simp [RaceState.step, hp] at hs
  | place k nodes =>
    obtain rfl : k = i := by simpa [RaceStep.owner] using how
    simp only [RaceState.step, hp] at hs
    split at hs
    · rename_i req' heq
      obtain rfl := Option.some.inj heq
      split_ifs at hs with hsel
      obtain rfl := Option.some.inj hs
      exact ⟨_, rfl, rfl, h.place hsel⟩
    · simp at hs
  | write k fate =>
    obtain rfl : k = i := by simpa [RaceStep.owner] using how
    simp only [RaceState.step, hp] at hs
    split at hs
    · rename_i req' v l n todo heq
      obtain rfl := Option.some.inj heq
      obtain rfl := Option.some.inj hs
      exact ⟨_, rfl, rfl, h.write fate⟩
    · simp at hs
  | log k quorum =>
    obtain rfl : k = i := by simpa [RaceStep.owner] using how
    simp only [RaceState.step, hp] at hs
    split at hs
    · rename_i req' v l heq
      obtain rfl := Option.some.inj heq
      obtain rfl := Option.some.inj hs
      exact ⟨_, rfl, rfl, h.log quorum⟩
    · simp at hs
  | undo k executed =>
    obtain rfl : k = i := by simpa [RaceStep.owner] using how
    simp only [RaceState.step, hp] at hs
    split at hs
    · rename_i error addr todo heq
      obtain rfl := Option.some.inj heq
      obtain rfl := Option.some.inj hs
      exact ⟨_, rfl, rfl, h.undo executed⟩
    · simp at hs
  | _ => simp [RaceStep.owner] at how

end Puts

/-! ### Reconfigurations -/

/-- The nodes stay the same all through the call, and placement selects these. -/
structure ReconfigEnv.On (env : ReconfigEnv) (cl : Cluster) (selected : List Str) : Prop where
  alive : env.alive = cl.nodes
  atCopy : env.aliveAtCopy = cl.nodes
  atVerify : env.aliveAtVerify = cl.nodes
  selected : env.selected = selected

instance (env : ReconfigEnv) (cl : Cluster) (selected : List Str) : Decidable (env.On cl selected) :=
  decidable_of_iff (env.alive = cl.nodes ∧ env.aliveAtCopy = cl.nodes ∧ env.aliveAtVerify = cl.nodes ∧
      env.selected = selected)
    ⟨fun ⟨h1, h2, h3, h4⟩ => ⟨h1, h2, h3, h4⟩, fun h => ⟨h.alive, h.atCopy, h.atVerify, h.selected⟩⟩

namespace ReconfigCall

/-- The nodes `todo` are still to be verified. -/
def verifyRest (cl : Cluster) (c : Str) (v : UInt64) (new : List Str) (t : ChunkTable) (ss : Stores)
    (todo : List Str) (env : ReconfigEnv) : ReconfigResult :=
  if verifyReplicas cl.nodes ss c v todo env.verifies = false then ⟨false, t, ss⟩
  else match metaWrite t (commitPayload c new) env.commitQuorum with
    | some (true, t) => ⟨true, t, ss⟩
    | _ => ⟨false, t, ss⟩

def copyRest (cl : Cluster) (c : Str) (old : List Str) (v : UInt64) (new : List Str)
    (t : ChunkTable) (ss : Stores) (todo : List Str) (env : ReconfigEnv) : ReconfigResult :=
  let copy := copyReplicas cl.nodes (copySource cl.nodes old) (old.map extractNodeId) c v env.copies
    todo ss
  if copy.1 = false then ⟨false, t, copy.2⟩ else verifyRest cl c v new t copy.2 new env

/-- What remains of the handler. -/
def rest (cl : Cluster) (c : Str) (t : ChunkTable) (ss : Stores) (env : ReconfigEnv) :
    ReconfigCall → ReconfigResult
  | ⟨old, v, new, .targeted⟩ =>
    match metaWrite t (startPayload c old new) env.startQuorum with
    | some (true, t) => reconfigStarted t ss c v old new env
    | _ => ⟨false, t, ss⟩
  | ⟨old, v, new, .copying todo none⟩ => copyRest cl c old v new t ss todo env
  | ⟨old, v, new, .copying (dst :: todo) (some data)⟩ =>
    match writeChunkToReplica ss (resolveReplicaAddress cl.nodes dst) c v data (env.copies dst).2 with
    | (false, ss) => ⟨false, t, ss⟩
    | (true, ss) => copyRest cl c old v new t ss todo env
  | ⟨_, _, _, .copying [] (some _)⟩ => ⟨false, t, ss⟩
  | ⟨_, v, new, .verifying _ todo⟩ => verifyRest cl c v new t ss todo env
  | ⟨_, _, _, .finished ok⟩ => ⟨ok, t, ss⟩

/-- No node is left to visit twice. -/
def Fresh : ReconfigCall → Prop
  | ⟨_, _, new, .copying todo _⟩ => new.Nodup ∧ todo.Nodup
  | ⟨_, _, new, .verifying _ todo⟩ => new.Nodup ∧ todo.Nodup
  | ⟨_, _, new, _⟩ => new.Nodup

/-- The call `call'` with table and stores `t'` and `ss'` is `call` a step later. -/
def Continues (cl : Cluster) (c : Str) (selected : List Str) (call : ReconfigCall) (t : ChunkTable)
    (ss : Stores) (call' : ReconfigCall) (t' : ChunkTable) (ss' : Stores) : Prop :=
  ∀ env : ReconfigEnv, env.On cl selected →
    ∃ env' : ReconfigEnv, env'.On cl selected ∧ rest cl c t ss env' call = rest cl c t' ss' env call'

end ReconfigCall

section Reconfigs

variable {cl : Cluster} {c dst entry : Str} {t : ChunkTable} {ss : Stores}
  {selected old new todo verified : List Str} {v : UInt64} {data : Str}

/-- Only the fates of the nodes to come matter. -/
theorem copyReplicas_congr {alive : List NodeEntry} {src : Str} {oldIds : List Str}
    {fates fates' : Str → RpcFate × RpcFate} (h : ∀ x ∈ todo, fates x = fates' x) :
    copyReplicas alive src oldIds c v fates todo ss =
      copyReplicas alive src oldIds c v fates' todo ss := by
  induction todo generalizing ss with
  | nil => rfl
  | cons x todo ih =>
    have htail : ∀ ss, copyReplicas alive src oldIds c v fates todo ss =
        copyReplicas alive src oldIds c v fates' todo ss :=
      fun ss => ih fun y hy => h y (List.mem_cons_of_mem x hy)
    simp only [copyReplicas, h x List.mem_cons_self, htail]

theorem copyReplicas_update {alive : List NodeEntry} {src : Str} {oldIds : List Str}
    {fates : Str → RpcFate × RpcFate} (h : dst ∉ todo) (f : RpcFate × RpcFate) :
    copyReplicas alive src oldIds c v (Function.update fates dst f) todo ss =
      copyReplicas alive src oldIds c v fates todo ss := by
  refine copyReplicas_congr fun x hx => ?_
  have hne : x ≠ dst := fun he => h (he ▸ hx)
  exact Function.update_of_ne hne _ _

theorem verifyReplicas_update {alive : List NodeEntry} {fates : Str → RpcFate} (h : entry ∉ todo)
    (f : RpcFate) : verifyReplicas alive ss c v todo (Function.update fates entry f) =
      verifyReplicas alive ss c v todo fates := by
  rw [Bool.eq_iff_iff, verifyReplicas, verifyReplicas, List.all_eq_true, List.all_eq_true]
  refine forall₂_congr fun x hx => ?_
  have hne : x ≠ entry := fun he => h (he ▸ hx)
  rw [verifyReplica, verifyReplica, Function.update_of_ne hne]

namespace ReconfigCall

/-- One node of the copy loop. -/
theorem copyRest_cons (env : ReconfigEnv) : copyRest cl c old v new t ss (dst :: todo) env =
    if extractNodeId dst ∈ old.map extractNodeId then copyRest cl c old v new t ss todo env
    else if copySource cl.nodes old = [] ∨ resolveReplicaAddress cl.nodes dst = [] ∨
        (env.copies dst).1 ≠ .answered then ⟨false, t, ss⟩
    else match fetchChunk (ss (copySource cl.nodes old)) c v with
      | none => ⟨false, t, ss⟩
      | some data => rest cl c t ss env ⟨old, v, new, .copying (dst :: todo) (some data)⟩ := by
  rw [copyRest, copyReplicas]
  by_cases hid : extractNodeId dst ∈ old.map extractNodeId
  · rw [if_pos hid, if_pos hid]
    rfl
  rw [if_neg hid, if_neg hid]
  by_cases hbad : copySource cl.nodes old = [] ∨ resolveReplicaAddress cl.nodes dst = [] ∨
      (env.copies dst).1 ≠ .answered
  · rw [if_pos hbad, if_pos hbad]
    rfl
  rw [if_neg hbad, if_neg hbad]
  cases fetchChunk (ss (copySource cl.nodes old)) c v with
  | none => rfl
  | some data =>
    obtain ⟨ok, ss₁, hw⟩ : ∃ ok ss₁, writeChunkToReplica ss (resolveReplicaAddress cl.nodes dst) c v
      data (env.copies dst).2 = (ok, ss₁) := ⟨_, _, rfl⟩
    simp only [rest, hw]
    cases ok with
    | false => rfl
    | true => rfl

/-- The fates of a node that is not to come do not matter. -/
theorem copyRest_update (env : ReconfigEnv) (f : RpcFate × RpcFate) (hdst : dst ∉ todo) :
    copyRest cl c old v new t ss todo { env with copies := Function.update env.copies dst f } =
      copyRest cl c old v new t ss todo env := by
  unfold copyRest
  dsimp only
  rw [copyReplicas_update hdst]
  rfl

theorem verifyRest_cons (env : ReconfigEnv) :
    verifyRest cl c v new t ss (entry :: todo) env =
      if verifyReplica cl.nodes ss c v env.verifies entry = false then ⟨false, t, ss⟩
      else verifyRest cl c v new t ss todo env := by
  rw [verifyRest, verifyReplicas, List.all_cons]
  cases verifyReplica cl.nodes ss c v env.verifies entry with
  | false => rfl
  | true => rfl

theorem verifyRest_update (env : ReconfigEnv) (f : RpcFate) (hentry : entry ∉ todo) :
    verifyRest cl c v new t ss todo { env with verifies := Function.update env.verifies entry f } =
      verifyRest cl c v new t ss todo env := by
  unfold verifyRest
  dsimp only
  rw [verifyReplicas_update hentry]

theorem reconfigStarted_eq {env env' : ReconfigEnv} (henv : env'.On cl selected)
    (hcopies : env'.copies = env.copies) (hverifies : env'.verifies = env.verifies)
    (hcommit : env'.commitQuorum = env.commitQuorum) :
    reconfigStarted t ss c v old new env' =
      copyRest cl c old v new t ss (if old = [] then [] else new) env := by
  unfold reconfigStarted copyToNewReplicas copyRest verifyRest
  dsimp only
  rw [hcopies, hverifies, hcommit, henv.atCopy, henv.atVerify]
  cases old with
  | nil => rfl
  | cons x old => rfl

theorem continues_start (quorum : Bool) {t' : ChunkTable}
    (h : metaWrite t (startPayload c old new) quorum = some (true, t')) :
    Continues cl c selected ⟨old, v, new, .targeted⟩ t ss
      ⟨old, v, new, .copying (if old = [] then [] else new) none⟩ t' ss := by
  intro env henv
  have henv' : ({ env with startQuorum := quorum } : ReconfigEnv).On cl selected :=
    ⟨henv.alive, henv.atCopy, henv.atVerify, henv.selected⟩
  refine ⟨_, henv', ?_⟩
  dsimp only [rest]
  rw [h]
  exact reconfigStarted_eq henv' rfl rfl rfl

/-- However a START fails, it could have missed its quorum. -/
theorem continues_startFailed :
    Continues cl c selected ⟨old, v, new, .targeted⟩ t ss ⟨old, v, new, .finished false⟩ t ss :=
  fun env henv => ⟨{ env with startQuorum := false },
    ⟨henv.alive, henv.atCopy, henv.atVerify, henv.selected⟩, rfl⟩

theorem continues_fetch (fate : RpcFate) (hdst : dst ∉ todo) (phase : ReconfigPhase) :
    Continues cl c selected ⟨old, v, new, .copying (dst :: todo) none⟩ t ss
      ⟨old, v, new, ReconfigCall.fetch cl c ss fate ⟨old, v, new, phase⟩ dst todo⟩ t ss := by
  intro env henv
  refine ⟨{ env with copies := Function.update env.copies dst (fate, (env.copies dst).2) },
    ⟨henv.alive, henv.atCopy, henv.atVerify, henv.selected⟩, ?_⟩
  show copyRest cl c old v new t ss (dst :: todo) _ = _
  rw [copyRest_cons, copyRest_update env _ hdst]
  simp only [ReconfigCall.fetch, Function.update_self]
  by_cases hid : extractNodeId dst ∈ old.map extractNodeId
  · rw [if_pos hid, if_pos hid]
    rfl
  rw [if_neg hid, if_neg hid]
  by_cases hbad : copySource cl.nodes old = [] ∨ resolveReplicaAddress cl.nodes dst = [] ∨
      fate ≠ .answered
  · rw [if_pos hbad, if_pos hbad]
    rfl
  rw [if_neg hbad, if_neg hbad]
  cases fetchChunk (ss (copySource cl.nodes old)) c v with
  | none => rfl
  | some data =>
    simp only [rest, Function.update_self, copyRest_update env _ hdst]

theorem continues_copy (fate : RpcFate) (hdst : dst ∉ todo) {ok : Bool} {ss' : Stores}
    (h : writeChunkToReplica ss (resolveReplicaAddress cl.nodes dst) c v data fate = (ok, ss')) :
    Continues cl c selected ⟨old, v, new, .copying (dst :: todo) (some data)⟩ t ss
      ⟨old, v, new, if ok then .copying todo none else .finished false⟩ t ss' := by
  intro env henv
  refine ⟨{ env with copies := Function.update env.copies dst ((env.copies dst).1, fate) },
    ⟨henv.alive, henv.atCopy, henv.atVerify, henv.selected⟩, ?_⟩
  dsimp only [rest]
  rw [Function.update_self, h]
  cases ok with
  | false => rfl
  | true => exact copyRest_update env _ hdst

theorem continues_copied : Continues cl c selected ⟨old, v, new, .copying [] none⟩ t ss
    ⟨old, v, new, .verifying [] new⟩ t ss :=
  fun env henv => ⟨env, henv, rfl⟩

/-- A round of the verification in the words of the handler. -/
theorem verify_eq (call : ReconfigCall) (fates : Str → RpcFate) :
    call.verify cl c ss (fates entry) verified entry todo =
      if verifyReplica cl.nodes ss c call.version fates entry = false then .finished false
      else .verifying (verified ++ [entry]) todo := by
  have hbad : verifyReplica cl.nodes ss c call.version fates entry = false ↔
      (resolveReplicaAddress cl.nodes entry = [] ∨ fates entry ≠ .answered ∨
        (readChunk (ss (resolveReplicaAddress cl.nodes entry)) c call.version).ok = false ∨
        (readChunk (ss (resolveReplicaAddress cl.nodes entry)) c call.version).version <
          call.version) := by
    unfold verifyReplica
    dsimp only
    rw [decide_eq_false_iff_not]
    simp only [ne_eq, not_and_or, not_not, Bool.not_eq_true]
  unfold ReconfigCall.verify
  dsimp only
  exact (if_congr hbad rfl rfl).symm

theorem continues_verify (fate : RpcFate) (hentry : entry ∉ todo) (phase : ReconfigPhase) :
    Continues cl c selected ⟨old, v, new, .verifying verified (entry :: todo)⟩ t ss
      ⟨old, v, new, ReconfigCall.verify cl c ss fate ⟨old, v, new, phase⟩ verified entry todo⟩
      t ss := by
  intro env henv
  refine ⟨{ env with verifies := Function.update env.verifies entry fate },
    ⟨henv.alive, henv.atCopy, henv.atVerify, henv.selected⟩, ?_⟩
  show verifyRest cl c v new t ss (entry :: todo) _ = _
  have hself : Function.update env.verifies entry fate entry = fate := Function.update_self ..
  have hverify : ReconfigCall.verify cl c ss (Function.update env.verifies entry fate entry)
    ⟨old, v, new, phase⟩ verified entry todo = _ := verify_eq _ _
  rw [hself] at hverify
  rw [hverify, verifyRest_cons, verifyRest_update env _ hentry]
  split_ifs
  · rfl
  · rfl

theorem continues_commit (quorum : Bool) {t' : ChunkTable}
    (h : metaWrite t (commitPayload c new) quorum = some (true, t')) :
    Continues cl c selected ⟨old, v, new, .verifying verified []⟩ t ss
      ⟨old, v, new, .finished true⟩ t' ss := by
  intro env henv
  refine ⟨{ env with commitQuorum := quorum },
    ⟨henv.alive, henv.atCopy, henv.atVerify, henv.selected⟩, ?_⟩
  show verifyRest cl c v new t ss [] _ = ⟨true, t', ss⟩
  rw [verifyRest, if_neg (by simp [verifyReplicas])]
  dsimp only
  rw [h]

theorem continues_commitFailed :
    Continues cl c selected ⟨old, v, new, .verifying verified []⟩ t ss
      ⟨old, v, new, .finished false⟩ t ss :=
  fun env henv => ⟨{ env with commitQuorum := false },
    ⟨henv.alive, henv.atCopy, henv.atVerify, henv.selected⟩, rfl⟩

theorem Fresh.finish {phase : ReconfigPhase} (ok : Bool) (h : Fresh ⟨old, v, new, phase⟩) :
    Fresh ⟨old, v, new, .finished ok⟩ := by
  cases phase with
  | targeted => exact h
  | copying todo fetched => exact h.1
  | verifying verified todo => exact h.1
  | finished b => exact h

end ReconfigCall

/-- The target entries are distinct, like their ids. -/
theorem nodup_reconfigTargets {newRf : ℤ} {incl excl : Str}
    (hsel : SelectsTargets cl.nodes old newRf incl excl selected)
    (h : reconfigTargets cl.nodes old newRf incl excl selected = some new) : new.Nodup := by
  obtain ⟨ids, rfl, hnd, -, hmem⟩ := reconfigTargets_ids hsel h
  have hid : ∀ x ∈ ids, extractNodeId (reconfigEntry cl.nodes x) = x := by
    intro x hx
    refine extractNodeId_reconfigEntry ?_
    rcases hmem x hx with hx | hx
    · obtain ⟨e, -, rfl⟩ := List.mem_map.mp hx
      exact eq_not_mem_extractNodeId e
    · exact (isNodeId_of_mem cl.wellNamed hx).2
  refine hnd.map_on fun x hx y hy hxy => ?_
  rw [← hid x hx, ← hid y hy, hxy]

/-- How far a reconfiguration has got that began over `t₀` and `ss₀`: what remains of it makes up a
whole call. -/
structure ReconfigProgress (cl : Cluster) (c : Str) (t₀ : ChunkTable) (ss₀ : Stores) (newRf : Int32)
    (incl excl : Str) (selected : List Str) (t : ChunkTable) (ss : Stores) (call : ReconfigCall) :
    Prop where
  begun : call = { reconfigBegin cl t₀ c newRf incl excl selected with phase := call.phase }
  fresh : call.Fresh
  whole : ∀ env : ReconfigEnv, env.On cl selected → ∃ env' : ReconfigEnv, env'.On cl selected ∧
    reconfig t₀ ss₀ c newRf incl excl env' = ReconfigCall.rest cl c t ss env call

variable {t₀ t' : ChunkTable} {ss₀ ss' : Stores} {newRf : Int32} {incl excl : Str}
  {phase phase' : ReconfigPhase}

/-- At its begin all of the call remains. -/
theorem reconfig_eq_rest {env : ReconfigEnv} (henv : env.On cl selected) :
    reconfig t ss c newRf incl excl env =
      ReconfigCall.rest cl c t ss env (reconfigBegin cl t c newRf incl excl selected) := by
  unfold reconfig reconfigBegin
  rw [henv.alive, henv.selected]
  cases t.get c with
  | none => rfl
  | some e =>
    dsimp only
    split_ifs
    · rfl
    · cases reconfigTargets cl.nodes e.replicaSet newRf.toInt incl excl selected with
      | none => rfl
      | some new => rfl

theorem reconfigProgress_begin
    (hsel : ∀ e ∈ t.get c, SelectsTargets cl.nodes e.replicaSet newRf.toInt incl excl selected) :
    ReconfigProgress cl c t ss newRf incl excl selected t ss
      (reconfigBegin cl t c newRf incl excl selected) := by
  refine ⟨rfl, ?_, fun env henv => ⟨env, henv, reconfig_eq_rest henv⟩⟩
  rcases reconfigBegin_cases cl t c newRf incl excl selected with hb | ⟨e, new, he, -, hnew, hb⟩
  · rw [hb]
    exact List.nodup_nil
  · rw [hb]
    exact nodup_reconfigTargets (hsel e he) hnew

theorem ReconfigProgress.next
    (h : ReconfigProgress cl c t₀ ss₀ newRf incl excl selected t ss ⟨old, v, new, phase⟩)
    (hcont : ReconfigCall.Continues cl c selected ⟨old, v, new, phase⟩ t ss ⟨old, v, new, phase'⟩
      t' ss')
    (hfresh : ReconfigCall.Fresh ⟨old, v, new, phase'⟩) :
    ReconfigProgress cl c t₀ ss₀ newRf incl excl selected t' ss' ⟨old, v, new, phase'⟩ where
  begun := congrArg (fun call : ReconfigCall => { call with phase := phase' }) h.begun
  fresh := hfresh
  whole := by
    intro env henv
    obtain ⟨env₁, henv₁, hrest⟩ := hcont env henv
    obtain ⟨env₂, henv₂, hwhole⟩ := h.whole env₁ henv₁
    exact ⟨env₂, henv₂, hwhole.trans hrest⟩

/-- **Every step of the call is progress.** -/
theorem ReconfigProgress.step {r r' : RaceState} {a : RaceStep} {j : ℕ} {call : ReconfigCall}
    (h : ReconfigProgress cl c t₀ ss₀ newRf incl excl selected r.chunkTable r.stores call)
    (hcall : r.reconfigs j = some call) (hs : r.step cl c a = some r') (how : a.owner = .reconfig j) :
    ∃ call', r'.puts = r.puts ∧ r'.reconfigs = Function.update r.reconfigs j (some call') ∧
      ReconfigProgress cl c t₀ ss₀ newRf incl excl selected r'.chunkTable r'.stores call' := by
  cases a with
  | begin k newRf incl excl selected =>
    obtain rfl : k = j := by simpa [RaceStep.owner] using how
    simp [RaceState.step, hcall] at hs
  | start k quorum =>
    obtain rfl : k = j := by simpa [RaceStep.owner] using how
    simp only [RaceState.step, hcall] at hs
    split at hs
    · rename_i old v new heq
      obtain rfl := Option.some.inj heq
      split at hs
      · rename_i t hmeta
        obtain rfl := Option.some.inj hs
        refine ⟨_, rfl, rfl, h.next (ReconfigCall.continues_start quorum hmeta) ⟨h.fresh, ?_⟩⟩
        split_ifs
        · exact List.nodup_nil
        · exact h.fresh
      · obtain rfl := Option.some.inj hs
        exact ⟨_, rfl, rfl, h.next ReconfigCall.continues_startFailed h.fresh⟩
    · simp at hs
  | fetch k fate =>
    obtain rfl : k = j := by simpa [RaceStep.owner] using how
    simp only [RaceState.step, hcall] at hs
    split at hs
    · rename_i old v new dst todo heq
      obtain rfl := Option.some.inj heq
      obtain rfl := Option.some.inj hs
      obtain ⟨hnew, htodo⟩ := h.fresh
      have hdst : dst ∉ todo := (List.nodup_cons.mp htodo).1
      refine ⟨_, rfl, rfl, h.next (ReconfigCall.continues_fetch fate hdst _) ?_⟩
      dsimp only [ReconfigCall.fetch]
      split_ifs
      · exact ⟨hnew, htodo.of_cons⟩
      · exact hnew
      · cases fetchChunk (r.stores (copySource cl.nodes old)) c v with
        | none => exact hnew
        | some data => exact ⟨hnew, htodo⟩
    · simp at hs
  | copy k fate =>
    obtain rfl : k = j := by simpa [RaceStep.owner] using how
    simp only [RaceState.step, hcall] at hs
    split at hs
    · rename_i old v new dst todo data heq
      obtain rfl := Option.some.inj heq
      obtain rfl := Option.some.inj hs
      obtain ⟨hnew, htodo⟩ := h.fresh
      have hdst : dst ∉ todo := (List.nodup_cons.mp htodo).1
      refine ⟨_, rfl, rfl, h.next (ReconfigCall.continues_copy fate hdst rfl) ?_⟩
      split_ifs
      · exact ⟨hnew, htodo.of_cons⟩
      · exact hnew
    · simp at hs
  | copied k =>
    obtain rfl : k = j := by simpa [RaceStep.owner] using how
    simp only [RaceState.step, hcall] at hs
    split at hs
    · rename_i old v new heq
      obtain rfl := Option.some.inj heq
      obtain rfl := Option.some.inj hs
      exact ⟨_, rfl, rfl, h.next ReconfigCall.continues_copied ⟨h.fresh.1, h.fresh.1⟩⟩
    · simp at hs
  | verify k fate =>
    obtain rfl : k = j := by simpa [RaceStep.owner] using how
    simp only [RaceState.step, hcall] at hs
    split at hs
    · rename_i old v new verified entry todo heq
      obtain rfl := Option.some.inj heq
      obtain rfl := Option.some.inj hs
      obtain ⟨hnew, htodo⟩ := h.fresh
      have hentry : entry ∉ todo := (List.nodup_cons.mp htodo).1
      refine ⟨_, rfl, rfl, h.next (ReconfigCall.continues_verify fate hentry _) ?_⟩
      dsimp only [ReconfigCall.verify]
      split_ifs
      · exact hnew
      · exact ⟨hnew, htodo.of_cons⟩
    · simp at hs
  | commit k quorum =>
    obtain rfl : k = j := by simpa [RaceStep.owner] using how
    simp only [RaceState.step, hcall] at hs
    split at hs
    · rename_i old v new verified heq
      obtain rfl := Option.some.inj heq
      split at hs
      · rename_i t hmeta
        obtain rfl := Option.some.inj hs
        exact ⟨_, rfl, rfl, h.next (ReconfigCall.continues_commit quorum hmeta) h.fresh.1⟩
      · obtain rfl := Option.some.inj hs
        exact ⟨_, rfl, rfl, h.next ReconfigCall.continues_commitFailed h.fresh.1⟩
    · simp at hs
  | _ => simp [RaceStep.owner] at how

end Reconfigs

end NimbusVault
