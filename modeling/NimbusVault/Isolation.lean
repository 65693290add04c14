import NimbusVault.ChunkIds
import NimbusVault.LeaderTable
import NimbusVault.Repair

/-!
# Isolation — the calls on one chunk do not notice the other chunks

The leader runs the calls on all chunks at once, over one table and the same storage nodes.  For one
chunk that makes no difference: the steps on it, taken out of any run, are a run of their own, which
ends with the same entry, the same reads at every node and the same calls (`chunks_isolated`).  Two
states are `Matched` when the calls on the chunk cannot tell them apart; a step on the chunk keeps
them matched, and a step on another one does not show.  The other ids are not to interfere with the
chunk's in the keys of a node, and log payloads must be able to carry them.
-/

namespace NimbusVault

open Lib

/-! ### Stores that agree for a chunk -/

namespace ChunkStore

variable {a b : Str} {st st' st'' : ChunkStore} {v : UInt64} {d : Str}

theorem AgreeFor.refl (b : Str) (st : ChunkStore) : AgreeFor b st st := fun _ _ _ => .inl rfl

theorem AgreeFor.trans (h : AgreeFor b st st') (h' : AgreeFor b st' st'') : AgreeFor b st st'' := by
  intro key hp hle
  rcases h key hp hle with heq | hid
  · exact (h' key hp hle).imp_left heq.trans
  · exact .inr hid

theorem AgreeFor.write (h : AgreeFor b st st') : AgreeFor b (st.write b v d) (st'.write b v d) := by
  intro key hp hle
  show (st.db.put (makeKey b v) d).get key = (st'.db.put (makeKey b v) d).get key ∨ _
  rw [Kv.get_put, Kv.get_put]
  split_ifs
  · exact .inl rfl
  · exact h key hp hle

theorem AgreeFor.remove (h : AgreeFor b st st') : AgreeFor b (st.remove b) (st'.remove b) := by
  intro key hp hle
  show (st.db.eraseRange _ _).get key = (st'.db.eraseRange _ _).get key ∨ _
  rw [Kv.get_eraseRange, Kv.get_eraseRange]
  split_ifs
  · exact .inl rfl
  · exact h key hp hle

/-- A write of a chunk that does not interfere. -/
theorem agreeFor_write (hab : a ≠ b) (hno : ¬ Interferes a b) : AgreeFor b st (st.write a v d) := by
  intro key hp hle
  by_cases hkey : key = makeKey a v
  · subst hkey
    exact .inr (hidden_of_range hab hno (makeKey_mem_range a v).1 (makeKey_mem_range a v).2 hp hle)
  · exact .inl (Kv.get_put_of_ne hkey).symm

theorem agreeFor_remove (hab : a ≠ b) (hno : ¬ Interferes a b) : AgreeFor b st (st.remove a) := by
  intro key hp hle
  by_cases hkey : makeKey a 0 ≤ key ∧ key < chunkPrefix a ++ ['~']
  · exact .inr (hidden_of_range hab hno hkey.1 hkey.2 hp hle)
  · exact .inl (Kv.get_eraseRange.trans (if_neg hkey)).symm

end ChunkStore

/-- Every node agrees. -/
def Stores.AgreeFor (c : Str) (ss ss' : Stores) : Prop :=
  ∀ addr, ChunkStore.AgreeFor c (ss addr) (ss' addr)

section Stores

variable {c : Str} {ss ss' : Stores}

theorem Stores.AgreeFor.writeChunk (h : Stores.AgreeFor c ss ss') (addr : Str) (v : UInt64) (d : Str)
    (fate : RpcFate) :
    (writeChunkToReplica ss' addr c v d fate).1 = (writeChunkToReplica ss addr c v d fate).1 ∧
      Stores.AgreeFor c (writeChunkToReplica ss addr c v d fate).2
        (writeChunkToReplica ss' addr c v d fate).2 := by
  constructor
  · rw [Bool.eq_iff_iff, writeChunkToReplica_ok, writeChunkToReplica_ok]
  · intro a
    rw [writeChunkToReplica_apply, writeChunkToReplica_apply]
    split_ifs
    · exact (h a).write
    · exact h a

theorem Stores.AgreeFor.deleteChunk (h : Stores.AgreeFor c ss ss') (addr : Str) (executed : Bool) :
    Stores.AgreeFor c (deleteChunkFromReplica ss addr c executed)
      (deleteChunkFromReplica ss' addr c executed) := by
  intro a
  rw [deleteChunkFromReplica_apply, deleteChunkFromReplica_apply]
  split_ifs
  · exact (h a).remove
  · exact h a

theorem Stores.AgreeFor.putReplica (h : Stores.AgreeFor c ss ss') (alive : List NodeEntry)
    (v : UInt64) (d : Str) (l : WriteLocals) (x : Str × RpcFate) :
    (putReplica alive c v d ⟨l, ss'⟩ x).toWriteLocals =
        (putReplica alive c v d ⟨l, ss⟩ x).toWriteLocals ∧
      Stores.AgreeFor c (putReplica alive c v d ⟨l, ss⟩ x).stores
        (putReplica alive c v d ⟨l, ss'⟩ x).stores := by
  obtain ⟨hok, hstores⟩ := h.writeChunk (replicaAddress alive x.1) v d x.2
  refine ⟨?_, hstores⟩
  unfold replicaAddress at hok
  simp only [NimbusVault.putReplica, hok]

theorem Stores.AgreeFor.readChunk_eq (h : Stores.AgreeFor c ss ss') (addr : Str) (minV : UInt64) :
    readChunk (ss' addr) c minV = readChunk (ss addr) c minV := by
  rw [readChunk, readChunk, (h addr).read_eq.1]

theorem Stores.AgreeFor.fetch_eq (h : Stores.AgreeFor c ss ss') (cl : Cluster) (fate : RpcFate)
    (call : ReconfigCall) (dst : Str) (todo : List Str) :
    call.fetch cl c ss' fate dst todo = call.fetch cl c ss fate dst todo := by
  unfold ReconfigCall.fetch fetchChunk
  dsimp only
  rw [(h _).read_eq.1]

theorem Stores.AgreeFor.verify_eq (h : Stores.AgreeFor c ss ss') (cl : Cluster) (fate : RpcFate)
    (call : ReconfigCall) (verified : List Str) (entry : Str) (todo : List Str) :
    call.verify cl c ss' fate verified entry todo = call.verify cl c ss fate verified entry todo := by
  unfold ReconfigCall.verify
  dsimp only
  rw [h.readChunk_eq]

end Stores

/-! ### Tables with the same entry of a chunk -/

section Tables

variable {cl : Cluster} {c : Str} {t t' : ChunkTable} {op : TableOp} {e : WalEntry} {quorum : Bool}
  {req : PutChunkReq}

theorem TableOp.get_apply_eq (h : t'.get c = t.get c) :
    (op.apply t').get c = (op.apply t).get c := by
  rw [TableOp.apply, TableOp.apply, Kv.get_alter, Kv.get_alter]
  by_cases hc : c = op.chunkId
  · rw [if_pos hc, if_pos hc, ← hc, h]
  · rw [if_neg hc, if_neg hc, h]

theorem TableOp.get_apply_of_ne (h : op.chunkId ≠ c) : (op.apply t).get c = t.get c :=
  Kv.get_alter_of_ne h.symm

/-- A log write ends alike over both tables. -/
theorem metaWrite_eq (h : t'.get c = t.get c) (e : WalEntry) (quorum : Bool) :
    metaWrite t e quorum = none ∧ metaWrite t' e quorum = none ∨
      ∃ b t₁ t₁', metaWrite t e quorum = some (b, t₁) ∧ metaWrite t' e quorum = some (b, t₁') ∧
        t₁'.get c = t₁.get c := by
  cases quorum with
  | false => exact .inr ⟨false, t, t', rfl, rfl, h⟩
  | true =>
    rw [metaWrite, metaWrite, if_pos rfl, if_pos rfl, applyWalEntry_eq, applyWalEntry_eq]
    cases decodeEntry e with
    | none => exact .inl ⟨rfl, rfl⟩
    | some o =>
      refine .inr ⟨true, _, _, rfl, rfl, ?_⟩
      cases o with
      | none => exact h
      | some op => exact TableOp.get_apply_eq h

theorem putCheck_eq (h : t'.get c = t.get c) (hreq : req.chunkId = c) :
    putCheck t' req = putCheck t req := by
  subst hreq
  rw [putCheck, putCheck, isTransitioning, isTransitioning, h]

theorem putPlace_eq (h : t'.get c = t.get c) (hreq : req.chunkId = c) (nodes : List Str) :
    putPlace t' req nodes = putPlace t req nodes := by
  subst hreq
  rw [putPlace, putPlace, ChunkTable.nextVersion, ChunkTable.nextVersion, h]

theorem putLog_eq (h : t'.get c = t.get c) (v : UInt64) (l : WriteLocals) :
    (putLog t' req v l quorum).2 = (putLog t req v l quorum).2 ∧
      (putLog t' req v l quorum).1.get c = (putLog t req v l quorum).1.get c := by
  unfold putLog
  split_ifs
  · exact ⟨rfl, h⟩
  · rcases metaWrite_eq h (putPayload req v l.replicaEntries) quorum with
      ⟨h1, h2⟩ | ⟨b, t₁, t₁', h1, h2, hget⟩
    · rw [h1, h2]
      exact ⟨rfl, h⟩
    · rw [h1, h2]
      cases b with
      | false => exact ⟨rfl, h⟩
      | true => exact ⟨rfl, hget⟩

theorem reconfigBegin_eq (h : t'.get c = t.get c) (newRf : Int32) (incl excl : Str)
    (selected : List Str) :
    reconfigBegin cl t' c newRf incl excl selected =
      reconfigBegin cl t c newRf incl excl selected := by
  rw [reconfigBegin, reconfigBegin, h]

end Tables

/-! ### The calls on the chunk -/

/-- The calls on the chunk cannot tell the states apart. -/
structure RaceState.Matched (c : Str) (r r' : RaceState) : Prop where
  entry : r'.chunkTable.get c = r.chunkTable.get c
  stores : Stores.AgreeFor c r.stores r'.stores
  puts : r'.puts = r.puts
  reconfigs : r'.reconfigs = r.reconfigs

namespace RaceState

section Matched

variable {cl : Cluster} {c : Str} {r r' r₁ : RaceState} {a : RaceStep}

theorem Matched.setPut (h : Matched c r r') (i : ℕ) (p : PutPhase) :
    Matched c (r.setPut i p) (r'.setPut i p) where
  entry := h.entry
  stores := h.stores
  puts := by
    show Function.update r'.puts i (some p) = Function.update r.puts i (some p)
    rw [h.puts]
  reconfigs := h.reconfigs

theorem Matched.setReconfig (h : Matched c r r') (j : ℕ) (call : ReconfigCall) :
    Matched c (r.setReconfig j call) (r'.setReconfig j call) where
  entry := h.entry
  stores := h.stores
  puts := h.puts
  reconfigs := by
    show Function.update r'.reconfigs j (some call) = Function.update r.reconfigs j (some call)
    rw [h.reconfigs]

theorem Matched.setTable (h : Matched c r r') {t t' : ChunkTable} (ht : t'.get c = t.get c) :
    Matched c { r with chunkTable := t } { r' with chunkTable := t' } :=
  ⟨ht, h.stores, h.puts, h.reconfigs⟩

theorem Matched.setStores (h : Matched c r r') {ss ss' : Stores} (hss : Stores.AgreeFor c ss ss') :
    Matched c { r with stores := ss } { r' with stores := ss' } :=
  ⟨h.entry, hss, h.puts, h.reconfigs⟩

/-- **A step on the chunk keeps the states matched.** -/
theorem Matched.step (h : Matched c r r') (hI : CallsInv c r) (hs : r.step cl c a = some r₁) :
    ∃ r₁', r'.step cl c a = some r₁' ∧ Matched c r₁ r₁' := by
  -- the calls are the same ones
  obtain ⟨t', ss', puts', reconfigs'⟩ := r'
  obtain ⟨hentry, hstores, hputs, hreconfigs⟩ := h
  obtain rfl : puts' = r.puts := hputs
  obtain rfl : reconfigs' = r.reconfigs := hreconfigs
  have h : Matched c r ⟨t', ss', r.puts, r.reconfigs⟩ := ⟨hentry, hstores, rfl, rfl⟩
  cases a with
  | check i req =>
    simp only [RaceState.step] at hs ⊢
    split_ifs at hs ⊢ with hg
    obtain rfl := Option.some.inj hs
    rw [putCheck_eq h.entry hg.2]
    exact ⟨_, rfl, h.setPut i _⟩
  | place i nodes =>
    simp only [RaceState.step] at hs ⊢
    split at hs
    · rename_i req hp
      split_ifs at hs with hsel
      obtain rfl := Option.some.inj hs
      rw [if_pos hsel, putPlace_eq h.entry (hI.puts i _ hp)]
      exact ⟨_, rfl, h.setPut i _⟩
    · simp at hs
  | write i fate =>
    simp only [RaceState.step] at hs ⊢
    split at hs
    · rename_i req v l n todo hp
      obtain rfl := Option.some.inj hs
      obtain ⟨hl, hss⟩ := h.stores.putReplica cl.nodes v req.data l (n, fate)
      rw [hl]
      exact ⟨_, rfl, (h.setStores hss).setPut i _⟩
    · simp at hs
  | log i quorum =>
    simp only [RaceState.step] at hs ⊢
    split at hs
    · rename_i req v l hp
      obtain rfl := Option.some.inj hs
      have hlog : (putLog t' req v l quorum).2 = (putLog r.chunkTable req v l quorum).2 ∧
          (putLog t' req v l quorum).1.get c = (putLog r.chunkTable req v l quorum).1.get c :=
        putLog_eq h.entry v l
      obtain ⟨hphase, hget⟩ := hlog
      rw [hphase]
      exact ⟨_, rfl, (h.setTable hget).setPut i _⟩
    · simp at hs
  | undo i executed =>
    simp only [RaceState.step] at hs ⊢
    split at hs
    · rename_i error addr todo hp
      obtain rfl := Option.some.inj hs
      exact ⟨_, rfl, (h.setStores (h.stores.deleteChunk addr executed)).setPut i _⟩
    · simp at hs
  | begin j newRf incl excl selected =>
    simp only [RaceState.step] at hs ⊢
    rw [h.entry, reconfigBegin_eq h.entry]
    split_ifs at hs ⊢ with hg
    obtain rfl := Option.some.inj hs
    exact ⟨_, rfl, h.setReconfig j _⟩
  | start j quorum =>
    simp only [RaceState.step] at hs ⊢
    split at hs
    · rename_i old v new hp
      rcases metaWrite_eq h.entry (startPayload c old new) quorum with
        ⟨h1, h2⟩ | ⟨b, t₁, t₁', h1, h2, hget⟩
      · rw [h1] at hs
        rw [h2]
        obtain rfl := Option.some.inj hs
        exact ⟨_, rfl, h.setReconfig j _⟩
      · rw [h1] at hs
        rw [h2]
        cases b with
        | false =>
          obtain rfl := Option.some.inj hs
          exact ⟨_, rfl, h.setReconfig j _⟩
        | true =>
          obtain rfl := Option.some.inj hs
          exact ⟨_, rfl, (h.setTable hget).setReconfig j _⟩
    · simp at hs
  | fetch j fate =>
    simp only [RaceState.step] at hs ⊢
    split at hs
    · rename_i old v new dst todo hp
      obtain rfl := Option.some.inj hs
      rw [hstores.fetch_eq]
      exact ⟨_, rfl, h.setReconfig j _⟩
    · simp at hs
  | copy j fate =>
    simp only [RaceState.step] at hs ⊢
    split at hs
    · rename_i old v new dst todo data hp
      obtain rfl := Option.some.inj hs
      obtain ⟨hok, hss⟩ := h.stores.writeChunk (resolveReplicaAddress cl.nodes dst) v data fate
      rw [hok]
      exact ⟨_, rfl, (h.setStores hss).setReconfig j _⟩
    · simp at hs
  | copied j =>
    simp only [RaceState.step] at hs ⊢
    split at hs
    · rename_i old v new hp
      obtain rfl := Option.some.inj hs
      exact ⟨_, rfl, h.setReconfig j _⟩
    · simp at hs
  | verify j fate =>
    simp only [RaceState.step] at hs ⊢
    split at hs
    · rename_i old v new verified entry todo hp
      obtain rfl := Option.some.inj hs
      rw [hstores.verify_eq]
      exact ⟨_, rfl, h.setReconfig j _⟩
    · simp at hs
  | commit j quorum =>
    simp only [RaceState.step] at hs ⊢
    split at hs
    · rename_i old v new verified hp
      rcases metaWrite_eq h.entry (commitPayload c new) quorum with
        ⟨h1, h2⟩ | ⟨b, t₁, t₁', h1, h2, hget⟩
      · rw [h1] at hs
        rw [h2]
        obtain rfl := Option.some.inj hs
        exact ⟨_, rfl, h.setReconfig j _⟩
      · rw [h1] at hs
        rw [h2]
        cases b with
        | false =>
          obtain rfl := Option.some.inj hs
          exact ⟨_, rfl, h.setReconfig j _⟩
        | true =>
          obtain rfl := Option.some.inj hs
          exact ⟨_, rfl, (h.setTable hget).setReconfig j _⟩
    · simp at hs

end Matched

end RaceState

/-! ### The calls on other chunks -/

section Others

variable {cl : Cluster} {c d : Str} {r r₁ : RaceState} {a : RaceStep} {op : TableOp} {e : WalEntry}

/-- A payload names its chunk first. -/
theorem WalEntry.chunkId_of_payload (hd : TableOp.PlainId d) {rest : Str}
    (hpay : e.payload = d ++ '|' :: rest) (hty : e.type ≠ .deleteChunk) (h : e.op = some op) :
    op.chunkId = d := by
  have hdec : decodeEntry e = some (some op) := Option.join_eq_some_iff.mp h
  rcases decodeEntry_cases hdec with ⟨hdel, -⟩ | ⟨id, parts, hp, hop⟩
  · exact absurd hdel hty
  · rw [hpay, splitNonempty_field hd.2 hd.1] at hp
    have hid : id = d := (List.cons_eq_cons.mp hp).1.symm
    rcases hop with ⟨_, _, _, _, -, rfl⟩ | ⟨_, -, _, -, rfl⟩ | ⟨_, -, rfl⟩ <;> exact hid

/-- The table operation of a call is on the call's chunk. -/
theorem RaceState.chunkId_eq_of_loggedOp (hd : TableOp.PlainId d) (hI : CallsInv d r)
    (h : r.loggedOp d a = some op) : op.chunkId = d := by
  obtain ⟨e, he, hop⟩ := Option.bind_eq_some_iff.mp h
  unfold RaceState.logged at he
  split at he
  · split at he
    · rename_i req v l hp
      split_ifs at he
      obtain rfl := Option.some.inj he
      have hreq : req.chunkId = d := (hI.puts _ _ hp).1
      subst hreq
      exact WalEntry.chunkId_of_payload hd rfl (by simp [putPayload]) hop
    · simp at he
  · split at he
    · obtain rfl := Option.some.inj he
      exact WalEntry.chunkId_of_payload hd rfl (by simp [startPayload]) hop
    · simp at he
  · split at he
    · obtain rfl := Option.some.inj he
      exact WalEntry.chunkId_of_payload hd rfl (by simp [commitPayload]) hop
    · simp at he
  · simp at he

/-- **A step on another chunk does not show.** -/
theorem RaceState.step_apart (hdc : d ≠ c) (hno : ¬ ChunkStore.Interferes d c)
    (hd : TableOp.PlainId d) (hI : CallsInv d r) (hs : r.step cl d a = some r₁) :
    r₁.chunkTable.get c = r.chunkTable.get c ∧ Stores.AgreeFor c r.stores r₁.stores := by
  constructor
  · rw [table_of_step hs]
    cases hop : r.loggedOp d a with
    | none => rfl
    | some op =>
      have hid : op.chunkId = d := chunkId_eq_of_loggedOp hd hI hop
      exact TableOp.get_apply_of_ne (hid ▸ hdc)
  · have hrefl : Stores.AgreeFor c r.stores r.stores := fun addr => ChunkStore.AgreeFor.refl c _
    have hwrite : ∀ (addr : Str) (v : UInt64) (x : Str) (fate : RpcFate),
        Stores.AgreeFor c r.stores (writeChunkToReplica r.stores addr d v x fate).2 := by
      intro addr v x fate a
      rw [writeChunkToReplica_apply]
      split_ifs
      · exact ChunkStore.agreeFor_write hdc hno
      · exact ChunkStore.AgreeFor.refl c _
    cases step_fires hs with
    | write hp => exact hwrite _ _ _ _
    | copy hp hphase => exact hwrite _ _ _ _
    | undo hp =>
      intro a
      show ChunkStore.AgreeFor c (r.stores a) (deleteChunkFromReplica r.stores _ d _ a)
      rw [deleteChunkFromReplica_apply]
      split_ifs
      · exact ChunkStore.agreeFor_remove hdc hno
      · exact ChunkStore.AgreeFor.refl c _
    | _ => exact hrefl

end Others

/-! ### The leader -/

/-- The step is on the chunk; the nodes concern every chunk. -/
def LeaderStep.About (c : Str) : LeaderStep → Bool
  | .nodes _ => true
  | .deleteChunk d _ => d = c
  | .addReplica d _ _ => d = c
  | .removeReplica d _ _ => d = c
  | .policy d _ _ => d = c
  | .call d _ => d = c

/-- Log payloads can carry the ids of the calls, and the keys of other chunks keep out of the way. -/
def LeaderStep.Apart (c : Str) : LeaderStep → Prop
  | .call d _ => TableOp.PlainId d ∧ (d ≠ c → ¬ ChunkStore.Interferes d c)
  | _ => True

instance (c : Str) : DecidablePred (LeaderStep.Apart c)
  | .call _ _ => inferInstanceAs (Decidable (_ ∧ (_ → ¬ _)))
  | .nodes _ => .isTrue trivial
  | .deleteChunk .. => .isTrue trivial
  | .addReplica .. => .isTrue trivial
  | .removeReplica .. => .isTrue trivial
  | .policy .. => .isTrue trivial

/-- What there is of the chunk is the same in both states: its entry, its calls, and what any node
answers to a read. -/
structure LeaderState.Alike (c : Str) (s s' : LeaderState) : Prop where
  alive : s'.alive = s.alive
  entry : s'.chunkTable.get c = s.chunkTable.get c
  reads : ∀ addr minV, readChunk (s'.stores addr) c minV = readChunk (s.stores addr) c minV
  puts : s'.puts c = s.puts c
  requests : s'.requests c = s.requests c
  reconfigs : s'.reconfigs c = s.reconfigs c

/-- The relation that the steps keep. -/
structure LeaderState.Matched (c : Str) (s s' : LeaderState) : Prop where
  inv : LeaderInv s
  alive : s'.alive = s.alive
  view : (s.view c).Matched c (s'.view c)
  requests : s'.requests c = s.requests c

namespace LeaderState

section Matched

variable {c d : Str} {s s' s₁ : LeaderState} {a : LeaderStep} {j : ℕ} {req : Except Str ReconfigReq}

theorem Matched.alike (h : Matched c s s') : Alike c s s' where
  alive := h.alive
  entry := h.view.entry
  reads := h.view.stores.readChunk_eq
  puts := h.view.puts
  requests := h.requests
  reconfigs := h.view.reconfigs

theorem Matched.ask (h : Matched c s s') (hs : s.ask c j req = some s₁) :
    ∃ s₁', s'.ask c j req = some s₁' ∧ Matched c s₁ s₁' := by
  have hI : LeaderInv s₁ := h.inv.ask hs
  unfold LeaderState.ask at hs ⊢
  rw [h.requests]
  split_ifs at hs ⊢ with hg
  obtain rfl := Option.some.inj hs
  refine ⟨_, rfl, ?_⟩
  cases req with
  | error _ => exact ⟨hI, h.alive, h.view, h.requests⟩
  | ok req =>
    refine ⟨hI, h.alive, h.view, ?_⟩
    show Function.update s'.requests c _ c = Function.update s.requests c _ c
    rw [Function.update_self, Function.update_self, h.requests]

theorem Matched.ask_apart (h : Matched c s s') (hdc : d ≠ c) (hs : s.ask d j req = some s₁) :
    Matched c s₁ s' := by
  have hI : LeaderInv s₁ := h.inv.ask hs
  unfold LeaderState.ask at hs
  split_ifs at hs with hg
  obtain rfl := Option.some.inj hs
  cases req with
  | error _ => exact ⟨hI, h.alive, h.view, h.requests⟩
  | ok req =>
    refine ⟨hI, h.alive, h.view, ?_⟩
    show s'.requests c = Function.update s.requests d _ c
    rw [Function.update_of_ne hdc.symm, h.requests]

/-- What a step on the chunk leaves behind is matched again. -/
theorem Matched.setView (h : Matched c s s') {r r' : RaceState} (hr : r.Matched c r')
    (hI : LeaderInv (s.setView c r)) : Matched c (s.setView c r) (s'.setView c r') where
  inv := hI
  alive := h.alive
  requests := h.requests
  view := by
    refine ⟨hr.entry, hr.stores, ?_, ?_⟩
    · show Function.update s'.puts c r'.puts c = Function.update s.puts c r.puts c
      rw [Function.update_self, Function.update_self, hr.puts]
    · show Function.update s'.reconfigs c r'.reconfigs c = Function.update s.reconfigs c r.reconfigs c
      rw [Function.update_self, Function.update_self, hr.reconfigs]

theorem Matched.setView_apart (h : Matched c s s') (hdc : d ≠ c) {r : RaceState}
    (hentry : r.chunkTable.get c = s.chunkTable.get c) (hss : Stores.AgreeFor c s.stores r.stores)
    (hI : LeaderInv (s.setView d r)) : Matched c (s.setView d r) s' where
  inv := hI
  alive := h.alive
  requests := h.requests
  view := by
    have hsymm : Stores.AgreeFor c r.stores s.stores := fun addr => (hss addr).symm
    refine ⟨h.view.entry.trans hentry.symm, fun addr => (hsymm addr).trans (h.view.stores addr),
      ?_, ?_⟩
    · show s'.puts c = Function.update s.puts d r.puts c
      rw [Function.update_of_ne hdc.symm]
      exact h.view.puts
    · show s'.reconfigs c = Function.update s.reconfigs d r.reconfigs c
      rw [Function.update_of_ne hdc.symm]
      exact h.view.reconfigs

/-- A handler's checks look at the chunk's entry only. -/
theorem addReplica_eq {t t' : ChunkTable} (h : t'.get c = t.get c) (nodeId : Str) :
    addReplica true t' c nodeId = addReplica true t c nodeId := by
  rw [addReplica, addReplica, h]

theorem removeReplica_eq {t t' : ChunkTable} (h : t'.get c = t.get c) (nodeId : Str) :
    removeReplica true t' c nodeId = removeReplica true t c nodeId := by
  rw [removeReplica, removeReplica, h]

/-- **A step on the chunk is matched.** -/
theorem Matched.step_about (h : Matched c s s') (hs : s.step a = some s₁) (ha : a.PlainId)
    (hc : a.About c = true) : ∃ s₁', s'.step a = some s₁' ∧ Matched c s₁ s₁' := by
  have hI : LeaderInv s₁ := h.inv.step hs ha
  cases a with
  | nodes alive =>
    obtain rfl := Option.some.inj hs
    exact ⟨_, rfl, hI, rfl, h.view, h.requests⟩
  | deleteChunk d quorum =>
    obtain rfl : d = c := of_decide_eq_true hc
    obtain ⟨r, hr, rfl⟩ := Option.map_eq_some_iff.mp hs
    rcases metaWrite_eq h.view.entry ⟨.deleteChunk, leaderTerm, d⟩ quorum with
      ⟨h1, -⟩ | ⟨b, t₁, t₁', h1, h2, hget⟩
    · exact absurd (h1.symm.trans hr) (by simp)
    · obtain rfl := Option.some.inj (h1.symm.trans hr)
      refine ⟨{ s' with chunkTable := t₁' }, Option.map_eq_some_iff.mpr ⟨_, h2, rfl⟩, ?_⟩
      exact ⟨hI, h.alive, h.view.setTable hget, h.requests⟩
  | addReplica d j nodeId =>
    obtain rfl : d = c := of_decide_eq_true hc
    have hentry : s'.chunkTable.get d = s.chunkTable.get d := h.view.entry
    simp only [LeaderState.step] at hs ⊢
    rw [addReplica_eq hentry]
    exact h.ask hs
  | removeReplica d j nodeId =>
    obtain rfl : d = c := of_decide_eq_true hc
    have hentry : s'.chunkTable.get d = s.chunkTable.get d := h.view.entry
    simp only [LeaderState.step] at hs ⊢
    rw [removeReplica_eq hentry]
    exact h.ask hs
  | policy d j newRf =>
    obtain rfl : d = c := of_decide_eq_true hc
    exact h.ask hs
  | call d a =>
    obtain rfl : d = c := of_decide_eq_true hc
    simp only [LeaderState.step] at hs ⊢
    split_ifs at hs with hasked
    obtain ⟨r, hr, rfl⟩ := Option.map_eq_some_iff.mp hs
    obtain ⟨r', hr', hmatch⟩ := h.view.step (h.inv.2 d) hr
    have hasked' : s'.Asked d a := by
      cases a with
      | begin j newRf incl excl selected =>
        show s'.requests d j = _
        rw [h.requests]
        exact hasked
      | _ => trivial
    rw [if_pos hasked', h.alive, hr']
    exact ⟨_, rfl, h.setView hmatch hI⟩

/-- **A step on another chunk does not show.** -/
theorem Matched.step_apart (h : Matched c s s') (hs : s.step a = some s₁) (ha : a.PlainId)
    (hap : a.Apart c) (hc : a.About c = false) : Matched c s₁ s' := by
  have hI : LeaderInv s₁ := h.inv.step hs ha
  cases a with
  | nodes alive => simp [LeaderStep.About] at hc
  | deleteChunk d quorum =>
    have hdc : d ≠ c := of_decide_eq_false hc
    obtain ⟨r, hr, rfl⟩ := Option.map_eq_some_iff.mp hs
    refine ⟨hI, h.alive, ⟨h.view.entry.trans ?_, h.view.stores, h.view.puts, h.view.reconfigs⟩,
      h.requests⟩
    show s.chunkTable.get c = r.2.get c
    rcases deleteChunk_some hr with htab | htab
    · rw [htab]
    · have hid : (TableOp.delete d).chunkId ≠ c := hdc
      rw [htab, TableOp.get_apply_of_ne hid]
  | addReplica d j nodeId => exact h.ask_apart (of_decide_eq_false hc) hs
  | removeReplica d j nodeId => exact h.ask_apart (of_decide_eq_false hc) hs
  | policy d j newRf => exact h.ask_apart (of_decide_eq_false hc) hs
  | call d a =>
    have hdc : d ≠ c := of_decide_eq_false hc
    simp only [LeaderState.step] at hs
    split_ifs at hs
    obtain ⟨r, hr, rfl⟩ := Option.map_eq_some_iff.mp hs
    obtain ⟨hentry, hss⟩ := RaceState.step_apart hdc (hap.2 hdc) hap.1 (h.inv.2 d) hr
    exact h.setView_apart hdc hentry hss hI

end Matched

end LeaderState

section Runs

variable {cl : Cluster} {c : Str} {s : LeaderState} {tr : List LeaderStep}

theorem LeaderStep.Apart.plainId {a : LeaderStep} (h : a.Apart c) : a.PlainId := by
  cases a with
  | call d a => exact h.1
  | _ => trivial

/-- The steps on the chunk, taken out of a run, are a run that ends in a matched state. -/
theorem LeaderState.Matched.of_run {ok ok' : LeaderState → LeaderStep → Prop}
    (hok : ∀ s a, ok s a → a.Apart c)
    (hok' : ∀ s t a, Matched c s t → ok s a → a.About c = true → ok' t a)
    (h : leader.Run ok { alive := cl } tr s) :
    ∃ s', leader.Run ok' { alive := cl } (tr.filter (·.About c)) s' ∧ Matched c s s' := by
  have hstart : Matched c { alive := cl } { alive := cl } :=
    ⟨leaderInv_init cl, rfl, ⟨rfl, fun addr => ChunkStore.AgreeFor.refl c _, rfl, rfl⟩, rfl⟩
  have hkeep : ∀ (s t : LeaderState) a s₁, Matched c s t → s.step a = some s₁ → ok s a →
      a.About c = true → ok' t a ∧ ∃ t₁, t.step a = some t₁ ∧ Matched c s₁ t₁ :=
    fun s t a s₁ hR hs hk ha => ⟨hok' s t a hR hk ha, hR.step_about hs (hok s a hk).plainId ha⟩
  have hdrop : ∀ (s t : LeaderState) a s₁, Matched c s t → s.step a = some s₁ → ok s a →
      a.About c = false → Matched c s₁ t :=
    fun s t a s₁ hR hs hk ha => hR.step_apart hs (hok s a hk).plainId (hok s a hk) ha
  exact Machine.Run.restrict hstart hkeep hdrop h

/-- **Chunks are isolated from each other.**  The steps on one chunk, taken out of a run, are a run,
and it ends like the whole one as far as the chunk is concerned. -/
theorem chunks_isolated (h : leader.Run (fun _ a => a.Apart c) { alive := cl } tr s) :
    ∃ s', leader.Reach { alive := cl } (tr.filter (·.About c)) s' ∧ s.Alike c s' := by
  obtain ⟨s', hr, hmatch⟩ :=
    LeaderState.Matched.of_run (fun _ _ ha => ha) (fun _ _ _ _ _ _ => trivial) h
  exact ⟨s', hr, hmatch.alike⟩

/-- The put of `c` is cut by one of `d`, by the deletion of `d` and by a request for `c`. -/
def mixedTrace : List LeaderStep :=
  [.call ['c'] (.check 0 ⟨['c'], 1, 1, ['x']⟩), .call ['d'] (.check 0 ⟨['d'], 1, 1, ['y']⟩),
    .call ['d'] (.place 0 [['n']]), .call ['c'] (.place 0 [['n']]),
    .call ['d'] (.write 0 .answered), .call ['c'] (.write 0 .answered), .call ['d'] (.log 0 true),
    .deleteChunk ['d'] true, .call ['c'] (.log 0 true), .addReplica ['c'] 0 ['m']]

def mixedState : LeaderState :=
  leader.final (fun _ a => a.Apart ['c']) { alive := pairCluster } mixedTrace

theorem chunks_isolated_mixed :
    ∃ s', leader.Reach { alive := pairCluster } (mixedTrace.filter (·.About ['c'])) s' ∧
      mixedState.Alike ['c'] s' :=
  chunks_isolated (Machine.run_final (by decide +kernel))

end Runs

end NimbusVault
