import NimbusVault.LeaderTable
import NimbusVault.LogTable
import NimbusVault.Service

/-!
# LeaderLife — puts and deletes of a chunk over the restarts of its leader

The calls of PutChunk and DeleteChunk on one chunk, one after the other, with the log that they write
to; in between other entries are appended and committed in any order, the storage nodes do what they
like, and the leader is restarted.  A put that answers no may leave its entry in the log, and a
restart may apply it.  What has been acknowledged survives all the same: since the last deletion that
was logged, the acknowledged versions increase strictly, and the table has the chunk in the last one
or a newer version (`acknowledged_puts_survive`).  The invariant finds the last acknowledged entry in
the committed part of the log, with only newer puts behind it.
-/

namespace NimbusVault

open Lib

/-! ### The machine -/

/-- `MetaReplication::write`, as it ends for a caller that waits for it. -/
def Wal.write (w : Wal) (e : WalEntry) (quorum : Bool) : Wal :=
  if quorum then (w.append e).commit (w.lastLogIndex + 1) else w.append e

instance (leader : Bool) (t : ChunkTable) (req : PutChunkReq) (env : PutEnv) :
    Decidable (PutAdmitted leader t req env) :=
  inferInstanceAs (Decidable (_ ∧ _))

/-- The entry that a put writes, if it gets that far. -/
def putLogged (alive : List NodeEntry) (t : ChunkTable) (ss : Stores) (req : PutChunkReq)
    (env : PutEnv) : Option WalEntry :=
  let p := putWrites alive t ss req env
  if PutAdmitted true t req env ∧ p.majorityNeeded ≤ p.successfulAddrs.length then
    some (putPayload req (t.nextVersion req.chunkId) p.replicaEntries)
  else none

/-- The version in a successful answer. -/
def PutResult.acked (r : PutResult) : Option UInt64 :=
  (r.resp.filter (·.ok)).map PutChunkResp.version

/-- `acked` are the versions that puts have acknowledged since the last deletion that was logged, the
last one first. -/
structure LifeState where
  wal : Wal := {}
  chunkTable : ChunkTable := Kv.empty
  stores : Stores := fun _ => ChunkStore.empty
  acked : List UInt64 := []

/-- Other calls show as `append` and `commit`, what the storage nodes do as `storage`. -/
inductive LifeStep
  | put (alive : List NodeEntry) (req : PutChunkReq) (env : PutEnv)
  | delete (quorum : Bool)
  | append (e : WalEntry)
  | commit (i : ℕ)
  | storage (ss : Stores)
  | restart (ss : Stores)

/-- The entry does not put or delete the chunk. -/
def WalEntry.Spares (e : WalEntry) (c : Str) : Prop :=
  ∀ op ∈ e.op, op.chunkId = c → op.isAbsolute = false

instance (e : WalEntry) (c : Str) : Decidable (e.Spares c) :=
  inferInstanceAs (Decidable (∀ op ∈ e.op, _))

def LifeState.step (c : Str) (s : LifeState) : LifeStep → Option LifeState
  | .put alive req env =>
    if req.chunkId = c ∧ SelectsNodes req.desiredRf.toInt alive [] (env.nodes.map Prod.fst) then
      let r := putChunk true alive s.chunkTable s.stores req env
      let logged := putLogged alive s.chunkTable s.stores req env
      some { wal := logged.elim s.wal (s.wal.write · env.quorum)
             chunkTable := r.chunkTable
             stores := r.stores
             acked := r.acked.elim s.acked (· :: s.acked) }
    else none
  | .delete quorum =>
    (deleteChunk s.chunkTable c quorum).map fun r =>
      { s with
        wal := s.wal.write ⟨.deleteChunk, leaderTerm, c⟩ quorum, chunkTable := r.2, acked := [] }
  | .append e => if e.Spares c then some { s with wal := s.wal.append e } else none
  | .commit i =>
    if ∃ e ∈ s.wal.readEntry i, e.Spares c then
      some { s with wal := s.wal.commit i, chunkTable := s.wal.applyAt s.chunkTable i }
    else none
  | .storage ss => some { s with stores := ss }
  | .restart ss => (s.wal.replay Kv.empty).map fun t => { s with chunkTable := t, stores := ss }

abbrev leaderLife (c : Str) : Machine LifeState LifeStep := .ofStep (LifeState.step c)

def LifeStep.WellNamed : LifeStep → Prop
  | .put alive _ _ => ∀ n ∈ alive, n.WellNamed
  | _ => True

instance : DecidablePred LifeStep.WellNamed
  | .put alive _ _ => inferInstanceAs (Decidable (∀ n ∈ alive, n.WellNamed))
  | .delete _ | .append _ | .commit _ | .storage _ | .restart _ => isTrue trivial

/-! ### Operations and the version of a chunk -/

/-- The table has the chunk in this version or a newer one. -/
def HasVersion (t : ChunkTable) (c : Str) (v : UInt64) : Prop :=
  ∃ e, t.get c = some e ∧ v ≤ e.version

/-- The operation does not delete the chunk, and puts no older version of it. -/
def TableOp.KeepsAbove (op : TableOp) (c : Str) (v : UInt64) : Prop :=
  op.chunkId = c → op.isAbsolute = true → ∃ size rf rs w, op = .put c size rf rs w ∧ v ≤ w

/-- The operation puts no version of the chunk above `n`. -/
def TableOp.PutsBelow (op : TableOp) (c : Str) (n : ℕ) : Prop :=
  ∀ size rf rs w, op = .put c size rf rs w → w.toNat ≤ n

section Operations

variable {t : ChunkTable} {c : Str} {v : UInt64} {op : TableOp} {n : ℕ} {es : List WalEntry}

theorem HasVersion.apply (h : HasVersion t c v) (hop : op.KeepsAbove c v) :
    HasVersion (op.apply t) c v := by
  obtain ⟨e, he, hle⟩ := h
  rw [HasVersion, TableOp.apply, Kv.get_alter]
  by_cases hc : c = op.chunkId
  · subst hc
    rw [if_pos rfl, he]
    cases op with
    | put c size rf rs w =>
      obtain ⟨_, _, _, _, heq, hw⟩ := hop rfl rfl
      obtain ⟨-, -, -, -, rfl⟩ := TableOp.put.inj heq
      exact ⟨_, rfl, hw⟩
    | delete c =>
      obtain ⟨_, _, _, _, heq, -⟩ := hop rfl rfl
      cases heq
    | start c old new => exact ⟨_, rfl, hle⟩
    | commit c new => exact ⟨_, rfl, hle⟩
  · rw [if_neg hc]
    exact ⟨e, he, hle⟩

theorem tableVersion_apply_le (h : (tableVersion t c).toNat ≤ n) (hop : op.PutsBelow c n) :
    (tableVersion (op.apply t) c).toNat ≤ n := by
  rw [tableVersion, TableOp.apply, Kv.get_alter]
  by_cases hc : c = op.chunkId
  · subst hc
    rw [if_pos rfl]
    cases op with
    | put c size rf rs w => exact hop size rf rs w rfl
    | delete c => exact Nat.zero_le n
    | start c old new =>
      show (((t.get c).map (ChunkTable.startEntry old new)).elim 0 ChunkEntry.version).toNat ≤ n
      rwa [Option.elim_map]
    | commit c new =>
      show (((t.get c).map (ChunkTable.commitEntry new)).elim 0 ChunkEntry.version).toNat ≤ n
      rwa [Option.elim_map]
  · rw [if_neg hc]
    exact h

/-- The entries one after the other. -/
theorem HasVersion.foldl (hes : ∀ e ∈ es, ∀ op ∈ e.op, op.KeepsAbove c v) (h : HasVersion t c v) :
    HasVersion (es.foldl (fun t e => (applyWalEntry t e).getD t) t) c v := by
  refine List.foldlRecOn (motive := fun t => HasVersion t c v) es _ h fun t ht e he => ?_
  rw [applyWalEntry_getD]
  cases hop : e.op with
  | none => exact ht
  | some op => exact ht.apply (hes e he op hop)

theorem tableVersion_applyEntries_le (hes : ∀ e ∈ es, ∀ op ∈ e.op, op.PutsBelow c n) :
    (tableVersion (applyEntries es) c).toNat ≤ n := by
  refine List.foldlRecOn (motive := fun t => (tableVersion t c).toNat ≤ n) es _ ?_ fun t ht e he => ?_
  · simp [tableVersion]
  rw [applyWalEntry_getD]
  cases hop : e.op with
  | none => exact ht
  | some op => exact tableVersion_apply_le ht (hes e he op hop)

end Operations

/-! ### What a put does -/

section Put

variable {alive : List NodeEntry} {t : ChunkTable} {ss : Stores} {req : PutChunkReq} {env : PutEnv}

/-- The entry that a put writes is read as the put of the next version. -/
theorem op_of_putLogged (hc : TableOp.PlainId req.chunkId) (hw : ∀ n ∈ alive, n.WellNamed)
    (hsel : SelectsNodes req.desiredRf.toInt alive [] (env.nodes.map Prod.fst)) {e : WalEntry}
    (h : putLogged alive t ss req env = some e) :
    PutAdmitted true t req env ∧
      (putWrites alive t ss req env).majorityNeeded ≤
        (putWrites alive t ss req env).successfulAddrs.length ∧
      e = putPayload req (t.nextVersion req.chunkId) (putWrites alive t ss req env).replicaEntries ∧
      e.op = some (.put req.chunkId req.sizeBytes req.desiredRf
        (putWrites alive t ss req env).replicaEntries (t.nextVersion req.chunkId)) := by
  unfold putLogged at h
  dsimp only at h
  split_ifs at h with hadm
  obtain ⟨hadm, hmaj⟩ := hadm
  obtain rfl := Option.some.inj h
  have hentries : (putWrites alive t ss req env).replicaEntries =
      env.nodes.map fun x => encodeReplicaTarget alive x.1 := foldl_putReplica_entries
  have hfield : ∀ x ∈ (putWrites alive t ss req env).replicaEntries, IsField x := by
    rw [hentries]
    intro x hx
    obtain ⟨p, hp, rfl⟩ := List.mem_map.mp hx
    have hid : IsNodeId p.1 := by
      have hmem := hsel.1.subset (List.mem_map_of_mem (f := Prod.fst) hp)
      exact isNodeId_of_mem hw (List.mem_filter.mp hmem).1
    rw [hid.encodeReplicaTarget_eq]
    exact (hid.reconfigEntry hw).1.1
  -- a majority of no nodes is one node
  have hne : (putWrites alive t ss req env).replicaEntries ≠ [] := by
    intro hnil
    have hnodes : env.nodes = [] := List.map_eq_nil_iff.mp (hentries.symm.trans hnil)
    have hnone : (putWrites alive t ss req env).successfulAddrs = [] := by
      rw [putWrites, storageWrites, hnodes]
      rfl
    rw [hnone, WriteLocals.majorityNeeded, List.length_nil] at hmaj
    omega
  refine ⟨hadm, hmaj, rfl, ?_⟩
  rw [WalEntry.op, decodeEntry_putPayload hc hfield, if_neg hne]
  rfl

/-- A put that writes no entry answers no and leaves the table alone. -/
theorem put_of_not_logged (h : putLogged alive t ss req env = none) :
    (putChunk true alive t ss req env).chunkTable = t ∧
      (putChunk true alive t ss req env).acked = none := by
  by_cases hadm : PutAdmitted true t req env
  · have hmaj : (putWrites alive t ss req env).successfulAddrs.length <
        (putWrites alive t ss req env).majorityNeeded := by
      by_contra hge
      rw [putLogged, if_pos ⟨hadm, not_lt.mp hge⟩] at h
      simp at h
    rw [putChunk_admitted hadm, putWritten, if_pos hmaj]
    exact ⟨rfl, rfl⟩
  · obtain ⟨error, hput⟩ := putChunk_refused alive ss hadm
    rw [hput]
    exact ⟨rfl, rfl⟩

/-- A put that writes its entry depends on the quorum alone. -/
theorem put_of_logged (hc : TableOp.PlainId req.chunkId) (hw : ∀ n ∈ alive, n.WellNamed)
    (hsel : SelectsNodes req.desiredRf.toInt alive [] (env.nodes.map Prod.fst)) {e : WalEntry}
    (h : putLogged alive t ss req env = some e) :
    ((putChunk true alive t ss req env).chunkTable, (putChunk true alive t ss req env).acked) =
      if env.quorum then ((applyWalEntry t e).getD t, some (t.nextVersion req.chunkId))
      else (t, none) := by
  obtain ⟨hadm, hmaj, he, hop⟩ := op_of_putLogged hc hw hsel h
  rw [putChunk_admitted hadm, putWritten, if_neg (not_lt.mpr hmaj), metaWrite, ← he]
  have happly : (applyWalEntry t e).isSome = true := by
    rw [applyWalEntry_isSome]
    exact Option.isSome_of_mem (Option.join_eq_some_iff.mp hop)
  obtain ⟨t', ht'⟩ := Option.isSome_iff_exists.mp happly
  cases env.quorum with
  | false => rfl
  | true =>
    rw [ht']
    rfl

end Put

/-! ### The invariant -/

/-- The version was acknowledged: its entry is in the committed part of the log, and only newer
versions of the chunk are put behind it. -/
structure Retained (c : Str) (w : Wal) (t : ChunkTable) (v : UInt64) : Prop where
  table : HasVersion t c v
  logged : ∃ before e after, w.records = before ++ e :: after ∧ before.length < w.committed ∧
    (∃ size rf rs, e.op = some (.put c size rf rs v)) ∧
    ∀ e ∈ after, ∀ op ∈ e.op, op.KeepsAbove c v

structure LifeInv (c : Str) (s : LifeState) : Prop where
  below : ∀ e ∈ s.wal.records, ∀ op ∈ e.op, op.PutsBelow c s.wal.lastLogIndex
  version : (tableVersion s.chunkTable c).toNat ≤ s.wal.lastLogIndex
  sorted : s.acked.Pairwise (· > ·)
  retained : ∀ v ∈ s.acked.head?, Retained c s.wal s.chunkTable v

section Invariant

variable {c : Str} {w w' : Wal} {t t' : ChunkTable} {v : UInt64} {e : WalEntry} {op : TableOp}
  {s s' : LifeState} {quorum : Bool} {i : ℕ}

theorem Wal.write_records : (w.write e quorum).records = w.records ++ [e] := by
  cases quorum <;> rfl

theorem Wal.le_write_committed : w.committed ≤ (w.write e quorum).committed := by
  cases quorum with
  | false => exact le_refl _
  | true => exact le_max_left _ _

theorem Wal.lastLogIndex_write : (w.write e quorum).lastLogIndex = w.lastLogIndex + 1 := by
  cases quorum <;> simp [write]

theorem WalEntry.Spares.keepsAbove (h : e.Spares c) : ∀ op ∈ e.op, op.KeepsAbove c v :=
  fun op hop hc habs => absurd (h op hop hc) (by simp [habs])

theorem WalEntry.Spares.putsBelow {n : ℕ} (h : e.Spares c) : ∀ op ∈ e.op, op.PutsBelow c n := by
  rintro op hop size rf rs w rfl
  simpa [TableOp.isAbsolute] using h _ hop rfl

theorem TableOp.PutsBelow.mono {n n' : ℕ} (h : op.PutsBelow c n) (hle : n ≤ n') : op.PutsBelow c n' :=
  fun size rf rs w heq => (h size rf rs w heq).trans hle

/-- What was acknowledged stays so when the log grows. -/
theorem Retained.grow (h : Retained c w t v) (hw : w'.records = w.records ++ [e])
    (hmark : w.committed ≤ w'.committed) (he : ∀ op ∈ e.op, op.KeepsAbove c v)
    (ht : HasVersion t' c v) : Retained c w' t' v := by
  obtain ⟨before, e₀, after, hrec, hlt, hput, hafter⟩ := h.logged
  refine ⟨ht, before, e₀, after ++ [e], ?_, hlt.trans_le hmark, hput, ?_⟩
  · rw [hw, hrec, List.append_assoc, List.cons_append]
  · exact List.forall_mem_append.mpr ⟨hafter, List.forall_mem_singleton.mpr he⟩

/-- The rules of the log, for one entry more. -/
theorem LifeInv.below_grow (hI : LifeInv c s) (hw : w'.records = s.wal.records ++ [e])
    (he : ∀ op ∈ e.op, op.PutsBelow c (s.wal.lastLogIndex + 1)) :
    ∀ e ∈ w'.records, ∀ op ∈ e.op, op.PutsBelow c w'.lastLogIndex := by
  have hlen : w'.lastLogIndex = s.wal.lastLogIndex + 1 := by
    rw [Wal.lastLogIndex, hw, List.length_append, List.length_singleton]
    rfl
  rw [hw, hlen]
  exact List.forall_mem_append.mpr
    ⟨fun e' he' op hop => (hI.below e' he' op hop).mono (Nat.le_succ _),
      List.forall_mem_singleton.mpr he⟩

/-- **A replay finds what was acknowledged.** -/
theorem Retained.replay (h : Retained c w t v) (ht : w.replay Kv.empty = some t') :
    Retained c w t' v := by
  refine ⟨?_, h.logged⟩
  obtain ⟨before, e, after, hrec, hlt, ⟨size, rf, rs, hput⟩, hafter⟩ := h.logged
  obtain ⟨-, rfl⟩ := Wal.replay_eq_some_iff.mp ht
  obtain ⟨k, hk⟩ := Nat.exists_eq_add_of_lt hlt
  have htake : w.records.take w.committed = before ++ e :: after.take k := by
    rw [hrec, hk, List.take_append, List.take_of_length_le (by omega),
      show before.length + k + 1 - before.length = k + 1 by omega, List.take_succ_cons]
  have hfirst : HasVersion ((applyWalEntry (applyEntries before) e).getD (applyEntries before)) c v := by
    rw [applyWalEntry_getD, hput]
    exact ⟨_, Kv.get_alter_self .., UInt64.le_refl v⟩
  rw [htake, applyEntries, List.foldl_append, List.foldl_cons]
  exact hfirst.foldl fun e' he' => hafter e' (List.mem_of_mem_take he')

/-- The next version is newer than what was acknowledged. -/
theorem LifeInv.next (hI : LifeInv c s) (hlt : s.wal.lastLogIndex + 1 < 2 ^ 64) :
    (s.chunkTable.nextVersion c).toNat = (tableVersion s.chunkTable c).toNat + 1 ∧
      ∀ v, HasVersion s.chunkTable c v → v < s.chunkTable.nextVersion c := by
  have hv := hI.version
  have hnext : (s.chunkTable.nextVersion c).toNat = (tableVersion s.chunkTable c).toNat + 1 := by
    show (tableVersion s.chunkTable c + 1).toNat = _
    rw [UInt64.toNat_add]
    exact Nat.mod_eq_of_lt (by simpa using (Nat.succ_le_succ hv).trans_lt hlt)
  refine ⟨hnext, ?_⟩
  rintro v ⟨e, he, hle⟩
  have htable : tableVersion s.chunkTable c = e.version := by rw [tableVersion, he]; rfl
  rw [UInt64.lt_iff_toNat_lt, hnext, htable]
  exact Nat.lt_succ_of_le (UInt64.le_iff_toNat_le.mp hle)

end Invariant

/-! ### Runs -/

section Runs

variable {c : Str} {s s' : LifeState}

theorem LifeInv.put (hI : LifeInv c s) (hc : TableOp.PlainId c)
    (hlt : s.wal.lastLogIndex + 1 < 2 ^ 64) {alive : List NodeEntry} {req : PutChunkReq}
    {env : PutEnv} (hw : ∀ n ∈ alive, n.WellNamed) (h : s.step c (.put alive req env) = some s') :
    LifeInv c s' ∧ s'.wal.lastLogIndex ≤ s.wal.lastLogIndex + 1 := by
  simp only [LifeState.step] at h
  split_ifs at h with hguard
  obtain ⟨rfl, hsel⟩ := hguard
  obtain rfl := Option.some.inj h
  cases hlog : putLogged alive s.chunkTable s.stores req env with
  | none =>
    obtain ⟨htable, hacked⟩ := put_of_not_logged hlog
    rw [htable, hacked]
    exact ⟨⟨hI.below, hI.version, hI.sorted, hI.retained⟩, Nat.le_succ _⟩
  | some e =>
    obtain ⟨-, -, -, hop⟩ := op_of_putLogged hc hw hsel hlog
    obtain ⟨hnext, hnew⟩ := hI.next hlt
    have hput := put_of_logged hc hw hsel hlog
    set r := putChunk true alive s.chunkTable s.stores req env
    have hv := hI.version
    have hbelow : ∀ op ∈ e.op, op.PutsBelow req.chunkId (s.wal.lastLogIndex + 1) := by
      intro op hmem size rf rs w heq
      obtain rfl := Option.some.inj (hop.symm.trans hmem)
      obtain ⟨-, -, -, -, rfl⟩ := TableOp.put.inj heq
      omega
    have habove : ∀ v, HasVersion s.chunkTable req.chunkId v →
        ∀ op ∈ e.op, op.KeepsAbove req.chunkId v := by
      intro v hold op hmem _ _
      obtain rfl := Option.some.inj (hop.symm.trans hmem)
      exact ⟨_, _, _, _, rfl, UInt64.le_of_lt (hnew v hold)⟩
    have hrec : (s.wal.write e env.quorum).records = s.wal.records ++ [e] := Wal.write_records
    have hlen : (s.wal.write e env.quorum).lastLogIndex = s.wal.lastLogIndex + 1 :=
      Wal.lastLogIndex_write
    refine ⟨⟨hI.below_grow hrec hbelow, ?_, ?_, ?_⟩, hlen.le⟩
    · show (tableVersion r.chunkTable req.chunkId).toNat ≤ (s.wal.write e env.quorum).lastLogIndex
      rw [hlen]
      cases hq : env.quorum with
      | false =>
        rw [hq] at hput
        rw [(Prod.mk.inj hput).1]
        omega
      | true =>
        rw [hq, applyWalEntry_getD, hop] at hput
        rw [(Prod.mk.inj hput).1]
        exact tableVersion_apply_le (hv.trans (Nat.le_succ _)) (hbelow _ hop)
    · show (r.acked.elim s.acked (· :: s.acked)).Pairwise (· > ·)
      cases hq : env.quorum with
      | false =>
        rw [hq] at hput
        rw [(Prod.mk.inj hput).2]
        exact hI.sorted
      | true =>
        rw [hq] at hput
        rw [(Prod.mk.inj hput).2]
        refine List.pairwise_cons.mpr ⟨fun v hmem => ?_, hI.sorted⟩
        -- all of them are at most the last one, which the table has
        obtain ⟨u, us, hus⟩ := List.exists_cons_of_ne_nil (List.ne_nil_of_mem hmem)
        have hu := hnew u (hI.retained u (by rw [hus]; rfl)).table
        have hsorted : (u :: us).Pairwise (· > ·) := hus ▸ hI.sorted
        rw [hus] at hmem
        rcases List.mem_cons.mp hmem with heq | hmem
        · exact heq ▸ hu
        · exact UInt64.lt_trans ((List.pairwise_cons.mp hsorted).1 v hmem) hu
    · show ∀ v ∈ (r.acked.elim s.acked (· :: s.acked)).head?,
        Retained req.chunkId (s.wal.write e env.quorum) r.chunkTable v
      cases hq : env.quorum with
      | false =>
        rw [hq] at hput
        rw [(Prod.mk.inj hput).1, (Prod.mk.inj hput).2]
        intro v hmem
        have hold := hI.retained v hmem
        exact hold.grow Wal.write_records Wal.le_write_committed (habove v hold.table) hold.table
      | true =>
        rw [hq, applyWalEntry_getD, hop] at hput
        rw [(Prod.mk.inj hput).1, (Prod.mk.inj hput).2]
        rintro _ ⟨⟩
        refine ⟨⟨_, Kv.get_alter_self .., UInt64.le_refl _⟩, s.wal.records, e, [], ?_, ?_,
          ⟨_, _, _, hop⟩, by simp⟩
        · exact Wal.write_records
        · exact lt_of_lt_of_le (Nat.lt_succ_self _) (le_max_right _ _)

theorem LifeInv.delete (hI : LifeInv c s) {quorum : Bool} (h : s.step c (.delete quorum) = some s') :
    LifeInv c s' ∧ s'.wal.lastLogIndex ≤ s.wal.lastLogIndex + 1 := by
  obtain ⟨r, hr, rfl⟩ := Option.map_eq_some_iff.mp h
  have hbelow : ∀ op ∈ (⟨.deleteChunk, leaderTerm, c⟩ : WalEntry).op,
      op.PutsBelow c (s.wal.lastLogIndex + 1) := by
    rintro _ ⟨⟩ size rf rs w heq
    cases heq
  have hlen : (s.wal.write ⟨.deleteChunk, leaderTerm, c⟩ quorum).lastLogIndex =
      s.wal.lastLogIndex + 1 := Wal.lastLogIndex_write
  refine ⟨⟨hI.below_grow Wal.write_records hbelow, ?_, List.Pairwise.nil, ?_⟩, hlen.le⟩
  · show (tableVersion r.2 c).toNat ≤ (s.wal.write ⟨.deleteChunk, leaderTerm, c⟩ quorum).lastLogIndex
    rw [hlen]
    refine le_trans ?_ (hI.version.trans (Nat.le_succ _))
    cases quorum with
    | false =>
      obtain rfl := Option.some.inj hr
      exact le_refl _
    | true =>
      obtain rfl := Option.some.inj hr
      have hop : (TableOp.delete c).PutsBelow c (tableVersion s.chunkTable c).toNat := by
        rintro size rf rs w ⟨⟩
      exact tableVersion_apply_le (le_refl _) hop
  · rintro v ⟨⟩

theorem LifeInv.append (hI : LifeInv c s) {e : WalEntry} (h : s.step c (.append e) = some s') :
    LifeInv c s' ∧ s'.wal.lastLogIndex ≤ s.wal.lastLogIndex + 1 := by
  simp only [LifeState.step] at h
  split_ifs at h with he
  obtain rfl := Option.some.inj h
  have hrec : (s.wal.append e).records = s.wal.records ++ [e] := rfl
  have hlen : (s.wal.append e).lastLogIndex = s.wal.lastLogIndex + 1 := by
    rw [Wal.lastLogIndex, hrec, List.length_append, List.length_singleton]
    rfl
  refine ⟨⟨hI.below_grow hrec he.putsBelow, ?_, hI.sorted, ?_⟩, hlen.le⟩
  · show (tableVersion s.chunkTable c).toNat ≤ (s.wal.append e).lastLogIndex
    rw [hlen]
    exact hI.version.trans (Nat.le_succ _)
  · intro v hv
    have hold := hI.retained v hv
    exact hold.grow hrec (le_refl _) he.keepsAbove hold.table

theorem LifeInv.commit (hI : LifeInv c s) {i : ℕ} (h : s.step c (.commit i) = some s') :
    LifeInv c s' ∧ s'.wal.lastLogIndex ≤ s.wal.lastLogIndex + 1 := by
  simp only [LifeState.step] at h
  split_ifs at h with hspares
  obtain ⟨e, he, hspares⟩ := hspares
  obtain rfl := Option.some.inj h
  have hread : s.wal.readEntry i = some e := he
  have happly : s.wal.applyAt s.chunkTable i = e.op.elim s.chunkTable (·.apply s.chunkTable) := by
    rw [Wal.applyAt_eq, Wal.opAt, hread]
    rfl
  have hkeep : ∀ v, HasVersion s.chunkTable c v →
      HasVersion (s.wal.applyAt s.chunkTable i) c v := by
    intro v hold
    rw [happly]
    cases hop : e.op with
    | none => exact hold
    | some op => exact hold.apply (hspares.keepsAbove op hop)
  refine ⟨⟨hI.below, ?_, hI.sorted, ?_⟩, Nat.le_succ _⟩
  · show (tableVersion (s.wal.applyAt s.chunkTable i) c).toNat ≤ s.wal.lastLogIndex
    rw [happly]
    cases hop : e.op with
    | none => exact hI.version
    | some op => exact tableVersion_apply_le hI.version (hspares.putsBelow op hop)
  · intro v hv
    obtain ⟨htable, before, e₀, after, hrec, hlt, hput⟩ := hI.retained v hv
    exact ⟨hkeep v htable, before, e₀, after, hrec, hlt.trans_le (le_max_left _ _), hput⟩

theorem LifeInv.restart (hI : LifeInv c s) {ss : Stores} (h : s.step c (.restart ss) = some s') :
    LifeInv c s' ∧ s'.wal.lastLogIndex ≤ s.wal.lastLogIndex + 1 := by
  obtain ⟨t, ht, rfl⟩ := Option.map_eq_some_iff.mp h
  refine ⟨⟨hI.below, ?_, hI.sorted, fun v hv => (hI.retained v hv).replay ht⟩, Nat.le_succ _⟩
  obtain ⟨-, rfl⟩ := Wal.replay_eq_some_iff.mp ht
  exact tableVersion_applyEntries_le fun e he => hI.below e (List.mem_of_mem_take he)

/-- One step of any kind. -/
theorem LifeInv.step (hI : LifeInv c s) (hc : TableOp.PlainId c)
    (hlt : s.wal.lastLogIndex + 1 < 2 ^ 64) {a : LifeStep} (ha : a.WellNamed)
    (h : s.step c a = some s') : LifeInv c s' ∧ s'.wal.lastLogIndex ≤ s.wal.lastLogIndex + 1 := by
  cases a with
  | put alive req env => exact hI.put hc hlt ha h
  | delete quorum => exact hI.delete h
  | append e => exact hI.append h
  | commit i => exact hI.commit h
  | storage ss =>
    obtain rfl := Option.some.inj h
    exact ⟨⟨hI.below, hI.version, hI.sorted, hI.retained⟩, Nat.le_succ _⟩
  | restart ss => exact hI.restart h

/-- **Acknowledged puts survive.**  After any run from the empty log, the versions acknowledged since
the last deletion that was logged increase strictly, and the table has the chunk in each of them or
in a newer one. -/
theorem acknowledged_puts_survive (hc : TableOp.PlainId c) {tr : List LifeStep}
    (h : (leaderLife c).Run (fun _ a => a.WellNamed) {} tr s) (hlen : tr.length < 2 ^ 64) :
    s.acked.Pairwise (· > ·) ∧ ∀ v ∈ s.acked, HasVersion s.chunkTable c v := by
  have hinv : tr.length < 2 ^ 64 → LifeInv c s ∧ s.wal.lastLogIndex ≤ tr.length := by
    refine h.trace_invariant
      (I := fun tr s => tr.length < 2 ^ 64 → LifeInv c s ∧ s.wal.lastLogIndex ≤ tr.length) ?_ ?_
    · exact fun _ => ⟨⟨by simp, by simp [tableVersion], .nil, by simp⟩, le_refl _⟩
    · intro tr s a s' ih hs hk hlt
      rw [List.length_append, List.length_singleton] at hlt ⊢
      obtain ⟨hI, hle⟩ := ih (by omega)
      obtain ⟨hI', hle'⟩ := hI.step hc (by omega) hk hs
      exact ⟨hI', hle'.trans (Nat.succ_le_succ hle)⟩
  obtain ⟨hI, -⟩ := hinv hlen
  refine ⟨hI.sorted, fun v hv => ?_⟩
  -- the last one is the newest
  obtain ⟨u, us, hus⟩ := List.exists_cons_of_ne_nil (List.ne_nil_of_mem hv)
  obtain ⟨e, he, hle⟩ := (hI.retained u (by rw [hus]; rfl)).table
  have hsorted : (u :: us).Pairwise (· > ·) := hus ▸ hI.sorted
  rw [hus] at hv
  rcases List.mem_cons.mp hv with heq | hv
  · exact ⟨e, he, heq ▸ hle⟩
  · have hlt : v < u := (List.pairwise_cons.mp hsorted).1 v hv
    exact ⟨e, he, UInt64.le_trans (UInt64.le_of_lt hlt) hle⟩

/-- The second put finds no quorum, but the next entry is committed over its own, so the restart
applies it; the third put is one above it. -/
def lifeTrace : List LifeStep :=
  [.put soloState.alive (soloReq ['x']) (soloEnv true),
    .put soloState.alive (soloReq ['y']) (soloEnv false),
    .append ⟨.deleteChunk, leaderTerm, ['d']⟩, .commit 3,
    .restart fun _ => ChunkStore.empty,
    .put soloState.alive (soloReq ['z']) (soloEnv true)]

def lifeState : LifeState := (leaderLife ['c']).final (fun _ a => a.WellNamed) {} lifeTrace

theorem lifeState_reach :
    (leaderLife ['c']).Run (fun _ a => a.WellNamed) {} lifeTrace lifeState :=
  Machine.run_final (by decide +kernel)

example : lifeState.acked = [3, 1] := by decide +kernel

theorem acknowledged_puts_survive_lost_quorum :
    lifeState.acked.Pairwise (· > ·) ∧
      ∀ v ∈ lifeState.acked, HasVersion lifeState.chunkTable ['c'] v :=
  acknowledged_puts_survive (by decide) lifeState_reach (by decide)

end Runs

end NimbusVault
