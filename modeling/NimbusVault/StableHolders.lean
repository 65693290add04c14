import NimbusVault.PutVersions
import NimbusVault.TableOp

/-!
# StableHolders — a stable chunk is held by a node of its replica set

Over the interleavings of `Race`: whenever the table lists the chunk as stable at version `v`, a
node of its replica set stores a version at least `v`, provided two things never happen
(`StepSafe`): a reconfiguration commits although the table has moved past the version it read at its
begin, and a rollback deletes at a node that the table lists, that a running put counts on, or that
a reconfiguration has verified.  `HoldInv` is the invariant; it says of every call what it may rely
on.
-/

namespace NimbusVault

open Lib RaceState

/-- The node at `addr` stores a version at least `v`. -/
def HoldsAtLeast (ss : Stores) (c addr : Str) (v : UInt64) : Prop :=
  ∃ w, v ≤ w ∧ ((ss addr).stored c w).isSome = true

/-- Entries of nodes of the cluster. -/
def AreEntries (cl : Cluster) (xs : List Str) : Prop := ∀ x ∈ xs, ∃ n ∈ cl.nodes, x = n.entry

/-- If the chunk is listed as stable, some replica holds its version or a later one. -/
def StableHeld (cl : Cluster) (c : Str) (s : RaceState) : Prop :=
  ∀ e, s.chunkTable.get c = some e → e.configState = .stable →
    ∃ x ∈ e.replicaSet, HoldsAtLeast s.stores c (resolveReplicaAddress cl.nodes x) e.version

/-! ### What goes wrong -/

/-- Nobody relies on what the node at `addr` stores: the table does not list it for the stable
chunk, no running put has its acknowledgement, no reconfiguration has verified it. -/
structure NodeFree (cl : Cluster) (c : Str) (s : RaceState) (addr : Str) : Prop where
  table : ∀ e, s.chunkTable.get c = some e → e.configState = .stable →
    ∀ x ∈ e.replicaSet, resolveReplicaAddress cl.nodes x ≠ addr
  puts : ∀ k req v l todo, s.puts k = some (.writing req v l todo) → addr ∉ l.successfulAddrs
  reconfigs : ∀ j old v new verified todo, s.reconfigs j = some ⟨old, v, new, .verifying verified todo⟩ →
    ∀ x ∈ verified, resolveReplicaAddress cl.nodes x ≠ addr

/-- Rollbacks delete at free nodes only, and reconfigurations commit only while the table is not
ahead of the version they read. -/
def StepSafe (cl : Cluster) (c : Str) (s : RaceState) : RaceStep → Prop
  | .undo i true => ∀ error addr todo, s.puts i = some (.undoing error (addr :: todo)) →
      NodeFree cl c s addr
  | .commit j true => ∀ call, s.reconfigs j = some call → tableVersion s.chunkTable c ≤ call.version
  | _ => True

/-! ### The invariant -/

/-- What a put under way may rely on: its acknowledgements come from nodes of its entries, and those
nodes store its version. -/
def PutPhase.Backed (cl : Cluster) (c : Str) (ss : Stores) : PutPhase → Prop
  | .writing _ v l todo => AreEntries cl l.replicaEntries ∧ (∀ x ∈ todo, ∃ n ∈ cl.nodes, n.nodeId = x) ∧
      ∀ a ∈ l.successfulAddrs, (∃ x ∈ l.replicaEntries, resolveReplicaAddress cl.nodes x = a) ∧
        ((ss a).stored c v).isSome = true
  | _ => True

/-- What a reconfiguration under way may rely on: its sets are entries of nodes, and the nodes it
has verified store the version it read. -/
def ReconfigCall.Backed (cl : Cluster) (c : Str) (ss : Stores) (call : ReconfigCall) : Prop :=
  match call.phase with
  | .finished _ => True
  | .verifying verified todo =>
    (call.oldSet ≠ [] ∧ AreEntries cl call.oldSet ∧ AreEntries cl call.newNodes) ∧
      call.newNodes = verified ++ todo ∧
      ∀ x ∈ verified, HoldsAtLeast ss c (resolveReplicaAddress cl.nodes x) call.version
  | _ => call.oldSet ≠ [] ∧ AreEntries cl call.oldSet ∧ AreEntries cl call.newNodes

structure HoldInv (cl : Cluster) (c : Str) (s : RaceState) : Prop where
  keys : ∀ addr, (s.stores addr).OwnsPrefix c
  listed : ∀ e, s.chunkTable.get c = some e → e.replicaSet ≠ [] ∧ AreEntries cl e.replicaSet
  stable : StableHeld cl c s
  puts : ∀ k p, s.puts k = some p → p.Backed cl c s.stores
  reconfigs : ∀ j call, s.reconfigs j = some call → call.Backed cl c s.stores

section Frame

variable {cl : Cluster} {c : Str} {s : RaceState} {ss ss' : Stores} {addr : Str} {v : UInt64}

theorem HoldsAtLeast.mono (h : HoldsAtLeast ss c addr v)
    (hg : ∀ w, ((ss addr).stored c w).isSome = true → ((ss' addr).stored c w).isSome = true) :
    HoldsAtLeast ss' c addr v := by
  obtain ⟨w, hw, hs⟩ := h
  exact ⟨w, hw, hg w hs⟩

theorem PutPhase.Backed.mono {p : PutPhase} (h : p.Backed cl c ss)
    (hg : ∀ req v l todo, p = .writing req v l todo → ∀ a ∈ l.successfulAddrs,
      ((ss a).stored c v).isSome = true → ((ss' a).stored c v).isSome = true) :
    p.Backed cl c ss' := by
  cases p with
  | writing req v l todo =>
    obtain ⟨h1, h2, h3⟩ := h
    refine ⟨h1, h2, fun a ha => ?_⟩
    obtain ⟨hx, hs⟩ := h3 a ha
    exact ⟨hx, hg req v l todo rfl a ha hs⟩
  | _ => trivial

theorem ReconfigCall.Backed.mono {call : ReconfigCall} (h : call.Backed cl c ss)
    (hg : ∀ verified todo, call.phase = .verifying verified todo → ∀ x ∈ verified,
      HoldsAtLeast ss c (resolveReplicaAddress cl.nodes x) call.version →
        HoldsAtLeast ss' c (resolveReplicaAddress cl.nodes x) call.version) :
    call.Backed cl c ss' := by
  obtain ⟨old, w, new, phase⟩ := call
  cases phase with
  | verifying verified todo =>
    obtain ⟨h1, h2, h3⟩ := h
    exact ⟨h1, h2, fun x hx => hg verified todo rfl x hx (h3 x hx)⟩
  | _ => exact h

/-- Stores may grow. -/
theorem HoldInv.grow (hinv : HoldInv cl c s) (hkeys : ∀ a, (ss' a).OwnsPrefix c)
    (hg : ∀ a w, ((s.stores a).stored c w).isSome = true → ((ss' a).stored c w).isSome = true) :
    HoldInv cl c { s with stores := ss' } where
  keys := hkeys
  listed := hinv.listed
  stable e he hst := by
    obtain ⟨x, hx, hh⟩ := hinv.stable e he hst
    exact ⟨x, hx, hh.mono (hg _)⟩
  puts k p hp := (hinv.puts k p hp).mono fun _ _ _ _ _ a _ => hg a _
  reconfigs j call hj := (hinv.reconfigs j call hj).mono fun _ _ _ x _ hh => hh.mono (hg _)

theorem HoldInv.write {d : Str} {fate : RpcFate} (hinv : HoldInv cl c s) :
    HoldInv cl c { s with stores := (writeChunkToReplica s.stores addr c v d fate).2 } := by
  refine hinv.grow (fun a => ?_) fun a w hs => ?_
  · rw [writeChunkToReplica_apply]
    split_ifs
    · exact (hinv.keys a).write_self
    · exact hinv.keys a
  · rw [writeChunkToReplica_apply]
    split_ifs
    · exact ChunkStore.stored_write_isSome hs
    · exact hs

/-- A delete at a free node takes nothing that anybody relies on. -/
theorem HoldInv.delete {executed : Bool} (hinv : HoldInv cl c s)
    (hfree : executed = true → NodeFree cl c s addr) :
    HoldInv cl c { s with stores := deleteChunkFromReplica s.stores addr c executed } := by
  cases executed with
  | false =>
    have he : deleteChunkFromReplica s.stores addr c false = s.stores := by
      funext a
      rw [deleteChunkFromReplica_apply, if_neg fun h => absurd h.1 (by decide)]
    rw [he]
    exact hinv
  | true =>
    have hfree := hfree rfl
    have hother : ∀ a, a ≠ addr → deleteChunkFromReplica s.stores addr c true a = s.stores a := by
      intro a ha
      rw [deleteChunkFromReplica_apply, if_neg fun h => ha h.2.1.symm]
    refine ⟨fun a => ?_, hinv.listed, fun e he hst => ?_, fun k p hp => ?_, fun j call hj => ?_⟩
    · dsimp only
      rw [deleteChunkFromReplica_apply]
      split_ifs
      · exact (hinv.keys a).remove
      · exact hinv.keys a
    · obtain ⟨x, hx, hh⟩ := hinv.stable e he hst
      refine ⟨x, hx, hh.mono fun w hs => ?_⟩
      dsimp only
      rw [hother _ (hfree.table e he hst x hx)]
      exact hs
    · refine (hinv.puts k p hp).mono fun req v l todo he a ha hs => ?_
      subst he
      have hne : a ≠ addr := by
        rintro rfl
        exact hfree.puts k req v l todo hp ha
      dsimp only
      rw [hother a hne]
      exact hs
    · refine (hinv.reconfigs j call hj).mono fun verified todo he x hx hh => ?_
      obtain ⟨old, w, new, phase⟩ := call
      dsimp only at he
      subst he
      refine hh.mono fun w hs => ?_
      dsimp only
      rw [hother _ (hfree.reconfigs j old _ new verified todo hj x hx)]
      exact hs

theorem HoldInv.setPut (hinv : HoldInv cl c s) {i : ℕ} {p : PutPhase} (hp : p.Backed cl c s.stores) :
    HoldInv cl c (s.setPut i p) :=
  ⟨hinv.keys, hinv.listed, hinv.stable, forall_setPut hp hinv.puts, hinv.reconfigs⟩

theorem HoldInv.setReconfig (hinv : HoldInv cl c s) {j : ℕ} {call : ReconfigCall}
    (hc : call.Backed cl c s.stores) : HoldInv cl c (s.setReconfig j call) :=
  ⟨hinv.keys, hinv.listed, hinv.stable, hinv.puts, forall_update_some hc hinv.reconfigs⟩

/-- A new table has to be as good as the old one. -/
theorem HoldInv.table (hinv : HoldInv cl c s) {t : ChunkTable}
    (hl : ∀ e, t.get c = some e → e.replicaSet ≠ [] ∧ AreEntries cl e.replicaSet)
    (hst : StableHeld cl c { s with chunkTable := t }) : HoldInv cl c { s with chunkTable := t } :=
  ⟨hinv.keys, hl, hst, hinv.puts, hinv.reconfigs⟩

end Frame

/-! ### The steps -/

section Steps

variable {cl : Cluster} {c : Str} {s : RaceState} {i j : ℕ} {req : PutChunkReq} {v : UInt64}
  {l : WriteLocals} {todo old new verified : List Str}

theorem areEntries_isField {xs : List Str} (h : AreEntries cl xs) : ∀ x ∈ xs, IsField x := by
  intro x hx
  obtain ⟨n, hn, rfl⟩ := h x hx
  exact (cl.wellNamed n hn).isField

theorem putUndo_backed {error : Str} {addrs : List Str} {ss : Stores} :
    (putUndo error addrs).Backed cl c ss := by
  unfold putUndo
  split_ifs <;> trivial

theorem holdInv_check (hinv : HoldInv cl c s) :
    HoldInv cl c (s.setPut i (putCheck s.chunkTable req)) := by
  refine hinv.setPut ?_
  unfold putCheck
  split_ifs <;> trivial

theorem holdInv_place (hinv : HoldInv cl c s) {nodes : List Str}
    (hsel : SelectsNodes req.desiredRf.toInt cl.nodes [] nodes) :
    HoldInv cl c (s.setPut i (putPlace s.chunkTable req nodes)) := by
  refine hinv.setPut ?_
  unfold putPlace
  split_ifs
  · trivial
  · exact ⟨fun x hx => by simp at hx, fun x hx => hsel.mem_nodes hx, fun a ha => by simp at ha⟩

/-- A write keeps the put backed: the node that acknowledged stores the version. -/
theorem holdInv_write (hinv : HoldInv cl c s) {n : Str} {fate : RpcFate}
    (hi : s.puts i = some (.writing req v l (n :: todo))) :
    HoldInv cl c ({ s with stores :=
      (putReplica cl.nodes c v req.data ⟨l, s.stores⟩ (n, fate)).stores }.setPut i (.writing req v
        (putReplica cl.nodes c v req.data ⟨l, s.stores⟩ (n, fate)).toWriteLocals todo)) := by
  have hgrown : HoldInv cl c { s with stores :=
      (putReplica cl.nodes c v req.data ⟨l, s.stores⟩ (n, fate)).stores } := hinv.write
  obtain ⟨hentries, hnodes, hacks⟩ := hgrown.puts i _ hi
  obtain ⟨m, hm, rfl⟩ := hnodes n List.mem_cons_self
  have hentry : (putReplica cl.nodes c v req.data ⟨l, s.stores⟩ (m.nodeId, fate)).replicaEntries =
      l.replicaEntries ++ [m.entry] := congrArg (l.replicaEntries ++ [·]) (cl.encode_nodeId hm)
  refine hgrown.setPut ⟨fun x hx => ?_, fun x hx => hnodes x (List.mem_cons_of_mem _ hx),
    fun a ha => ?_⟩
  · rw [hentry] at hx
    rcases List.mem_append.mp hx with hx | hx
    · exact hentries x hx
    · exact ⟨m, hm, List.mem_singleton.mp hx⟩
  · rw [hentry]
    rcases mem_putReplica_addrs.mp ha with ha | ⟨hfate, rfl, hne⟩
    · obtain ⟨⟨x, hx, hxa⟩, hs⟩ := hacks a ha
      exact ⟨⟨x, List.mem_append_left _ hx, hxa⟩, hs⟩
    · refine ⟨⟨m.entry, by simp, ?_⟩, ?_⟩
      · rw [(cl.wellNamed m hm).resolve, Cluster.replicaAddress_eq hm]
      · show (((putReplica cl.nodes c v req.data ⟨l, s.stores⟩ (m.nodeId, fate)).stores
          (replicaAddress cl.nodes m.nodeId)).stored c v).isSome = true
        rw [putReplica_stores, writeChunkToReplica_apply,
          if_pos ⟨by rw [hfate]; simp, rfl, hne⟩, ChunkStore.stored_write_self]
        rfl

/-- The end of a put: its entry lists nodes of which a majority acknowledged. -/
theorem holdInv_log (hc : c ≠ []) (hbar : '|' ∉ c) (hwf : PutsWf c s) (hinv : HoldInv cl c s)
    {quorum : Bool} (hi : s.puts i = some (.writing req v l [])) :
    HoldInv cl c ({ s with chunkTable := (putLog s.chunkTable req v l quorum).1 }.setPut i
      (putLog s.chunkTable req v l quorum).2) := by
  rcases putLog_cases s.chunkTable req v l quorum with ⟨ht, -⟩ | ⟨t, -, hm, ht, he⟩
  · rw [ht]
    refine hinv.setPut ?_
    cases hp : (putLog s.chunkTable req v l quorum).2 with
    | writing req' v' l' todo' => exact absurd hp putLog_ne_writing
    | _ => trivial
  · rw [he]
    obtain ⟨hreq, hlen⟩ := hwf.writing i req v l [] hi
    obtain ⟨hentries, -, hacks⟩ := hinv.puts i _ hi
    have hpos : 0 < l.successfulAddrs.length := by
      unfold WriteLocals.majorityNeeded at hm
      omega
    have hne : l.replicaEntries ≠ [] := by
      intro hnil
      rw [hnil, List.length_nil] at hlen
      omega
    subst hreq
    have happ : applyWalEntry s.chunkTable (putPayload req v l.replicaEntries) =
        some (s.chunkTable.applyPutChunk req.chunkId req.sizeBytes req.desiredRf l.replicaEntries v) :=
      applyWalEntry_put hc hbar hne (areEntries_isField hentries)
    rw [happ] at ht
    obtain rfl := Option.some.inj ht
    refine HoldInv.setPut (hinv.table (fun e hget => ?_) fun e hget hst => ?_) trivial
    · rw [ChunkTable.applyPutChunk, Kv.get_put_self] at hget
      obtain rfl := Option.some.inj hget
      exact ⟨hne, hentries⟩
    · have hget : (s.chunkTable.applyPutChunk req.chunkId req.sizeBytes req.desiredRf
          l.replicaEntries v).get req.chunkId = some e := hget
      rw [ChunkTable.applyPutChunk, Kv.get_put_self] at hget
      obtain rfl := Option.some.inj hget
      obtain ⟨a, ha⟩ := List.exists_mem_of_length_pos hpos
      obtain ⟨⟨x, hx, rfl⟩, hs⟩ := hacks a ha
      exact ⟨x, hx, v, UInt64.le_refl _, hs⟩

theorem holdInv_begin (hinv : HoldInv cl c s) {newRf : Int32} {incl excl : Str} {selected : List Str}
    (hsel : ∀ e ∈ s.chunkTable.get c,
      SelectsTargets cl.nodes e.replicaSet newRf.toInt incl excl selected) :
    HoldInv cl c (s.setReconfig j (reconfigBegin cl s.chunkTable c newRf incl excl selected)) := by
  refine hinv.setReconfig ?_
  rcases reconfigBegin_cases cl s.chunkTable c newRf incl excl selected with
    hcall | ⟨e, new, hget, -, ht, hcall⟩
  · rw [hcall]
    trivial
  · obtain ⟨hne, hentries⟩ := hinv.listed e hget
    rw [hcall]
    exact ⟨hne, hentries, reconfigTargets_mem hentries (hsel e hget) ht⟩

/-- A start makes the chunk transitioning, or is ignored when there is no target. -/
theorem holdInv_start (hc : c ≠ []) (hbar : '|' ∉ c) (hinv : HoldInv cl c s)
    (hj : s.reconfigs j = some ⟨old, v, new, .targeted⟩) {t : ChunkTable}
    (ht : applyWalEntry s.chunkTable (startPayload c old new) = some t) :
    HoldInv cl c ({ s with chunkTable := t }.setReconfig j
      ⟨old, v, new, .copying (if old = [] then [] else new) none⟩) := by
  obtain ⟨ho, hold, hnew⟩ := hinv.reconfigs j _ hj
  rw [applyWalEntry_startPayload hc hbar ho (areEntries_isField hold) (areEntries_isField hnew)] at ht
  obtain rfl := Option.some.inj ht
  refine HoldInv.setReconfig ?_ ⟨ho, hold, hnew⟩
  split_ifs with hnil
  · exact hinv
  · have hget : ∀ e, (s.chunkTable.applyReconfigStart c old new).get c = some e →
        e.replicaSet = new ∧ e.configState = .transitioning := by
      intro e he
      rw [ChunkTable.applyReconfigStart, Kv.get_alter_self] at he
      obtain ⟨e₀, -, rfl⟩ := Option.map_eq_some_iff.mp he
      exact ⟨rfl, rfl⟩
    refine hinv.table (fun e he => ?_) fun e he hst => ?_
    · rw [(hget e he).1]
      exact ⟨hnil, hnew⟩
    · rw [(hget e he).2] at hst
      simp at hst

/-- A commit over a table that is not ahead: the first target holds the version. -/
theorem holdInv_commit (hc : c ≠ []) (hbar : '|' ∉ c) (hinv : HoldInv cl c s)
    (hj : s.reconfigs j = some ⟨old, v, new, .verifying verified []⟩)
    (hver : tableVersion s.chunkTable c ≤ v) {t : ChunkTable}
    (ht : applyWalEntry s.chunkTable (commitPayload c new) = some t) :
    HoldInv cl c ({ s with chunkTable := t }.setReconfig j ⟨old, v, new, .finished true⟩) := by
  obtain ⟨⟨ho, hold, hnew⟩, hsplit, hheld⟩ := hinv.reconfigs j _ hj
  dsimp only at hsplit hheld hnew
  rw [List.append_nil] at hsplit
  subst hsplit
  rw [applyWalEntry_commitPayload hc hbar (areEntries_isField hnew)] at ht
  obtain rfl := Option.some.inj ht
  refine HoldInv.setReconfig ?_ trivial
  split_ifs with hnil
  · exact hinv
  · have hget : ∀ e, (s.chunkTable.applyReconfigCommit c new).get c = some e →
        e.replicaSet = new ∧ e.version = tableVersion s.chunkTable c := by
      intro e he
      rw [ChunkTable.applyReconfigCommit, Kv.get_alter_self] at he
      obtain ⟨e₀, he₀, rfl⟩ := Option.map_eq_some_iff.mp he
      refine ⟨rfl, ?_⟩
      rw [tableVersion, he₀]
      rfl
    refine hinv.table (fun e he => ?_) fun e he hst => ?_
    · rw [(hget e he).1]
      exact ⟨hnil, hnew⟩
    · obtain ⟨x, hx⟩ := List.exists_mem_of_ne_nil new hnil
      obtain ⟨w, hw, hs⟩ := hheld x hx
      rw [(hget e he).1, (hget e he).2]
      exact ⟨x, hx, w, UInt64.le_trans hver hw, hs⟩

/-- A node that passes verification holds the version. -/
theorem holdInv_verify (hinv : HoldInv cl c s) {entry : Str} {fate : RpcFate}
    (hj : s.reconfigs j = some ⟨old, v, new, .verifying verified (entry :: todo)⟩) :
    HoldInv cl c (s.setReconfig j ⟨old, v, new, ReconfigCall.verify cl c s.stores fate
      ⟨old, v, new, .verifying verified (entry :: todo)⟩ verified entry todo⟩) := by
  obtain ⟨hsets, hsplit, hheld⟩ := hinv.reconfigs j _ hj
  refine hinv.setReconfig ?_
  dsimp only at hsplit hheld
  generalize hp : ReconfigCall.verify _ _ _ _ _ _ _ _ = phase
  rcases ReconfigCall.verify_cases hp rfl with rfl | ⟨rfl, -, -, hok, hle⟩
  · trivial
  · refine ⟨hsets, by simp [hsplit], fun x hx => ?_⟩
    rcases List.mem_append.mp hx with hx | hx
    · exact hheld x hx
    · obtain rfl := List.mem_singleton.mp hx
      obtain ⟨hst, -, -⟩ := ChunkStore.read_some (hinv.keys _) (readChunk_ok hok)
      exact ⟨_, hle, by rw [hst]; rfl⟩

/-- **The step lemma.** -/
theorem HoldInv.fires (hc : c ≠ []) (hbar : '|' ∉ c) {s' : RaceState} {a : RaceStep}
    (hwf : PutsWf c s) (hinv : HoldInv cl c s) (h : Fires cl c s a s') (hok : StepSafe cl c s a) :
    HoldInv cl c s' := by
  cases h with
  | check => exact holdInv_check hinv
  | place _ hsel => exact holdInv_place hinv hsel
  | write hi => exact holdInv_write hinv hi
  | log hi => exact holdInv_log hc hbar hwf hinv hi
  | @undo i executed error addr todo hi =>
    refine (hinv.delete fun he => ?_).setPut putUndo_backed
    subst he
    exact hok error addr todo hi
  | begin _ hsel => exact holdInv_begin hinv hsel
  | startFailed => exact hinv.setReconfig trivial
  | start hj ht => exact holdInv_start hc hbar hinv hj ht
  | fetch hj =>
    have hsets := hinv.reconfigs _ _ hj
    refine hinv.setReconfig ?_
    generalize hp : ReconfigCall.fetch _ _ _ _ _ _ _ = phase
    rcases ReconfigCall.fetch_cases hp with rfl | ⟨todo', fetched, rfl⟩
    · trivial
    · exact hsets
  | copy hj hphase =>
    have hsets := hinv.reconfigs _ _ hj
    refine hinv.write.setReconfig ?_
    rcases hphase with rfl | rfl
    · exact hsets
    · trivial
  | copied hj => exact hinv.setReconfig ⟨hinv.reconfigs _ _ hj, rfl, fun x hx => by simp at hx⟩
  | verify hj => exact holdInv_verify hinv hj
  | commitFailed => exact hinv.setReconfig trivial
  | commit hj ht => exact holdInv_commit hc hbar hinv hj (hok _ hj) ht

end Steps

/-! ### Runs -/

section Runs

variable {cl : Cluster} {c : Str} {s s' : RaceState} {a : RaceStep} {tr : List RaceStep}
  {ok : RaceState → RaceStep → Prop}

theorem holdInv_init : HoldInv cl c {} where
  keys _ := ChunkStore.ownsPrefix_empty
  listed _ h := by simp at h
  stable _ h := by simp at h
  puts _ _ h := by simp at h
  reconfigs _ _ h := by simp at h

theorem holdInv_of_run (hc : c ≠ []) (hbar : '|' ∉ c)
    (h : (race cl c).Run (StepSafe cl c) {} tr s) : HoldInv cl c s := by
  have hboth : PutsWf c s ∧ HoldInv cl c s := by
    refine h.invariant_step (I := fun s => PutsWf c s ∧ HoldInv cl c s)
      ⟨versionInv_init.wf, holdInv_init⟩ fun s a s' hinv hs hok => ?_
    exact ⟨hinv.1.fires (step_fires hs), hinv.2.fires hc hbar hinv.1 (step_fires hs) hok⟩
  exact hboth.2

/-- The table changes by the application of log entries other than deletions. -/
theorem RaceState.Fires.chunkTable (h : Fires cl c s a s') : s'.chunkTable = s.chunkTable ∨
    ∃ e : WalEntry, e.type ≠ .deleteChunk ∧ applyWalEntry s.chunkTable e = some s'.chunkTable := by
  cases h with
  | @log i quorum req v l =>
    rcases putLog_cases s.chunkTable req v l quorum with ⟨ht, -⟩ | ⟨t, -, -, ht, he⟩
    · exact .inl ht
    · rw [he]
      exact .inr ⟨_, by simp [putPayload], ht⟩
  | start _ ht => exact .inr ⟨_, by simp [startPayload], ht⟩
  | commit _ ht => exact .inr ⟨_, by simp [commitPayload], ht⟩
  | _ => exact .inl rfl

/-- A chunk id that no payload can name is never listed. -/
theorem unlisted_of_run (hc : c = [] ∨ '|' ∈ c) (h : (race cl c).Run ok {} tr s) :
    s.chunkTable.get c = none := by
  refine h.invariant_step (I := fun s => s.chunkTable.get c = none) rfl fun s a s' hs hstep _ => ?_
  rcases (step_fires hstep).chunkTable with ht | ⟨e, hty, ht⟩
  · rw [ht]
    exact hs
  · rw [applyWalEntry_get ht hty hc]
    exact hs

/-- **A stable chunk is held**, at its version or a later one, by a node of its replica set: in
every run whose rollbacks delete at free nodes and whose commits find the table where the
reconfiguration read it. -/
theorem stable_chunk_held (h : (race cl c).Run (StepSafe cl c) {} tr s) : StableHeld cl c s := by
  by_cases hc : c = [] ∨ '|' ∈ c
  · intro e he
    rw [unlisted_of_run hc h] at he
    simp at he
  · obtain ⟨hne, hbar⟩ := not_or.mp hc
    exact (holdInv_of_run hne hbar h).stable

end Runs

/-! Chunk `c` moves from node `n` to node `m`, alone or while a put of version 2 is under way. -/

/-- The reconfiguration up to its last verification. -/
def moveToM : List RaceStep :=
  [.begin 0 1 ['m'] ['n'] [], .start 0 true, .fetch 0 .answered, .copy 0 .answered, .copied 0,
    .verify 0 .answered]

/-- Actions that neither roll back nor commit. -/
def isPlain : RaceStep → Bool
  | .undo _ _ => false
  | .commit _ _ => false
  | _ => true

theorem stepSafe_of_isPlain {cl : Cluster} {c : Str} {s : RaceState} {a : RaceStep}
    (h : isPlain a = true) : StepSafe cl c s a := by
  cases a with
  | undo => simp [isPlain] at h
  | commit => simp [isPlain] at h
  | _ => trivial

def movedState : RaceState :=
  (race pairCluster ['c']).final (fun _ a => isPlain a = true) {} (onePut 0 ['x'] ++ moveToM)

theorem stable_chunk_held_moved :
    StableHeld pairCluster ['c'] ((race pairCluster ['c']).next movedState (.commit 0 true)) := by
  have hrun : (race pairCluster ['c']).Run (StepSafe pairCluster ['c']) {} _ movedState :=
    (Machine.run_final (by decide +kernel)).mono fun _ _ h => stepSafe_of_isPlain h
  refine stable_chunk_held (hrun.snoc (by decide +kernel) fun call hcall => ?_)
  have hle : (movedState.reconfigs 0).all
    (fun call => tableVersion movedState.chunkTable ['c'] ≤ call.version) = true := by decide +kernel
  rw [hcall] at hle
  simpa using hle

/-- The put passes its check before the start and logs between the start and the commit. -/
def overtakenRun : List RaceStep :=
  onePut 0 ['x'] ++ .check 1 ⟨['c'], 1, 1, ['y']⟩ :: moveToM ++
    [.place 1 [['n']], .write 1 .answered, .log 1 true, .commit 0 true]

def overtakenState : RaceState := (race pairCluster ['c']).final (fun _ _ => True) {} overtakenRun

theorem overtakenState_reach : (race pairCluster ['c']).Reach {} overtakenRun overtakenState :=
  Machine.run_final (by decide +kernel)

/-- The chunk is listed as stable at version 2, on a node that holds version 1 only. -/
theorem commit_after_put_loses_version : ¬ ∀ (cl : Cluster) c tr s, (race cl c).Reach {} tr s →
    StableHeld cl c s := by
  intro h
  have hget : overtakenState.chunkTable.get ['c'] =
    some ⟨['c'], 2, [['m', '=', 'b']], 1, .stable, [], 1⟩ := by decide +kernel
  have hstore : overtakenState.stores ['b'] = ChunkStore.empty.write ['c'] 1 ['x'] := by
    decide +kernel
  obtain ⟨x, hx, w, hw, hs⟩ := h pairCluster ['c'] overtakenRun overtakenState overtakenState_reach _
    hget rfl
  obtain rfl := List.mem_singleton.mp hx
  rw [show resolveReplicaAddress pairCluster.nodes ['m', '=', 'b'] = ['b'] by decide, hstore,
    ChunkStore.stored_write] at hs
  split_ifs at hs with hid
  · obtain ⟨-, rfl⟩ := hid
    exact absurd hw (by decide)
  · simp at hs

end NimbusVault
