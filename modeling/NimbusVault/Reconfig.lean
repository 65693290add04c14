import NimbusVault.PutChunk

/-!
# Reconfig — the reconfiguration driver

`reconfigTargets` computes the new replica entries from the old set: the old nodes in their order
without the excluded one, the included node, cut to the new factor or filled up with what placement
selects.  The entries of a cluster are again entries of its nodes (`reconfigTargets_mem`).  The two
log payloads are decoded to `applyReconfigStart` and `applyReconfigCommit`; with no target at all
both payloads are too short and are ignored.
-/

namespace NimbusVault

open Lib

/-! ### Target selection -/

/-- `if (target_set.insert(id).second) target_ids.push_back(id)`. -/
def pushNew (ids : List Str) (id : Str) : List Str := if id ∈ ids then ids else ids ++ [id]

/-- `encode_entry` of the driver. -/
def reconfigEntry (alive : List NodeEntry) (nodeId : Str) : Str :=
  match addressOf alive nodeId with
  | some addr => nodeId ++ '=' :: addr
  | none => nodeId

def keptIds (mustExclude : Str) (oldSet : List Str) : List Str :=
  (oldSet.map extractNodeId).foldl (fun ids id =>
    if mustExclude ≠ [] ∧ id = mustExclude then ids else pushNew ids id) []

/-- The included node goes in last, and only if there is room. -/
def trimIds (newRf : ℕ) (mustInclude : Str) (ids : List Str) : List Str :=
  let trimmed := (ids.filter (· ≠ mustInclude)).take newRf
  if mustInclude ≠ [] ∧ trimmed.length < newRf then trimmed ++ [mustInclude] else trimmed

/-- The target ids before placement is asked; `none` is one of the early failures. -/
def reconfigKeep (alive : List NodeEntry) (oldSet : List Str) (newRf : ℤ)
    (mustInclude mustExclude : Str) : Option (List Str) :=
  let kept := keptIds mustExclude oldSet
  if mustInclude ≠ [] ∧ mustInclude ∉ alive.map NodeEntry.nodeId then none
  else if newRf < 0 then none
  else
    let ids := if mustInclude ≠ [] then pushNew kept mustInclude else kept
    some (if newRf < ids.length then trimIds newRf.toNat mustInclude ids else ids)

/-- The new replica entries, given what placement selected for the missing places. -/
def reconfigTargets (alive : List NodeEntry) (oldSet : List Str) (newRf : ℤ)
    (mustInclude mustExclude : Str) (selected : List Str) : Option (List Str) :=
  match reconfigKeep alive oldSet newRf mustInclude mustExclude with
  | none => none
  | some ids =>
    let ids := if (ids.length : ℤ) < newRf then selected.foldl pushNew ids else ids
    if (ids.length : ℤ) < newRf then none else some (ids.map (reconfigEntry alive))

/-- What placement may answer the driver. -/
def SelectsTargets (alive : List NodeEntry) (oldSet : List Str) (newRf : ℤ)
    (mustInclude mustExclude : Str) (selected : List Str) : Prop :=
  ∀ ids ∈ reconfigKeep alive oldSet newRf mustInclude mustExclude,
    (ids.length : ℤ) < newRf → SelectsNodes (newRf - ids.length) alive ids selected

instance (alive : List NodeEntry) (oldSet : List Str) (newRf : ℤ) (mustInclude mustExclude : Str)
    (selected : List Str) :
    Decidable (SelectsTargets alive oldSet newRf mustInclude mustExclude selected) :=
  inferInstanceAs (Decidable (∀ ids ∈ reconfigKeep _ _ _ _ _, _ → _))

section Targets

variable {alive : List NodeEntry} {ids xs oldSet new selected : List Str} {id x incl excl : Str}
  {newRf : ℤ}

theorem mem_pushNew : x ∈ pushNew ids id ↔ x ∈ ids ∨ x = id := by
  unfold pushNew
  split_ifs with h
  · refine ⟨.inl, ?_⟩
    rintro (hx | rfl)
    · exact hx
    · exact h
  · simp

theorem mem_foldl_pushNew : x ∈ xs.foldl pushNew ids ↔ x ∈ ids ∨ x ∈ xs := by
  induction xs generalizing ids with
  | nil => simp
  | cons y xs ih =>
    rw [List.foldl_cons, ih, mem_pushNew, List.mem_cons, or_assoc]

/-- The loop over the old set: the excluded id is skipped, the others go in if they are new. -/
theorem keptIds_eq_foldl (excl : Str) (oldSet : List Str) : keptIds excl oldSet =
    ((oldSet.map extractNodeId).filter fun id => ¬ (excl ≠ [] ∧ id = excl)).foldl pushNew [] := by
  rw [List.foldl_filter, keptIds]
  refine congrArg (fun f => List.foldl f [] (oldSet.map extractNodeId)) ?_
  funext ids id
  by_cases hid : excl ≠ [] ∧ id = excl
  · simp [hid]
  · simp [hid]

theorem mem_keptIds :
    x ∈ keptIds excl oldSet ↔ x ∈ oldSet.map extractNodeId ∧ ¬ (excl ≠ [] ∧ x = excl) := by
  rw [keptIds_eq_foldl, mem_foldl_pushNew, List.mem_filter, decide_eq_true_iff]
  exact or_iff_right List.not_mem_nil

/-! The target ids are distinct, and there are as many as were asked for. -/

theorem nodup_pushNew (h : ids.Nodup) : (pushNew ids id).Nodup := by
  unfold pushNew
  split_ifs with hm
  · exact h
  · refine List.nodup_append.mpr ⟨h, List.nodup_singleton id, fun x hx y hy => ?_⟩
    rintro rfl
    exact hm (List.mem_singleton.mp hy ▸ hx)

theorem nodup_foldl_pushNew (h : ids.Nodup) : (xs.foldl pushNew ids).Nodup := by
  induction xs generalizing ids with
  | nil => exact h
  | cons x xs ih => exact ih (nodup_pushNew h)

theorem length_foldl_pushNew_le : (xs.foldl pushNew ids).length ≤ ids.length + xs.length := by
  induction xs generalizing ids with
  | nil => exact le_refl _
  | cons x xs ih =>
    have hstep : (pushNew ids x).length ≤ ids.length + 1 := by
      unfold pushNew
      split_ifs
      · omega
      · simp
    have h : (xs.foldl pushNew (pushNew ids x)).length ≤ (pushNew ids x).length + xs.length := ih
    rw [List.foldl_cons, List.length_cons]
    omega

theorem nodup_keptIds (excl : Str) (oldSet : List Str) : (keptIds excl oldSet).Nodup := by
  rw [keptIds_eq_foldl]
  exact nodup_foldl_pushNew List.nodup_nil

/-- Holding one id back still leaves enough to fill the cut. -/
theorem trimIds_eq (incl : Str) {n : ℕ} (hids : ids.Nodup) (hn : n < ids.length) :
    trimIds n incl ids = (ids.filter (· ≠ incl)).take n ∧ (trimIds n incl ids).length = n := by
  have hfilter : ids.filter (· ≠ incl) = ids.erase incl := by
    rw [hids.erase_eq_filter]
    exact List.filter_congr fun x _ => by by_cases hx : x = incl <;> simp [hx]
  have hlen : n ≤ (ids.filter (· ≠ incl)).length := by
    rw [hfilter, List.length_erase]
    split_ifs <;> omega
  have htake : ((ids.filter (· ≠ incl)).take n).length = n := by
    rw [List.length_take, min_eq_left hlen]
  have heq : trimIds n incl ids = (ids.filter (· ≠ incl)).take n := by
    unfold trimIds
    dsimp only
    rw [if_neg]
    rintro ⟨-, h⟩
    omega
  exact ⟨heq, heq ▸ htake⟩

/-- What is cut to the new factor: old nodes and the included node, which is alive. -/
theorem reconfigKeep_some (h : reconfigKeep alive oldSet newRf incl excl = some ids) :
    0 ≤ newRf ∧ ∃ base : List Str, base.Nodup ∧
      (∀ x ∈ base, x ∈ oldSet.map extractNodeId ∨ x ∈ alive.map NodeEntry.nodeId) ∧
      ids = if newRf < base.length then trimIds newRf.toNat incl base else base := by
  unfold reconfigKeep at h
  by_cases h1 : incl ≠ [] ∧ incl ∉ alive.map NodeEntry.nodeId
  · rw [if_pos h1] at h
    simp at h
  by_cases h2 : newRf < 0
  · rw [if_neg h1, if_pos h2] at h
    simp at h
  rw [if_neg h1, if_neg h2] at h
  refine ⟨not_lt.mp h2, _, ?_, fun x hx => ?_, (Option.some.inj h).symm⟩
  · split_ifs
    · exact nodup_pushNew (nodup_keptIds _ _)
    · exact nodup_keptIds _ _
  · split_ifs at hx with hne
    · rcases mem_pushNew.mp hx with hx | rfl
      · exact .inl (mem_keptIds.mp hx).1
      · exact .inr (not_not.mp fun hc => h1 ⟨hne, hc⟩)
    · exact .inl (mem_keptIds.mp hx).1

/-- The targets before placement is asked. -/
theorem reconfigKeep_ids (h : reconfigKeep alive oldSet newRf incl excl = some ids) :
    ids.Nodup ∧ (ids.length : ℤ) ≤ newRf ∧
      ∀ x ∈ ids, x ∈ oldSet.map extractNodeId ∨ x ∈ alive.map NodeEntry.nodeId := by
  obtain ⟨hrf, base, hnd, hmem, rfl⟩ := reconfigKeep_some h
  split_ifs with hlt
  · obtain ⟨heq, hlen⟩ := trimIds_eq incl (n := newRf.toNat) hnd (by omega)
    refine ⟨?_, by omega, fun x hx => ?_⟩
    · rw [heq]
      exact (hnd.filter _).sublist (List.take_sublist _ _)
    · rw [heq] at hx
      exact hmem x (List.mem_filter.mp (List.mem_of_mem_take hx)).1
  · exact ⟨hnd, not_lt.mp hlt, hmem⟩

/-- **The target ids**: distinct, as many as asked for, and each an old node or one that is alive.
-/
theorem reconfigTargets_ids (hsel : SelectsTargets alive oldSet newRf incl excl selected)
    (h : reconfigTargets alive oldSet newRf incl excl selected = some new) :
    ∃ ids : List Str, new = ids.map (reconfigEntry alive) ∧ ids.Nodup ∧ (ids.length : ℤ) = newRf ∧
      ∀ x ∈ ids, x ∈ oldSet.map extractNodeId ∨ x ∈ alive.map NodeEntry.nodeId := by
  unfold reconfigTargets at h
  cases hkeep : reconfigKeep alive oldSet newRf incl excl with
  | none => rw [hkeep] at h; simp at h
  | some ids =>
    obtain ⟨hnd, hle, hmem⟩ := reconfigKeep_ids hkeep
    rw [hkeep] at h
    dsimp only at h
    by_cases hlt : (ids.length : ℤ) < newRf
    · rw [if_pos hlt] at h
      split_ifs at h with hfew
      obtain ⟨hsub, hlen⟩ := hsel ids hkeep hlt
      have hmax : (selected.foldl pushNew ids).length ≤ ids.length + selected.length :=
        length_foldl_pushNew_le
      refine ⟨_, (Option.some.inj h).symm, nodup_foldl_pushNew hnd, by omega, fun x hx => ?_⟩
      rcases mem_foldl_pushNew.mp hx with hx | hx
      · exact hmem x hx
      · exact .inr (List.mem_filter.mp (hsub.subset hx)).1
    · rw [if_neg hlt, if_neg hlt] at h
      exact ⟨ids, (Option.some.inj h).symm, hnd, by omega, hmem⟩

/-- The field separator comes into the targets only from the old set. -/
theorem reconfigTargets_bar {cl : Cluster} (hold : ∀ e ∈ oldSet, '|' ∉ e)
    (hsel : SelectsTargets cl.nodes oldSet newRf incl excl selected)
    (h : reconfigTargets cl.nodes oldSet newRf incl excl selected = some new) :
    ∀ e ∈ new, '|' ∉ e := by
  obtain ⟨ids, rfl, -, -, hmem⟩ := reconfigTargets_ids hsel h
  intro e he
  obtain ⟨x, hx, rfl⟩ := List.mem_map.mp he
  have hid : '|' ∉ x := by
    rcases hmem x hx with hx | hx
    · obtain ⟨old, ho, rfl⟩ := List.mem_map.mp hx
      refine fun hbar => hold old ho ?_
      unfold extractNodeId splitEntry at hbar
      split_ifs at hbar
      · exact (List.takeWhile_prefix _).subset hbar
      · exact hbar
    · obtain ⟨n, hn, rfl⟩ := List.mem_map.mp hx
      exact (cl.wellNamed n hn).id_bar
  unfold reconfigEntry
  split
  · rename_i addr ha
    obtain ⟨n, hn, rfl⟩ := Option.map_eq_some_iff.mp ha
    have haddr := (cl.wellNamed n (List.mem_of_find?_eq_some hn)).addr_bar
    simp [hid, haddr]
  · exact hid

/-- **The targets of a cluster's chunk are entries of the cluster's nodes.** -/
theorem reconfigTargets_mem {cl : Cluster} (hold : ∀ e ∈ oldSet, ∃ n ∈ cl.nodes, e = n.entry)
    (hsel : SelectsTargets cl.nodes oldSet newRf incl excl selected)
    (h : reconfigTargets cl.nodes oldSet newRf incl excl selected = some new) :
    ∀ e ∈ new, ∃ n ∈ cl.nodes, e = n.entry := by
  obtain ⟨ids, rfl, -, -, hmem⟩ := reconfigTargets_ids hsel h
  intro e he
  obtain ⟨x, hx, rfl⟩ := List.mem_map.mp he
  have hnode : ∃ n ∈ cl.nodes, n.nodeId = x := by
    rcases hmem x hx with hx | hx
    · obtain ⟨old, ho, rfl⟩ := List.mem_map.mp hx
      obtain ⟨n, hn, rfl⟩ := hold old ho
      exact ⟨n, hn, ((cl.wellNamed n hn).extractNodeId).symm⟩
    · exact List.mem_map.mp hx
  obtain ⟨n, hn, rfl⟩ := hnode
  refine ⟨n, hn, ?_⟩
  rw [reconfigEntry, cl.addressOf_eq hn]
  rfl

end Targets

/-! ### The log entries -/

def startPayload (chunkId : Str) (oldSet newSet : List Str) : WalEntry :=
  ⟨.reconfigureStart, leaderTerm, encodeReconfigStart chunkId oldSet newSet⟩

def commitPayload (chunkId : Str) (newSet : List Str) : WalEntry :=
  ⟨.reconfigureCommit, leaderTerm, encodeReconfigCommit chunkId newSet⟩

section Log

variable {t t' : ChunkTable} {c : Str} {old new : List Str}

/-- What a start entry makes of the chunk. -/
theorem applyWalEntry_startPayload (hc : c ≠ []) (hbar : '|' ∉ c) (ho : old ≠ [])
    (hof : ∀ x ∈ old, IsField x) (hnf : ∀ x ∈ new, IsField x) :
    applyWalEntry t (startPayload c old new) =
      some (if new = [] then t else t.applyReconfigStart c old new) := by
  split_ifs with hn
  · subst hn
    have hsplit : splitNonempty (encodeReconfigStart c old []) '|' = [c, encodeSet old] := by
      rw [encodeReconfigStart, splitNonempty_field hbar hc,
        splitNonempty_field (encodeSet_bar fun x hx => (hof x hx).2.1) (encodeSet_ne_nil ho)]
      rfl
    simp only [startPayload, applyWalEntry, hsplit]
  · exact applyWalEntry_start hc hbar ho hn hof hnf

/-- What a commit entry makes of the chunk. -/
theorem applyWalEntry_commitPayload (hc : c ≠ []) (hbar : '|' ∉ c) (hnf : ∀ x ∈ new, IsField x) :
    applyWalEntry t (commitPayload c new) =
      some (if new = [] then t else t.applyReconfigCommit c new) := by
  split_ifs with hn
  · subst hn
    have hsplit : splitNonempty (encodeReconfigCommit c []) '|' = [c] := by
      rw [encodeReconfigCommit, splitNonempty_field hbar hc]
      rfl
    simp only [commitPayload, applyWalEntry, hsplit]
  · exact applyWalEntry_commit hc hbar hn hnf

/-- Start and commit entries never throw. -/
theorem applyWalEntry_reconfig {e : WalEntry} (t : ChunkTable)
    (hty : e.type = .reconfigureStart ∨ e.type = .reconfigureCommit) :
    ∃ t', applyWalEntry t e = some t' := by
  unfold applyWalEntry
  rcases hty with hty | hty <;> rw [hty] <;> dsimp only <;> split <;> exact ⟨_, rfl⟩

/-- An update that keeps versions keeps them in the table. -/
theorem alter_version {f : ChunkEntry → ChunkEntry} (hf : ∀ e, (f e).version = e.version) {k : Str} :
    ((t.alter k (Option.map f)).get c).map ChunkEntry.version =
      (t.get c).map ChunkEntry.version := by
  by_cases hk : c = k
  · subst hk
    rw [Kv.get_alter_self]
    cases t.get c with
    | none => rfl
    | some e => exact congrArg some (hf e)
  · rw [Kv.get_alter_of_ne hk]

/-- No start or commit entry changes the version of any chunk, and none lists or drops one. -/
theorem applyWalEntry_reconfig_version {e : WalEntry}
    (hty : e.type = .reconfigureStart ∨ e.type = .reconfigureCommit)
    (h : applyWalEntry t e = some t') :
    (t'.get c).map ChunkEntry.version = (t.get c).map ChunkEntry.version := by
  unfold applyWalEntry at h
  rcases hty with hty | hty
  · rw [hty] at h
    dsimp only at h
    split at h
    · obtain rfl := Option.some.inj h
      exact alter_version (f := ChunkTable.startEntry _ _) fun _ => rfl
    · obtain rfl := Option.some.inj h
      rfl
  · rw [hty] at h
    dsimp only at h
    split at h
    · obtain rfl := Option.some.inj h
      exact alter_version (f := ChunkTable.commitEntry _) fun _ => rfl
    · obtain rfl := Option.some.inj h
      rfl

end Log

end NimbusVault
