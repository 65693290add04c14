import NimbusVault.LeaderTable
import NimbusVault.Placement

/-!
# TargetSets — which nodes a reconfiguration ends up with

The driver's call with placement inside: `driverTargets` is the new set that the START entry carries.
Its ids are the distinct old ids with the included one (`baseIds`), cut down if they are too many or
else followed by what placement selects next to them (`driverTargets_eq`).  The three kinds of calls
read off that equation.
-/

namespace NimbusVault

open Lib Placement

/-! ### The driver and placement -/

variable {φ : Type}

/-- `getAliveNodes` lists every node once. -/
theorem MetaCoordinator.nodup_aliveNodes (c : MetaCoordinator φ) :
    (c.getAliveNodes.map (·.nodeId)).Nodup := by
  have hkeys : c.getNodes.map (·.nodeId) = c.nodeTable.keys := by
    rw [getNodes, Kv.keys, List.map_map]
    exact List.map_congr_left fun p hp => c.nodes_keyed p.1 p.2 (Kv.get_eq_some_iff.mpr hp)
  exact (hkeys ▸ Kv.nodup_keys).sublist (List.filter_sublist.map _)

variable [Scalar φ]

/-- The alive nodes as the driver gets them, and how it chooses among them. -/
structure PlacementView (φ : Type) [Scalar φ] where
  cfg : PlacementConfig φ := {}
  shuffle : Shuffle φ := .keep
  alive : List (NodeRecord φ)
  distinct : (alive.map (·.nodeId)).Nodup

namespace PlacementView

def entries (w : PlacementView φ) : List NodeEntry := w.alive.map NodeRecord.toNodeEntry

/-- The call of `select_nodes`, which keeps off `exclude`. -/
def select [DecidableEq φ] (w : PlacementView φ) (n : ℤ) (exclude : List Str) : List Str :=
  selectNodes w.cfg w.shuffle n w.alive exclude

end PlacementView

def MetaCoordinator.placementView (c : MetaCoordinator φ) (cfg : PlacementConfig φ)
    (sh : Shuffle φ) : PlacementView φ where
  cfg := cfg
  shuffle := sh
  alive := c.getAliveNodes
  distinct := c.nodup_aliveNodes

variable [DecidableEq φ]

/-- What placement answers the driver. -/
def driverSelected (w : PlacementView φ) (oldSet : List Str) (newRf : ℤ)
    (mustInclude mustExclude : Str) : List Str :=
  match reconfigKeep w.entries oldSet newRf mustInclude mustExclude with
  | none => []
  | some ids => w.select (newRf - ids.length) ids

/-- The set that the START entry is to carry; `none` is a failure before that. -/
def driverTargets (w : PlacementView φ) (oldSet : List Str) (newRf : ℤ)
    (mustInclude mustExclude : Str) : Option (List Str) :=
  reconfigTargets w.entries oldSet newRf mustInclude mustExclude
    (driverSelected w oldSet newRf mustInclude mustExclude)

/-- The driver's call, with `w` for what it sees of the nodes at its start. -/
def driverReconfig (w : PlacementView φ) (t : ChunkTable) (ss : Stores) (chunkId : Str)
    (req : ReconfigReq) (env : ReconfigEnv) : ReconfigResult :=
  let selected := (t.get chunkId).elim [] fun e =>
    driverSelected w e.replicaSet req.newRf.toInt req.mustInclude req.mustExclude
  reconfig t ss chunkId req.newRf req.mustInclude req.mustExclude
    { env with alive := w.entries, selected }

/-- The distinct ids of the old set without the excluded one, and the included one. -/
def baseIds (oldSet : List Str) (mustInclude mustExclude : Str) : List Str :=
  if mustInclude ≠ [] then pushNew (keptIds mustExclude oldSet) mustInclude
  else keptIds mustExclude oldSet

section Targets

variable {w : PlacementView φ} {old new ids xs : List Str} {incl excl x : Str} {newRf : ℤ}
  {t : ChunkTable} {ss : Stores} {c : Str} {req : ReconfigReq} {env : ReconfigEnv}

theorem mem_select {n : ℤ} : x ∈ w.select n ids ↔ ∃ r ∈ candidates w.alive ids,
    r.nodeId = x ∧ place w.cfg w.shuffle (candidates w.alive ids) r < n.toNat := by
  rw [PlacementView.select, selectNodes, List.mem_map]
  constructor
  · rintro ⟨r, hr, rfl⟩
    obtain ⟨hr, hlt⟩ := (mem_selectRecords_iff (nodup_candidates w.distinct)).mp hr
    exact ⟨r, hr, rfl, hlt⟩
  · rintro ⟨r, hr, rfl, hlt⟩
    exact ⟨r, (mem_selectRecords_iff (nodup_candidates w.distinct)).mpr ⟨hr, hlt⟩, rfl⟩

/-- As many new nodes as there are, each once. -/
theorem select_spec (w : PlacementView φ) (n : ℤ) (ids : List Str) :
    (w.select n ids).length = min n.toNat (candidates w.alive ids).length ∧ (w.select n ids).Nodup ∧
      ∀ x ∈ w.select n ids, x ∈ w.alive.map (·.nodeId) ∧ x ∉ ids := by
  refine ⟨?_, ?_, fun x hx => ?_⟩
  · rw [PlacementView.select, selectNodes, List.length_map, length_selectRecords]
  · obtain ⟨l, hperm, hl⟩ := selectRecords_subperm w.cfg w.shuffle n.toNat (candidates w.alive ids)
    exact (hperm.map (·.nodeId)).nodup_iff.mp ((nodup_candidates w.distinct).sublist (hl.map _))
  · obtain ⟨r, hr, rfl, -⟩ := mem_select.mp hx
    obtain ⟨hr, hnew⟩ := mem_candidates.mp hr
    exact ⟨List.mem_map_of_mem hr, hnew⟩

/-- The answer meets what the other modules ask of it. -/
theorem selectsTargets (w : PlacementView φ) (old : List Str) (newRf : ℤ) (incl excl : Str) :
    SelectsTargets w.entries old newRf incl excl (driverSelected w old newRf incl excl) := by
  intro ids hids _
  rw [driverSelected, Option.mem_def.mp hids]
  exact selectsNodes _ _ _ _ _

theorem nodup_baseIds (old : List Str) (incl excl : Str) : (baseIds old incl excl).Nodup := by
  unfold baseIds
  split_ifs
  · exact nodup_pushNew (nodup_keptIds _ _)
  · exact nodup_keptIds _ _

theorem reconfigKeep_eq (alive : List NodeEntry) (old : List Str) (newRf : ℤ) (incl excl : Str) :
    reconfigKeep alive old newRf incl excl =
      if incl ≠ [] ∧ incl ∉ alive.map NodeEntry.nodeId then none
      else if newRf < 0 then none
      else some (if newRf < (baseIds old incl excl).length then
        ((baseIds old incl excl).filter (· ≠ incl)).take newRf.toNat else baseIds old incl excl) := by
  unfold reconfigKeep
  by_cases h1 : incl ≠ [] ∧ incl ∉ alive.map NodeEntry.nodeId
  · rw [if_pos h1, if_pos h1]
  by_cases h2 : newRf < 0
  · rw [if_neg h1, if_neg h1, if_pos h2, if_pos h2]
  rw [if_neg h1, if_neg h1, if_neg h2, if_neg h2]
  change some (if newRf < (baseIds old incl excl).length then
    trimIds newRf.toNat incl (baseIds old incl excl) else baseIds old incl excl) = _
  by_cases h3 : newRf < (baseIds old incl excl).length
  · rw [if_pos h3, if_pos h3, (trimIds_eq incl (nodup_baseIds old incl excl) (by omega)).1]
  · rw [if_neg h3, if_neg h3]

/-- Ids that are all new are appended. -/
theorem foldl_pushNew_eq (hnd : xs.Nodup) (hnew : ∀ x ∈ xs, x ∉ ids) :
    xs.foldl pushNew ids = ids ++ xs := by
  induction xs generalizing ids with
  | nil => simp
  | cons x xs ih =>
    obtain ⟨hx, hnd⟩ := List.nodup_cons.mp hnd
    obtain ⟨hxi, hnew⟩ := List.forall_mem_cons.mp hnew
    rw [List.foldl_cons, pushNew, if_neg hxi, ih hnd, List.append_assoc, List.singleton_append]
    intro y hy hbad
    rcases List.mem_append.mp hbad with hyi | hyx
    · exact hnew y hy hyi
    · exact hx (List.mem_singleton.mp hyx ▸ hy)

/-- **The new set.** -/
theorem driverTargets_eq (w : PlacementView φ) (old : List Str) (newRf : ℤ) (incl excl : Str) :
    driverTargets w old newRf incl excl =
      let base := baseIds old incl excl
      if incl ≠ [] ∧ incl ∉ w.entries.map NodeEntry.nodeId then none
      else if newRf < 0 then none
      else if newRf < base.length then
        some (((base.filter (· ≠ incl)).take newRf.toNat).map (reconfigEntry w.entries))
      else if (base.length + (candidates w.alive base).length : ℤ) < newRf then none
      else some ((base ++ w.select (newRf - base.length) base).map (reconfigEntry w.entries)) := by
  have hkeep := reconfigKeep_eq w.entries old newRf incl excl
  have hnd := nodup_baseIds old incl excl
  set base := baseIds old incl excl
  unfold driverTargets driverSelected reconfigTargets
  dsimp only
  rw [hkeep]
  by_cases h1 : incl ≠ [] ∧ incl ∉ w.entries.map NodeEntry.nodeId
  · rw [if_pos h1, if_pos h1]
  by_cases h2 : newRf < 0
  · rw [if_neg h1, if_neg h1, if_pos h2, if_pos h2]
  rw [if_neg h1, if_neg h1, if_neg h2, if_neg h2]
  dsimp only
  by_cases h3 : newRf < base.length
  · -- the cut has the right length, and placement is not asked
    obtain ⟨heq, hlen⟩ := trimIds_eq incl (n := newRf.toNat) hnd (by omega)
    rw [heq] at hlen
    have hfull : ¬ ((((base.filter (· ≠ incl)).take newRf.toNat).length : ℤ) < newRf) := by omega
    rw [if_pos h3, if_pos h3, if_neg hfull, if_neg hfull]
  · obtain ⟨hlen, hsnd, hmem⟩ := select_spec w (newRf - base.length) base
    have happ : (w.select (newRf - base.length) base).foldl pushNew base =
        base ++ w.select (newRf - base.length) base :=
      foldl_pushNew_eq hsnd fun x hx => (hmem x hx).2
    rw [if_neg h3, if_neg h3]
    by_cases h4 : (base.length : ℤ) < newRf
    · rw [if_pos h4, happ, List.length_append, hlen]
      by_cases h5 : (base.length + (candidates w.alive base).length : ℤ) < newRf
      · rw [if_pos h5, if_pos (by omega)]
      · rw [if_neg h5, if_neg (by omega)]
    · have hnone : w.select (newRf - base.length) base = [] := by
        refine List.length_eq_zero_iff.mp (hlen.trans ?_)
        rw [Int.toNat_of_nonpos (by omega), Nat.zero_min]
      rw [if_neg h4, if_neg h4, if_neg (by omega), hnone, List.append_nil]

/-! Before its START entry a call leaves everything alone; behind it, both entries carry the new set. -/

/-- The set that a call writes in its START entry. -/
def startSet (w : PlacementView φ) (t : ChunkTable) (chunkId : Str) (req : ReconfigReq) :
    Option (List Str) :=
  match t.get chunkId with
  | none => none
  | some e =>
    if e.configState = .transitioning then none
    else driverTargets w e.replicaSet req.newRf.toInt req.mustInclude req.mustExclude

theorem driverReconfig_none (h : startSet w t c req = none) :
    driverReconfig w t ss c req env = ⟨false, t, ss⟩ := by
  unfold startSet at h
  unfold driverReconfig reconfig
  cases he : t.get c with
  | none => rfl
  | some e =>
    rw [he] at h
    dsimp only at h ⊢
    split_ifs at h ⊢ with hst
    · rfl
    · change reconfigTargets w.entries e.replicaSet req.newRf.toInt req.mustInclude req.mustExclude
        (driverSelected _ _ _ _ _) = none at h
      rw [Option.elim_some, h]

/-- The call from the write of its START entry on. -/
def reconfigFromStart (t : ChunkTable) (ss : Stores) (e : ChunkEntry) (chunkId : Str)
    (newNodes : List Str) (env : ReconfigEnv) : ReconfigResult :=
  match metaWrite t (startPayload chunkId e.replicaSet newNodes) env.startQuorum with
  | some (true, t') => reconfigStarted t' ss chunkId e.version e.replicaSet newNodes env
  | _ => ⟨false, t, ss⟩

theorem driverReconfig_some (h : startSet w t c req = some new) :
    ∃ e env', t.get c = some e ∧
      driverReconfig w t ss c req env = reconfigFromStart t ss e c new env' := by
  unfold startSet at h
  cases he : t.get c with
  | none => simp [he] at h
  | some e =>
    rw [he] at h
    dsimp only at h
    split_ifs at h with hst
    have htgt : reconfigTargets w.entries e.replicaSet req.newRf.toInt req.mustInclude
        req.mustExclude (driverSelected w e.replicaSet req.newRf.toInt req.mustInclude
          req.mustExclude) = some new := h
    refine ⟨e, { env with
      alive := w.entries
      selected := driverSelected w e.replicaSet req.newRf.toInt req.mustInclude req.mustExclude },
      rfl, ?_⟩
    unfold driverReconfig reconfig reconfigFromStart
    cases hm : metaWrite t (startPayload c e.replicaSet new) env.startQuorum with
    | none => simp [he, hst, htgt, hm]
    | some r =>
      obtain ⟨_ | _, t'⟩ := r
      · simp [he, hst, htgt, hm]
      · simp [he, hst, htgt, hm]

theorem extractNodeId_eq_self_iff : extractNodeId x = x ↔ '=' ∉ x := by
  refine ⟨fun h => h ▸ eq_not_mem_extractNodeId x, fun h => ?_⟩
  rw [extractNodeId, splitEntry, if_neg h]
  rfl

/-- The entry of a node has the node's id, up to a `=` in it. -/
theorem extractNodeId_entry (alive : List NodeEntry) (x : Str) :
    extractNodeId (reconfigEntry alive x) = extractNodeId x := by
  by_cases hx : '=' ∈ x
  · unfold reconfigEntry
    cases addressOf alive x with
    | none => rfl
    | some addr =>
      have hstop : (x.takeWhile (· ≠ '=')).length ≠ x.length := fun hlen =>
        absurd (List.takeWhile_eq_self_iff.mp ((List.takeWhile_prefix _).eq_of_length hlen) _ hx)
          (by simp)
      simp only [extractNodeId, splitEntry, List.mem_append, hx, true_or, if_true,
        Option.elim_some, List.takeWhile_append, if_neg hstop]
  · rw [extractNodeId_reconfigEntry hx, extractNodeId_eq_self_iff.mpr hx]

theorem map_extractNodeId_entries (alive : List NodeEntry) (ids : List Str) :
    (ids.map (reconfigEntry alive)).map extractNodeId = ids.map extractNodeId := by
  rw [List.map_map]
  exact List.map_congr_left fun x _ => extractNodeId_entry alive x

/-- `pushNew` keeps the first of every kind. -/
theorem foldl_pushNew_eraseDups (xs ids : List Str) :
    xs.foldl pushNew ids = ids ++ (xs.filter (· ∉ ids)).eraseDups := by
  induction xs generalizing ids with
  | nil => simp
  | cons x xs ih =>
    rw [List.foldl_cons, pushNew]
    by_cases hx : x ∈ ids
    · rw [if_pos hx, ih, List.filter_cons_of_neg (by simpa using hx)]
    · rw [if_neg hx, ih, List.filter_cons_of_pos (by simpa using hx), List.eraseDups_cons,
        List.filter_filter, List.append_assoc, List.singleton_append]
      congr 3
      exact List.filter_congr fun y _ => by by_cases h : y = x <;> simp [h]

theorem keptIds_eq (excl : Str) (old : List Str) : keptIds excl old =
    ((old.map extractNodeId).filter fun id => ¬ (excl ≠ [] ∧ id = excl)).eraseDups := by
  rw [keptIds_eq_foldl, foldl_pushNew_eraseDups]
  simp

theorem keptIds_spec (hx : x ∈ keptIds excl old) :
    extractNodeId x = x ∧ (excl ≠ [] → x ≠ excl) := by
  obtain ⟨hx, hexcl⟩ := mem_keptIds.mp hx
  obtain ⟨y, -, rfl⟩ := List.mem_map.mp hx
  refine ⟨extractNodeId_eq_self_iff.mpr (eq_not_mem_extractNodeId y), fun hne heq => ?_⟩
  exact hexcl ⟨hne, heq⟩

theorem mem_baseIds : x ∈ baseIds old incl excl ↔ x ∈ keptIds excl old ∨ incl ≠ [] ∧ x = incl := by
  unfold baseIds
  split_ifs with h
  · rw [mem_pushNew, and_iff_right h]
  · simp [h]

/-! ### The included node -/

/-- The ids of a replica set, each where it comes first. -/
def distinctIds (oldSet : List Str) : List Str := (oldSet.map extractNodeId).eraseDups

theorem baseIds_nil (old : List Str) : baseIds old [] [] = distinctIds old := by
  rw [baseIds, if_neg (not_not.mpr rfl), keptIds_eq, distinctIds]
  simp

/-- What a new set looks like that keeps as much of the old one as it can. -/
structure KeepsFirst (w : PlacementView φ) (oldSet : List Str) (n : ℕ) (new : List Str) : Prop where
  length_eq : new.length = n
  nodup : (new.map extractNodeId).Nodup
  kept : (new.map extractNodeId).take (min n (distinctIds oldSet).length) =
    (distinctIds oldSet).take (min n (distinctIds oldSet).length)
  added : ∀ id ∈ (new.map extractNodeId).drop (min n (distinctIds oldSet).length),
    id ∈ w.alive.map (·.nodeId) ∧ id ∉ oldSet.map extractNodeId

section KeepsFirst

variable {rf : ℤ}

/-- The ids of a replica set are ids, and none of them twice. -/
theorem nodup_distinctIds (old : List Str) : (distinctIds old).Nodup :=
  baseIds_nil old ▸ nodup_baseIds old [] []

theorem extractNodeId_distinctIds (hx : x ∈ distinctIds old) : extractNodeId x = x := by
  obtain ⟨y, -, rfl⟩ := List.mem_map.mp (List.mem_eraseDups.mp hx)
  exact extractNodeId_eq_self_iff.mpr (eq_not_mem_extractNodeId y)

omit [DecidableEq φ] in
/-- The entries keep the first ids if the ids do. -/
theorem KeepsFirst.of_ids {n : ℕ} (hself : ∀ x ∈ xs, extractNodeId x = x) (hlen : xs.length = n)
    (hnd : xs.Nodup) (hkept : xs.take (min n (distinctIds old).length) =
      (distinctIds old).take (min n (distinctIds old).length))
    (hadded : ∀ x ∈ xs.drop (min n (distinctIds old).length),
      x ∈ w.alive.map (·.nodeId) ∧ x ∉ old.map extractNodeId) :
    KeepsFirst w old n (xs.map (reconfigEntry w.entries)) := by
  have hmap : (xs.map (reconfigEntry w.entries)).map extractNodeId = xs := by
    rw [map_extractNodeId_entries]
    exact (List.map_congr_left hself).trans (List.map_id xs)
  refine ⟨by rw [List.length_map, hlen], ?_, ?_, ?_⟩
  · rwa [hmap]
  · rwa [hmap]
  · rwa [hmap]

omit [DecidableEq φ] in
/-- Too many ids: the first ones are the new set. -/
theorem keepsFirst_take (hcut : rf < (distinctIds old).length) (hrf : 0 ≤ rf) :
    KeepsFirst w old rf.toNat
      (((distinctIds old).take rf.toNat).map (reconfigEntry w.entries)) := by
  have hmin : min rf.toNat (distinctIds old).length = rf.toNat := by omega
  have hlen : ((distinctIds old).take rf.toNat).length = rf.toNat := by
    rw [List.length_take, hmin]
  refine .of_ids (fun x hx => extractNodeId_distinctIds (List.mem_of_mem_take hx)) hlen
    ((nodup_distinctIds old).sublist (List.take_sublist _ _)) ?_ ?_
  · rw [hmin, List.take_take, min_self]
  · rw [hmin, List.drop_of_length_le hlen.le]
    simp

/-- Not too many: all of them are in the new set, and the rest is what placement selects. -/
theorem keepsFirst_append (hname : ∀ n ∈ w.alive, '=' ∉ n.nodeId)
    (hroom : ((distinctIds old).length : ℤ) ≤ rf)
    (hfew : rf ≤ (distinctIds old).length + (candidates w.alive (distinctIds old)).length) :
    KeepsFirst w old rf.toNat
      ((distinctIds old ++ w.select (rf - (distinctIds old).length) (distinctIds old)).map
        (reconfigEntry w.entries)) := by
  obtain ⟨hlen, hnd, hmem⟩ := select_spec w (rf - (distinctIds old).length) (distinctIds old)
  have hmin : min rf.toNat (distinctIds old).length = (distinctIds old).length := by omega
  refine .of_ids (fun x hx => ?_) ?_ (List.nodup_append.mpr ⟨nodup_distinctIds old, hnd, ?_⟩) ?_ ?_
  · rcases List.mem_append.mp hx with hx | hx
    · exact extractNodeId_distinctIds hx
    · obtain ⟨n, hn, rfl⟩ := List.mem_map.mp (hmem x hx).1
      exact extractNodeId_eq_self_iff.mpr (hname n hn)
  · rw [List.length_append, hlen]
    omega
  · intro x hx y hy heq
    exact (hmem y hy).2 (heq ▸ hx)
  · rw [hmin, List.take_left, List.take_length]
  · rw [hmin, List.drop_left]
    intro id hid
    exact ⟨(hmem id hid).1, fun hbad => (hmem id hid).2 (List.mem_eraseDups.mpr hbad)⟩

/-- **A change of the factor alone.** -/
theorem startSet_keeps_first {e : ChunkEntry} {rf : Int32} (he : t.get c = some e)
    (hst : e.configState = .stable) (hold : ∀ x ∈ e.replicaSet, extractNodeId x ≠ [])
    (hname : ∀ n ∈ w.alive, '=' ∉ n.nodeId) (hrf : 0 ≤ rf.toInt) :
    (∀ new, startSet w t c { newRf := rf } = some new →
      KeepsFirst w e.replicaSet rf.toInt.toNat new) ∧
    (startSet w t c { newRf := rf } = none ↔
      ((distinctIds e.replicaSet).length +
        (candidates w.alive (distinctIds e.replicaSet)).length : ℤ) < rf.toInt) := by
  -- no id is empty, so a cut drops none before it takes the first
  have hfilter : (distinctIds e.replicaSet).filter (· ≠ []) = distinctIds e.replicaSet := by
    refine List.filter_eq_self.mpr fun x hx => ?_
    obtain ⟨y, hy, rfl⟩ := List.mem_map.mp (List.mem_eraseDups.mp hx)
    simpa using hold y hy
  have hstart : startSet w t c { newRf := rf } = driverTargets w e.replicaSet rf.toInt [] [] := by
    simp only [startSet, he, hst, reduceCtorEq, if_false]
  rw [hstart, driverTargets_eq, baseIds_nil]
  dsimp only
  rw [if_neg (by simp), if_neg (not_lt.mpr hrf), hfilter]
  by_cases hcut : rf.toInt < (distinctIds e.replicaSet).length
  · rw [if_pos hcut]
    refine ⟨fun new h => ?_, iff_of_false (by simp) (by omega)⟩
    exact Option.some.inj h ▸ keepsFirst_take hcut hrf
  · rw [if_neg hcut]
    by_cases hfew : ((distinctIds e.replicaSet).length +
        (candidates w.alive (distinctIds e.replicaSet)).length : ℤ) < rf.toInt
    · rw [if_pos hfew]
      exact ⟨fun new h => by simp at h, iff_of_true rfl hfew⟩
    · rw [if_neg hfew]
      refine ⟨fun new h => ?_, iff_of_false (by simp) hfew⟩
      exact Option.some.inj h ▸ keepsFirst_append hname (not_lt.mp hcut) (not_lt.mp hfew)

end KeepsFirst

end Targets

/-! ### Three nodes

`n` is idle, `k` a little and `m` more loaded; a call that finds both its quorums and reaches all. -/

def trioNode (id addr : Char) (load : Float.Model) : NodeRecord Float.Model :=
  { nodeId := [id], address := [addr], loadFraction := load, freeBytes := 1, totalBytes := 2,
    failureRate7d := 0.0, lastSeenMs := 0 }

def trioView : PlacementView Float.Model where
  alive := [trioNode 'n' 'a' 0.0, trioNode 'm' 'b' 0.5, trioNode 'k' 'd' 0.25]
  distinct := by decide

/-- The fields that the call fills in itself are left as in a call without nodes. -/
def trioEnv : ReconfigEnv where
  alive := []
  aliveAtCopy := trioView.entries
  aliveAtVerify := trioView.entries
  selected := []
  startQuorum := true
  copies := fun _ => (.answered, .answered)
  verifies := fun _ => .answered
  commitQuorum := true

theorem startSet_keeps_first_pair :
    (∀ new, startSet trioView pairTable ['c'] { newRf := 2 } = some new →
      KeepsFirst trioView pairEntry.replicaSet (2 : Int32).toInt.toNat new) ∧
    (startSet trioView pairTable ['c'] { newRf := 2 } = none ↔
      ((distinctIds pairEntry.replicaSet).length +
        (candidates trioView.alive (distinctIds pairEntry.replicaSet)).length : ℤ) <
        (2 : Int32).toInt) :=
  startSet_keeps_first (by decide +kernel) rfl (by decide) (by decide) (by decide)

def trioStores : Stores := fun _ => ChunkStore.empty.write ['c'] 1 ['x']

end NimbusVault
