import NimbusVault.NodeTable

/-!
# Eviction — which nodes are declared dead

The background loop reads the clock, and then takes the lock to evict: heartbeats may come in between.
A run of the machine `evictions` records every death with the clock value that was passed and whether
a heartbeat of the node was applied since it was read.  The age of a node is an unsigned difference,
which wraps when the node was heard of at a later time than the clock value.  The deaths of a run are
all justified exactly when no such age is over the timeout, and no heartbeat since the reading left the
node old (`deaths_justified_iff`).
-/

namespace NimbusVault

open Lib

variable {φ : Type}

/-! ### Ages -/

/-- A node that is declared dead, with the age that it has in the code. -/
theorem MetaCoordinator.evict_dead_iff {now timeout : UInt64} {n : NodeRecord φ} (hn : n.alive = true) :
    (evict now timeout n).alive = false ↔
      if n.lastSeenMs ≤ now then n.lastSeenMs.toNat + timeout.toNat < now.toNat
      else n.lastSeenMs.toNat + timeout.toNat < 2 ^ 64 + now.toNat := by
  have hdead : (evict now timeout n).alive = false ↔ timeout < now - n.lastSeenMs := by
    unfold evict
    split_ifs with h
    · exact iff_of_true rfl h.2
    · exact iff_of_false (by simp [hn]) fun hlt => h ⟨hn, hlt⟩
  rw [hdead, UInt64.lt_iff_toNat_lt, UInt64.toNat_sub]
  have h1 := n.lastSeenMs.toNat_lt
  have h2 := now.toNat_lt
  split_ifs with hle
  · rw [UInt64.le_iff_toNat_le] at hle
    omega
  · rw [UInt64.le_iff_toNat_le] at hle
    omega

/-! ### The machine -/

structure Death where
  nodeId : Str
  lastSeenMs : UInt64
  now : UInt64
  timeout : UInt64
  /-- A heartbeat of the node was applied after the clock was read. -/
  heardSince : Bool
  deriving DecidableEq

/-- The node is stale in exact numbers, and nothing was heard of it since the clock was read. -/
def Death.Justified (d : Death) : Prop :=
  d.lastSeenMs.toNat + d.timeout.toNat < d.now.toNat ∧ d.heardSince = false

instance (d : Death) : Decidable d.Justified := inferInstanceAs (Decidable (_ ∧ _))

/-- `reading` is the clock value that the background loop is about to pass, and `heard` the nodes
whose heartbeats were applied since. -/
structure EvictionState (φ : Type) where
  coord : MetaCoordinator φ
  reading : Option UInt64 := none
  heard : List Str := []
  deaths : List Death := []

/-- `now` is what the clock shows to the thread. -/
inductive EvictionStep (φ : Type)
  | heartbeat (nodeId address : Str) (load : φ) (freeBytes totalBytes : UInt64) (failRate : φ)
      (now : UInt64)
  | readClock (now : UInt64)
  | evict (timeout : UInt64)

namespace EvictionState

/-- The nodes that an eviction declares dead. -/
def dying (s : EvictionState φ) (now timeout : UInt64) : List (NodeRecord φ) :=
  s.coord.getAliveNodes.filter fun n => (MetaCoordinator.evict now timeout n).alive = false

def newDeaths (s : EvictionState φ) (now timeout : UInt64) : List Death :=
  (s.dying now timeout).map fun n => ⟨n.nodeId, n.lastSeenMs, now, timeout, n.nodeId ∈ s.heard⟩

def step (s : EvictionState φ) : EvictionStep φ → Option (EvictionState φ)
  | .heartbeat nodeId address load freeBytes totalBytes failRate now =>
    some { s with
      coord := s.coord.applyHeartbeat nodeId address load freeBytes totalBytes failRate now
      heard := nodeId :: s.heard }
  | .readClock now =>
    if s.reading = none then some { s with reading := some now, heard := [] } else none
  | .evict timeout =>
    match s.reading with
    | none => none
    | some now =>
      some { s with
        coord := s.coord.evictStaleNodes now timeout
        reading := none
        deaths := s.deaths ++ s.newDeaths now timeout }

/-- No alive node has a later last heartbeat than the clock value, and with a wrapped age over the
timeout; and a node that was heard of since the reading is not older than the timeout. -/
def Fits (s : EvictionState φ) : EvictionStep φ → Prop
  | .evict timeout => ∀ now ∈ s.reading, ∀ n ∈ s.coord.getAliveNodes,
    if n.lastSeenMs ≤ now then
      n.nodeId ∈ s.heard → now.toNat ≤ n.lastSeenMs.toNat + timeout.toNat
    else 2 ^ 64 + now.toNat ≤ n.lastSeenMs.toNat + timeout.toNat
  | _ => True

end EvictionState

/-- Heartbeats in any order next to the background loop, at any times. -/
abbrev evictions (φ : Type) : Machine (EvictionState φ) (EvictionStep φ) := .ofStep EvictionState.step

section Runs

variable {s s' s₀ : EvictionState φ} {a : EvictionStep φ} {tr : List (EvictionStep φ)}
  {now timeout : UInt64} {n : NodeRecord φ}

theorem mem_aliveNodes (c : MetaCoordinator φ) :
    n ∈ c.getAliveNodes ↔ c.nodeTable.get n.nodeId = some n ∧ n.alive = true := by
  rw [MetaCoordinator.getAliveNodes, List.mem_filter, MetaCoordinator.getNodes, Kv.mem_values]
  refine and_congr_left fun _ => ⟨?_, fun h => ⟨_, h⟩⟩
  rintro ⟨id, hid⟩
  rw [c.nodes_keyed id n hid]
  exact hid

/-- The deaths are those of the table: a node that was alive and no longer is. -/
theorem mem_dying_iff : n ∈ s.dying now timeout ↔
    (s.coord.nodeTable.get n.nodeId = some n ∧ n.alive = true) ∧
      ((s.coord.evictStaleNodes now timeout).nodeTable.get n.nodeId).map (·.alive) = some false := by
  rw [EvictionState.dying, List.mem_filter, mem_aliveNodes]
  refine and_congr_right fun h => ?_
  simp only [MetaCoordinator.evictStaleNodes, Kv.get_mapValues, h.1, Option.map_some,
    Option.some.injEq, decide_eq_true_eq]

theorem newDeaths_justified_iff : (∀ d ∈ s.newDeaths now timeout, d.Justified) ↔
    ∀ n ∈ s.coord.getAliveNodes,
      if n.lastSeenMs ≤ now then
        n.nodeId ∈ s.heard → now.toNat ≤ n.lastSeenMs.toNat + timeout.toNat
      else 2 ^ 64 + now.toNat ≤ n.lastSeenMs.toNat + timeout.toNat := by
  have hdeath : (∀ d ∈ s.newDeaths now timeout, d.Justified) ↔ ∀ n ∈ s.coord.getAliveNodes,
      (MetaCoordinator.evict now timeout n).alive = false →
        n.lastSeenMs.toNat + timeout.toNat < now.toNat ∧ n.nodeId ∉ s.heard := by
    rw [EvictionState.newDeaths, List.forall_mem_map, EvictionState.dying]
    simp [Death.Justified]
  rw [hdeath]
  refine forall₂_congr fun n hn => ?_
  rw [MetaCoordinator.evict_dead_iff ((mem_aliveNodes _).mp hn).2]
  split_ifs with hle
  · constructor
    · exact fun h hheard => not_lt.mp fun hlt => (h hlt).2 hheard
    · exact fun h hlt => ⟨hlt, fun hheard => absurd hlt (not_lt.mpr (h hheard))⟩
  · have hlt : now.toNat < n.lastSeenMs.toNat := UInt64.lt_iff_toNat_lt.mp (UInt64.not_le.mp hle)
    constructor
    · intro h
      by_contra hover
      have hbad := (h (not_le.mp hover)).1
      omega
    · intro h hover
      exact absurd hover (not_lt.mpr h)

/-- **One step**: it declares no node dead without reason exactly when it meets the condition. -/
theorem step_deaths (hs : s.step a = some s') :
    (∃ new, s'.deaths = s.deaths ++ new) ∧
      ((∀ d ∈ s.deaths, d.Justified) → ((∀ d ∈ s'.deaths, d.Justified) ↔ s.Fits a)) := by
  cases a with
  | heartbeat nodeId address load freeBytes totalBytes failRate now =>
    obtain rfl := Option.some.inj hs
    exact ⟨⟨[], (List.append_nil _).symm⟩, fun h => iff_of_true h trivial⟩
  | readClock now =>
    simp only [EvictionState.step] at hs
    split_ifs at hs
    obtain rfl := Option.some.inj hs
    exact ⟨⟨[], (List.append_nil _).symm⟩, fun h => iff_of_true h trivial⟩
  | evict timeout =>
    cases hr : s.reading with
    | none => simp [EvictionState.step, hr] at hs
    | some now =>
      simp only [EvictionState.step, hr, Option.some.injEq] at hs
      subst hs
      refine ⟨⟨_, rfl⟩, fun h => ?_⟩
      have hnew : (∀ d ∈ s.deaths ++ s.newDeaths now timeout, d.Justified) ↔
          ∀ d ∈ s.newDeaths now timeout, d.Justified := by
        rw [List.forall_mem_append, and_iff_right h]
      rw [hnew, newDeaths_justified_iff]
      simp [EvictionState.Fits, hr]

/-- **When all deaths of a run are justified.** -/
theorem deaths_justified_iff (h0 : s₀.deaths = []) (h : (evictions φ).Reach s₀ tr s) :
    (∀ d ∈ s.deaths, d.Justified) ↔ (evictions φ).Run (fun s a => s.Fits a) s₀ tr s := by
  refine h.last_step_iff (I := fun s => ∀ d ∈ s.deaths, d.Justified) (by simp [h0]) ?_ ?_
  · intro s a s' hs hall d hd
    obtain ⟨⟨new, hnew⟩, -⟩ := step_deaths hs
    exact hall d (hnew ▸ List.mem_append_left _ hd)
  · exact fun s a s' hold hs => (step_deaths hs).2 hold

end Runs

/-! ### A node that is heard of while the loop waits -/

/-- No nodes, and an idle background loop. -/
def idleLoop : EvictionState Unit :=
  { coord := .noNodes Unit Kv.empty fun _ _ h => by simp at h }

/-- The node `n` is heard of at the time `heard`; the clock was read at 100. -/
def heardAfterReading (heard : UInt64) : List (EvictionStep Unit) :=
  [.readClock 100, .heartbeat "n".toList "a".toList () 1 1 () heard, .evict 3000]

def afterEviction (heard : UInt64) : EvictionState Unit :=
  (evictions Unit).final (fun _ _ => True) idleLoop (heardAfterReading heard)

theorem afterEviction_reach (heard : UInt64) :
    (evictions Unit).Reach idleLoop (heardAfterReading heard) (afterEviction heard) :=
  Machine.run_final rfl

theorem deaths_justified_iff_hundred :
    (∀ d ∈ (afterEviction 100).deaths, d.Justified) ↔
      (evictions Unit).Run (fun s a => s.Fits a) idleLoop (heardAfterReading 100) (afterEviction 100) :=
  deaths_justified_iff rfl (afterEviction_reach 100)

/-- Its heartbeat is a millisecond newer than the clock value. -/
theorem newer_heartbeat_dies : ¬ ∀ (s₀ s : EvictionState Unit) (tr : List (EvictionStep Unit)),
    s₀.deaths = [] → (evictions Unit).Reach s₀ tr s → ∀ d ∈ s.deaths, d.Justified := by
  intro h
  have hall := h idleLoop (afterEviction 101) (heardAfterReading 101) rfl (afterEviction_reach 101)
  revert hall
  decide +kernel

end NimbusVault
