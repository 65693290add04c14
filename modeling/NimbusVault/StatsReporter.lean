import NimbusVault.Repair
import NimbusVault.Policy
import Mathlib.Algebra.BigOperators.Group.List.Basic

/-!
# StatsReporter — the access counts and the assignment list of a storage node

`record_access` counts the reads of a chunk, and a heartbeat (`run_once`) takes the counts along.  It
clears them before the RPC and looks at the status of the RPC alone, so a heartbeat that fails loses
what it carried, and one that is answered `ok = false` loses it too and leaves an empty assignment
list.  A step is a `record_access`, the sending of a heartbeat, or its end; any number of heartbeats
may be under way.  The ghosts are the accesses recorded, those that accepted heartbeats delivered, and
the list of the last accepted one.  `intact_iff` says which runs keep the reporter's state.
-/

namespace NimbusVault

open Lib

structure HeartbeatReq where
  nodeId : Str
  chunkAccessCounts : Kv Str UInt64

structure HeartbeatResp where
  ok : Bool := false
  leaderHint : Str := []
  assignedChunkIds : List Str := []
  deriving DecidableEq

/-- How many accesses to `c` a map of counters holds. -/
def accessesIn (m : Kv Str UInt64) (c : Str) : ℕ := ((m.get c).getD 0).toNat

@[simp] theorem accessesIn_empty (c : Str) : accessesIn Kv.empty c = 0 := rfl

/-! ### The leader -/

/-- What `NodeHeartbeat` reads of the configuration. -/
structure MetaRpcService where
  address : Str
  peers : List Str

/-- The handler's loop over the counts. -/
def recordCounts (access : Str → ChunkAccessState) (m : Kv Str UInt64) : Str → ChunkAccessState :=
  m.entries.foldl (fun a p => Function.update a p.1 ((a p.1).recordAccesses p.2)) access

/-- The handler `NodeHeartbeat`.  `written` says whether the log write met its quorum, and is `none`
without a replication layer; `policy` is `none` without a policy. -/
def MetaRpcService.nodeHeartbeat (svc : MetaRpcService) (written : Option Bool) (t : ChunkTable)
    (policy : Option (Str → ChunkAccessState)) (req : HeartbeatReq) :
    HeartbeatResp × Option (Str → ChunkAccessState) :=
  match written with
  | none => ({ ok := false, leaderHint := svc.peers.headD [] }, policy)
  | some false => ({ ok := false, leaderHint := svc.address }, policy)
  | some true =>
    ({ ok := true, assignedChunkIds := assignedChunkIds t req.nodeId },
      policy.map fun access => recordCounts access req.chunkAccessCounts)

theorem pendingCount_foldl (c : Str) : ∀ (es : List (Str × UInt64)) (access : Str → ChunkAccessState),
    es.Pairwise (fun a b => a.1 < b.1) →
      ((es.foldl (fun a p => Function.update a p.1 ((a p.1).recordAccesses p.2)) access) c).pendingCount
        = (access c).pendingCount + (Kv.lookup c es).getD 0
  | [], access, _ => by simp [Kv.lookup]
  | (k, v) :: es, access, hs => by
    obtain ⟨hlt, hes⟩ := List.pairwise_cons.mp hs
    rw [List.foldl_cons, pendingCount_foldl c es _ hes, Kv.lookup]
    by_cases hk : k = c
    · subst hk
      rw [if_pos rfl, Kv.lookup_eq_none_of_lt hlt]
      simp [ChunkAccessState.recordAccesses]
    · rw [if_neg hk, Function.update_of_ne (Ne.symm hk)]

/-- **What the policy is told**: the counts of the request, each once. -/
theorem recordCounts_pendingCount (access : Str → ChunkAccessState) (m : Kv Str UInt64) (c : Str) :
    (recordCounts access m c).pendingCount = (access c).pendingCount + (m.get c).getD 0 :=
  pendingCount_foldl c m.entries access m.sorted

/-! ### The reporter -/

structure StatsReporter where
  stopped : Bool := false
  accessCounts : Kv Str UInt64 := Kv.empty
  assignedChunkIds : List Str := []
  hasAssignmentSnapshot : Bool := false
  deriving DecidableEq

namespace StatsReporter

def recordAccess (r : StatsReporter) (chunkId : Str) : StatsReporter :=
  { r with accessCounts := r.accessCounts.alter chunkId fun v => some (v.getD 0 + 1) }

def stop (r : StatsReporter) : StatsReporter := { r with stopped := true }

/-- `run_once` up to the RPC: the request, and the counters cleared. -/
def takeCounts (r : StatsReporter) (nodeId : Str) : HeartbeatReq × StatsReporter :=
  (⟨nodeId, r.accessCounts⟩, { r with accessCounts := Kv.empty })

/-- `run_once` after the RPC; `none` is a status that is not OK. -/
def receive (r : StatsReporter) : Option HeartbeatResp → StatsReporter
  | none => r
  -- the answer's `ok` is not looked at
  | some resp => { r with assignedChunkIds := resp.assignedChunkIds, hasAssignmentSnapshot := true }

/-- One more access counts one more, up to the width of the counter. -/
theorem accessesIn_recordAccess (r : StatsReporter) (chunkId c : Str) :
    accessesIn (r.recordAccess chunkId).accessCounts c =
      if c = chunkId then (accessesIn r.accessCounts c + 1) % 2 ^ 64
      else accessesIn r.accessCounts c := by
  unfold accessesIn recordAccess
  rw [Kv.get_alter]
  split_ifs with hc
  · subst hc
    rw [Option.getD_some, UInt64.toNat_add]
    rfl
  · rfl

end StatsReporter

/-! ### Runs -/

/-- How a heartbeat ends: its RPC fails, or the leader answers. -/
inductive HeartbeatFate
  | failed
  | answered (written : Option Bool) (t : ChunkTable) (policy : Option (Str → ChunkAccessState))

/-- What the reporter sees of it. -/
def HeartbeatFate.resp (svc : MetaRpcService) (req : HeartbeatReq) :
    HeartbeatFate → Option HeartbeatResp
  | .failed => none
  | .answered written t policy => some (svc.nodeHeartbeat written t policy req).1

inductive ReporterStep
  | recordAccess (chunkId : Str)
  | send
  | finish (i : ℕ) (fate : HeartbeatFate)
  | stop

/-- The reporter, the requests under way, and the ghosts. -/
structure ReporterState where
  reporter : StatsReporter := {}
  sent : List HeartbeatReq := []
  recorded : Str → ℕ := fun _ => 0
  delivered : Str → ℕ := fun _ => 0
  accepted : List Str := []

namespace ReporterState

variable {nodeId : Str} {svc : MetaRpcService} {s s' : ReporterState} {a : ReporterStep}
  {tr : List ReporterStep}

/-- The accesses to `c` that requests under way carry. -/
def underWay (sent : List HeartbeatReq) (c : Str) : ℕ :=
  (sent.map fun req => accessesIn req.chunkAccessCounts c).sum

def step (nodeId : Str) (svc : MetaRpcService) (s : ReporterState) :
    ReporterStep → Option ReporterState
  | .recordAccess chunkId => some { s with
      reporter := s.reporter.recordAccess chunkId
      recorded := Function.update s.recorded chunkId (s.recorded chunkId + 1) }
  | .send =>
    if s.reporter.stopped then some s
    else
      let (req, reporter) := s.reporter.takeCounts nodeId
      some { s with reporter, sent := s.sent ++ [req] }
  | .finish i fate =>
    (s.sent[i]?).map fun req =>
      let resp := fate.resp svc req
      { s with
        reporter := s.reporter.receive resp
        sent := s.sent.eraseIdx i
        delivered := if resp.any (·.ok) then
          fun c => s.delivered c + accessesIn req.chunkAccessCounts c else s.delivered
        accepted := ((resp.filter (·.ok)).map (·.assignedChunkIds)).getD s.accepted }
  | .stop => some { s with reporter := s.reporter.stop }

/-- All interleavings of accesses and heartbeats. -/
abbrev heartbeats (nodeId : Str) (svc : MetaRpcService) : Machine ReporterState ReporterStep :=
  .ofStep (step nodeId svc)

/-- The assignment list is that of the last accepted heartbeat, and no access is lost or counted
twice. -/
structure Intact (s : ReporterState) : Prop where
  assigned : s.reporter.assignedChunkIds = s.accepted
  counted : ∀ c,
    s.delivered c + (underWay s.sent c + accessesIn s.reporter.accessCounts c) = s.recorded c

/-- The counter of an access has room for it, a heartbeat whose RPC fails carries no access, and one
that is not accepted carries none and finds the assignment list empty. -/
def Fits (s : ReporterState) : ReporterStep → Prop
  | .recordAccess chunkId => accessesIn s.reporter.accessCounts chunkId + 1 < 2 ^ 64
  | .finish i .failed => ∀ req, s.sent[i]? = some req → ∀ c, accessesIn req.chunkAccessCounts c = 0
  | .finish i (.answered written _ _) => written = some true ∨
      s.reporter.assignedChunkIds = [] ∧
        ∀ req, s.sent[i]? = some req → ∀ c, accessesIn req.chunkAccessCounts c = 0
  | .send => True
  | .stop => True

/-! ### One step -/

theorem underWay_concat (sent : List HeartbeatReq) (req : HeartbeatReq) (c : Str) :
    underWay (sent ++ [req]) c = underWay sent c + accessesIn req.chunkAccessCounts c := by
  simp [underWay]

/-- A request under way is counted once. -/
theorem underWay_eraseIdx {sent : List HeartbeatReq} {i : ℕ} {req : HeartbeatReq}
    (h : sent[i]? = some req) (c : Str) :
    underWay sent c = accessesIn req.chunkAccessCounts c + underWay (sent.eraseIdx i) c := by
  obtain ⟨hi, hreq⟩ := List.getElem?_eq_some_iff.mp h
  let f : HeartbeatReq → ℕ := fun req => accessesIn req.chunkAccessCounts c
  have hsum := List.CommMonoid.add_sum_eraseIdx (l := sent.map f) (i := i) (by simpa using hi)
  rw [List.getElem_map, hreq, List.eraseIdx_map] at hsum
  exact hsum.symm

/-- An access is counted exactly when its counter has room. -/
theorem intact_recordAccess (h : s.Intact) {chunkId : Str} :
    Intact { s with
      reporter := s.reporter.recordAccess chunkId
      recorded := Function.update s.recorded chunkId (s.recorded chunkId + 1) } ↔
    accessesIn s.reporter.accessCounts chunkId + 1 < 2 ^ 64 := by
  have hcount := h.counted chunkId
  constructor
  · rintro ⟨-, hall⟩
    have hc := hall chunkId
    simp only [StatsReporter.accessesIn_recordAccess, if_pos, Function.update_self] at hc
    by_contra hover
    have hmod := Nat.mod_lt (accessesIn s.reporter.accessCounts chunkId + 1) (y := 2 ^ 64) (by norm_num)
    omega
  · intro hroom
    refine ⟨h.assigned, fun c => ?_⟩
    have hc := h.counted c
    simp only [StatsReporter.accessesIn_recordAccess]
    by_cases heq : c = chunkId
    · subst heq
      rw [if_pos rfl, Function.update_self, Nat.mod_eq_of_lt hroom]
      omega
    · rw [if_neg heq, Function.update_of_ne heq]
      exact hc

/-- A heartbeat that takes the counters along moves them to its request. -/
theorem intact_send (h : s.Intact) : Intact { s with
      reporter := (s.reporter.takeCounts nodeId).2
      sent := s.sent ++ [(s.reporter.takeCounts nodeId).1] } := by
  refine ⟨h.assigned, fun c => ?_⟩
  have hc := h.counted c
  simp only [StatsReporter.takeCounts, underWay_concat, accessesIn_empty]
  omega

/-- A heartbeat that is not accepted drops its request. -/
theorem intact_dropped (h : s.Intact) {i : ℕ} {req : HeartbeatReq} (hreq : s.sent[i]? = some req)
    (reporter : StatsReporter) (hr : reporter.accessCounts = s.reporter.accessCounts) :
    Intact { s with reporter, sent := s.sent.eraseIdx i } ↔
      reporter.assignedChunkIds = s.reporter.assignedChunkIds ∧
        ∀ req, s.sent[i]? = some req → ∀ c, accessesIn req.chunkAccessCounts c = 0 := by
  have hcount := fun c => h.counted c
  simp only [underWay_eraseIdx hreq] at hcount
  constructor
  · rintro ⟨hassigned, hall⟩
    refine ⟨hassigned.trans h.assigned.symm, fun req' hreq' c => ?_⟩
    obtain rfl : req = req' := Option.some.inj (hreq.symm.trans hreq')
    have hc := hall c
    simp only [hr] at hc
    have := hcount c
    omega
  · rintro ⟨hassigned, hnone⟩
    refine ⟨hassigned.trans h.assigned, fun c => ?_⟩
    simp only [hr]
    have := hcount c
    have := hnone req hreq c
    omega

/-- One that is accepted delivers it. -/
theorem intact_accepted (h : s.Intact) {i : ℕ} {req : HeartbeatReq} (hreq : s.sent[i]? = some req)
    (hint : Str) (ids : List Str) : Intact { s with
      reporter := s.reporter.receive (some ⟨true, hint, ids⟩)
      sent := s.sent.eraseIdx i
      delivered := fun c => s.delivered c + accessesIn req.chunkAccessCounts c
      accepted := ids } := by
  refine ⟨rfl, fun c => ?_⟩
  have hc := h.counted c
  rw [underWay_eraseIdx hreq] at hc
  simp only [StatsReporter.receive]
  omega

/-- One that is refused drops it, and the assignment list with it. -/
theorem intact_refused (h : s.Intact) {i : ℕ} {req : HeartbeatReq} (hreq : s.sent[i]? = some req)
    (hint : Str) {written : Option Bool} (hw : written ≠ some true) :
    Intact { s with
      reporter := s.reporter.receive (some ⟨false, hint, []⟩), sent := s.sent.eraseIdx i } ↔
    (written = some true ∨ s.reporter.assignedChunkIds = [] ∧
      ∀ req, s.sent[i]? = some req → ∀ c, accessesIn req.chunkAccessCounts c = 0) := by
  refine (intact_dropped h hreq (s.reporter.receive (some ⟨false, hint, []⟩)) rfl).trans ?_
  rw [or_iff_right hw]
  exact and_congr_left' eq_comm

/-- **One step** keeps the reporter's state exactly when it meets the condition. -/
theorem step_intact (h : s.Intact) (hs : s.step nodeId svc a = some s') : s'.Intact ↔ s.Fits a := by
  cases a with
  | recordAccess chunkId =>
    obtain rfl := Option.some.inj hs
    exact intact_recordAccess h
  | send =>
    simp only [step] at hs
    split_ifs at hs with hstop
    · obtain rfl := Option.some.inj hs
      exact iff_of_true h trivial
    · obtain rfl := Option.some.inj hs
      exact iff_of_true (intact_send h) trivial
  | stop =>
    obtain rfl := Option.some.inj hs
    exact iff_of_true ⟨h.assigned, h.counted⟩ trivial
  | finish i fate =>
    obtain ⟨req, hreq, rfl⟩ := Option.map_eq_some_iff.mp hs
    cases fate with
    | failed =>
      exact (intact_dropped h hreq _ rfl).trans (and_iff_right rfl)
    | answered written t policy =>
      match written with
      | none => exact intact_refused h hreq (svc.peers.headD []) nofun
      | some false => exact intact_refused h hreq svc.address nofun
      | some true => exact iff_of_true (intact_accepted h hreq _ _) (.inl rfl)

/-- **When a run keeps the reporter's state**, in every state on its way. -/
theorem intact_iff (h : (heartbeats nodeId svc).Reach {} tr s) :
    (∀ pre t, pre <+: tr → (heartbeats nodeId svc).Reach {} pre t → t.Intact) ↔
      (heartbeats nodeId svc).Run (fun s a => s.Fits a) {} tr s :=
  h.always_step_iff ⟨rfl, fun _ => rfl⟩ fun _ _ _ hs hstep => step_intact hs hstep

/-! ### One access, and a heartbeat that takes it along -/

def lonelyLeader : MetaRpcService := { address := "m".toList, peers := [] }

def oneAccess (fate : HeartbeatFate) : List ReporterStep :=
  [.recordAccess ['c'], .send, .finish 0 fate]

def afterAccess (fate : HeartbeatFate) : ReporterState :=
  (heartbeats ['n'] lonelyLeader).final (fun _ _ => True) {} (oneAccess fate)

theorem afterAccess_reach (fate : HeartbeatFate) :
    (heartbeats ['n'] lonelyLeader).Reach {} (oneAccess fate) (afterAccess fate) :=
  Machine.run_final rfl

theorem intact_iff_delivered :
    (∀ pre t, pre <+: oneAccess (.answered (some true) Kv.empty none) →
      (heartbeats ['n'] lonelyLeader).Reach {} pre t → t.Intact) ↔
      (heartbeats ['n'] lonelyLeader).Run (fun s a => s.Fits a) {}
        (oneAccess (.answered (some true) Kv.empty none))
        (afterAccess (.answered (some true) Kv.empty none)) :=
  intact_iff (afterAccess_reach _)

/-- The heartbeat's RPC fails: the access is neither delivered nor pending. -/
theorem failed_heartbeat_loses : ¬ ∀ (nodeId : Str) (svc : MetaRpcService) (s : ReporterState)
    (tr : List ReporterStep), (heartbeats nodeId svc).Reach {} tr s → s.Intact := by
  intro h
  have hcount := (h ['n'] lonelyLeader _ _ (afterAccess_reach .failed)).counted ['c']
  revert hcount
  decide +kernel

end ReporterState

end NimbusVault
