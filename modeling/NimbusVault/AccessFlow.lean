import Mathlib.Algebra.BigOperators.Ring.Finset
import NimbusVault.FetchStream
import NimbusVault.StatsReporter

/-!
# AccessFlow — from the reads of the storage nodes to the tiers of the policy

The nodes count what they serve, their heartbeats carry the counts to the leader, and the policy
closes its windows over what has arrived.  Any number of nodes serve `ReadChunk` and `FetchChunk`
and send heartbeats in any order; a request may be lost, its answer too, and nodes and leader may
restart.  What the policy has seen of a chunk, what waits at the leader, what heartbeats carry and
what the nodes have not yet sent never add up to more than what was served, and they add up to
exactly that unless a step has dropped some (`accesses_conserved`).  A tier is therefore paid for:
every promotion of a chunk takes `promoteWindows` reads of its own (`promotions_paid`).
-/

namespace NimbusVault

open Lib

/-! ### The machine -/

/-- The nodes `ι`, the heartbeats under way with their senders, and the policy, if there is one.  The
last three fields are ghosts: what was served, what evaluations have seen, and the promotions. -/
structure FlowState (ι : Type) where
  stores : ι → ChunkStore
  reporters : ι → StatsReporter := fun _ => {}
  sent : List (ι × HeartbeatReq) := []
  policy : Option (Str → ChunkAccessState)
  served : Str → ℕ := fun _ => 0
  evaluated : Str → ℕ := fun _ => 0
  promotions : Str → ℕ := fun _ => 0

inductive FlowStep (ι : Type)
  | setStore (i : ι) (st : ChunkStore)
  | read (i : ι) (chunkId : Str) (minVersion : UInt64)
  | fetch (i : ι) (chunkId : Str) (version : UInt64)
  | send (i : ι)
  | lose (k : ℕ)
  | handle (k : ℕ) (written : Option Bool) (t : ChunkTable) (heard : Bool)
  | evaluate (now : UInt64) (chunkId : Str)
  | stop (i : ι)
  | restart (i : ι)
  | restartLeader

namespace FlowState

variable {ι : Type} [DecidableEq ι]

/-- The start of a cluster. -/
def init (stores : ι → ChunkStore) (adaptive : Bool) : FlowState ι :=
  { stores, policy := if adaptive then some fun _ => {} else none }

def setReporter (s : FlowState ι) (i : ι) (r : StatsReporter) : FlowState ι :=
  { s with reporters := Function.update s.reporters i r }

/-- The end of the handlers `ReadChunk` and `FetchChunk`: `record_access`, when the store had it. -/
def serve (s : FlowState ι) (i : ι) (chunkId : Str) (ok : Bool) : FlowState ι :=
  if ok then
    { s.setReporter i ((s.reporters i).recordAccess chunkId) with
      served := Function.update s.served chunkId (s.served chunkId + 1) }
  else s

section Machine

variable {φ : Type} [LT φ] [LE φ] [DecidableLT φ] [DecidableLE φ] (cfg : PolicyConfig φ)
  (windowRate : UInt64 → Option UInt64 → φ) (svc : MetaRpcService) (nodeId : ι → Str)

def step (s : FlowState ι) : FlowStep ι → Option (FlowState ι)
  | .setStore i st => some { s with stores := Function.update s.stores i st }
  | .read i chunkId minVersion =>
    some (s.serve i chunkId (readChunk (s.stores i) chunkId minVersion).ok)
  | .fetch i chunkId version =>
    some (s.serve i chunkId (fetchPieces (s.stores i) chunkId version).isSome)
  | .send i =>
    if (s.reporters i).stopped then some s
    else
      let (req, r) := (s.reporters i).takeCounts (nodeId i)
      some { s.setReporter i r with sent := s.sent ++ [(i, req)] }
  | .lose k => (s.sent[k]?).map fun _ => { s with sent := s.sent.eraseIdx k }
  | .handle k written t heard =>
    (s.sent[k]?).map fun (i, req) =>
      let (resp, policy) := svc.nodeHeartbeat written t s.policy req
      { s.setReporter i ((s.reporters i).receive (if heard then some resp else none)) with
        sent := s.sent.eraseIdx k, policy }
  | .evaluate now c =>
    s.policy.map fun access =>
      let r := (NimbusVault.evaluate cfg windowRate now c (access c)).1
      { s with
        policy := some (Function.update access c r)
        evaluated := Function.update s.evaluated c (s.evaluated c + (access c).pendingCount.toNat)
        promotions := if (access c).tier.rank < r.tier.rank then
          Function.update s.promotions c (s.promotions c + 1) else s.promotions }
  | .stop i => some (s.setReporter i (s.reporters i).stop)
  | .restart i => some (s.setReporter i {})
  | .restartLeader => some { s with policy := s.policy.map fun _ _ => {} }

/-- All runs of the nodes and the leader. -/
abbrev accessFlow : Machine (FlowState ι) (FlowStep ι) := .ofStep (step cfg windowRate svc nodeId)

end Machine

/-! ### The account of a chunk -/

/-- What has arrived at the leader since the last evaluation. -/
def waiting (s : FlowState ι) (c : Str) : ℕ :=
  (s.policy.map fun access => (access c).pendingCount.toNat).getD 0

/-- What the heartbeats under way carry. -/
def carried (s : FlowState ι) (c : Str) : ℕ := ReporterState.underWay (s.sent.map Prod.snd) c

/-- What the nodes have counted and not yet sent. -/
def counted [Fintype ι] (s : FlowState ι) (c : Str) : ℕ :=
  ∑ i, accessesIn (s.reporters i).accessCounts c

/-- The accesses that are somewhere. -/
def found [Fintype ι] (s : FlowState ι) (c : Str) : ℕ :=
  s.evaluated c + s.waiting c + s.carried c + s.counted c

/-- What a sum of 64 bits loses. -/
def wrapped (a b : ℕ) : ℕ := a + b - (a + b) % 2 ^ 64

/-- The accesses that a step drops: counters that wrap, heartbeats that are lost or refused or that
find no policy, and what a restart forgets. -/
def drops (s : FlowState ι) (c : Str) : FlowStep ι → ℕ
  | .read i d minVersion =>
    if c = d ∧ (readChunk (s.stores i) d minVersion).ok then
      wrapped (accessesIn (s.reporters i).accessCounts c) 1 else 0
  | .fetch i d version =>
    if c = d ∧ (fetchPieces (s.stores i) d version).isSome then
      wrapped (accessesIn (s.reporters i).accessCounts c) 1 else 0
  | .lose k => (s.sent[k]?).elim 0 fun p => accessesIn p.2.chunkAccessCounts c
  | .handle k written _ _ => (s.sent[k]?).elim 0 fun p =>
    if written = some true ∧ s.policy.isSome then
      wrapped (s.waiting c) (accessesIn p.2.chunkAccessCounts c)
    else accessesIn p.2.chunkAccessCounts c
  | .restart i => accessesIn (s.reporters i).accessCounts c
  | .restartLeader => s.waiting c
  | .setStore .. => 0
  | .send _ => 0
  | .evaluate .. => 0
  | .stop _ => 0

/-- Nothing that was counted is dropped. -/
def Keeps (s : FlowState ι) (a : FlowStep ι) : Prop := ∀ c, s.drops c a = 0

/-- What has got lost. -/
def lost [Fintype ι] (s : FlowState ι) (c : Str) : ℤ := s.served c - s.found c

/-! ### One step -/

section Steps

variable [Fintype ι] {s s' : FlowState ι} {a : FlowStep ι} {c : Str}

theorem wrapped_add (a b : ℕ) : (a + b) % 2 ^ 64 + wrapped a b = a + b :=
  Nat.add_sub_cancel' (Nat.mod_le _ _)

/-- A sum over the nodes of which one changes. -/
theorem sum_update {β : Type} (f : β → ℕ) (r : ι → β) (i : ι) (x : β) :
    ∑ j, f (Function.update r i x j) + f (r i) = ∑ j, f (r j) + f x := by
  rw [← Finset.add_sum_erase _ _ (Finset.mem_univ i),
    ← Finset.add_sum_erase _ (fun j => f (r j)) (Finset.mem_univ i), Function.update_self]
  have hrest : ∑ j ∈ Finset.univ.erase i, f (Function.update r i x j) =
      ∑ j ∈ Finset.univ.erase i, f (r j) :=
    Finset.sum_congr rfl fun j hj => by rw [Function.update_of_ne (Finset.ne_of_mem_erase hj)]
  omega

theorem counted_setReporter (s : FlowState ι) (i : ι) (r : StatsReporter) (c : Str) :
    (s.setReporter i r).counted c + accessesIn (s.reporters i).accessCounts c =
      s.counted c + accessesIn r.accessCounts c :=
  sum_update (fun r : StatsReporter => accessesIn r.accessCounts c) s.reporters i r

/-- A node of which nothing is counted anew. -/
theorem counted_setReporter_of_eq {i : ι} {r : StatsReporter}
    (h : r.accessCounts = (s.reporters i).accessCounts) :
    (s.setReporter i r).counted c = s.counted c := by
  have hsum := counted_setReporter s i r c
  rw [h] at hsum
  omega

theorem underWay_erase {α : Type} {sent : List (α × HeartbeatReq)} {k : ℕ} {p : α × HeartbeatReq}
    (h : sent[k]? = some p) (c : Str) :
    ReporterState.underWay (sent.map Prod.snd) c = accessesIn p.2.chunkAccessCounts c +
      ReporterState.underWay ((sent.eraseIdx k).map Prod.snd) c := by
  rw [← List.eraseIdx_map]
  exact ReporterState.underWay_eraseIdx (by rw [List.getElem?_map, h]; rfl) c

theorem lost_serve (s : FlowState ι) (i : ι) (d : Str) (ok : Bool) (c : Str) :
    (s.serve i d ok).lost c = s.lost c + ((if c = d ∧ ok then
      wrapped (accessesIn (s.reporters i).accessCounts c) 1 else 0 : ℕ) : ℤ) := by
  cases ok with
  | false => simp [serve]
  | true =>
    have hsum := counted_setReporter s i ((s.reporters i).recordAccess d) c
    have hwrap := wrapped_add (accessesIn (s.reporters i).accessCounts c) 1
    rw [StatsReporter.accessesIn_recordAccess] at hsum
    simp only [lost, found, serve, and_true, if_true]
    by_cases hc : c = d
    · subst hc
      rw [if_pos rfl] at hsum
      rw [if_pos rfl, Function.update_self]
      simp only [waiting, carried, counted, setReporter] at hsum ⊢
      omega
    · rw [if_neg hc] at hsum
      rw [if_neg hc, Function.update_of_ne hc]
      simp only [waiting, carried, counted, setReporter] at hsum ⊢
      omega

theorem evaluate_pendingCount {φ : Type} [LT φ] [LE φ] [DecidableLT φ] [DecidableLE φ]
    (cfg : PolicyConfig φ) (windowRate : UInt64 → Option UInt64 → φ) (now : UInt64) (d : Str)
    (st : ChunkAccessState) :
    (NimbusVault.evaluate cfg windowRate now d st).1.pendingCount = 0 := by
  unfold NimbusVault.evaluate closeWindow
  dsimp only
  split_ifs <;> rfl

/-- What the policy is told of a request, and what it is not. -/
theorem waiting_nodeHeartbeat (svc : MetaRpcService) (written : Option Bool) (t : ChunkTable)
    (policy : Option (Str → ChunkAccessState)) (req : HeartbeatReq) (c : Str) :
    (((svc.nodeHeartbeat written t policy req).2.map fun access =>
        (access c).pendingCount.toNat).getD 0) +
      (if written = some true ∧ policy.isSome then
        wrapped ((policy.map fun access => (access c).pendingCount.toNat).getD 0)
          (accessesIn req.chunkAccessCounts c)
        else accessesIn req.chunkAccessCounts c) =
      (policy.map fun access => (access c).pendingCount.toNat).getD 0 +
        accessesIn req.chunkAccessCounts c := by
  match written, policy with
  | none, policy => simp [MetaRpcService.nodeHeartbeat]
  | some false, policy => simp [MetaRpcService.nodeHeartbeat]
  | some true, none => simp [MetaRpcService.nodeHeartbeat]
  | some true, some access =>
    simp only [MetaRpcService.nodeHeartbeat, Option.map_some, Option.getD_some,
      recordCounts_pendingCount, UInt64.toNat_add, Option.isSome_some, and_true, if_true]
    exact wrapped_add _ _

variable {φ : Type} [LT φ] [LE φ] [DecidableLT φ] [DecidableLE φ] {cfg : PolicyConfig φ}
  {windowRate : UInt64 → Option UInt64 → φ} {svc : MetaRpcService} {nodeId : ι → Str}

/-- **What a step loses** is what it drops. -/
theorem lost_step (hs : s.step cfg windowRate svc nodeId a = some s') (c : Str) :
    s'.lost c = s.lost c + s.drops c a := by
  cases a with
  | setStore i st =>
    obtain rfl := Option.some.inj hs
    exact (add_zero _).symm
  | read i d minVersion =>
    obtain rfl := Option.some.inj hs
    exact lost_serve s i d _ c
  | fetch i d version =>
    obtain rfl := Option.some.inj hs
    exact lost_serve s i d _ c
  | send i =>
    simp only [step] at hs
    split_ifs at hs
    · obtain rfl := Option.some.inj hs
      exact (add_zero _).symm
    · obtain rfl := Option.some.inj hs
      have hsum := counted_setReporter s i ((s.reporters i).takeCounts (nodeId i)).2 c
      simp only [StatsReporter.takeCounts, accessesIn_empty] at hsum
      simp only [lost, found, drops, carried, List.map_append, List.map_cons, List.map_nil,
        ReporterState.underWay_concat, StatsReporter.takeCounts]
      simp only [waiting, counted, setReporter] at hsum ⊢
      omega
  | lose k =>
    obtain ⟨p, hp, rfl⟩ := Option.map_eq_some_iff.mp hs
    have hway := underWay_erase hp c
    simp only [lost, found, drops, carried, hp, Option.elim_some]
    simp only [waiting, counted]
    omega
  | handle k written t heard =>
    obtain ⟨⟨i, req⟩, hp, rfl⟩ := Option.map_eq_some_iff.mp hs
    have hway := underWay_erase hp c
    have hwait := waiting_nodeHeartbeat svc written t s.policy req c
    have hcount : (s.setReporter i ((s.reporters i).receive
        (if heard then some (svc.nodeHeartbeat written t s.policy req).1 else none))).counted c =
        s.counted c :=
      counted_setReporter_of_eq (by cases heard <;> rfl)
    simp only [lost, found, drops, carried, hp, Option.elim_some]
    simp only [waiting, counted, setReporter] at hcount hway hwait ⊢
    omega
  | evaluate now d =>
    obtain ⟨access, hp, rfl⟩ := Option.map_eq_some_iff.mp hs
    simp only [lost, found, drops, waiting, carried, counted, hp, Option.map_some, Option.getD_some]
    by_cases hc : c = d
    · subst hc
      rw [Function.update_self, Function.update_self, evaluate_pendingCount]
      simp
    · rw [Function.update_of_ne hc, Function.update_of_ne hc]
      simp
  | stop i =>
    obtain rfl := Option.some.inj hs
    have hcount : (s.setReporter i (s.reporters i).stop).counted c = s.counted c :=
      counted_setReporter_of_eq rfl
    simp only [lost, found, hcount, drops]
    simp [waiting, carried, setReporter]
  | restart i =>
    obtain rfl := Option.some.inj hs
    have hsum := counted_setReporter s i {} c
    simp only [accessesIn_empty] at hsum
    simp only [lost, found, drops, waiting, carried, setReporter] at hsum ⊢
    omega
  | restartLeader =>
    obtain rfl := Option.some.inj hs
    have hzero : ((s.policy.map fun _ _ => ({} : ChunkAccessState)).map fun access =>
        (access c).pendingCount.toNat).getD 0 = 0 := by cases s.policy <;> rfl
    simp only [lost, found, drops, carried, counted]
    simp only [waiting, hzero]
    omega

/-- The account of a run: its losses, and when there are none. -/
theorem lost_iff {stores : ι → ChunkStore} {adaptive : Bool} {tr : List (FlowStep ι)}
    (h : (accessFlow cfg windowRate svc nodeId).Reach (init stores adaptive) tr s) :
    (∀ c, 0 ≤ s.lost c) ∧ ((∀ c, s.lost c = 0) ↔
      (accessFlow cfg windowRate svc nodeId).Run Keeps (init stores adaptive) tr s) := by
  have hinit : (init stores adaptive : FlowState ι).lost = fun _ => 0 := by
    funext c
    cases adaptive <;> simp [lost, found, init, waiting, carried, counted, ReporterState.underWay]
  have hmono : ∀ (s : FlowState ι) a s', s.step cfg windowRate svc nodeId a = some s' →
      s.lost ≤ s'.lost := fun s a s' hs c => by
    rw [lost_step hs c]
    exact le_add_of_nonneg_right (Int.natCast_nonneg _)
  have hstep : ∀ (s : FlowState ι) a s', s.step cfg windowRate svc nodeId a = some s' →
      (s'.lost = s.lost ↔ s.Keeps a) := fun s a s' hs => by
    rw [funext_iff]
    refine forall_congr' fun c => ?_
    rw [lost_step hs c]
    omega
  obtain ⟨hle, hiff⟩ := h.measure_eq_iff hmono hstep
  rw [hinit] at hle hiff
  exact ⟨hle, funext_iff.symm.trans hiff⟩

theorem found_le_served {stores : ι → ChunkStore} {adaptive : Bool} {tr : List (FlowStep ι)}
    (h : (accessFlow cfg windowRate svc nodeId).Reach (init stores adaptive) tr s) (c : Str) :
    s.found c ≤ s.served c := by
  have hc := (lost_iff h).1 c
  unfold lost at hc
  omega

/-- **No access is counted twice, and which runs count all.**  In every run of the nodes and the
leader, what the policy has seen of a chunk, what waits at the leader, what heartbeats carry and what
the nodes have not yet sent are together at most what was served, for every chunk; and they are
exactly that if and only if no step dropped an access. -/
theorem accesses_conserved {stores : ι → ChunkStore} {adaptive : Bool} {tr : List (FlowStep ι)}
    (h : (accessFlow cfg windowRate svc nodeId).Reach (init stores adaptive) tr s) :
    (∀ c, s.found c ≤ s.served c) ∧ ((∀ c, s.found c = s.served c) ↔
      (accessFlow cfg windowRate svc nodeId).Run Keeps (init stores adaptive) tr s) := by
  refine ⟨found_le_served h, Iff.trans (forall_congr' fun c => ?_) (lost_iff h).2⟩
  unfold lost
  omega

end Steps

/-! ### What a promotion takes -/

section Promotions

variable {φ : Type} [LT φ] [LE φ] [DecidableLT φ] [DecidableLE φ] {cfg : PolicyConfig φ}
  {windowRate : UInt64 → Option UInt64 → φ} {svc : MetaRpcService} {nodeId : ι → Str}
  {s s' : FlowState ι} {a : FlowStep ι} {c : Str}

/-- The windows in a row that have asked for a higher tier. -/
def windowsAbove (s : FlowState ι) (c : Str) : ℤ :=
  (s.policy.map fun access => (access c).windowsAbove).getD 0

/-- Every promotion, and every window on the way to one, has its own access among those seen. -/
structure Paid (cfg : PolicyConfig φ) (s : FlowState ι) (c : Str) : Prop where
  above : 0 ≤ s.windowsAbove c
  paid : s.promotions c * cfg.promoteWindows + s.windowsAbove c ≤ s.evaluated c

theorem recordCounts_windowsAbove (access : Str → ChunkAccessState) (m : Kv Str UInt64) (c : Str) :
    (recordCounts access m c).windowsAbove = (access c).windowsAbove := by
  unfold recordCounts
  induction m.entries generalizing access with
  | nil => rfl
  | cons p es ih =>
    rw [List.foldl_cons, ih]
    by_cases hp : c = p.1
    · subst hp
      rw [Function.update_self]
      rfl
    · rw [Function.update_of_ne hp]

/-- A window that asks for a higher tier has seen an access. -/
theorem pendingCount_pos (hzero : ∀ e, cfg.classify (windowRate 0 e) = .cold) {n : UInt64}
    {e : Option UInt64} {tier : ChunkTier}
    (h : tier.rank < (cfg.classify (windowRate n e)).rank) : 1 ≤ n.toNat := by
  by_contra hn
  obtain rfl : n = 0 := UInt64.toNat_inj.mp (by simpa using hn)
  rw [hzero] at h
  exact absurd h (Nat.not_lt_zero _)

omit [LT φ] [LE φ] [DecidableLT φ] [DecidableLE φ] in
/-- A window brings a promotion nearer, or makes one, only where it asks for a higher tier. -/
theorem closeWindow_paid {desired : ChunkTier} (st : ChunkAccessState) {n : ℕ}
    (hn : st.tier.rank < desired.rank → 1 ≤ n) (h : 0 ≤ st.windowsAbove) :
    0 ≤ (closeWindow cfg desired st).1.windowsAbove ∧
      (if st.tier.rank < (closeWindow cfg desired st).1.tier.rank then cfg.promoteWindows else 0) +
        (closeWindow cfg desired st).1.windowsAbove ≤ st.windowsAbove + n := by
  have hsame : ¬ st.tier.rank < st.tier.rank := lt_irrefl _
  unfold closeWindow
  split_ifs with hup hp hdown <;> dsimp only at *
  · have hpos := hn hup
    exact ⟨le_rfl, by omega⟩
  · have hpos := hn hup
    exact ⟨by omega, by omega⟩
  all_goals exact ⟨le_rfl, by omega⟩

/-- What evaluations have seen grows by what the window has. -/
theorem evaluate_paid (hzero : ∀ e, cfg.classify (windowRate 0 e) = .cold) (now : UInt64) (d : Str)
    {st : ChunkAccessState} (h : 0 ≤ st.windowsAbove) :
    0 ≤ (NimbusVault.evaluate cfg windowRate now d st).1.windowsAbove ∧
      (if st.tier.rank < (NimbusVault.evaluate cfg windowRate now d st).1.tier.rank then
        cfg.promoteWindows else 0) + (NimbusVault.evaluate cfg windowRate now d st).1.windowsAbove ≤
        st.windowsAbove + st.pendingCount.toNat :=
  closeWindow_paid { st with pendingCount := 0, lastEvalMs := now }
    (fun hup => pendingCount_pos hzero hup) h

omit [DecidableEq ι] [LT φ] [LE φ] [DecidableLT φ] [DecidableLE φ] in
/-- A step that leaves the policy alone. -/
theorem Paid.frame (h : s.Paid cfg c) (hp : s'.policy = s.policy)
    (he : s'.evaluated = s.evaluated) (hpr : s'.promotions = s.promotions) : s'.Paid cfg c := by
  obtain ⟨ha, hpaid⟩ := h
  unfold windowsAbove at ha hpaid
  constructor <;> unfold windowsAbove <;> rw [hp]
  · exact ha
  · rwa [he, hpr]

/-- **What a step does** to the price of the promotions. -/
theorem paid_step (hzero : ∀ e, cfg.classify (windowRate 0 e) = .cold)
    (hs : s.step cfg windowRate svc nodeId a = some s') (h : s.Paid cfg c) : s'.Paid cfg c := by
  cases a with
  | setStore i st =>
    obtain rfl := Option.some.inj hs
    exact h.frame rfl rfl rfl
  | read i d minVersion =>
    obtain rfl := Option.some.inj hs
    unfold serve
    split_ifs <;> exact h.frame rfl rfl rfl
  | fetch i d version =>
    obtain rfl := Option.some.inj hs
    unfold serve
    split_ifs <;> exact h.frame rfl rfl rfl
  | send i =>
    simp only [step] at hs
    split_ifs at hs <;> obtain rfl := Option.some.inj hs <;> exact h.frame rfl rfl rfl
  | lose k =>
    obtain ⟨p, hp, rfl⟩ := Option.map_eq_some_iff.mp hs
    exact h.frame rfl rfl rfl
  | handle k written t heard =>
    obtain ⟨⟨i, req⟩, hp, rfl⟩ := Option.map_eq_some_iff.mp hs
    have habove : ((svc.nodeHeartbeat written t s.policy req).2.map fun access =>
        (access c).windowsAbove).getD 0 = s.windowsAbove c := by
      match written with
      | none => rfl
      | some false => rfl
      | some true =>
        unfold windowsAbove MetaRpcService.nodeHeartbeat
        cases s.policy with
        | none => rfl
        | some access => simp [recordCounts_windowsAbove]
    exact ⟨h.above.trans_eq habove.symm, (congrArg _ habove).trans_le h.paid⟩
  | evaluate now d =>
    obtain ⟨access, hp, rfl⟩ := Option.map_eq_some_iff.mp hs
    obtain ⟨habove, hpaid⟩ := h
    simp only [windowsAbove, hp, Option.map_some, Option.getD_some] at habove hpaid
    by_cases hc : c = d
    · subst hc
      obtain ⟨habove', hstep⟩ := evaluate_paid hzero now c habove
      constructor <;> simp only [windowsAbove, Option.map_some, Option.getD_some, Function.update_self]
      · exact habove'
      · split_ifs at hstep ⊢
        · rw [Function.update_self]
          push_cast
          linarith
        · push_cast
          linarith
    · constructor <;> simp only [windowsAbove, Option.map_some, Option.getD_some,
        Function.update_of_ne hc]
      · exact habove
      · split_ifs
        · rwa [Function.update_of_ne hc]
        · exact hpaid
  | stop i =>
    obtain rfl := Option.some.inj hs
    exact h.frame rfl rfl rfl
  | restart i =>
    obtain rfl := Option.some.inj hs
    exact h.frame rfl rfl rfl
  | restartLeader =>
    obtain rfl := Option.some.inj hs
    obtain ⟨habove, hpaid⟩ := h
    have hzero' : ((s.policy.map fun _ _ => ({} : ChunkAccessState)).map fun access =>
        (access c).windowsAbove).getD 0 = 0 := by cases s.policy <;> rfl
    constructor <;> simp only [windowsAbove, hzero']
    · exact le_rfl
    · linarith

/-- **What promotions cost.**  When a window without accesses is cold, every promotion of a chunk has
taken `promoteWindows` reads and fetches of it that nodes have served, and no two promotions the same
ones: whatever is lost, reordered or restarted on the way. -/
theorem promotions_paid [Fintype ι] {stores : ι → ChunkStore} {adaptive : Bool}
    {tr : List (FlowStep ι)} (hzero : ∀ e, cfg.classify (windowRate 0 e) = .cold)
    (h : (accessFlow cfg windowRate svc nodeId).Reach (init stores adaptive) tr s) (c : Str) :
    s.promotions c * cfg.promoteWindows ≤ s.served c := by
  have hinit : (init stores adaptive : FlowState ι).Paid cfg c := by
    cases adaptive <;> exact ⟨le_rfl, by simp [init, windowsAbove]⟩
  obtain ⟨habove, hpaid⟩ := h.invariant_step (I := fun s => s.Paid cfg c) hinit
    fun s a s' hs hstep _ => paid_step hzero hstep hs
  have hseen : s.evaluated c ≤ s.served c := by
    have hfound := found_le_served h c
    unfold found at hfound
    omega
  have hcast : (s.evaluated c : ℤ) ≤ s.served c := by exact_mod_cast hseen
  linarith

end Promotions

/-! ### Two nodes, and a restart on the way -/

/-- A policy on whole rates that promotes a chunk with two accesses in a window at once. -/
def eagerPolicy : PolicyConfig ℕ :=
  { coldThreshold := 1, hotThreshold := 1, promoteWindows := 1 }

def countRate : UInt64 → Option UInt64 → ℕ := fun n _ => n.toNat

/-- Both nodes serve the chunk, and both heartbeats arrive before the window closes. -/
def bothHeard : List (FlowStep Bool) :=
  [.read false ['c'] 0, .fetch true ['c'] 1, .send true, .send false,
    .handle 1 (some true) Kv.empty false, .handle 0 (some true) Kv.empty true, .evaluate 5 ['c']]

/-- One of them restarts before its heartbeat. -/
def oneRestarted : List (FlowStep Bool) :=
  [.read false ['c'] 0, .fetch true ['c'] 1, .restart true, .send true, .send false,
    .handle 1 (some true) Kv.empty false, .handle 0 (some true) Kv.empty true, .evaluate 5 ['c']]

def twoHolders : FlowState Bool :=
  init (fun _ => ChunkStore.empty.write ['c'] 1 ['d']) true

abbrev eagerFlow : Machine (FlowState Bool) (FlowStep Bool) :=
  accessFlow eagerPolicy countRate ⟨['m'], []⟩ fun i => if i then ['a'] else ['b']

def afterFlow (tr : List (FlowStep Bool)) : FlowState Bool :=
  eagerFlow.final (fun _ _ => True) twoHolders tr

theorem bothHeard_reach : eagerFlow.Reach twoHolders bothHeard (afterFlow bothHeard) :=
  Machine.run_final rfl

theorem accesses_conserved_both : (∀ c, (afterFlow bothHeard).found c ≤ (afterFlow bothHeard).served c) ∧
    ((∀ c, (afterFlow bothHeard).found c = (afterFlow bothHeard).served c) ↔
      eagerFlow.Run Keeps twoHolders bothHeard (afterFlow bothHeard)) :=
  accesses_conserved bothHeard_reach

theorem promotions_paid_both :
    (afterFlow bothHeard).promotions ['c'] * eagerPolicy.promoteWindows ≤
      (afterFlow bothHeard).served ['c'] ∧ (afterFlow bothHeard).promotions ['c'] = 1 :=
  ⟨promotions_paid (fun _ => rfl) bothHeard_reach ['c'], by decide +kernel⟩

/-- The restart forgets an access, and the chunk is not promoted. -/
example : (afterFlow oneRestarted).found ['c'] = 1 ∧ (afterFlow oneRestarted).served ['c'] = 2 ∧
    (afterFlow oneRestarted).promotions ['c'] = 0 := by decide +kernel

end FlowState

end NimbusVault
