import NimbusVault.Lib.Machine
import NimbusVault.Policy

/-!
# Hysteresis — what the window counters count

A history of a chunk's evaluations says of every window the tier before it, the tier its rate
classifies as, and whether the tier changed.  Along every run the two counters are the lengths of the
last windows since the last change that all asked for a higher, or all for a lower tier (`Counts`).
So an evaluation changes the tier exactly when the last `promoteWindows` (`demoteWindows`) windows
since the last change all lie above (below) it, the new window included (`evaluate_moves_iff`).
-/

namespace NimbusVault

open Lib

/-! ### Histories -/

structure Window where
  tier : ChunkTier
  desired : ChunkTier
  changed : Bool
  deriving DecidableEq

/-- `windows` are those of the evaluations so far, the last one first. -/
structure AccessHistory where
  access : ChunkAccessState := {}
  windows : List Window := []
  deriving DecidableEq

inductive AccessStep
  | recordAccesses (count : UInt64)
  | evaluate (now : UInt64)

/-- The tier as which a window that ends at `now` classifies. -/
def ChunkAccessState.windowTier {φ : Type} [LT φ] [LE φ] [DecidableLT φ] [DecidableLE φ]
    (cfg : PolicyConfig φ) (windowRate : UInt64 → Option UInt64 → φ) (s : ChunkAccessState)
    (now : UInt64) : ChunkTier :=
  cfg.classify (windowRate s.pendingCount (s.elapsedMs now))

/-- The tier that a window asks for lies above `t`. -/
def ChunkTier.above (t desired : ChunkTier) : Bool := t.rank < desired.rank

def ChunkTier.below (t desired : ChunkTier) : Bool := desired.rank < t.rank

/-- The last `n` of `calls`, the last one first, all lie on one side. -/
def LastAll (n : ℤ) (side : ChunkTier → Bool) (calls : List ChunkTier) : Prop :=
  n.toNat ≤ calls.length ∧ ∀ w ∈ calls.take n.toNat, side w = true

instance (n : ℤ) (side : ChunkTier → Bool) (calls : List ChunkTier) : Decidable (LastAll n side calls) :=
  inferInstanceAs (Decidable (_ ∧ _))

/-- Of any `n` windows in a row one does not lie on the side, seen from the tier before it. -/
def NoRun (n : ℤ) (side : ChunkTier → ChunkTier → Bool) (windows : List Window) : Prop :=
  ∀ ws, ws <:+: windows → ws.length = n.toNat → ∃ x ∈ ws, side x.tier x.desired = false

namespace AccessHistory

/-- The windows since the last change of the tier. -/
def recent (s : AccessHistory) : List Window := s.windows.takeWhile (!·.changed)

/-- What they asked for. -/
def since (s : AccessHistory) : List ChunkTier := s.recent.map Window.desired

variable {φ : Type} [LT φ] [LE φ] [DecidableLT φ] [DecidableLE φ] (cfg : PolicyConfig φ)
  (windowRate : UInt64 → Option UInt64 → φ) (chunkId : Str)

/-- With a window that asks for `w`, enough windows since the last change lie above the tier, or enough
lie below it. -/
def Moves (s : AccessHistory) (w : ChunkTier) : Prop :=
  s.access.tier.rank < w.rank ∧ LastAll cfg.promoteWindows s.access.tier.above (w :: s.since) ∨
  w.rank < s.access.tier.rank ∧ LastAll cfg.demoteWindows s.access.tier.below (w :: s.since)

def step (s : AccessHistory) : AccessStep → Option AccessHistory
  | .recordAccesses count => some { s with access := s.access.recordAccesses count }
  | .evaluate now =>
    let r := NimbusVault.evaluate cfg windowRate now chunkId s.access
    some ⟨r.1, ⟨s.access.tier, s.access.windowTier cfg windowRate now,
      decide (r.1.tier ≠ s.access.tier)⟩ :: s.windows⟩

end AccessHistory

/-- The reports and evaluations of one chunk, in any order and at any times. -/
abbrev accessRuns {φ : Type} [LT φ] [LE φ] [DecidableLT φ] [DecidableLE φ] (cfg : PolicyConfig φ)
    (windowRate : UInt64 → Option UInt64 → φ) (chunkId : Str) : Machine AccessHistory AccessStep :=
  .ofStep (AccessHistory.step cfg windowRate chunkId)

/-! ### The counters -/

theorem le_length_takeWhile_iff {α : Type} {p : α → Bool} {n : ℕ} {l : List α} :
    n ≤ (l.takeWhile p).length ↔ n ≤ l.length ∧ ∀ x ∈ l.take n, p x = true := by
  induction l generalizing n with
  | nil => simp
  | cons a l ih =>
    cases n with
    | zero => simp
    | succ n =>
      by_cases ha : p a = true
      · simp [List.takeWhile_cons_of_pos ha, ih, ha]
      · simp [List.takeWhile_cons_of_neg ha, ha]

/-- The counters are lengths of runs of windows, all at the current tier. -/
structure Counts (s : AccessHistory) : Prop where
  above : s.access.windowsAbove = ((s.since.takeWhile s.access.tier.above).length : ℤ)
  below : s.access.windowsBelow = ((s.since.takeWhile s.access.tier.below).length : ℤ)
  tiers : ∀ x ∈ s.recent, x.tier = s.access.tier

section Window

variable {φ : Type} {cfg : PolicyConfig φ} {w : ChunkTier}

theorem lastAll_cons {n : ℤ} {side : ChunkTier → Bool} {calls : List ChunkTier} (hn : 1 ≤ n) :
    LastAll n side (w :: calls) ↔ side w = true ∧ n ≤ ((calls.takeWhile side).length : ℤ) + 1 := by
  rw [LastAll, ← le_length_takeWhile_iff]
  by_cases hw : side w = true
  · rw [List.takeWhile_cons_of_pos hw, List.length_cons, and_iff_right hw]
    omega
  · rw [List.takeWhile_cons_of_neg hw, List.length_nil]
    exact iff_of_false (by omega) fun h => hw h.1

/-- One more window makes its own side's run longer, and ends the other one. -/
theorem length_takeWhile_cons {n : ℤ} {side : ChunkTier → Bool} {calls : List ChunkTier}
    (hn : n = ((calls.takeWhile side).length : ℤ)) :
    (if side w then n + 1 else 0) = (((w :: calls).takeWhile side).length : ℤ) := by
  rw [List.takeWhile_cons]
  split_ifs
  · rw [hn, List.length_cons, Nat.cast_succ]
  · rfl

/-- When a window changes the tier, by the counters. -/
theorem closeWindow_changed_iff (cfg : PolicyConfig φ) (w : ChunkTier) (s : ChunkAccessState) :
    (closeWindow cfg w s).2 = true ↔
      s.tier.above w = true ∧ cfg.promoteWindows ≤ s.windowsAbove + 1 ∨
      s.tier.below w = true ∧ cfg.demoteWindows ≤ s.windowsBelow + 1 := by
  unfold closeWindow ChunkTier.above ChunkTier.below
  split_ifs with hup hp hdown hd
  · simp [hup, hp]
  · simp [hup, hp, not_lt.mpr hup.le]
  · simp [hup, hdown, hd]
  · simp [hup, hdown, hd]
  · simp [hup, hdown]

theorem closeWindow_of_changed {s : ChunkAccessState} (h : (closeWindow cfg w s).2 = true) :
    (closeWindow cfg w s).1 = { s with tier := w, windowsAbove := 0, windowsBelow := 0 } := by
  unfold closeWindow at h ⊢
  split_ifs at h ⊢
  · rfl
  · rfl

/-- A window that keeps the tier lengthens the run on its side, and ends the other one. -/
theorem closeWindow_of_unchanged {s : ChunkAccessState} (h : (closeWindow cfg w s).2 = false) :
    (closeWindow cfg w s).1 = { s with
      windowsAbove := if s.tier.above w then s.windowsAbove + 1 else 0
      windowsBelow := if s.tier.below w then s.windowsBelow + 1 else 0 } := by
  rcases lt_trichotomy s.tier.rank w.rank with hup | heq | hdown
  · have hp : ¬ cfg.promoteWindows ≤ s.windowsAbove + 1 := fun hp => by simp [closeWindow, hup, hp] at h
    simp [closeWindow, ChunkTier.above, ChunkTier.below, hup, hup.not_gt, hp]
  · simp [closeWindow, ChunkTier.above, ChunkTier.below, heq]
  · have hd : ¬ cfg.demoteWindows ≤ s.windowsBelow + 1 := fun hd => by
      simp [closeWindow, hdown, hdown.not_gt, hd] at h
    simp [closeWindow, ChunkTier.above, ChunkTier.below, hdown, hdown.not_gt, hd]

/-- A window against the counters, that is against the windows since the last change. -/
theorem Counts.changed_iff (hP : 1 ≤ cfg.promoteWindows) (hD : 1 ≤ cfg.demoteWindows) {s : AccessHistory}
    (h : Counts s) {a : ChunkAccessState} (ha : a.tier = s.access.tier ∧
      a.windowsAbove = s.access.windowsAbove ∧ a.windowsBelow = s.access.windowsBelow) :
    (closeWindow cfg w a).2 = true ↔
      LastAll cfg.promoteWindows s.access.tier.above (w :: s.since) ∨
      LastAll cfg.demoteWindows s.access.tier.below (w :: s.since) := by
  rw [closeWindow_changed_iff, lastAll_cons hP, lastAll_cons hD, ha.1, ha.2.1, ha.2.2, h.above, h.below]

end Window

section Runs

variable {φ : Type} [LT φ] [LE φ] [DecidableLT φ] [DecidableLE φ] {cfg : PolicyConfig φ}
  {windowRate : UInt64 → Option UInt64 → φ} {chunkId : Str} {s s' : AccessHistory} {now : UInt64}
  {tr : List AccessStep} {w : ChunkTier}

theorem recent_cons (a : ChunkAccessState) (x : Window) (l : List Window) :
    (AccessHistory.mk a (x :: l)).recent =
      if x.changed then [] else x :: (AccessHistory.mk a l).recent := by
  unfold AccessHistory.recent
  cases hx : x.changed with
  | true => rw [List.takeWhile_cons_of_neg (by simp [hx]), if_pos rfl]
  | false => rw [List.takeWhile_cons_of_pos (by simp [hx]), if_neg Bool.false_ne_true]

/-- The history gets longer by a window that changes the tier if the evaluation says so. -/
theorem step_evaluate (hs : s.step cfg windowRate chunkId (.evaluate now) = some s') :
    s' = ⟨(evaluate cfg windowRate now chunkId s.access).1,
      ⟨s.access.tier, s.access.windowTier cfg windowRate now,
        (evaluate cfg windowRate now chunkId s.access).2.changed⟩ :: s.windows⟩ := by
  have hchanged : decide ((evaluate cfg windowRate now chunkId s.access).1.tier ≠ s.access.tier)
      = (evaluate cfg windowRate now chunkId s.access).2.changed := by
    rw [Bool.eq_iff_iff, decide_eq_true_iff]
    exact evaluate_changed_iff.symm
  rw [← hchanged]
  exact (Option.some.inj hs).symm

/-- **One evaluation keeps the counters in step.** -/
theorem Counts.evaluate (h : Counts s) (hs : s.step cfg windowRate chunkId (.evaluate now) = some s') :
    Counts s' := by
  obtain ⟨habove, hbelow, htiers⟩ := h
  obtain rfl := step_evaluate hs
  unfold NimbusVault.evaluate ChunkAccessState.windowTier
  dsimp only
  set w := cfg.classify (windowRate s.access.pendingCount (s.access.elapsedMs now))
  set a : ChunkAccessState := { s.access with pendingCount := 0, lastEvalMs := now } with hadef
  cases hc : (closeWindow cfg w a).2 with
  | true =>
    rw [closeWindow_of_changed hc]
    have hrecent : (AccessHistory.mk { a with tier := w, windowsAbove := 0, windowsBelow := 0 }
        (⟨s.access.tier, w, true⟩ :: s.windows)).recent = [] := recent_cons _ _ _
    exact ⟨by simp [AccessHistory.since, hrecent], by simp [AccessHistory.since, hrecent],
      by simp [hrecent]⟩
  | false =>
    rw [closeWindow_of_unchanged hc]
    -- the history is longer by this window, at the same tier
    have hrecent : ∀ a' : ChunkAccessState,
        (AccessHistory.mk a' (⟨s.access.tier, w, false⟩ :: s.windows)).recent =
          ⟨s.access.tier, w, false⟩ :: s.recent := fun a' => recent_cons _ _ _
    refine ⟨?_, ?_, ?_⟩
    · rw [AccessHistory.since, hrecent]
      exact length_takeWhile_cons habove
    · rw [AccessHistory.since, hrecent]
      exact length_takeWhile_cons hbelow
    · rw [hrecent]
      exact List.forall_mem_cons.mpr ⟨rfl, htiers⟩

theorem counts_init : Counts {} := ⟨rfl, rfl, by simp [AccessHistory.recent]⟩

theorem counts_of_reach (h : (accessRuns cfg windowRate chunkId).Reach {} tr s) : Counts s := by
  refine h.invariant_step counts_init fun s a s' hs hstep _ => ?_
  cases a with
  | recordAccesses count =>
    obtain rfl := Option.some.inj hstep
    exact ⟨hs.above, hs.below, hs.tiers⟩
  | evaluate now => exact hs.evaluate hstep

/-- While no window changed the tier, it is the one that a chunk starts with. -/
theorem tier_of_unchanged (h : (accessRuns cfg windowRate chunkId).Reach {} tr s)
    (hall : ∀ x ∈ s.windows, x.changed = false) : s.access.tier = .warm := by
  refine h.invariant_step (I := fun s => (∀ x ∈ s.windows, x.changed = false) → s.access.tier = .warm)
    (fun _ => rfl) (fun s a s' hs hstep _ hall => ?_) hall
  cases a with
  | recordAccesses count =>
    obtain rfl := Option.some.inj hstep
    exact hs hall
  | evaluate now =>
    obtain rfl := step_evaluate hstep
    obtain ⟨hx, hall⟩ := List.forall_mem_cons.mp hall
    have htier : (NimbusVault.evaluate cfg windowRate now chunkId s.access).1.tier = s.access.tier := by
      by_contra hne
      exact absurd (evaluate_changed_iff.mpr hne) (by simpa using hx)
    exact htier.trans (hs hall)

/-- The condition, by the counters. -/
theorem changed_iff_moves (hP : 1 ≤ cfg.promoteWindows) (hD : 1 ≤ cfg.demoteWindows) (h : Counts s)
    (now : UInt64) : (evaluate cfg windowRate now chunkId s.access).2.changed = true ↔
      s.Moves cfg (s.access.windowTier cfg windowRate now) := by
  have hside : ∀ {n : ℤ} {side : ChunkTier → Bool} {w : ChunkTier}, 1 ≤ n →
      LastAll n side (w :: s.since) → side w = true := fun hn hl => ((lastAll_cons hn).mp hl).1
  have hcount := h.changed_iff (w := s.access.windowTier cfg windowRate now)
    (a := { s.access with pendingCount := 0, lastEvalMs := now }) hP hD ⟨rfl, rfl, rfl⟩
  refine hcount.trans ⟨?_, ?_⟩
  · rintro (hl | hl)
    · exact .inl ⟨of_decide_eq_true (hside hP hl), hl⟩
    · exact .inr ⟨of_decide_eq_true (hside hD hl), hl⟩
  · rintro (⟨-, hl⟩ | ⟨-, hl⟩)
    · exact .inl hl
    · exact .inr hl

/-- Enough windows on one side since the last change are a run of them. -/
theorem Counts.run_of_lastAll (h : Counts s) {n : ℤ} {side : ChunkTier → ChunkTier → Bool}
    {x : Window} (hx : x.tier = s.access.tier)
    (hl : LastAll n (side s.access.tier) (x.desired :: s.since)) : ¬ NoRun n side (x :: s.windows) := by
  intro hno
  have hprefix : (x :: s.recent).take n.toNat <+: x :: s.windows :=
    (List.take_prefix _ _).trans ((List.prefix_cons_inj x).mpr (List.takeWhile_prefix _))
  have hlen : n.toNat ≤ (x :: s.recent).length := by
    simpa [AccessHistory.since] using hl.1
  obtain ⟨y, hy, hside⟩ := hno _ hprefix.isInfix (by rw [List.length_take, min_eq_left hlen])
  have htier : y.tier = s.access.tier := by
    rcases List.mem_cons.mp (List.mem_of_mem_take hy) with rfl | hy
    · exact hx
    · exact h.tiers y hy
  have hmem : y.desired ∈ (x.desired :: s.since).take n.toNat := by
    rw [AccessHistory.since, ← List.map_cons (f := Window.desired), ← List.map_take]
    exact List.mem_map_of_mem hy
  rw [htier, hl.2 _ hmem] at hside
  simp at hside

theorem NoRun.tail {n : ℤ} {side : ChunkTier → ChunkTier → Bool} {x : Window} {ws : List Window}
    (h : NoRun n side (x :: ws)) : NoRun n side ws :=
  fun u hu => h u (hu.trans (List.suffix_cons x ws).isInfix)

/-- Without such runs no window changes the tier. -/
theorem unchanged_of_noRun (hP : 1 ≤ cfg.promoteWindows) (hD : 1 ≤ cfg.demoteWindows)
    (h : (accessRuns cfg windowRate chunkId).Reach {} tr s)
    (habove : NoRun cfg.promoteWindows ChunkTier.above s.windows)
    (hbelow : NoRun cfg.demoteWindows ChunkTier.below s.windows) :
    ∀ x ∈ s.windows, x.changed = false := by
  have key : Counts s ∧ (NoRun cfg.promoteWindows ChunkTier.above s.windows →
      NoRun cfg.demoteWindows ChunkTier.below s.windows → ∀ x ∈ s.windows, x.changed = false) := by
    refine h.invariant_step (I := fun s => Counts s ∧
      (NoRun cfg.promoteWindows ChunkTier.above s.windows →
        NoRun cfg.demoteWindows ChunkTier.below s.windows → ∀ x ∈ s.windows, x.changed = false))
      ⟨counts_init, by simp⟩ fun s a s' hs hstep _ => ?_
    cases a with
    | recordAccesses count =>
      obtain rfl := Option.some.inj hstep
      exact ⟨⟨hs.1.above, hs.1.below, hs.1.tiers⟩, hs.2⟩
    | evaluate now =>
      refine ⟨hs.1.evaluate hstep, ?_⟩
      obtain rfl := step_evaluate hstep
      intro ha hb
      refine List.forall_mem_cons.mpr ⟨?_, hs.2 ha.tail hb.tail⟩
      by_contra hchanged
      have hc : (evaluate cfg windowRate now chunkId s.access).2.changed = true := by
        simpa using hchanged
      rcases (changed_iff_moves hP hD hs.1 now).mp hc with ⟨-, hl⟩ | ⟨-, hl⟩
      · exact hs.1.run_of_lastAll rfl hl ha
      · exact hs.1.run_of_lastAll rfl hl hb
  exact key.2 habove hbelow

/-- **When an evaluation moves the tier**, and that nothing moves it without a long run. -/
theorem evaluate_moves_iff (hP : 1 ≤ cfg.promoteWindows) (hD : 1 ≤ cfg.demoteWindows) :
    (∀ tr s now, (accessRuns cfg windowRate chunkId).Reach {} tr s →
      let w := s.access.windowTier cfg windowRate now
      let r := evaluate cfg windowRate now chunkId s.access
      r.2.newTier = w ∧ (r.2.changed = true ∧ r.1.tier = w ↔ s.Moves cfg w) ∧
      (¬ s.Moves cfg w → r.2.changed = false ∧ r.1.tier = s.access.tier)) ∧
    ∀ tr s, (accessRuns cfg windowRate chunkId).Reach {} tr s →
      NoRun cfg.promoteWindows ChunkTier.above s.windows →
      NoRun cfg.demoteWindows ChunkTier.below s.windows →
      s.access.tier = .warm ∧ ∀ x ∈ s.windows, x.changed = false := by
  refine ⟨fun tr s now h => ?_, fun tr s h ha hb => ?_⟩
  · have hmoves : (evaluate cfg windowRate now chunkId s.access).2.changed = true ↔
        s.Moves cfg (s.access.windowTier cfg windowRate now) :=
      changed_iff_moves hP hD (counts_of_reach h) now
    dsimp only
    refine ⟨rfl, ?_⟩
    rcases closeWindow_cases cfg (s.access.windowTier cfg windowRate now)
      { s.access with pendingCount := 0, lastEvalMs := now } with ⟨hc, ht, -⟩ | ⟨hc, ht⟩
    · have hc' : (evaluate cfg windowRate now chunkId s.access).2.changed = true := hc
      exact ⟨iff_of_true ⟨hc, ht⟩ (hmoves.mp hc'), fun hn => absurd (hmoves.mp hc') hn⟩
    · have hc' : (evaluate cfg windowRate now chunkId s.access).2.changed = false := hc
      have hn : ¬ s.Moves cfg (s.access.windowTier cfg windowRate now) := fun hm => by
        rw [hmoves.mpr hm] at hc'
        simp at hc'
      exact ⟨iff_of_false (fun hm => by rw [hm.1] at hc'; simp at hc') hn, fun _ => ⟨hc, ht⟩⟩
  · have hall := unchanged_of_noRun hP hD h ha hb
    exact ⟨tier_of_unchanged h hall, hall⟩

end Runs

/-! The rate is the number of accesses, and two windows of nine have passed. -/

def countPolicy : PolicyConfig ℕ := { coldThreshold := 1, hotThreshold := 5 }

def countRate (count : UInt64) (_ : Option UInt64) : ℕ := count.toNat

def hotTrace : List AccessStep :=
  [.recordAccesses 9, .evaluate 1000, .recordAccesses 9, .evaluate 3000, .recordAccesses 9]

def hotHistory : AccessHistory :=
  (accessRuns countPolicy countRate ['c']).final (fun _ _ => True) {} hotTrace

/-- The third window in a row makes the chunk hot. -/
example : (evaluate countPolicy countRate 5000 ['c'] hotHistory.access).2.changed = true := by
  decide +kernel

theorem evaluate_moves_iff_hot :
    let w := hotHistory.access.windowTier countPolicy countRate 5000
    let r := evaluate countPolicy countRate 5000 ['c'] hotHistory.access
    r.2.newTier = w ∧ (r.2.changed = true ∧ r.1.tier = w ↔ hotHistory.Moves countPolicy w) ∧
    (¬ hotHistory.Moves countPolicy w → r.2.changed = false ∧ r.1.tier = hotHistory.access.tier) :=
  (@evaluate_moves_iff ℕ _ _ _ _ countPolicy countRate ['c'] (by decide) (by decide)).1 hotTrace
    hotHistory 5000 (Machine.run_final (by decide +kernel))

end NimbusVault
