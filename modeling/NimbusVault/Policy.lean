import NimbusVault.Coordinator

/-!
# Policy — access tiers with hysteresis

`AdaptivePolicy`: a chunk is hot, warm or cold.  `evaluate` closes a window: it classifies the rate
of the accesses since the last one, and moves the chunk to another tier once enough windows in a row
ask for a higher, or for a lower one.  It reports a change in the evaluation that makes it and at no
other time (`evaluate_changed_iff`).  The rate is computed in floating point; it is a parameter
here, of an arbitrary type with comparisons.
-/

namespace NimbusVault

inductive ChunkTier
  | cold
  | warm
  | hot
  deriving DecidableEq

/-- The order of the enumerators. -/
def ChunkTier.rank : ChunkTier → ℕ
  | .cold => 0
  | .warm => 1
  | .hot => 2

structure PolicyConfig (φ : Type) where
  coldThreshold : φ
  hotThreshold : φ
  coldRf : Int32 := 2
  warmRf : Int32 := 3
  hotRf : Int32 := 5
  promoteWindows : ℤ := 3
  demoteWindows : ℤ := 5

structure ChunkAccessState where
  windowsAbove : ℤ := 0
  windowsBelow : ℤ := 0
  tier : ChunkTier := .warm
  pendingCount : UInt64 := 0
  lastEvalMs : UInt64 := 0
  deriving DecidableEq

structure PolicyDecision where
  chunkId : Str
  newRf : Int32
  newTier : ChunkTier
  changed : Bool
  deriving DecidableEq

/-- `record_accesses`; the length of the window is ignored. -/
def ChunkAccessState.recordAccesses (s : ChunkAccessState) (count : UInt64) : ChunkAccessState :=
  { s with pendingCount := s.pendingCount + count }

/-- The milliseconds since the last evaluation, if there was one. -/
def ChunkAccessState.elapsedMs (s : ChunkAccessState) (now : UInt64) : Option UInt64 :=
  if 0 < s.lastEvalMs then some (now - s.lastEvalMs) else none

section Windows

variable {φ : Type}

def PolicyConfig.rfForTier (cfg : PolicyConfig φ) : ChunkTier → Int32
  | .hot => cfg.hotRf
  | .warm => cfg.warmRf
  | .cold => cfg.coldRf

/-- A window that asks for the tier `desired`, and whether it changes the tier. -/
def closeWindow (cfg : PolicyConfig φ) (desired : ChunkTier) (s : ChunkAccessState) :
    ChunkAccessState × Bool :=
  if s.tier.rank < desired.rank then
    if cfg.promoteWindows ≤ s.windowsAbove + 1 then
      ({ s with tier := desired, windowsAbove := 0, windowsBelow := 0 }, true)
    else ({ s with windowsAbove := s.windowsAbove + 1, windowsBelow := 0 }, false)
  else if desired.rank < s.tier.rank then
    if cfg.demoteWindows ≤ s.windowsBelow + 1 then
      ({ s with tier := desired, windowsBelow := 0, windowsAbove := 0 }, true)
    else ({ s with windowsBelow := s.windowsBelow + 1, windowsAbove := 0 }, false)
  else ({ s with windowsAbove := 0, windowsBelow := 0 }, false)

/-- A window changes the tier to the one it asks for, or keeps it. -/
theorem closeWindow_cases (cfg : PolicyConfig φ) (desired : ChunkTier) (s : ChunkAccessState) :
    ((closeWindow cfg desired s).2 = true ∧ (closeWindow cfg desired s).1.tier = desired ∧
        desired ≠ s.tier) ∨
      ((closeWindow cfg desired s).2 = false ∧ (closeWindow cfg desired s).1.tier = s.tier) := by
  unfold closeWindow
  split_ifs with hup hp hdown hd
  · exact .inl ⟨rfl, rfl, fun h => absurd hup (by rw [h]; exact lt_irrefl _)⟩
  · exact .inr ⟨rfl, rfl⟩
  · exact .inl ⟨rfl, rfl, fun h => absurd hdown (by rw [h]; exact lt_irrefl _)⟩
  · exact .inr ⟨rfl, rfl⟩
  · exact .inr ⟨rfl, rfl⟩

end Windows

section Evaluate

variable {φ : Type} [LT φ] [LE φ] [DecidableLT φ] [DecidableLE φ] {cfg : PolicyConfig φ}
  {windowRate : UInt64 → Option UInt64 → φ} {now : UInt64} {chunkId : Str} {s : ChunkAccessState}

def PolicyConfig.classify (cfg : PolicyConfig φ) (rate : φ) : ChunkTier :=
  if cfg.hotThreshold < rate then .hot
  else if cfg.coldThreshold ≤ rate then .warm
  else .cold

/-- `evaluate` at the time `now`.  `windowRate` is the rate of a number of accesses in a number of
milliseconds, or in the time assumed for a first evaluation. -/
def evaluate (cfg : PolicyConfig φ) (windowRate : UInt64 → Option UInt64 → φ) (now : UInt64)
    (chunkId : Str) (s : ChunkAccessState) : ChunkAccessState × PolicyDecision :=
  let desiredTier := cfg.classify (windowRate s.pendingCount (s.elapsedMs now))
  let (s', changed) :=
    closeWindow cfg desiredTier { s with pendingCount := 0, lastEvalMs := now }
  (s', { chunkId, newRf := cfg.rfForTier desiredTier, newTier := desiredTier, changed })

/-- **A change is reported** exactly by the evaluation that makes it. -/
theorem evaluate_changed_iff : (evaluate cfg windowRate now chunkId s).2.changed = true ↔
    (evaluate cfg windowRate now chunkId s).1.tier ≠ s.tier := by
  unfold evaluate
  dsimp only
  rcases closeWindow_cases cfg (cfg.classify (windowRate s.pendingCount (s.elapsedMs now)))
    { s with pendingCount := 0, lastEvalMs := now } with ⟨hc, ht, hne⟩ | ⟨hc, ht⟩
  · rw [hc, ht]
    exact ⟨fun _ => hne, fun _ => rfl⟩
  · rw [hc, ht]
    exact ⟨fun h => by simp at h, fun h => absurd rfl h⟩

/-- The factor that comes with a change is that of the new tier. -/
theorem evaluate_newRf (h : (evaluate cfg windowRate now chunkId s).2.changed = true) :
    (evaluate cfg windowRate now chunkId s).2.newRf =
      cfg.rfForTier (evaluate cfg windowRate now chunkId s).1.tier := by
  unfold evaluate at h ⊢
  dsimp only at h ⊢
  rcases closeWindow_cases cfg (cfg.classify (windowRate s.pendingCount (s.elapsedMs now)))
    { s with pendingCount := 0, lastEvalMs := now } with ⟨-, ht, -⟩ | ⟨hc, -⟩
  · rw [ht]
  · rw [hc] at h
    simp at h

end Evaluate

end NimbusVault
