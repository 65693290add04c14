import NimbusVault.Isolation
import NimbusVault.SerialCalls

/-!
# SerialChunk — the calls on one chunk of a busy leader

What runs on the other chunks does not show (`Isolation`), and calls that nothing cuts into are the
handlers in one go (`SerialCalls`).  Both together are about the leader as a whole: when only the
calls on one chunk keep out of each other's way, the chunk is as the handlers leave it, whatever the
leader does on the other chunks in between (`serial_chunk_in_one_go`).  The steps on a chunk are a
run of `race`, for its view of the leader.
-/

namespace NimbusVault

open Lib

/-- The step of a put or of the driver, if it is on the chunk. -/
def LeaderStep.callOn (c : Str) : LeaderStep → Option RaceStep
  | .call d a => if d = c then some a else none
  | _ => none

/-- The nodes stay the same, nobody deletes the chunk, and the other chunks keep apart. -/
def LeaderStep.Steady (c : Str) : LeaderStep → Prop
  | .nodes _ => False
  | .deleteChunk d _ => d ≠ c
  | a => a.Apart c

instance (c : Str) : DecidablePred (LeaderStep.Steady c)
  | .nodes _ => .isFalse id
  | .deleteChunk d _ => inferInstanceAs (Decidable (d ≠ c))
  | .call d a => inferInstanceAs (Decidable ((LeaderStep.call d a).Apart c))
  | .addReplica .. => .isTrue trivial
  | .removeReplica .. => .isTrue trivial
  | .policy .. => .isTrue trivial

/-- What there is of the chunk at the leader is as in `r`. -/
structure LeaderState.LooksLike (c : Str) (s : LeaderState) (r : RaceState) : Prop where
  entry : s.chunkTable.get c = r.chunkTable.get c
  reads : ∀ addr minV, readChunk (s.stores addr) c minV = readChunk (r.stores addr) c minV
  puts : s.puts c = r.puts
  reconfigs : s.reconfigs c = r.reconfigs

section Steady

variable {c : Str} {cl : Cluster} {s s' : LeaderState} {tr : List LeaderStep} {a : LeaderStep}
  {j : ℕ} {req : Except Str ReconfigReq}

theorem LeaderStep.Steady.apart (h : a.Steady c) : a.Apart c := by
  cases a with
  | call d a => exact h
  | _ => trivial

theorem LeaderState.Alike.looksLike (h : LeaderState.Alike c s s') : s.LooksLike c (s'.view c) where
  entry := h.entry.symm
  reads := fun addr minV => (h.reads addr minV).symm
  puts := h.puts.symm
  reconfigs := h.reconfigs.symm

theorem LeaderState.view_setView (s : LeaderState) (c : Str) (r : RaceState) :
    (s.setView c r).view c = r := by
  simp only [view, setView, Function.update_self]

/-- A request is no call yet. -/
theorem LeaderState.view_of_ask {d : Str} (h : s.ask d j req = some s') :
    s'.alive = s.alive ∧ s'.view c = s.view c := by
  unfold LeaderState.ask at h
  split_ifs at h
  obtain rfl := Option.some.inj h
  cases req with
  | error _ => exact ⟨rfl, rfl⟩
  | ok req => exact ⟨rfl, rfl⟩

/-- **The steps on the chunk are a run of its calls.** -/
theorem view_of_run
    (h : leader.Run (fun _ a => a.Steady c ∧ a.About c = true) { alive := cl } tr s) :
    s.alive = cl ∧ (race cl c).Reach {} (tr.filterMap (LeaderStep.callOn c)) (s.view c) := by
  refine h.trace_invariant (I := fun tr s =>
    s.alive = cl ∧ (race cl c).Reach {} (tr.filterMap (LeaderStep.callOn c)) (s.view c))
    ⟨rfl, .nil⟩ ?_
  rintro tr s a s' ⟨rfl, hr⟩ hs ⟨hsteady, habout⟩
  have hask : ∀ {d : Str} {j : ℕ} {req : Except Str ReconfigReq}, a.callOn c = none →
      s.ask d j req = some s' → s'.alive = s.alive ∧
        (race s.alive c).Reach {} ((tr ++ [a]).filterMap (LeaderStep.callOn c)) (s'.view c) := by
    intro d j req hcall hreq
    obtain ⟨halive, hview⟩ := LeaderState.view_of_ask (c := c) hreq
    rw [List.filterMap_append, List.filterMap_cons_none hcall, List.filterMap_nil, List.append_nil,
      hview]
    exact ⟨halive, hr⟩
  cases a with
  | nodes alive => exact hsteady.elim
  | deleteChunk d quorum => exact absurd (of_decide_eq_true habout) hsteady
  | addReplica d j nodeId => exact hask rfl hs
  | removeReplica d j nodeId => exact hask rfl hs
  | policy d j newRf => exact hask rfl hs
  | call d a =>
    obtain rfl : d = c := of_decide_eq_true habout
    have hcall : (LeaderStep.call d a).callOn d = some a := if_pos rfl
    simp only [LeaderState.step] at hs
    split_ifs at hs
    obtain ⟨r, hstep, rfl⟩ := Option.map_eq_some_iff.mp hs
    rw [List.filterMap_append, List.filterMap_cons_some hcall, List.filterMap_nil,
      LeaderState.view_setView]
    exact ⟨rfl, hr.step hstep trivial⟩

/-- Steps that are not on the chunk hold no call on it. -/
theorem filterMap_callOn (c : Str) (tr : List LeaderStep) :
    (tr.filter (·.About c)).filterMap (LeaderStep.callOn c) = tr.filterMap (LeaderStep.callOn c) := by
  rw [List.filterMap_filter]
  refine congrArg (List.filterMap · tr) (funext fun a => ?_)
  cases a with
  | call d a =>
    by_cases hd : d = c
    · simp [LeaderStep.About, LeaderStep.callOn, hd]
    · simp [LeaderStep.About, LeaderStep.callOn, hd]
  | _ => simp [LeaderStep.callOn]

/-- **Calls on a chunk that do not cut into each other are the handlers in one go**, whatever runs
on the other chunks. -/
theorem serial_chunk_in_one_go (h : leader.Run (fun _ a => a.Steady c) { alive := cl } tr s)
    (hserial : Serial (tr.filterMap (LeaderStep.callOn c)))
    (hover : ∀ a ∈ tr.filterMap (LeaderStep.callOn c), (s.view c).Over a.owner) :
    ∃ calls r, (handlers cl c).Reach {} calls r ∧ s.LooksLike c r ∧
      calls.map HandlerStep.opening =
        (tr.filterMap (LeaderStep.callOn c)).filterMap RaceStep.opening := by
  have halone : ∃ s', leader.Run (fun _ a => a.Steady c ∧ a.About c = true) { alive := cl }
      (tr.filter (·.About c)) s' ∧ LeaderState.Matched c s s' :=
    LeaderState.Matched.of_run (fun _ _ ha => ha.apart) (fun _ _ _ _ ha hc => ⟨ha, hc⟩) h
  obtain ⟨s', hr, hmatch⟩ := halone
  obtain ⟨-, hview⟩ := view_of_run hr
  rw [filterMap_callOn] at hview
  have hlike : s.LooksLike c (s'.view c) := hmatch.alike.looksLike
  have hover' : ∀ a ∈ tr.filterMap (LeaderStep.callOn c), (s'.view c).Over a.owner := by
    intro a ha
    have hdone := hover a ha
    cases how : a.owner with
    | put i =>
      rw [how] at hdone
      rw [RaceState.Over, ← hlike.puts]
      exact hdone
    | reconfig j =>
      rw [how] at hdone
      rw [RaceState.Over, ← hlike.reconfigs]
      exact hdone
  obtain ⟨calls, hcalls, hopen⟩ := exists_handlers_of_serial hview hserial hover'
  exact ⟨calls, _, hcalls, hlike, hopen⟩

theorem serial_chunk_in_one_go_mixed :
    ∃ calls r, (handlers pairCluster ['c']).Reach {} calls r ∧
      (leader.final (fun _ a => a.Steady ['c']) { alive := pairCluster } mixedTrace).LooksLike ['c']
        r ∧
      calls.map HandlerStep.opening = [.put 0 ⟨['c'], 1, 1, ['x']⟩] :=
  serial_chunk_in_one_go (Machine.run_final (by decide +kernel)) (by decide) (by decide +kernel)

end Steady

end NimbusVault
