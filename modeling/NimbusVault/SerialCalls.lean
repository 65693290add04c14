import Mathlib.Data.List.Chain
import NimbusVault.OneGo
import NimbusVault.PutVersions

/-!
# SerialCalls — calls that nothing cuts into

A run of the puts and reconfigurations of a chunk is serial when the steps of each call stand
together.  The states that such runs lead to, with every call over, are exactly those that the
handlers lead to which are run in one go, in the order in which the calls begin
(`serial_calls_iff_in_one_go`).  In the one direction the last call of the run has made progress on
a state that the handlers reach, and a call that another one has cut off is never over; in the other
the handler is taken apart along its loops.
-/

namespace NimbusVault

open Lib

/-! ### The handlers, in one go -/

/-- How a call begins.  For a reconfiguration, placement is asked in the first step. -/
inductive Opening
  | put (i : ℕ) (req : PutChunkReq)
  | reconfig (j : ℕ) (newRf : Int32) (mustInclude mustExclude : Str) (selected : List Str)
  deriving DecidableEq

def Opening.id : Opening → CallId
  | .put i _ => .put i
  | .reconfig j .. => .reconfig j

def RaceStep.opening : RaceStep → Option Opening
  | .check i req => some (.put i req)
  | .begin j newRf mustInclude mustExclude selected =>
    some (.reconfig j newRf mustInclude mustExclude selected)
  | _ => none

/-- A whole call, with what happens to it from outside. -/
inductive HandlerStep
  | put (i : ℕ) (req : PutChunkReq) (env : PutEnv)
  | reconfig (j : ℕ) (newRf : Int32) (mustInclude mustExclude : Str) (env : ReconfigEnv)

def HandlerStep.opening : HandlerStep → Opening
  | .put i req _ => .put i req
  | .reconfig j newRf mustInclude mustExclude env =>
    .reconfig j newRf mustInclude mustExclude env.selected

namespace RaceState

/-- The effect of a whole call, which stays among the calls as one that is over. -/
def handle (cl : Cluster) (c : Str) (s : RaceState) : HandlerStep → Option RaceState
  | .put i req env =>
    if (s.puts i).isNone ∧ req.chunkId = c ∧ env.Chosen cl s.chunkTable req then
      let r := putChunk true cl.nodes s.chunkTable s.stores req env
      some ({ s with chunkTable := r.chunkTable, stores := r.stores }.setPut i r.phase)
    else none
  | .reconfig j newRf mustInclude mustExclude env =>
    if (s.reconfigs j).isNone ∧ env.On cl env.selected ∧ ∀ e ∈ s.chunkTable.get c,
        SelectsTargets cl.nodes e.replicaSet newRf.toInt mustInclude mustExclude env.selected then
      let r := reconfig s.chunkTable s.stores c newRf mustInclude mustExclude env
      some ({ s with chunkTable := r.chunkTable, stores := r.stores }.setPhase j
        (reconfigBegin cl s.chunkTable c newRf mustInclude mustExclude env.selected) (.finished r.ok))
    else none

end RaceState

/-- The handlers of the chunk `c`, one after the other. -/
abbrev handlers (cl : Cluster) (c : Str) : Machine RaceState HandlerStep :=
  .ofStep (RaceState.handle cl c)

/-! ### Serial runs -/

/-- Every step begins a call or goes on with the one before it. -/
def Serial (tr : List RaceStep) : Prop :=
  tr.IsChain fun a b => b.opening.isSome ∨ b.owner = a.owner

instance (tr : List RaceStep) : Decidable (Serial tr) :=
  inferInstanceAs (Decidable (List.IsChain _ _))

def PutPhase.Over : PutPhase → Prop
  | .answered _ => True
  | .threw => True
  | _ => False

def ReconfigPhase.Over : ReconfigPhase → Prop
  | .finished _ => True
  | _ => False

instance : DecidablePred PutPhase.Over
  | .checked _ => .isFalse id
  | .writing .. => .isFalse id
  | .undoing .. => .isFalse id
  | .answered _ => .isTrue trivial
  | .threw => .isTrue trivial

instance : DecidablePred ReconfigPhase.Over
  | .targeted => .isFalse id
  | .copying .. => .isFalse id
  | .verifying .. => .isFalse id
  | .finished _ => .isTrue trivial

/-- The call has not begun, or has come to its end. -/
def RaceState.Over (s : RaceState) : CallId → Prop
  | .put i => ∀ p ∈ s.puts i, p.Over
  | .reconfig j => ∀ call ∈ s.reconfigs j, call.phase.Over

instance (s : RaceState) : DecidablePred s.Over
  | .put i => inferInstanceAs (Decidable (∀ p ∈ s.puts i, p.Over))
  | .reconfig j => inferInstanceAs (Decidable (∀ call ∈ s.reconfigs j, call.phase.Over))

/-- All steps since `s₀` are those of the call. -/
def UnderWay (cl : Cluster) (c : Str) (s₀ s : RaceState) : Opening → Prop
  | .put i req => s₀.puts i = none ∧ req.chunkId = c ∧ s.reconfigs = s₀.reconfigs ∧
    ∃ p, s.puts = Function.update s₀.puts i (some p) ∧
      PutProgress cl s₀.chunkTable s₀.stores req s.chunkTable s.stores p
  | .reconfig j newRf incl excl selected => s₀.reconfigs j = none ∧
    (∀ e ∈ s₀.chunkTable.get c,
      SelectsTargets cl.nodes e.replicaSet newRf.toInt incl excl selected) ∧
    s.puts = s₀.puts ∧ ∃ call, s.reconfigs = Function.update s₀.reconfigs j (some call) ∧
      ReconfigProgress cl c s₀.chunkTable s₀.stores newRf incl excl selected s.chunkTable s.stores
        call

section UnderWay

variable {cl : Cluster} {c : Str} {s₀ s s' : RaceState} {a : RaceStep} {o : Opening} {id : CallId}

theorem RaceStep.owner_of_opening (h : a.opening = some o) : a.owner = o.id := by
  cases a with
  | check i req =>
    obtain rfl := Option.some.inj h
    rfl
  | begin j newRf incl excl selected =>
    obtain rfl := Option.some.inj h
    rfl
  | _ => simp [RaceStep.opening] at h

/-- The first step of a call. -/
theorem underWay_of_opening (hs : s.step cl c a = some s') (h : a.opening = some o) :
    s.Over o.id ∧ UnderWay cl c s s' o := by
  cases a with
  | check i req =>
    obtain rfl := Option.some.inj h
    simp only [RaceState.step] at hs
    split_ifs at hs with hg
    obtain rfl := Option.some.inj hs
    obtain ⟨hnone, hid⟩ := hg
    rw [Option.isNone_iff_eq_none] at hnone
    refine ⟨fun p hp => ?_, hnone, hid, rfl, _, rfl, putProgress_putCheck⟩
    rw [hnone] at hp
    simp at hp
  | begin j newRf incl excl selected =>
    obtain rfl := Option.some.inj h
    simp only [RaceState.step] at hs
    split_ifs at hs with hg
    obtain rfl := Option.some.inj hs
    obtain ⟨hnone, hsel⟩ := hg
    rw [Option.isNone_iff_eq_none] at hnone
    refine ⟨fun call hcall => ?_, hnone, hsel, rfl, _, rfl, reconfigProgress_begin hsel⟩
    rw [hnone] at hcall
    simp at hcall
  | _ => simp [RaceStep.opening] at h

/-- A further step of the call. -/
theorem UnderWay.step (h : UnderWay cl c s₀ s o) (hs : s.step cl c a = some s')
    (how : a.owner = o.id) : UnderWay cl c s₀ s' o := by
  cases o with
  | put i req =>
    obtain ⟨hnone, rfl, hreconfigs, p, hputs, hprog⟩ := h
    have hp : s.puts i = some p := by rw [hputs, Function.update_self]
    obtain ⟨p', hputs', hreconfigs', hprog'⟩ := hprog.step hp hs how
    refine ⟨hnone, rfl, hreconfigs'.trans hreconfigs, p', ?_, hprog'⟩
    rw [hputs', hputs, Function.update_idem]
  | reconfig j newRf incl excl selected =>
    obtain ⟨hnone, hsel, hputs, call, hreconfigs, hprog⟩ := h
    have hcall : s.reconfigs j = some call := by rw [hreconfigs, Function.update_self]
    obtain ⟨call', hputs', hreconfigs', hprog'⟩ := hprog.step hcall hs how
    refine ⟨hnone, hsel, hputs'.trans hputs, call', ?_, hprog'⟩
    rw [hreconfigs', hreconfigs, Function.update_idem]

/-- **A call that is over is the handler in one go.** -/
theorem UnderWay.handle (h : UnderWay cl c s₀ s o) (hover : s.Over o.id) :
    ∃ call : HandlerStep, call.opening = o ∧ s₀.handle cl c call = some s := by
  cases o with
  | put i req =>
    obtain ⟨hnone, hid, hreconfigs, p, hputs, hprog⟩ := h
    have hp : s.puts i = some p := by rw [hputs, Function.update_self]
    have hdone : ∃ env : PutEnv, env.Chosen cl s₀.chunkTable req ∧
        let r := putChunk true cl.nodes s₀.chunkTable s₀.stores req env
        r.phase = p ∧ r.chunkTable = s.chunkTable ∧ r.stores = s.stores := by
      cases p with
      | answered resp => exact hprog
      | threw => exact hprog
      | _ => exact (hover _ hp).elim
    obtain ⟨env, hchosen, hphase, htable, hstores⟩ := hdone
    refine ⟨.put i req env, rfl, ?_⟩
    rw [RaceState.handle, if_pos ⟨Option.isNone_iff_eq_none.mpr hnone, hid, hchosen⟩]
    dsimp only
    rw [hphase, htable, hstores, RaceState.setPut, ← hputs, ← hreconfigs]
  | reconfig j newRf incl excl selected =>
    obtain ⟨hnone, hsel, hputs, call, hreconfigs, hprog⟩ := h
    have hcall : s.reconfigs j = some call := by rw [hreconfigs, Function.update_self]
    obtain ⟨old, v, new, phase⟩ := call
    cases phase with
    | finished ok =>
      -- nothing remains that could go one way or the other
      have hany : ReconfigEnv.On ⟨cl.nodes, cl.nodes, cl.nodes, selected, false,
        fun _ => (.unreached, .unreached), fun _ => .unreached, false⟩ cl selected :=
        ⟨rfl, rfl, rfl, rfl⟩
      obtain ⟨env, henv, hwhole⟩ := hprog.whole _ hany
      refine ⟨.reconfig j newRf incl excl env, ?_, ?_⟩
      · rw [HandlerStep.opening, henv.selected]
      · have hon : env.On cl env.selected := ⟨henv.alive, henv.atCopy, henv.atVerify, rfl⟩
        rw [RaceState.handle, if_pos ⟨Option.isNone_iff_eq_none.mpr hnone, hon, henv.selected ▸ hsel⟩]
        dsimp only
        rw [hwhole, henv.selected, RaceState.setPhase, RaceState.setReconfig]
        dsimp only [ReconfigCall.rest]
        rw [← hprog.begun, ← hputs, ← hreconfigs]
    | _ => exact (hover _ hcall).elim

/-- Another call does not matter. -/
theorem over_iff_of_put {i : ℕ} {p : PutPhase} (hputs : s'.puts = Function.update s.puts i (some p))
    (hreconfigs : s'.reconfigs = s.reconfigs) (hid : CallId.put i ≠ id) : s'.Over id ↔ s.Over id := by
  cases id with
  | put k =>
    have hki : k ≠ i := fun h => hid (h ▸ rfl)
    rw [RaceState.Over, RaceState.Over, hputs, Function.update_of_ne hki]
  | reconfig k => rw [RaceState.Over, RaceState.Over, hreconfigs]

theorem over_iff_of_reconfig {j : ℕ} {call : ReconfigCall} (hputs : s'.puts = s.puts)
    (hreconfigs : s'.reconfigs = Function.update s.reconfigs j (some call))
    (hid : CallId.reconfig j ≠ id) : s'.Over id ↔ s.Over id := by
  cases id with
  | put k => rw [RaceState.Over, RaceState.Over, hputs]
  | reconfig k =>
    have hkj : k ≠ j := fun h => hid (h ▸ rfl)
    rw [RaceState.Over, RaceState.Over, hreconfigs, Function.update_of_ne hkj]

/-- A step leaves the other calls as they are. -/
theorem over_iff_of_step (hs : s.step cl c a = some s') (hid : a.owner ≠ id) :
    s'.Over id ↔ s.Over id := by
  cases RaceState.step_fires hs <;>
    first
    | exact over_iff_of_put rfl rfl hid
    | exact over_iff_of_reconfig rfl rfl hid

end UnderWay

/-! ### The run -/

/-- The run so far: nothing yet, a call under way behind the handlers of the ones before, or a call
that was cut off and will not come to its end. -/
def Explained (cl : Cluster) (c : Str) (s₀ : RaceState) (tr : List RaceStep) (s : RaceState) : Prop :=
  tr = [] ∧ s = s₀ ∨
  (∃ calls s₁ o, (handlers cl c).Reach s₀ calls s₁ ∧ UnderWay cl c s₁ s o ∧
    tr.filterMap RaceStep.opening = calls.map HandlerStep.opening ++ [o] ∧
    ∃ b ∈ tr.getLast?, b.owner = o.id) ∨
  ∃ a ∈ tr, ¬ s.Over a.owner ∧ ∃ b ∈ tr.getLast?, b.owner ≠ a.owner

section Runs

variable {cl : Cluster} {c : Str} {s₀ s s' : RaceState} {tr : List RaceStep} {a x : RaceStep}
  {o : Opening} {t : ChunkTable} {ss : Stores}

/-- Without calls nothing but the beginning of one can happen. -/
theorem not_step_of_no_call (ha : a.opening = none) :
    ({ chunkTable := t, stores := ss } : RaceState).step cl c a = none := by
  cases a with
  | check i req => simp [RaceStep.opening] at ha
  | begin j newRf incl excl selected => simp [RaceStep.opening] at ha
  | _ => rfl

/-- A call that is not over is cut off by the beginning of another one. -/
theorem explained_of_cut (hs : s.step cl c a = some s') (hop : a.opening = some o) (hx : x ∈ tr)
    (hover : ¬ s.Over x.owner) : Explained cl c s₀ (tr ++ [a]) s' := by
  obtain ⟨hfresh, -⟩ := underWay_of_opening hs hop
  have hne : a.owner ≠ x.owner := by
    rw [RaceStep.owner_of_opening hop]
    exact fun h => hover (h ▸ hfresh)
  refine .inr (.inr ⟨x, List.mem_append_left _ hx, ?_, a, by simp, hne⟩)
  rwa [over_iff_of_step hs hne]

/-- **Every step of a serial run keeps it explained.** -/
theorem Explained.step (h : Explained cl c { chunkTable := t, stores := ss } tr s)
    (hs : s.step cl c a = some s')
    (hlast : ∀ b ∈ tr.getLast?, a.opening.isSome ∨ a.owner = b.owner) :
    Explained cl c { chunkTable := t, stores := ss } (tr ++ [a]) s' := by
  cases hop : a.opening with
  | none =>
    have how : ∀ b ∈ tr.getLast?, a.owner = b.owner := by
      intro b hb
      simpa [hop] using hlast b hb
    have hmap : (tr ++ [a]).filterMap RaceStep.opening = tr.filterMap RaceStep.opening := by
      simp [hop]
    rcases h with ⟨-, rfl⟩ | ⟨calls, s₁, o, hr, hway, hopen, b, hb, hbo⟩ | ⟨x, hx, hover, b, hb, hbx⟩
    · rw [not_step_of_no_call hop] at hs
      simp at hs
    · have hao : a.owner = o.id := (how b hb).trans hbo
      exact .inr (.inl ⟨calls, s₁, o, hr, hway.step hs hao, hmap.trans hopen, a, by simp, hao⟩)
    · have hax : a.owner ≠ x.owner := how b hb ▸ hbx
      refine .inr (.inr ⟨x, List.mem_append_left _ hx, ?_, a, by simp, hax⟩)
      rwa [over_iff_of_step hs hax]
  | some o' =>
    have hway' : UnderWay cl c s s' o' := (underWay_of_opening hs hop).2
    have hao : a.owner = o'.id := RaceStep.owner_of_opening hop
    have hmap : (tr ++ [a]).filterMap RaceStep.opening = tr.filterMap RaceStep.opening ++ [o'] := by
      simp [hop]
    rcases h with ⟨rfl, rfl⟩ | ⟨calls, s₁, o, hr, hway, hopen, b, hb, hbo⟩ | ⟨x, hx, hover, -⟩
    · exact .inr (.inl ⟨[], _, o', .nil, hway', hmap, a, by simp, hao⟩)
    · by_cases hover : s.Over o.id
      · obtain ⟨call, rfl, hcall⟩ := hway.handle hover
        refine .inr (.inl ⟨calls ++ [call], s, o', hr.step hcall trivial, hway', ?_, a, by simp, hao⟩)
        rw [hmap, hopen, List.map_append, List.map_singleton]
      · exact explained_of_cut hs hop (List.mem_of_mem_getLast? hb) (hbo ▸ hover)
    · exact explained_of_cut hs hop hx hover

/-- Calls that nothing cuts into are the handlers in one go, in the order in which they begin. -/
theorem exists_handlers_of_serial
    (h : (race cl c).Reach { chunkTable := t, stores := ss } tr s) (hserial : Serial tr)
    (hover : ∀ a ∈ tr, s.Over a.owner) :
    ∃ calls, (handlers cl c).Reach { chunkTable := t, stores := ss } calls s ∧
      calls.map HandlerStep.opening = tr.filterMap RaceStep.opening := by
  have hexpl : Serial tr → Explained cl c { chunkTable := t, stores := ss } tr s := by
    refine h.trace_invariant
      (I := fun tr s => Serial tr → Explained cl c { chunkTable := t, stores := ss } tr s)
      (fun _ => .inl ⟨rfl, rfl⟩) ?_
    intro tr s a s' ih hs _ hserial
    obtain ⟨htr, -, hlast⟩ := List.isChain_append.mp hserial
    exact (ih htr).step hs fun b hb => hlast b hb a rfl
  rcases hexpl hserial with ⟨rfl, rfl⟩ | ⟨calls, s₁, o, hr, hway, hopen, b, hb, hbo⟩ |
      ⟨x, hx, hnot, -⟩
  · exact ⟨[], .nil, rfl⟩
  · have hdone : s.Over o.id := hbo ▸ hover b (List.mem_of_mem_getLast? hb)
    obtain ⟨call, rfl, hcall⟩ := hway.handle hdone
    refine ⟨calls ++ [call], hr.step hcall trivial, ?_⟩
    rw [hopen, List.map_append, List.map_singleton]
  · exact absurd (hover x hx) hnot

end Runs

/-! ### The steps of a whole call -/

/-- The steps of a call lead on from `s` to `s'`. -/
def GoesOn (cl : Cluster) (c : Str) (id : CallId) (s s' : RaceState) : Prop :=
  ∃ tr, (∀ a ∈ tr, a.opening = none ∧ a.owner = id) ∧ (race cl c).Reach s tr s'

/-- The state that a put leaves. -/
def RaceState.putLeft (s : RaceState) (i : ℕ) (t : ChunkTable) (ss : Stores) (p : PutPhase) :
    RaceState :=
  { s with chunkTable := t, stores := ss }.setPut i p

def RaceState.reconfigLeft (s : RaceState) (j : ℕ) (call : ReconfigCall) (r : ReconfigResult) :
    RaceState :=
  { s with chunkTable := r.chunkTable, stores := r.stores }.setPhase j call (.finished r.ok)

namespace RaceState

variable (s : RaceState) (t : ChunkTable) (ss : Stores)

theorem putLeft_putLeft (i : ℕ) (p : PutPhase) (t' : ChunkTable) (ss' : Stores) (p' : PutPhase) :
    (s.putLeft i t ss p).putLeft i t' ss' p' = s.putLeft i t' ss' p' := by
  simp only [putLeft, setPut, Function.update_idem]

theorem setReconfig_reconfigLeft (j : ℕ) (old : List Str) (v : UInt64) (new : List Str)
    (phase phase' : ReconfigPhase) (r : ReconfigResult) :
    ({ s with chunkTable := t, stores := ss }.setReconfig j ⟨old, v, new, phase'⟩).reconfigLeft j
      ⟨old, v, new, phase'⟩ r = s.reconfigLeft j ⟨old, v, new, phase⟩ r := by
  simp only [reconfigLeft, setPhase, setReconfig, Function.update_idem]

end RaceState

section GoesOn

variable {cl : Cluster} {c : Str} {s s₁ s' : RaceState} {a : RaceStep} {id : CallId} {i j : ℕ}
  {t : ChunkTable} {ss : Stores} {p : PutPhase} {req : PutChunkReq} {v : UInt64} {l : WriteLocals}

theorem GoesOn.trans (h : GoesOn cl c id s s₁) (h' : GoesOn cl c id s₁ s') : GoesOn cl c id s s' := by
  obtain ⟨tr, htr, hr⟩ := h
  obtain ⟨tr', htr', hr'⟩ := h'
  refine ⟨tr ++ tr', fun b hb => ?_, hr.trans hr'⟩
  rcases List.mem_append.mp hb with hb | hb
  · exact htr b hb
  · exact htr' b hb

theorem goesOn_of_step (hs : s.step cl c a = some s₁) (hop : a.opening = none) (how : a.owner = id) :
    GoesOn cl c id s s₁ :=
  ⟨[a], fun _ hb => List.mem_singleton.mp hb ▸ ⟨hop, how⟩, Machine.Run.nil.step hs trivial⟩

/-! Puts -/

theorem goesOn_of_put (hp : s.puts i = some p) :
    GoesOn cl c id s (s.putLeft i s.chunkTable s.stores p) := by
  have hs : s.putLeft i s.chunkTable s.stores p = s := by
    rw [RaceState.putLeft, RaceState.setPut, ← hp, Function.update_eq_self]
  rw [hs]
  exact ⟨[], by simp, .nil⟩

/-- A put goes on from where it has left the state. -/
theorem GoesOn.put {t' : ChunkTable} {ss' : Stores} {p' : PutPhase}
    (h : GoesOn cl c id s (s.putLeft i t ss p))
    (h' : (s.putLeft i t ss p).puts i = some p →
      GoesOn cl c id (s.putLeft i t ss p) ((s.putLeft i t ss p).putLeft i t' ss' p')) :
    GoesOn cl c id s (s.putLeft i t' ss' p') := by
  have hself : (s.putLeft i t ss p).puts i = some p := Function.update_self ..
  have hgo := h' hself
  rw [RaceState.putLeft_putLeft] at hgo
  exact h.trans hgo

/-- The rollback. -/
theorem goesOn_undo (b : Str → Bool) {error : Str} {addrs : List Str}
    (hp : s.puts i = some (putUndo error addrs)) :
    GoesOn cl c (.put i) s (s.putLeft i s.chunkTable (rollback s.stores c b addrs)
      (.answered { ok := false, error })) := by
  induction addrs generalizing s with
  | nil => exact goesOn_of_put hp
  | cons addr addrs ih =>
    have hs : s.step cl c (.undo i (b addr)) = some (s.putLeft i s.chunkTable
        (deleteChunkFromReplica s.stores addr c (b addr)) (putUndo error addrs)) := by
      rw [putUndo, if_neg (List.cons_ne_nil addr addrs)] at hp
      simp only [RaceState.step, hp]
      rfl
    exact (goesOn_of_step hs rfl rfl).put fun hself => ih hself

/-- The write loop. -/
theorem goesOn_write {nodes : List (Str × RpcFate)}
    (hp : s.puts i = some (.writing req v l (nodes.map Prod.fst))) :
    let w := nodes.foldl (putReplica cl.nodes c v req.data) ⟨l, s.stores⟩
    GoesOn cl c (.put i) s
      (s.putLeft i s.chunkTable w.stores (.writing req v w.toWriteLocals [])) := by
  induction nodes generalizing s l with
  | nil => exact goesOn_of_put hp
  | cons x nodes ih =>
    have hs : s.step cl c (.write i x.2) = some (s.putLeft i s.chunkTable
        (putReplica cl.nodes c v req.data ⟨l, s.stores⟩ x).stores (.writing req v
          (putReplica cl.nodes c v req.data ⟨l, s.stores⟩ x).toWriteLocals (nodes.map Prod.fst))) := by
      simp only [RaceState.step, hp, List.map_cons]
      rfl
    exact (goesOn_of_step hs rfl rfl).put fun hself => ih hself

/-- The majority, the log write, and the rollback. -/
theorem goesOn_log (env : PutEnv) (hp : s.puts i = some (.writing req v l [])) :
    let r := putWritten s.chunkTable req env v ⟨l, s.stores⟩
    GoesOn cl req.chunkId (.put i) s (s.putLeft i r.chunkTable r.stores r.phase) := by
  have hs : s.step cl req.chunkId (.log i env.quorum) =
      some (s.putLeft i (putLog s.chunkTable req v l env.quorum).1 s.stores
        (putLog s.chunkTable req v l env.quorum).2) := by
    simp only [RaceState.step, hp]
    rfl
  have hgo := goesOn_of_step hs rfl rfl
  unfold putLog at hgo
  unfold putWritten
  by_cases hmaj : l.successfulAddrs.length < l.majorityNeeded
  · rw [if_pos hmaj] at hgo ⊢
    exact hgo.put fun hself => goesOn_undo env.deleteExecuted hself
  rw [if_neg hmaj] at hgo ⊢
  cases hmeta : metaWrite s.chunkTable (putPayload req v l.replicaEntries) env.quorum with
  | none =>
    rw [hmeta] at hgo
    exact hgo
  | some w =>
    obtain ⟨ok, t⟩ := w
    rw [hmeta] at hgo
    cases ok with
    | false => exact hgo.put fun hself => goesOn_undo env.deleteExecuted hself
    | true => exact hgo

/-- A put behind its check. -/
theorem goesOn_place (env : PutEnv) (hp : s.puts i = some (.checked req))
    (hfree : isTransitioning s.chunkTable req.chunkId = false)
    (hsel : SelectsNodes req.desiredRf.toInt cl.nodes [] (env.nodes.map Prod.fst)) :
    let r := putChunk true cl.nodes s.chunkTable s.stores req env
    GoesOn cl req.chunkId (.put i) s (s.putLeft i r.chunkTable r.stores r.phase) := by
  have hs : s.step cl req.chunkId (.place i (env.nodes.map Prod.fst)) =
      some (s.putLeft i s.chunkTable s.stores
        (putPlace s.chunkTable req (env.nodes.map Prod.fst))) := by
    simp only [RaceState.step, hp]
    exact if_pos hsel
  have hgo := goesOn_of_step hs rfl rfl
  unfold putPlace at hgo
  by_cases hfew : (env.nodes.length : ℤ) < req.desiredRf.toInt
  · rw [if_pos (by simpa using hfew)] at hgo
    rw [putChunk, if_neg (by simp), if_neg (by simp [hfree]), if_pos hfew]
    exact hgo
  · rw [if_neg (by simpa using hfew)] at hgo
    rw [putChunk_admitted ⟨rfl, hfree, not_lt.mp hfew⟩]
    exact (hgo.put fun hself => goesOn_write hself).put fun hself => goesOn_log env hself

/-! Reconfigurations -/

variable {old new verified todo : List Str} {phase phase' : ReconfigPhase} {env : ReconfigEnv}
  {selected : List Str}

theorem goesOn_finished {ok : Bool} (hcall : s.reconfigs j = some ⟨old, v, new, .finished ok⟩) :
    GoesOn cl c id s (s.reconfigLeft j ⟨old, v, new, phase⟩ ⟨ok, s.chunkTable, s.stores⟩) := by
  have hs : s.reconfigLeft j ⟨old, v, new, phase⟩ ⟨ok, s.chunkTable, s.stores⟩ = s := by
    rw [RaceState.reconfigLeft, RaceState.setPhase, RaceState.setReconfig]
    dsimp only
    rw [← hcall, Function.update_eq_self]
  rw [hs]
  exact ⟨[], by simp, .nil⟩

/-- A reconfiguration goes on from where it has left the state. -/
theorem goesOn_setReconfig {r : ReconfigResult}
    (h : ∀ s₁ : RaceState, s₁.chunkTable = t → s₁.stores = ss →
      s₁.reconfigs j = some ⟨old, v, new, phase'⟩ →
      GoesOn cl c id s₁ (s₁.reconfigLeft j ⟨old, v, new, phase'⟩ r)) :
    GoesOn cl c id ({ s with chunkTable := t, stores := ss }.setReconfig j ⟨old, v, new, phase'⟩)
      (s.reconfigLeft j ⟨old, v, new, phase⟩ r) := by
  have hself := h ({ s with chunkTable := t, stores := ss }.setReconfig j ⟨old, v, new, phase'⟩)
    rfl rfl (Function.update_self ..)
  rwa [RaceState.setReconfig_reconfigLeft] at hself

theorem GoesOn.reconfig {r : ReconfigResult}
    (hs : s.step cl c a = some
      ({ s with chunkTable := t, stores := ss }.setReconfig j ⟨old, v, new, phase'⟩))
    (hop : a.opening = none) (how : a.owner = id)
    (h : ∀ s₁ : RaceState, s₁.chunkTable = t → s₁.stores = ss →
      s₁.reconfigs j = some ⟨old, v, new, phase'⟩ →
      GoesOn cl c id s₁ (s₁.reconfigLeft j ⟨old, v, new, phase'⟩ r)) :
    GoesOn cl c id s (s.reconfigLeft j ⟨old, v, new, phase⟩ r) :=
  (goesOn_of_step hs hop how).trans (goesOn_setReconfig h)

theorem goesOn_verifying (env : ReconfigEnv)
    (hcall : s.reconfigs j = some ⟨old, v, new, .verifying verified todo⟩) :
    GoesOn cl c (.reconfig j) s (s.reconfigLeft j ⟨old, v, new, phase⟩
      (ReconfigCall.verifyRest cl c v new s.chunkTable s.stores todo env)) := by
  induction todo generalizing s verified phase with
  | nil =>
    rw [ReconfigCall.verifyRest, if_neg (by simp [verifyReplicas])]
    rcases hmeta : metaWrite s.chunkTable (commitPayload c new) env.commitQuorum with
      _ | ⟨_ | _, t⟩
    pick_goal 3
    · have hs : s.step cl c (.commit j env.commitQuorum) =
          some ({ s with chunkTable := t }.setReconfig j ⟨old, v, new, .finished true⟩) := by
        simp only [RaceState.step, hcall, hmeta]
      exact .reconfig hs rfl rfl fun s₁ ht hss h₁ => ht ▸ hss ▸ goesOn_finished h₁
    -- the log write throws or misses its quorum
    all_goals
      have hs : s.step cl c (.commit j env.commitQuorum) =
          some (s.setReconfig j ⟨old, v, new, .finished false⟩) := by
        simp only [RaceState.step, hcall, hmeta]
      exact .reconfig hs rfl rfl fun s₁ ht hss h₁ => ht ▸ hss ▸ goesOn_finished h₁
  | cons entry todo ih =>
    have hs : s.step cl c (.verify j (env.verifies entry)) =
        some (s.setReconfig j ⟨old, v, new, ReconfigCall.verify cl c s.stores (env.verifies entry)
          ⟨old, v, new, .verifying verified (entry :: todo)⟩ verified entry todo⟩) := by
      simp only [RaceState.step, hcall]
      rfl
    rw [ReconfigCall.verify_eq] at hs
    rw [ReconfigCall.verifyRest_cons]
    split_ifs at hs ⊢
    · exact .reconfig hs rfl rfl fun s₁ ht hss h₁ => ht ▸ hss ▸ goesOn_finished h₁
    · exact .reconfig hs rfl rfl fun s₁ ht hss h₁ => ht ▸ hss ▸ ih h₁

theorem goesOn_copying (env : ReconfigEnv)
    (hcall : s.reconfigs j = some ⟨old, v, new, .copying todo none⟩) :
    GoesOn cl c (.reconfig j) s (s.reconfigLeft j ⟨old, v, new, phase⟩
      (ReconfigCall.copyRest cl c old v new s.chunkTable s.stores todo env)) := by
  induction todo generalizing s phase with
  | nil =>
    have hs : s.step cl c (.copied j) =
        some (s.setReconfig j ⟨old, v, new, .verifying [] new⟩) := by
      simp only [RaceState.step, hcall]
    exact .reconfig hs rfl rfl fun s₁ ht hss h₁ => ht ▸ hss ▸ goesOn_verifying env h₁
  | cons dst todo ih =>
    have hs : s.step cl c (.fetch j (env.copies dst).1) =
        some (s.setReconfig j ⟨old, v, new, ReconfigCall.fetch cl c s.stores (env.copies dst).1
          ⟨old, v, new, .copying (dst :: todo) none⟩ dst todo⟩) := by
      simp only [RaceState.step, hcall]
      rfl
    unfold ReconfigCall.fetch at hs
    rw [ReconfigCall.copyRest_cons]
    dsimp only at hs
    split_ifs at hs ⊢ with hid hbad
    · exact .reconfig hs rfl rfl fun s₁ ht hss h₁ => ht ▸ hss ▸ ih h₁
    · exact .reconfig hs rfl rfl fun s₁ ht hss h₁ => ht ▸ hss ▸ goesOn_finished h₁
    · cases hdata : fetchChunk (s.stores (copySource cl.nodes old)) c v with
      | none =>
        rw [hdata] at hs
        exact .reconfig hs rfl rfl fun s₁ ht hss h₁ => ht ▸ hss ▸ goesOn_finished h₁
      | some data =>
        rw [hdata] at hs
        refine .reconfig hs rfl rfl fun s₁ ht hss h₁ => ?_
        rw [← ht, ← hss]
        obtain ⟨ok, ss', hw⟩ : ∃ ok ss', writeChunkToReplica s₁.stores
          (resolveReplicaAddress cl.nodes dst) c v data (env.copies dst).2 = (ok, ss') := ⟨_, _, rfl⟩
        have hs₁ : s₁.step cl c (.copy j (env.copies dst).2) =
            some ({ s₁ with stores := ss' }.setReconfig j
              ⟨old, v, new, if ok then .copying todo none else .finished false⟩) := by
          simp only [RaceState.step, h₁, hw]
        simp only [ReconfigCall.rest, hw]
        cases ok with
        | false => exact .reconfig hs₁ rfl rfl fun s₂ ht hss h₂ => ht ▸ hss ▸ goesOn_finished h₂
        | true => exact .reconfig hs₁ rfl rfl fun s₂ ht hss h₂ => ht ▸ hss ▸ ih h₂

theorem goesOn_targeted (henv : env.On cl selected)
    (hcall : s.reconfigs j = some ⟨old, v, new, .targeted⟩) :
    GoesOn cl c (.reconfig j) s (s.reconfigLeft j ⟨old, v, new, phase⟩
      (ReconfigCall.rest cl c s.chunkTable s.stores env ⟨old, v, new, .targeted⟩)) := by
  unfold ReconfigCall.rest
  dsimp only
  rcases hmeta : metaWrite s.chunkTable (startPayload c old new) env.startQuorum with _ | ⟨_ | _, t⟩
  pick_goal 3
  · have hs : s.step cl c (.start j env.startQuorum) =
        some ({ s with chunkTable := t }.setReconfig j
          ⟨old, v, new, .copying (if old = [] then [] else new) none⟩) := by
      simp only [RaceState.step, hcall, hmeta]
    dsimp only
    rw [ReconfigCall.reconfigStarted_eq henv rfl rfl rfl]
    exact .reconfig hs rfl rfl fun s₁ ht hss h₁ => ht ▸ hss ▸ goesOn_copying env h₁
  all_goals
    have hs : s.step cl c (.start j env.startQuorum) =
        some (s.setReconfig j ⟨old, v, new, .finished false⟩) := by
      simp only [RaceState.step, hcall, hmeta]
    exact .reconfig hs rfl rfl fun s₁ ht hss h₁ => ht ▸ hss ▸ goesOn_finished h₁

end GoesOn

section Handlers

variable {cl : Cluster} {c : Str} {s₀ s s' : RaceState} {call : HandlerStep} {id : CallId}
  {t : ChunkTable} {ss : Stores}

/-- **The steps of a whole call**: the one that begins it, and others of the same call. -/
theorem steps_of_handle (h : s.handle cl c call = some s') :
    ∃ a s₁, a.opening = some call.opening ∧ s.step cl c a = some s₁ ∧
      GoesOn cl c call.opening.id s₁ s' := by
  cases call with
  | put i req env =>
    simp only [RaceState.handle] at h
    split_ifs at h with hg
    obtain ⟨hnone, rfl, hchosen⟩ := hg
    obtain rfl := Option.some.inj h
    have hs : s.step cl req.chunkId (.check i req) =
        some (s.putLeft i s.chunkTable s.stores (putCheck s.chunkTable req)) := if_pos ⟨hnone, rfl⟩
    refine ⟨.check i req, _, rfl, hs, ?_⟩
    cases hfree : isTransitioning s.chunkTable req.chunkId with
    | true =>
      rw [putCheck, if_pos hfree, putChunk, if_neg (by simp), if_pos hfree]
      exact ⟨[], by simp, .nil⟩
    | false =>
      rw [putCheck, if_neg (by simp [hfree])]
      have hself : (s.putLeft i s.chunkTable s.stores (.checked req)).puts i = some (.checked req) :=
        Function.update_self ..
      have hgo := goesOn_place env hself hfree (hchosen hfree)
      dsimp only at hgo
      rw [RaceState.putLeft_putLeft] at hgo
      exact hgo
  | reconfig j newRf incl excl env =>
    simp only [RaceState.handle] at h
    split_ifs at h with hg
    obtain ⟨hnone, henv, hsel⟩ := hg
    obtain rfl : s.reconfigLeft j _ _ = s' := Option.some.inj h
    have hs : s.step cl c (.begin j newRf incl excl env.selected) = some (s.setReconfig j
        (reconfigBegin cl s.chunkTable c newRf incl excl env.selected)) := if_pos ⟨hnone, hsel⟩
    refine ⟨.begin j newRf incl excl env.selected, _, rfl, hs, ?_⟩
    rw [reconfig_eq_rest henv]
    rcases reconfigBegin_cases cl s.chunkTable c newRf incl excl env.selected with
      hb | ⟨e, new, -, -, -, hb⟩
    · rw [hb]
      exact goesOn_setReconfig fun s₁ ht hss h₁ => ht ▸ hss ▸ goesOn_finished h₁
    · rw [hb]
      exact goesOn_setReconfig fun s₁ ht hss h₁ => ht ▸ hss ▸ goesOn_targeted henv h₁

/-- A whole call is over, and does not touch the others. -/
theorem over_iff_of_handle (h : s.handle cl c call = some s') :
    s'.Over id ↔ id = call.opening.id ∨ s.Over id := by
  by_cases hid : id = call.opening.id
  · refine iff_of_true ?_ (.inl hid)
    subst hid
    cases call with
    | put i req env =>
      simp only [RaceState.handle] at h
      split_ifs at h
      obtain rfl := Option.some.inj h
      intro p hp
      simp only [RaceState.setPut, Function.update_self, Option.mem_def, Option.some.injEq] at hp
      subst hp
      unfold PutResult.phase
      cases (putChunk true cl.nodes s.chunkTable s.stores req env).resp with
      | none => trivial
      | some resp => trivial
    | reconfig j newRf incl excl env =>
      simp only [RaceState.handle] at h
      split_ifs at h
      obtain rfl := Option.some.inj h
      intro p hp
      simp only [RaceState.setPhase, RaceState.setReconfig, Function.update_self, Option.mem_def,
        Option.some.injEq] at hp
      subst hp
      trivial
  · rw [or_iff_right hid]
    cases call with
    | put i req env =>
      simp only [RaceState.handle] at h
      split_ifs at h
      obtain rfl := Option.some.inj h
      exact over_iff_of_put rfl rfl (Ne.symm hid)
    | reconfig j newRf incl excl env =>
      simp only [RaceState.handle] at h
      split_ifs at h
      obtain rfl := Option.some.inj h
      exact over_iff_of_reconfig rfl rfl (Ne.symm hid)

/-- The handlers in one go are calls that nothing cuts into. -/
theorem exists_serial_of_handlers {calls : List HandlerStep}
    (h : (handlers cl c).Reach s₀ calls s) :
    ∃ tr, (race cl c).Reach s₀ tr s ∧ Serial tr ∧ (∀ a ∈ tr, s.Over a.owner) ∧
      tr.filterMap RaceStep.opening = calls.map HandlerStep.opening := by
  refine h.trace_invariant
    (I := fun calls s => ∃ tr, (race cl c).Reach s₀ tr s ∧ Serial tr ∧ (∀ a ∈ tr, s.Over a.owner) ∧
      tr.filterMap RaceStep.opening = calls.map HandlerStep.opening)
    ⟨[], .nil, .nil, by simp, rfl⟩ ?_
  rintro calls s call s' ⟨tr, hr, hserial, hover, hopen⟩ hs -
  obtain ⟨a, s₁, hop, hfirst, rest, hrest, hr'⟩ := steps_of_handle hs
  have hao : a.owner = call.opening.id := RaceStep.owner_of_opening hop
  have howner : ∀ b ∈ a :: rest, b.owner = call.opening.id := by
    intro b hb
    rcases List.mem_cons.mp hb with rfl | hb
    · exact hao
    · exact (hrest b hb).2
  have hnone : rest.filterMap RaceStep.opening = [] :=
    List.filterMap_eq_nil_iff.mpr fun b hb => (hrest b hb).1
  refine ⟨tr ++ a :: rest, hr.trans ((Machine.Run.nil.step hfirst trivial).trans hr'), ?_, ?_, ?_⟩
  · refine List.isChain_append.mpr ⟨hserial, ?_, fun x _ y hy => ?_⟩
    · refine List.Pairwise.isChain (List.pairwise_of_forall_mem_list ?_)
      exact fun x hx y hy => .inr ((howner y hy).trans (howner x hx).symm)
    · obtain rfl := Option.some.inj hy
      exact .inl (hop ▸ rfl)
  · intro b hb
    rw [over_iff_of_handle hs]
    rcases List.mem_append.mp hb with hb | hb
    · exact .inr (hover b hb)
    · exact .inl (howner b hb)
  · rw [List.filterMap_append, List.filterMap_cons_some hop, hnone, hopen, List.map_append]
    rfl

/-- **Calls that nothing cuts into are exactly the handlers in one go.** -/
theorem serial_calls_iff_in_one_go {openings : List Opening} :
    (∃ tr, (race cl c).Reach { chunkTable := t, stores := ss } tr s ∧ Serial tr ∧
      (∀ a ∈ tr, s.Over a.owner) ∧ tr.filterMap RaceStep.opening = openings) ↔
    ∃ calls, (handlers cl c).Reach { chunkTable := t, stores := ss } calls s ∧
      calls.map HandlerStep.opening = openings := by
  constructor
  · rintro ⟨tr, hr, hserial, hover, rfl⟩
    exact exists_handlers_of_serial hr hserial hover
  · rintro ⟨calls, hr, rfl⟩
    exact exists_serial_of_handlers hr

/-- A put, a move of its chunk, and a put that misses the quorum of its log write. -/
def putMovePut : List RaceStep :=
  onePut 0 ['x'] ++
    [.begin 0 1 ['m'] ['n'] [], .start 0 true, .fetch 0 .answered, .copy 0 .answered, .copied 0,
      .verify 0 .answered, .commit 0 true] ++
    [.check 1 ⟨['c'], 1, 1, ['y']⟩, .place 1 [['m']], .write 1 .answered, .log 1 false, .undo 1 true]

def putMovePutOver : RaceState := (race pairCluster ['c']).final (fun _ _ => True) {} putMovePut

theorem serial_calls_iff_in_one_go_put_move_put :
    ∃ calls, (handlers pairCluster ['c']).Reach {} calls putMovePutOver ∧
      calls.map HandlerStep.opening = [.put 0 ⟨['c'], 1, 1, ['x']⟩, .reconfig 0 1 ['m'] ['n'] [],
        .put 1 ⟨['c'], 1, 1, ['y']⟩] :=
  serial_calls_iff_in_one_go.mp
    ⟨putMovePut, Machine.run_final (by decide +kernel), by decide, by decide +kernel, rfl⟩

end Handlers

end NimbusVault
