import Mathlib.Data.List.Basic
import Mathlib.Order.Defs.PartialOrder
import Mathlib.Tactic.Common

/-!
# Lib.Machine — guarded machines and their runs

A `Machine` has a decidable guard and a total successor: the action `a` may fire in `s` when
`M.guard s a`, and leads to `M.next s a`.  Everything nondeterministic (the choice of a party, the
fate of a message, a failing disk) sits in the action.  `M.Run ok s₀ tr s` is a run from `s₀` to `s`
along the trace `tr` whose every step meets the side condition `ok`; `fun _ _ => True` gives the
plain runs.
-/

namespace Lib

/-- A labelled transition system with a guard and a successor function. -/
structure Machine (σ α : Type*) where
  guard : σ → α → Prop
  next : σ → α → σ

namespace Machine

variable {σ α : Type*} (M : Machine σ α)

/-- Runs from `s₀` in which every step is enabled and meets `ok`. -/
inductive Run (ok : σ → α → Prop) (s₀ : σ) : List α → σ → Prop
  | nil : Run ok s₀ [] s₀
  | snoc {tr : List α} {s : σ} {a : α} : Run ok s₀ tr s → M.guard s a → ok s a →
      Run ok s₀ (tr ++ [a]) (M.next s a)

/-- The plain runs. -/
abbrev Reach (s₀ : σ) (tr : List α) (s : σ) : Prop := M.Run (fun _ _ => True) s₀ tr s

variable {M} {ok ok' : σ → α → Prop} {s₀ : σ}

/-- A side condition that holds along the run may be replaced. -/
theorem Run.imp (hok : ∀ tr s a, M.Run ok s₀ tr s → ok s a → ok' s a) {tr : List α} {s : σ}
    (h : M.Run ok s₀ tr s) : M.Run ok' s₀ tr s := by
  induction h with
  | nil => exact .nil
  | @snoc tr s a h hg hk ih => exact .snoc ih hg (hok tr s a h hk)

theorem Run.mono (hok : ∀ s a, ok s a → ok' s a) {tr : List α} {s : σ} (h : M.Run ok s₀ tr s) :
    M.Run ok' s₀ tr s :=
  h.imp fun _ s a _ => hok s a

theorem Run.reach {tr : List α} {s : σ} (h : M.Run ok s₀ tr s) : M.Reach s₀ tr s :=
  h.mono fun _ _ _ => trivial

/-- **Invariant rule.**  What holds initially and is kept by every step that meets `ok` holds in
every state of such a run. -/
theorem Run.invariant {I : σ → Prop} (h0 : I s₀)
    (hstep : ∀ s a, I s → M.guard s a → ok s a → I (M.next s a)) {tr : List α} {s : σ}
    (h : M.Run ok s₀ tr s) : I s := by
  induction h with
  | nil => exact h0
  | snoc _ hg hk ih => exact hstep _ _ ih hg hk

/-- The last step of a run. -/
theorem Run.concat_inv {tr : List α} {a : α} {s' : σ} (h : M.Run ok s₀ (tr ++ [a]) s') :
    ∃ s, M.Run ok s₀ tr s ∧ M.guard s a ∧ ok s a ∧ s' = M.next s a := by
  generalize heq : tr ++ [a] = tr' at h
  cases h with
  | nil => simp at heq
  | @snoc tr₁ s a₁ h hg hk =>
    obtain ⟨rfl, ha⟩ := List.append_inj' heq rfl
    obtain rfl := List.singleton_inj.mp ha
    exact ⟨s, h, hg, hk, rfl⟩

/-- A trace leads to one state. -/
theorem Run.state_eq {tr : List α} {s t : σ} (h : M.Run ok s₀ tr s) (h' : M.Run ok' s₀ tr t) :
    s = t := by
  induction h generalizing t with
  | nil =>
    generalize hnil : ([] : List α) = tr at h'
    cases h' with
    | nil => rfl
    | snoc => simp at hnil
  | snoc _ _ _ ih =>
    obtain ⟨t₁, h₁, -, -, rfl⟩ := h'.concat_inv
    rw [ih h₁]

/-- Two runs, one after the other. -/
theorem Run.trans {tr tr' : List α} {s t : σ} (h : M.Run ok s₀ tr s) (h' : M.Run ok s tr' t) :
    M.Run ok s₀ (tr ++ tr') t := by
  induction h' with
  | nil => rwa [List.append_nil]
  | snoc _ hg hk ih =>
    rw [← List.append_assoc]
    exact ih.snoc hg hk

/-- The beginning of a run. -/
theorem Run.exists_prefix {tr pre : List α} {s : σ} (h : M.Run ok s₀ tr s) (hpre : pre <+: tr) :
    ∃ t, M.Run ok s₀ pre t := by
  induction h with
  | nil =>
    obtain rfl := List.prefix_nil.mp hpre
    exact ⟨s₀, .nil⟩
  | snoc h hg hk ih =>
    rcases List.prefix_concat_iff.mp hpre with rfl | hpre
    · exact ⟨_, h.snoc hg hk⟩
    · exact ih hpre

/-- A run meets `ok` exactly when each of its steps does, where it is taken. -/
theorem Run.iff_forall_step {tr : List α} {s : σ} (h : M.Reach s₀ tr s) :
    M.Run ok s₀ tr s ↔ ∀ pre a t, pre ++ [a] <+: tr → M.Reach s₀ pre t → ok t a := by
  constructor
  · intro hrun pre a t hpre ht
    obtain ⟨_, hstep⟩ := hrun.exists_prefix hpre
    obtain ⟨t₁, h₁, -, hk, -⟩ := hstep.concat_inv
    exact h₁.state_eq ht ▸ hk
  · intro hall
    induction h with
    | nil => exact .nil
    | @snoc tr s a h hg _ ih =>
      refine (ih fun pre b t hpre => hall pre b t (hpre.trans (List.prefix_append _ _))).snoc hg ?_
      exact hall tr a s List.prefix_rfl h

/-- **Exact side condition.**  When a step keeps `I` exactly if it meets `ok`, then `I` holds all
along a run exactly if every step of it meets `ok`. -/
theorem Run.always_iff {I : σ → Prop} (h0 : I s₀)
    (hstep : ∀ s a, I s → M.guard s a → (I (M.next s a) ↔ ok s a)) {tr : List α} {s : σ}
    (h : M.Reach s₀ tr s) :
    (∀ pre t, pre <+: tr → M.Reach s₀ pre t → I t) ↔ M.Run ok s₀ tr s := by
  constructor
  · intro hall
    induction h with
    | nil => exact .nil
    | @snoc tr s a h hg _ ih =>
      have hrun := ih fun pre t hpre => hall pre t (hpre.trans (List.prefix_append _ _))
      have hs : I s := hall tr s (List.prefix_append _ _) h
      exact hrun.snoc hg ((hstep s a hs hg).mp (hall _ _ List.prefix_rfl (h.snoc hg trivial)))
  · intro hrun pre t hpre ht
    obtain ⟨t₁, h₁⟩ := hrun.exists_prefix hpre
    exact h₁.state_eq ht ▸ h₁.invariant h0 fun s a hs hg => (hstep s a hs hg).mpr

/-! ### Machines of a partial step -/

/-- The machine of a partial step function: an action fires where the step is defined. -/
def ofStep (f : σ → α → Option σ) : Machine σ α where
  guard s a := (f s a).isSome = true
  next s a := (f s a).getD s

instance (f : σ → α → Option σ) (s : σ) (a : α) : Decidable ((ofStep f).guard s a) :=
  inferInstanceAs (Decidable (_ = true))

theorem ofStep_next {f : σ → α → Option σ} {s s' : σ} {a : α} (hs : f s a = some s') :
    (ofStep f).next s a = s' := by
  show (f s a).getD s = s'
  rw [hs]
  rfl

/-- A run goes on with a step that is defined. -/
theorem Run.step {f : σ → α → Option σ} {tr : List α} {s s' : σ} {a : α}
    (h : (ofStep f).Run ok s₀ tr s) (hs : f s a = some s') (hok : ok s a) :
    (ofStep f).Run ok s₀ (tr ++ [a]) s' :=
  ofStep_next hs ▸ h.snoc (Option.isSome_iff_exists.mpr ⟨s', hs⟩) hok

/-- The invariant rule for a partial step, of a property that looks at the trace too. -/
theorem Run.trace_invariant {f : σ → α → Option σ} {I : List α → σ → Prop} (h0 : I [] s₀)
    (hstep : ∀ tr s a s', I tr s → f s a = some s' → ok s a → I (tr ++ [a]) s') {tr : List α} {s : σ}
    (h : (ofStep f).Run ok s₀ tr s) : I tr s := by
  induction h with
  | nil => exact h0
  | @snoc tr s a _ hg hk ih =>
    obtain ⟨s', hs'⟩ := Option.isSome_iff_exists.mp hg
    rw [ofStep_next hs']
    exact hstep tr s a s' ih hs' hk

/-- The invariant rule for a partial step. -/
theorem Run.invariant_step {f : σ → α → Option σ} {I : σ → Prop} (h0 : I s₀)
    (hstep : ∀ s a s', I s → f s a = some s' → ok s a → I s') {tr : List α} {s : σ}
    (h : (ofStep f).Run ok s₀ tr s) : I s :=
  h.trace_invariant (I := fun _ => I) h0 fun _ => hstep

/-- **Projection.**  Where every step is a step of another machine or leaves its state alone, a run
of the one is a run of the other. -/
theorem Run.project {τ β : Type*} {f : σ → α → Option σ} {g : τ → β → Option τ} {p : σ → τ}
    (hstep : ∀ s a s', f s a = some s' → p s' = p s ∨ ∃ b, g (p s) b = some (p s'))
    {tr : List α} {s : σ} (h : (ofStep f).Run ok s₀ tr s) :
    ∃ tr', (ofStep g).Reach (p s₀) tr' (p s) := by
  refine h.invariant_step (I := fun s => ∃ tr', (ofStep g).Reach (p s₀) tr' (p s)) ⟨[], .nil⟩ ?_
  rintro s a s' ⟨tr', hr⟩ hs -
  rcases hstep s a s' hs with he | ⟨b, hb⟩
  · exact ⟨tr', he ▸ hr⟩
  · exact ⟨tr' ++ [b], hr.step hb trivial⟩

/-- **Restriction.**  Where another machine matches the steps that are kept and the dropped ones do
not show in its state, the kept steps of a run are a run of that machine. -/
theorem Run.restrict {τ : Type*} {f : σ → α → Option σ} {g : τ → α → Option τ} {R : σ → τ → Prop}
    {ok' : τ → α → Prop} {keep : α → Bool} {t₀ : τ} (h0 : R s₀ t₀)
    (hkeep : ∀ s t a s', R s t → f s a = some s' → ok s a → keep a = true →
      ok' t a ∧ ∃ t', g t a = some t' ∧ R s' t')
    (hdrop : ∀ s t a s', R s t → f s a = some s' → ok s a → keep a = false → R s' t)
    {tr : List α} {s : σ} (h : (ofStep f).Run ok s₀ tr s) :
    ∃ t, (ofStep g).Run ok' t₀ (tr.filter keep) t ∧ R s t := by
  refine h.trace_invariant
    (I := fun tr s => ∃ t, (ofStep g).Run ok' t₀ (tr.filter keep) t ∧ R s t) ⟨t₀, .nil, h0⟩ ?_
  rintro tr s a s' ⟨t, hr, hR⟩ hs hk
  cases ha : keep a with
  | true =>
    obtain ⟨hk', t', ht, hR'⟩ := hkeep s t a s' hR hs hk ha
    rw [List.filter_append, List.filter_singleton, ha]
    exact ⟨t', hr.step ht hk', hR'⟩
  | false =>
    rw [List.filter_append, List.filter_singleton, ha]
    exact ⟨t, (List.append_nil (tr.filter keep)).symm ▸ hr, hdrop s t a s' hR hs hk ha⟩

/-- The exact side condition of a partial step. -/
theorem Run.always_step_iff {f : σ → α → Option σ} {I : σ → Prop} (h0 : I s₀)
    (hstep : ∀ s a s', I s → f s a = some s' → (I s' ↔ ok s a)) {tr : List α} {s : σ}
    (h : (ofStep f).Reach s₀ tr s) :
    (∀ pre t, pre <+: tr → (ofStep f).Reach s₀ pre t → I t) ↔ (ofStep f).Run ok s₀ tr s := by
  refine h.always_iff h0 fun s a hs hg => ?_
  obtain ⟨s', hs'⟩ := Option.isSome_iff_exists.mp hg
  rw [ofStep_next hs']
  exact hstep s a s' hs hs'

/-- The same of a property that no step restores: it holds at the end exactly if it held all along. -/
theorem Run.last_step_iff {f : σ → α → Option σ} {I : σ → Prop} (h0 : I s₀)
    (hback : ∀ s a s', f s a = some s' → I s' → I s)
    (hstep : ∀ s a s', I s → f s a = some s' → (I s' ↔ ok s a)) {tr : List α} {s : σ}
    (h : (ofStep f).Reach s₀ tr s) : I s ↔ (ofStep f).Run ok s₀ tr s := by
  constructor
  · intro hlast
    induction h with
    | nil => exact .nil
    | @snoc tr s a h hg _ ih =>
      obtain ⟨s', hs'⟩ := Option.isSome_iff_exists.mp hg
      rw [ofStep_next hs'] at hlast ⊢
      have hs : I s := hback s a s' hs' hlast
      exact (ih hs).step hs' ((hstep s a s' hs hs').mp hlast)
  · exact fun hrun => hrun.invariant_step h0 fun s a s' hs hs' => (hstep s a s' hs hs').mpr

/-- **Monotone measures.**  What no step decreases is at the end what it was at the start exactly if
every step leaves it as it is. -/
theorem Run.measure_eq_iff {P : Type*} [PartialOrder P] {f : σ → α → Option σ} {μ : σ → P}
    (hmono : ∀ s a s', f s a = some s' → μ s ≤ μ s')
    (hstep : ∀ s a s', f s a = some s' → (μ s' = μ s ↔ ok s a)) {tr : List α} {s : σ}
    (h : (ofStep f).Reach s₀ tr s) :
    μ s₀ ≤ μ s ∧ (μ s = μ s₀ ↔ (ofStep f).Run ok s₀ tr s) := by
  have hle : ∀ {tr s}, (ofStep f).Reach s₀ tr s → μ s₀ ≤ μ s := fun h =>
    h.invariant_step (I := fun s => μ s₀ ≤ μ s) le_rfl fun s a s' hs hs' _ => le_trans hs (hmono s a s' hs')
  refine ⟨hle h, ?_⟩
  induction h with
  | nil => exact iff_of_true rfl .nil
  | @snoc tr s a h hg _ ih =>
    obtain ⟨s', hs'⟩ := Option.isSome_iff_exists.mp hg
    rw [ofStep_next hs']
    constructor
    · intro heq
      have hback : μ s = μ s₀ := le_antisymm (heq ▸ hmono s a s' hs') (hle h)
      exact (ih.mp hback).step hs' ((hstep s a s' hs').mp (heq.trans hback.symm))
    · intro hrun
      obtain ⟨t, ht, -, hk, -⟩ := hrun.concat_inv
      obtain rfl : s = t := h.state_eq ht
      exact ((hstep s a s' hs').mpr hk).trans (ih.mpr ht)

/-! ### Executing a trace -/

section Exec

variable (M) [∀ s a, Decidable (M.guard s a)] (ok) [∀ s a, Decidable (ok s a)]

/-- Play a trace, checking the guard and the side condition of every step. -/
def exec : σ → List α → Option σ
  | s, [] => some s
  | s, a :: tr => if M.guard s a ∧ ok s a then exec (M.next s a) tr else none

variable {M ok}

theorem Run.exec_append {tr : List α} {s : σ} (h : M.Run ok s₀ tr s) :
    ∀ {tr' : List α} {s' : σ}, M.exec ok s tr' = some s' → M.Run ok s₀ (tr ++ tr') s'
  | [], s', he => by
    simp only [exec, Option.some.injEq] at he
    subst he
    simpa using h
  | a :: tr', s', he => by
    simp only [exec] at he
    split_ifs at he with hg
    have := (Run.snoc h hg.1 hg.2).exec_append he
    simpa using this

theorem run_of_exec {tr : List α} {s : σ} (h : M.exec ok s₀ tr = some s) : M.Run ok s₀ tr s := by
  have h0 : M.Run ok s₀ [] s₀ := .nil
  simpa using h0.exec_append h

variable (M ok) in
/-- Where a playable trace leads. -/
def final (s₀ : σ) (tr : List α) : σ := (M.exec ok s₀ tr).getD s₀

theorem run_final {tr : List α} (h : (M.exec ok s₀ tr).isSome = true) :
    M.Run ok s₀ tr (M.final ok s₀ tr) := by
  obtain ⟨s, hs⟩ := Option.isSome_iff_exists.mp h
  rw [final, hs]
  exact run_of_exec hs

end Exec

end Machine

end Lib
