import Mathlib.Data.List.Basic
import Mathlib.Data.List.Induction
import Mathlib.Tactic.Common

/-!
# Lib.Fold — folds of assignments

A sequence of operations on one cell, some of which assign it as a whole (absolute) and some of
which assign the same part of it each (relative): only the last absolute operation and the last
relative one behind it matter.  And: a fold of failing steps none of which fails is a plain fold; and
a fold over distinct keys whose steps each change their own part only leaves every part as its own
step does.
-/

namespace Lib

/-! ### The last writes -/

section LastWrites

variable {σ ω : Type*}

/-- Absolute operations do not look at the cell; a relative one hides a relative one before it. -/
structure Assigns (act : ω → σ → σ) (isAbs : ω → Bool) : Prop where
  absolute : ∀ o s s', isAbs o = true → act o s = act o s'
  relative : ∀ o o' s, isAbs o = false → isAbs o' = false → act o (act o' s) = act o s

/-- The last absolute operation, and the last relative one behind it. -/
def lastWrites (isAbs : ω → Bool) (l : List ω) : Option ω × Option ω :=
  l.foldl (fun w o => if isAbs o then (some o, none) else (w.1, some o)) (none, none)

/-- The effect of at most one operation after at most one other. -/
def lastEffect (act : ω → σ → σ) (w : Option ω × Option ω) (s : σ) : σ :=
  let s' := w.1.elim s (act · s)
  w.2.elim s' (act · s')

theorem lastWrites_concat (isAbs : ω → Bool) (l : List ω) (o : ω) : lastWrites isAbs (l ++ [o])
    = if isAbs o then (some o, none) else ((lastWrites isAbs l).1, some o) := by
  rw [lastWrites, List.foldl_concat, ← lastWrites]

theorem lastWrites_snd {isAbs : ω → Bool} {l : List ω} {o : ω} (h : (lastWrites isAbs l).2 = some o) :
    isAbs o = false := by
  induction l using List.reverseRecOn with
  | nil => simp [lastWrites] at h
  | append_singleton l o' =>
    rw [lastWrites_concat] at h
    split_ifs at h with ho
    obtain rfl := Option.some.inj h
    exact Bool.not_eq_true _ ▸ ho

theorem lastWrites_fst {isAbs : ω → Bool} {l : List ω} {o : ω} (h : (lastWrites isAbs l).1 = some o) :
    o ∈ l ∧ isAbs o = true := by
  induction l using List.reverseRecOn with
  | nil => simp [lastWrites] at h
  | append_singleton l o' ih =>
    rw [lastWrites_concat] at h
    split_ifs at h with ho
    · obtain rfl := Option.some.inj h
      exact ⟨by simp, ho⟩
    · exact ⟨List.mem_append_left _ (ih h).1, (ih h).2⟩

/-- **Only the last writes matter.** -/
theorem foldl_act {act : ω → σ → σ} {isAbs : ω → Bool} (h : Assigns act isAbs) (l : List ω) (s : σ) :
    l.foldl (fun s o => act o s) s = lastEffect act (lastWrites isAbs l) s := by
  induction l using List.reverseRecOn with
  | nil => rfl
  | append_singleton l o ih =>
    rw [List.foldl_concat, ih, lastWrites_concat]
    by_cases ho : isAbs o = true
    · rw [if_pos ho]
      exact h.absolute o _ _ ho
    · rw [if_neg ho]
      unfold lastEffect
      cases ho' : (lastWrites isAbs l).2 with
      | none => rfl
      | some o' => exact h.relative o o' _ (Bool.not_eq_true _ ▸ ho) (lastWrites_snd ho')

/-- **Going through a sequence a second time changes nothing.** -/
theorem foldl_act_twice {act : ω → σ → σ} {isAbs : ω → Bool} (h : Assigns act isAbs) (l : List ω)
    (s : σ) : l.foldl (fun s o => act o s) (l.foldl (fun s o => act o s) s)
      = l.foldl (fun s o => act o s) s := by
  simp only [foldl_act h]
  unfold lastEffect
  cases ha : (lastWrites isAbs l).1 with
  | some a =>
    -- the absolute operation forgets where the second pass started
    simp only [Option.elim_some]
    rw [h.absolute a _ s (lastWrites_fst ha).2]
  | none =>
    cases hr : (lastWrites isAbs l).2 with
    | none => rfl
    | some r => exact h.relative r r s (lastWrites_snd hr) (lastWrites_snd hr)

end LastWrites

/-! ### Steps that can fail -/

section Failing

variable {τ ε : Type*} {f : τ → ε → Option τ}

/-- A fold of steps that do not fail. -/
theorem foldlM_eq_foldl : ∀ {l : List ε}, (∀ e ∈ l, ∀ t, (f t e).isSome = true) → ∀ t,
    l.foldlM f t = some (l.foldl (fun t e => (f t e).getD t) t)
  | [], _, _ => rfl
  | e :: l, h, t => by
    obtain ⟨t', ht'⟩ := Option.isSome_iff_exists.mp (h e (by simp) t)
    rw [List.foldlM_cons, ht', List.foldl_cons, ht']
    exact foldlM_eq_foldl (fun x hx => h x (by simp [hx])) t'

/-- In a fold that came through, no step failed. -/
theorem isSome_of_foldlM (hf : ∀ e t t', (f t e).isSome = (f t' e).isSome) :
    ∀ {l : List ε} {t t' : τ}, l.foldlM f t = some t' → ∀ e ∈ l, ∀ t, (f t e).isSome = true
  | [], _, _, _, _, he => absurd he List.not_mem_nil
  | x :: l, t, t', h, e, he => by
    rw [List.foldlM_cons] at h
    obtain ⟨t₁, h₁, h⟩ := Option.bind_eq_some_iff.mp h
    intro u
    rcases List.mem_cons.mp he with rfl | he
    · rw [hf e u t, h₁]
      rfl
    · exact isSome_of_foldlM hf h e he u

end Failing

/-! ### Steps on parts of their own -/

section Parts

variable {τ κ π : Type*} {step : τ → κ → τ} {part : κ → τ → π} {P : τ → Prop} {l : List κ} {t : τ}

/-- Under the invariant `P`, the step for a key of `l` keeps `P` and changes only the key's own part. -/
structure OwnParts (step : τ → κ → τ) (part : κ → τ → π) (P : τ → Prop) (l : List κ) : Prop where
  keeps : ∀ t, ∀ k ∈ l, P t → P (step t k)
  frame : ∀ t, ∀ k ∈ l, P t → ∀ j, j ≠ k → part j (step t k) = part j t

theorem OwnParts.tail {k : κ} (h : OwnParts step part P (k :: l)) : OwnParts step part P l :=
  ⟨fun t j hj => h.keeps t j (List.mem_cons_of_mem k hj),
    fun t j hj => h.frame t j (List.mem_cons_of_mem k hj)⟩

theorem OwnParts.foldl_keeps (h : OwnParts step part P l) (ht : P t) : P (l.foldl step t) := by
  induction l generalizing t with
  | nil => exact ht
  | cons k l ih => exact ih h.tail (h.keeps t k List.mem_cons_self ht)

/-- Parts without a step stay. -/
theorem OwnParts.foldl_frame (h : OwnParts step part P l) (ht : P t) {j : κ} (hj : j ∉ l) :
    part j (l.foldl step t) = part j t := by
  induction l generalizing t with
  | nil => rfl
  | cons k l ih =>
    obtain ⟨hjk, hj⟩ := not_or.mp fun hm => hj (List.mem_cons.mpr hm)
    rw [List.foldl_cons, ih h.tail (h.keeps t k List.mem_cons_self ht) hj,
      h.frame t k List.mem_cons_self ht j hjk]

/-- **A part is left as its own step leaves it**, at a time when it was as in the beginning. -/
theorem OwnParts.foldl_part (h : OwnParts step part P l) (hnd : l.Nodup) (ht : P t) {k : κ}
    (hk : k ∈ l) : ∃ t₁, P t₁ ∧ part k t₁ = part k t ∧ part k (l.foldl step t) = part k (step t₁ k) := by
  induction l generalizing t with
  | nil => simp at hk
  | cons j l ih =>
    obtain ⟨hj, hnd⟩ := List.nodup_cons.mp hnd
    have hkeep : P (step t j) := h.keeps t j List.mem_cons_self ht
    rcases List.mem_cons.mp hk with rfl | hk
    · exact ⟨t, ht, rfl, h.tail.foldl_frame hkeep hj⟩
    · obtain ⟨t₁, ht₁, hpart, hfold⟩ := ih h.tail hnd hkeep hk
      have hne : k ≠ j := fun he => hj (he ▸ hk)
      exact ⟨t₁, ht₁, hpart.trans (h.frame t j List.mem_cons_self ht k hne), hfold⟩

end Parts

end Lib
