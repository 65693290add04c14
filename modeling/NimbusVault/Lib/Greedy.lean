import Mathlib.Data.List.MinMax
import Mathlib.Data.List.Nodup
import Mathlib.Data.List.Perm.Subperm
import Mathlib.Tactic.Common

/-!
# Lib.Greedy — repeated choice of the best

`greedy lt add n s xs` takes up to `n` elements of `xs`, each time the one at which a scan for the best
ends; the comparison may depend on a state that follows what was taken.  It need not be an order:
elements may have no value, as numbers that are not comparable, and then the scan keeps what it has.
If along the way the comparison is one of fixed values, the `n` best by `standing` are taken, which
puts an element without a value next to the least one before it (`greedy_eq_best_standing`).  With a
fixed score greedy choice is optimal: an element is taken exactly when fewer than `n` are ahead of it
(`mem_best_iff`).
-/

namespace Lib

variable {α β σ : Type*} [DecidableEq α] [LinearOrder β]

/-! ### A scan for the best -/

/-- The scan keeps its element until it meets a better one. -/
def maxElement (lt : α → α → Prop) [DecidableRel lt] : List α → Option α
  | [] => none
  | x :: xs => some (xs.foldl (fun best y => if lt best y then y else best) x)

section Scan

variable {lt lt' : α → α → Prop} [DecidableRel lt] [DecidableRel lt'] {xs : List α} {x m : α}

omit [DecidableEq α]

theorem maxElement_eq_none_iff : maxElement lt xs = none ↔ xs = [] := by
  cases xs <;> simp [maxElement]

/-- A list that is not empty has a best element. -/
theorem exists_mem_maxElement (lt : α → α → Prop) [DecidableRel lt] (h : xs ≠ []) :
    ∃ m, m ∈ maxElement lt xs :=
  Option.ne_none_iff_exists'.mp fun hnone => h (maxElement_eq_none_iff.mp hnone)

theorem maxElement_mem (h : m ∈ maxElement lt xs) : m ∈ xs := by
  cases xs with
  | nil => simp [maxElement] at h
  | cons x xs =>
    obtain rfl := Option.some.inj h
    refine List.foldlRecOn (motive := (· ∈ x :: xs)) xs _ List.mem_cons_self fun best hbest y hy => ?_
    split_ifs
    · exact List.mem_cons_of_mem x hy
    · exact hbest

/-- **Two comparisons that agree along the scan** find the same element; `I` holds of the elements that
the scan keeps. -/
theorem maxElement_congr (I : α → Prop) (hhead : I x)
    (h : ∀ c, I c → ∀ y ∈ xs, (lt c y ↔ lt' c y) ∧ (lt c y → I y)) :
    maxElement lt (x :: xs) = maxElement lt' (x :: xs) := by
  refine congrArg some ?_
  induction xs generalizing x with
  | nil => rfl
  | cons y ys ih =>
    obtain ⟨hiff, hkeep⟩ := h x hhead y List.mem_cons_self
    rw [List.foldl_cons, List.foldl_cons, if_congr hiff rfl rfl]
    refine ih ?_ fun c hc z hz => h c hc z (List.mem_cons_of_mem y hz)
    split_ifs with hlt
    · exact hkeep (hiff.mpr hlt)
    · exact hhead

/-- By a score, it is the first one with the best score. -/
theorem maxElement_score (f : α → β) : maxElement (fun a b => f a < f b) xs = xs.argmax f := by
  cases xs with
  | nil => rfl
  | cons x xs =>
    show some (xs.foldl _ x) = xs.foldl (List.argAux fun b c => f c < f b) (some x)
    induction xs generalizing x with
    | nil => rfl
    | cons y ys ih =>
      rw [List.foldl_cons, List.foldl_cons, ih]
      show _ = ys.foldl _ (if f x < f y then some y else some x)
      split_ifs <;> rfl

end Scan

/-! ### Choice by a comparison -/

/-- `add s x` is the state after `x` was taken. -/
def greedy (lt : σ → α → α → Prop) [∀ s, DecidableRel (lt s)] (add : σ → α → σ) :
    ℕ → σ → List α → List α
  | 0, _, _ => []
  | n + 1, s, xs =>
    match maxElement (lt s) xs with
    | none => []
    | some best => best :: greedy lt add n (add s best) (xs.erase best)

/-- The `n` best of a list by a fixed score, the first best one first. -/
def best (base : α → β) (n : ℕ) (xs : List α) : List α :=
  greedy (fun _ : Unit => fun a b => base a < base b) (fun _ _ => ()) n () xs

section Any

variable {lt : σ → α → α → Prop} [∀ s, DecidableRel (lt s)] {add : σ → α → σ} {base : α → β} {n : ℕ}
  {s : σ} {xs : List α} {m : α}

theorem greedy_nil : greedy lt add n s [] = [] := by
  cases n <;> rfl

theorem greedy_succ (h : m ∈ maxElement (lt s) xs) :
    greedy lt add (n + 1) s xs = m :: greedy lt add n (add s m) (xs.erase m) := by
  rw [greedy, Option.mem_def.mp h]

theorem greedy_subperm (lt : σ → α → α → Prop) [∀ s, DecidableRel (lt s)] (add : σ → α → σ) (n : ℕ)
    (s : σ) (xs : List α) : (greedy lt add n s xs).Subperm xs := by
  induction n generalizing s xs with
  | zero => exact List.nil_subperm
  | succ n ih =>
    by_cases hxs : xs = []
    · rw [hxs, greedy_nil]
    · obtain ⟨m, hm⟩ := exists_mem_maxElement (lt s) hxs
      rw [greedy_succ hm]
      have hperm : xs.Perm (m :: xs.erase m) := List.perm_cons_erase (maxElement_mem hm)
      exact ((List.subperm_cons m).mpr (ih _ _)).trans hperm.symm.subperm

theorem length_greedy (lt : σ → α → α → Prop) [∀ s, DecidableRel (lt s)] (add : σ → α → σ) (n : ℕ)
    (s : σ) (xs : List α) : (greedy lt add n s xs).length = min n xs.length := by
  induction n generalizing s xs with
  | zero => simp [greedy]
  | succ n ih =>
    by_cases hxs : xs = []
    · simp [hxs, greedy_nil]
    · obtain ⟨m, hm⟩ := exists_mem_maxElement (lt s) hxs
      have hmem : m ∈ xs := maxElement_mem hm
      have hpos : 0 < xs.length := List.length_pos_of_mem hmem
      rw [greedy_succ hm, List.length_cons, ih, List.length_erase_of_mem hmem]
      omega

omit [DecidableEq α] in
theorem exists_mem_argmax (f : α → β) (h : xs ≠ []) : ∃ m, m ∈ xs.argmax f :=
  Option.ne_none_iff_exists'.mp fun hnone => h (List.argmax_eq_none.mp hnone)

theorem best_succ (h : m ∈ xs.argmax base) : best base (n + 1) xs = m :: best base n (xs.erase m) :=
  greedy_succ (maxElement_score base ▸ h)

theorem best_nil : best base n [] = [] := greedy_nil

/-- **A comparison that finds the first best**, whatever was taken, chooses by the score. -/
theorem greedy_eq_best (P : σ → List α → Prop)
    (hscan : ∀ s xs, P s xs → maxElement (lt s) xs = xs.argmax base)
    (hstep : ∀ s xs m, P s xs → m ∈ xs.argmax base → P (add s m) (xs.erase m)) (hP : P s xs) :
    greedy lt add n s xs = best base n xs := by
  induction n generalizing s xs with
  | zero => rfl
  | succ n ih =>
    by_cases hxs : xs = []
    · rw [hxs, greedy_nil, best_nil]
    · obtain ⟨m, hm⟩ := exists_mem_argmax base hxs
      rw [greedy_succ (hscan s xs hP ▸ hm), best_succ hm, ih (hstep s xs m hP hm)]

end Any

/-! ### Places in a list -/

section Places

variable {xs rem : List α} {x y m : α}

/-- What stands before `x`. -/
theorem mem_takeWhile_ne_iff : m ∈ xs.takeWhile (· ≠ x) ↔ xs.idxOf m < xs.idxOf x := by
  induction xs with
  | nil => simp
  | cons a xs ih =>
    by_cases hax : a = x
    · simp [hax]
    · rw [List.takeWhile_cons_of_pos (by simpa using hax), List.mem_cons, ih, List.idxOf_cons_ne _ hax]
      by_cases ham : a = m
      · subst ham
        simp
      · rw [List.idxOf_cons_ne _ ham, Nat.succ_lt_succ_iff, or_iff_right (Ne.symm ham)]

/-- The head of a part of the list stands before the rest of the part. -/
theorem idxOf_lt_of_sublist (hsub : (x :: rem).Sublist xs) (hnd : xs.Nodup) (hy : y ∈ rem) :
    xs.idxOf x < xs.idxOf y := by
  obtain ⟨l₁, l₂, rfl, hx, hrem⟩ := List.cons_sublist_iff.mp hsub
  have hyl : y ∉ l₁ := fun hbad => (List.nodup_append.mp hnd).2.2 y hbad y (hrem.subset hy) rfl
  rw [List.idxOf_append_of_mem hx, List.idxOf_append_of_notMem hyl]
  exact (List.idxOf_lt_length_of_mem hx).trans_le (Nat.le_add_right _ _)

end Places

/-! ### Comparison of values -/

/-- An element without a value stands with the least value before it, or above all. -/
def standing (val : α → Option β) (xs : List α) (x : α) : WithTop β :=
  match val x with
  | some v => v
  | none => ((xs.takeWhile (· ≠ x)).filterMap val).minimum

/-- What is left of `xs` when some of the best have been taken. -/
structure LeftOf (base : α → β) (xs rem : List α) : Prop where
  sublist : rem.Sublist xs
  le : ∀ z ∈ xs, z ∉ rem → ∀ y ∈ rem, base y ≤ base z

section Standing

variable {val : α → Option β} {xs rem : List α} {x y m : α} {u : β}

theorem LeftOf.erase {base : α → β} (h : LeftOf base xs rem) (hm : m ∈ rem.argmax base) :
    LeftOf base xs (rem.erase m) := by
  refine ⟨List.erase_sublist.trans h.sublist, fun z hz hzr y hy => ?_⟩
  have hyr : y ∈ rem := List.mem_of_mem_erase hy
  by_cases hzm : z = m
  · exact hzm ▸ List.le_of_mem_argmax hyr hm
  · exact h.le z hz (fun hzr' => hzr ((List.mem_erase_of_ne hzm).mpr hzr')) y hyr

theorem standing_of_some (xs : List α) (h : val x = some u) : standing val xs x = u := by
  rw [standing, h]

theorem standing_of_none (h : val x = none) :
    standing val xs x = ((xs.takeWhile (· ≠ x)).filterMap val).minimum := by
  rw [standing, h]

/-- An element without a value stands below every value before it. -/
theorem standing_le (h : val x = none) (hy : y ∈ xs.takeWhile (· ≠ x)) (hu : val y = some u) :
    standing val xs x ≤ u := by
  rw [standing_of_none h]
  exact List.minimum_le_of_mem' (List.mem_filterMap.mpr ⟨y, hy, hu⟩)

/-- If the first of what is left has no value, the others stand no better: those before it in the list
are taken. -/
theorem LeftOf.standing_le_head (h : LeftOf (standing val xs) xs (x :: rem)) (hnd : xs.Nodup)
    (hx : val x = none) (hy : y ∈ rem) : standing val xs y ≤ standing val xs x := by
  rw [standing_of_none hx]
  refine List.le_minimum_of_forall_le fun u hu => ?_
  obtain ⟨z, hz, hzu⟩ := List.mem_filterMap.mp hu
  have hzx : xs.idxOf z < xs.idxOf x := mem_takeWhile_ne_iff.mp hz
  have hzrem : z ∉ x :: rem := by
    rintro (_ | ⟨_, hzr⟩)
    · exact lt_irrefl _ hzx
    · exact lt_asymm hzx (idxOf_lt_of_sublist h.sublist hnd hzr)
  rw [← standing_of_some xs hzu]
  exact h.le z ((List.takeWhile_prefix _).subset hz) hzrem y (List.mem_cons_of_mem x hy)

/-- **The scan of what is left** ends at the first that stands best. -/
theorem maxElement_eq_argmax {lt : α → α → Prop} [DecidableRel lt] (hnd : xs.Nodup)
    (hleft : LeftOf (standing val xs) xs rem)
    (hlt : ∀ a ∈ rem, ∀ b ∈ rem, lt a b ↔ ∃ u v, val a = some u ∧ val b = some v ∧ u < v) :
    maxElement lt rem = rem.argmax (standing val xs) := by
  rw [← maxElement_score]
  cases rem with
  | nil => rfl
  | cons x rem =>
    cases hx : val x with
    | none =>
      -- nothing is better than the first element, so the scan keeps it
      refine maxElement_congr (· = x) rfl fun c hc y hy => ?_
      subst hc
      have hno : ¬ lt c y := fun h => by
        obtain ⟨u, v, hu, -⟩ := (hlt c List.mem_cons_self y (List.mem_cons_of_mem c hy)).mp h
        rw [hx] at hu
        simp at hu
      exact ⟨iff_of_false hno (not_lt.mpr (hleft.standing_le_head hnd hx hy)),
        fun h => absurd h hno⟩
    | some u =>
      -- the scan keeps elements with values, from that of the first one on
      refine maxElement_congr (fun c => c ∈ x :: rem ∧ ∃ v, val c = some v ∧ u ≤ v)
        ⟨List.mem_cons_self, u, hx, le_rfl⟩ ?_
      rintro c ⟨hc, v, hv, huv⟩ y hy
      have hyrem : y ∈ x :: rem := List.mem_cons_of_mem x hy
      rw [hlt c hc y hyrem, standing_of_some xs hv]
      cases hw : val y with
      | none =>
        have hxy : x ∈ xs.takeWhile (· ≠ y) :=
          mem_takeWhile_ne_iff.mpr (idxOf_lt_of_sublist hleft.sublist hnd hy)
        have hle : standing val xs y ≤ v :=
          (standing_le hw hxy hx).trans (WithTop.coe_le_coe.mpr huv)
        simp [not_lt.mpr hle]
      | some w =>
        rw [standing_of_some xs hw, WithTop.coe_lt_coe]
        constructor
        · simp [hv]
        · rintro ⟨v', w', hv', hw', hlt'⟩
          obtain rfl := Option.some.inj (hv.symm.trans hv')
          obtain rfl := Option.some.inj hw'
          exact ⟨hyrem, w, rfl, huv.trans hlt'.le⟩

/-- **Choice by values** takes those that stand best; `P` is kept by what is taken. -/
theorem greedy_eq_best_standing {lt : σ → α → α → Prop} [∀ s, DecidableRel (lt s)] {add : σ → α → σ}
    {n : ℕ} {s : σ} (P : σ → List α → Prop)
    (hlt : ∀ s rem, P s rem → ∀ a ∈ rem, ∀ b ∈ rem,
      lt s a b ↔ ∃ u v, val a = some u ∧ val b = some v ∧ u < v)
    (hstep : ∀ s rem, P s rem → ∀ m ∈ rem, P (add s m) (rem.erase m)) (hnd : xs.Nodup)
    (hP : P s xs) : greedy lt add n s xs = best (standing val xs) n xs := by
  refine greedy_eq_best (fun s rem => P s rem ∧ LeftOf (standing val xs) xs rem) ?_ ?_
    ⟨hP, .refl xs, fun z hz hzr => absurd hz hzr⟩
  · exact fun s rem h => maxElement_eq_argmax hnd h.2 (hlt s rem h.1)
  · exact fun s rem m h hm => ⟨hstep s rem h.1 m (List.argmax_mem hm), h.2.erase hm⟩

end Standing

/-! ### A fixed score -/

/-- How many are better than `x`, or as good and earlier in the list. -/
def ahead (base : α → β) (xs : List α) (x : α) : ℕ :=
  xs.countP (base x < base ·) + (xs.takeWhile (· ≠ x)).countP (base · = base x)

section Best

variable {base : α → β} {n : ℕ} {xs : List α} {m x y : α}

theorem takeWhile_erase (h : m ≠ x) :
    (xs.erase m).takeWhile (· ≠ x) = (xs.takeWhile (· ≠ x)).erase m := by
  induction xs with
  | nil => rfl
  | cons a xs ih =>
    by_cases ham : a = m
    · subst ham
      rw [List.erase_cons_head, List.takeWhile_cons_of_pos (by simpa using h), List.erase_cons_head]
    · rw [List.erase_cons_tail (by simpa using ham)]
      by_cases hax : a = x
      · simp [hax]
      · rw [List.takeWhile_cons_of_pos (by simpa using hax),
          List.takeWhile_cons_of_pos (by simpa using hax), List.erase_cons_tail (by simpa using ham), ih]

theorem countP_erase_of_pos {p : α → Bool} (hm : m ∈ xs) (h : p m = true) :
    xs.countP p = (xs.erase m).countP p + 1 := by
  rw [(List.perm_cons_erase hm).countP_eq, List.countP_cons_of_pos h]

theorem countP_erase_of_neg {p : α → Bool} (h : ¬ p m = true) :
    xs.countP p = (xs.erase m).countP p := by
  by_cases hm : m ∈ xs
  · rw [(List.perm_cons_erase hm).countP_eq, List.countP_cons_of_neg h]
  · rw [List.erase_of_not_mem hm]

/-- Nothing is ahead of the best. -/
theorem ahead_argmax (h : m ∈ xs.argmax base) : ahead base xs m = 0 := by
  have hbetter : xs.countP (base m < base ·) = 0 := by
    refine List.countP_eq_zero.mpr fun a ha => ?_
    simpa using List.le_of_mem_argmax ha h
  have hearlier : (xs.takeWhile (· ≠ m)).countP (base · = base m) = 0 := by
    refine List.countP_eq_zero.mpr fun a ha => ?_
    have hmem : a ∈ xs := (List.takeWhile_prefix _).subset ha
    intro heq
    exact absurd (mem_takeWhile_ne_iff.mp ha)
      (not_lt.mpr (List.index_of_argmax h hmem (of_decide_eq_true heq).ge))
  rw [ahead, hbetter, hearlier]

/-- Taking the best moves every other element up by one. -/
theorem ahead_erase (h : m ∈ xs.argmax base) (hx : x ∈ xs) (hmx : m ≠ x) :
    ahead base xs x = ahead base (xs.erase m) x + 1 := by
  have hm : m ∈ xs := List.argmax_mem h
  rw [ahead, ahead, takeWhile_erase hmx]
  by_cases hlt : base x < base m
  · rw [countP_erase_of_pos hm (decide_eq_true hlt),
      countP_erase_of_neg (p := fun y => base y = base x) (by simpa using hlt.ne')]
    omega
  · -- as good, and the first one that is
    have heq : base m = base x := le_antisymm (not_lt.mp hlt) (List.le_of_mem_argmax hx h)
    have hidx : xs.idxOf m < xs.idxOf x :=
      lt_of_le_of_ne (List.index_of_argmax h hx heq.le) fun hi => hmx ((List.idxOf_inj hm).mp hi)
    rw [countP_erase_of_neg (p := fun y => base x < base y) (by simpa using hlt),
      countP_erase_of_pos (mem_takeWhile_ne_iff.mpr hidx) (decide_eq_true heq)]
    omega

/-- **Which elements are taken**: those with fewer than `n` ahead of them. -/
theorem mem_best_iff (hnd : xs.Nodup) : x ∈ best base n xs ↔ x ∈ xs ∧ ahead base xs x < n := by
  induction n generalizing xs with
  | zero => simp [best, greedy]
  | succ n ih =>
    by_cases hxs : xs = []
    · simp [hxs, best_nil]
    · obtain ⟨m, hm⟩ := exists_mem_argmax base hxs
      rw [best_succ hm, List.mem_cons, ih (hnd.erase m), hnd.mem_erase_iff]
      by_cases hxm : x = m
      · subst hxm
        exact iff_of_true (.inl rfl) ⟨List.argmax_mem hm, by rw [ahead_argmax hm]; exact n.succ_pos⟩
      · rw [or_iff_right hxm]
        constructor
        · rintro ⟨⟨-, hx⟩, hlt⟩
          exact ⟨hx, by rw [ahead_erase hm hx (Ne.symm hxm)]; omega⟩
        · rintro ⟨hx, hlt⟩
          rw [ahead_erase hm hx (Ne.symm hxm)] at hlt
          exact ⟨⟨hxm, hx⟩, by omega⟩

/-- **Greedy choice is optimal**: nothing that is left is better than what was taken. -/
theorem le_of_mem_best (hx : x ∈ best base n xs) (hy : y ∈ xs) (hny : y ∉ best base n xs) :
    base y ≤ base x := by
  induction n generalizing xs with
  | zero => simp [best, greedy] at hx
  | succ n ih =>
    have hxs : xs ≠ [] := List.ne_nil_of_mem hy
    obtain ⟨m, hm⟩ := exists_mem_argmax base hxs
    rw [best_succ hm] at hx hny
    obtain ⟨hym, hny⟩ := not_or.mp fun h => hny (List.mem_cons.mpr h)
    rcases List.mem_cons.mp hx with rfl | hx
    · exact List.le_of_mem_argmax hy hm
    · exact ih hx ((List.mem_erase_of_ne hym).mpr hy) hny

end Best

end Lib
