import Mathlib.Logic.Hydra
import Mathlib.Data.List.Basic
import Mathlib.Tactic.Common

/-!
# Lib.Worklist — depth-first search with an explicit stack

`search next hwf goal stack` pops a state, succeeds at one that meets `goal`, and otherwise pushes the
state's successors.  Nothing remembers the states that were seen, so a state may come up many times;
the search ends because `next` goes down a well-founded relation, and the stack with it in the order
of multisets.  `search_iff` says that it finds a goal exactly when one can be reached.
-/

namespace Lib

open scoped List

variable {σ : Type*} {next : σ → List σ}

/-- Replacing a state by its successors makes the stack smaller. -/
theorem cutExpand_push (s : σ) (stack : List σ) :
    Relation.CutExpand (fun t s => t ∈ next s) (((next s).reverse ++ stack : List σ) : Multiset σ)
      ((s :: stack : List σ) : Multiset σ) := by
  refine ⟨(next s : Multiset σ), s, fun t ht => ht, ?_⟩
  rw [← Multiset.coe_singleton, Multiset.coe_add, Multiset.coe_add, Multiset.coe_eq_coe]
  calc (next s).reverse ++ stack ++ [s]
      _ ~ s :: ((next s).reverse ++ stack) := List.perm_append_singleton _ _
      _ ~ s :: (stack ++ (next s).reverse) := List.perm_append_comm.cons s
      _ ~ s :: (stack ++ next s) := ((List.reverse_perm _).append_left stack).cons s

/-- The successors come in the order in which they are pushed; the head of `stack` is its top. -/
def search (next : σ → List σ) (hwf : WellFounded fun t s => t ∈ next s) (goal : σ → Bool) :
    List σ → Bool
  | [] => false
  | s :: stack => if goal s then true else search next hwf goal ((next s).reverse ++ stack)
termination_by stack => hwf.cutExpand.wrap (stack : Multiset σ)
decreasing_by exact cutExpand_push s stack

/-- `t` comes up in a search that begins at `s`. -/
abbrev Reaches (next : σ → List σ) : σ → σ → Prop := Relation.ReflTransGen fun s t => t ∈ next s

/-- **A depth-first search finds a goal** exactly when one can be reached from the stack. -/
theorem search_iff (hwf : WellFounded fun t s => t ∈ next s) (goal : σ → Bool) (stack : List σ) :
    search next hwf goal stack = true ↔ ∃ s ∈ stack, ∃ t, Reaches next s t ∧ goal t = true := by
  induction stack using search.induct next hwf goal with
  | case1 => simp [search]
  | case2 s stack hgoal =>
    rw [search, if_pos hgoal]
    exact iff_of_true rfl ⟨s, List.mem_cons_self, s, .refl, hgoal⟩
  | case3 s stack hgoal ih =>
    rw [search, if_neg hgoal, ih]
    constructor
    · rintro ⟨t, ht, u, htu, hu⟩
      rcases List.mem_append.mp ht with ht | ht
      · exact ⟨s, List.mem_cons_self, u, htu.head (List.mem_reverse.mp ht), hu⟩
      · exact ⟨t, List.mem_cons_of_mem s ht, u, htu, hu⟩
    · rintro ⟨t, ht, u, htu, hu⟩
      rcases List.mem_cons.mp ht with rfl | ht
      · rcases htu.cases_head with rfl | ⟨v, hv, hvu⟩
        · exact absurd hu hgoal
        · exact ⟨v, List.mem_append_left _ (List.mem_reverse.mpr hv), u, hvu, hu⟩
      · exact ⟨t, List.mem_append_right _ ht, u, htu, hu⟩

end Lib
