import NimbusVault.Lib.Binary64
import NimbusVault.Lib.Greedy
import NimbusVault.NodeTable
import NimbusVault.PutChunk

/-!
# Placement — which nodes are selected

`selectNodes` takes `n` of the alive nodes that are not excluded: in random mode the first ones behind
a shuffle, else each time the one at which the scan for the best score ends.  The score looks at the
nodes that were chosen, but none of those left is among them; so the nodes chosen are the `n` that
stand best by the score for an empty set (`selectRecords_scoring`).  The score is computed in any
`Scalar`: in doubles as the source has it, rounded at every step and with NaNs, or in exact rationals.
-/

namespace NimbusVault

open Lib

deriving instance DecidableEq for NodeRecord

/-- Numbers to compute a score in.  Those that have a value compare by it; nothing is below or above
the others. -/
class Scalar (φ : Type) extends Add φ, Sub φ, Mul φ, Div φ, LT φ, OfScientific φ, NatCast φ where
  decidableLT : DecidableLT φ
  Value : Type
  linearOrder : LinearOrder Value
  value : φ → Option Value
  lt_iff_value : ∀ {x y : φ}, x < y ↔ ∃ u v, value x = some u ∧ value y = some v ∧ u < v

instance (priority := low) Scalar.instDecidableLT {φ : Type} [Scalar φ] : DecidableLT φ :=
  Scalar.decidableLT

instance Scalar.instLinearOrder {φ : Type} [Scalar φ] : LinearOrder (Scalar.Value φ) :=
  Scalar.linearOrder

/-- The source's `double`s; the `float`s of a node are among them. -/
instance : Scalar Float.Model where
  ofScientific m neg e := .ofScientific m (if neg then -e else e)
  natCast := .ofNat
  decidableLT := inferInstance
  Value := EInt
  linearOrder := inferInstance
  value := Binary64.position
  lt_iff_value := Binary64.lt_iff_position

instance : Scalar ℚ where
  decidableLT := inferInstance
  Value := ℚ
  linearOrder := inferInstance
  value := some
  lt_iff_value := by simp

structure PlacementConfig (φ : Type) [Scalar φ] where
  wLoad : φ := 0.3
  wCap : φ := 0.3
  wRel : φ := 0.2
  wDiv : φ := 0.2
  randomPlacement : Bool := false

/-- What `std::shuffle` does to the candidates. -/
structure Shuffle (φ : Type) where
  run : List (NodeRecord φ) → List (NodeRecord φ)
  perm : ∀ xs, (run xs).Perm xs

def Shuffle.keep {φ : Type} : Shuffle φ := ⟨id, fun xs => List.Perm.refl xs⟩

namespace Placement

variable {φ : Type}

def candidates (alive : List (NodeRecord φ)) (exclude : List Str) : List (NodeRecord φ) :=
  alive.filter (·.nodeId ∉ exclude)

theorem mem_candidates {alive : List (NodeRecord φ)} {exclude : List Str} {x : NodeRecord φ} :
    x ∈ candidates alive exclude ↔ x ∈ alive ∧ x.nodeId ∉ exclude := by
  simp [candidates]

theorem nodup_candidates {alive : List (NodeRecord φ)} {exclude : List Str}
    (hnd : (alive.map (·.nodeId)).Nodup) : ((candidates alive exclude).map (·.nodeId)).Nodup :=
  hnd.sublist (List.filter_sublist.map _)

variable [Scalar φ]

/-- The terms of the score that do not depend on the chosen nodes. -/
def merit (cfg : PlacementConfig φ) (node : NodeRecord φ) : φ :=
  let loadScore := (1.0 - node.loadFraction) * cfg.wLoad
  let capScore :=
    if 0 < node.totalBytes then
      (node.freeBytes.toNat : φ) / (node.totalBytes.toNat : φ) * cfg.wCap
    else 0.0
  let relScore := (1.0 - node.failureRate7d) * cfg.wRel
  loadScore + capScore + relScore

def score (cfg : PlacementConfig φ) (node : NodeRecord φ) (existingSet : List Str) : φ :=
  let divScore : φ := if node.nodeId ∈ existingSet then 0.0 else 1.0
  merit cfg node + divScore * cfg.wDiv

/-- The value of the score of a node while nothing is chosen. -/
def scoreValue (cfg : PlacementConfig φ) (node : NodeRecord φ) : Option (Scalar.Value φ) :=
  Scalar.value (score cfg node [])

theorem score_of_not_mem {cfg : PlacementConfig φ} {x : NodeRecord φ} {chosen : List Str}
    (h : x.nodeId ∉ chosen) : score cfg x chosen = score cfg x [] := by
  rw [score, score, if_neg h, if_neg List.not_mem_nil]

variable [DecidableEq φ]

/-- `std::max_element` moves on where the score of its node is below that of the next one. -/
def selectRecords (cfg : PlacementConfig φ) (sh : Shuffle φ) (n : ℕ) (cands : List (NodeRecord φ)) :
    List (NodeRecord φ) :=
  if cfg.randomPlacement then (sh.run cands).take n
  else greedy (fun chosen a b => score cfg a chosen < score cfg b chosen)
    (fun chosen node => node.nodeId :: chosen) n [] cands

def selectNodes (cfg : PlacementConfig φ) (sh : Shuffle φ) (n : ℤ) (alive : List (NodeRecord φ))
    (exclude : List Str) : List Str :=
  (selectRecords cfg sh n.toNat (candidates alive exclude)).map (·.nodeId)

/-- How many candidates are preferred to `x`. -/
def place (cfg : PlacementConfig φ) (sh : Shuffle φ) (cands : List (NodeRecord φ))
    (x : NodeRecord φ) : ℕ :=
  if cfg.randomPlacement then (sh.run cands).idxOf x
  else ahead (standing (scoreValue cfg) cands) cands x

section Select

variable {cfg : PlacementConfig φ} {sh : Shuffle φ} {n : ℕ} {cands alive : List (NodeRecord φ)}
  {exclude : List Str} {x : NodeRecord φ}

/-- **The diversity term does not matter**: of those left none was chosen. -/
theorem selectRecords_scoring (hmode : cfg.randomPlacement = false)
    (hnd : (cands.map (·.nodeId)).Nodup) :
    selectRecords cfg sh n cands = best (standing (scoreValue cfg) cands) n cands := by
  rw [selectRecords, hmode, if_neg Bool.false_ne_true]
  refine greedy_eq_best_standing
    (fun chosen rem => (rem.map (·.nodeId)).Nodup ∧ ∀ x ∈ rem, x.nodeId ∉ chosen) ?_ ?_
    (hnd.of_map _) ⟨hnd, by simp⟩
  · rintro chosen rem ⟨-, hfree⟩ a ha b hb
    rw [score_of_not_mem (hfree a ha), score_of_not_mem (hfree b hb)]
    exact Scalar.lt_iff_value
  · rintro chosen rem ⟨hnd, hfree⟩ m hm
    refine ⟨hnd.sublist (List.erase_sublist.map _), fun x hx hbad => ?_⟩
    obtain ⟨hxm, hx⟩ := (hnd.of_map _).mem_erase_iff.mp hx
    rcases List.mem_cons.mp hbad with heq | hold
    · exact hxm (List.inj_on_of_nodup_map hnd hx hm heq)
    · exact hfree x hx hold

theorem selectRecords_subperm (cfg : PlacementConfig φ) (sh : Shuffle φ) (n : ℕ)
    (cands : List (NodeRecord φ)) : (selectRecords cfg sh n cands).Subperm cands := by
  unfold selectRecords
  split_ifs
  · exact (List.take_sublist _ _).subperm.trans (sh.perm cands).subperm
  · exact greedy_subperm _ _ _ _ _

theorem length_selectRecords (cfg : PlacementConfig φ) (sh : Shuffle φ) (n : ℕ)
    (cands : List (NodeRecord φ)) : (selectRecords cfg sh n cands).length = min n cands.length := by
  unfold selectRecords
  split_ifs
  · rw [List.length_take, (sh.perm cands).length_eq]
  · exact length_greedy _ _ _ _ _

/-- **Which nodes are selected**: those that fewer than `n` are preferred to. -/
theorem mem_selectRecords_iff (hnd : (cands.map (·.nodeId)).Nodup) :
    x ∈ selectRecords cfg sh n cands ↔ x ∈ cands ∧ place cfg sh cands x < n := by
  cases hmode : cfg.randomPlacement with
  | true =>
    rw [selectRecords, place, hmode, if_pos rfl, if_pos rfl]
    constructor
    · intro h
      have hx := List.mem_of_mem_take h
      exact ⟨(sh.perm cands).mem_iff.mp hx, (List.mem_take_iff_idxOf_lt hx).mp h⟩
    · rintro ⟨hx, hlt⟩
      exact (List.mem_take_iff_idxOf_lt ((sh.perm cands).mem_iff.mpr hx)).mpr hlt
  | false =>
    rw [selectRecords_scoring hmode hnd, place, hmode, if_neg Bool.false_ne_true,
      mem_best_iff (hnd.of_map _)]

/-- A node is among the selected ids if its record was selected. -/
theorem mem_selectNodes_iff (hnd : (alive.map (·.nodeId)).Nodup) (hx : x ∈ alive) {n : ℤ} :
    x.nodeId ∈ selectNodes cfg sh n alive exclude ↔
      x ∈ selectRecords cfg sh n.toNat (candidates alive exclude) := by
  refine ⟨fun h => ?_, List.mem_map_of_mem⟩
  obtain ⟨y, hy, heq⟩ := List.mem_map.mp h
  have hya : y ∈ alive := (mem_candidates.mp ((selectRecords_subperm _ _ _ _).subset hy)).1
  exact List.inj_on_of_nodup_map hnd hya hx heq ▸ hy

/-- `select_nodes` as its callers know it. -/
theorem selectsNodes (cfg : PlacementConfig φ) (sh : Shuffle φ) (n : ℤ) (alive : List (NodeRecord φ))
    (exclude : List Str) : SelectsNodes n (alive.map NodeRecord.toNodeEntry) exclude
      (selectNodes cfg sh n alive exclude) := by
  have hcands : placementCandidates (alive.map NodeRecord.toNodeEntry) exclude =
      (candidates alive exclude).map (·.nodeId) := by
    rw [placementCandidates, candidates, List.map_map, List.filter_map]
    rfl
  refine ⟨?_, ?_⟩
  · obtain ⟨l, hperm, hl⟩ := selectRecords_subperm cfg sh n.toNat (candidates alive exclude)
    rw [hcands]
    exact ⟨_, hperm.map _, hl.map _⟩
  · rw [hcands, selectNodes, List.length_map, List.length_map, length_selectRecords]

end Select

/-- A rational stands with its score. -/
theorem merit_le_of_standing {cfg : PlacementConfig ℚ} {cands : List (NodeRecord ℚ)}
    {x y : NodeRecord ℚ}
    (h : standing (scoreValue cfg) cands y ≤ standing (scoreValue cfg) cands x) :
    merit cfg y ≤ merit cfg x := by
  have hscore : ∀ z, scoreValue cfg z = some (score cfg z []) := fun z => rfl
  rw [standing_of_some cands (hscore y), standing_of_some cands (hscore x), WithTop.coe_le_coe] at h
  exact le_of_add_le_add_right (h : score cfg y [] ≤ score cfg x [])

/-- **What `select_nodes` returns** for exact scores, in either mode; and by the score, the best. -/
theorem selectNodes_best {alive : List (NodeRecord ℚ)} (cfg : PlacementConfig ℚ) (sh : Shuffle ℚ)
    (n : ℤ) (exclude : List Str) (hnd : (alive.map (·.nodeId)).Nodup) :
    (selectNodes cfg sh n alive exclude).length = min n.toNat (candidates alive exclude).length ∧
    (selectNodes cfg sh n alive exclude).Nodup ∧
    (∀ id ∈ selectNodes cfg sh n alive exclude, id ∈ alive.map (·.nodeId) ∧ id ∉ exclude) ∧
    (cfg.randomPlacement = false → ∀ x ∈ alive, x.nodeId ∈ selectNodes cfg sh n alive exclude →
      ∀ y ∈ candidates alive exclude, y.nodeId ∉ selectNodes cfg sh n alive exclude →
        merit cfg y ≤ merit cfg x) := by
  have hsub := selectRecords_subperm cfg sh n.toNat (candidates alive exclude)
  refine ⟨?_, ?_, fun id hid => ?_, fun hmode x hx hsel y hy hleft => ?_⟩
  · rw [selectNodes, List.length_map, length_selectRecords]
  · obtain ⟨l, hperm, hl⟩ := hsub
    exact (hperm.map (·.nodeId)).nodup_iff.mp ((nodup_candidates hnd).sublist (hl.map _))
  · obtain ⟨x, hx, rfl⟩ := List.mem_map.mp hid
    obtain ⟨hx, hex⟩ := mem_candidates.mp (hsub.subset hx)
    exact ⟨List.mem_map_of_mem hx, hex⟩
  · rw [mem_selectNodes_iff hnd hx, selectRecords_scoring hmode (nodup_candidates hnd)] at hsel
    rw [mem_selectNodes_iff hnd (mem_candidates.mp hy).1,
      selectRecords_scoring hmode (nodup_candidates hnd)] at hleft
    exact merit_le_of_standing (le_of_mem_best hsel hy hleft)

/-- A loaded node, an idle one, and one that reports no space at all. -/
def threeNodes : List (NodeRecord ℚ) :=
  [{ nodeId := ['p'], address := ['1'], loadFraction := 1 / 2, freeBytes := 1, totalBytes := 4,
     failureRate7d := 0, lastSeenMs := 0 },
   { nodeId := ['q'], address := ['2'], loadFraction := 0, freeBytes := 3, totalBytes := 4,
     failureRate7d := 0, lastSeenMs := 0 },
   { nodeId := ['r'], address := ['3'], loadFraction := 0, freeBytes := 0, totalBytes := 0,
     failureRate7d := 0, lastSeenMs := 0 }]

theorem selectNodes_best_three :
    (selectNodes {} .keep 2 threeNodes [['q']]).length =
      min (2 : ℤ).toNat (candidates threeNodes [['q']]).length ∧
    (selectNodes {} .keep 2 threeNodes [['q']]).Nodup ∧
    (∀ id ∈ selectNodes {} .keep 2 threeNodes [['q']],
      id ∈ threeNodes.map (·.nodeId) ∧ id ∉ [['q']]) ∧
    (({} : PlacementConfig ℚ).randomPlacement = false → ∀ x ∈ threeNodes,
      x.nodeId ∈ selectNodes {} .keep 2 threeNodes [['q']] → ∀ y ∈ candidates threeNodes [['q']],
        y.nodeId ∉ selectNodes {} .keep 2 threeNodes [['q']] → merit {} y ≤ merit {} x) :=
  selectNodes_best {} .keep 2 [['q']] (by decide)

/-- Two nodes whose scores are equal, and are rounded to different doubles. -/
def tiedNodes (φ : Type) [Scalar φ] : List (NodeRecord φ) :=
  [{ nodeId := ['p'], address := ['1'], loadFraction := 0.0, freeBytes := 1, totalBytes := 16,
     failureRate7d := 0.1875, lastSeenMs := 0 },
   { nodeId := ['q'], address := ['2'], loadFraction := 0.0, freeBytes := 5, totalBytes := 16,
     failureRate7d := 0.5625, lastSeenMs := 0 }]

example : selectNodes {} .keep 1 (tiedNodes ℚ) [] = [['p']] := by decide +kernel

example : selectNodes {} .keep 1 (tiedNodes Float.Model) [] = [['q']] := by decide +kernel

end Placement

end NimbusVault
