import NimbusVault.Coordinator
import NimbusVault.Lib.Worklist
import Mathlib.Data.Fintype.Card
import Mathlib.Data.List.FinRange

/-!
# RegisterChecker — the search of the linearizability checker

`is_linearizable_register` of `check.py` looks at the operations on one chunk.  It searches for an
order of all of them: an operation is a candidate once every other one that ended by its start is
done, and the search gives up where a `GET` of data meets a register that holds other data.
`isLinearizableRegister_iff` describes what it accepts by the orders of the operations.
-/

namespace NimbusVault

open Lib

inductive OpType
  | put
  | get
  | delete
  deriving DecidableEq

/-- One operation of a history: the times of its start and of its end, the data that a `PUT` wrote
or a `GET` returned, and whether it succeeded. -/
structure Op where
  startUs : ℤ
  endUs : ℤ
  opType : OpType
  value : Str
  ok : Bool
  deriving DecidableEq

/-- An operation that ended by the start of another must come before it. -/
def realTimeBefore (a b : Op) : Prop := a.endUs ≤ b.startUs

instance (a b : Op) : Decidable (realTimeBefore a b) := inferInstanceAs (Decidable (_ ≤ _))

/-! ### The search -/

/-- The operations done, and the register. -/
abbrev SearchState (ops : List Op) := Finset (Fin ops.length) × Option Str

variable {ops : List Op}

/-- The register after `op`, or `none` where `op` cannot come next. -/
def Op.linearize (op : Op) (reg : Option Str) : Option (Option Str) :=
  -- a failed operation need not be linearized
  if op.ok = false then some reg
  else match op.opType with
    | .put => some (if op.value ≠ [] then some op.value else reg)
    | .delete => some none
    | .get => if op.value ≠ [] ∧ reg ≠ none ∧ some op.value ≠ reg then none else some reg

namespace SearchState

/-- Those for which all that must precede them are done. -/
def candidates (ops : List Op) (done : Finset (Fin ops.length)) : List (Fin ops.length) :=
  (List.finRange ops.length).filter fun i =>
    i ∉ done ∧ ∀ j, j ≠ i → j ∉ done → ¬ realTimeBefore (ops.get j) (ops.get i)

/-- What is pushed for a state that is popped. -/
def pushes (ops : List Op) (s : SearchState ops) : List (SearchState ops) :=
  (candidates ops s.1).filterMap fun i =>
    ((ops.get i).linearize s.2).map fun reg => (insert i s.1, reg)

theorem mem_candidates {done : Finset (Fin ops.length)} {i : Fin ops.length} :
    i ∈ candidates ops done ↔
      i ∉ done ∧ ∀ j, j ≠ i → j ∉ done → ¬ realTimeBefore (ops.get j) (ops.get i) := by
  simp [candidates, List.mem_filter]

theorem mem_pushes {s t : SearchState ops} : t ∈ pushes ops s ↔
    ∃ i ∈ candidates ops s.1, t.1 = insert i s.1 ∧ (ops.get i).linearize s.2 = some t.2 := by
  unfold pushes
  rw [List.mem_filterMap]
  refine exists_congr fun i => and_congr_right fun _ => ?_
  rw [Option.map_eq_some_iff]
  constructor
  · rintro ⟨reg, hreg, rfl⟩
    exact ⟨rfl, hreg⟩
  · rintro ⟨hdone, hreg⟩
    exact ⟨t.2, hreg, by rw [← hdone]⟩

/-- Every push does one more operation. -/
theorem card_of_mem_pushes {s t : SearchState ops} (h : t ∈ pushes ops s) :
    t.1.card = s.1.card + 1 := by
  obtain ⟨i, hi, hdone, -⟩ := mem_pushes.mp h
  rw [hdone, Finset.card_insert_of_notMem (mem_candidates.mp hi).1]

theorem pushes_wf (ops : List Op) : WellFounded fun t s => t ∈ pushes ops s := by
  refine Subrelation.wf (r := InvImage (· < ·) fun s : SearchState ops => ops.length - s.1.card) ?_
    (InvImage.wf _ Nat.lt_wfRel.wf)
  intro t s h
  have hcard := card_of_mem_pushes h
  have hle : t.1.card ≤ ops.length := by simpa using Finset.card_le_univ t.1
  show ops.length - t.1.card < ops.length - s.1.card
  omega

end SearchState

open SearchState

def isLinearizableRegister (ops : List Op) : Bool :=
  if ops.length = 0 then true
  else search (pushes ops) (pushes_wf ops) (fun s => s.1.card = ops.length) [(∅, none)]

/-! ### Orders of the operations

`Progress ops l reg` says that the search can do the operations with the indices `l` in this order,
and that they leave the register at `reg`. -/

inductive Progress (ops : List Op) : List (Fin ops.length) → Option Str → Prop
  | nil : Progress ops [] none
  | concat {l : List (Fin ops.length)} {reg reg' : Option Str} {i : Fin ops.length} :
      Progress ops l reg → i ∉ l →
      (∀ j, j ≠ i → j ∉ l → ¬ realTimeBefore (ops.get j) (ops.get i)) →
      (ops.get i).linearize reg = some reg' → Progress ops (l ++ [i]) reg'

/-- The states of the search are those of its orders. -/
theorem reaches_iff {s : SearchState ops} :
    Reaches (pushes ops) (∅, none) s ↔ ∃ l, Progress ops l s.2 ∧ l.toFinset = s.1 := by
  constructor
  · intro h
    induction h with
    | refl => exact ⟨[], .nil, rfl⟩
    | tail _ hpush ih =>
      obtain ⟨l, hl, hdone⟩ := ih
      obtain ⟨i, hi, hdone', hreg⟩ := mem_pushes.mp hpush
      obtain ⟨hnew, hready⟩ := mem_candidates.mp hi
      simp only [← hdone, List.mem_toFinset] at hnew hready
      exact ⟨l ++ [i], hl.concat hnew hready hreg, by
        rw [hdone', ← hdone, List.toFinset_append, Finset.union_comm]
        rfl⟩
  · rintro ⟨l, hl, hdone⟩
    obtain ⟨done, reg⟩ := s
    obtain rfl : l.toFinset = done := hdone
    change Progress ops l reg at hl
    induction hl with
    | nil => exact .refl
    | @concat l reg reg' i hl hnew hready hreg ih =>
      refine ih.tail (mem_pushes.mpr ⟨i, mem_candidates.mpr ?_, ?_, hreg⟩)
      · simpa only [List.mem_toFinset] using ⟨hnew, hready⟩
      · rw [List.toFinset_append, Finset.union_comm]
        rfl

/-- The register after all of `l`, or `none` where some operation cannot come next. -/
def linearizeAll (l : List Op) : Option (Option Str) := l.foldlM (fun reg op => op.linearize reg) none

/-- An order of `ops` in which what must precede an operation comes before it. -/
def RealTimeOrder (ops l : List Op) : Prop :=
  l.Perm ops ∧ l.Pairwise fun a b => ¬ realTimeBefore b a

/-- What the search has done is in order, and nothing that is left must precede it. -/
theorem Progress.spec {l : List (Fin ops.length)} {reg : Option Str} (h : Progress ops l reg) :
    l.Nodup ∧ l.Pairwise (fun i j => ¬ realTimeBefore (ops.get j) (ops.get i)) ∧
      (∀ i ∈ l, ∀ j, j ∉ l → ¬ realTimeBefore (ops.get j) (ops.get i)) ∧
      linearizeAll (l.map ops.get) = some reg := by
  induction h with
  | nil => exact ⟨.nil, .nil, fun _ hi => by simp at hi, rfl⟩
  | @concat l reg reg' i _ hnew hready hreg ih =>
    obtain ⟨hnodup, hpair, hclosed, hlin⟩ := ih
    refine ⟨?_, ?_, ?_, ?_⟩
    · exact List.nodup_append.mpr ⟨hnodup, List.nodup_singleton i, fun a ha b hb hab => by
        rw [List.mem_singleton.mp hb] at hab
        exact hnew (hab ▸ ha)⟩
    · refine List.pairwise_append.mpr ⟨hpair, List.pairwise_singleton _ _, fun a ha b hb => ?_⟩
      rw [List.mem_singleton.mp hb]
      exact hclosed a ha i hnew
    · intro a ha j hj
      obtain ⟨hjl, hji⟩ : j ∉ l ∧ j ≠ i := by simpa [not_or] using hj
      rcases List.mem_append.mp ha with ha | ha
      · exact hclosed a ha j hjl
      · rw [List.mem_singleton.mp ha]
        exact hready j hji hjl
    · rw [List.map_append, linearizeAll, List.foldlM_append]
      rw [linearizeAll] at hlin
      rw [hlin]
      simpa using hreg

/-- Every beginning of an order is progress. -/
theorem progress_of_order {l : List (Fin ops.length)} (hnodup : l.Nodup) (hall : ∀ i, i ∈ l)
    (hpair : l.Pairwise fun i j => ¬ realTimeBefore (ops.get j) (ops.get i))
    (pre post : List (Fin ops.length)) (hl : l = pre ++ post) {reg : Option Str}
    (hreg : linearizeAll (pre.map ops.get) = some reg) : Progress ops pre reg := by
  induction pre using List.reverseRec generalizing post reg with
  | nil =>
    obtain rfl : none = reg := Option.some.inj hreg
    exact .nil
  | append_singleton pre i ih =>
    rw [List.append_assoc] at hl
    subst hl
    rw [List.map_append, linearizeAll, List.foldlM_append, Option.bind_eq_bind,
      Option.bind_eq_some_iff] at hreg
    obtain ⟨reg₁, hreg₁, hlast⟩ := hreg
    refine (ih ([i] ++ post) rfl hreg₁).concat ?_ ?_ (by simpa using hlast)
    · exact fun hi => (List.nodup_append.mp hnodup).2.2 i hi i (by simp) rfl
    · intro j hji hj
      have hpost : j ∈ post := by simpa [hj, hji] using hall j
      exact List.rel_of_pairwise_cons (List.pairwise_append.mp hpair).2.1 hpost

/-- An order of the operations is an order of their indices. -/
theorem exists_indices {l : List Op} (h : l.Perm ops) :
    ∃ is : List (Fin ops.length), l = is.map ops.get ∧ is.Perm (List.finRange ops.length) := by
  rw [← List.map_get_finRange ops] at h
  have hcomp := congrFun (congrFun (List.eq_map_comp_perm ops.get) l) (List.finRange ops.length)
  exact hcomp.mpr h

/-- **What the checker accepts**: the histories with an order of all operations, touching ones in
order too, in which every operation can come next. -/
theorem isLinearizableRegister_iff : isLinearizableRegister ops = true ↔
    ∃ l, RealTimeOrder ops l ∧ (linearizeAll l).isSome := by
  unfold isLinearizableRegister
  split_ifs with hn
  · obtain rfl := List.length_eq_zero_iff.mp hn
    exact iff_of_true rfl ⟨[], ⟨.nil, .nil⟩, rfl⟩
  · rw [search_iff]
    simp only [List.mem_singleton, exists_eq_left, reaches_iff, decide_eq_true_eq]
    constructor
    · rintro ⟨⟨done, reg⟩, ⟨is, his, hdone⟩, hcard⟩
      obtain ⟨hnodup, hpair, -, hlin⟩ := his.spec
      have hperm : is.Perm (List.finRange ops.length) := by
        refine (List.perm_ext_iff_of_nodup hnodup (List.nodup_finRange _)).mpr fun i => ?_
        have huniv : is.toFinset = Finset.univ :=
          Finset.card_eq_iff_eq_univ _ |>.mp (by rw [hdone, hcard, Fintype.card_fin])
        rw [← List.mem_toFinset, huniv]
        simp
      refine ⟨is.map ops.get, ⟨?_, List.pairwise_map.mpr hpair⟩, by rw [hlin]; rfl⟩
      conv_rhs => rw [← List.map_get_finRange ops]
      exact hperm.map _
    · rintro ⟨l, ⟨hperm, hpair⟩, hlin⟩
      obtain ⟨is, rfl, his⟩ := exists_indices hperm
      obtain ⟨reg, hreg⟩ := Option.isSome_iff_exists.mp hlin
      have hnodup : is.Nodup := his.nodup_iff.mpr (List.nodup_finRange _)
      refine ⟨(is.toFinset, reg), ⟨is, ?_, rfl⟩, ?_⟩
      · exact progress_of_order hnodup (fun i => his.mem_iff.mpr (List.mem_finRange i))
          (List.pairwise_map.mp hpair) is [] (List.append_nil is).symm hreg
      · rw [List.toFinset_card_of_nodup hnodup, his.length_eq, List.length_finRange]

/-! ### What cannot come next -/

/-- The register after a successful operation is its value, nothing, or what it was. -/
def Op.write (op : Op) (reg : Option Str) : Option Str :=
  if op.ok = false then reg
  else match op.opType with
    | .put => if op.value ≠ [] then some op.value else reg
    | .delete => none
    | .get => reg

/-- A successful operation of a kind. -/
def Op.Is (op : Op) (t : OpType) : Prop := op.ok = true ∧ op.opType = t

instance (op : Op) (t : OpType) : Decidable (op.Is t) := inferInstanceAs (Decidable (_ ∧ _))

theorem Op.Is.unique {op : Op} {t t' : OpType} (h : op.Is t) (h' : op.Is t') : t = t' :=
  h.2.symm.trans h'.2

theorem Op.write_failed {op : Op} (h : op.ok = false) (reg : Option Str) : op.write reg = reg := by
  simp [write, h]

theorem Op.write_put {op : Op} (h : op.Is .put) (reg : Option Str) :
    op.write reg = if op.value ≠ [] then some op.value else reg := by
  simp [write, h.1, h.2]

theorem Op.write_delete {op : Op} (h : op.Is .delete) (reg : Option Str) : op.write reg = none := by
  simp [write, h.1, h.2]

theorem Op.write_get {op : Op} (h : op.Is .get) (reg : Option Str) : op.write reg = reg := by
  simp [write, h.1, h.2]

/-- An operation failed or is of one of the kinds. -/
theorem Op.cases (op : Op) : op.ok = false ∨ op.Is .put ∨ op.Is .delete ∨ op.Is .get := by
  unfold Op.Is
  cases op.ok with
  | false => exact .inl rfl
  | true => cases op.opType <;> simp

/-- A `GET` of data finds it in the register, or finds the register unset. -/
def Op.Fits (op : Op) (reg : Option Str) : Prop :=
  op.ok = true → op.opType = .get → op.value ≠ [] → ∀ v, reg = some v → op.value = v

def registerAfter (l : List Op) : Option Str := l.foldl (fun reg op => op.write reg) none

/-- No `GET` of data meets a register that holds other data. -/
def NoConflict (l : List Op) : Prop :=
  ∀ pre op post, l = pre ++ op :: post → op.Fits (registerAfter pre)

theorem Op.linearize_eq_some_iff {op : Op} {reg reg' : Option Str} :
    op.linearize reg = some reg' ↔ op.Fits reg ∧ reg' = op.write reg := by
  unfold Op.linearize Op.Fits Op.write
  cases op.ok with
  | false => simp [eq_comm]
  | true =>
    simp only [Bool.true_eq_false, if_false]
    cases op.opType with
    | put => simp [eq_comm]
    | delete => simp [eq_comm]
    | get =>
      cases reg with
      | none => simp [eq_comm]
      | some v => by_cases hv : op.value = v <;> simp [hv, eq_comm]

theorem registerAfter_concat (l : List Op) (op : Op) :
    registerAfter (l ++ [op]) = op.write (registerAfter l) := by
  simp [registerAfter]

theorem linearizeAll_concat_eq_some_iff {l : List Op} {op : Op} {reg : Option Str} :
    linearizeAll (l ++ [op]) = some reg ↔ ∃ r, linearizeAll l = some r ∧ op.linearize r = some reg := by
  rw [linearizeAll, List.foldlM_append, Option.bind_eq_bind, Option.bind_eq_some_iff]
  exact exists_congr fun r => and_congr_right fun _ => by simp

theorem noConflict_concat {l : List Op} {op : Op} :
    NoConflict (l ++ [op]) ↔ NoConflict l ∧ op.Fits (registerAfter l) := by
  constructor
  · intro h
    refine ⟨fun pre o post hl => h pre o (post ++ [op]) (by simp [hl]), h l op [] rfl⟩
  · rintro ⟨hl, hop⟩ pre o post heq
    rcases List.eq_nil_or_concat post with rfl | ⟨post, o', rfl⟩
    · obtain ⟨rfl, ho⟩ := List.append_inj' heq rfl
      exact List.singleton_inj.mp ho ▸ hop
    · have heq' : l ++ [op] = (pre ++ o :: post) ++ [o'] := by simp [heq]
      exact hl pre o post (List.append_inj' heq' rfl).1

/-- All operations of an order can come next exactly when no `GET` conflicts. -/
theorem linearizeAll_eq_some_iff {l : List Op} {reg : Option Str} :
    linearizeAll l = some reg ↔ NoConflict l ∧ reg = registerAfter l := by
  induction l using List.reverseRec generalizing reg with
  | nil => simp [linearizeAll, registerAfter, NoConflict, eq_comm]
  | append_singleton l op ih =>
    rw [linearizeAll_concat_eq_some_iff, noConflict_concat, registerAfter_concat]
    constructor
    · rintro ⟨r, hr, hreg⟩
      obtain ⟨hl, rfl⟩ := ih.mp hr
      obtain ⟨hop, rfl⟩ := Op.linearize_eq_some_iff.mp hreg
      exact ⟨⟨hl, hop⟩, rfl⟩
    · rintro ⟨⟨hl, hop⟩, rfl⟩
      exact ⟨_, ih.mpr ⟨hl, rfl⟩, Op.linearize_eq_some_iff.mpr ⟨hop, rfl⟩⟩

/-- **What the checker accepts**, in terms of the reads. -/
theorem isLinearizableRegister_iff_noConflict : isLinearizableRegister ops = true ↔
    ∃ l, RealTimeOrder ops l ∧ NoConflict l := by
  rw [isLinearizableRegister_iff]
  refine exists_congr fun l => and_congr_right fun _ => ?_
  rw [Option.isSome_iff_exists]
  constructor
  · rintro ⟨reg, hreg⟩
    exact (linearizeAll_eq_some_iff.mp hreg).1
  · exact fun h => ⟨_, linearizeAll_eq_some_iff.mpr ⟨h, rfl⟩⟩

/-! ### Operations at the same instant -/

/-- Two operations of no length, at one time: each of them ended by the start of the other. -/
def Simultaneous (a b : Op) : Prop :=
  a.startUs = a.endUs ∧ b.startUs = b.endUs ∧ a.startUs = b.startUs

theorem Simultaneous.symm {a b : Op} (h : Simultaneous a b) : Simultaneous b a :=
  ⟨h.2.1, h.1, h.2.2.symm⟩

theorem Simultaneous.realTimeBefore {a b : Op} (h : Simultaneous a b) : realTimeBefore a b := by
  obtain ⟨ha, hb, hab⟩ := h
  show a.endUs ≤ b.startUs
  omega

instance : Std.Symm fun a b : Op => ¬ Simultaneous a b := ⟨fun _ _ hn hs => hn hs.symm⟩

/-- The search gets stuck on them, so that a history with two of them is not accepted. -/
theorem pairwise_of_isLinearizableRegister (h : isLinearizableRegister ops = true) :
    ops.Pairwise fun a b => ¬ Simultaneous a b := by
  obtain ⟨l, ⟨hperm, hpair⟩, -⟩ := isLinearizableRegister_iff.mp h
  refine (hperm.pairwise_iff fun hn hs => hn hs.symm).mp (hpair.imp ?_)
  exact fun hn hs => hn hs.symm.realTimeBefore

/-- The order by the ends, and by the starts among equal ends. -/
def endOrder (a b : Op) : Bool := a.endUs < b.endUs ∨ a.endUs = b.endUs ∧ a.startUs ≤ b.startUs

/-- **Every rank that real time does not contradict** is that of some order, apart from such
operations. -/
theorem exists_order_of_rank (rank : Op → ℕ) (hlen : ∀ op ∈ ops, op.startUs ≤ op.endUs)
    (hapart : ops.Pairwise fun a b => ¬ Simultaneous a b)
    (hrank : ∀ a ∈ ops, ∀ b ∈ ops, realTimeBefore a b → rank a ≤ rank b) :
    ∃ l, RealTimeOrder ops l ∧ l.Pairwise fun a b => rank a ≤ rank b := by
  let le (a b : Op) : Bool := rank a < rank b ∨ rank a = rank b ∧ endOrder a b
  have hperm := List.mergeSort_perm ops le
  have hsorted : (ops.mergeSort le).Pairwise fun a b => le a b = true := by
    refine List.pairwise_mergeSort (fun a b c hab hbc => ?_) (fun a b => ?_) ops
    · simp only [le, endOrder, decide_eq_true_eq] at hab hbc ⊢
      omega
    · simp only [le, endOrder, Bool.or_eq_true, decide_eq_true_eq]
      omega
  have hapart' := (hperm.pairwise_iff fun hn hs => hn hs.symm).mpr hapart
  refine ⟨_, ⟨hperm, (hsorted.and hapart').imp_of_mem ?_⟩, hsorted.imp fun h => ?_⟩
  · rintro a b ha hb ⟨hle, hn⟩ hrt
    rw [hperm.mem_iff] at ha hb
    have hla := hlen a ha
    have hlb := hlen b hb
    have hle' := hrank b hb a ha hrt
    simp only [le, endOrder, decide_eq_true_eq] at hle
    have hrt' : b.endUs ≤ a.startUs := hrt
    exact hn ⟨by omega, by omega, by omega⟩
  · simp only [le, decide_eq_true_eq] at h
    omega

theorem exists_realTimeOrder (hlen : ∀ op ∈ ops, op.startUs ≤ op.endUs)
    (hapart : ops.Pairwise fun a b => ¬ Simultaneous a b) : ∃ l, RealTimeOrder ops l := by
  obtain ⟨l, hl, -⟩ := exists_order_of_rank (fun _ => 0) hlen hapart fun _ _ _ _ _ => le_rfl
  exact ⟨l, hl⟩

/-- **Without data the checker has nothing to check**: it accepts every such history, but for
operations at the same instant. -/
theorem isLinearizableRegister_of_empty (hlen : ∀ op ∈ ops, op.startUs ≤ op.endUs)
    (hempty : ∀ op ∈ ops, op.value = []) : isLinearizableRegister ops = true ↔
      ops.Pairwise fun a b => ¬ Simultaneous a b := by
  refine ⟨pairwise_of_isLinearizableRegister, fun h => ?_⟩
  obtain ⟨l, horder⟩ := exists_realTimeOrder hlen h
  refine isLinearizableRegister_iff_noConflict.mpr ⟨l, horder, ?_⟩
  intro pre op post hl _ _ hv
  have hmem : op ∈ ops := horder.1.mem_iff.mp (hl ▸ by simp)
  exact absurd (hempty op hmem) hv

end NimbusVault
