import Mathlib.Order.Basic
import Mathlib.Data.List.Lex
import Mathlib.Data.List.Sort
import Mathlib.Tactic.Common

/-!
# Lib.Kv — finite maps kept as strictly sorted lists

`Kv κ ν` is a list of bindings with strictly increasing keys, so that a map has one representation
and equality of maps is equality of values.  `alter` is the one point update (`put` and `erase` are
instances), `eraseRange` drops a half-open key range, and `seekForPrev` finds the last binding at or
below a key.  Every operation is described by what `get` returns afterwards.
-/

namespace Lib

/-- A finite map: bindings with strictly increasing keys. -/
structure Kv (κ ν : Type*) [LinearOrder κ] where
  entries : List (κ × ν)
  sorted : entries.Pairwise (fun a b => a.1 < b.1)

namespace Kv

variable {κ ν : Type*} [LinearOrder κ]

instance [DecidableEq ν] : DecidableEq (Kv κ ν) := fun a b =>
  decidable_of_iff (a.entries = b.entries) ⟨fun h => by cases a; cases b; simpa using h,
    fun h => h ▸ rfl⟩

def empty : Kv κ ν := ⟨[], .nil⟩

/-! ### Lookup and point update on lists -/

def lookup (k : κ) : List (κ × ν) → Option ν
  | [] => none
  | (k', v) :: es => if k' = k then some v else lookup k es

/-- Put what `f` makes of the old value at the place where `k` belongs. -/
def alterList (k : κ) (f : Option ν → Option ν) : List (κ × ν) → List (κ × ν)
  | [] => (f none).elim [] fun v => [(k, v)]
  | (k', v') :: es =>
    if k < k' then (f none).elim ((k', v') :: es) fun v => (k, v) :: (k', v') :: es
    else if k = k' then (f (some v')).elim es fun v => (k, v) :: es
    else (k', v') :: alterList k f es

theorem lookup_eq_none_of_lt {k : κ} : ∀ {es : List (κ × ν)}, (∀ p ∈ es, k < p.1) →
    lookup k es = none
  | [], _ => rfl
  | (k', v) :: es, h => by
    have hk : k < k' := h (k', v) (by simp)
    rw [lookup, if_neg (ne_of_gt hk)]
    exact lookup_eq_none_of_lt fun p hp => h p (by simp [hp])

theorem mem_of_lookup {k : κ} {v : ν} : ∀ {es : List (κ × ν)}, lookup k es = some v → (k, v) ∈ es
  | (k', v') :: es, h => by
    rw [lookup] at h
    split_ifs at h with hk
    · simp only [Option.some.injEq] at h; subst hk h; simp
    · exact List.mem_cons_of_mem _ (mem_of_lookup h)

theorem lookup_of_mem {k : κ} {v : ν} : ∀ {es : List (κ × ν)},
    es.Pairwise (fun a b => a.1 < b.1) → (k, v) ∈ es → lookup k es = some v
  | (k', v') :: es, hs, h => by
    obtain ⟨hlt, hs⟩ := List.pairwise_cons.mp hs
    rcases List.mem_cons.mp h with he | he
    · cases he; simp [lookup]
    · rw [lookup, if_neg (ne_of_lt (hlt _ he))]
      exact lookup_of_mem hs he

theorem mem_alterList {k : κ} {f : Option ν → Option ν} {p : κ × ν} :
    ∀ {es : List (κ × ν)}, p ∈ alterList k f es → p.1 = k ∨ p ∈ es
  | [], h => by
    cases hf : f none with
    | none => simp [alterList, hf] at h
    | some v => simp [alterList, hf] at h; exact .inl (by rw [h])
  | (k', v') :: es, h => by
    rw [alterList] at h
    split_ifs at h with h1 h2
    · cases hf : f none with
      | none => rw [hf] at h; exact .inr h
      | some v =>
        rw [hf] at h
        rcases List.mem_cons.mp h with he | he
        · exact .inl (by rw [he])
        · exact .inr he
    · cases hf : f (some v') with
      | none => rw [hf] at h; exact .inr (List.mem_cons_of_mem _ h)
      | some v =>
        rw [hf] at h
        rcases List.mem_cons.mp h with he | he
        · exact .inl (by rw [he])
        · exact .inr (List.mem_cons_of_mem _ he)
    · rcases List.mem_cons.mp h with he | he
      · exact .inr (by rw [he]; simp)
      · exact (mem_alterList he).imp_right (List.mem_cons_of_mem _)

theorem sorted_alterList {k : κ} {f : Option ν → Option ν} : ∀ {es : List (κ × ν)},
    es.Pairwise (fun a b => a.1 < b.1) → (alterList k f es).Pairwise (fun a b => a.1 < b.1)
  | [], _ => by cases hf : f none <;> simp [alterList, hf]
  | (k', v') :: es, hs => by
    obtain ⟨hlt, hes⟩ := List.pairwise_cons.mp hs
    rw [alterList]
    split_ifs with h1 h2
    · cases f none with
      | none => exact hs
      | some v =>
        refine List.pairwise_cons.mpr ⟨fun p hp => ?_, hs⟩
        rcases List.mem_cons.mp hp with rfl | hp
        · exact h1
        · exact lt_trans h1 (hlt p hp)
    · subst h2
      cases f (some v') with
      | none => exact hes
      | some v => exact List.pairwise_cons.mpr ⟨hlt, hes⟩
    · refine List.pairwise_cons.mpr ⟨fun p hp => ?_, sorted_alterList hes⟩
      rcases mem_alterList hp with he | he
      · rw [he]; exact lt_of_le_of_ne (not_lt.mp h1) (Ne.symm h2)
      · exact hlt p he

theorem lookup_alterList {k k' : κ} {f : Option ν → Option ν} : ∀ {es : List (κ × ν)},
    es.Pairwise (fun a b => a.1 < b.1) →
      lookup k' (alterList k f es) = if k' = k then f (lookup k es) else lookup k' es
  | [], _ => by
    by_cases hk : k' = k
    · subst hk; cases hf : f none <;> simp [alterList, lookup, hf]
    · cases hf : f none <;> simp [alterList, lookup, hf, hk, Ne.symm hk]
  | (j, v') :: es, hs => by
    obtain ⟨hlt, hes⟩ := List.pairwise_cons.mp hs
    rw [alterList]
    split_ifs with h1 h2 h2 h3 h3
    · subst h2
      have hnone : lookup k' ((j, v') :: es) = none := by
        refine lookup_eq_none_of_lt fun p hp => ?_
        rcases List.mem_cons.mp hp with rfl | hp
        · exact h1
        · exact lt_trans h1 (hlt p hp)
      rw [hnone]
      cases f none with
      | none => exact hnone
      | some v => simp [lookup]
    · cases f none with
      | none => rfl
      | some v => simp [lookup, Ne.symm h2]
    · subst h2; subst h3
      have hnone : lookup k' es = none := lookup_eq_none_of_lt hlt
      cases hf : f (some v') <;> simp [lookup, hf, hnone]
    · subst h2
      cases hf : f (some v') <;> simp [lookup, Ne.symm h3]
    · subst h3
      have hj : j ≠ k' := fun h => h2 h.symm
      rw [lookup, if_neg hj, lookup_alterList hes, if_pos rfl, lookup, if_neg hj]
    · rw [lookup, lookup, lookup_alterList hes, if_neg h3]

/-! ### The operations -/

def get (m : Kv κ ν) (k : κ) : Option ν := lookup k m.entries

def alter (m : Kv κ ν) (k : κ) (f : Option ν → Option ν) : Kv κ ν :=
  ⟨alterList k f m.entries, sorted_alterList m.sorted⟩

def put (m : Kv κ ν) (k : κ) (v : ν) : Kv κ ν := m.alter k fun _ => some v

def erase (m : Kv κ ν) (k : κ) : Kv κ ν := m.alter k fun _ => none

/-- Drop every key `x` with `lo ≤ x < hi`. -/
def eraseRange (m : Kv κ ν) (lo hi : κ) : Kv κ ν :=
  ⟨m.entries.filter fun p => ¬ (lo ≤ p.1 ∧ p.1 < hi), m.sorted.filter _⟩

/-- The last binding at or below `k`. -/
def seekForPrev (m : Kv κ ν) (k : κ) : Option (κ × ν) :=
  (m.entries.filter fun p => p.1 ≤ k).getLast?

variable {m m' : Kv κ ν} {k k' : κ} {v : ν}

theorem get_eq_some_iff : m.get k = some v ↔ (k, v) ∈ m.entries :=
  ⟨mem_of_lookup, lookup_of_mem m.sorted⟩

/-- Maps with the same lookups are equal. -/
theorem ext_get (h : ∀ k, m.get k = m'.get k) : m = m' := by
  have hmem : ∀ p : κ × ν, p ∈ m.entries ↔ p ∈ m'.entries := fun p => by
    rw [← get_eq_some_iff, h, get_eq_some_iff]
  have hperm : m.entries.Perm m'.entries :=
    (List.perm_ext_iff_of_nodup (m.sorted.imp fun h he => absurd h (by rw [he]; exact lt_irrefl _))
      (m'.sorted.imp fun h he => absurd h (by rw [he]; exact lt_irrefl _))).mpr hmem
  have heq : m.entries = m'.entries :=
    hperm.eq_of_pairwise (fun a b _ _ h1 h2 => absurd h1 (lt_asymm h2)) m.sorted m'.sorted
  cases m; cases m'; simpa using heq

@[simp] theorem get_empty : (empty : Kv κ ν).get k = none := rfl

theorem get_alter {f : Option ν → Option ν} :
    (m.alter k f).get k' = if k' = k then f (m.get k) else m.get k' :=
  lookup_alterList m.sorted

@[simp] theorem get_alter_self {f : Option ν → Option ν} : (m.alter k f).get k = f (m.get k) := by
  rw [get_alter, if_pos rfl]

theorem get_alter_of_ne {f : Option ν → Option ν} (h : k' ≠ k) : (m.alter k f).get k' = m.get k' := by
  rw [get_alter, if_neg h]

/-- Of a sequence of updates, a binding sees those of its key. -/
theorem get_foldl_alter {ω : Type*} {key : ω → κ} {act : ω → Option ν → Option ν} {k : κ}
    {p : ω → Bool} (hp : ∀ o, p o = true ↔ key o = k) (l : List ω) (m : Kv κ ν) :
    (l.foldl (fun m o => m.alter (key o) (act o)) m).get k
      = (l.filter p).foldl (fun v o => act o v) (m.get k) := by
  induction l generalizing m with
  | nil => rfl
  | cons o l ih =>
    rw [List.foldl_cons, ih]
    by_cases h : key o = k
    · rw [List.filter_cons_of_pos ((hp o).mpr h), List.foldl_cons, h, get_alter_self]
    · rw [List.filter_cons_of_neg fun ho => h ((hp o).mp ho), get_alter_of_ne (Ne.symm h)]

theorem get_put : (m.put k v).get k' = if k' = k then some v else m.get k' := get_alter

@[simp] theorem get_put_self : (m.put k v).get k = some v := get_alter_self

theorem get_put_of_ne (h : k' ≠ k) : (m.put k v).get k' = m.get k' := get_alter_of_ne h

/-- What holds of all bindings, holds after one more for which it does. -/
theorem forall_put {P : κ → ν → Prop} (h : ∀ k v, m.get k = some v → P k v) (hk : P k v) :
    ∀ j x, (m.put k v).get j = some x → P j x := by
  intro j x hx
  rw [get_put] at hx
  split_ifs at hx with hj
  · obtain rfl := Option.some.inj hx
    exact hj ▸ hk
  · exact h j x hx

/-- A value put under its key. -/
theorem keyed_put {key : ν → κ} (h : ∀ k v, m.get k = some v → key v = k) (x : ν) :
    ∀ k v, (m.put (key x) x).get k = some v → key v = k :=
  forall_put h rfl

theorem keyed_foldl_put {key : ν → κ} (l : List ν) :
    ∀ k v, (l.foldl (fun t v => t.put (key v) v) empty).get k = some v → key v = k :=
  List.foldlRecOn (motive := fun m : Kv κ ν => ∀ k v, m.get k = some v → key v = k) l _
    (fun k v hv => absurd hv (by simp)) fun _ ih x _ => keyed_put ih x

/-- The values that belong under a key, in a map whose values know their keys. -/
theorem filter_values {key : ν → κ} {k : κ} : ∀ {es : List (κ × ν)},
    es.Pairwise (fun a b => a.1 < b.1) → (∀ p ∈ es, key p.2 = p.1) →
      (es.map Prod.snd).filter (fun v => key v = k) = (lookup k es).toList
  | [], _, _ => rfl
  | (j, v) :: es, hs, hkey => by
    obtain ⟨hlt, hes⟩ := List.pairwise_cons.mp hs
    have hj : key v = j := hkey (j, v) (by simp)
    have ih := filter_values (k := k) hes fun p hp => hkey p (by simp [hp])
    by_cases hk : j = k
    · subst hk
      rw [List.map_cons, List.filter_cons_of_pos (by simpa using hj), ih,
        lookup_eq_none_of_lt hlt, lookup, if_pos rfl]
      rfl
    · rw [List.map_cons, List.filter_cons_of_neg (by simpa [hj] using hk), ih, lookup, if_neg hk]

/-- **A map is rebuilt from its values**, when they know their keys. -/
theorem foldl_put_values {key : ν → κ} {m : Kv κ ν} (h : ∀ k v, m.get k = some v → key v = k) :
    (m.entries.map Prod.snd).foldl (fun t v => t.put (key v) v) empty = m := by
  refine ext_get fun k => ?_
  have hkey : ∀ v : ν, decide (key v = k) = true ↔ key v = k := fun _ => decide_eq_true_iff
  refine (@get_foldl_alter κ ν _ ν key (fun v _ => some v) k _ hkey _ empty).trans ?_
  rw [filter_values m.sorted fun p hp => h p.1 p.2 (get_eq_some_iff.mpr hp)]
  show (lookup k m.entries).toList.foldl _ none = lookup k m.entries
  cases lookup k m.entries <;> rfl

/-- The values may come in any order. -/
theorem foldl_put_perm {key : ν → κ} {m : Kv κ ν} (h : ∀ k v, m.get k = some v → key v = k)
    {l : List ν} (hl : l.Perm (m.entries.map Prod.snd)) :
    l.foldl (fun t v => t.put (key v) v) empty = m := by
  have hkey : ∀ k (v : ν), decide (key v = k) = true ↔ key v = k := fun _ _ => decide_eq_true_iff
  have hsame : ∀ k, l.filter (fun v => decide (key v = k)) =
      (m.entries.map Prod.snd).filter (fun v => decide (key v = k)) := by
    intro k
    have hperm := hl.filter fun v => decide (key v = k)
    rw [filter_values m.sorted fun p hp => h p.1 p.2 (get_eq_some_iff.mpr hp)] at hperm ⊢
    generalize lookup k m.entries = found at hperm
    cases found with
    | none => exact List.perm_nil.mp hperm
    | some v => exact List.perm_singleton.mp hperm
  conv_rhs => rw [← foldl_put_values h]
  refine ext_get fun k => ?_
  have hget := fun l => @get_foldl_alter κ ν _ ν key (fun v _ => some v) k _ (hkey k) l empty
  exact (hget l).trans ((congrArg _ (hsame k)).trans (hget _).symm)

theorem get_erase : (m.erase k).get k' = if k' = k then none else m.get k' := get_alter

/-- Change every value. -/
def mapValues (m : Kv κ ν) (f : ν → ν) : Kv κ ν :=
  ⟨m.entries.map fun p => (p.1, f p.2), List.pairwise_map.mpr m.sorted⟩

theorem lookup_map {f : ν → ν} : ∀ {es : List (κ × ν)},
    lookup k (es.map fun p => (p.1, f p.2)) = (lookup k es).map f
  | [] => rfl
  | (j, v) :: es => by
    rw [List.map_cons, lookup, lookup, lookup_map]
    split_ifs <;> rfl

theorem get_mapValues {f : ν → ν} : (m.mapValues f).get k = (m.get k).map f := lookup_map

/-- The values of a map are what its lookups find. -/
theorem mem_values : v ∈ m.entries.map Prod.snd ↔ ∃ k, m.get k = some v := by
  constructor
  · intro h
    obtain ⟨⟨k, w⟩, hp, rfl⟩ := List.mem_map.mp h
    exact ⟨k, get_eq_some_iff.mpr hp⟩
  · rintro ⟨k, h⟩
    exact List.mem_map.mpr ⟨(k, v), get_eq_some_iff.mp h, rfl⟩

theorem get_eraseRange {lo hi : κ} :
    (m.eraseRange lo hi).get k = if lo ≤ k ∧ k < hi then none else m.get k := by
  refine Option.ext fun v => ?_
  have hiff : (m.eraseRange lo hi).get k = some v ↔ m.get k = some v ∧ ¬ (lo ≤ k ∧ k < hi) := by
    rw [get_eq_some_iff, get_eq_some_iff, eraseRange, List.mem_filter, decide_eq_true_iff]
  by_cases hk : lo ≤ k ∧ k < hi
  · rw [if_pos hk, hiff]; simp [hk]
  · rw [if_neg hk, hiff]; simp [hk]

/-- What holds of all bindings, holds of those that are left. -/
theorem forall_eraseRange {lo hi : κ} {P : κ → ν → Prop} (h : ∀ k v, m.get k = some v → P k v) :
    ∀ j x, (m.eraseRange lo hi).get j = some x → P j x := by
  intro j x hx
  rw [get_eraseRange] at hx
  split_ifs at hx
  exact h j x hx

/-- What `seekForPrev` finds is bound, lies at or below the key, and nothing lies between. -/
theorem seekForPrev_some (h : m.seekForPrev k = some (k', v)) :
    m.get k' = some v ∧ k' ≤ k ∧ ∀ j w, m.get j = some w → j ≤ k → j ≤ k' := by
  rw [seekForPrev] at h
  have hmem := List.mem_of_getLast? h
  obtain ⟨hin, hle⟩ := List.mem_filter.mp hmem
  refine ⟨get_eq_some_iff.mpr hin, by simpa using hle, fun j w hj hjk => ?_⟩
  have hjm : (j, w) ∈ m.entries.filter fun p => p.1 ≤ k :=
    List.mem_filter.mpr ⟨get_eq_some_iff.mp hj, by simpa using hjk⟩
  obtain ⟨es, he⟩ := List.getLast?_eq_some_iff.mp h
  have hs : (es ++ [(k', v)]).Pairwise (fun a b : κ × ν => a.1 < b.1) := he ▸ m.sorted.filter _
  rw [he] at hjm
  rcases List.mem_append.mp hjm with hj' | hj'
  · exact le_of_lt ((List.pairwise_append.mp hs).2.2 _ hj' (k', v) (by simp))
  · simp at hj'; exact le_of_eq hj'.1

/-- A binding at or below the key makes `seekForPrev` find one. -/
theorem seekForPrev_isSome (h : m.get k' = some v) (hk : k' ≤ k) :
    ∃ j w, m.seekForPrev k = some (j, w) := by
  have hmem : (k', v) ∈ m.entries.filter fun p => p.1 ≤ k :=
    List.mem_filter.mpr ⟨get_eq_some_iff.mp h, by simpa using hk⟩
  cases hs : m.seekForPrev k with
  | none => exact absurd (List.getLast?_eq_none_iff.mp hs) (List.ne_nil_of_mem hmem)
  | some p => exact ⟨p.1, p.2, rfl⟩

theorem seekForPrev_eq_some_iff : m.seekForPrev k = some (k', v) ↔
    m.get k' = some v ∧ k' ≤ k ∧ ∀ j w, m.get j = some w → j ≤ k → j ≤ k' := by
  refine ⟨seekForPrev_some, fun ⟨hget, hle, hmax⟩ => ?_⟩
  obtain ⟨j, w, hs⟩ := seekForPrev_isSome hget hle
  obtain ⟨hj, hjk, hjmax⟩ := seekForPrev_some hs
  obtain rfl : j = k' := le_antisymm (hmax j w hj hjk) (hjmax k' v hget hle)
  rw [hs, Option.some.inj (hj.symm.trans hget)]

/-- A binding that is put last before the start of the seek is found. -/
theorem seekForPrev_put {last : κ} (hk : k ≤ last)
    (hmax : ∀ j w, m.get j = some w → j ≤ last → j ≤ k) :
    (m.put k v).seekForPrev last = some (k, v) :=
  seekForPrev_eq_some_iff.mpr ⟨get_put_self, hk, forall_put hmax fun _ => le_rfl⟩

/-- One that is put elsewhere is not. -/
theorem seekForPrev_put_of_lt {last : κ} {w : ν} (h : m.seekForPrev last = some (k', w))
    (hk : k ≤ last → k < k') : (m.put k v).seekForPrev last = some (k', w) := by
  obtain ⟨hget, hle, hmax⟩ := seekForPrev_some h
  have hne : k' ≠ k := fun heq => lt_irrefl k (heq ▸ hk (heq ▸ hle))
  rw [← get_put_of_ne hne] at hget
  exact seekForPrev_eq_some_iff.mpr ⟨hget, hle, forall_put hmax fun hlast => (hk hlast).le⟩

/-- The binding with the greatest key. -/
def maxBinding (m : Kv κ ν) : Option (κ × ν) := m.entries.getLast?

theorem maxBinding_some (h : m.maxBinding = some (k, v)) :
    m.get k = some v ∧ ∀ j w, m.get j = some w → j ≤ k := by
  obtain ⟨es, he⟩ := List.getLast?_eq_some_iff.mp h
  have hmem : (k, v) ∈ m.entries := List.mem_of_getLast? h
  refine ⟨get_eq_some_iff.mpr hmem, fun j w hj => ?_⟩
  have hs : (es ++ [(k, v)]).Pairwise (fun a b : κ × ν => a.1 < b.1) := he ▸ m.sorted
  have hjm := get_eq_some_iff.mp hj
  rw [he] at hjm
  rcases List.mem_append.mp hjm with hj' | hj'
  · exact le_of_lt ((List.pairwise_append.mp hs).2.2 _ hj' (k, v) (by simp))
  · simp at hj'; exact le_of_eq hj'.1

theorem maxBinding_isSome (h : m.get k = some v) : ∃ j w, m.maxBinding = some (j, w) := by
  cases hs : m.maxBinding with
  | none =>
    exact absurd (List.getLast?_eq_none_iff.mp hs) (List.ne_nil_of_mem (get_eq_some_iff.mp h))
  | some p => exact ⟨p.1, p.2, rfl⟩

/-- The keys of a map, each once. -/
def keys (m : Kv κ ν) : List κ := m.entries.map Prod.fst

theorem mem_keys : k ∈ m.keys ↔ ∃ v, m.get k = some v := by
  constructor
  · intro h
    obtain ⟨⟨j, v⟩, hp, rfl⟩ := List.mem_map.mp h
    exact ⟨v, get_eq_some_iff.mpr hp⟩
  · rintro ⟨v, h⟩
    exact List.mem_map.mpr ⟨(k, v), get_eq_some_iff.mp h, rfl⟩

theorem nodup_keys : m.keys.Nodup :=
  List.pairwise_map.mpr (m.sorted.imp fun h => ne_of_lt h)

end Kv

end Lib
