import NimbusVault.RegisterChecker

/-!
# Linearizable — what an accepted history is worth

A history is `Linearizable` when its successful operations have an order in which an operation that
ended before another started comes first, and in which every `GET` returns what the operations before
it left in the register.  The checker differs from this in three ways.  A `GET` without data, and one
of data before the register is set, always pass; a `PUT` without data leaves its register alone; and
operations that only touch must be in order.  `Settled` names the histories in which real time leaves
no room for the first two (`settled_iff`), and `Decided` those in which it says what every `GET`
reads.  An accepted settled history is linearizable; a linearizable history is accepted when no two
operations touch or all is decided.
-/

namespace NimbusVault

/-! ### Linearizable histories -/

/-- What an operation leaves in a register. -/
def Op.effect (op : Op) (v : Option Str) : Option Str :=
  match op.opType with
  | .put => some op.value
  | .delete => none
  | .get => v

def valueAfter (l : List Op) : Option Str := l.foldl (fun v op => op.effect v) none

/-- Every `GET` returns the value of the latest `PUT` before it, or nothing if there is none or a
`DELETE` came after it. -/
def ReadsLatest (l : List Op) : Prop :=
  ∀ pre g post, l = pre ++ g :: post → g.opType = .get → g.value = (valueAfter pre).getD []

/-- A valid order of `ops`. -/
def ValidOrder (ops l : List Op) : Prop :=
  l.Perm ops ∧ (l.Pairwise fun a b => ¬ b.endUs < a.startUs) ∧ ReadsLatest l

def Linearizable (ops : List Op) : Prop := ∃ l, ValidOrder (ops.filter (·.ok)) l

/-! ### The checker's register -/

variable {ops l pre post : List Op} {g : Op}

theorem Op.write_eq_effect {op : Op} (hok : op.ok = true) (hv : op.opType = .put → op.value ≠ [])
    (reg : Option Str) : op.write reg = op.effect reg := by
  unfold write effect
  rw [if_neg (by simp [hok])]
  cases ht : op.opType with
  | put => simp [hv ht]
  | delete => rfl
  | get => rfl

/-- Where no `PUT` is empty, the checker's register is the register of the successful operations. -/
theorem registerAfter_eq (h : ∀ op ∈ l, op.Is .put → op.value ≠ []) :
    registerAfter l = valueAfter (l.filter (·.ok)) := by
  induction l using List.reverseRec with
  | nil => rfl
  | append_singleton l op ih =>
    have hl := ih fun o ho => h o (List.mem_append_left _ ho)
    rw [registerAfter_concat, hl, List.filter_append, valueAfter, valueAfter, List.foldl_append]
    cases hok : op.ok with
    | false => simp [Op.write, hok]
    | true =>
      have hv : op.opType = .put → op.value ≠ [] := fun ht => h op (by simp) ⟨hok, ht⟩
      simp [hok, Op.write_eq_effect hok hv]

/-- Data that a valid order leaves in the register is what the checker's register holds. -/
theorem registerAfter_of_valueAfter {v : Str} (hok : ∀ op ∈ l, op.ok = true) (hv : v ≠ [])
    (h : valueAfter l = some v) : registerAfter l = some v := by
  induction l using List.reverseRec with
  | nil => simp [valueAfter] at h
  | append_singleton l op ih =>
    have ih := ih fun o ho => hok o (List.mem_append_left _ ho)
    have hop : op.ok = true := hok op (by simp)
    have hlast : op.effect (valueAfter l) = some v := by simpa [valueAfter] using h
    rw [registerAfter_concat]
    unfold Op.effect at hlast
    cases ht : op.opType with
    | put =>
      obtain rfl : op.value = v := by simpa [ht] using hlast
      rw [Op.write_put ⟨hop, ht⟩, if_pos hv]
    | delete => simp [ht] at hlast
    | get =>
      rw [Op.write_get ⟨hop, ht⟩]
      exact ih (by simpa [ht] using hlast)

/-- A register that is set stays set up to the next `DELETE`. -/
theorem foldl_write_ne_none (hl : ∀ op ∈ l, ¬ op.Is .delete) {reg : Option Str} (hreg : reg ≠ none) :
    l.foldl (fun reg op => op.write reg) reg ≠ none := by
  refine List.foldlRecOn (motive := (· ≠ none)) l _ hreg fun reg hreg op hop => ?_
  rcases op.cases with hf | hp | hd | hg
  · rwa [Op.write_failed hf]
  · rw [Op.write_put hp]
    split_ifs <;> simp [hreg]
  · exact absurd hd (hl op hop)
  · rwa [Op.write_get hg]

/-- A register that is not stays so up to the next `PUT`. -/
theorem foldl_write_eq_none (hl : ∀ op ∈ l, ¬ op.Is .put) :
    l.foldl (fun reg op => op.write reg) none = none := by
  refine List.foldlRecOn (motive := (· = none)) l _ rfl fun reg hreg op hop => ?_
  rcases op.cases with hf | hp | hd | hg
  · rwa [Op.write_failed hf]
  · exact absurd hp (hl op hop)
  · rw [Op.write_delete hd]
  · rwa [Op.write_get hg]

/-! ### What real time says of the register -/

/-- Real time puts a `PUT` before `g`, and no `DELETE` between them. -/
def SetBefore (ops : List Op) (g : Op) : Prop :=
  ∃ p ∈ ops, p.Is .put ∧ realTimeBefore p g ∧
    ∀ d ∈ ops, d.Is .delete → realTimeBefore d p ∨ realTimeBefore g d

/-- Real time puts every `PUT` after `g`, or before a `DELETE` that is before `g`. -/
def UnsetBefore (ops : List Op) (g : Op) : Prop :=
  (∀ q ∈ ops, q.Is .put → realTimeBefore g q) ∨
    ∃ d ∈ ops, d.Is .delete ∧ realTimeBefore d g ∧
      ∀ q ∈ ops, q.Is .put → realTimeBefore q d ∨ realTimeBefore g q

/-- No `PUT` is empty, and real time alone says of every `GET` whether the register was set, which it
was exactly if the `GET` returned data. -/
structure Settled (ops : List Op) : Prop where
  puts : ∀ op ∈ ops, op.Is .put → op.value ≠ []
  set : ∀ g ∈ ops, g.Is .get → g.value ≠ [] → SetBefore ops g
  unset : ∀ g ∈ ops, g.Is .get → g.value = [] → UnsetBefore ops g

/-- No `PUT` is empty, and in no order does a `GET` of data meet an unset register, or a `GET` without
data a set one. -/
def NeverLenient (ops : List Op) : Prop :=
  (∀ op ∈ ops, op.Is .put → op.value ≠ []) ∧
    ∀ pre g post, RealTimeOrder ops (pre ++ g :: post) → g.Is .get →
      (g.value ≠ [] ↔ registerAfter pre ≠ none)

section Order

variable (h : RealTimeOrder ops (pre ++ g :: post))

include h

/-- An operation that must precede `g` stands before it. -/
theorem RealTimeOrder.mem_pre {x : Op} (hx : x ∈ ops) (hne : x ≠ g) (hrt : realTimeBefore x g) :
    x ∈ pre := by
  have hmem : x ∈ pre ++ g :: post := h.1.mem_iff.mpr hx
  rcases List.mem_append.mp hmem with hpre | hpost
  · exact hpre
  · have hx' : x ∈ post := (List.mem_cons.mp hpost).resolve_left hne
    exact absurd hrt (List.rel_of_pairwise_cons (List.pairwise_append.mp h.2).2.1 hx')

/-- One that stands before `g` need not come after it. -/
theorem RealTimeOrder.not_after {x : Op} (hx : x ∈ pre) : ¬ realTimeBefore g x :=
  (List.pairwise_append.mp h.2).2.2 x hx g List.mem_cons_self

theorem RealTimeOrder.mem_of_pre {x : Op} (hx : x ∈ pre) : x ∈ ops :=
  h.1.mem_iff.mp (List.mem_append_left _ hx)

/-- An operation before `g`, with none of a kind left between the two. -/
theorem RealTimeOrder.exists_last {w : Op} {K : Op → Prop} (hw : w ∈ ops) (hne : w ≠ g)
    (hrt : realTimeBefore w g) (hK : ∀ q ∈ ops, K q → realTimeBefore q w ∨ realTimeBefore g q) :
    ∃ pre₁ pre₂, pre = pre₁ ++ w :: pre₂ ∧ ∀ q ∈ pre₂, ¬ K q := by
  obtain ⟨pre₁, pre₂, rfl⟩ := List.append_of_mem (h.mem_pre hw hne hrt)
  refine ⟨pre₁, pre₂, rfl, fun q hq hkind => ?_⟩
  have hmem : q ∈ pre₁ ++ w :: pre₂ := by simp [hq]
  rcases hK q (h.mem_of_pre hmem) hkind with hqw | hgq
  · have hpair := (List.pairwise_append.mp h.2).1
    exact List.rel_of_pairwise_cons (List.pairwise_append.mp hpair).2.1 hq hqw
  · exact h.not_after hmem hgq

/-- In every order the register is set at a `GET` before which it must be. -/
theorem registerAfter_ne_none (hputs : ∀ op ∈ ops, op.Is .put → op.value ≠ []) (hg : g.Is .get)
    (hset : SetBefore ops g) : registerAfter pre ≠ none := by
  obtain ⟨p, hp, hput, hrt, hdel⟩ := hset
  have hne : p ≠ g := fun he => absurd (hput.unique (he ▸ hg)) (by decide)
  obtain ⟨pre₁, pre₂, rfl, hno⟩ := h.exists_last hp hne hrt hdel
  have hwrite : p.write (registerAfter pre₁) ≠ none := by
    simp [Op.write_put hput, hputs p hp hput]
  have hfold := foldl_write_ne_none hno hwrite
  simpa [registerAfter] using hfold

/-- Before a `GET` at which the register must not be set, no `PUT` stands behind the last `DELETE`. -/
theorem UnsetBefore.split (hunset : UnsetBefore ops g) (hg : g.Is .get) :
    (∀ q ∈ pre, ¬ q.Is .put) ∨
      ∃ pre₁ d pre₂, pre = pre₁ ++ d :: pre₂ ∧ d.Is .delete ∧ ∀ q ∈ pre₂, ¬ q.Is .put := by
  rcases hunset with hnone | ⟨d, hd, hdelete, hrt, hput⟩
  · exact .inl fun q hq hqp => h.not_after hq (hnone q (h.mem_of_pre hq) hqp)
  · have hne : d ≠ g := fun he => absurd (hdelete.unique (he ▸ hg)) (by decide)
    obtain ⟨pre₁, pre₂, hpre, hno⟩ := h.exists_last hd hne hrt hput
    exact .inr ⟨pre₁, d, pre₂, hpre, hdelete, hno⟩

/-- In every order it is not set at such a `GET`. -/
theorem registerAfter_eq_none (hg : g.Is .get) (hunset : UnsetBefore ops g) :
    registerAfter pre = none := by
  rcases hunset.split h hg with hno | ⟨pre₁, d, pre₂, rfl, hdelete, hno⟩
  · exact foldl_write_eq_none hno
  · have hfold := foldl_write_eq_none hno
    simpa [registerAfter, Op.write_delete hdelete] using hfold

end Order

/-! ### Orders that real time leaves open

Apart from operations at one instant, real time is an order on the operations. -/

theorem realTimeBefore_trans {a b c : Op} (hb : b.startUs ≤ b.endUs) (hab : realTimeBefore a b)
    (hbc : realTimeBefore b c) : realTimeBefore a c :=
  le_trans hab (hb.trans hbc)

section Open

variable {w : Op} (hlen : ∀ op ∈ ops, op.startUs ≤ op.endUs)
  (hapart : ops.Pairwise fun a b => ¬ Simultaneous a b)

include hlen hapart

theorem realTimeBefore_antisymm {a b : Op} (ha : a ∈ ops) (hb : b ∈ ops) (hab : realTimeBefore a b)
    (hba : realTimeBefore b a) : a = b := by
  by_contra hne
  have hla := hlen a ha
  have hlb := hlen b hb
  unfold realTimeBefore at hab hba
  exact hapart.forall ha hb hne ⟨by omega, by omega, by omega⟩

/-- **The one may stand right before the other**, up to what real time puts between them, unless real
time puts it behind. -/
theorem exists_order_between (hw : w ∈ ops) (hg : g ∈ ops) (hne : w ≠ g) (hgw : ¬ realTimeBefore g w) :
    ∃ pre mid post, RealTimeOrder ops (pre ++ w :: (mid ++ g :: post)) ∧
      ∀ x ∈ mid, x = w ∨ x = g ∨ realTimeBefore w x ∧ realTimeBefore x g := by
  let rank (x : Op) : ℕ :=
    if x = w then 1 else if x = g then 2
    else if ¬ realTimeBefore w x ∧ ¬ realTimeBefore g x then 0
    else if realTimeBefore w x ∧ realTimeBefore x g then 1 else 3
  obtain ⟨l, hl, hsorted⟩ := exists_order_of_rank rank hlen hapart fun a ha b hb hab => by
    have h1 := realTimeBefore_trans (hlen a ha) (a := w) (c := b)
    have h2 := realTimeBefore_trans (hlen a ha) (a := g) (c := b)
    have h3 := realTimeBefore_trans (hlen b hb) hab (c := g)
    have h4 := realTimeBefore_trans (hlen b hb) hab (c := w)
    have h5 := realTimeBefore_antisymm hlen hapart ha hw
    have h6 := realTimeBefore_antisymm hlen hapart ha hg
    have h7 := realTimeBefore_antisymm hlen hapart hb hw
    have h8 := realTimeBefore_antisymm hlen hapart hb hg
    grind
  have hrw : rank w = 1 := if_pos rfl
  have hrg : rank g = 2 := by simp only [rank, if_neg hne.symm, if_true]
  obtain ⟨pre, post, rfl⟩ := List.append_of_mem (hl.1.mem_iff.mpr hg)
  have hpre : w ∈ pre := by
    refine (List.mem_append.mp (hl.1.mem_iff.mpr hw)).resolve_right fun hmem => ?_
    have hpost : w ∈ post := (List.mem_cons.mp hmem).resolve_left hne
    have hle := List.rel_of_pairwise_cons (List.pairwise_append.mp hsorted).2.1 hpost
    omega
  obtain ⟨pre, mid, rfl⟩ := List.append_of_mem hpre
  refine ⟨pre, mid, post, by simpa using hl, fun x hx => ?_⟩
  have hge : rank w ≤ rank x := List.rel_of_pairwise_cons
    (List.pairwise_append.mp (List.pairwise_append.mp hsorted).1).2.1 hx
  have hle : rank x ≤ rank g :=
    (List.pairwise_append.mp hsorted).2.2 x (by simp [hx]) g List.mem_cons_self
  grind

/-- **The one may be the first**, up to what real time puts before it. -/
theorem exists_order_first (hg : g ∈ ops) :
    ∃ pre post, RealTimeOrder ops (pre ++ g :: post) ∧ ∀ x ∈ pre, x = g ∨ realTimeBefore x g := by
  let rank (x : Op) : ℕ := if x = g then 1 else if realTimeBefore x g then 0 else 2
  obtain ⟨l, hl, hsorted⟩ := exists_order_of_rank rank hlen hapart fun a ha b hb hab => by
    have h1 := realTimeBefore_trans (hlen b hb) hab (c := g)
    have h2 := realTimeBefore_antisymm hlen hapart ha hg
    have h3 := realTimeBefore_antisymm hlen hapart hb hg
    grind
  have hrg : rank g = 1 := if_pos rfl
  obtain ⟨pre, post, rfl⟩ := List.append_of_mem (hl.1.mem_iff.mpr hg)
  refine ⟨pre, post, hl, fun x hx => ?_⟩
  have hle : rank x ≤ rank g := (List.pairwise_append.mp hsorted).2.2 x hx g List.mem_cons_self
  grind

/-! What the register may be at a `GET` is what some order leaves in it. -/

/-- **Real time sets the register** before `g` exactly when every order does. -/
theorem setBefore_iff (hputs : ∀ op ∈ ops, op.Is .put → op.value ≠ []) (hg : g ∈ ops)
    (hget : g.Is .get) : SetBefore ops g ↔
      ∀ pre post, RealTimeOrder ops (pre ++ g :: post) → registerAfter pre ≠ none := by
  refine ⟨fun hset pre post h => registerAfter_ne_none h hputs hget hset, fun hall => ?_⟩
  by_contra hset
  let early := (ops.filter fun p => p.Is .put ∧ realTimeBefore p g).toFinset
  rcases early.eq_empty_or_nonempty with hnone | hsome
  · -- `g` may come before every `PUT`
    obtain ⟨pre, post, hl, hpre⟩ := exists_order_first hlen hapart hg
    refine hall pre post hl (foldl_write_eq_none fun q hq hput => ?_)
    rcases hpre q hq with rfl | hrt
    · exact absurd (hput.unique hget) (by decide)
    · have hmem : q ∈ early := by simp [early, hl.mem_of_pre hq, hput, hrt]
      simp [hnone] at hmem
  · -- a `DELETE` may come behind every `PUT` that must precede `g`
    obtain ⟨p, hp, hlast⟩ := early.exists_max_image Op.startUs hsome
    simp only [early, List.mem_toFinset, List.mem_filter, decide_eq_true_eq] at hp hlast
    unfold SetBefore at hset
    push Not at hset
    obtain ⟨d, hd, hdel, hdp, hgd⟩ := hset p hp.1 hp.2.1 hp.2.2
    obtain ⟨pre, mid, post, hl, hmid⟩ := exists_order_between hlen hapart hd hg
      (fun he => absurd (hdel.unique (he ▸ hget)) (by decide)) hgd
    refine hall (pre ++ d :: mid) post (by simpa using hl) ?_
    have hno : ∀ q ∈ mid, ¬ q.Is .put := by
      intro q hq hput
      rcases hmid q hq with rfl | rfl | ⟨hdq, hqg⟩
      · exact absurd (hput.unique hdel) (by decide)
      · exact absurd (hput.unique hget) (by decide)
      · have hmem : q ∈ ops := hl.1.mem_iff.mp (by simp [hq])
        have hle := hlast q ⟨hmem, hput, hqg⟩
        exact hdp (le_trans hdq hle)
    have hfold := foldl_write_eq_none hno
    simpa [registerAfter, Op.write_delete hdel] using hfold

/-- **Real time leaves the register unset** before `g` exactly when every order does. -/
theorem unsetBefore_iff (hputs : ∀ op ∈ ops, op.Is .put → op.value ≠ []) (hg : g ∈ ops)
    (hget : g.Is .get) : UnsetBefore ops g ↔
      ∀ pre post, RealTimeOrder ops (pre ++ g :: post) → registerAfter pre = none := by
  refine ⟨fun hunset pre post h => registerAfter_eq_none h hget hunset, fun hall => ?_⟩
  by_contra hunset
  unfold UnsetBefore at hunset
  push Not at hunset
  obtain ⟨⟨q₀, hq₀, hput₀, hgq₀⟩, hdel⟩ := hunset
  -- a `PUT` may come behind every `DELETE` that must precede `g`
  obtain ⟨q, hq, hput, hgq, hlast⟩ : ∃ q ∈ ops, q.Is .put ∧ ¬ realTimeBefore g q ∧
      ∀ d ∈ ops, d.Is .delete → realTimeBefore q d → ¬ realTimeBefore d g := by
    let early := (ops.filter fun d => d.Is .delete ∧ realTimeBefore d g).toFinset
    have hmem : ∀ d, d ∈ early ↔ d ∈ ops ∧ d.Is .delete ∧ realTimeBefore d g := fun d => by
      simp [early]
    rcases early.eq_empty_or_nonempty with hnone | hsome
    · refine ⟨q₀, hq₀, hput₀, hgq₀, fun d hd hdelete _ hdg => ?_⟩
      have hin := (hmem d).mpr ⟨hd, hdelete, hdg⟩
      simp [hnone] at hin
    · obtain ⟨d, hd, hmax⟩ := early.exists_max_image Op.startUs hsome
      obtain ⟨hd, hdelete, hdg⟩ := (hmem d).mp hd
      obtain ⟨q, hq, hput, hqd, hgq⟩ := hdel d hd hdelete hdg
      refine ⟨q, hq, hput, hgq, fun d' hd' hdelete' hqd' hdg' => ?_⟩
      have hle := hmax d' ((hmem d').mpr ⟨hd', hdelete', hdg'⟩)
      exact hqd (le_trans hqd' hle)
  obtain ⟨pre, mid, post, hl, hmid⟩ := exists_order_between hlen hapart hq hg
    (fun he => absurd (hput.unique (he ▸ hget)) (by decide)) hgq
  have hset : q.write (registerAfter pre) ≠ none := by simp [Op.write_put hput, hputs q hq hput]
  have hno : ∀ d ∈ mid, ¬ d.Is .delete := by
    intro d hd hdelete
    rcases hmid d hd with rfl | rfl | ⟨hqd, hdg⟩
    · exact absurd (hput.unique hdelete) (by decide)
    · exact absurd (hget.unique hdelete) (by decide)
    · exact hlast d (hl.1.mem_iff.mp (by simp [hd])) hdelete hqd hdg
  have hfold := foldl_write_ne_none hno hset
  have hreg : registerAfter (pre ++ q :: mid) ≠ none := by simpa [registerAfter] using hfold
  exact hreg (hall (pre ++ q :: mid) post (by simpa using hl))

/-- **What settled histories are**: those in which the checker has no occasion to be lenient. -/
theorem settled_iff : Settled ops ↔ NeverLenient ops := by
  constructor
  · refine fun hs => ⟨hs.puts, fun pre g post h hget => ?_⟩
    have hg : g ∈ ops := h.1.mem_iff.mp (by simp)
    by_cases hv : g.value = []
    · simp [hv, registerAfter_eq_none h hget (hs.unset g hg hget hv)]
    · simp [hv, registerAfter_ne_none h hs.puts hget (hs.set g hg hget hv)]
  · rintro ⟨hputs, hall⟩
    refine ⟨hputs, fun g hg hget hv => ?_, fun g hg hget hv => ?_⟩
    · exact (setBefore_iff hlen hapart hputs hg hget).mpr fun pre post h =>
        (hall pre g post h hget).mp hv
    · refine (unsetBefore_iff hlen hapart hputs hg hget).mpr fun pre post h => ?_
      by_contra hreg
      exact (hall pre g post h hget).mpr hreg hv

end Open

/-! ### When acceptance means linearizability -/

/-- A split of the successful operations is a split of all. -/
theorem filter_eq_split {pre' post' : List Op} (h : l.filter (·.ok) = pre' ++ g :: post') :
    ∃ pre post, l = pre ++ g :: post ∧ pre.filter (·.ok) = pre' ∧ g.ok = true := by
  obtain ⟨l₁, l₂, rfl, rfl, hcons⟩ := List.filter_eq_append_iff.mp h
  obtain ⟨m₁, m₂, rfl, hm₁, hok, -⟩ := List.filter_eq_cons_iff.mp hcons
  refine ⟨l₁ ++ m₁, m₂, by simp, ?_, hok⟩
  rw [List.filter_append, List.filter_eq_nil_iff.mpr hm₁, List.append_nil]

/-- Of a settled history, an order without conflict is valid. -/
theorem Settled.validOrder (hs : Settled ops) (h : RealTimeOrder ops l) (hl : NoConflict l) :
    ValidOrder (ops.filter (·.ok)) (l.filter (·.ok)) := by
  refine ⟨h.1.filter _, (h.2.imp fun hrt hlt => hrt hlt.le).filter _, fun pre' g post' heq hget => ?_⟩
  obtain ⟨pre, post, rfl, rfl, hok⟩ := filter_eq_split heq
  have hmem : g ∈ ops := h.1.mem_iff.mp (by simp)
  have hputs : ∀ op ∈ pre, op.Is .put → op.value ≠ [] := fun op hop => hs.puts op (h.mem_of_pre hop)
  rw [← registerAfter_eq hputs]
  by_cases hv : g.value = []
  · rw [registerAfter_eq_none h ⟨hok, hget⟩ (hs.unset g hmem ⟨hok, hget⟩ hv), hv]
    rfl
  · have hne := registerAfter_ne_none h hs.puts ⟨hok, hget⟩ (hs.set g hmem ⟨hok, hget⟩ hv)
    obtain ⟨v, hreg⟩ := Option.ne_none_iff_exists'.mp hne
    rw [hreg]
    exact hl pre g post rfl hok hget hv v hreg

/-- **When acceptance means linearizability**: in settled histories.  One with two operations of no
length at one time is never accepted. -/
theorem accepts_sound (h : Settled ops ∨ ¬ ops.Pairwise fun a b => ¬ Simultaneous a b)
    (hacc : isLinearizableRegister ops = true) : Linearizable ops := by
  rcases h with hs | hsim
  · obtain ⟨l, hl, hno⟩ := isLinearizableRegister_iff_noConflict.mp hacc
    exact ⟨_, hs.validOrder hl hno⟩
  · exact absurd (pairwise_of_isLinearizableRegister hacc) hsim

/-! ### Histories that real time decides -/

/-- Real time says what `g` reads, and `g` has read it: the data of a `PUT` before `g` with no other
`PUT` or `DELETE` between them, or nothing from a register that is not set. -/
def ReadDecided (ops : List Op) (g : Op) : Prop :=
  (∃ p ∈ ops, p.Is .put ∧ p.value = g.value ∧ realTimeBefore p g ∧
    ∀ q ∈ ops, q.Is .put ∨ q.Is .delete → q ≠ p → realTimeBefore q p ∨ realTimeBefore g q) ∨
  (g.value = [] ∧ UnsetBefore ops g)

def Decided (ops : List Op) : Prop := ∀ g ∈ ops, g.Is .get → ReadDecided ops g

/-- What a register holds stays up to the next operation that writes something else. -/
theorem foldl_effect_eq {v : Option Str} (hl : ∀ op ∈ l, op.opType = .get ∨ op.effect v = v) :
    l.foldl (fun v op => op.effect v) v = v := by
  refine List.foldlRecOn (motive := (· = v)) l _ rfl fun w hw op hop => ?_
  rw [hw]
  rcases hl op hop with hget | heff
  · simp [Op.effect, hget]
  · exact heff

/-- Without a `PUT` an unset register stays so. -/
theorem foldl_effect_none (hl : ∀ op ∈ l, ¬ op.Is .put) :
    (l.filter (·.ok)).foldl (fun v op => op.effect v) none = none := by
  refine foldl_effect_eq fun op hop => ?_
  obtain ⟨hop, hok⟩ := List.mem_filter.mp hop
  cases htype : op.opType with
  | put => exact absurd ⟨hok, htype⟩ (hl op hop)
  | get => exact .inl rfl
  | delete => exact .inr (by simp [Op.effect, htype])

/-- In every order a decided `GET` returns what the successful operations before it leave. -/
theorem ReadDecided.value_eq (hd : ReadDecided ops g) (h : RealTimeOrder ops (pre ++ g :: post))
    (hget : g.Is .get) : g.value = (valueAfter (pre.filter (·.ok))).getD [] := by
  rcases hd with ⟨p, hp, hput, hval, hrt, hother⟩ | ⟨hval, hunset⟩
  · have hne : p ≠ g := fun he => absurd (hput.unique (he ▸ hget)) (by decide)
    obtain ⟨pre₁, pre₂, rfl, hno⟩ := h.exists_last
      (K := fun q => (q.Is .put ∨ q.Is .delete) ∧ q ≠ p) hp hne hrt
      fun q hq hkind => hother q hq hkind.1 hkind.2
    have hwrite : ∀ v, p.effect v = some g.value := fun v => by simp [Op.effect, hput.2, hval]
    have hkeep : ∀ q ∈ pre₂.filter (·.ok), q.opType = .get ∨ q.effect (some g.value) = some g.value := by
      intro q hq
      obtain ⟨hq, hok⟩ := List.mem_filter.mp hq
      by_cases hqp : q = p
      · exact .inr (hqp ▸ hwrite _)
      · rcases q.cases with hfailed | hq' | hq' | hq'
        · simp [hfailed] at hok
        · exact absurd ⟨.inl hq', hqp⟩ (hno q hq)
        · exact absurd ⟨.inr hq', hqp⟩ (hno q hq)
        · exact .inl hq'.2
    have hpok : p.ok = true := hput.1
    rw [List.filter_append, List.filter_cons_of_pos (by simpa using hpok), valueAfter,
      List.foldl_append, List.foldl_cons, hwrite, foldl_effect_eq hkeep, Option.getD_some]
  · have hnone : valueAfter (pre.filter (·.ok)) = none := by
      rcases hunset.split h hget with hno | ⟨pre₁, d, pre₂, rfl, hdelete, hno⟩
      · exact foldl_effect_none hno
      · have hdok : d.ok = true := hdelete.1
        have hclear : ∀ v, d.effect v = none := fun v => by simp [Op.effect, hdelete.2]
        rw [List.filter_append, List.filter_cons_of_pos (by simpa using hdok), valueAfter,
          List.foldl_append, List.foldl_cons, hclear, foldl_effect_none hno]
    rw [hnone, hval, Option.getD_none]

/-- Every order of a decided history is valid. -/
theorem Decided.validOrder (hd : Decided ops) (h : RealTimeOrder ops l) :
    ValidOrder (ops.filter (·.ok)) (l.filter (·.ok)) := by
  refine ⟨h.1.filter _, (h.2.imp fun hrt hlt => hrt hlt.le).filter _, fun pre' g post' heq hget => ?_⟩
  obtain ⟨pre, post, rfl, rfl, hok⟩ := filter_eq_split heq
  have hmem : g ∈ ops := h.1.mem_iff.mp (by simp)
  exact (hd g hmem ⟨hok, hget⟩).value_eq h ⟨hok, hget⟩

theorem Decided.linearizable (hd : Decided ops) (hlen : ∀ op ∈ ops, op.startUs ≤ op.endUs)
    (hapart : ops.Pairwise fun a b => ¬ Simultaneous a b) : Linearizable ops := by
  obtain ⟨l, hl⟩ := exists_realTimeOrder hlen hapart
  exact ⟨_, hd.validOrder hl⟩

/-! ### When linearizable histories are accepted -/

/-- One of the two operations ended when the other started. -/
def Touch (a b : Op) : Prop := a.endUs = b.startUs ∨ b.endUs = a.startUs

theorem ValidOrder.noConflict (h : ValidOrder ops l) (hok : ∀ op ∈ l, op.ok = true) : NoConflict l := by
  rintro pre g post rfl - hget hv v hreg
  have hread := h.2.2 pre g post rfl hget
  cases hval : valueAfter pre with
  | none =>
    rw [hval] at hread
    exact absurd hread hv
  | some w =>
    obtain rfl : g.value = w := by rw [hread, hval]; rfl
    have hpre : ∀ op ∈ pre, op.ok = true := fun op hop => hok op (by simp [hop])
    rw [registerAfter_of_valueAfter hpre hv hval] at hreg
    exact Option.some.inj hreg

/-- **When a linearizable history is accepted**: when no two operations touch; and when no two of them
are at one instant and real time says what every `GET` reads.  With two at one instant it never is. -/
theorem accepts_complete (ops : List Op) (h : ∀ op ∈ ops, op.ok = true ∧ op.startUs ≤ op.endUs) :
    (((ops.Pairwise fun a b => ¬ Touch a b) ∨
        (ops.Pairwise fun a b => ¬ Simultaneous a b) ∧ Decided ops) →
      Linearizable ops → isLinearizableRegister ops = true) ∧
    ((¬ ops.Pairwise fun a b => ¬ Simultaneous a b) → isLinearizableRegister ops = false) := by
  have hall : ∀ l : List Op, l.Perm ops → ∀ op ∈ l, op.ok = true := fun l hl op hop =>
    (h op (hl.mem_iff.mp hop)).1
  constructor
  · rintro (htouch | ⟨hapart, hd⟩) hlin <;> rw [isLinearizableRegister_iff_noConflict]
    · obtain ⟨l, hl⟩ := hlin
      rw [List.filter_eq_self.mpr fun op hop => (h op hop).1] at hl
      have hsymm : ∀ {a b : Op}, ¬ Touch a b → ¬ Touch b a := fun hn ht => hn (Or.symm ht)
      refine ⟨l, ⟨hl.1, ?_⟩, hl.noConflict (hall l hl.1)⟩
      refine (List.Pairwise.and hl.2.1 ((hl.1.pairwise_iff hsymm).mpr htouch)).imp ?_
      rintro a b ⟨hlt, hn⟩ hle
      exact hlt (lt_of_le_of_ne hle fun he => hn (.inr he))
    · obtain ⟨l, hl⟩ := exists_realTimeOrder (fun op hop => (h op hop).2) hapart
      have hvalid := hd.validOrder hl
      rw [List.filter_eq_self.mpr (hall l hl.1)] at hvalid
      exact ⟨l, hl, hvalid.noConflict (hall l hl.1)⟩
  · intro hsim
    by_contra hacc
    exact hsim (pairwise_of_isLinearizableRegister (Bool.eq_true_of_not_eq_false hacc))

/-! ### Operations that touch, and two writes at one instant -/

def putAt (t : ℤ) (v : Str) : Op := ⟨t, t, .put, v, true⟩

/-- A `PUT`, and a `GET` that starts when it ends. -/
def touching : List Op := [⟨0, 5, .put, ['x'], true⟩, ⟨5, 6, .get, ['x'], true⟩]

theorem touching_decided : Decided touching := by
  intro g hg hget
  simp only [touching, List.mem_cons, List.not_mem_nil, or_false] at hg
  rcases hg with rfl | rfl
  · exact absurd hget.2 (by decide)
  · exact .inl (by decide)

theorem accepts_complete_touching :
    isLinearizableRegister touching = true ∧
      isLinearizableRegister [putAt 5 ['x'], putAt 5 ['y']] = false := by
  have hlen : ∀ op ∈ touching, op.startUs ≤ op.endUs := by decide
  have hapart : touching.Pairwise fun a b => ¬ Simultaneous a b :=
    List.pairwise_pair.mpr (by rintro ⟨h, -⟩; simp at h)
  have hlin : Linearizable touching := touching_decided.linearizable hlen hapart
  refine ⟨(accepts_complete touching (by decide)).1 (.inr ⟨hapart, touching_decided⟩) hlin, ?_⟩
  exact (accepts_complete _ (by decide)).2 fun h =>
    List.rel_of_pairwise_cons h List.mem_cons_self ⟨rfl, rfl, rfl⟩

/-- Each of the two must precede the other, and the checker finds no candidate. -/
theorem simultaneous_puts_rejected : ¬ ∀ ops : List Op,
    (∀ op ∈ ops, op.ok = true ∧ op.startUs ≤ op.endUs) → Linearizable ops →
      isLinearizableRegister ops = true := by
  intro h
  have hlin : Linearizable [putAt 5 ['x'], putAt 5 ['y']] := by
    refine ⟨_, .refl _, by decide, fun pre g post heq hget => ?_⟩
    have hmem : g ∈ [putAt 5 ['x'], putAt 5 ['y']].filter (·.ok) := heq ▸ by simp
    have hputs : ∀ op ∈ [putAt 5 ['x'], putAt 5 ['y']].filter (·.ok), op.opType = .put := by decide
    exact absurd (hget.symm.trans (hputs g hmem)) (by decide)
  have hpair := pairwise_of_isLinearizableRegister (h _ (by decide) hlin)
  exact List.rel_of_pairwise_cons hpair List.mem_cons_self ⟨rfl, rfl, rfl⟩

/-! ### A read of something that was not written -/

/-- A `GET` after a `PUT` of other data is not linearizable. -/
theorem not_linearizable_pair {p g : Op} (hp : p.Is .put) (hg : g.Is .get) (hlt : p.endUs < g.startUs)
    (hv : g.value ≠ p.value) : ¬ Linearizable [p, g] := by
  rintro ⟨l, hperm, hpair, hreads⟩
  rw [List.filter_eq_self.mpr (by simp [hp.1, hg.1])] at hperm
  obtain ⟨pre, post, rfl⟩ := List.append_of_mem (hperm.mem_iff.mpr (by simp : g ∈ [p, g]))
  have hne : p ≠ g := fun he => by
    have := hp.2.symm.trans (he ▸ hg.2)
    simp at this
  have hpre : p ∈ pre := by
    have hmem : p ∈ pre ++ g :: post := hperm.mem_iff.mpr (by simp)
    refine (List.mem_append.mp hmem).resolve_right fun hpost => ?_
    have hpost' : p ∈ post := (List.mem_cons.mp hpost).resolve_left hne
    exact List.rel_of_pairwise_cons (List.pairwise_append.mp hpair).2.1 hpost' hlt
  obtain rfl : pre = [p] := by
    have hlen := hperm.length_eq
    have hpos := List.length_pos_of_mem hpre
    simp only [List.length_append, List.length_cons, List.length_nil] at hlen
    obtain ⟨q, rfl⟩ := List.length_eq_one_iff.mp (by omega : pre.length = 1)
    rw [List.mem_singleton.mp hpre]
  have hread := hreads [p] g post rfl hg.2
  simp only [valueAfter, List.foldl_cons, List.foldl_nil, Op.effect, hp.2, Option.getD_some] at hread
  exact hv hread

end NimbusVault
