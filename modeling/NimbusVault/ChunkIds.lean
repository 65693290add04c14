import NimbusVault.VersionMap

/-!
# ChunkIds — which chunk ids get in each other's way

Ids are pasted into keys as they are, so the keys of `b/x` lie behind the prefix `chunk/b/` of `b`.
Two things can go wrong: the range that `remove` deletes for an id covers the keys of a longer one
(`Clears`), and the last key that `read` finds for an id is one of a longer one (`Shadows`).
Whether they do depends on how `x/` sorts against the versions and `~`.  Two ids are independent in
every store exactly when neither happens (`independent_iff`); without `/` in them they always are.
-/

namespace NimbusVault

open Lib Lib.Text

/-! ### Order of texts with a common front -/

theorem lt_append_iff : ∀ {p q : Str}, ¬ q <+: p → ∀ t, p < q ++ t ↔ p < q
  | _, [], h, _ => absurd List.nil_prefix h
  | [], d :: q, _, t => ⟨fun _ => List.nil_lt_cons d q, fun _ => List.nil_lt_cons d (q ++ t)⟩
  | c :: p, d :: q, h, t => by
    rw [List.cons_append, List.cons_lt_cons_iff, List.cons_lt_cons_iff]
    refine or_congr Iff.rfl (and_congr_right fun hcd => lt_append_iff (fun hq => h ?_) t)
    exact List.cons_prefix_cons.mpr ⟨hcd.symm, hq⟩

theorem append_lt_iff : ∀ {p q : Str}, ¬ q <+: p → ∀ t, q ++ t < p ↔ q < p
  | _, [], h, _ => absurd List.nil_prefix h
  | [], d :: q, _, t => ⟨fun h => absurd h (List.not_lt_nil _), fun h => absurd h (List.not_lt_nil _)⟩
  | c :: p, d :: q, h, t => by
    rw [List.cons_append, List.cons_lt_cons_iff, List.cons_lt_cons_iff]
    refine or_congr Iff.rfl (and_congr_right fun hdc => append_lt_iff (fun hq => h ?_) t)
    exact List.cons_prefix_cons.mpr ⟨hdc, hq⟩

theorem append_left_lt_iff {p s t : Str} : p ++ s < p ++ t ↔ s < t := by
  induction p with
  | nil => exact Iff.rfl
  | cons c p ih => simp [ih]

namespace ChunkStore

variable {a b key : Str} {v : UInt64}

/-- An id whose prefix begins with that of another one extends it. -/
theorem eq_append_of_prefix (hab : a ≠ b) (h : chunkPrefix a <+: chunkPrefix b) :
    ∃ x, b = a ++ '/' :: x := by
  obtain ⟨t, ht⟩ := h
  simp only [chunkPrefix, List.append_assoc, List.singleton_append] at ht
  have heq := List.append_cancel_left ht
  rcases List.eq_nil_or_concat t with rfl | ⟨t, c, rfl⟩
  · exact absurd (List.append_cancel_right heq) hab
  · have hb : (a ++ '/' :: t) ++ [c] = b ++ ['/'] := by simpa using heq
    exact ⟨t, ((List.append_inj' hb rfl).1).symm⟩

theorem chunkPrefix_append (a x : Str) : chunkPrefix (a ++ '/' :: x) = chunkPrefix a ++ (x ++ ['/']) := by
  simp [chunkPrefix]

/-- The prefix of a longer id does not fit in front of a key part without `/`. -/
theorem not_prefix_of_slash {p x : Str} (hp : '/' ∉ p) :
    ¬ chunkPrefix (a ++ '/' :: x) <+: chunkPrefix a ++ p := by
  rw [chunkPrefix_append, List.prefix_append_right_inj]
  intro h
  exact hp (h.subset (by simp))

/-! ### The two ways to interfere -/

/-- The range that `remove` deletes for `a` holds the prefix of `b`, and all that is behind it. -/
def Clears (a b : Str) : Prop :=
  makeKey a 0 ≤ chunkPrefix b ∧ chunkPrefix b < chunkPrefix a ++ ['~']

instance (a b : Str) : Decidable (Clears a b) := inferInstanceAs (Decidable (_ ∧ _))

/-- The first character of `x/` that is not a tab. -/
def leadChar (x : Str) : Char := (x.dropWhile (· = '\t')).head?.getD '/'

/-- `a` is `b/x`, its keys sort before the key where `read` starts for `b`, and behind some text
that `stoull` takes for a number. -/
def Shadows (a b : Str) : Prop :=
  b ++ ['/'] <+: a ∧ chunkPrefix a ≤ makeKey b 9999999999 ∧
    '\t' < leadChar (a.drop (b.length + 1))

instance (a b : Str) : Decidable (Shadows a b) := inferInstanceAs (Decidable (_ ∧ _ ∧ _))

def Interferes (a b : Str) : Prop := Clears a b ∨ Shadows a b

instance (a b : Str) : Decidable (Interferes a b) := inferInstanceAs (Decidable (_ ∨ _))

theorem shadows_append {x : Str} : Shadows (b ++ '/' :: x) b ↔
    chunkPrefix (b ++ '/' :: x) ≤ makeKey b 9999999999 ∧ '\t' < leadChar x := by
  have hdrop : (b ++ '/' :: x).drop (b.length + 1) = x := by
    rw [List.drop_append]
    simp
  unfold Shadows
  rw [hdrop]
  exact and_iff_right ⟨x, by simp⟩

/-! ### What `read` looks at -/

variable {st st' : ChunkStore} {d : Str} {w minV : UInt64}

/-- No key that `read` takes for a version of `b` lies at or below this one. -/
def Hidden (b key : Str) : Prop := ∀ t, (stoull t).isSome = true → key < chunkPrefix b ++ t

/-- Keys behind the prefix of `b` that hold the same in both stores or do not matter. -/
def AgreeFor (b : Str) (st st' : ChunkStore) : Prop :=
  ∀ key, chunkPrefix b <+: key → key ≤ makeKey b 9999999999 →
    st.db.get key = st'.db.get key ∨ Hidden b key

theorem AgreeFor.symm (h : AgreeFor b st st') : AgreeFor b st' st := fun key hp hle =>
  (h key hp hle).imp_left Eq.symm

/-- What is read in one store is read in the other. -/
theorem AgreeFor.read_some (h : AgreeFor b st st') (hr : st.read b 0 = some (d, w)) :
    st'.read b 0 = some (d, w) := by
  obtain ⟨t, hseek, ht⟩ := read_zero_iff.mp hr
  obtain ⟨hget, hle, hmax⟩ := Kv.seekForPrev_some hseek
  have hsome : (stoull t).isSome = true := Option.isSome_iff_exists.mpr ⟨w, ht⟩
  refine read_zero_iff.mpr ⟨t, Kv.seekForPrev_eq_some_iff.mpr ⟨?_, hle, fun j x hj hjle => ?_⟩, ht⟩
  · rcases h _ (List.prefix_append _ _) hle with heq | hid
    · exact heq ▸ hget
    · exact absurd (hid t hsome) (lt_irrefl _)
  · by_contra hlt
    have hp : chunkPrefix b <+: j := prefix_of_between (not_le.mp hlt).le hjle
    rcases h j hp hjle with heq | hid
    · exact hlt (hmax j x (heq ▸ hj) hjle)
    · exact hlt (hid t hsome).le

/-- **Frame rule**: stores that agree for `b` answer alike for `b`. -/
theorem AgreeFor.read_eq (h : AgreeFor b st st') :
    st'.read b minV = st.read b minV ∧ st'.latestVersion b = st.latestVersion b := by
  have hzero : st'.read b 0 = st.read b 0 := Option.ext fun p =>
    ⟨fun hp => h.symm.read_some hp, fun hp => h.read_some hp⟩
  rw [read_eq_filter, hzero, ← read_eq_filter, latestVersion_eq_read, hzero, latestVersion_eq_read]
  exact ⟨rfl, rfl⟩

/-! ### Where the keys of `a` lie -/

theorem le_of_stoull {c : Char} {t : Str} (h : (stoull (c :: t)).isSome = true) : '\t' ≤ c := by
  by_contra hlt
  have hc : c.toNat < 9 := by
    simpa [Char.le_def, UInt32.le_iff_toNat_le] using hlt
  have hspace : isSpace c = false := by
    have hne : c ≠ ' ' := by rintro rfl; exact absurd hc (by decide)
    simp [isSpace, hne]
    omega
  have hdigit : c.isDigit = false := by
    rw [Bool.eq_false_iff, ne_eq, isDigit_iff]
    omega
  have hm : c ≠ '-' := by rintro rfl; exact absurd hc (by decide)
  have hp : c ≠ '+' := by rintro rfl; exact absurd hc (by decide)
  have hscan : scanInt (c :: t) = none := by
    unfold scanInt
    rw [List.dropWhile_cons, hspace]
    simp [hdigit, hm, hp]
  simp [stoull, hscan] at h

theorem stoull_tab (t : Str) : stoull ('\t' :: t) = stoull t := rfl

/-- Texts that begin, behind tabs, with a smaller character sort before every number. -/
theorem lt_of_leadChar : ∀ {x t : Str}, ¬ '\t' < leadChar x → (stoull t).isSome = true →
    ∀ s, x ++ '/' :: s < t
  | _, [], _, ht, _ => absurd ht (by decide)
  | [], _ :: _, hx, _, _ => absurd (by decide) hx
  | c :: x, e :: t, hx, ht, s => by
    have he : '\t' ≤ e := le_of_stoull ht
    rw [List.cons_append, List.cons_lt_cons_iff]
    by_cases hc : c = '\t'
    · subst hc
      rcases he.lt_or_eq with hlt | rfl
      · exact .inl hlt
      · have hx' : ¬ '\t' < leadChar x := hx
        exact .inr ⟨rfl, lt_of_leadChar hx' (stoull_tab t ▸ ht) s⟩
    · have hlead : leadChar (c :: x) = c := by simp [leadChar, hc]
      rw [hlead] at hx
      exact .inl (lt_of_lt_of_le ((not_lt.mp hx).lt_of_ne hc) he)

/-- **What the calls on `a` touch does not matter for `b`**, unless the ids interfere. -/
theorem hidden_of_range (hab : a ≠ b) (hno : ¬ Interferes a b) (h0 : makeKey a 0 ≤ key)
    (h1 : key < chunkPrefix a ++ ['~']) (hp : chunkPrefix b <+: key)
    (hle : key ≤ makeKey b 9999999999) : Hidden b key := by
  have hpa : chunkPrefix a <+: key := prefix_of_between h0 h1.le
  rcases List.prefix_or_prefix_of_prefix hpa hp with h | h
  · obtain ⟨x, rfl⟩ := eq_append_of_prefix hab h
    obtain ⟨t, rfl⟩ := hp
    refine absurd (.inl ⟨not_lt.mp fun hlt => ?_, ?_⟩) hno
    · have hnp := not_prefix_of_slash (a := a) (x := x) (slash_not_mem_zeroPad 10 (0 : UInt64).toNat)
      exact absurd ((append_lt_iff hnp t).mpr hlt) (not_lt.mpr h0)
    · exact (append_lt_iff (not_prefix_of_slash (by decide)) t).mp h1
  · obtain ⟨x, rfl⟩ := eq_append_of_prefix hab.symm h
    obtain ⟨s, rfl⟩ := hpa
    have hlow : chunkPrefix (b ++ '/' :: x) ≤ makeKey b 9999999999 := not_lt.mp fun hlt =>
      absurd ((lt_append_iff (not_prefix_of_slash (slash_not_mem_zeroPad 10 _)) s).mpr hlt)
        (not_lt.mpr hle)
    have hlead : ¬ '\t' < leadChar x := fun hl => hno (.inr (shadows_append.mpr ⟨hlow, hl⟩))
    intro t ht
    rw [chunkPrefix_append, List.append_assoc, append_left_lt_iff, List.append_assoc]
    exact lt_of_leadChar hlead ht s

/-! ### Independence -/

/-- Calls on `a` do not change what is read of `b`, and what is read of `b` lies under no key of
`a`.
-/
structure Independent (st : ChunkStore) (a b : Str) : Prop where
  write : ∀ v d minV, (st.write a v d).read b minV = st.read b minV ∧
    (st.write a v d).latestVersion b = st.latestVersion b
  remove : ∀ minV, (st.remove a).read b minV = st.read b minV ∧
    (st.remove a).latestVersion b = st.latestVersion b
  foreign : ∀ minV d w, st.read b minV = some (d, w) →
    ∀ v, st.db.seekForPrev (makeKey b 9999999999) ≠ some (makeKey a v, d)

/-- Ids that do not interfere are independent in any store. -/
theorem independent_of_not_interferes (hab : a ≠ b) (hno : ¬ Interferes a b) (st : ChunkStore) :
    st.Independent a b where
  write v d minV := by
    refine AgreeFor.read_eq fun key hp hle => ?_
    by_cases hkey : key = makeKey a v
    · subst hkey
      exact .inr (hidden_of_range hab hno (makeKey_mem_range a v).1 (makeKey_mem_range a v).2 hp hle)
    · exact .inl (Kv.get_put_of_ne hkey).symm
  remove minV := by
    refine AgreeFor.read_eq fun key hp hle => ?_
    by_cases hkey : makeKey a 0 ≤ key ∧ key < chunkPrefix a ++ ['~']
    · exact .inr (hidden_of_range hab hno hkey.1 hkey.2 hp hle)
    · exact .inl (Kv.get_eraseRange.trans (if_neg hkey)).symm
  foreign minV d w hread v hseek := by
    have hzero : st.read b 0 = some (d, w) := by
      rw [read_eq_filter] at hread
      exact (Option.eq_some_of_filter_eq_some hread)
    obtain ⟨t, hseek', ht⟩ := read_zero_iff.mp hzero
    obtain ⟨-, hle, -⟩ := Kv.seekForPrev_some hseek
    have hkey : makeKey a v = chunkPrefix b ++ t := by
      rw [hseek'] at hseek
      exact (Prod.mk.inj (Option.some.inj hseek)).1.symm
    have hhid := hidden_of_range hab hno (makeKey_mem_range a v).1 (makeKey_mem_range a v).2
      ⟨t, hkey.symm⟩ hle t (Option.isSome_iff_exists.mpr ⟨w, ht⟩)
    exact absurd hhid (hkey ▸ lt_irrefl _)

/-- Ids without `/` do not interfere. -/
theorem not_interferes (hab : a ≠ b) (ha : '/' ∉ a) (hb : '/' ∉ b) : ¬ Interferes a b := by
  rintro (h | h)
  · obtain ⟨x, rfl⟩ := eq_append_of_prefix hab (prefix_of_between h.1 h.2.le)
    simp at hb
  · exact ha (h.1.subset (by simp))

/-! ### Ids that interfere do so in some store -/

theorem covers_of_clears (hab : a ≠ b) (h : Clears a b) : Covers a b v := by
  obtain ⟨x, rfl⟩ := eq_append_of_prefix hab (prefix_of_between h.1 h.2.le)
  have hnp := not_prefix_of_slash (a := a) (x := x) (slash_not_mem_zeroPad 10 (0 : UInt64).toNat)
  refine ⟨not_lt.mp fun hlt => ?_, (append_lt_iff (not_prefix_of_slash (by decide)) _).mpr h.2⟩
  exact absurd ((append_lt_iff hnp _).mp hlt) (not_lt.mpr h.1)

theorem read_write_empty : (empty.write b 0 d).read b 0 = some (d, 0) := by
  refine read_eq_some ownsPrefix_empty.write_self stored_write_self (UInt64.le_refl _) (by decide)
    fun u hu => ?_
  rw [stored_write] at hu
  split_ifs at hu with hc
  · exact hc.2 ▸ UInt64.le_refl _
  · simp at hu

/-- A cleared version is no longer read. -/
theorem read_remove_clears (hab : a ≠ b) (h : Clears a b) :
    ((empty.write b 0 d).remove a).read b 0 = none := by
  cases hread : ((empty.write b 0 d).remove a).read b 0 with
  | none => rfl
  | some p =>
    obtain ⟨hget, -, -⟩ := read_some (ownsPrefix_empty.write_self.remove) hread
    rw [stored_remove, if_pos (covers_of_clears hab h)] at hget
    simp at hget

/-- A number that sorts before `x/`. -/
theorem exists_number_lt : ∀ {x : Str}, '\t' < leadChar x →
    ∃ y, (∀ s, stoull (y ++ '/' :: s) = some 0) ∧ ∀ s s', y ++ s < x ++ '/' :: s'
  | [], _ => ⟨['\t', '0'], fun _ => rfl, fun s s' => by
      rw [List.nil_append, List.cons_append, List.cons_lt_cons_iff]
      exact .inl (by decide)⟩
  | c :: x, h => by
    by_cases hc : c = '\t'
    · subst hc
      obtain ⟨y, hy, hlt⟩ := exists_number_lt (x := x) h
      refine ⟨'\t' :: y, fun s => hy s, fun s s' => ?_⟩
      rw [List.cons_append, List.cons_append, List.cons_lt_cons_iff]
      exact .inr ⟨rfl, hlt s s'⟩
    · have hlead : leadChar (c :: x) = c := by simp [leadChar, hc]
      refine ⟨['\t', '0'], fun _ => rfl, fun s s' => ?_⟩
      show '\t' :: '0' :: s < c :: (x ++ '/' :: s')
      exact List.cons_lt_cons_iff.mpr (.inl (hlead ▸ h))

/-- A write on a longer id hides what was read. -/
theorem exists_dependent_of_shadows (h : Shadows a b) : ∃ c, (empty.write c 0 []).read b 0 = some ([], 0) ∧
    ((empty.write c 0 []).write a 0 ['x']).read b 0 ≠ some ([], 0) := by
  obtain ⟨x, rfl⟩ : ∃ x, a = b ++ '/' :: x := by
    obtain ⟨x, rfl⟩ := h.1
    exact ⟨x, by simp⟩
  obtain ⟨hlow, hlead⟩ := shadows_append.mp h
  obtain ⟨y, hy, hlt⟩ := exists_number_lt hlead
  have hkey : ∀ z : Str, makeKey (b ++ '/' :: z) 0 = chunkPrefix b ++ (z ++ '/' :: zeroPad 10 0) := by
    intro z
    rw [makeKey, chunkPrefix_append]
    simp
  have hless : makeKey (b ++ '/' :: y) 0 < makeKey (b ++ '/' :: x) 0 := by
    rw [hkey, hkey, append_left_lt_iff]
    exact hlt _ _
  have hle : makeKey (b ++ '/' :: x) 0 ≤ makeKey b 9999999999 := not_lt.mp fun hc =>
    absurd ((lt_append_iff (not_prefix_of_slash (slash_not_mem_zeroPad 10 _)) _).mp hc)
      (not_lt.mpr hlow)
  refine ⟨b ++ '/' :: y, read_zero_iff.mpr ⟨y ++ '/' :: zeroPad 10 0, ?_, hy _⟩, fun hread => ?_⟩
  · rw [← hkey]
    exact Kv.seekForPrev_put (hless.le.trans hle) fun key x hx => by simp [empty] at hx
  · obtain ⟨t, hseek, -⟩ := read_zero_iff.mp hread
    have hmax : ∀ key z, (empty.write (b ++ '/' :: y) 0 []).db.get key = some z →
        key ≤ makeKey b 9999999999 → key ≤ makeKey (b ++ '/' :: x) 0 :=
      Kv.forall_put (fun key z hz => by simp [empty] at hz) fun _ => hless.le
    rw [write, Kv.seekForPrev_put hle hmax] at hseek
    simp at hseek

/-- **When two ids are independent in every store.** -/
theorem independent_iff (hab : a ≠ b) :
    (∀ calls : List StoreCall, (calls.foldl apply empty).Independent a b) ↔ ¬ Interferes a b := by
  refine ⟨fun hall hint => ?_, fun hno calls => independent_of_not_interferes hab hno _⟩
  rcases hint with hcl | hsh
  · have hrem := ((hall [.write b 0 []]).remove 0).1
    have hnone : _ = none := read_remove_clears (d := []) hab hcl
    have hsome : _ = some (([] : Str), (0 : UInt64)) := read_write_empty (b := b)
    exact absurd (hnone.symm.trans (hrem.trans hsome)) (by simp)
  · obtain ⟨c, hread, hne⟩ := exists_dependent_of_shadows hsh
    exact hne ((((hall [.write c 0 []]).write 0 ['x'] 0).1).trans hread)

theorem independent_iff_apart :
    (∀ calls : List StoreCall, (calls.foldl apply empty).Independent ['c'] ['d']) ↔
      ¬ Interferes ['c'] ['d'] :=
  independent_iff (by decide)

/-- **The removal of one chunk takes another one's versions.** -/
theorem remove_clears_longer_id :
    ¬ ∀ (calls : List StoreCall) (a b : Str), a ≠ b → (calls.foldl apply empty).Independent a b := by
  intro hall
  have hrem := ((hall [.write "c/d".toList 1 []] "c".toList "c/d".toList (by decide)).remove 0).1
  exact absurd hrem (by decide)

end ChunkStore

end NimbusVault
