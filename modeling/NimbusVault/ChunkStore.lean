import Mathlib.Data.List.Dedup
import NimbusVault.Coordinator

/-!
# ChunkStore — versioned chunks under byte keys

A storage node keeps version `v` of chunk `id` under the key `chunk/<id>/<v>`, the version padded to
ten digits.  RocksDB orders keys bytewise; `read` seeks the last key at or below the one of version
9999999999.  `stored` is what a node holds of a chunk, and the specifications of `write`, `remove`
and `read` are in its terms.
-/

namespace NimbusVault

open Lib Lib.Text

/-- The database of a storage node. -/
structure ChunkStore where
  db : Kv Str Str
  deriving DecidableEq

namespace ChunkStore

def chunkPrefix (id : Str) : Str := ['c', 'h', 'u', 'n', 'k', '/'] ++ id ++ ['/']

def makeKey (id : Str) (ver : UInt64) : Str := chunkPrefix id ++ zeroPad 10 ver.toNat

def empty : ChunkStore := ⟨Kv.empty⟩

def write (st : ChunkStore) (chunkId : Str) (version : UInt64) (data : Str) : ChunkStore :=
  ⟨st.db.put (makeKey chunkId version) data⟩

/-- Data and version of the last key of the chunk, when that version is at least `minVersion`. -/
def read (st : ChunkStore) (chunkId : Str) (minVersion : UInt64) : Option (Str × UInt64) :=
  match st.db.seekForPrev (makeKey chunkId 9999999999) with
  | none => none
  | some (key, value) =>
    if (chunkPrefix chunkId).isPrefixOf key then
      match stoull (key.drop (chunkPrefix chunkId).length) with
      | none => none
      | some foundVer => if foundVer < minVersion then none else some (value, foundVer)
    else none

/-- Range delete of all versions. -/
def remove (st : ChunkStore) (chunkId : Str) : ChunkStore :=
  ⟨st.db.eraseRange (makeKey chunkId 0) (chunkPrefix chunkId ++ ['~'])⟩

/-- The version of the last key of the chunk, or 0. -/
def latestVersion (st : ChunkStore) (chunkId : Str) : UInt64 :=
  match st.db.seekForPrev (makeKey chunkId 9999999999) with
  | none => 0
  | some (key, _) =>
    if (chunkPrefix chunkId).isPrefixOf key then
      (stoull (key.drop (chunkPrefix chunkId).length)).getD 0
    else 0

/-- What lies between `chunk/` and the last `/` of a key, when that is not empty. -/
def keyChunkId (key : Str) : Option Str :=
  let upToSlash := (key.reverse.dropWhile (· ≠ '/')).reverse
  if upToSlash.length ≤ 7 then none else some (upToSlash.dropLast.drop 6)

/-- The chunk ids of all keys, once each; the source lists them in the order of a hash set. -/
def listChunkIds (st : ChunkStore) : List Str :=
  (((st.db.entries.map Prod.fst).filter ['c', 'h', 'u', 'n', 'k', '/'].isPrefixOf).filterMap
    keyChunkId).dedup

/-- What the node holds of a version. -/
def stored (st : ChunkStore) (chunkId : Str) (version : UInt64) : Option Str :=
  st.db.get (makeKey chunkId version)

/-! ### Keys -/

theorem slash_not_mem_zeroPad (w n : ℕ) : '/' ∉ zeroPad w n := by
  intro h
  have := isDigit_of_mem_zeroPad h
  revert this; decide

/-- The last `/` of a key separates chunk id and version. -/
theorem append_slash_inj {a b p q : Str} (hp : '/' ∉ p) (hq : '/' ∉ q)
    (h : a ++ '/' :: p = b ++ '/' :: q) : a = b ∧ p = q := by
  have key : ∀ {a b p q : Str}, '/' ∉ p → (∃ x, b = a ++ x ∧ '/' :: p = x ++ '/' :: q) →
      a = b ∧ p = q := by
    rintro a b p q hp ⟨x, rfl, hx⟩
    cases x with
    | nil => simpa using hx
    | cons c x =>
      obtain ⟨-, rfl⟩ := List.cons_eq_cons.mp hx
      exact absurd (by simp) hp
  rcases List.append_eq_append_iff.mp h with h | h
  · exact key hp h
  · obtain ⟨h1, h2⟩ := key hq h
    exact ⟨h1.symm, h2.symm⟩

theorem makeKey_inj {id id' : Str} {v v' : UInt64} :
    makeKey id v = makeKey id' v' ↔ id = id' ∧ v = v' := by
  constructor
  · intro h
    simp only [makeKey, chunkPrefix, List.append_assoc, List.singleton_append] at h
    obtain ⟨h1, h2⟩ := append_slash_inj (slash_not_mem_zeroPad _ _) (slash_not_mem_zeroPad _ _)
      (List.append_cancel_left h)
    exact ⟨h1, UInt64.toNat_inj.mp (zeroPad_injective 10 h2)⟩
  · rintro ⟨rfl, rfl⟩; rfl

/-- Below ten digits, keys of one chunk are ordered like the versions. -/
theorem makeKey_lt_makeKey {id : Str} {v w : UInt64} (hvw : v < w) (hw : w ≤ 9999999999) :
    makeKey id v < makeKey id w := by
  have hw' : w.toNat ≤ 9999999999 := UInt64.le_iff_toNat_le.mp hw
  have hvw' : v.toNat < w.toNat := UInt64.lt_iff_toNat_lt.mp hvw
  refine List.append_left_lt (lt_of_ofDigitChars_lt ?_ (fun _ => isDigit_of_mem_zeroPad)
    (fun _ => isDigit_of_mem_zeroPad) ?_)
  · rw [length_zeroPad (by decide) (by omega), length_zeroPad (by decide) (by omega)]
  · rw [ofDigitChars_zeroPad, ofDigitChars_zeroPad]
    exact hvw'

theorem makeKey_le_seek {id : Str} {v : UInt64} (hv : v ≤ 9999999999) :
    makeKey id v ≤ makeKey id 9999999999 := by
  rcases Nat.lt_or_eq_of_le (UInt64.le_iff_toNat_le.mp hv) with h | h
  · exact le_of_lt (makeKey_lt_makeKey (UInt64.lt_iff_toNat_lt.mpr h) (UInt64.le_refl _))
  · rw [UInt64.toNat_inj.mp h]

theorem replicate_zero_le : ∀ {n : ℕ} {s : Str}, n ≤ s.length → (∀ c ∈ s, c.isDigit) →
    List.replicate n '0' ≤ s
  | 0, _, _, _ => not_lt.mp (List.not_lt_nil _)
  | n + 1, [], h, _ => by simp at h
  | n + 1, c :: s, h, hd => by
    have ih := replicate_zero_le (n := n) (s := s) (by simpa using h) fun c hc => hd c (by simp [hc])
    have hc := (isDigit_iff.mp (hd c (by simp))).1
    rw [List.replicate_succ, ← not_lt, List.cons_lt_cons_iff, not_or, not_and]
    refine ⟨not_lt.mpr ?_, fun _ => not_lt.mpr ih⟩
    exact Char.le_def.mpr (UInt32.le_iff_toNat_le.mpr hc)

/-- Every version lies in the range that `remove` deletes. -/
theorem makeKey_mem_range (id : Str) (v : UInt64) :
    makeKey id 0 ≤ makeKey id v ∧ makeKey id v < chunkPrefix id ++ ['~'] := by
  constructor
  · have h0 : zeroPad 10 0 ≤ zeroPad 10 v.toNat :=
      replicate_zero_le (n := 10) (by simp [zeroPad, List.leftpad]; omega)
        fun _ => isDigit_of_mem_zeroPad
    rcases lt_or_eq_of_le h0 with h | h
    · exact le_of_lt (List.append_left_lt h)
    · exact le_of_eq (congrArg (chunkPrefix id ++ ·) h)
  · obtain ⟨c, s, hs⟩ := List.exists_cons_of_ne_nil (zeroPad_ne_nil 10 v.toNat)
    have hc := (isDigit_iff.mp (isDigit_of_mem_zeroPad (w := 10) (n := v.toNat) (c := c)
      (by rw [hs]; simp))).2
    refine List.append_left_lt ?_
    rw [hs, List.cons_lt_cons_iff]
    exact .inl (Char.lt_def.mpr (UInt32.lt_iff_toNat_lt.mpr (lt_of_le_of_lt hc (by decide))))

/-- What lies between two texts with a common front has it too. -/
theorem prefix_of_between : ∀ {a p q k : Str}, a ++ p ≤ k → k ≤ a ++ q → a <+: k
  | [], _, _, _, _, _ => List.nil_prefix
  | c :: a, p, q, [], h, _ => absurd h (not_le.mpr (List.nil_lt_cons c (a ++ p)))
  | c :: a, p, q, d :: k, h1, h2 => by
    rw [List.cons_append, ← not_lt, List.cons_lt_cons_iff, not_or, not_and] at h1 h2
    obtain rfl : d = c := le_antisymm (not_lt.mp h2.1) (not_lt.mp h1.1)
    exact List.cons_prefix_cons.mpr
      ⟨rfl, prefix_of_between (not_lt.mp (h1.2 rfl)) (not_lt.mp (h2.2 rfl))⟩

/-! ### What the operations do to `stored` -/

variable {st : ChunkStore} {id id' : Str} {v v' w minV : UInt64} {d : Str}

@[simp] theorem stored_empty : empty.stored id v = none := rfl

theorem stored_write : (st.write id v d).stored id' v' =
    if id' = id ∧ v' = v then some d else st.stored id' v' := by
  simp only [stored, write, Kv.get_put, makeKey_inj]

@[simp] theorem stored_write_self : (st.write id v d).stored id v = some d := by
  rw [stored_write, if_pos ⟨rfl, rfl⟩]

/-- A write never makes a version disappear. -/
theorem stored_write_isSome (h : (st.stored id' v').isSome) :
    ((st.write id v d).stored id' v').isSome := by
  rw [stored_write]
  split_ifs
  · rfl
  · exact h

/-- The range delete of the chunk `id'` covers the version `v` of the chunk `id`. -/
def Covers (id' id : Str) (v : UInt64) : Prop :=
  makeKey id' 0 ≤ makeKey id v ∧ makeKey id v < chunkPrefix id' ++ ['~']

instance (id' id : Str) (v : UInt64) : Decidable (Covers id' id v) :=
  inferInstanceAs (Decidable (_ ∧ _))

theorem stored_remove :
    (st.remove id').stored id v = if Covers id' id v then none else st.stored id v := by
  rw [stored, remove, Kv.get_eraseRange]
  by_cases h : Covers id' id v
  · exact (if_pos h).trans (if_pos h).symm
  · exact (if_neg h).trans (if_neg h).symm

/-- `remove` takes every version of the chunk. -/
@[simp] theorem stored_remove_self : (st.remove id).stored id v = none := by
  have hcovers : Covers id id v := makeKey_mem_range id v
  rw [stored_remove, if_pos hcovers]

/-- Every key that `read` may take for one of the chunk's is one. -/
def OwnsPrefix (st : ChunkStore) (id : Str) : Prop :=
  ∀ key x, st.db.get key = some x → chunkPrefix id <+: key → ∃ v, key = makeKey id v

theorem OwnsPrefix.write_self (h : st.OwnsPrefix id) : (st.write id v d).OwnsPrefix id :=
  Kv.forall_put h fun _ => ⟨v, rfl⟩

theorem ownsPrefix_empty : empty.OwnsPrefix id := fun _ _ h => by simp [empty] at h

theorem OwnsPrefix.remove (h : st.OwnsPrefix id) : (st.remove id').OwnsPrefix id :=
  Kv.forall_eraseRange h

/-- A key of a chunk without `/` in its id lies behind no other chunk's prefix. -/
theorem chunkPrefix_of_makeKey (hid' : '/' ∉ id') (h : chunkPrefix id <+: makeKey id' v) : id = id' := by
  obtain ⟨t, ht⟩ := h
  simp only [makeKey, chunkPrefix, List.append_assoc, List.singleton_append] at ht
  have heq := List.append_cancel_left ht
  have hdigits := slash_not_mem_zeroPad 10 v.toNat
  have ht' : '/' ∉ t := by
    have hcount := congrArg (List.count '/') heq
    rw [List.count_append, List.count_append, List.count_cons_self, List.count_cons_self,
      List.count_eq_zero_of_not_mem hid', List.count_eq_zero_of_not_mem hdigits] at hcount
    exact List.count_eq_zero.mp (by omega)
  exact (append_slash_inj ht' hdigits heq).1

/-- The range of a delete covers no other chunk without `/` in its id. -/
theorem eq_of_covers (hid : '/' ∉ id) (h : Covers id' id v) : id' = id :=
  chunkPrefix_of_makeKey hid (prefix_of_between h.1 h.2.le)

theorem OwnsPrefix.write (h : st.OwnsPrefix id) (hid' : '/' ∉ id') :
    (st.write id' v d).OwnsPrefix id := by
  refine Kv.forall_put h fun hp => ⟨v, ?_⟩
  rw [chunkPrefix_of_makeKey hid' hp]

/-- All keys are those of chunks without `/` in their ids, in versions of at most ten digits. -/
def PlainKeys (st : ChunkStore) : Prop :=
  ∀ key x, st.db.get key = some x → ∃ id v, key = makeKey id v ∧ '/' ∉ id ∧ v ≤ 9999999999

theorem plainKeys_empty : empty.PlainKeys := fun _ _ h => by simp [empty] at h

theorem PlainKeys.write (h : st.PlainKeys) (hid : '/' ∉ id) (hv : v ≤ 9999999999) :
    (st.write id v d).PlainKeys :=
  Kv.forall_put h ⟨id, v, rfl, hid, hv⟩

theorem PlainKeys.remove (h : st.PlainKeys) : (st.remove id).PlainKeys :=
  Kv.forall_eraseRange h

theorem PlainKeys.ownsPrefix (h : st.PlainKeys) : st.OwnsPrefix id := by
  intro key x hx hp
  obtain ⟨id', v, rfl, hid', -⟩ := h key x hx
  rw [chunkPrefix_of_makeKey hid' hp]
  exact ⟨v, rfl⟩

theorem PlainKeys.le (h : st.PlainKeys) (hv : (st.stored id v).isSome = true) : v ≤ 9999999999 := by
  obtain ⟨x, hx⟩ := Option.isSome_iff_exists.mp hv
  obtain ⟨id', v', hkey, -, hv'⟩ := h _ x hx
  rw [(makeKey_inj.mp hkey).2]
  exact hv'

/-! ### What `read` looks at -/

/-- The newest version is found first, and then it is seen whether that is new enough. -/
theorem read_eq_filter : st.read id minV = (st.read id 0).filter fun p => minV ≤ p.2 := by
  unfold read
  split
  · rfl
  · split_ifs
    · cases stoull _ with
      | none => rfl
      | some u =>
        by_cases hu : u < minV
        · simp [Option.filter, hu]
        · simp [Option.filter, hu, UInt64.not_lt.mp hu]
    · rfl

theorem read_zero_iff : st.read id 0 = some (d, w) ↔
    ∃ t, st.db.seekForPrev (makeKey id 9999999999) = some (chunkPrefix id ++ t, d) ∧
      stoull t = some w := by
  unfold read
  constructor
  · intro h
    split at h
    · simp at h
    · rename_i key value hseek
      split_ifs at h with hp
      obtain ⟨t, rfl⟩ := List.isPrefixOf_iff_prefix.mp hp
      rw [List.drop_left] at h
      cases ht : stoull t with
      | none => simp [ht] at h
      | some u =>
        obtain ⟨rfl, rfl⟩ : value = d ∧ u = w := by simpa [ht] using h
        exact ⟨t, hseek, ht⟩
  · rintro ⟨t, hseek, ht⟩
    rw [hseek]
    simp only [List.isPrefixOf_iff_prefix.mpr (List.prefix_append _ _), if_true, List.drop_left, ht]
    rw [if_neg (UInt64.not_lt.mpr (UInt64.zero_le))]

theorem read_iff_newest :
    st.read id minV = some (d, w) ↔ st.read id 0 = some (d, w) ∧ minV ≤ w := by
  rw [read_eq_filter, Option.filter_eq_some_iff, decide_eq_true_iff]

/-- **What `read` returns** when no other chunk's keys interfere: a stored version, at least the one
asked for, and no stored version of at most ten digits is newer. -/
theorem read_some (ho : st.OwnsPrefix id) (h : st.read id minV = some (d, w)) :
    st.stored id w = some d ∧ minV ≤ w ∧
      ∀ u, (st.stored id u).isSome → u ≤ 9999999999 → u ≤ w := by
  obtain ⟨hnewest, hmin⟩ := read_iff_newest.mp h
  obtain ⟨t, hseek, ht⟩ := read_zero_iff.mp hnewest
  obtain ⟨hget, -, hmax⟩ := Kv.seekForPrev_some hseek
  obtain ⟨w', hkey⟩ := ho _ d hget (List.prefix_append _ _)
  obtain rfl : t = zeroPad 10 w'.toNat := List.append_cancel_left hkey
  obtain rfl : w' = w := Option.some.inj ((stoull_zeroPad 10 w').symm.trans ht)
  refine ⟨hget, hmin, fun u hu hu10 => ?_⟩
  obtain ⟨x, hx⟩ := Option.isSome_iff_exists.mp hu
  by_contra hc
  exact absurd (hmax _ x hx (makeKey_le_seek hu10))
    (not_le.mpr (makeKey_lt_makeKey (UInt64.not_le.mp hc) hu10))

/-- **When `read` must find something**: a stored version that is asked for, or a newer one. -/
theorem read_ge (ho : st.OwnsPrefix id) (hw : (st.stored id w).isSome = true) (hmin : minV ≤ w)
    (hw10 : w ≤ 9999999999) : ∃ d u, st.read id minV = some (d, u) ∧ w ≤ u := by
  obtain ⟨x, hx⟩ := Option.isSome_iff_exists.mp hw
  have hlast10 : makeKey id w ≤ makeKey id 9999999999 := makeKey_le_seek hw10
  obtain ⟨key, value, hseek⟩ := Kv.seekForPrev_isSome hx hlast10
  obtain ⟨hget, hle, hlast⟩ := Kv.seekForPrev_some hseek
  have hge : makeKey id w ≤ key := hlast _ _ hx hlast10
  have hprefix : chunkPrefix id <+: key := prefix_of_between hge hle
  obtain ⟨u, rfl⟩ := ho key value hget hprefix
  have hwu : w ≤ u := by
    by_contra hc
    exact absurd hge (not_le.mpr (makeKey_lt_makeKey (UInt64.not_le.mp hc) hw10))
  have hnewest : st.read id 0 = some (value, u) :=
    read_zero_iff.mpr ⟨_, hseek, stoull_zeroPad 10 u⟩
  exact ⟨value, u, read_iff_newest.mpr ⟨hnewest, UInt64.le_trans hmin hwu⟩, hwu⟩

/-- **When `read` must succeed**: with the newest stored version, when that is asked for or newer.
-/
theorem read_eq_some (ho : st.OwnsPrefix id) (hw : st.stored id w = some d) (hmin : minV ≤ w)
    (hw10 : w ≤ 9999999999) (hmax : ∀ u, (st.stored id u).isSome → u ≤ w) :
    st.read id minV = some (d, w) := by
  obtain ⟨value, u, hread, hwu⟩ := read_ge ho (Option.isSome_iff_exists.mpr ⟨d, hw⟩) hmin hw10
  obtain ⟨hget, -, -⟩ := read_some ho hread
  -- the version found is the newest one
  obtain rfl : u = w :=
    UInt64.le_antisymm (hmax u (Option.isSome_iff_exists.mpr ⟨value, hget⟩)) hwu
  rw [hread, Option.some.inj (hget.symm.trans hw)]

end ChunkStore

end NimbusVault
