import NimbusVault.ChunkStore

/-!
# VersionMap — what a chunk store is for

A `VersionMap` binds a chunk id to the versions stored of it, each with its data, and answers from
the greatest one.  A chunk store refines it, as long as ids are not empty and hold no `/` and
versions have at most ten digits: every call keeps the two in step (`Refines.apply`), and in step
they answer alike (`chunkStore_refines`).
-/

namespace NimbusVault

open Lib Lib.Text

/-- A call that changes a chunk store. -/
inductive StoreCall
  | write (chunkId : Str) (version : UInt64) (data : Str)
  | remove (chunkId : Str)

/-- A call on a chunk id without `/`, with a version that `read` can find. -/
def StoreCall.Plain : StoreCall → Prop
  | .write chunkId version _ => chunkId ≠ [] ∧ '/' ∉ chunkId ∧ version ≤ 9999999999
  | .remove chunkId => chunkId ≠ [] ∧ '/' ∉ chunkId

def ChunkStore.apply (st : ChunkStore) : StoreCall → ChunkStore
  | .write chunkId version data => st.write chunkId version data
  | .remove chunkId => st.remove chunkId

/-! ### The abstract store -/

/-- Chunk ids with their versions; an id that is bound has one. -/
abbrev VersionMap := Kv Str (Kv ℕ Str)

namespace VersionMap

def versions (m : VersionMap) (id : Str) : Kv ℕ Str := (m.get id).getD Kv.empty

def apply (m : VersionMap) : StoreCall → VersionMap
  | .write id v data => m.put id ((m.versions id).put v.toNat data)
  | .remove id => m.erase id

/-- The greatest version and its data, when that version is at least `minV`. -/
def read (m : VersionMap) (id : Str) (minV : ℕ) : Option (Str × ℕ) :=
  match (m.versions id).maxBinding with
  | none => none
  | some (v, data) => if v < minV then none else some (data, v)

def latestVersion (m : VersionMap) (id : Str) : ℕ :=
  (m.versions id).maxBinding.elim 0 Prod.fst

end VersionMap

/-! ### The store in step with the map -/

/-- The store holds what the map holds. -/
structure Refines (st : ChunkStore) (m : VersionMap) : Prop where
  plain : st.PlainKeys
  stored : ∀ id v, st.stored id v = (m.versions id).get v.toNat
  bound : ∀ id vs, m.get id = some vs → id ≠ [] ∧ '/' ∉ id ∧ ∃ n x, vs.get n = some x
  ten : ∀ id n x, (m.versions id).get n = some x → n ≤ 9999999999

section Refines

variable {st : ChunkStore} {m : VersionMap} {id : Str}

theorem refines_empty : Refines ChunkStore.empty Kv.empty where
  plain := ChunkStore.plainKeys_empty
  stored _ _ := rfl
  bound _ _ h := by simp at h
  ten _ _ _ h := by simp [VersionMap.versions] at h

theorem VersionMap.versions_write {v : UInt64} {d : Str} (id' : Str) :
    (m.apply (.write id v d)).versions id' =
      if id' = id then (m.versions id).put v.toNat d else m.versions id' := by
  unfold VersionMap.versions VersionMap.apply
  rw [Kv.get_put]
  split_ifs <;> rfl

theorem VersionMap.versions_remove (id' : Str) : (m.apply (.remove id)).versions id' =
    if id' = id then Kv.empty else m.versions id' := by
  unfold VersionMap.versions VersionMap.apply
  rw [Kv.get_erase]
  split_ifs <;> rfl

/-- **A call keeps the store in step.** -/
theorem Refines.apply (h : Refines st m) {call : StoreCall} (hc : call.Plain) :
    Refines (st.apply call) (m.apply call) := by
  cases call with
  | write id v d =>
    obtain ⟨hne, hslash, hv⟩ := hc
    refine ⟨h.plain.write hslash hv, fun id' v' => ?_, fun id' vs hvs => ?_, fun id' n x hn => ?_⟩
    · rw [ChunkStore.apply, ChunkStore.stored_write, VersionMap.versions_write]
      by_cases hid : id' = id
      · subst hid
        rw [if_pos rfl, Kv.get_put, h.stored]
        simp only [true_and, UInt64.toNat_inj]
      · rw [if_neg hid, if_neg fun he => hid he.1, h.stored]
    · rw [VersionMap.apply, Kv.get_put] at hvs
      split_ifs at hvs with hid
      · obtain rfl := Option.some.inj hvs
        exact ⟨hid ▸ hne, hid ▸ hslash, v.toNat, d, Kv.get_put_self⟩
      · exact h.bound id' vs hvs
    · rw [VersionMap.versions_write] at hn
      split_ifs at hn with hid
      · rw [Kv.get_put] at hn
        split_ifs at hn with hnv
        · exact hnv ▸ UInt64.le_iff_toNat_le.mp hv
        · exact h.ten id n x hn
      · exact h.ten id' n x hn
  | remove id =>
    obtain ⟨-, hslash⟩ := hc
    refine ⟨h.plain.remove, fun id' v' => ?_, fun id' vs hvs => ?_, fun id' n x hn => ?_⟩
    · rw [ChunkStore.apply, VersionMap.versions_remove]
      by_cases hid : id' = id
      · rw [if_pos hid, hid, ChunkStore.stored_remove_self]
        rfl
      · rw [if_neg hid, ← h.stored, ChunkStore.stored_remove]
        split_ifs with hcov
        · -- what the range covers belongs to the chunk, or was not there
          cases hst : st.stored id' v' with
          | none => rfl
          | some x =>
            obtain ⟨id'', v'', hkey, hslash', -⟩ := h.plain _ _ hst
            obtain ⟨rfl, rfl⟩ := ChunkStore.makeKey_inj.mp hkey
            exact absurd (ChunkStore.eq_of_covers hslash' hcov).symm hid
        · rfl
    · rw [VersionMap.apply, Kv.get_erase] at hvs
      split_ifs at hvs
      exact h.bound id' vs hvs
    · rw [VersionMap.versions_remove] at hn
      split_ifs at hn
      · simp at hn
      · exact h.ten id' n x hn

/-- In step after any sequence of calls. -/
theorem refines_foldl {calls : List StoreCall} (h : ∀ c ∈ calls, c.Plain) :
    Refines (calls.foldl ChunkStore.apply ChunkStore.empty)
      (calls.foldl VersionMap.apply Kv.empty) := by
  induction calls using List.reverseRecOn with
  | nil => exact refines_empty
  | append_singleton calls c ih =>
    rw [List.foldl_concat, List.foldl_concat]
    exact (ih fun c' hc' => h c' (by simp [hc'])).apply (h c (by simp))

end Refines

/-! ### In step, the two answer alike -/

section Answers

variable {st : ChunkStore} {m : VersionMap} {id : Str} {minV : UInt64}

/-- A version that the map holds is the number of one that the store holds. -/
theorem Refines.stored_ofNat (h : Refines st m) {n : ℕ} {x : Str}
    (hn : (m.versions id).get n = some x) :
    (UInt64.ofNat n).toNat = n ∧ st.stored id (UInt64.ofNat n) = some x := by
  have hlt : n ≤ 9999999999 := h.ten id n x hn
  have hnat : (UInt64.ofNat n).toNat = n := UInt64.toNat_ofNat_of_lt' (lt_of_le_of_lt hlt (by decide))
  exact ⟨hnat, by rw [h.stored, hnat, hn]⟩

theorem Refines.read (h : Refines st m) :
    (st.read id minV).map (fun p => (p.1, p.2.toNat)) = m.read id minV.toNat := by
  have hown : st.OwnsPrefix id := h.plain.ownsPrefix
  unfold VersionMap.read
  cases hmax : (m.versions id).maxBinding with
  | none =>
    cases hread : st.read id minV with
    | none => rfl
    | some p =>
      obtain ⟨hget, -, -⟩ := ChunkStore.read_some hown hread
      rw [h.stored] at hget
      obtain ⟨j, w, hs⟩ := Kv.maxBinding_isSome hget
      rw [hmax] at hs
      simp at hs
  | some p =>
    obtain ⟨n, x⟩ := p
    obtain ⟨hn, htop⟩ := Kv.maxBinding_some hmax
    obtain ⟨hnat, hst⟩ := h.stored_ofNat hn
    dsimp only
    split_ifs with hlt
    · -- the greatest version is too old, and every other one is older
      cases hread : st.read id minV with
      | none => rfl
      | some p =>
        obtain ⟨hget, hge, -⟩ := ChunkStore.read_some hown hread
        rw [h.stored] at hget
        have hle : p.2.toNat ≤ n := htop _ _ hget
        have hge' : minV.toNat ≤ p.2.toNat := UInt64.le_iff_toNat_le.mp hge
        omega
    · have hmin : minV ≤ UInt64.ofNat n := UInt64.le_iff_toNat_le.mpr (by rw [hnat]; omega)
      have hten : UInt64.ofNat n ≤ 9999999999 :=
        UInt64.le_iff_toNat_le.mpr (by rw [hnat]; exact h.ten id n x hn)
      have hread := ChunkStore.read_eq_some hown hst hmin hten fun u hu => by
        obtain ⟨y, hy⟩ := Option.isSome_iff_exists.mp hu
        rw [h.stored] at hy
        exact UInt64.le_iff_toNat_le.mpr (by rw [hnat]; exact htop _ _ hy)
      rw [hread, Option.map_some, hnat]

theorem latestVersion_eq_read : st.latestVersion id = (st.read id 0).elim 0 Prod.snd := by
  unfold ChunkStore.latestVersion ChunkStore.read
  split
  · rfl
  · split_ifs
    · cases stoull _ with
      | none => rfl
      | some v => simp
    · rfl

theorem Refines.latestVersion (h : Refines st m) :
    (st.latestVersion id).toNat = m.latestVersion id := by
  have hread : (st.read id 0).map (fun p => (p.1, p.2.toNat)) = m.read id 0 := h.read
  rw [latestVersion_eq_read, VersionMap.latestVersion]
  unfold VersionMap.read at hread
  cases hmax : (m.versions id).maxBinding with
  | none =>
    rw [hmax] at hread
    rw [Option.map_eq_none_iff.mp hread]
    rfl
  | some p =>
    rw [hmax] at hread
    obtain ⟨q, hq, hp⟩ := Option.map_eq_some_iff.mp (hread.trans (if_neg (Nat.not_lt_zero _)))
    rw [hq]
    exact congrArg Prod.snd hp

/-- Up to its last `/`, the key of a version is the prefix of its chunk. -/
theorem keyChunkId_makeKey (id : Str) (v : UInt64) :
    ChunkStore.keyChunkId (ChunkStore.makeKey id v) = if id = [] then none else some id := by
  have hdigits : ∀ c ∈ (zeroPad 10 v.toNat).reverse, decide (c ≠ '/') = true := fun c hc => by
    rw [List.mem_reverse] at hc
    simpa using fun he : c = '/' => ChunkStore.slash_not_mem_zeroPad _ _ (he ▸ hc)
  have hup : ((ChunkStore.makeKey id v).reverse.dropWhile (· ≠ '/')).reverse =
      ChunkStore.chunkPrefix id := by
    rw [ChunkStore.makeKey, List.reverse_append, List.dropWhile_append_of_pos hdigits,
      ChunkStore.chunkPrefix, List.reverse_append]
    simp
  unfold ChunkStore.keyChunkId
  dsimp only
  rw [hup, ChunkStore.chunkPrefix]
  cases id with
  | nil => rfl
  | cons c id =>
    rw [List.dropLast_concat]
    simp

theorem Refines.listChunkIds (h : Refines st m) : st.listChunkIds.Perm m.keys := by
  have hmem : ∀ id, id ∈ st.listChunkIds ↔ id ∈ m.keys := by
    intro id
    rw [ChunkStore.listChunkIds, List.mem_dedup, List.mem_filterMap, Kv.mem_keys]
    constructor
    · rintro ⟨key, hkey, hid⟩
      obtain ⟨x, hx⟩ := Kv.mem_keys.mp (List.mem_of_mem_filter hkey)
      obtain ⟨id', v, rfl, -, -⟩ := h.plain key x hx
      rw [keyChunkId_makeKey] at hid
      split_ifs at hid
      obtain rfl := Option.some.inj hid
      have hget : (m.versions id').get v.toNat = some x := (h.stored id' v).symm.trans hx
      cases hvs : m.get id' with
      | none => simp [VersionMap.versions, hvs] at hget
      | some vs => exact ⟨vs, rfl⟩
    · rintro ⟨vs, hvs⟩
      obtain ⟨hne, -, n, x, hn⟩ := h.bound id vs hvs
      have hn' : (m.versions id).get n = some x := by rw [VersionMap.versions, hvs]; exact hn
      obtain ⟨-, hst⟩ := h.stored_ofNat hn'
      refine ⟨_, List.mem_filter.mpr ⟨Kv.mem_keys.mpr ⟨x, hst⟩, ?_⟩, ?_⟩
      · rw [ChunkStore.makeKey, ChunkStore.chunkPrefix, List.append_assoc, List.append_assoc]
        exact List.isPrefixOf_iff_prefix.mpr (List.prefix_append _ _)
      · rw [keyChunkId_makeKey, if_neg hne]
  exact (List.perm_ext_iff_of_nodup (List.nodup_dedup _) Kv.nodup_keys).mpr hmem

/-- **A chunk store is a map from ids to versions**, after any sequence of plain calls. -/
theorem chunkStore_refines {calls : List StoreCall} (h : ∀ c ∈ calls, c.Plain) :
    let st := calls.foldl ChunkStore.apply ChunkStore.empty
    let m : VersionMap := calls.foldl VersionMap.apply Kv.empty
    (∀ id minV, (st.read id minV).map (fun p => (p.1, p.2.toNat)) = m.read id minV.toNat) ∧
      (∀ id, (st.latestVersion id).toNat = m.latestVersion id) ∧
      (∀ id v, st.stored id v = (m.versions id).get v.toNat) ∧ st.listChunkIds.Perm m.keys := by
  have hr := refines_foldl h
  exact ⟨fun _ _ => hr.read, fun _ => hr.latestVersion, hr.stored, hr.listChunkIds⟩

/-- Two versions of one chunk, and a chunk with a longer id that is removed again. -/
def storeCalls : List StoreCall :=
  [.write "c".toList 1 "x".toList, .write "c".toList 2 "y".toList, .write "cc".toList 1 "z".toList,
    .remove "cc".toList]

theorem storeCalls_plain : ∀ c ∈ storeCalls, c.Plain := by
  intro c hc
  simp only [storeCalls, List.mem_cons, List.not_mem_nil, or_false] at hc
  rcases hc with rfl | rfl | rfl | rfl
  · exact ⟨by decide, by decide, by decide⟩
  · exact ⟨by decide, by decide, by decide⟩
  · exact ⟨by decide, by decide, by decide⟩
  · exact ⟨by decide, by decide⟩

theorem chunkStore_refines_pair :
    let st := storeCalls.foldl ChunkStore.apply ChunkStore.empty
    let m : VersionMap := storeCalls.foldl VersionMap.apply Kv.empty
    (∀ id minV, (st.read id minV).map (fun p => (p.1, p.2.toNat)) = m.read id minV.toNat) ∧
      (∀ id, (st.latestVersion id).toNat = m.latestVersion id) ∧
      (∀ id v, st.stored id v = (m.versions id).get v.toNat) ∧ st.listChunkIds.Perm m.keys :=
  chunkStore_refines storeCalls_plain

end Answers

end NimbusVault
