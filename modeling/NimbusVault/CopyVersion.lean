import NimbusVault.FetchStream
import NimbusVault.ReconfigRun

/-!
# CopyVersion — under which version the driver copies a chunk

`copy_to_new_replicas` asks the source for version `v` or a newer one, gets the newest, and writes
it to every added node as version `v`.  The version that comes with the pieces is not looked at; the
repair keeps it.  So an added node holds under `v` what the source holds there exactly when the
newest version of the source carries the same bytes (`copies_keep_pair_iff`).
-/

namespace NimbusVault

open Lib

section Copy

variable {alive : List NodeEntry} {ss ss' : Stores} {st : ChunkStore} {src c d : Str} {v w : UInt64}
  {old new oldIds : List Str} {fates : Str → RpcFate × RpcFate}

/-- Writing what was read, under the version that was asked for, does not change what is read. -/
theorem read_write_of_read (h : st.read c v = some (d, w)) :
    ∃ w', (st.write c v d).read c v = some (d, w') := by
  obtain ⟨hnewest, hv⟩ := ChunkStore.read_iff_newest.mp h
  obtain ⟨t, hseek, ht⟩ := ChunkStore.read_zero_iff.mp hnewest
  obtain ⟨-, -, hmax⟩ := Kv.seekForPrev_some hseek
  by_cases hnew : ChunkStore.makeKey c v ≤ ChunkStore.makeKey c 9999999999 ∧
      ChunkStore.chunkPrefix c ++ t ≤ ChunkStore.makeKey c v
  · -- the key that is written is the last one now
    have hseek' : (st.write c v d).db.seekForPrev (ChunkStore.makeKey c 9999999999) =
        some (ChunkStore.makeKey c v, d) :=
      Kv.seekForPrev_put hnew.1 fun j x hj hjk => (hmax j x hj hjk).trans hnew.2
    have hnewest' : (st.write c v d).read c 0 = some (d, v) :=
      ChunkStore.read_zero_iff.mpr ⟨_, hseek', Text.stoull_zeroPad 10 v⟩
    exact ⟨v, ChunkStore.read_iff_newest.mpr ⟨hnewest', UInt64.le_refl v⟩⟩
  · have hseek' : (st.write c v d).db.seekForPrev (ChunkStore.makeKey c 9999999999) =
        some (ChunkStore.chunkPrefix c ++ t, d) :=
      Kv.seekForPrev_put_of_lt hseek fun hk => not_le.mp fun hge => hnew ⟨hk, hge⟩
    have hnewest' : (st.write c v d).read c 0 = some (d, w) :=
      ChunkStore.read_zero_iff.mpr ⟨t, hseek', ht⟩
    exact ⟨w, ChunkStore.read_iff_newest.mpr ⟨hnewest', hv⟩⟩

/-- One round of the copy loop: an old node is skipped; for another one the source answers, and the
node is written to. -/
theorem copyReplicas_cons {dst : Str} {rest : List Str}
    (h : copyReplicas alive src oldIds c v fates (dst :: rest) ss = (true, ss')) :
    extractNodeId dst ∈ oldIds ∧ copyReplicas alive src oldIds c v fates rest ss = (true, ss') ∨
    extractNodeId dst ∉ oldIds ∧ resolveReplicaAddress alive dst ≠ [] ∧ ∃ d w,
      (ss src).read c v = some (d, w) ∧
      copyReplicas alive src oldIds c v fates rest
        (Function.update ss (resolveReplicaAddress alive dst)
          ((ss (resolveReplicaAddress alive dst)).write c v d)) = (true, ss') := by
  unfold copyReplicas at h
  by_cases hold : extractNodeId dst ∈ oldIds
  · rw [if_pos hold] at h
    exact .inl ⟨hold, h⟩
  · rw [if_neg hold] at h
    have hgo : ¬ (src = [] ∨ resolveReplicaAddress alive dst = [] ∨ (fates dst).1 ≠ .answered) := by
      intro hbad
      rw [if_pos hbad] at h
      simp at h
    rw [if_neg hgo] at h
    obtain ⟨-, haddr, -⟩ := not_or.mp hgo |>.imp_right not_or.mp
    refine .inr ⟨hold, haddr, ?_⟩
    cases hread : (ss src).read c v with
    | none => simp [fetchChunk, hread] at h
    | some x =>
      obtain ⟨d, w⟩ := x
      refine ⟨d, w, rfl, ?_⟩
      simp only [fetchChunk, hread, Option.map_some, writeChunkToReplica, if_neg haddr] at h
      cases hfate : (fates dst).2 with
      | answered =>
        rw [hfate] at h
        exact h
      | answerLost => simp [hfate] at h
      | unreached => simp [hfate] at h

/-- Every store is as it was, or has `d` written to it under `v`. -/
def Written (c : Str) (v : UInt64) (d : Str) (ss ss' : Stores) : Prop :=
  ∀ a, ss' a = ss a ∨ ∃ st : ChunkStore, ss' a = st.write c v d

/-- **What the copy loop writes**: the one data that the source answers with, to every added node. -/
theorem copyReplicas_stored (hread : (ss src).read c v = some (d, w))
    (h : copyReplicas alive src oldIds c v fates new ss = (true, ss')) : Written c v d ss ss' ∧
      ∀ dst ∈ new, extractNodeId dst ∉ oldIds →
        (ss' (resolveReplicaAddress alive dst)).stored c v = some d := by
  induction new generalizing ss w with
  | nil =>
    obtain rfl := (Prod.mk.inj h).2
    exact ⟨fun a => .inl rfl, by simp⟩
  | cons dst rest ih =>
    rcases copyReplicas_cons h with ⟨hold, h⟩ | ⟨hold, haddr, d', w', hread', h⟩
    · obtain ⟨hw, hrest⟩ := ih hread h
      exact ⟨hw, List.forall_mem_cons.mpr ⟨fun hn => absurd hold hn, hrest⟩⟩
    · obtain ⟨rfl, rfl⟩ := Prod.mk.inj (Option.some.inj (hread.symm.trans hread'))
      set addr := resolveReplicaAddress alive dst with haddr'
      -- the source may be the node that was written to
      have hread₁ : ∃ w₁, (Function.update ss addr ((ss addr).write c v d) src).read c v =
          some (d, w₁) := by
        by_cases hsrc : src = addr
        · rw [hsrc, Function.update_self]
          exact read_write_of_read (hsrc ▸ hread)
        · rw [Function.update_of_ne hsrc]
          exact ⟨w, hread⟩
      obtain ⟨w₁, hread₁⟩ := hread₁
      obtain ⟨hw, hrest⟩ := ih hread₁ h
      refine ⟨fun a => ?_, List.forall_mem_cons.mpr ⟨fun _ => ?_, hrest⟩⟩
      · rcases hw a with ha | ha
        · by_cases haa : a = addr
          · subst haa
            rw [Function.update_self] at ha
            exact .inr ⟨_, ha⟩
          · rw [Function.update_of_ne haa] at ha
            exact .inl ha
        · exact .inr ha
      · rcases hw addr with ha | ⟨st, ha⟩
        · rw [ha, Function.update_self, ChunkStore.stored_write_self]
        · rw [ha, ChunkStore.stored_write_self]

/-- A loop that adds a node has found the chunk at its source. -/
theorem copyReplicas_read (h : copyReplicas alive src oldIds c v fates new ss = (true, ss')) {dst : Str}
    (hdst : dst ∈ new) (hadd : extractNodeId dst ∉ oldIds) : ∃ d w, (ss src).read c v = some (d, w) := by
  induction new with
  | nil => simp at hdst
  | cons x rest ih =>
    rcases copyReplicas_cons h with ⟨hold, h⟩ | ⟨-, -, d, w, hread, -⟩
    · rcases List.mem_cons.mp hdst with rfl | hdst
      · exact absurd hold hadd
      · exact ih h hdst
    · exact ⟨d, w, hread⟩

/-- The node of `dst` is not one of the old set. -/
def Added (old : List Str) (dst : Str) : Prop := extractNodeId dst ∉ old.map extractNodeId

instance (old : List Str) (dst : Str) : Decidable (Added old dst) := inferInstanceAs (Decidable (_ ∉ _))

/-- Every added node holds under `v` the bytes that the source held under `v`. -/
def KeepsPair (alive : List NodeEntry) (ss ss' : Stores) (c : Str) (v : UInt64)
    (old new : List Str) : Prop :=
  ∀ dst ∈ new, Added old dst → old ≠ [] ∧
    ∃ d, (ss (copySource alive old)).stored c v = some d ∧
      (ss' (resolveReplicaAddress alive dst)).stored c v = some d

/-- The newest version of a store carries the bytes that the store holds under `v`. -/
def NewestAs (st : ChunkStore) (c : Str) (v : UInt64) : Prop :=
  ∃ d w, st.read c 0 = some (d, w) ∧ st.stored c v = some d

/-- **When a copy keeps version and data together.** -/
theorem copies_keep_pair_iff (h : copyToNewReplicas alive ss c v old new fates = (true, ss')) :
    KeepsPair alive ss ss' c v old new ↔
      (∀ dst ∈ new, ¬ Added old dst) ∨ old ≠ [] ∧ NewestAs (ss (copySource alive old)) c v := by
  by_cases hadd : ∀ dst ∈ new, ¬ Added old dst
  · exact iff_of_true (fun dst hdst ha => absurd ha (hadd dst hdst)) (.inl hadd)
  · rw [or_iff_right hadd]
    push Not at hadd
    obtain ⟨dst, hdst, ha⟩ := hadd
    by_cases hold : old = []
    · exact iff_of_false (fun hk => (hk dst hdst ha).1 hold) fun hn => hn.1 hold
    rw [copyToNewReplicas, if_neg hold] at h
    obtain ⟨d, w, hread⟩ := copyReplicas_read h hdst ha
    obtain ⟨-, hstored⟩ := copyReplicas_stored hread h
    have hnewest : (ss (copySource alive old)).read c 0 = some (d, w) :=
      (ChunkStore.read_iff_newest.mp hread).1
    constructor
    · intro hk
      obtain ⟨-, d', hsrc, hd'⟩ := hk dst hdst ha
      obtain rfl := Option.some.inj ((hstored dst hdst ha).symm.trans hd')
      exact ⟨hold, _, w, hnewest, hsrc⟩
    · rintro ⟨-, d', w', hread', hsrc⟩ x hx hxa
      obtain ⟨rfl, -⟩ := Prod.mk.inj (Option.some.inj (hnewest.symm.trans hread'))
      exact ⟨hold, d, hsrc, hstored x hx hxa⟩

end Copy

/-! The chunk `c` is copied from the node `n` to the node `m`. -/

def bothAnswer : Str → RpcFate × RpcFate := fun _ => (.answered, .answered)

def copiedTo : List Str := ["n=a".toList, "m=b".toList]

theorem copies_keep_pair_iff_pair :
    KeepsPair pairAlive pairStores
        (copyToNewReplicas pairAlive pairStores ['c'] 1 ["n=a".toList] copiedTo bothAnswer).2
        ['c'] 1 ["n=a".toList] copiedTo ↔
      (∀ dst ∈ copiedTo, ¬ Added ["n=a".toList] dst) ∨ ["n=a".toList] ≠ [] ∧
        NewestAs (pairStores (copySource pairAlive ["n=a".toList])) ['c'] 1 :=
  copies_keep_pair_iff (Prod.ext (by decide +kernel) rfl)

/-- The node `n` has version 1, and a put that was not committed has left version 2. -/
def overwrittenStores : Stores :=
  Function.update (fun _ => ChunkStore.empty) ['a']
    ((ChunkStore.empty.write ['c'] 1 ['x']).write ['c'] 2 ['y'])

/-- The data of version 2 is stored as version 1. -/
theorem newer_data_as_version : ¬ ∀ alive ss ss' c v old new fates,
    copyToNewReplicas alive ss c v old new fates = (true, ss') → KeepsPair alive ss ss' c v old new := by
  intro h
  obtain ⟨-, d, hsrc, hdst⟩ := h pairAlive overwrittenStores
    (copyToNewReplicas pairAlive overwrittenStores ['c'] 1 ["n=a".toList] copiedTo bothAnswer).2
    ['c'] 1 ["n=a".toList] copiedTo bothAnswer (Prod.ext (by decide +kernel) rfl) "m=b".toList
    (by decide) (by decide)
  have hx : (overwrittenStores (copySource pairAlive ["n=a".toList])).stored ['c'] 1 = some ['x'] := by
    decide +kernel
  have hy : ((copyToNewReplicas pairAlive overwrittenStores ['c'] 1 ["n=a".toList] copiedTo
      bothAnswer).2 (resolveReplicaAddress pairAlive "m=b".toList)).stored ['c'] 1 = some ['y'] := by
    decide +kernel
  obtain rfl := Option.some.inj (hx.symm.trans hsrc)
  exact absurd (hy.symm.trans hdst) (by decide)

end NimbusVault
