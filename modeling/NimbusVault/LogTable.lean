import Mathlib.Data.List.Range
import NimbusVault.Follower
import NimbusVault.TableOp

/-!
# LogTable — the table that a sequence of committed indices makes

`Wal.applyAt` is what an `on_commit` callback does to the chunk table, with an exception leaving it
alone.  Whatever the order and the repetitions in which indices are applied, the entry of a chunk is
what the last PUT or DELETE of the chunk makes with the last START or COMMIT behind it
(`Wal.lastEntry`), so two sequences make the same table exactly when these agree for every chunk.
For the same reason a stretch of the log may be applied again (`Wal.foldl_applyAt_overlap`).
-/

namespace NimbusVault

open Lib

/-- The table operation of an entry: `none` too when its parsers throw. -/
def WalEntry.op (e : WalEntry) : Option TableOp := (decodeEntry e).join

theorem applyWalEntry_getD (t : ChunkTable) (e : WalEntry) :
    (applyWalEntry t e).getD t = e.op.elim t (·.apply t) := by
  rw [applyWalEntry_eq, WalEntry.op]
  cases decodeEntry e <;> rfl

theorem applyWalEntry_isSome (t : ChunkTable) (e : WalEntry) :
    (applyWalEntry t e).isSome = (decodeEntry e).isSome := by
  rw [applyWalEntry_eq, Option.isSome_map]

/-- The entries applied once each, in order, to the empty table. -/
def applyEntries (es : List WalEntry) : ChunkTable :=
  es.foldl (fun t e => (applyWalEntry t e).getD t) Kv.empty

/-- A table that the log makes is well formed. -/
theorem applyEntries_wf (es : List WalEntry) : (applyEntries es).Keyed ∧ (applyEntries es).Fields := by
  induction es using List.reverseRecOn with
  | nil => exact ⟨fun c e he => by simp [applyEntries] at he, fun c e he => by simp [applyEntries] at he⟩
  | append_singleton es e ih =>
    rw [applyEntries, List.foldl_concat, applyWalEntry_getD]
    cases hop : e.op with
    | none => exact ih
    | some op =>
      have hfields : op.Fields := decodeEntry_fields (Option.join_eq_some_iff.mp hop)
      exact ⟨op.keyed_apply ih.1, op.fields_apply hfields ih.2⟩

namespace Wal

/-- What the commit of an index does to the table. -/
def applyAt (w : Wal) (t : ChunkTable) (i : ℕ) : ChunkTable := (w.onCommit t i).getD t

def opAt (w : Wal) (i : ℕ) : Option TableOp := (w.readEntry i).bind WalEntry.op

/-- The entry of the chunk `c` after the commits of `ks`: what the last PUT or DELETE among them
makes, with the last START or COMMIT behind it. -/
def lastEntry (w : Wal) (ks : List ℕ) (c : Str) : Option ChunkEntry :=
  lastEffect TableOp.act
    (lastWrites TableOp.isAbsolute ((ks.filterMap w.opAt).filter fun o => o.chunkId = c)) none

/-- The last PUT or DELETE of the chunk `c` among the commits of `ks`. -/
def lastReset (w : Wal) (ks : List ℕ) (c : Str) : Option TableOp :=
  (lastWrites TableOp.isAbsolute ((ks.filterMap w.opAt).filter fun o => o.chunkId = c)).1

variable {w w' : Wal} {i : ℕ}

theorem applyAt_eq (t : ChunkTable) : w.applyAt t i = (w.opAt i).elim t (·.apply t) := by
  unfold applyAt onCommit opAt
  cases w.readEntry i with
  | none => rfl
  | some e => exact applyWalEntry_getD t e

/-- An entry is what it was when the log grows. -/
theorem applyAt_of_prefix (hp : w.records <+: w'.records) (hi : i ≤ w.lastLogIndex) (t : ChunkTable) :
    w'.applyAt t i = w.applyAt t i := by
  rw [applyAt, applyAt, onCommit, onCommit, readEntry_eq_of_prefix hp hi]

theorem foldl_applyAt_of_prefix (hp : w.records <+: w'.records) {ks : List ℕ}
    (hks : ∀ k ∈ ks, k ≤ w.lastLogIndex) (t : ChunkTable) :
    ks.foldl w'.applyAt t = ks.foldl w.applyAt t :=
  List.foldl_ext _ _ _ fun t k hk => applyAt_of_prefix hp (hks k hk) t

/-- All indices up to `n` in order are the first `n` entries in order. -/
theorem foldl_applyAt {n : ℕ} (hn : n ≤ w.lastLogIndex) :
    (List.range' 1 n).foldl w.applyAt Kv.empty = applyEntries (w.records.take n) := by
  induction n with
  | zero => rfl
  | succ n ih =>
    have hlt : n < w.records.length := hn
    have hlast : ∀ t, w.applyAt t (1 + n) = (applyWalEntry t w.records[n]).getD t := by
      intro t
      rw [applyAt, onCommit, readEntry, if_neg (by omega), Nat.add_sub_cancel_left,
        List.getElem?_eq_getElem hlt]
    rw [List.range'_1_concat, List.foldl_concat, ih (Nat.le_of_succ_le hn), hlast,
      List.take_add_one, List.getElem?_eq_getElem hlt, applyEntries, applyEntries, Option.toList_some,
      List.foldl_concat]

/-- A replay comes through exactly when every entry up to the mark parses. -/
theorem replay_eq_some_iff {t : ChunkTable} : w.replay Kv.empty = some t ↔
    (∀ e ∈ w.records.take w.committed, (decodeEntry e).isSome = true) ∧
      applyEntries (w.records.take w.committed) = t := by
  have hsome : ∀ e t t', (applyWalEntry t e).isSome = (applyWalEntry t' e).isSome := by
    intro e t t'
    rw [applyWalEntry_isSome, applyWalEntry_isSome]
  constructor
  · intro h
    have hall : ∀ e ∈ w.records.take w.committed, ∀ t, (applyWalEntry t e).isSome = true :=
      isSome_of_foldlM hsome h
    refine ⟨fun e he => applyWalEntry_isSome Kv.empty e ▸ hall e he Kv.empty, ?_⟩
    exact Option.some.inj ((foldlM_eq_foldl hall Kv.empty).symm.trans h)
  · rintro ⟨hall, rfl⟩
    exact foldlM_eq_foldl (fun e he t => (applyWalEntry_isSome t e).trans (hall e he)) Kv.empty

/-! ### The last writes of a chunk -/

/-- A chunk that no operation is about. -/
theorem lastEntry_of_forall_ne {ks : List ℕ} {c : Str}
    (h : ∀ o ∈ ks.filterMap w.opAt, o.chunkId ≠ c) : w.lastEntry ks c = none := by
  have hnil : ((ks.filterMap w.opAt).filter fun o => o.chunkId = c) = [] :=
    List.filter_eq_nil_iff.mpr fun o ho => by simpa using h o ho
  rw [lastEntry, hnil]
  rfl

/-- Commits of indices are the operations of their entries. -/
theorem foldl_applyAt_ops (w : Wal) (ks : List ℕ) (t : ChunkTable) :
    ks.foldl w.applyAt t = (ks.filterMap w.opAt).foldl (fun t o => o.apply t) t := by
  rw [List.foldl_filterMap]
  refine List.foldl_ext _ _ _ fun t k _ => ?_
  rw [applyAt_eq]
  cases w.opAt k <;> rfl

/-- **The last writes make the entry.** -/
theorem get_foldl_applyAt (ks : List ℕ) (c : Str) :
    (ks.foldl w.applyAt Kv.empty).get c = w.lastEntry ks c := by
  rw [foldl_applyAt_ops, lastEntry, ← foldl_act TableOp.assigns]
  have hkey : ∀ o : TableOp, decide (o.chunkId = c) = true ↔ o.chunkId = c :=
    fun _ => decide_eq_true_iff
  exact Kv.get_foldl_alter hkey _ Kv.empty

/-- A chunk is missing when nothing has put it since its last deletion. -/
theorem lastEntry_eq_none_iff {ks : List ℕ} {c : Str} :
    w.lastEntry ks c = none ↔ ∀ op ∈ w.lastReset ks c, op = .delete c := by
  unfold lastEntry lastReset
  generalize hw : lastWrites TableOp.isAbsolute
    ((ks.filterMap w.opAt).filter fun o => o.chunkId = c) = last
  obtain ⟨a, r⟩ := last
  have hrel : lastEffect TableOp.act (a, r) none = none ↔ a.elim none (TableOp.act · none) = none := by
    cases r with
    | none => rfl
    | some r => exact TableOp.act_eq_none_of_relative (lastWrites_snd (congrArg Prod.snd hw))
  rw [hrel]
  cases a with
  | none => simp
  | some a =>
    obtain ⟨hmem, habs⟩ := lastWrites_fst (congrArg Prod.fst hw)
    have hc : a.chunkId = c := by simpa using (List.mem_filter.mp hmem).2
    simpa [hc] using TableOp.act_eq_none_of_absolute (e := none) habs

/-- **When two sequences of commits make the same table.** -/
theorem foldl_applyAt_eq_iff {ks ks' : List ℕ} :
    ks.foldl w.applyAt Kv.empty = ks'.foldl w.applyAt Kv.empty ↔
      ∀ c, w.lastEntry ks c = w.lastEntry ks' c := by
  simp only [← get_foldl_applyAt]
  exact ⟨fun h c => by rw [h], Kv.ext_get⟩

/-- A table that commits made has every entry under its own id. -/
theorem keyed_foldl_applyAt (w : Wal) (ks : List ℕ) :
    ChunkTable.Keyed (ks.foldl w.applyAt Kv.empty) := by
  induction ks using List.reverseRecOn with
  | nil => exact fun c e he => by simp at he
  | append_singleton ks k ih =>
    rw [List.foldl_concat, Wal.applyAt_eq]
    cases w.opAt k with
    | none => exact ih
    | some op => exact op.keyed_apply ih

/-! ### Applying a stretch of the log again -/

/-- A stretch that has been applied may be applied again. -/
theorem foldl_applyAt_twice (w : Wal) (ks : List ℕ) (t : ChunkTable) :
    ks.foldl w.applyAt (ks.foldl w.applyAt t) = ks.foldl w.applyAt t := by
  simp only [foldl_applyAt_ops]
  refine Kv.ext_get fun c => ?_
  have hkey : ∀ o : TableOp, decide (o.chunkId = c) = true ↔ o.chunkId = c :=
    fun _ => decide_eq_true_iff
  have hget : ∀ (ops : List TableOp) (t : ChunkTable), (ops.foldl (fun t o => o.apply t) t).get c =
      (ops.filter fun o => o.chunkId = c).foldl (fun e o => o.act e) (t.get c) :=
    Kv.get_foldl_alter hkey
  rw [hget, hget, foldl_act_twice TableOp.assigns]

theorem range'_split {a b c : ℕ} (hab : a ≤ b) (hbc : b ≤ c) :
    List.range' a (c - a) = List.range' a (b - a) ++ List.range' b (c - b) := by
  have h := List.range'_append_1 (s := a) (m := b - a) (n := c - b)
  rw [show a + (b - a) = b by omega, show b - a + (c - b) = c - a by omega] at h
  exact h.symm

/-- **Overlapping catch-up.** On the table of the first `m` entries, the entries `k` to `n` in order
make the table of the first `n`, wherever `k` lies below the gap. -/
theorem foldl_applyAt_overlap (w : Wal) {k m n : ℕ} (hk : 1 ≤ k) (hkm : k ≤ m + 1) (hmn : m ≤ n) :
    (List.range' k (n + 1 - k)).foldl w.applyAt ((List.range' 1 m).foldl w.applyAt Kv.empty) =
      (List.range' 1 n).foldl w.applyAt Kv.empty := by
  have hm : List.range' 1 m = List.range' 1 (k - 1) ++ List.range' k (m + 1 - k) :=
    range'_split hk hkm
  have hmn' : m + 1 ≤ n + 1 := by omega
  have hgap : n + 1 - (m + 1) = n - m := by omega
  have hkn : List.range' k (n + 1 - k) = List.range' k (m + 1 - k) ++ List.range' (m + 1) (n - m) := by
    rw [range'_split hkm hmn', hgap]
  have hn : List.range' 1 n = List.range' 1 m ++ List.range' (m + 1) (n - m) := by
    rw [← hgap]
    exact range'_split (Nat.le_add_left 1 m) hmn'
  -- the overlap `k..m` is applied twice, the entries behind `m` once
  rw [hn, hkn, List.foldl_append, List.foldl_append, hm, List.foldl_append, foldl_applyAt_twice]

/-- A put, a reconfiguration, and a deletion. -/
def overlapLog : Wal where
  records :=
    [⟨.putChunk, 1, "c|1|1|1|n=a,".toList⟩, ⟨.reconfigureStart, 1, "c|n=a,|m=b,".toList⟩,
      ⟨.reconfigureCommit, 1, "c|m=b,".toList⟩, ⟨.deleteChunk, 1, "c".toList⟩]

theorem foldl_applyAt_overlap_log :
    (List.range' 2 3).foldl overlapLog.applyAt ((List.range' 1 3).foldl overlapLog.applyAt Kv.empty) =
      (List.range' 1 4).foldl overlapLog.applyAt Kv.empty :=
  foldl_applyAt_overlap overlapLog (k := 2) (m := 3) (n := 4) (by decide) (by decide) (by decide)

end Wal

end NimbusVault
