import NimbusVault.WalDb

/-!
# CrashLog — the log through any number of crashes

A crash keeps a prefix of the writes that the log has issued, and the next process opens the log on
what was kept.  `crashLog` is the log of `MetaWal` write by write, with crashes at any point of any
call; its ghost `log` is the list of entries that the processes believe to have, cut down at every
crash to what the counters then say.  Whatever is kept, the reopened log is a prefix of it with a mark
that does not lie behind its end: every index up to `meta/last_index` reads as the entry that was
appended there, although older entries may still lie on disk above it (`log_survives_crashes`).  A
crash forgets the last call that had returned, and no other (`crash_forgets_one`).
-/

namespace NimbusVault

open Lib WalRun

/-! ### Crashes -/

/-- The running process, and (ghost) the entries that it has appended or found. -/
structure CrashState where
  run : WalRun
  log : Wal := {}

inductive CrashStep
  | call (l : WalStep)
  | crash (k : ℕ)

namespace CrashState

/-- The log after a step: an entry belongs to it once its write is issued. -/
def logged (s : CrashState) : WalStep → Wal
  | .append e => s.log.append e
  | .persist =>
    match s.run.call with
    | some (.commit idx .put) => s.log.commit idx.toNat
    | _ => s.log
  | _ => s.log

/-- The log as far as the counters reach. -/
def reopenedLog (s : CrashState) (k : ℕ) : Wal where
  records := s.log.records.take (s.run.counterAt lastIndexKey k)
  committed := s.run.counterAt committedKey k

def step (s : CrashState) : CrashStep → Option CrashState
  | .call l => (s.run.step l).map fun run => { run, log := s.logged l }
  | .crash k =>
    if s.run.Crash k then some { run := opened (s.run.kept k), log := s.reopenedLog k } else none

/-- What callers keep to: entries that fit their fields, commits of indices that the log has, and an
index that does not wrap around. -/
def Proper (s : CrashState) : CrashStep → Prop
  | .call (.append e) => e.Fits ∧ NoWrap s.run (.append e)
  | .call (.commit idx) => idx ≤ s.run.lastIndex
  | _ => True

end CrashState

/-- Calls of one process after the other, with crashes in between. -/
abbrev crashLog : Machine CrashState CrashStep := .ofStep CrashState.step

/-! ### The log in a database -/

/-- The entries up to `n` are in the database. -/
def HoldsUpTo (db : Kv Str Str) (m : Wal) (n : ℕ) : Prop :=
  ∀ i e, i ≤ n → m.readEntry i = some e → db.get (walKey (UInt64.ofNat i)) = some (encodeEntry e)

/-- As far as its counters reach, the database holds a part of the log. -/
structure HoldsLog (db : Kv Str Str) (m : Wal) : Prop where
  last_le : (readCounter db lastIndexKey).toNat ≤ m.lastLogIndex
  mark_le : (readCounter db committedKey).toNat ≤ m.committed
  mark_le_last : (readCounter db committedKey).toNat ≤ (readCounter db lastIndexKey).toNat
  entries : HoldsUpTo db m (readCounter db lastIndexKey).toNat

section Database

variable {m : Wal} {e : WalEntry} {db : Kv Str Str} {n i : ℕ} {key v : Str} {idx : UInt64}

theorem Wal.readEntry_take (hi : i ≤ n) (c : ℕ) :
    Wal.readEntry ⟨m.records.take n, c⟩ i = m.readEntry i := by
  unfold Wal.readEntry
  split_ifs with h0
  · rfl
  · exact List.getElem?_take_of_lt (by omega)

/-- A new entry is none of those up to `n`. -/
theorem HoldsUpTo.append (h : HoldsUpTo db m n) (hn : n ≤ m.lastLogIndex) :
    HoldsUpTo db (m.append e) n := by
  intro i x hi hx
  rw [Wal.readEntry_append, if_neg (by omega)] at hx
  exact h i x hi hx

theorem HoldsUpTo.put (h : HoldsUpTo db m n) (hkey : ∀ i ≤ n, walKey (UInt64.ofNat i) ≠ key) :
    HoldsUpTo (db.put key v) m n := by
  intro i e hi he
  rw [Kv.get_put_of_ne (hkey i hi)]
  exact h i e hi he

theorem HoldsLog.append (h : HoldsLog db m) : HoldsLog db (m.append e) where
  last_le := h.last_le.trans (Wal.lastLogIndex_append ▸ Nat.le_succ _)
  mark_le := h.mark_le
  mark_le_last := h.mark_le_last
  entries := h.entries.append h.last_le

theorem HoldsLog.commit (h : HoldsLog db m) (j : ℕ) : HoldsLog db (m.commit j) where
  last_le := h.last_le
  mark_le := h.mark_le.trans (le_max_left _ _)
  mark_le_last := h.mark_le_last
  entries := h.entries

/-- A write elsewhere. -/
theorem HoldsLog.put (h : HoldsLog db m) (hlast : lastIndexKey ≠ key) (hmark : committedKey ≠ key)
    (hkey : ∀ i ≤ m.lastLogIndex, walKey (UInt64.ofNat i) ≠ key) : HoldsLog (db.put key v) m := by
  have hl : readCounter (db.put key v) lastIndexKey = readCounter db lastIndexKey :=
    readCounter_put_of_ne hlast
  have hm : readCounter (db.put key v) committedKey = readCounter db committedKey :=
    readCounter_put_of_ne hmark
  refine ⟨?_, ?_, ?_, ?_⟩
  · rw [hl]
    exact h.last_le
  · rw [hm]
    exact h.mark_le
  · rw [hl, hm]
    exact h.mark_le_last
  · rw [hl]
    exact h.entries.put fun i hi => hkey i (hi.trans h.last_le)

/-- The write of the last index, when all entries are there. -/
theorem HoldsLog.put_last (h : HoldsLog db m) (hwhole : HoldsUpTo db m m.lastLogIndex)
    (hidx : idx.toNat = m.lastLogIndex) : HoldsLog (db.put lastIndexKey (encodeCounter idx)) m := by
  have hl : readCounter (db.put lastIndexKey (encodeCounter idx)) lastIndexKey = idx :=
    readCounter_encode Kv.get_put_self
  have hm : readCounter (db.put lastIndexKey (encodeCounter idx)) committedKey =
      readCounter db committedKey := readCounter_put_of_ne lastIndexKey_ne_committedKey.symm
  refine ⟨?_, ?_, ?_, ?_⟩
  · rw [hl, hidx]
  · rw [hm]
    exact h.mark_le
  · rw [hl, hm, hidx]
    exact h.mark_le_last.trans h.last_le
  · rw [hl, hidx]
    exact hwhole.put fun i _ => (lastIndexKey_ne_walKey _).symm

/-- The write of the mark. -/
theorem HoldsLog.put_mark (h : HoldsLog db m) (hidx : idx.toNat ≤ (readCounter db lastIndexKey).toNat) :
    HoldsLog (db.put committedKey (encodeCounter idx)) (m.commit idx.toNat) := by
  have hl : readCounter (db.put committedKey (encodeCounter idx)) lastIndexKey =
      readCounter db lastIndexKey := readCounter_put_of_ne lastIndexKey_ne_committedKey
  have hm : readCounter (db.put committedKey (encodeCounter idx)) committedKey = idx :=
    readCounter_encode Kv.get_put_self
  refine ⟨?_, ?_, ?_, ?_⟩
  · rw [hl]
    exact h.last_le
  · rw [hm]
    exact le_max_right _ _
  · rw [hl, hm]
    exact hidx
  · rw [hl]
    exact h.entries.put fun i _ => (committedKey_ne_walKey _).symm

end Database

/-! ### The invariant -/

/-- Where the call under way has got to, next to the counter of the last index. -/
def WalRun.CallInv (s : WalRun) : Prop :=
  match s.call with
  | some (.append idx .putting) | some (.append idx .put) => idx = s.lastIndex
  | some (.commit idx _) =>
    idx ≤ s.lastIndex ∧ readCounter (s.kept s.issued.length) lastIndexKey = s.lastIndex
  | _ => readCounter (s.kept s.issued.length) lastIndexKey = s.lastIndex

/-- Whatever is kept of the writes holds a part of the log, and all of them hold all its entries. -/
structure CrashInv (s : WalRun) (m : Wal) : Prop where
  last : s.lastIndex.toNat = m.lastLogIndex
  mark : s.committed.toNat = m.committed
  mark_le : m.committed ≤ m.lastLogIndex
  fits : ∀ e ∈ m.records, e.Fits
  cuts : ∀ k ≤ s.issued.length, HoldsLog (s.kept k) m
  whole : HoldsUpTo (s.kept s.issued.length) m m.lastLogIndex
  call : s.CallInv

section Invariant

variable {s s' : WalRun} {m : Wal} {l : WalStep} {w : DbWrite}

/-- What holds of all prefixes, and after one more write. -/
theorem WalRun.Issues.cuts (h : Issues s w s') (hold : ∀ k ≤ s.issued.length, HoldsLog (s.kept k) m)
    (hnew : HoldsLog ((s.kept s.issued.length).put w.key w.value) m) :
    ∀ k ≤ s'.issued.length, HoldsLog (s'.kept k) m := by
  intro k hk
  rw [h.length] at hk
  rcases Nat.le_succ_iff.mp hk with hk | rfl
  · rw [kept, h.base, h.issued, List.take_append_of_le_length hk]
    exact hold k hk
  · rw [h.kept_last]
    exact hnew

theorem crashInv_opened : CrashInv (opened Kv.empty) {} where
  last := rfl
  mark := rfl
  mark_le := le_rfl
  fits _ h := by simp at h
  cuts k _ := ⟨by simp [kept, opened, putAll, readCounter], by simp [kept, opened, putAll, readCounter],
    by simp [kept, opened, putAll, readCounter], fun i e _ he => by simp [Wal.readEntry] at he⟩
  whole i e _ he := by simp [Wal.readEntry] at he
  call := rfl

/-- One write more, elsewhere. -/
theorem WalRun.Issues.counter_kept (h : Issues s w s') {key : Str} (hkey : key ≠ w.key) :
    readCounter (s'.kept s'.issued.length) key = readCounter (s.kept s.issued.length) key := by
  rw [h.length, h.kept_last, readCounter_put_of_ne hkey]

theorem toNat_succ_of_noWrap {e : WalEntry} (h : NoWrap s (.append e)) :
    (s.lastIndex + 1).toNat = s.lastIndex.toNat + 1 := by
  have hlt : s.lastIndex.toNat < (s.lastIndex + 1).toNat := UInt64.lt_iff_toNat_lt.mp h
  have hmod : (s.lastIndex + 1).toNat = (s.lastIndex.toNat + 1) % 2 ^ 64 := UInt64.toNat_add _ _
  have hmax := s.lastIndex.toNat_lt
  omega

/-- The key of a new entry is that of none before it. -/
theorem walKey_ne_of_lt {i : ℕ} {idx : UInt64} (h : i < idx.toNat) :
    walKey (UInt64.ofNat i) ≠ walKey idx := by
  intro heq
  rw [← walKey_inj.mp heq, UInt64.toNat_ofNat'] at h
  exact absurd (Nat.mod_le i (2 ^ 64)) (not_le.mpr h)

/-- The first write of an append. -/
theorem CrashInv.putEntry (hI : CrashInv s m) {e : WalEntry} (he : e.Fits)
    (hwrap : NoWrap s (.append e)) : CrashInv (s.putEntry e) (m.append e) := by
  have hiss : Issues s ⟨walKey (s.lastIndex + 1), encodeEntry e, true⟩ (s.putEntry e) := ⟨rfl, rfl⟩
  have hidx : (s.lastIndex + 1).toNat = m.lastLogIndex + 1 := by
    rw [toNat_succ_of_noWrap hwrap, hI.last]
  have hkey : ∀ i ≤ m.lastLogIndex, walKey (UInt64.ofNat i) ≠ walKey (s.lastIndex + 1) :=
    fun i hi => walKey_ne_of_lt (by omega)
  refine ⟨?_, hI.mark, ?_, ?_, ?_, ?_, rfl⟩
  · rw [Wal.lastLogIndex_append]
    exact hidx
  · rw [Wal.lastLogIndex_append]
    exact hI.mark_le.trans (Nat.le_succ _)
  · intro x hx
    rcases List.mem_append.mp hx with hx | hx
    · exact hI.fits x hx
    · exact List.mem_singleton.mp hx ▸ he
  · refine hiss.cuts (fun k hk => (hI.cuts k hk).append) ?_
    exact ((hI.cuts _ le_rfl).put (lastIndexKey_ne_walKey _) (committedKey_ne_walKey _) hkey).append
  · intro i x hi hx
    rw [hiss.length, hiss.kept_last]
    rw [Wal.readEntry_append] at hx
    split_ifs at hx with hnew
    · have hofNat : UInt64.ofNat i = s.lastIndex + 1 := by
        rw [hnew, ← hidx, UInt64.ofNat_toNat]
      rw [hofNat, Kv.get_put_self, Option.some.inj hx]
    · have hle := (Wal.readEntry_le hx).2
      rw [Kv.get_put_of_ne (hkey i hle)]
      exact hI.whole i x hle hx

/-- **A step of a call** keeps the log in its prefixes. -/
theorem CrashInv.call_step {s : CrashState} {run : WalRun} (hI : CrashInv s.run s.log)
    (h : s.run.step l = some run) (hok : s.Proper (.call l)) : CrashInv run (s.logged l) := by
  obtain ⟨hlast, hmark, hmark_le, hfits, hcuts, hwhole, hcall⟩ := id hI
  cases step_fires h with
  | append e _ => exact hI.putEntry hok.1 hok.2
  | commit idx hc =>
    have hiss : Issues s.run ⟨cmtKey idx, ['1'], true⟩ (s.run.putMarker idx) := ⟨rfl, rfl⟩
    simp only [CallInv, hc] at hcall
    refine ⟨hlast, hmark, hmark_le, hfits, hiss.cuts hcuts ?_, ?_, hok, ?_⟩
    · exact (hcuts _ le_rfl).put (lastIndexKey_ne_cmtKey idx) (committedKey_ne_cmtKey idx)
        fun i _ => walKey_ne_cmtKey _ idx
    · rw [hiss.length, hiss.kept_last]
      exact hwhole.put fun i _ => walKey_ne_cmtKey _ idx
    · rw [hiss.counter_kept (lastIndexKey_ne_cmtKey idx)]
      exact hcall
  | appendSynced hc =>
    simp only [CallInv, hc] at hcall
    exact ⟨hlast, hmark, hmark_le, hfits, hcuts, hwhole, hcall⟩
  | commitSynced hc =>
    simp only [CallInv, hc] at hcall
    exact ⟨hlast, hmark, hmark_le, hfits, hcuts, hwhole, hcall⟩
  | @appendPersist idx hc =>
    simp only [CallInv, hc] at hcall
    have hlog : s.logged .persist = s.log := by simp only [CrashState.logged, hc]
    have hiss : Issues s.run ⟨lastIndexKey, encodeCounter s.run.lastIndex, false⟩
        (s.run.persistLastIndex idx) := ⟨rfl, rfl⟩
    rw [hlog]
    refine ⟨hlast, hmark, hmark_le, hfits, hiss.cuts hcuts ?_, ?_, ?_⟩
    · exact (hcuts _ le_rfl).put_last hwhole hlast
    · rw [hiss.length, hiss.kept_last]
      exact hwhole.put fun i _ => (lastIndexKey_ne_walKey _).symm
    · show readCounter (_ : Kv Str Str) lastIndexKey = s.run.lastIndex
      rw [hiss.length, hiss.kept_last]
      exact readCounter_encode Kv.get_put_self
  | @commitPersist idx hc hrise =>
    simp only [CallInv, hc] at hcall
    have hlog : s.logged .persist = s.log.commit idx.toNat := by simp only [CrashState.logged, hc]
    have hiss : Issues s.run ⟨committedKey, encodeCounter idx, false⟩ (s.run.persistCommitted idx) :=
      ⟨rfl, rfl⟩
    have hidx : idx.toNat ≤ s.log.lastLogIndex := hlast ▸ UInt64.le_iff_toNat_le.mp hcall.1
    have hlt : s.log.committed < idx.toNat := hmark ▸ UInt64.lt_iff_toNat_lt.mp hrise
    rw [hlog]
    refine ⟨hlast, (max_eq_right hlt.le).symm, max_le hmark_le hidx, hfits,
      hiss.cuts (fun k hk => (hcuts k hk).commit _) ?_, ?_, hcall.1, ?_⟩
    · refine (hcuts _ le_rfl).put_mark ?_
      rw [hcall.2, hlast]
      exact hidx
    · rw [hiss.length, hiss.kept_last]
      exact hwhole.put fun i _ => (committedKey_ne_walKey _).symm
    · rw [hiss.counter_kept lastIndexKey_ne_committedKey]
      exact hcall.2
  | appendRet hc =>
    simp only [CallInv, hc] at hcall
    exact ⟨hlast, hmark, hmark_le, hfits, hcuts, hwhole, hcall⟩
  | commitRet hc =>
    simp only [CallInv, hc] at hcall
    exact ⟨hlast, hmark, hmark_le, hfits, hcuts, hwhole, hcall.2⟩
  | commitRetOld hc =>
    simp only [CallInv, hc] at hcall
    exact ⟨hlast, hmark, hmark_le, hfits, hcuts, hwhole, hcall.2⟩

/-- What a crash keeps, opened again. -/
theorem CrashInv.crash {s : CrashState} (hI : CrashInv s.run s.log) {k : ℕ} (hk : s.run.Crash k) :
    CrashInv (opened (s.run.kept k)) (s.reopenedLog k) := by
  obtain ⟨hlast, hmark, hle, hentries⟩ := hI.cuts k hk.2
  have hlen : (s.reopenedLog k).lastLogIndex = s.run.counterAt lastIndexKey k :=
    List.length_take_of_le hlast
  have hread : HoldsUpTo (s.run.kept k) (s.reopenedLog k) (s.run.counterAt lastIndexKey k) := by
    intro i e hi he
    rw [CrashState.reopenedLog, Wal.readEntry_take hi] at he
    exact hentries i e hi he
  refine ⟨hlen.symm, rfl, hlen ▸ hle, fun e he => hI.fits e (List.mem_of_mem_take he), ?_, ?_, rfl⟩
  · intro j hj
    obtain rfl : j = 0 := Nat.le_zero.mp hj
    exact ⟨hlen.ge, le_rfl, hle, hread⟩
  · rw [hlen]
    exact hread

theorem crashInv_of_run {tr : List CrashStep} {s : CrashState}
    (h : crashLog.Run CrashState.Proper { run := opened Kv.empty } tr s) : CrashInv s.run s.log := by
  refine h.invariant_step (I := fun s => CrashInv s.run s.log) crashInv_opened
    fun s l s' hI hs hok => ?_
  cases l with
  | call l =>
    obtain ⟨run, hrun, rfl⟩ := Option.map_eq_some_iff.mp hs
    exact hI.call_step hrun hok
  | crash k =>
    simp only [CrashState.step] at hs
    split_ifs at hs with hk
    obtain rfl := Option.some.inj hs
    exact hI.crash hk

/-- **The log survives crashes.**  After any number of crashes, at any point of any call, and whatever
the next crash keeps: the reopened log is not longer than the log was, its mark is neither beyond its
end nor beyond the old mark, every index up to its end reads as the entry appended there, and the
replay passes on the entries up to the mark. -/
theorem log_survives_crashes {tr : List CrashStep} {s : CrashState}
    (h : crashLog.Run CrashState.Proper { run := opened Kv.empty } tr s) {k : ℕ} (hk : s.run.Crash k) :
    let w := MetaWal.opened (s.run.kept k)
    w.lastIndex.toNat ≤ s.log.lastLogIndex ∧ w.committed.toNat ≤ s.log.committed ∧
      w.committed ≤ w.lastIndex ∧
      (∀ i, 1 ≤ i → i ≤ w.lastIndex → w.readEntry i = s.log.readEntry i.toNat) ∧
      w.replay = (List.range' 1 w.committed.toNat).filterMap fun i =>
        (s.log.readEntry i).map fun e => (i, e) := by
  have hI := crashInv_of_run h
  obtain ⟨hlast, hmark, hle, hentries⟩ := hI.cuts k hk.2
  have hread : ∀ i : UInt64, 1 ≤ i → i ≤ (MetaWal.opened (s.run.kept k)).lastIndex →
      (MetaWal.opened (s.run.kept k)).readEntry i = s.log.readEntry i.toNat := by
    intro i h1 hi
    have h1' : 1 ≤ i.toNat := UInt64.le_iff_toNat_le.mp h1
    have hi' : i.toNat ≤ (readCounter (s.run.kept k) lastIndexKey).toNat :=
      UInt64.le_iff_toNat_le.mp hi
    obtain ⟨e, he⟩ := Wal.readEntry_isSome (w := s.log) (i := i.toNat) h1' (hi'.trans hlast)
    have hget := hentries i.toNat e hi' he
    rw [UInt64.ofNat_toNat] at hget
    have hfits : e.Fits := by
      refine hI.fits e ?_
      unfold Wal.readEntry at he
      split_ifs at he
      exact List.mem_of_getElem? he
    show ((s.run.kept k).get (walKey i)).bind MetaWal.decodeEntry = _
    rw [hget, Option.bind_some, MetaWal.decodeEntry_encodeEntry hfits, he]
  refine ⟨hlast, hmark, UInt64.le_iff_toNat_le.mpr hle, hread, ?_⟩
  refine List.filterMap_congr fun i hi => ?_
  obtain ⟨h1, hlt⟩ := List.mem_range'_1.mp hi
  have hlt' : i < 1 + (readCounter (s.run.kept k) committedKey).toNat := hlt
  have hilast : i ≤ (readCounter (s.run.kept k) lastIndexKey).toNat := by omega
  have hmax := (readCounter (s.run.kept k) lastIndexKey).toNat_lt
  have hnat : (UInt64.ofNat i).toNat = i := UInt64.toNat_ofNat_of_lt' (hilast.trans_lt hmax)
  rw [hread (UInt64.ofNat i) (UInt64.le_iff_toNat_le.mpr (hnat.symm ▸ h1))
    (UInt64.le_iff_toNat_le.mpr (hnat.symm ▸ hilast)), hnat]

end Invariant

/-- A first append returns, but its counter is lost; the second one takes its place, and is cut off
before its counter. -/
def forgetTrace : List CrashStep :=
  [.call (.append ⟨.deleteChunk, 1, ['c']⟩), .call .synced, .call .persist, .call .ret, .crash 1,
    .call (.append ⟨.putChunk, 2, ['d']⟩), .call .synced, .call .persist, .call .ret,
    .call (.commit 1), .call .synced, .call .persist, .call .ret,
    .call (.append ⟨.deleteChunk, 2, ['d']⟩), .call .synced]

instance (s : CrashState) (l : CrashStep) : Decidable (s.Proper l) :=
  match l with
  | .call (.append e) => inferInstanceAs (Decidable ((e.term < 2 ^ 64 ∧ e.payload.length < 2 ^ 32) ∧
      s.run.lastIndex < s.run.lastIndex + 1))
  | .call (.commit idx) => inferInstanceAs (Decidable (idx ≤ s.run.lastIndex))
  | .call .synced | .call .persist | .call .ret | .crash _ => .isTrue trivial

def forgetState : CrashState :=
  crashLog.final CrashState.Proper { run := opened Kv.empty } forgetTrace

theorem forgetState_run :
    crashLog.Run CrashState.Proper { run := opened Kv.empty } forgetTrace forgetState :=
  Machine.run_final (by decide +kernel)

theorem log_survives_crashes_twice :
    let w := MetaWal.opened (forgetState.run.kept 5)
    w.lastIndex.toNat ≤ forgetState.log.lastLogIndex ∧ w.committed.toNat ≤ forgetState.log.committed ∧
      w.committed ≤ w.lastIndex ∧
      (∀ i, 1 ≤ i → i ≤ w.lastIndex → w.readEntry i = forgetState.log.readEntry i.toNat) ∧
      w.replay = (List.range' 1 w.committed.toNat).filterMap fun i =>
        (forgetState.log.readEntry i).map fun e => (i, e) :=
  log_survives_crashes forgetState_run (by decide +kernel)

/-! ### What a crash forgets -/

/-- Whatever a crash keeps covers these indices. -/
def WalRun.Kept (s : WalRun) (key : Str) (rets : List UInt64) : Prop :=
  ∀ i ∈ rets, ∀ k, s.durable ≤ k → k ≤ s.issued.length → i.toNat ≤ s.counterAt key k

/-- Behind the first write of a call, all earlier writes are durable. -/
def WalRun.Flushed (s : WalRun) : Prop :=
  match s.call with
  | none | some (.append _ .putting) | some (.commit _ .putting) => True
  | _ => s.lastIndexAt ≤ s.durable ∧ s.committedAt ≤ s.durable

/-- Only the counter write of the last call that has returned can be lost. -/
structure ForgetInv (s : WalRun) : Prop where
  inv : WalInv s
  durable_le : s.durable ≤ s.issued.length
  appended : s.Kept lastIndexKey s.appended.tail
  commits : s.Kept committedKey s.commits.tail
  one : s.lastIndexAt ≤ s.durable ∨ s.committedAt ≤ s.durable
  synced : s.Flushed

section Forget

variable {s s' : WalRun} {l : WalStep} {w : DbWrite} {key : Str} {rets : List UInt64}

/-- One write more does not lower the counters. -/
theorem WalRun.Kept.issue (h : s.Kept key rets) (hiss : Issues s w s') (hd : s'.durable = s.durable)
    (hdn : s.durable ≤ s.issued.length)
    (hle : ∀ k ≤ s'.issued.length, s'.counterAt key k ≤ s'.counterAt key s'.issued.length) :
    s'.Kept key rets := by
  intro i hi k hk hkn
  rw [hiss.length] at hkn hle
  rcases Nat.le_succ_iff.mp hkn with hkn | rfl
  · rw [hiss.counterAt_of_le hkn]
    exact h i hi k (hd ▸ hk) hkn
  · refine (h i hi _ hdn le_rfl).trans ?_
    rw [← hiss.counterAt_of_le le_rfl]
    exact hle _ (Nat.le_succ _)

/-- Calls whose counter write is durable. -/
theorem kept_of_tracks {cut : ℕ} (h : Tracks (s.counterAt key) s.issued.length (rets.map UInt64.toNat) cut)
    (hcut : cut ≤ s.durable) : s.Kept key rets := fun _ hi k hk hkn =>
  (h.covers k hkn).mpr (hcut.trans hk) _ (List.mem_map_of_mem hi)

theorem ForgetInv.issue (hI : ForgetInv s) (hI' : WalInv s') (hiss : Issues s w s')
    (hd : s'.durable = s.durable) (ha : s'.appended = s.appended) (hc : s'.commits = s.commits)
    (hla : s'.lastIndexAt = s.lastIndexAt) (hca : s'.committedAt = s.committedAt)
    (hsync : s'.Flushed) : ForgetInv s' where
  inv := hI'
  durable_le := by
    rw [hd, hiss.length]
    exact hI.durable_le.trans (Nat.le_succ _)
  appended := ha ▸ hI.appended.issue hiss hd hI.durable_le hI'.last.le
  commits := hc ▸ hI.commits.issue hiss hd hI.durable_le hI'.cmt.le
  one := by
    rw [hd, hla, hca]
    exact hI.one
  synced := hsync

theorem ForgetInv.fires (hI : ForgetInv s) (h : s.Fires l s') (hok : NoWrap s l) : ForgetInv s' := by
  have hI' := hI.inv.fires h hok
  obtain ⟨hinv, hdn, happ, hcom, hone, hsync⟩ := id hI
  cases h with
  | append e hc => exact hI.issue hI' ⟨rfl, rfl⟩ rfl rfl rfl rfl rfl trivial
  | commit idx hc => exact hI.issue hI' ⟨rfl, rfl⟩ rfl rfl rfl rfl rfl trivial
  | appendSynced hc =>
    exact ⟨hI', le_rfl, fun i hi k hk hkn => happ i hi k (hdn.trans hk) hkn,
      fun i hi k hk hkn => hcom i hi k (hdn.trans hk) hkn, .inl hinv.last.cut_le,
      hinv.last.cut_le, hinv.cmt.cut_le⟩
  | commitSynced hc =>
    exact ⟨hI', le_rfl, fun i hi k hk hkn => happ i hi k (hdn.trans hk) hkn,
      fun i hi k hk hkn => hcom i hi k (hdn.trans hk) hkn, .inl hinv.last.cut_le,
      hinv.last.cut_le, hinv.cmt.cut_le⟩
  | appendPersist hc =>
    simp only [Flushed, hc] at hsync
    exact hI.issue hI' ⟨rfl, rfl⟩ rfl rfl rfl rfl rfl hsync
  | commitPersist hc _ =>
    simp only [Flushed, hc] at hsync
    exact hI.issue hI' ⟨rfl, rfl⟩ rfl rfl rfl rfl rfl hsync
  | appendRet hc =>
    simp only [Flushed, hc] at hsync
    exact ⟨hI', hdn, kept_of_tracks hinv.last hsync.1, hcom, .inr hsync.2, trivial⟩
  | commitRet hc =>
    simp only [Flushed, hc] at hsync
    exact ⟨hI', hdn, happ, kept_of_tracks hinv.cmt hsync.2, .inl hsync.1, trivial⟩
  | commitRetOld hc _ =>
    simp only [Flushed, hc] at hsync
    exact ⟨hI', hdn, happ, kept_of_tracks hinv.cmt hsync.2, .inl hsync.1, trivial⟩

/-- **A crash forgets one call at most.**  On whatever database the log was opened and wherever the
crash falls, the reopened log covers all indices for which an append or a commit had returned, but for
those of the last append or of the last commit. -/
theorem crash_forgets_one {db : Kv Str Str} {tr : List WalStep}
    (h : metaWal.Run NoWrap (opened db) tr s) {k : ℕ} (hk : s.Crash k) :
    (∀ i ∈ s.appended.tail, i ≤ (opened (s.kept k)).lastIndex) ∧
    (∀ i ∈ s.commits.tail, i ≤ (opened (s.kept k)).committed) ∧
    ((∀ i ∈ s.appended, i ≤ (opened (s.kept k)).lastIndex) ∨
      ∀ i ∈ s.commits, i ≤ (opened (s.kept k)).committed) := by
  have hI : ForgetInv s := by
    refine h.invariant_step ⟨walInv_opened db, le_rfl, ?_, ?_, .inl le_rfl, trivial⟩
      fun _ _ _ hI hs hok => hI.fires (step_fires hs) hok
    · exact fun _ hi => absurd hi List.not_mem_nil
    · exact fun _ hi => absurd hi List.not_mem_nil
  refine ⟨fun i hi => UInt64.le_iff_toNat_le.mpr (hI.appended i hi k hk.1 hk.2),
    fun i hi => UInt64.le_iff_toNat_le.mpr (hI.commits i hi k hk.1 hk.2), ?_⟩
  rcases hI.one with hcut | hcut
  · exact .inl fun i hi => UInt64.le_iff_toNat_le.mpr
      (kept_of_tracks hI.inv.last hcut i hi k hk.1 hk.2)
  · exact .inr fun i hi => UInt64.le_iff_toNat_le.mpr
      (kept_of_tracks hI.inv.cmt hcut i hi k hk.1 hk.2)

end Forget

/-- Two appends and a commit; the crash keeps all but the last counter. -/
def threeCalls : List WalStep :=
  [.append ⟨.deleteChunk, 1, ['c']⟩, .synced, .persist, .ret, .append ⟨.deleteChunk, 1, ['d']⟩, .synced,
    .persist, .ret, .commit 1, .synced, .persist, .ret]

def threeCallsState : WalRun := metaWal.final NoWrap (opened Kv.empty) threeCalls

theorem threeCallsState_run : metaWal.Run NoWrap (opened Kv.empty) threeCalls threeCallsState :=
  Machine.run_final (by decide +kernel)

theorem crash_forgets_one_commit :
    (∀ i ∈ threeCallsState.appended.tail, i ≤ (opened (threeCallsState.kept 5)).lastIndex) ∧
    (∀ i ∈ threeCallsState.commits.tail, i ≤ (opened (threeCallsState.kept 5)).committed) ∧
    ((∀ i ∈ threeCallsState.appended, i ≤ (opened (threeCallsState.kept 5)).lastIndex) ∨
      ∀ i ∈ threeCallsState.commits, i ≤ (opened (threeCallsState.kept 5)).committed) :=
  crash_forgets_one threeCallsState_run (by decide +kernel)

end NimbusVault
