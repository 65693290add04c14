import NimbusVault.Lib.Prefix
import NimbusVault.MetaWal

/-!
# Reopen — what the log covers after a crash

The entry of an append and the marker of a commit are on disk when the call returns; the counters
that `open` reads are not.  So the reopened log covers the indices of the calls that returned
exactly when the crash has kept the counter writes of those calls.
-/

namespace NimbusVault

open Lib

namespace WalRun

/-- A counter as it is found when `k` writes are kept. -/
def counterAt (s : WalRun) (key : Str) (k : ℕ) : ℕ := (readCounter (s.kept k) key).toNat

/-- From `cut` on, the counter is found to be `v`. -/
def Settled (s : WalRun) (key : Str) (cut : ℕ) (v : UInt64) : Prop :=
  ∀ k, cut ≤ k → k ≤ s.issued.length → s.counterAt key k = v.toNat

/-- Only the last write has made the counter `v`. -/
def Raised (s : WalRun) (key : Str) (v : UInt64) : Prop :=
  s.counterAt key s.issued.length = v.toNat ∧ ∀ k < s.issued.length, s.counterAt key k < v.toNat

/-- What the counters are, by the phase of the call under way. -/
def PhaseInv (s : WalRun) : Prop :=
  match s.call with
  | none | some (.commit _ .putting) | some (.commit _ .put) =>
    s.Settled lastIndexKey s.lastIndexAt s.lastIndex ∧ s.Settled committedKey s.committedAt s.committed
  | some (.append idx .persisted) =>
    (s.lastIndex = idx ∧ s.Raised lastIndexKey idx) ∧ s.Settled committedKey s.committedAt s.committed
  | some (.append idx _) =>
    (s.lastIndex = idx ∧ ∀ k ≤ s.issued.length, s.counterAt lastIndexKey k < idx.toNat) ∧
      s.Settled committedKey s.committedAt s.committed
  | some (.commit idx .persisted) =>
    s.Settled lastIndexKey s.lastIndexAt s.lastIndex ∧ s.committed = idx ∧ s.Raised committedKey idx

/-- The counter of the last index never wraps around. -/
def NoWrap (s : WalRun) : WalStep → Prop
  | .append _ => s.lastIndex < s.lastIndex + 1
  | _ => True

instance (s : WalRun) (l : WalStep) : Decidable (NoWrap s l) :=
  match l with
  | .append _ => inferInstanceAs (Decidable (s.lastIndex < s.lastIndex + 1))
  | .commit _ | .synced | .persist | .ret => .isTrue trivial

structure WalInv (s : WalRun) : Prop where
  last : Tracks (s.counterAt lastIndexKey) s.issued.length (s.appended.map UInt64.toNat) s.lastIndexAt
  cmt : Tracks (s.counterAt committedKey) s.issued.length (s.commits.map UInt64.toNat) s.committedAt
  phase : s.PhaseInv

/-! ### One more write -/

/-- `s'` is `s` after issuing `w`, as far as the database is concerned. -/
structure Issues (s : WalRun) (w : DbWrite) (s' : WalRun) : Prop where
  base : s'.base = s.base
  issued : s'.issued = s.issued ++ [w]

namespace Issues

variable {s s' : WalRun} {w : DbWrite} {key : Str} {k cut : ℕ} {v : UInt64}

theorem length (h : Issues s w s') : s'.issued.length = s.issued.length + 1 := by
  rw [h.issued, List.length_append]
  rfl

theorem counterAt_of_le (h : Issues s w s') (hk : k ≤ s.issued.length) :
    s'.counterAt key k = s.counterAt key k := by
  rw [counterAt, counterAt, kept, kept, h.base, h.issued, List.take_append_of_le_length hk]

theorem kept_last (h : Issues s w s') :
    s'.kept (s.issued.length + 1) = (s.kept s.issued.length).put w.key w.value := by
  rw [kept, ← h.length, List.take_length, kept, List.take_length, h.base, h.issued, putAll,
    List.foldl_append]
  rfl

theorem counterAt_of_ne (h : Issues s w s') (hkey : key ≠ w.key) :
    s'.counterAt key (s.issued.length + 1) = s.counterAt key s.issued.length := by
  rw [counterAt, counterAt, readCounter, h.kept_last, Kv.get_put_of_ne hkey]
  rfl

theorem counterAt_self {sync : Bool} (h : Issues s ⟨key, encodeCounter v, sync⟩ s') :
    s'.counterAt key (s.issued.length + 1) = v.toNat := by
  rw [counterAt, h.kept_last]
  exact congrArg _ (readCounter_encode Kv.get_put_self)

theorem settled (h : Issues s w s') (hs : s.Settled key cut v) (hcut : cut ≤ s.issued.length)
    (hkey : key ≠ w.key) : s'.Settled key cut v := by
  intro k hk hkn
  rw [h.length] at hkn
  rcases Nat.le_succ_iff.mp hkn with hkn | rfl
  · rw [h.counterAt_of_le hkn]
    exact hs k hk hkn
  · rw [h.counterAt_of_ne hkey]
    exact hs _ hcut le_rfl

theorem raised {sync : Bool} (h : Issues s ⟨key, encodeCounter v, sync⟩ s')
    (hlt : ∀ k ≤ s.issued.length, s.counterAt key k < v.toNat) : s'.Raised key v := by
  unfold Raised
  rw [h.length]
  refine ⟨h.counterAt_self, fun k hk => ?_⟩
  rw [h.counterAt_of_le (Nat.lt_succ_iff.mp hk)]
  exact hlt k (Nat.lt_succ_iff.mp hk)

theorem tracks {rets : List ℕ} (h : Issues s w s')
    (ht : Tracks (s.counterAt key) s.issued.length rets cut)
    (hle : s.counterAt key s.issued.length ≤ s'.counterAt key (s.issued.length + 1)) :
    Tracks (s'.counterAt key) s'.issued.length rets cut := by
  rw [h.length]
  exact ht.issue (fun k hk => h.counterAt_of_le hk) hle

end Issues

/-! ### The invariant -/

theorem lastIndexKey_ne_walKey (idx : UInt64) : lastIndexKey ≠ walKey idx := by
  simp [lastIndexKey, walKey]

theorem committedKey_ne_walKey (idx : UInt64) : committedKey ≠ walKey idx := by
  simp [committedKey, walKey]

theorem lastIndexKey_ne_cmtKey (idx : UInt64) : lastIndexKey ≠ cmtKey idx := by
  simp [lastIndexKey, cmtKey]

theorem committedKey_ne_cmtKey (idx : UInt64) : committedKey ≠ cmtKey idx := by
  simp [committedKey, cmtKey]

theorem lastIndexKey_ne_committedKey : lastIndexKey ≠ committedKey := by decide

variable {s s' : WalRun} {l : WalStep}

theorem walInv_opened (db : Kv Str Str) : WalInv (opened db) := by
  have tracks : ∀ key, Tracks ((opened db).counterAt key) 0 [] 0 := by
    intro key
    refine ⟨le_rfl, fun k hk => ?_, fun k _ => ⟨fun _ => Nat.zero_le k, fun _ r hr => ?_⟩⟩
    · rw [Nat.le_zero.mp hk]
    · exact absurd hr List.not_mem_nil
  have settled : ∀ key, (opened db).Settled key 0 (readCounter db key) := by
    intro key k _ hk
    rw [Nat.le_zero.mp hk]
    rfl
  exact ⟨tracks _, tracks _, settled _, settled _⟩

theorem WalInv.fires (hI : WalInv s) (h : s.Fires l s') (hok : NoWrap s l) : WalInv s' := by
  obtain ⟨hlast, hcmt, hph⟩ := hI
  cases h with
  | append e hc =>
    simp only [PhaseInv, hc] at hph
    have hiss : Issues s ⟨walKey (s.lastIndex + 1), encodeEntry e, true⟩ (s.putEntry e) := ⟨rfl, rfl⟩
    have hlast' := hiss.tracks hlast (hiss.counterAt_of_ne (lastIndexKey_ne_walKey _)).ge
    refine ⟨hlast', hiss.tracks hcmt (hiss.counterAt_of_ne (committedKey_ne_walKey _)).ge,
      ⟨rfl, fun k hk => ?_⟩, hiss.settled hph.2 hcmt.cut_le (committedKey_ne_walKey _)⟩
    refine (hlast'.le k hk).trans_lt ?_
    rw [hiss.length, hiss.counterAt_of_ne (lastIndexKey_ne_walKey _), hph.1 _ hlast.cut_le le_rfl]
    exact UInt64.lt_iff_toNat_lt.mp hok
  | commit idx hc =>
    simp only [PhaseInv, hc] at hph
    have hiss : Issues s ⟨cmtKey idx, ['1'], true⟩ (s.putMarker idx) := ⟨rfl, rfl⟩
    exact ⟨hiss.tracks hlast (hiss.counterAt_of_ne (lastIndexKey_ne_cmtKey _)).ge,
      hiss.tracks hcmt (hiss.counterAt_of_ne (committedKey_ne_cmtKey _)).ge,
      hiss.settled hph.1 hlast.cut_le (lastIndexKey_ne_cmtKey _),
      hiss.settled hph.2 hcmt.cut_le (committedKey_ne_cmtKey _)⟩
  | appendSynced hc =>
    simp only [PhaseInv, hc] at hph
    exact ⟨hlast, hcmt, hph⟩
  | commitSynced hc =>
    simp only [PhaseInv, hc] at hph
    exact ⟨hlast, hcmt, hph⟩
  | @appendPersist idx hc =>
    simp only [PhaseInv, hc] at hph
    obtain ⟨⟨rfl, hlt⟩, hset⟩ := hph
    have hiss : Issues s ⟨lastIndexKey, encodeCounter s.lastIndex, false⟩
        (s.persistLastIndex s.lastIndex) := ⟨rfl, rfl⟩
    refine ⟨hiss.tracks hlast ?_, hiss.tracks hcmt ?_, ⟨rfl, hiss.raised hlt⟩,
      hiss.settled hset hcmt.cut_le lastIndexKey_ne_committedKey.symm⟩
    · rw [hiss.counterAt_self]
      exact (hlt _ le_rfl).le
    · exact (hiss.counterAt_of_ne lastIndexKey_ne_committedKey.symm).ge
  | @commitPersist idx hc hrise =>
    simp only [PhaseInv, hc] at hph
    obtain ⟨hset, hcset⟩ := hph
    have hiss : Issues s ⟨committedKey, encodeCounter idx, false⟩ (s.persistCommitted idx) :=
      ⟨rfl, rfl⟩
    have hlt : ∀ k ≤ s.issued.length, s.counterAt committedKey k < idx.toNat := by
      intro k hk
      refine (hcmt.le k hk).trans_lt ?_
      rw [hcset _ hcmt.cut_le le_rfl]
      exact UInt64.lt_iff_toNat_lt.mp hrise
    refine ⟨hiss.tracks hlast ?_, hiss.tracks hcmt ?_,
      hiss.settled hset hlast.cut_le lastIndexKey_ne_committedKey, rfl, hiss.raised hlt⟩
    · exact (hiss.counterAt_of_ne lastIndexKey_ne_committedKey).ge
    · rw [hiss.counterAt_self]
      exact (hlt _ le_rfl).le
  | @appendRet idx hc =>
    simp only [PhaseInv, hc] at hph
    obtain ⟨⟨rfl, hraised⟩, hset⟩ := hph
    refine ⟨hlast.promise hraised.1 hraised.2, hcmt, fun k hk hkn => ?_, hset⟩
    rw [le_antisymm hkn hk]
    exact hraised.1
  | @commitRet idx hc =>
    simp only [PhaseInv, hc] at hph
    obtain ⟨hset, rfl, hraised⟩ := hph
    refine ⟨hlast, hcmt.promise hraised.1 hraised.2, hset, fun k hk hkn => ?_⟩
    rw [le_antisymm hkn hk]
    exact hraised.1
  | @commitRetOld idx hc hold =>
    simp only [PhaseInv, hc] at hph
    refine ⟨hlast, hcmt.promise_old fun k hk hkn => ?_, hph⟩
    rw [hph.2 k hk hkn]
    exact UInt64.le_iff_toNat_le.mp (UInt64.not_lt.mp hold)

end WalRun

section Reopen

open WalRun

/-- **What a reopened log covers.** Whatever the calls were and wherever they were cut, the log
reopened on the `k` writes that the crash kept covers all indices of the calls that had returned
exactly when these writes include the last `meta/last_index` write of an append that had returned
and the last `meta/committed` write of a commit that had returned. -/
theorem reopen_covers_iff {db : Kv Str Str} {tr : List WalStep} {s : WalRun}
    (h : metaWal.Run NoWrap (opened db) tr s) {k : ℕ} (hk : s.Crash k) :
    s.Covers k ↔ s.lastIndexAt ≤ k ∧ s.committedAt ≤ k := by
  have hI : WalInv s := h.invariant_step (walInv_opened db) fun _ _ _ hI hs hok =>
    hI.fires (step_fires hs) hok
  have hlast := hI.last.covers k hk.2
  have hcmt := hI.cmt.covers k hk.2
  rw [List.forall_mem_map] at hlast hcmt
  rw [← hlast, ← hcmt]
  unfold Covers
  simp only [UInt64.le_iff_toNat_le]
  rfl

/-- One append that returns. -/
def appendRun : List WalStep := [.append ⟨.deleteChunk, 1, ['c']⟩, .synced, .persist, .ret]

def appendState : WalRun := metaWal.final NoWrap (opened Kv.empty) appendRun

theorem appendState_run : metaWal.Run NoWrap (opened Kv.empty) appendRun appendState :=
  Machine.run_final (by decide +kernel)

/-- The crash keeps both of its writes. -/
theorem reopen_covers_append : appendState.Covers 2 :=
  (reopen_covers_iff appendState_run (k := 2) (by decide +kernel)).mpr (by decide +kernel)

/-- The crash keeps the entry, which is synchronous, and loses the counter. -/
theorem crash_forgets_append : ¬ ∀ (db : Kv Str Str) tr s, metaWal.Reach (opened db) tr s →
    ∀ k, s.Crash k → s.Covers k := by
  intro h
  have hcrash : appendState.Crash 1 := by decide +kernel
  have hindex : 1 ∈ appendState.appended := by decide +kernel
  have hlost : ¬ 1 ≤ (opened (appendState.kept 1)).lastIndex := by decide +kernel
  exact hlost ((h _ _ _ appendState_run.reach 1 hcrash).1 1 hindex)

end Reopen

end NimbusVault
