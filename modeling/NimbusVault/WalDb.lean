import NimbusVault.Follower
import NimbusVault.Reopen

/-!
# WalDb — the log at its database refines a list

`MetaWal` is the log between its calls: the database with the keys `wal/`, `cmt/` and `meta/`, and
the two counters in memory.  Entries are stored as bytes and decoded when they are read.  Every
sequence of appends, commits and reopenings keeps it in step with a `Wal`, the plain list of
entries with its mark (`WalDbInv.step`), and the two then answer alike (`metaWal_refines`).
-/

namespace NimbusVault

open Lib Lib.Text

/-! ### The codec of entries -/

def WalEntryType.ofCode : ℕ → Option WalEntryType
  | 0 => some .putChunk
  | 1 => some .deleteChunk
  | 2 => some .reconfigureStart
  | 3 => some .reconfigureCommit
  | 4 => some .nodeHeartbeat
  | 5 => some .policyUpdate
  | _ => none

/-- Fixed offsets, as the encoder writes them.  `none` for bytes it does not write: too few of them
(`substr` throws), or no code of a type. -/
def MetaWal.decodeEntry (raw : Str) : Option WalEntry :=
  if raw.length < 13 then none
  else (WalEntryType.ofCode (beNat (raw.take 1))).map fun type =>
    { type, term := beNat ((raw.drop 1).take 8),
      payload := (raw.drop 13).take (beNat ((raw.drop 9).take 4)) }

/-- What fits the fields of an entry: the term is a `uint64_t`, the length is stored in 32 bits. -/
def WalEntry.Fits (e : WalEntry) : Prop := e.term < 2 ^ 64 ∧ e.payload.length < 2 ^ 32

theorem WalEntryType.ofCode_code (t : WalEntryType) : ofCode t.code = some t := by cases t <;> rfl

theorem WalEntryType.beNat_code (t : WalEntryType) : beNat [Char.ofNat t.code] = t.code := by
  cases t <;> decide

/-- **An entry is read back as it was written**, whatever bytes its payload has. -/
theorem MetaWal.decodeEntry_encodeEntry {e : WalEntry} (h : e.Fits) :
    decodeEntry (encodeEntry e) = some e := by
  have hterm : beNat (beBytes 8 e.term) = e.term := by
    rw [beNat_beBytes, Nat.mod_eq_of_lt (h.1.trans_eq (by norm_num))]
  have hlen : beNat (beBytes 4 e.payload.length) = e.payload.length := by
    rw [beNat_beBytes, Nat.mod_eq_of_lt (h.2.trans_eq (by norm_num))]
  have hraw : encodeEntry e = [Char.ofNat e.type.code] ++
      (beBytes 8 e.term ++ (beBytes 4 e.payload.length ++ e.payload)) := by
    unfold encodeEntry
    dsimp only
    rw [Nat.mod_eq_of_lt h.2, List.take_length, List.append_assoc, List.append_assoc]
  have h13 : ¬ (encodeEntry e).length < 13 := by
    rw [hraw]
    simp
    omega
  have h9 : (encodeEntry e).drop 9 = beBytes 4 e.payload.length ++ e.payload := by
    rw [hraw, ← List.append_assoc]
    exact List.drop_left' (by simp)
  have hpay : (encodeEntry e).drop 13 = e.payload := by
    have h4 : (encodeEntry e).drop 13 = ((encodeEntry e).drop 9).drop 4 := by rw [List.drop_drop]
    rw [h4, h9]
    exact List.drop_left' (length_beBytes 4 _)
  have h0 : (encodeEntry e).take 1 = [Char.ofNat e.type.code] := by rw [hraw]; rfl
  have h1 : (encodeEntry e).drop 1 =
      beBytes 8 e.term ++ (beBytes 4 e.payload.length ++ e.payload) := by rw [hraw]; rfl
  unfold decodeEntry
  rw [if_neg h13, hpay, h9, List.take_left' (length_beBytes 4 _), hlen, List.take_length, h0, h1,
    List.take_left' (length_beBytes 8 _), hterm, WalEntryType.beNat_code, WalEntryType.ofCode_code,
    Option.map_some]

/-! ### The log between its calls -/

/-- The database and the counters in memory. -/
structure MetaWal where
  db : Kv Str Str
  lastIndex : UInt64
  committed : UInt64

namespace MetaWal

/-- The constructor: the counters are read from the database. -/
def opened (db : Kv Str Str) : MetaWal where
  db := db
  lastIndex := readCounter db lastIndexKey
  committed := readCounter db committedKey

/-- The index of the entry, and the log with it. -/
def append (w : MetaWal) (type : WalEntryType) (term : UInt64) (payload : Str) : UInt64 × MetaWal :=
  let idx := w.lastIndex + 1
  let db := w.db.put (walKey idx) (encodeEntry ⟨type, term.toNat, payload⟩)
  (idx, { w with db := db.put lastIndexKey (encodeCounter idx), lastIndex := idx })

def commit (w : MetaWal) (idx : UInt64) : MetaWal :=
  let db := w.db.put (cmtKey idx) ['1']
  if w.committed < idx then
    { w with db := db.put committedKey (encodeCounter idx), committed := idx }
  else { w with db }

def readEntry (w : MetaWal) (idx : UInt64) : Option WalEntry := (w.db.get (walKey idx)).bind decodeEntry

/-- The calls of the callback: index and entry.  Missing entries are skipped. -/
def replay (w : MetaWal) : List (ℕ × WalEntry) :=
  (List.range' 1 w.committed.toNat).filterMap fun i =>
    (w.readEntry (UInt64.ofNat i)).map fun e => (i, e)

end MetaWal

inductive WalOp
  | append (type : WalEntryType) (term : UInt64) (payload : Str)
  | commit (idx : UInt64)
  /-- A clean close, and the constructor on the same directory. -/
  | reopen

namespace MetaWal

def apply (w : MetaWal) : WalOp → MetaWal
  | .append type term payload => (w.append type term payload).2
  | .commit idx => w.commit idx
  | .reopen => opened w.db

/-- What callers keep to: payloads below 4 GiB, and commits of indices that the log has. -/
def Allowed (w : MetaWal) : WalOp → Prop
  | .append _ _ payload => payload.length < 2 ^ 32
  | .commit idx => idx ≤ w.lastIndex
  | .reopen => True

end MetaWal

instance (w : MetaWal) (op : WalOp) : Decidable (w.Allowed op) :=
  match op with
  | .append _ _ payload => inferInstanceAs (Decidable (payload.length < 2 ^ 32))
  | .commit idx => inferInstanceAs (Decidable (idx ≤ w.lastIndex))
  | .reopen => .isTrue trivial

/-- All sequences of allowed calls. -/
abbrev walCalls : Machine MetaWal WalOp where
  guard := MetaWal.Allowed
  next := MetaWal.apply

/-- The same call on the plain list. -/
def Wal.apply (m : Wal) : WalOp → Wal
  | .append type term payload => m.append ⟨type, term.toNat, payload⟩
  | .commit idx => m.commit idx.toNat
  | .reopen => m

/-! ### In step with the list -/

/-- The database holds the list's entries, and the counters are its length and its mark, in memory
and on disk. -/
structure WalDbInv (w : MetaWal) (m : Wal) : Prop where
  last : w.lastIndex.toNat = m.lastLogIndex
  mark : w.committed.toNat = m.committed
  mark_le : m.committed ≤ m.lastLogIndex
  entry : ∀ i : UInt64, w.db.get (walKey i) = (m.readEntry i.toNat).map encodeEntry
  lastStored : readCounter w.db lastIndexKey = w.lastIndex
  markStored : readCounter w.db committedKey = w.committed
  fits : ∀ e ∈ m.records, e.Fits

theorem walKey_inj {i j : UInt64} : walKey i = walKey j ↔ i = j := by
  refine ⟨fun h => ?_, fun h => h ▸ rfl⟩
  have hbytes : beBytes 8 i.toNat = beBytes 8 j.toNat := List.append_cancel_left h
  have hnat := congrArg beNat hbytes
  rw [beNat_beBytes, beNat_beBytes, Nat.mod_eq_of_lt (i.toNat_lt.trans_eq (by norm_num)),
    Nat.mod_eq_of_lt (j.toNat_lt.trans_eq (by norm_num))] at hnat
  exact UInt64.toNat_inj.mp hnat

theorem walKey_ne_cmtKey (i j : UInt64) : walKey i ≠ cmtKey j := by simp [walKey, cmtKey]

theorem readCounter_put_of_ne {db : Kv Str Str} {key key' v : Str} (h : key ≠ key') :
    readCounter (db.put key' v) key = readCounter db key := by
  rw [readCounter, readCounter, Kv.get_put_of_ne h]

section Refines

variable {w : MetaWal} {m : Wal} {op : WalOp}

theorem walDbInv_opened : WalDbInv (.opened Kv.empty) {} where
  last := rfl
  mark := rfl
  mark_le := le_rfl
  entry i := by simp [MetaWal.opened, Wal.readEntry]
  lastStored := rfl
  markStored := rfl
  fits _ h := by simp at h

/-- The entries of a longer list. -/
theorem Wal.readEntry_append (e : WalEntry) (i : ℕ) :
    (m.append e).readEntry i = if i = m.lastLogIndex + 1 then some e else m.readEntry i := by
  unfold Wal.readEntry Wal.append Wal.lastLogIndex
  by_cases h0 : i = 0
  · simp [h0]
  · rw [if_neg h0, if_neg h0, List.getElem?_append]
    split_ifs with hlt heq heq
    · omega
    · rfl
    · simp [heq]
    · have hle : m.records.length ≤ i - 1 := not_lt.mp hlt
      have hpos : i - 1 - m.records.length ≠ 0 := by omega
      rw [List.getElem?_eq_none hle, List.getElem?_singleton, if_neg hpos]

theorem toNat_succ {i : UInt64} (h : i.toNat + 1 < 2 ^ 64) : (i + 1).toNat = i.toNat + 1 := by
  rw [UInt64.toNat_add]
  exact Nat.mod_eq_of_lt h

/-- **A call keeps the log in step.** -/
theorem WalDbInv.step (h : WalDbInv w m) (hop : w.Allowed op) (hlt : m.lastLogIndex + 1 < 2 ^ 64) :
    WalDbInv (w.apply op) (m.apply op) := by
  obtain ⟨hlast, hmark, hle, hentry, hls, hms, hfits⟩ := h
  cases op with
  | append type term payload =>
    have hidx : (w.lastIndex + 1).toNat = m.lastLogIndex + 1 := by
      rw [toNat_succ (hlast ▸ hlt), hlast]
    refine ⟨?_, hmark, ?_, fun i => ?_, readCounter_encode Kv.get_put_self, ?_, fun e he => ?_⟩
    · rw [Wal.apply, Wal.lastLogIndex_append]
      exact hidx
    · rw [Wal.apply, Wal.lastLogIndex_append]
      exact hle.trans (Nat.le_succ _)
    · show ((w.db.put _ _).put _ _).get _ = _
      rw [Kv.get_put_of_ne (WalRun.lastIndexKey_ne_walKey i).symm, Kv.get_put, Wal.apply,
        Wal.readEntry_append, ← hidx]
      simp only [walKey_inj, UInt64.toNat_inj]
      split_ifs
      · rfl
      · exact hentry i
    · show readCounter ((w.db.put _ _).put _ _) _ = _
      rw [readCounter_put_of_ne WalRun.lastIndexKey_ne_committedKey.symm,
        readCounter_put_of_ne (WalRun.committedKey_ne_walKey _)]
      exact hms
    · rcases List.mem_append.mp he with he | he
      · exact hfits e he
      · obtain rfl := List.mem_singleton.mp he
        exact ⟨term.toNat_lt, hop⟩
  | commit idx =>
    have hidx : idx.toNat ≤ m.lastLogIndex := hlast ▸ UInt64.le_iff_toNat_le.mp hop
    have hget : ∀ i, (w.db.put (cmtKey idx) ['1']).get (walKey i) = w.db.get (walKey i) := fun i =>
      Kv.get_put_of_ne (walKey_ne_cmtKey i idx)
    have hls' : readCounter (w.db.put (cmtKey idx) ['1']) lastIndexKey = w.lastIndex := by
      rw [readCounter_put_of_ne (WalRun.lastIndexKey_ne_cmtKey idx), hls]
    have hms' : readCounter (w.db.put (cmtKey idx) ['1']) committedKey = w.committed := by
      rw [readCounter_put_of_ne (WalRun.committedKey_ne_cmtKey idx), hms]
    rw [MetaWal.apply, MetaWal.commit]
    split_ifs with hrise
    · have hrise' : m.committed < idx.toNat := hmark ▸ UInt64.lt_iff_toNat_lt.mp hrise
      refine ⟨hlast, (max_eq_right hrise'.le).symm, max_le hle hidx, fun i => ?_, ?_,
        readCounter_encode Kv.get_put_self, hfits⟩
      · rw [Kv.get_put_of_ne (WalRun.committedKey_ne_walKey i).symm, hget]
        exact hentry i
      · rw [readCounter_put_of_ne WalRun.lastIndexKey_ne_committedKey]
        exact hls'
    · have hold : idx.toNat ≤ m.committed :=
        hmark ▸ UInt64.le_iff_toNat_le.mp (UInt64.not_lt.mp hrise)
      exact ⟨hlast, hmark.trans (max_eq_left hold).symm, max_le hle hidx,
        fun i => (hget i).trans (hentry i), hls', hms', hfits⟩
  | reopen =>
    exact ⟨(congrArg UInt64.toNat hls).trans hlast, (congrArg UInt64.toNat hms).trans hmark, hle,
      hentry, rfl, rfl, hfits⟩

theorem Wal.lastLogIndex_apply : (m.apply op).lastLogIndex ≤ m.lastLogIndex + 1 := by
  cases op with
  | append type term payload => exact Wal.lastLogIndex_append.le
  | commit idx => exact Nat.le_succ _
  | reopen => exact Nat.le_succ _

/-- In step after any sequence of calls, as long as the index fits its 64 bits. -/
theorem walDbInv_of_run {tr : List WalOp} (h : walCalls.Reach (.opened Kv.empty) tr w)
    (hlen : tr.length < 2 ^ 64) :
    WalDbInv w (tr.foldl Wal.apply {}) ∧ (tr.foldl Wal.apply {}).lastLogIndex ≤ tr.length := by
  induction h with
  | nil => exact ⟨walDbInv_opened, le_rfl⟩
  | @snoc tr w op _ hop _ ih =>
    rw [List.length_append, List.length_singleton] at hlen ⊢
    obtain ⟨hinv, hle⟩ := ih (by omega)
    rw [List.foldl_concat]
    exact ⟨hinv.step hop (by omega), Wal.lastLogIndex_apply.trans (Nat.succ_le_succ hle)⟩

theorem WalDbInv.readEntry (h : WalDbInv w m) (i : UInt64) : w.readEntry i = m.readEntry i.toNat := by
  rw [MetaWal.readEntry, h.entry]
  cases he : m.readEntry i.toNat with
  | none => rfl
  | some e =>
    have hmem : e ∈ m.records := by
      unfold Wal.readEntry at he
      split_ifs at he
      exact List.mem_of_getElem? he
    rw [Option.map_some, Option.bind_some, MetaWal.decodeEntry_encodeEntry (h.fits e hmem)]

/-- The callback sees every committed entry once, in order. -/
theorem WalDbInv.replay (h : WalDbInv w m) (hlt : m.lastLogIndex < 2 ^ 64) :
    w.replay.map Prod.fst = List.range' 1 m.committed ∧
      ∀ p ∈ w.replay, m.readEntry p.1 = some p.2 := by
  have hread : ∀ i ∈ List.range' 1 m.committed,
      ∃ e, w.readEntry (UInt64.ofNat i) = some e ∧ m.readEntry i = some e := by
    intro i hi
    have hi' := List.mem_range'_1.mp hi
    have hle := h.mark_le
    obtain ⟨e, he⟩ := Wal.readEntry_isSome (w := m) hi'.1 (by omega)
    have hnat : (UInt64.ofNat i).toNat = i := UInt64.toNat_ofNat_of_lt' (lt_of_le_of_lt (by omega) hlt)
    exact ⟨e, by rw [h.readEntry, hnat, he], he⟩
  rw [MetaWal.replay, h.mark]
  generalize List.range' 1 m.committed = is at hread
  induction is with
  | nil => exact ⟨rfl, fun p hp => by simp at hp⟩
  | cons i is ih =>
    obtain ⟨e, hw, hm⟩ := hread i (by simp)
    obtain ⟨hfst, hsnd⟩ := ih fun j hj => hread j (by simp [hj])
    rw [List.filterMap_cons_some (b := (i, e)) (by rw [hw]; rfl)]
    refine ⟨congrArg (i :: ·) hfst, fun p hp => ?_⟩
    rcases List.mem_cons.mp hp with rfl | hp
    · exact hm
    · exact hsnd p hp

/-- **The log at its database is the plain list**, after any sequence of allowed calls. -/
theorem metaWal_refines {tr : List WalOp} (h : walCalls.Reach (.opened Kv.empty) tr w)
    (hlen : tr.length + 1 < 2 ^ 64) :
    let m : Wal := tr.foldl Wal.apply {}
    w.lastIndex.toNat = m.lastLogIndex ∧ w.committed.toNat = m.committed ∧
      (∀ type term payload, (w.append type term payload).1.toNat = m.lastLogIndex + 1) ∧
      (∀ i, w.readEntry i = m.readEntry i.toNat) ∧
      w.replay.map Prod.fst = List.range' 1 m.committed ∧
      ∀ p ∈ w.replay, m.readEntry p.1 = some p.2 := by
  obtain ⟨hinv, hle⟩ := walDbInv_of_run h (by omega)
  refine ⟨hinv.last, hinv.mark, fun type term payload => ?_, hinv.readEntry, hinv.replay (by omega)⟩
  show (w.lastIndex + 1).toNat = _
  rw [toNat_succ (by rw [hinv.last]; omega), hinv.last]

end Refines

/-- Two appends, a commit, and a reopening in between. -/
def walOps : List WalOp :=
  [.append .putChunk 1 "a".toList, .commit 1, .reopen, .append .deleteChunk 2 "b".toList]

def walAfter : MetaWal := walCalls.final (fun _ _ => True) (.opened Kv.empty) walOps

theorem walAfter_run : walCalls.Reach (.opened Kv.empty) walOps walAfter :=
  Machine.run_final (by decide +kernel)

theorem metaWal_refines_reopened :
    let m : Wal := walOps.foldl Wal.apply {}
    walAfter.lastIndex.toNat = m.lastLogIndex ∧ walAfter.committed.toNat = m.committed ∧
      (∀ type term payload, (walAfter.append type term payload).1.toNat = m.lastLogIndex + 1) ∧
      (∀ i, walAfter.readEntry i = m.readEntry i.toNat) ∧
      walAfter.replay.map Prod.fst = List.range' 1 m.committed ∧
      ∀ p ∈ walAfter.replay, m.readEntry p.1 = some p.2 :=
  metaWal_refines walAfter_run (by decide)

end NimbusVault
